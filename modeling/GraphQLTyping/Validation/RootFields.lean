import GraphQLTyping.Schema.Subtype
import GraphQLTyping.Validation.Site

/-!
# Root fields of subscriptions

Which fields a subscription asks for at its root is found out before it runs, when no variable has a
value.  The directives `skip` and `include` there must have conditions that are written out; if one
has not, the fields stay **undecided**.

Selections are gone through in order.  A fragment is entered once, at the first spread of it that is
kept, and fragments that do not apply to the root type are passed over; the conditions inside what
is passed over do not matter.

That takes **steps**: one for each selection that is gone through and each fragment that is entered,
and two for each directive that may leave a selection out.  A document has so many steps for all its
subscriptions together (`stepLimit`); when none is left, they are **too many**.

* `Document.subscribedFields`: the fields that a subscription asks for, and the steps then left.
-/

namespace GraphQLTyping

/-- Why the root fields of a subscription are not found out. -/
inductive RootFailure where
  | undecided
  | tooMany
deriving DecidableEq, Inhabited

/-- The condition of a directive of the given name among several, or what holds without it. -/
def condition? (directives : List Directive) (name : String) (otherwise : Bool) : Option Bool :=
  match directives.find? (·.name == name) with
  | none => some otherwise
  | some d =>
    match d.arguments.reverse.find? (·.name == "if") with
    | some ⟨_, .boolean holds⟩ => some holds
    | _ => none

/-- Whether directives keep their part of a document.  What is skipped is not asked whether it is to
be included. -/
def isKept? (directives : List Directive) : Option Bool := do
  if ← condition? directives "skip" false then return false
  condition? directives "include" true

/-- What has been gone through, the last first: the fields, and the names of the fragments; and the
steps that are left. -/
structure RootFields where
  fields : List FieldHead := []
  fragments : List String := []
  left : Nat
deriving Inhabited

/-- A step through the selections at a root. -/
abbrev RootStep := StateT RootFields (Except RootFailure)

namespace RootStep

/-- Takes so many of the steps that are left. -/
def spend (steps : Nat) : RootStep Unit := do
  if (← get).left < steps then throw .tooMany
  modify fun r => { r with left := r.left - steps }

/-- Whether directives keep their part of a document. -/
def keeps (directives : List Directive) : RootStep Bool := do
  spend (2 * directives.length)
  match isKept? directives with
  | some kept => return kept
  | none => throw .undecided

end RootStep

open RootStep

mutual

/-- Goes through a selection, given how to enter a fragment. -/
def Selection.collect (applies : String → Bool) (enter : String → RootStep Unit) :
    Selection → RootStep Unit
  | .field head _ => do
    spend 1
    if ← keeps head.directives then
      modify fun r => { r with fields := head :: r.fields }
  | .spread head => do
    spend 1
    unless (← get).fragments.contains head.name do
      if ← keeps head.directives then
        modify fun r => { r with fragments := head.name :: r.fragments }
        enter head.name
  | .inlineFragment head selections => do
    spend 1
    if ← keeps head.directives then
      if head.condition.all applies then Selection.collectAll applies enter selections

/-- Goes through selections. -/
def Selection.collectAll (applies : String → Bool) (enter : String → RootStep Unit) :
    List Selection → RootStep Unit
  | [] => return
  | selection :: rest => do
    selection.collect applies enter
    Selection.collectAll applies enter rest

end

namespace Document

/-- Goes through a fragment that applies, with at most the given number of fragments in each
other. -/
def enterFragment (d : Document) (applies : String → Bool) : Nat → String → RootStep Unit
  | 0, _ => return
  | depth + 1, name =>
    match d.fragment? name with
    | some f =>
      if applies f.condition then do
        spend 1
        Selection.collectAll applies (d.enterFragment applies depth) f.selections
      else return
    | none => return

/-- The fields that a subscription asks for at its root, and how many of the given steps are left
then.  Operations of other kinds, and those of schemas without subscriptions, ask for none. -/
def subscribedFields (d : Document) (s : Schema) (left : Nat) (o : Operation) :
    Except RootFailure (List FieldHead × Nat) :=
  match o.kind, s.root? .subscription with
  | .subscription, some root => do
    let applies := s.isNamedSubtype root.name
    let enter := d.enterFragment applies (d.fragments.length + 1)
    let (_, collected) ← (Selection.collectAll applies enter o.selections).run { left }
    return (collected.fields.reverse, collected.left)
  | _, _ => return ([], left)

/-- Finds out the root fields of subscriptions, definition by definition, so many steps being left,
up to the operation at which that fails.  Answers the definitions before it, which are all of them
if it does not fail, and the operation with the reason. -/
def untilRootFailure (d : Document) (s : Schema) :
    Nat → List Definition → List Definition × Option (Operation × RootFailure)
  | _, [] => ([], none)
  | left, .operation o :: rest =>
    match d.subscribedFields s left o with
    | .ok (_, left) =>
      let (before, failure) := d.untilRootFailure s left rest
      (.operation o :: before, failure)
    | .error why => ([], some (o, why))
  | left, definition :: rest =>
    let (before, failure) := d.untilRootFailure s left rest
    (definition :: before, failure)

end Document

end GraphQLTyping
