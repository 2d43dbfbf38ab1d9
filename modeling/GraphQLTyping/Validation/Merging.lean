import Std.Data.HashMap
import GraphQLTyping.Validation.Site

/-!
# Fields that merge

Fields with the same response name, reached in one selection set, are answered once, so they must
agree.  They always agree in the **shape** of their answers: the same wrappers around the same leaf
type, or around any composite types.  Unless they are **apart**, they agree in name and arguments as
well.  Fields of two different object types are apart, as no value has both of them, and so is
whatever is selected in two fields that are apart.

A **comparison** is of two fields, of a set of fields with a fragment, or of two fragments.  Those
of a document start with the ones inside each selection set; each leads to further ones, down to
the fields that fragments spread and fields select.  Comparisons with fragments are made once,
however many ways lead to them, and the two sides of one are never the same field.  A document that
takes too many comparisons (`comparisonLimit`) is not looked at to the end.

* `Comparison.next`: what a comparison leads to.
* `Document.compare`: makes a comparison and all it leads to, and counts the fields that disagree.
* `Document.conflicts?`: the fields of a document that do not merge.
-/

namespace GraphQLTyping

/-- A **placed field**: a field, the type that encloses it, and its declaration there. -/
structure PlacedField where
  parent : Option TypeDef
  head : FieldHead
  selections : List Selection
  declared : Option FieldDef
deriving Inhabited

mutual

/-- The fields of a selection, fragments not being followed. -/
def Selection.placedFields (s : Schema) (parent : Option TypeDef) :
    Selection → List PlacedField
  | .field head selections =>
    [⟨parent, head, selections, parent.bind (·.field? head.name)⟩]
  | .spread _ => []
  | .inlineFragment head selections =>
    Selection.allPlacedFields s (s.narrowed? parent head.condition) selections

/-- The fields of selections, fragments not being followed. -/
def Selection.allPlacedFields (s : Schema) (parent : Option TypeDef) :
    List Selection → List PlacedField
  | [] => []
  | selection :: rest =>
    selection.placedFields s parent ++ Selection.allPlacedFields s parent rest

end

mutual

/-- The fragments spread in a selection, those in fields apart. -/
def Selection.directSpreads : Selection → List String
  | .field .. => []
  | .spread head => [head.name]
  | .inlineFragment _ selections => Selection.allDirectSpreads selections

/-- The fragments spread in selections, those in fields apart. -/
def Selection.allDirectSpreads : List Selection → List String
  | [] => []
  | selection :: rest => selection.directSpreads ++ Selection.allDirectSpreads rest

end

/-- The arguments of two fields are the same literals, in any order.  Of several arguments of one
name, all of the first field are compared with the last of the second. -/
def sameArguments (a b : List Argument) : Bool :=
  a.length == b.length && a.all fun x =>
    match b.reverse.find? (·.name == x.name) with
    | some y => x.value.same y.value
    | none => false

/-- The answers of two types have the same shape. -/
def Schema.sameShape (s : Schema) : TypeRef → TypeRef → Bool
  | .named a marked, .named b needed =>
    marked == needed && (a == b || !((s.named a).isLeaf || (s.named b).isLeaf))
  | .list a marked, .list b needed => marked == needed && s.sameShape a b
  | _, _ => false

namespace PlacedField

/-- The type that encloses the selections of a placed field. -/
def below? (s : Schema) (f : PlacedField) : Option TypeDef :=
  f.declared.bind fun field => s.composite? field.type.name

/-- Two fields are of two different object types. -/
def isApartFrom (f g : PlacedField) : Bool :=
  match f.parent, g.parent with
  | some t, some u => t.isObject && u.isObject && t.name != u.name
  | _, _ => false

/-- Two fields have answers of the same shape, as far as their types are known. -/
def agreesInShape (s : Schema) (a b : PlacedField) : Bool :=
  match a.declared, b.declared with
  | some x, some y => s.sameShape x.type y.type
  | _, _ => true

/-- Two fields have the same name and arguments. -/
def agreesInCall (a b : PlacedField) : Bool :=
  a.head.name == b.head.name && sameArguments a.head.arguments b.head.arguments

/-- Two fields agree, being apart or not. -/
def agrees (s : Schema) (apart : Bool) (a b : PlacedField) : Bool :=
  a.agreesInShape s b && (apart || a.agreesInCall b)

end PlacedField

/-- A **set of fields**: those that selections have without fragments, the fragments spread there,
and what tells the set apart from others: where it stands, and in what type. -/
structure FieldSet where
  place : Nat × Option String
  fields : List PlacedField
  spreads : List String
deriving Inhabited

/-- The set of fields of selections that stand at an offset. -/
def FieldSet.ofSelections (s : Schema) (start : Nat) (parent : Option TypeDef)
    (selections : List Selection) : FieldSet :=
  { place := (start, parent.map (·.name))
    fields := Selection.allPlacedFields s parent selections
    spreads := (Selection.allDirectSpreads selections).eraseDups }

/-- The set of fields selected in a placed field. -/
def PlacedField.below (s : Schema) (f : PlacedField) : FieldSet :=
  .ofSelections s f.head.span.start (f.below? s) f.selections

/-- The set of fields of the fragment of a name. -/
def Document.fragmentSet? (d : Document) (s : Schema) (name : String) : Option FieldSet :=
  (d.fragment? name).map fun f =>
    .ofSelections s f.span.start (s.composite? f.condition) f.selections

/-- The sets of fields of a definition: its own, and those selected in fields at any depth.  What
inline fragments select belongs to the set around them. -/
def Executable.fieldSets (s : Schema) (e : Executable) : List FieldSet :=
  .ofSelections s e.span.start (e.parent? s) e.selections :: (e.sites s).filterMap fun
    | .field parent head selections =>
      some (.ofSelections s head.span.start (s.below? parent head.name) selections)
    | _ => none

/-- A **comparison**: of two fields with one response name, of the fields of a set with those of a
fragment, or of those of two fragments. -/
inductive Comparison where
  | fields (a b : PlacedField)
  | withFragment (set : FieldSet) (name : String)
  | fragments (a b : String)
deriving Inhabited

/-- What tells comparisons with fragments apart. -/
inductive ComparisonKey where
  | withFragment (place : Nat × Option String) (name : String)
  | fragments (a b : String)
deriving BEq, Hashable

/-- The key of a comparison of two fragments, in either order. -/
def ComparisonKey.ofFragments (a b : String) : ComparisonKey :=
  if a ≤ b then .fragments a b else .fragments b a

/-- The number of comparisons that a document may take. -/
def comparisonLimit : Nat := 250000

/-- How many comparisons are left, and which of those with fragments were made, each for sides that
were apart or for any. -/
structure Comparisons where
  left : Nat := comparisonLimit
  made : Std.HashMap ComparisonKey Bool := {}

/-- A step that makes comparisons.  It fails when none is left. -/
abbrev CompareStep := StateT Comparisons Option

namespace CompareStep

/-- Takes one from the comparisons that are left. -/
def spend : CompareStep Unit := do
  match (← get).left with
  | 0 => failure
  | left + 1 => modify fun c => { c with left }

/-- Makes a comparison unless it was made before.  What was compared for any sides need not be
compared for sides that are apart. -/
def unlessMade (key : ComparisonKey) (apart : Bool) (step : CompareStep Nat) : CompareStep Nat := do
  if (← get).made[key]?.any (fun wasApart => apart || !wasApart) then return 0
  modify fun c => { c with made := c.made.insert key apart }
  step

/-- The sum of what a step answers for each of several things. -/
def sum {α : Type} (step : α → CompareStep Nat) : List α → CompareStep Nat
  | [] => return 0
  | x :: rest => return (← step x) + (← sum step rest)

end CompareStep

open CompareStep

/-- Compares the fields of two lists that have the same response names. -/
def compareFields (compare : Comparison → CompareStep Nat) (these those : List PlacedField) :
    CompareStep Nat :=
  sum (fun a => sum (fun b =>
    if a.head.responseName == b.head.responseName then compare (.fields a b) else return 0)
    those) these

/-- Compares the fields of a list with each other. -/
def compareWithin (compare : Comparison → CompareStep Nat) : List PlacedField → CompareStep Nat
  | [] => return 0
  | a :: rest => return (← compareFields compare [a] rest) + (← compareWithin compare rest)

/-- Compares fragments with each other, and each with a set. -/
def compareFragments (compare : Comparison → CompareStep Nat) (set : FieldSet) :
    List String → CompareStep Nat
  | [] => return 0
  | a :: rest =>
    return (← compare (.withFragment set a)) + (← sum (compare <| .fragments a ·) rest)
      + (← compareFragments compare set rest)

/-- What a comparison leads to, given how to make it. -/
def Comparison.next (d : Document) (s : Schema) (compare : Comparison → CompareStep Nat) :
    Comparison → CompareStep Nat
  | .fields a b => do
    if a.selections.isEmpty || b.selections.isEmpty then return 0
    let x := a.below s
    let y := b.below s
    return (← compareFields compare x.fields y.fields)
      + (← sum (compare <| .withFragment x ·) y.spreads)
      + (← sum (compare <| .withFragment y ·) x.spreads)
      + (← sum (fun m => sum (compare <| .fragments m ·) y.spreads) x.spreads)
  | .withFragment x name =>
    match d.fragmentSet? s name with
    | none => return 0
    | some y => do
      if x.place == y.place then return 0
      return (← compareFields compare x.fields y.fields)
        + (← sum (compare <| .withFragment x ·) y.spreads)
  | .fragments m n =>
    match d.fragmentSet? s m, d.fragmentSet? s n with
    | some x, some y =>
      return (← compareFields compare x.fields y.fields)
        + (← sum (compare <| .fragments m ·) y.spreads)
        + (← sum (compare <| .fragments · n) x.spreads)
    | _, _ => return 0

namespace Document

/-- Makes a comparison of sides that are apart or not, with all that it leads to, at most so many in
each other, and counts the fields that disagree.  Two fields count once, whatever disagrees in
them. -/
def compare (d : Document) (s : Schema) : Nat → Bool → Comparison → CompareStep Nat
  | 0, _, _ => failure
  | depth + 1, apart, comparison => do
    spend
    let further (apart : Bool) := comparison.next d s (d.compare s depth apart)
    match comparison with
    | .fields a b =>
      let apart := apart || a.isApartFrom b
      if a.agrees s apart b then return min 1 (← further apart) else return 1
    | .withFragment set name => unlessMade (.withFragment set.place name) apart (further apart)
    | .fragments m n =>
      if m == n then return 0 else unlessMade (.ofFragments m n) apart (further apart)

/-- The fields of given definitions that do not merge, unless that takes too many comparisons.  Each
comparison takes one, so that there are no more than these in each other. -/
def conflicts? (d : Document) (s : Schema) (definitions : List Executable) : Option Nat :=
  let compare := d.compare s (comparisonLimit + 1) false
  let within (set : FieldSet) : CompareStep Nat :=
    return (← compareWithin compare set.fields) + (← compareFragments compare set set.spreads)
  (sum (fun e => sum within (e.fieldSets s)) definitions).run' {}

end Document

end GraphQLTyping
