import GraphQLTyping.Fault
import GraphQLTyping.Schema.Subtype
import GraphQLTyping.Validation.Site

/-!
# Valid fragments

Fragments have names of their own, each is spread by some operation, no fragment leads back to
itself, and each stands where it can apply: its type and the enclosing type overlap.
-/

namespace GraphQLTyping

/-- The fragment at a site is known, and its type overlaps with the enclosing type if both are
known. -/
def Site.fragmentFits (d : Document) (s : Schema) : Site → Bool
  | .field .. => true
  | .spread parent _ head =>
    match d.fragment? head.name with
    | none => false
    | some f =>
      match parent, s.composite? f.condition with
      | some outer, some inner => s.overlap inner outer
      | _, _ => true
  | .inlineFragment parent _ head _ =>
    match parent, s.narrowed? parent head.condition with
    | some outer, some inner => s.overlap inner outer
    | _, _ => true

namespace Document

/-- Some operation leads to each fragment. -/
def fragmentsUsed (d : Document) : Bool :=
  let used := d.operations.flatMap fun o => (d.reachedFragments o.selections).map (·.name)
  d.fragmentNames.all used.contains

/-- Follows spreads from the fragment of a name, at most so many in each other, and counts those
that lead back to a fragment on the way here.  A fragment is gone through once; the state holds the
names of those that were. -/
def spreadsBack (d : Document) : Nat → List String → String → StateM (List String) Nat
  | 0, _, _ => return 0
  | depth + 1, way, name => do
    if (← get).contains name then return 0
    modify (name :: ·)
    let counts ← (d.spreadsIn name).mapM fun next =>
      if (name :: way).contains next then pure 1 else d.spreadsBack depth (name :: way) next
    return counts.sum

/-- The number of spreads by which the given fragments lead back to themselves. -/
def circleFaults (d : Document) (names : List String) : Nat :=
  total id ((names.mapM (d.spreadsBack (d.fragmentNames.length + 1) [])).run []).1

/-- The faults of the fragments at the sites of a definition. -/
def spreadFaults (d : Document) (s : Schema) (e : Executable) : Nat :=
  (e.sites s).countP (!·.fragmentFits d s)

end Document

end GraphQLTyping
