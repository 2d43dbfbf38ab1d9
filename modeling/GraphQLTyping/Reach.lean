import Std.Data.HashSet

/-!
# Reachability

Two searches for all that steps lead to, circles or not.

* `reach next names starts`: the names among `names` that steps of `next` lead to from the `starts`,
  these included.  Each round finds one more name and takes it from those that remain, so circles
  end by themselves.
* `explore key next rounds starts`: the same for things of any type that are told apart by a key, in
  at most so many rounds.  A round follows all steps from what the round before it found.
-/

namespace GraphQLTyping

/-- The names among those that remain that can be reached from the given ones. -/
def reach (next : String → List String) (remaining pending : List String) : List String :=
  match _found : remaining.find? pending.contains with
  | none => []
  | some name => name :: reach next (remaining.erase name) (next name ++ pending)
termination_by remaining.length
decreasing_by
  have inside : name ∈ remaining := List.mem_of_find?_eq_some _found
  have shorter := List.length_erase_of_mem inside
  have positive := List.length_pos_of_mem inside
  omega

/-- Whether steps lead from a name back to it. -/
def isOnCircle (next : String → List String) (names : List String) (name : String) : Bool :=
  (reach next names (next name)).contains name

section Explore

variable {α κ : Type} [BEq κ] [Hashable κ]

/-- Those among the pending whose keys are not known yet, one for each key, and the known keys with
theirs. -/
def newlyFound (key : α → κ) (known : Std.HashSet κ) (pending : List α) :
    List α × Std.HashSet κ :=
  pending.foldl
    (fun (found, known) x =>
      if known.contains (key x) then (found, known) else (x :: found, known.insert (key x)))
    ([], known)

/-- What a search finds in further rounds, some keys being known. -/
def exploreFrom (key : α → κ) (next : α → List α) : Nat → Std.HashSet κ → List α → List α
  | 0, _, _ => []
  | rounds + 1, known, pending =>
    let (found, known) := newlyFound key known pending
    if found.isEmpty then []
    else found ++ exploreFrom key next rounds known (found.flatMap next)

/-- All that steps lead to from the given starts, these included, one for each key. -/
def explore (key : α → κ) (next : α → List α) (rounds : Nat) (starts : List α) : List α :=
  exploreFrom key next rounds {} starts

end Explore

end GraphQLTyping
