/-!
# Faults

A **fault** is a place at which a document breaks a rule.  Rules count their faults; a rule is kept
if there are none.

* `total f xs`: the faults of several things together.
* `repeats xs`: how many of several things are there already when their turn comes.
* `repeated xs`: how many different names are there more than once.
-/

namespace GraphQLTyping

/-- What things count for together. -/
def total {α : Type} (f : α → Nat) (xs : List α) : Nat :=
  xs.foldr (fun x count => f x + count) 0

/-- The number of things that stand after an equal one. -/
def repeats {α : Type} [BEq α] (xs : List α) : Nat := xs.length - xs.eraseDups.length

/-- The number of different names that stand more than once. -/
def repeated (names : List String) : Nat := names.eraseDups.countP fun name => 1 < names.count name

end GraphQLTyping
