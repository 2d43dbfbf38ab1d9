import GraphQLTyping.Fault

/-!
# Value literals

The values that arguments, defaults and directives are written with.

* `Value.sorted` puts the fields of objects in the order of their names; two values are **the same
  literal** if they are equal once sorted.
* `Value.fieldRepeats` counts what is at fault with a literal by itself, whatever it is given for.
* `Value.decEq` decides whether two values are equal, and with them arguments and directives.
-/

namespace GraphQLTyping

/-- A **value literal**.  Numbers keep the digits they were written with. -/
inductive Value where
  | variable (name : String)
  | int (digits : String)
  | float (digits : String)
  | string (value : String) (block : Bool)
  | boolean (value : Bool)
  | null
  | enum (name : String)
  | list (items : List Value)
  | object (fields : List (String × Value))
deriving Inhabited

namespace Value

mutual

/-- Decides whether two values are equal. -/
def decEq (a b : Value) : Decidable (a = b) :=
  if h : a.ctorIdx = b.ctorIdx then
    match a, b, h with
    | .variable x, .variable y, _ | .int x, .int y, _ | .float x, .float y, _
    | .enum x, .enum y, _ | .boolean x, .boolean y, _ => decidable_of_iff (x = y) (by simp)
    | .string x k, .string y l, _ => decidable_of_iff (x = y ∧ k = l) (by simp)
    | .null, .null, _ => isTrue rfl
    | .list as, .list bs, _ =>
      haveI := decEqItems as bs
      decidable_of_iff (as = bs) (by simp)
    | .object as, .object bs, _ =>
      haveI := decEqFields as bs
      decidable_of_iff (as = bs) (by simp)
  else isFalse fun heq => h (heq ▸ rfl)

/-- Decides whether two lists of values are equal. -/
def decEqItems (as bs : List Value) : Decidable (as = bs) :=
  match as, bs with
  | [], [] => isTrue rfl
  | v :: as, w :: bs =>
    haveI := decEq v w
    haveI := decEqItems as bs
    decidable_of_iff (v = w ∧ as = bs) (by simp)
  | [], _ :: _ | _ :: _, [] => isFalse nofun

/-- Decides whether the fields of two objects are equal. -/
def decEqFields (as bs : List (String × Value)) : Decidable (as = bs) :=
  match as, bs with
  | [], [] => isTrue rfl
  | (m, v) :: as, (n, w) :: bs =>
    haveI := decEq v w
    haveI := decEqFields as bs
    decidable_of_iff ((m = n ∧ v = w) ∧ as = bs) (by simp)
  | [], _ :: _ | _ :: _, [] => isFalse nofun

end

instance : DecidableEq Value := decEq

end Value

/-- A named value. -/
structure Argument where
  name : String
  value : Value
deriving DecidableEq, Inhabited

/-- A **directive** on a part of a document. -/
structure Directive where
  name : String
  arguments : List Argument
deriving DecidableEq, Inhabited

namespace Value

mutual

/-- The value with the fields of all its objects in the order of their names. -/
def sorted : Value → Value
  | .list items => .list (sortedItems items)
  | .object fields => .object ((sortedFields fields).mergeSort fun a b => decide (a.1 ≤ b.1))
  | v => v

/-- The values of a list, each sorted. -/
def sortedItems : List Value → List Value
  | [] => []
  | v :: rest => v.sorted :: sortedItems rest

/-- The fields of an object where they stand, each value sorted. -/
def sortedFields : List (String × Value) → List (String × Value)
  | [] => []
  | (name, v) :: rest => (name, v.sorted) :: sortedFields rest

end

/-- Whether two values are the same literal. -/
def same (a b : Value) : Bool := a.sorted == b.sorted

/-- How often a literal names a field of one of its objects again. -/
def fieldRepeats : Value → Nat
  | .list items => inItems items
  | .object fields => repeats (fields.map (·.1)) + inFields fields
  | _ => 0
where
  /-- The same for the items of a list. -/
  inItems : List Value → Nat
    | [] => 0
    | v :: rest => v.fieldRepeats + inItems rest
  /-- The same for the values in an object. -/
  inFields : List (String × Value) → Nat
    | [] => 0
    | (_, v) :: rest => v.fieldRepeats + inFields rest

end Value

end GraphQLTyping
