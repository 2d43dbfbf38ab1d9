import GraphQLTyping.Schema.Basic
import GraphQLTyping.Schema.Leaf

/-!
# Defaults

A default counts only if it **conforms** to the type of its input.  An object conforms to an input
object type if the fields that the type declares do, and if those that must not be null have a
value, given or by default.  What it says of other fields is not looked at.

Whether a default conforms may depend on other defaults: an object asks for those of its type.
Things are asked in order, the declared fields of an object and the items of a list, and what comes
after one that does not conform is not asked.  So a default whose text leads back to its own type
may well be **settled** without it.

`settledTypes` settles in rounds what depends on settled types only, until there is nothing more to
settle.  A type that is never settled has a default that depends on itself.
-/

namespace GraphQLTyping

/-- The value that an object has for an input: what is said of it last, or else the default. -/
def InputDef.valueIn? (input : InputDef) (fields : List (String × Value)) : Option Value :=
  (fields.reverse.lookup input.name).or input.default

/-- An object has a value for exactly one of several inputs, and that is not null. -/
def hasExactlyOne (declared : List InputDef) (fields : List (String × Value)) : Bool :=
  match declared.filterMap fun input => input.valueIn? fields with
  | [Value.null] => false
  | [_] => true
  | _ => false

/-- Whether all of several things hold that are asked in order, up to the first that does not.  The
answer to one of them may not be known yet. -/
def allInOrder : List (Option Bool) → Option Bool
  | [] => some true
  | answer :: rest => do if ← answer then allInOrder rest else return false

/-- Whether an object conforms to the declared fields of a settled type, given whether the values of
its fields do.  Of several values for one field the last counts. -/
def objectConforms (declared : List InputDef) (exactlyOne : Bool) (fields : List (String × Value))
    (answers : List (String × Option Bool)) : Option Bool :=
  allInOrder <|
    declared.map (fun input =>
      (answers.reverse.lookup input.name).getD (some (!input.isRequired)))
      ++ [some (!exactlyOne || hasExactlyOne declared fields)]

mutual

/-- Whether a literal without variables **conforms** to a type, as far as the settled ones among the
types tell. -/
def conforms? (types settled : List TypeDef) (type : TypeRef) : Value → Option Bool
  | .variable _ => some false
  | .null => some !type.nonNull
  | .list items =>
    match type with
    | .list element _ => allInOrder (itemsConform types settled element items)
    | .named name _ => some ((TypeDef.lookup types name).any (·.acceptsLeaf (.list items)))
  | .object fields =>
    match TypeDef.lookup types type.name with
    | some ⟨name, .input ..⟩ =>
      match TypeDef.lookup settled name with
      | some ⟨_, .input declared exactlyOne⟩ =>
        objectConforms declared exactlyOne fields (fieldsConform types settled declared fields)
      | _ => none
    | t => some (t.any (·.acceptsLeaf (.object fields)))
  | v => some ((TypeDef.lookup types type.name).any (·.acceptsLeaf v))

/-- Whether the items of a list conform to a type. -/
def itemsConform (types settled : List TypeDef) (element : TypeRef) :
    List Value → List (Option Bool)
  | [] => []
  | v :: rest => conforms? types settled element v :: itemsConform types settled element rest

/-- Whether the values of the fields of an object conform to the types of the declared ones. -/
def fieldsConform (types settled : List TypeDef) (declared : List InputDef) :
    List (String × Value) → List (String × Option Bool)
  | [] => []
  | (name, v) :: rest =>
    match declared.find? (·.name == name) with
    | some input =>
      (name, conforms? types settled input.type v) :: fieldsConform types settled declared rest
    | none => fieldsConform types settled declared rest

end

/-- An input without a default that does not conform. -/
def InputDef.settle? (types settled : List TypeDef) (i : InputDef) : Option InputDef :=
  match i.default with
  | none => some i
  | some literal => do
    if ← conforms? types settled i.type literal then return i
    return { i with default := none }

/-- A field without defaults that do not conform. -/
def FieldDef.settle? (types settled : List TypeDef) (f : FieldDef) : Option FieldDef := do
  return { f with arguments := ← f.arguments.mapM (·.settle? types settled) }

/-- A directive without defaults that do not conform. -/
def DirectiveDef.settle? (types settled : List TypeDef) (d : DirectiveDef) :
    Option DirectiveDef := do
  return { d with arguments := ← d.arguments.mapM (·.settle? types settled) }

/-- A type without defaults that do not conform. -/
def TypeDef.settle? (types settled : List TypeDef) (t : TypeDef) : Option TypeDef :=
  match t.body with
  | .object interfaces fields => do
    return { t with body := .object interfaces (← fields.mapM (·.settle? types settled)) }
  | .interface interfaces fields => do
    return { t with body := .interface interfaces (← fields.mapM (·.settle? types settled)) }
  | .input fields exactlyOne => do
    return { t with body := .input (← fields.mapM (·.settle? types settled)) exactlyOne }
  | _ => some t

/-- The types that are settled after at most so many rounds more. -/
def settledWithin (types : List TypeDef) : Nat → List TypeDef → List TypeDef
  | 0, settled => settled
  | rounds + 1, settled =>
    let next := types.filterMap (·.settle? types settled)
    if next.length = settled.length then settled else settledWithin types rounds next

/-- The types that can be settled, without defaults that do not conform.  Each round but the last
settles one more at least. -/
def settledTypes (types : List TypeDef) : List TypeDef := settledWithin types (types.length + 1) []

end GraphQLTyping
