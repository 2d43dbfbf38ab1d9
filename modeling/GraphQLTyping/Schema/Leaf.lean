import GraphQLTyping.Schema.TypeDef

/-!
# Literals of leaf types

Which value literals the scalars and enums accept.
-/

namespace GraphQLTyping

/-- Whether digits write an integer of 32 bits. -/
def fitsInt32 (digits : String) : Bool :=
  match digits.toInt? with
  | some n => decide (-2147483648 ≤ n ∧ n ≤ 2147483647)
  | none => false

/-- Whether the scalar of a name accepts a literal.  A scalar that is not standard takes any. -/
def scalarAccepts (scalar : String) (v : Value) : Bool :=
  match scalar, v with
  | "Int", .int digits => fitsInt32 digits
  | "Float", .int _ | "Float", .float _ => true
  | "String", .string .. => true
  | "Boolean", .boolean _ => true
  | "ID", .string .. | "ID", .int _ => true
  | "Int", _ | "Float", _ | "String", _ | "Boolean", _ | "ID", _ => false
  | _, _ => true

/-- Whether a type is a leaf that accepts a literal. -/
def TypeDef.acceptsLeaf (t : TypeDef) (v : Value) : Bool :=
  match t.body, v with
  | .scalar, _ => scalarAccepts t.name v
  | .enum values, .enum value => values.any (·.name == value)
  | _, _ => false

end GraphQLTyping
