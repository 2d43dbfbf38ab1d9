/-!
# Type references

A **type reference** is a type name inside list and non-null wrappers, as it is written after a
colon: `Int`, `[Int!]!`, `[[Int]]`.  Every layer carries its own non-null mark, so a mark can never
stand on a mark and each reference has one written form (`TypeRef.text`).

* `TypeRef.name`: the innermost name.
* `TypeRef.nullable`: the same reference without its outermost mark.
* `TypeRef.listDepth`: how many lists are around the name.
-/

namespace GraphQLTyping

/-- A **type reference**: a name or a list of references, marked non-null or not. -/
inductive TypeRef where
  | named (name : String) (nonNull : Bool)
  | list (element : TypeRef) (nonNull : Bool)
deriving DecidableEq, Inhabited

namespace TypeRef

/-- The innermost name. -/
def name : TypeRef → String
  | named n _ => n
  | list element _ => element.name

/-- Whether the outermost layer is marked non-null. -/
def nonNull : TypeRef → Bool
  | named _ marked => marked
  | list _ marked => marked

/-- Whether the outermost layer is a list. -/
def isList : TypeRef → Bool
  | named .. => false
  | list .. => true

/-- The number of list layers. -/
def listDepth : TypeRef → Nat
  | named .. => 0
  | list element _ => element.listDepth + 1

/-- The reference without its outermost non-null mark. -/
def nullable : TypeRef → TypeRef
  | named n _ => named n false
  | list element _ => list element false

/-- The reference with an outermost non-null mark. -/
def required : TypeRef → TypeRef
  | named n _ => named n true
  | list element _ => list element true

/-- The **canonical text**: brackets around lists, a mark after its layer, and no spaces. -/
def text : TypeRef → String
  | named n marked => n ++ mark marked
  | list element marked => "[" ++ element.text ++ "]" ++ mark marked
where
  /-- The text of a non-null mark. -/
  mark (marked : Bool) : String := if marked then "!" else ""

@[simp] theorem nonNull_nullable (t : TypeRef) : t.nullable.nonNull = false := by
  cases t <;> rfl

@[simp] theorem nonNull_required (t : TypeRef) : t.required.nonNull = true := by
  cases t <;> rfl

@[simp] theorem name_nullable (t : TypeRef) : t.nullable.name = t.name := by
  cases t <;> rfl

@[simp] theorem isList_nullable (t : TypeRef) : t.nullable.isList = t.isList := by
  cases t <;> rfl

@[simp] theorem listDepth_nullable (t : TypeRef) : t.nullable.listDepth = t.listDepth := by
  cases t <;> rfl

end TypeRef

end GraphQLTyping
