import GraphQLTyping.TypeRef.Basic

/-!
# Shapes of type references

Typing keeps three facts of a type reference: whether it is non-null, whether it is a list, and the
name inside.  They say all there is to say only of the six **simple** references
`T`, `T!`, `[T]`, `[T]!`, `[T!]`, `[T!]!`; a list of lists holds more.

* `TypeRef.shape`: the facts of a reference that a schema declares; a reference that is not simple
  has them too, and is marked as unsupported.
* `TypeRef.simpleShape`: the facts of a reference that a document writes; here a reference that is
  not simple is refused, with what is left of it (`TypeRef.unwrapped`) as the reason.
-/

namespace GraphQLTyping

/-- The **shape** of a type reference: its outer mark, whether it is a list, its innermost name, and
whether these three tell the whole reference apart from the mark on a list's elements. -/
structure Shape where
  nonNull : Bool
  list : Bool
  name : String
  supported : Bool
deriving DecidableEq, Inhabited

/-- A reference that is **not simple**: the whole of it, and what its wrappers leave. -/
structure UnsupportedShape where
  whole : TypeRef
  rest : TypeRef
deriving DecidableEq, Inhabited

namespace TypeRef

/-- The shape of a declared reference. -/
def shape : TypeRef → Shape
  | named n marked => ⟨marked, false, n, true⟩
  | list (named n _) marked => ⟨marked, true, n, true⟩
  | list (list element _) marked => ⟨marked, true, element.name, false⟩

/-- What a list wraps; a reference that is no list is left as it is. -/
def element : TypeRef → TypeRef
  | named n marked => named n marked
  | list inner _ => inner

/-- The **unwrapped** reference: the outer mark goes, then one list, then the mark on its
element. -/
def unwrapped (t : TypeRef) : TypeRef := t.nullable.element.nullable

/-- The shape of a written reference, unless a list is left once it is unwrapped. -/
def simpleShape (t : TypeRef) : Except UnsupportedShape Shape :=
  match t.unwrapped with
  | named n _ => .ok ⟨t.nonNull, t.isList, n, true⟩
  | rest => .error ⟨t, rest⟩

end TypeRef

end GraphQLTyping
