import GraphQLTyping.Schema.Basic

/-!
# Subtypes

An object type is a subtype of the unions that have it as a member, and objects and interfaces are
subtypes of the interfaces they implement.  On references, a list is compared by its elements and a
non-null reference is a subtype of the same reference without its mark.
-/

namespace GraphQLTyping.Schema

/-- Whether the type of a name is the other or one of its members or implementations. -/
def isNamedSubtype (s : Schema) (sub super : String) : Bool :=
  sub == super ||
    match s.type? super with
    | some ⟨_, .union members⟩ => members.contains sub
    | some ⟨_, .interface ..⟩ => ((s.type? sub).map (·.interfaces.contains super)).getD false
    | _ => false

/-- Whether every value of one reference is a value of the other. -/
def isSubtype (s : Schema) : TypeRef → TypeRef → Bool
  | .named sub marked, .named super needed => (!needed || marked) && s.isNamedSubtype sub super
  | .list sub marked, .list super needed => (!needed || marked) && s.isSubtype sub super
  | _, _ => false

/-- The object types that a composite type stands for. -/
def possibleTypes (s : Schema) (t : TypeDef) : List String :=
  match t.body with
  | .union members => members
  | .interface .. =>
    (s.types.filter fun u => u.isObject && u.interfaces.contains t.name).map (·.name)
  | _ => [t.name]

/-- Whether some value can be of both composite types. -/
def overlap (s : Schema) (a b : TypeDef) : Bool :=
  a.name == b.name || (s.possibleTypes a).any (s.possibleTypes b).contains

end GraphQLTyping.Schema
