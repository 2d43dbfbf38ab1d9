import GraphQLTyping.Document.Basic
import GraphQLTyping.Schema.Introspection
import GraphQLTyping.Typing.Field

/-!
# Small schemas and documents

Schemas to state instances with.  Between them they have input object types that refer to themselves
and to each other, fields of every resolution, and two different types of one name; one of them
describes itself, and another one extends that.  The documents have a field in a field in a field.
Two types look alike, of which only one is of the schemas.
-/

namespace GraphQLTyping.Sample

/-- A name that may be null. -/
def maybe (name : String) : TypeRef := .named name false

/-- An object type with fields of the given names and types. -/
def object (name : String) (fields : List (String × TypeRef)) : TypeDef :=
  ⟨name, .object [] (fields.map fun f => { name := f.1, type := f.2 })⟩

/-- An input object type with fields of the given names and types. -/
def input (name : String) (fields : List (String × TypeRef)) : TypeDef :=
  ⟨name, .input (fields.map fun f => { name := f.1, type := f.2 }) false⟩

/-- An input object type that refers to itself, to another one that refers back, and to nested
lists. -/
def filter : TypeDef := input "Filter"
  [("not", maybe "Filter"), ("ranges", .list (.named "Range" true) true),
    ("grid", .list (.list (maybe "Int") false) false)]

/-- An input object type that refers back to the first. -/
def range : TypeDef := input "Range" [("of", .named "Filter" true), ("least", maybe "Int")]

/-- An input object type of the same name that refers to nothing. -/
def otherRange : TypeDef := input "Range" [("least", maybe "Int")]

/-- An object type with a field of every resolution. -/
def query : TypeDef := object "Query"
  [("me", maybe "User"), ("node", maybe "Node"), ("count", maybe "Int"),
    ("grid", .list (.list (maybe "Query") false) false)]

/-- An object type that refers to itself. -/
def user : TypeDef := object "User" [("name", .named "String" true), ("friend", maybe "User")]

/-- An object type that looks like `user`, is from elsewhere, and leads to itself. -/
def stranger : TypeDef := { user with home := .elsewhere 0 [("User", user.body)] }

/-- Types for operations. -/
def outputTypes : List TypeDef :=
  [query, user, ⟨"Node", .interface [] [{ name := "id", type := maybe "Int" }]⟩,
    ⟨"Int", .scalar⟩, ⟨"String", .scalar⟩]

/-- A schema with queries. -/
def schema : Schema where
  types := outputTypes ++ [filter, range]
  query := some "Query"
  mutation := none
  subscription := none
  directives := []
  distinct := by decide
  closed := by decide
  rooted := by decide

theorem isObject_of_root? (kind : OperationKind) (root : TypeDef)
    (h : schema.root? kind = some root) : root.isObject = true := by
  cases kind with
  | query =>
    have hq : some query = some root := h
    rw [← Option.some.inj hq]
    rfl
  | mutation | subscription => cases h

/-- A schema with another type of a name. -/
def otherSchema : Schema where
  types := outputTypes ++ [otherRange]
  query := some "Query"
  mutation := none
  subscription := none
  directives := []
  distinct := by decide
  closed := by decide
  rooted := by decide

/-- The schema with queries, with the types through which it describes itself. -/
def described : Schema where
  types := outputTypes ++ [filter, range] ++ Introspection.types ++
    [Introspection.scalarType "Boolean"]
  query := some "Query"
  mutation := none
  subscription := none
  directives := []
  distinct := by decide
  closed := by decide
  rooted := by decide

/-- An input object type that refers to another one, and that nothing refers to. -/
def search : TypeDef := input "Search" [("text", maybe "String"), ("by", .list (maybe "Filter") false)]

/-- The object type with a field of every resolution, with a new field before the others. -/
def moreQuery : TypeDef := object "Query"
  [("hits", maybe "Int"), ("me", maybe "User"), ("node", maybe "Node"), ("count", maybe "Int"),
    ("grid", .list (.list (maybe "Query") false) false)]

/-- A schema with a new field and a new input object type. -/
def extended : Schema where
  types := [search, moreQuery] ++ outputTypes.tail ++ [range, filter] ++ Introspection.types ++
    [Introspection.scalarType "Boolean"]
  query := some "Query"
  mutation := none
  subscription := none
  directives := []
  distinct := by decide
  closed := by decide
  rooted := by decide

/-- What a field of a name says that says nothing else. -/
def head (name : String) : FieldHead := ⟨default, name, name, [], []⟩

/-- The document `query ($by: Filter) { me { … { … } } }` with two more fields of given names. -/
def document (middle last : String) : Document :=
  ⟨[.operation ⟨default, .query, none, [⟨default, "by", maybe "Filter", none, []⟩], [],
    [.field (head "me") [.field (head middle) [.field (head last) []]]]⟩]⟩

/-- The document `{ me { name } node }`. -/
def bare : Document :=
  ⟨[.operation ⟨default, .query, none, [], [],
    [.field (head "me") [.field (head "name") []], .field (head "node") []]⟩]⟩

/-- The same fields behind a fragment and a spread of it, one under an alias, and one with selections
that do not count. -/
def dressed : Document :=
  ⟨[.fragment ⟨default, "Self", "Query", [], [.field (head "nothing") []]⟩,
    .operation ⟨default, .query, some "Dressed", [], [],
      [.spread ⟨default, "Self", []⟩,
        .field ⟨default, "self", "me", [], []⟩ [.field (head "name") []],
        .field (head "node") [.field (head "nothing") []]]⟩]⟩

end GraphQLTyping.Sample
