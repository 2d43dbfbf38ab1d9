import GraphQLTyping.Schema.TypeDef

/-!
# Schemas

A **schema** is a list of named types, the names of the root types of the operations, and the
directives it knows.  It is **closed**: whatever one of its types refers to is one of its types
(`Schema.closed`), and no two types have the same name (`Schema.distinct`).  Its types are at home in
it (`Schema.atHome`); fields may be selected on types from elsewhere, too, and lead on from there.

* `Schema.type?`, `Schema.named`: the type of a name.
* `Schema.namedBy`: the type that a name leads to where a type refers to it.
* `Schema.root?`: the type at which operations of a kind start.
* `Schema.fieldType?`: the type of a field where it is selected, the **meta fields** included:
  `__typename` on every type, `__schema` and `__type` on the query root.
-/

namespace GraphQLTyping

/-- The type of a name in a list of types. -/
def TypeDef.lookup (types : List TypeDef) (name : String) : Option TypeDef :=
  types.find? (·.name == name)

/-- A **schema**. -/
structure Schema where
  types : List TypeDef
  query : Option String
  mutation : Option String
  subscription : Option String
  directives : List DirectiveDef
  distinct : (types.map (·.name)).Nodup
  closed : ∀ t ∈ types, ∀ name ∈ t.references, (TypeDef.lookup types name).isSome
  rooted : ∀ name ∈ [query, mutation, subscription].filterMap id,
    (TypeDef.lookup types name).isSome
  atHome : ∀ t ∈ types, t.home = .here := by decide

namespace Schema

/-- The schema with the given parts, if these are closed, at home and of distinct names. -/
def ofParts? (types : List TypeDef) (roots : OperationKind → Option String)
    (directives : List DirectiveDef) : Option Schema :=
  if distinct : (types.map (·.name)).Nodup then
    if closed : ∀ t ∈ types, ∀ name ∈ t.references, (TypeDef.lookup types name).isSome then
      if rooted : ∀ name ∈ [roots .query, roots .mutation, roots .subscription].filterMap id,
          (TypeDef.lookup types name).isSome then
        if atHome : ∀ t ∈ types, t.home = .here then
          some ⟨types, roots .query, roots .mutation, roots .subscription, directives,
            distinct, closed, rooted, atHome⟩
        else none
      else none
    else none
  else none

/-- The type of a name. -/
def type? (s : Schema) (name : String) : Option TypeDef := TypeDef.lookup s.types name

/-- The type of a name that the schema refers to.  All of these exist; the answer for any other is a
scalar. -/
def named (s : Schema) (name : String) : TypeDef := (s.type? name).getD ⟨name, .scalar⟩

/-- The type that a name leads to where a type refers to it.  A type from elsewhere leads to the types
that it brings along, which are at home where it is, and for any other name to those of the schema. -/
def namedBy (s : Schema) (t : TypeDef) (name : String) : TypeDef :=
  match t.home with
  | .here => s.named name
  | .elsewhere _ types =>
    match types.lookup name with
    | some body => { name, body, home := t.home }
    | none => s.named name

/-- The name of the root type for a kind of operation. -/
def rootName? (s : Schema) : OperationKind → Option String
  | .query => s.query
  | .mutation => s.mutation
  | .subscription => s.subscription

/-- The **root type** for a kind of operation. -/
def root? (s : Schema) (kind : OperationKind) : Option TypeDef :=
  (s.rootName? kind).bind s.type?

/-- The directive of a name. -/
def directive? (s : Schema) (name : String) : Option DirectiveDef :=
  s.directives.find? (·.name == name)

/-- Whether a type is the one at which queries start, and not just one of its name.  It is the
missing type (`none`) if there is no such type. -/
def isQueryRoot (s : Schema) (t : Option TypeDef) : Bool := s.root? .query = t

/-- The meta field `__typename`: the name of the type of a value. -/
def typenameField : FieldDef := { name := "__typename", type := .named "String" true }

/-- The meta field `__schema`: the schema itself. -/
def schemaField : FieldDef := { name := "__schema", type := .named "__Schema" true }

/-- The meta field `__type`: the type of a name. -/
def typeField : FieldDef :=
  { name := "__type"
    arguments := [{ name := "name", type := .named "String" true }]
    type := .named "__Type" false }

/-- The **meta field** of a name on a type, be it missing or not. -/
def metaField? (s : Schema) (parent : Option TypeDef) (name : String) : Option FieldDef :=
  if name = "__typename" then some typenameField
  else if s.isQueryRoot parent then
    if name = "__schema" then some schemaField
    else if name = "__type" then some typeField
    else none
  else none

/-- The type of a field where it is selected.  Meta fields win over declared ones. -/
def fieldType? (s : Schema) (parent : Option TypeDef) (name : String) : Option TypeRef :=
  ((s.metaField? parent name).map (·.type)).or (parent.bind (·.fieldType? name))

/-- The type that a name leads to where the type of a field refers to it.  Meta fields lead to types
of the schema wherever they are selected, and other fields to where the type leads that declares
them. -/
def namedAt (s : Schema) (parent : Option TypeDef) (field name : String) : TypeDef :=
  match s.metaField? parent field, parent with
  | none, some t => s.namedBy t name
  | _, _ => s.named name

end Schema

end GraphQLTyping
