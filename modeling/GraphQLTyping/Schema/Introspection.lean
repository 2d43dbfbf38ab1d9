import GraphQLTyping.Schema.TypeDef

/-!
# Standard types and directives

The types through which every schema describes itself, the scalars that need no definition, and the
directives that documents may always use.
-/

namespace GraphQLTyping.Introspection

/-- A field without arguments. -/
def plain (name : String) (type : TypeRef) : FieldDef := { name, type }

/-- A field of which deprecated parts are left out unless they are asked for; the asking may be
null or not. -/
def filteredBy (asking : TypeRef) (name : String) (type : TypeRef) : FieldDef :=
  { name, type
    arguments := [{ name := "includeDeprecated", type := asking,
                    default := some (.boolean false) }] }

/-- A name that may be null. -/
def nullable (name : String) : TypeRef := .named name false

/-- A name that may not be null. -/
def required (name : String) : TypeRef := .named name true

/-- A field of which deprecated parts are left out unless they are asked for. -/
def filtered (name : String) (type : TypeRef) : FieldDef :=
  filteredBy (nullable "Boolean") name type

/-- A list without null items, itself null or not. -/
def listOf (name : String) (nonNull : Bool) : TypeRef := .list (.named name true) nonNull

/-- An object type without interfaces. -/
def objectType (name : String) (fields : List FieldDef) : TypeDef := ⟨name, .object [] fields⟩

/-- The type of a schema. -/
def schemaType : TypeDef := objectType "__Schema"
  [plain "description" (nullable "String"), plain "types" (listOf "__Type" true),
    plain "queryType" (required "__Type"), plain "mutationType" (nullable "__Type"),
    plain "subscriptionType" (nullable "__Type"),
    filteredBy (required "Boolean") "directives" (listOf "__Directive" true)]

/-- The type of a type. -/
def typeType : TypeDef := objectType "__Type"
  [plain "kind" (required "__TypeKind"), plain "name" (nullable "String"),
    plain "description" (nullable "String"), plain "specifiedByURL" (nullable "String"),
    filtered "fields" (listOf "__Field" false), plain "interfaces" (listOf "__Type" false),
    plain "possibleTypes" (listOf "__Type" false),
    filtered "enumValues" (listOf "__EnumValue" false),
    filtered "inputFields" (listOf "__InputValue" false), plain "ofType" (nullable "__Type"),
    plain "isOneOf" (nullable "Boolean")]

/-- An enum type with values of the given names. -/
def enumType (name : String) (values : List String) : TypeDef :=
  ⟨name, .enum (values.map fun value => { name := value })⟩

/-- The kinds of type. -/
def typeKind : TypeDef := enumType "__TypeKind"
  ["SCALAR", "OBJECT", "INTERFACE", "UNION", "ENUM", "INPUT_OBJECT", "LIST", "NON_NULL"]

/-- The type of a field. -/
def fieldType : TypeDef := objectType "__Field"
  [plain "name" (required "String"), plain "description" (nullable "String"),
    filtered "args" (listOf "__InputValue" true), plain "type" (required "__Type"),
    plain "isDeprecated" (required "Boolean"), plain "deprecationReason" (nullable "String")]

/-- The type of an argument or input field. -/
def inputValueType : TypeDef := objectType "__InputValue"
  [plain "name" (required "String"), plain "description" (nullable "String"),
    plain "type" (required "__Type"), plain "defaultValue" (nullable "String"),
    plain "isDeprecated" (required "Boolean"), plain "deprecationReason" (nullable "String")]

/-- The type of an enum value. -/
def enumValueType : TypeDef := objectType "__EnumValue"
  [plain "name" (required "String"), plain "description" (nullable "String"),
    plain "isDeprecated" (required "Boolean"), plain "deprecationReason" (nullable "String")]

/-- The type of a directive. -/
def directiveType : TypeDef := objectType "__Directive"
  [plain "name" (required "String"), plain "description" (nullable "String"),
    plain "isRepeatable" (required "Boolean"),
    plain "locations" (listOf "__DirectiveLocation" true),
    filtered "args" (listOf "__InputValue" true),
    plain "isDeprecated" (required "Boolean"), plain "deprecationReason" (nullable "String")]

/-- The places at which directives may stand. -/
def directiveLocation : TypeDef := enumType "__DirectiveLocation" directiveLocations

/-- The **introspection types**. -/
def types : List TypeDef :=
  [schemaType, typeType, typeKind, fieldType, inputValueType, enumValueType, directiveType,
    directiveLocation]

/-- A scalar type. -/
def scalarType (name : String) : TypeDef := ⟨name, .scalar⟩

/-- The scalars that introspection needs; every schema has them. -/
def ownScalars : List TypeDef := [scalarType "String", scalarType "Boolean"]

/-- The scalars that a schema has if it names them. -/
def namedScalars : List TypeDef := [scalarType "Int", scalarType "Float", scalarType "ID"]

/-- Whether a type of the given name is standard. -/
def isStandard (name : String) : Bool :=
  ((types ++ ownScalars ++ namedScalars).map (·.name)).contains name

/-- A directive that leaves out a part of a document under a condition. -/
def conditional (name : String) : DirectiveDef :=
  { name, arguments := [{ name := "if", type := .named "Boolean" true }]
    locations := ["FIELD", "FRAGMENT_SPREAD", "INLINE_FRAGMENT"] }

/-- The **standard directives**. -/
def directives : List DirectiveDef :=
  [conditional "include", conditional "skip",
    { name := "deprecated"
      arguments := [{ name := "reason", type := .named "String" false,
                      default := some (.string "No longer supported" false) }]
      locations := ["FIELD_DEFINITION", "ARGUMENT_DEFINITION", "INPUT_FIELD_DEFINITION",
        "ENUM_VALUE"] },
    { name := "specifiedBy"
      arguments := [{ name := "url", type := .named "String" true }]
      locations := ["SCALAR"] },
    { name := "oneOf", arguments := [], locations := ["INPUT_OBJECT"] }]

end GraphQLTyping.Introspection
