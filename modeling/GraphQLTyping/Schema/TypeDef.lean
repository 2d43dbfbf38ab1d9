import GraphQLTyping.TypeRef.Basic
import GraphQLTyping.Document.Value

/-!
# Type definitions

The named types of a schema.  Their fields refer to other types by name, so that types may refer to
themselves and to each other; a schema ties the names together.

A name alone does not tell a type from one of another schema.  So each type says where it is at
**home**, in the schema at hand or elsewhere: two types are the same if they are equal, and types with
different homes never are, though they may look the same.
-/

namespace GraphQLTyping

/-- The three kinds of operation. -/
inductive OperationKind where
  | query
  | mutation
  | subscription
deriving DecidableEq, Inhabited

/-- An operation kind as it is written. -/
def OperationKind.text : OperationKind → String
  | query => "query"
  | mutation => "mutation"
  | subscription => "subscription"

/-- All kinds of operation. -/
def OperationKind.all : List OperationKind := [query, mutation, subscription]

/-- The operation kind that a word names. -/
def OperationKind.ofText? (word : String) : Option OperationKind := all.find? (·.text == word)

/-- The name of the type at which operations of a kind start unless a schema says otherwise. -/
def OperationKind.usualRoot : OperationKind → String
  | query => "Query"
  | mutation => "Mutation"
  | subscription => "Subscription"

/-- An **input**: an argument of a field or directive, or a field of an input object type. -/
structure InputDef where
  name : String
  type : TypeRef
  default : Option Value := none
  directives : List Directive := []
deriving DecidableEq, Inhabited

/-- Whether an input is marked as deprecated.  A mark whose reason is null is none. -/
def InputDef.isDeprecated (i : InputDef) : Bool :=
  match i.directives.find? (·.name == "deprecated") with
  | some mark => !mark.arguments.any fun a => a.name == "reason" && (a.value matches .null)
  | none => false

/-- Whether a value has to be given for an input: it must not be null, and there is no default. -/
def InputDef.isRequired (i : InputDef) : Bool := i.type.nonNull && i.default.isNone

/-- A **field** of an object or interface type. -/
structure FieldDef where
  name : String
  arguments : List InputDef := []
  type : TypeRef
  directives : List Directive := []
deriving DecidableEq, Inhabited

/-- A **value** of an enum type. -/
structure EnumValueDef where
  name : String
  directives : List Directive := []
deriving DecidableEq, Inhabited

/-- What a named type is made of.  An input object type may be one of which exactly one field is to
be given. -/
inductive TypeBody where
  | scalar
  | object (interfaces : List String) (fields : List FieldDef)
  | interface (interfaces : List String) (fields : List FieldDef)
  | union (members : List String)
  | enum (values : List EnumValueDef)
  | input (fields : List InputDef) (exactlyOne : Bool)
deriving DecidableEq, Inhabited

/-- Where a type is at **home**: in the schema at hand, or elsewhere.  A type from elsewhere brings
along the types that it leads to, by name, except those that it shares with the schema at hand; the
number tells apart homes that look the same. -/
class inductive Home where
  | here
  | elsewhere (number : Nat) (types : List (String × TypeBody))

deriving instance DecidableEq, Inhabited for Home

/-- A type is at home in the schema at hand unless it says otherwise. -/
instance : Home := .here

/-- A **named type**.  Its home is part of what it is: types that are made alike but are at home in
different places are different types. -/
structure TypeDef where
  name : String
  body : TypeBody
  [home : Home]
deriving DecidableEq, Inhabited

/-- The places at which directives may stand. -/
def directiveLocations : List String :=
  ["QUERY", "MUTATION", "SUBSCRIPTION", "FIELD", "FRAGMENT_DEFINITION", "FRAGMENT_SPREAD",
    "INLINE_FRAGMENT", "VARIABLE_DEFINITION", "SCHEMA", "SCALAR", "OBJECT", "FIELD_DEFINITION",
    "ARGUMENT_DEFINITION", "INTERFACE", "UNION", "ENUM", "ENUM_VALUE", "INPUT_OBJECT",
    "INPUT_FIELD_DEFINITION", "DIRECTIVE_DEFINITION"]

/-- A **directive definition**: where the directive may stand, and with what arguments. -/
structure DirectiveDef where
  name : String
  arguments : List InputDef
  repeatable : Bool := false
  locations : List String
deriving Inhabited

namespace TypeDef

/-- Whether this is an object type. -/
def isObject (t : TypeDef) : Bool := t.body matches .object ..

/-- Whether this is an interface type. -/
def isInterface (t : TypeDef) : Bool := t.body matches .interface ..

/-- Whether this is a scalar type. -/
def isScalar (t : TypeDef) : Bool := t.body matches .scalar

/-- Whether this is an enum type. -/
def isEnum (t : TypeDef) : Bool := t.body matches .enum _

/-- Whether this is an input object type. -/
def isInputObject (t : TypeDef) : Bool := t.body matches .input ..

/-- Whether this is a **leaf**: a scalar or an enum, with nothing to select in it. -/
def isLeaf (t : TypeDef) : Bool := t.isScalar || t.isEnum

/-- Whether this is **composite**: an object, interface or union, whose parts are selected. -/
def isComposite (t : TypeDef) : Bool := t.body matches .object .. | .interface .. | .union _

/-- Whether values of this type can be given as inputs. -/
def isInput (t : TypeDef) : Bool := t.isLeaf || t.isInputObject

/-- Whether values of this type can be answers. -/
def isOutput (t : TypeDef) : Bool := t.isLeaf || t.isComposite

/-- The fields of an object or interface type. -/
def fields (t : TypeDef) : List FieldDef :=
  match t.body with
  | .object _ fields | .interface _ fields => fields
  | _ => []

/-- The fields of an input object type. -/
def inputFields (t : TypeDef) : List InputDef :=
  match t.body with
  | .input fields _ => fields
  | _ => []

/-- The interfaces that a type says it implements. -/
def interfaces (t : TypeDef) : List String :=
  match t.body with
  | .object interfaces _ | .interface interfaces _ => interfaces
  | _ => []

/-- The members of a union type. -/
def members (t : TypeDef) : List String :=
  match t.body with
  | .union members => members
  | _ => []

/-- The values of an enum type. -/
def values (t : TypeDef) : List EnumValueDef :=
  match t.body with
  | .enum values => values
  | _ => []

/-- Whether this type has fields, output or input ones. -/
def hasFields (t : TypeDef) : Bool := t.body matches .object .. | .interface .. | .input ..

/-- The names and types of the fields of a type, be they output or input ones. -/
def declared (t : TypeDef) : List (String × TypeRef) :=
  match t.body with
  | .object _ fields | .interface _ fields => fields.map fun f => (f.name, f.type)
  | .input fields _ => fields.map fun i => (i.name, i.type)
  | _ => []

/-- The field of the given name. -/
def field? (t : TypeDef) (name : String) : Option FieldDef := t.fields.find? (·.name == name)

/-- The declared type of a field of the given name, be it an output or an input field. -/
def fieldType? (t : TypeDef) (name : String) : Option TypeRef := t.declared.lookup name

/-- The names of all types that a type's parts refer to. -/
def references (t : TypeDef) : List String :=
  t.interfaces ++ t.members
    ++ t.fields.flatMap (fun f => f.arguments.map (·.type.name) ++ [f.type.name])
    ++ t.inputFields.map (·.type.name)

end TypeDef

end GraphQLTyping
