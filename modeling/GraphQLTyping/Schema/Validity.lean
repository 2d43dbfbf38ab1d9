import GraphQLTyping.Reach
import GraphQLTyping.Schema.Introspection
import GraphQLTyping.Schema.Literal
import GraphQLTyping.Schema.Subtype

/-!
# Valid schemas

A schema is **valid** if its queries have a root, its roots are object types, every type has parts
and these are of types that fit their place, names are not reserved, types do implement the
interfaces that they say, and no input object requires a value of itself.

`Schema.isValid` is the conjunction of the rules below.
-/

namespace GraphQLTyping.Schema

/-- Whether a name is reserved for introspection. -/
def isReserved (name : String) : Bool := name.startsWith "__"

/-- There is a root for queries, and all roots are object types. -/
def rootsAreObjects (s : Schema) : Bool :=
  s.query.isSome &&
    [s.query, s.mutation, s.subscription].all fun name =>
      match name.bind s.type? with
      | some t => t.isObject
      | none => name.isNone

/-- An input has a name that is not reserved and an input type; one that is required is not
deprecated. -/
def inputIsValid (s : Schema) (input : InputDef) : Bool :=
  !isReserved input.name && (s.named input.type.name).isInput
    && !(input.isRequired && input.isDeprecated)

/-- A field has a name that is not reserved, an output type, and valid arguments. -/
def fieldIsValid (s : Schema) (field : FieldDef) : Bool :=
  !isReserved field.name && (s.named field.type.name).isOutput
    && field.arguments.all s.inputIsValid

/-- A field does what a field of an interface asks for: its type is a subtype, it has the same
arguments of the same types, and requires no others. -/
def fieldImplements (s : Schema) (field required : FieldDef) : Bool :=
  s.isSubtype field.type required.type
    && required.arguments.all (fun asked =>
      match field.arguments.find? (·.name == asked.name) with
      | some given => given.type == asked.type
      | none => false)
    && field.arguments.all fun given =>
      required.arguments.any (·.name == given.name) || !given.isRequired

/-- A type implements an interface, and whatever that implements. -/
def implementsInterface (s : Schema) (t : TypeDef) (name : String) : Bool :=
  match s.type? name with
  | some interface =>
    interface.isInterface && name != t.name
      && interface.interfaces.all t.interfaces.contains
      && interface.fields.all fun required =>
        match t.field? required.name with
        | some field => s.fieldImplements field required
        | none => false
  | none => false

/-- The input object types that a type requires a value of. -/
def requiredInputs (s : Schema) (name : String) : List String :=
  match s.type? name with
  | some t => t.inputFields.filterMap fun input =>
    match input.type with
    | .named inner true => if (s.named inner).isInputObject then some inner else none
    | _ => none
  | none => []

/-- The parts of a type are there, and valid. -/
def bodyIsValid (s : Schema) (t : TypeDef) : Bool :=
  match t.body with
  | .scalar => true
  | .object interfaces fields | .interface interfaces fields =>
    !fields.isEmpty && fields.all s.fieldIsValid
      && decide interfaces.Nodup && interfaces.all (s.implementsInterface t)
  | .union members =>
    !members.isEmpty && decide members.Nodup && members.all fun name => (s.named name).isObject
  | .enum values => !values.isEmpty && values.all (!isReserved ·.name)
  | .input fields exactlyOne =>
    !fields.isEmpty && fields.all s.inputIsValid
      && (!exactlyOne || fields.all fun input => !input.type.nonNull && input.default.isNone)
      && !isOnCircle s.requiredInputs (s.types.map (·.name)) t.name

/-- A type has a name that is not reserved, unless it is an introspection type, and valid parts. -/
def typeIsValid (s : Schema) (t : TypeDef) : Bool :=
  ((Introspection.types.map (·.name)).contains t.name || !isReserved t.name) && s.bodyIsValid t

/-- A directive has a name that is not reserved and valid arguments. -/
def directiveIsValid (s : Schema) (d : DirectiveDef) : Bool :=
  !isReserved d.name && d.arguments.all s.inputIsValid

/-- Whether a schema is **valid**. -/
def isValid (s : Schema) : Bool :=
  s.rootsAreObjects && s.directives.all s.directiveIsValid && s.types.all s.typeIsValid

end GraphQLTyping.Schema
