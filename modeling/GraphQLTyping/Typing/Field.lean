import GraphQLTyping.Schema.Basic
import GraphQLTyping.TypeRef.Shape

/-!
# Typed fields

A **typed field** says what is known of the type of a variable, of a field that a document selects,
or of a field of an input object type.  Typed fields refer to each other, and which of them is meant
matters even when two are alike: a selected field has its **record**, and all references to an input
object type share one **list** of fields.  Both are referred to by number.

* `TypeDef.inputResolution`, `TypeDef.outputResolution`: how a bare type resolves on either side.
* `TypedField.scalarType?`, `enumType?`, `objectType?`: the bare type, read by resolution.
* `TypedField.ofVariable`, `Schema.typedInput`, `Schema.typedOutput?`: the typed field of a variable,
  of a declared input field and of a selected field, with nothing below it yet.
-/

namespace GraphQLTyping

/-- The sides of a schema: what goes in, and what comes out. -/
inductive Side where
  | input
  | output
deriving DecidableEq, Inhabited

/-- What a type **resolves** to.  An object is an input object on the input side; interfaces and
unions, and every type of unsupported shape, stay unclassified. -/
inductive Resolution where
  | scalar
  | enum
  | object
  | unclassified
deriving DecidableEq, Inhabited

/-- How a bare type resolves where a value is put in. -/
def TypeDef.inputResolution (t : TypeDef) : Resolution :=
  match t.body with
  | .input .. => .object
  | .scalar => .scalar
  | .enum _ => .enum
  | _ => .unclassified

/-- How a bare type resolves where a value comes out. -/
def TypeDef.outputResolution (t : TypeDef) : Resolution :=
  match t.body with
  | .object .. => .object
  | .scalar => .scalar
  | .enum _ => .enum
  | _ => .unclassified

/-- The number of a record. -/
abbrev RecordId := Nat

/-- The number of a shared list of input fields. -/
abbrev ListId := Nat

/-- What stands below a typed field: nothing, the records of selected fields, or the shared list of
an input object type. -/
inductive Children where
  | none
  | selected (records : List RecordId)
  | shared (list : ListId)
deriving DecidableEq, Inhabited

/-- The shared list below a typed field. -/
def Children.list? : Children → Option ListId
  | shared list => some list
  | _ => Option.none

/-- The records below a typed field. -/
def Children.records : Children → List RecordId
  | selected records => records
  | _ => []

/-- A **typed field**.  `parent` is the type that the field belongs to, which a variable has not;
`nonNull` and `list` tell the outer wrappers, and `type` is the bare type inside all of them. -/
structure TypedField where
  side : Side
  name : String
  parent : Option TypeDef
  nonNull : Bool
  list : Bool
  resolution : Resolution
  type : TypeDef
  children : Children := .none
deriving Inhabited

namespace TypedField

/-- The scalar type that the field resolved to. -/
def scalarType? (f : TypedField) : Option TypeDef :=
  if f.resolution = .scalar then some f.type else none

/-- The enum type that the field resolved to. -/
def enumType? (f : TypedField) : Option TypeDef :=
  if f.resolution = .enum then some f.type else none

/-- The object or input object type that the field resolved to. -/
def objectType? (f : TypedField) : Option TypeDef :=
  if f.resolution = .object then some f.type else none

/-- Whether the field resolved to a scalar or an enum. -/
def isLeaf (f : TypedField) : Bool :=
  f.resolution = .scalar || f.resolution = .enum

end TypedField

/-- The typed field of a variable of a shape, the type inside the shape being given, with nothing
below it yet. -/
def TypedField.ofVariable (name : String) (shape : Shape) (type : TypeDef) : TypedField :=
  { side := .input, name, parent := none, nonNull := shape.nonNull, list := shape.list,
    resolution := type.inputResolution, type }

namespace Schema

/-- The typed field of a declared field of an input object type of the schema. -/
def typedInput (s : Schema) (owner : TypeDef) (declared : String × TypeRef) : TypedField :=
  let shape := declared.2.shape
  let type := s.named shape.name
  { side := .input, name := declared.1, parent := some owner, nonNull := shape.nonNull,
    list := shape.list, type,
    resolution := if shape.supported then type.inputResolution else .unclassified }

/-- The typed field of a field selected on a type, be that missing or not, if it has the field. -/
def typedOutput? (s : Schema) (parent : Option TypeDef) (name : String) : Option TypedField :=
  (s.fieldType? parent name).map fun whole =>
    let shape := whole.shape
    let type := s.namedAt parent name shape.name
    { side := .output, name, parent, nonNull := shape.nonNull, list := shape.list, type,
      resolution := if shape.supported then type.outputResolution else .unclassified }

end Schema

end GraphQLTyping
