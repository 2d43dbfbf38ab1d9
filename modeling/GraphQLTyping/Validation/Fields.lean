import GraphQLTyping.Fault
import GraphQLTyping.Schema.Introspection
import GraphQLTyping.Validation.Site

/-!
# Valid fields and types

Every type that a document names exists and fits its place, every field is one of its enclosing
type, and a field has selections exactly if its type is composite.

A document may define types too, which is a fault in itself.  That these exist is not denied, though
they have no place in what is executed.
-/

namespace GraphQLTyping

namespace Document

/-- A type condition names a composite type. -/
def conditionIsValid (d : Document) (s : Schema) (condition : String) : Bool :=
  match s.type? condition with
  | some t => t.isComposite
  | none => d.definesType condition

/-- A variable has an input type. -/
def variableTypeIsValid (d : Document) (s : Schema) (v : VariableDef) : Bool :=
  match s.type? v.type.name with
  | some t => t.isInput
  | none => d.definesType v.type.name

/-- A type that a definition refers to exists. -/
def referenceIsValid (d : Document) (s : Schema) (name : String) : Bool :=
  (s.type? name).isSome || d.definesType name || Introspection.isStandard name

end Document

namespace Schema

/-- A field has selections if its type is composite, and none if it is a leaf. -/
def selectionsFit (s : Schema) (field : FieldDef) (selections : List Selection) : Bool :=
  (s.named field.type.name).isLeaf == selections.isEmpty

/-- A field whose enclosing type is known is one of that type, and its selections fit. -/
def fieldIsKnown (s : Schema) (parent : Option TypeDef) (head : FieldHead)
    (selections : List Selection) : Bool :=
  match parent with
  | none => true
  | some t =>
    match s.fieldDef? t head.name with
    | some field => s.selectionsFit field selections
    | none => false

end Schema

/-- The field or type at a site is valid. -/
def Site.typeIsValid (d : Document) (s : Schema) : Site → Bool
  | .field parent head selections => s.fieldIsKnown parent head selections
  | .spread .. => true
  | .inlineFragment _ _ head _ => head.condition.all (d.conditionIsValid s)

/-- The faults of the fields and types of a definition. -/
def Executable.typeFaults (d : Document) (s : Schema) (e : Executable) : Nat :=
  (match e with
    | .operation o => o.variableDefs.countP (!d.variableTypeIsValid s ·)
    | .fragment f => (!d.conditionIsValid s f.condition).toNat)
    + (e.sites s).countP (!·.typeIsValid d s)

/-- The faults of the types that the type system definitions of a document refer to, where the
document has other definitions around them. -/
def Document.referenceFaults (d : Document) (s : Schema) (definitions : List TypeSystemDefinition) :
    Nat :=
  (definitions.flatMap (·.references)).countP (!d.referenceIsValid s ·)

end GraphQLTyping
