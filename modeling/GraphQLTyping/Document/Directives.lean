import GraphQLTyping.Document.Call

/-!
# Directives in documents

Directives stand at the parts of a document, each part being a **location** of some sort.  They are
known, stand where they may, and stand once at a part unless they are repeatable.  The parts of the
text that define or extend one type are one part as far as that goes, and so are those that define
or extend the schema.

What directives there are is said by a **vocabulary**: the definitions of the document itself, the
last one first, and then those that are known from elsewhere.

* `Operation.placedDirectives`, `Fragment.placedDirectives`, `TypeSystemDefinition.placedDirectives`:
  the directives of a definition and of its parts, with their locations.
* `placementFaults`, `systemPlacementFaults`: what is at fault with the places of directives.
-/

namespace GraphQLTyping

/-- The **directives of a part** of a document, with the location that the part is. -/
structure PlacedDirectives where
  location : String
  directives : List Directive
deriving Inhabited

/-- The location that an operation of a kind is. -/
def OperationKind.location : OperationKind → String
  | query => "QUERY"
  | mutation => "MUTATION"
  | subscription => "SUBSCRIPTION"

/-- The directives of a selection itself. -/
def Selection.placedDirectives : Selection → PlacedDirectives
  | .field head _ => ⟨"FIELD", head.directives⟩
  | .spread head => ⟨"FRAGMENT_SPREAD", head.directives⟩
  | .inlineFragment head _ => ⟨"INLINE_FRAGMENT", head.directives⟩

/-- The directives of an operation and of all its parts. -/
def Operation.placedDirectives (o : Operation) : List PlacedDirectives :=
  ⟨o.kind.location, o.directives⟩
    :: o.variableDefs.map (fun v => ⟨"VARIABLE_DEFINITION", v.directives⟩)
    ++ (Selection.flattenAll o.selections).map (·.placedDirectives)

/-- The directives of a fragment and of all its parts. -/
def Fragment.placedDirectives (f : Fragment) : List PlacedDirectives :=
  ⟨"FRAGMENT_DEFINITION", f.directives⟩
    :: (Selection.flattenAll f.selections).map (·.placedDirectives)

/-- The location that a definition of a type is. -/
def TypeBody.location : TypeBody → String
  | scalar => "SCALAR"
  | object .. => "OBJECT"
  | interface .. => "INTERFACE"
  | union _ => "UNION"
  | enum _ => "ENUM"
  | input .. => "INPUT_OBJECT"

namespace TypeSystemDefinition

/-- The directives of a definition itself.  Definitions of directives have none. -/
def ownDirectives : TypeSystemDefinition → PlacedDirectives
  | schema _ _ directives => ⟨"SCHEMA", directives⟩
  | type _ t directives => ⟨t.body.location, directives⟩
  | directive _ => ⟨"DIRECTIVE_DEFINITION", []⟩

/-- The inputs of a definition, each with its location.  The input fields that an extension adds are
where arguments are. -/
def placedInputs : TypeSystemDefinition → List (String × InputDef)
  | schema .. => []
  | type extension t _ =>
    t.fields.flatMap (fun f => f.arguments.map ("ARGUMENT_DEFINITION", ·))
      ++ t.inputFields.map
        (if extension then "ARGUMENT_DEFINITION" else "INPUT_FIELD_DEFINITION", ·)
  | directive d => d.arguments.map ("ARGUMENT_DEFINITION", ·)

/-- The directives of the parts of a definition. -/
def partDirectives (t : TypeSystemDefinition) : List PlacedDirectives :=
  t.placedInputs.map (fun (location, input) => ⟨location, input.directives⟩)
    ++ match t with
      | type _ t _ =>
        t.fields.map (fun f => ⟨"FIELD_DEFINITION", f.directives⟩)
          ++ t.values.map fun value => ⟨"ENUM_VALUE", value.directives⟩
      | _ => []

/-- The directives of a definition and of its parts. -/
def placedDirectives (t : TypeSystemDefinition) : List PlacedDirectives :=
  t.ownDirectives :: t.partDirectives

/-- The defaults that a definition gives. -/
def defaults (t : TypeSystemDefinition) : List Value :=
  t.placedInputs.filterMap fun (_, input) => input.default

end TypeSystemDefinition

/-- The directives that a document can use, those known from elsewhere being given. -/
def Document.vocabulary (d : Document) (known : List DirectiveDef) : List DirectiveDef :=
  d.definedDirectives.reverse ++ known

namespace Directive

/-- The definition of a directive. -/
def definition? (vocabulary : List DirectiveDef) (d : Directive) : Option DirectiveDef :=
  vocabulary.find? (·.name == d.name)

/-- The call that a directive is, given the inputs that type its arguments. -/
def call (vocabulary : List DirectiveDef) (typing : List InputDef) (d : Directive) : Call :=
  ⟨(d.definition? vocabulary).map (·.arguments), typing, d.arguments⟩

/-- A directive is known, and may stand at a location. -/
def mayStandAt (vocabulary : List DirectiveDef) (location : String) (d : Directive) : Bool :=
  (d.definition? vocabulary).any (·.locations.contains location)

end Directive

/-- The names of those directives that may stand at a part once only. -/
def onceNames (vocabulary : List DirectiveDef) (directives : List Directive) : List String :=
  (directives.filter fun d => (d.definition? vocabulary).any (!·.repeatable)).map (·.name)

/-- The directives of a part that are unknown or may not stand there. -/
def PlacedDirectives.misplaced (vocabulary : List DirectiveDef) (p : PlacedDirectives) : Nat :=
  p.directives.countP (!·.mayStandAt vocabulary p.location)

/-- The faults of the places of directives, each part being one by itself. -/
def placementFaults (vocabulary : List DirectiveDef) (parts : List PlacedDirectives) : Nat :=
  total (fun p => p.misplaced vocabulary + repeats (onceNames vocabulary p.directives)) parts

/-- The faults of the places of directives in definitions of a type system. -/
def systemPlacementFaults (vocabulary : List DirectiveDef)
    (definitions : List TypeSystemDefinition) : Nat :=
  placementFaults vocabulary (definitions.flatMap (·.partDirectives))
    + total (·.ownDirectives.misplaced vocabulary) definitions
    + repeats (definitions.flatMap fun t =>
        (onceNames vocabulary t.ownDirectives.directives).map fun name => (t.name?, name))

end GraphQLTyping
