import GraphQLTyping.Document.Directives
import GraphQLTyping.Schema.Introspection

/-!
# Definitions

What the type system definitions of a document define: types with their extensions, directives and
roots.  What extensions add to a type follows what its definition has, in the order of the text.

Definitions **fit together** if names are given once, extensions extend what is defined, every type
that is mentioned exists, and directives are used as they may be.  That holds for the operations and
fragments of the text as well, which may not even mention standard types.
-/

namespace GraphQLTyping

namespace TypeBody

/-- A type body with the parts that an extension adds.  Whether an input object type has exactly one
field is for its definition to say. -/
def extend : TypeBody → TypeBody → TypeBody
  | object interfaces fields, object more added => object (interfaces ++ more) (fields ++ added)
  | interface interfaces fields, interface more added =>
    interface (interfaces ++ more) (fields ++ added)
  | union members, union added => union (members ++ added)
  | enum values, enum added => enum (values ++ added)
  | input fields exactlyOne, input added _ => input (fields ++ added) exactlyOne
  | body, _ => body

/-- Two type bodies are of one kind. -/
def sameKind : TypeBody → TypeBody → Bool
  | scalar, scalar => true
  | object .., object .. => true
  | interface .., interface .. => true
  | union _, union _ => true
  | enum _, enum _ => true
  | input .., input .. => true
  | _, _ => false

/-- The names of the parts of a type body, of which no two may be the same. -/
def partNames : TypeBody → List String
  | object _ fields | interface _ fields => fields.map (·.name)
  | enum values => values.map (·.name)
  | input fields _ => fields.map (·.name)
  | scalar | union _ => []

end TypeBody

/-- The types that the type conditions in selections name. -/
def Selection.conditionsOfAll (selections : List Selection) : List String :=
  (Selection.flattenAll selections).filterMap fun
    | .inlineFragment head _ => head.condition
    | _ => none

namespace Document

/-- The types that a document defines, each with its extensions. -/
def definedTypes (d : Document) : List TypeDef :=
  let additions (name : String) : List TypeBody := d.typeSystem.filterMap fun
    | .type true t _ => if t.name == name then some t.body else none
    | _ => none
  d.typeSystem.filterMap fun
    | .type false t _ => some ⟨t.name, (additions t.name).foldl .extend t.body⟩
    | _ => none

/-- The roots that a document lists, in its schema definition and in extensions of it. -/
def listedRoots (d : Document) : List (OperationKind × String) :=
  d.typeSystem.flatMap fun
    | .schema _ roots _ => roots
    | _ => []

/-- The number of schema definitions in a document. -/
def schemaDefinitions (d : Document) : Nat :=
  d.typeSystem.countP fun
    | .schema false .. => true
    | _ => false

/-- The types that operations and fragments mention. -/
def mentionedTypes (d : Document) : List String :=
  d.operations.flatMap (fun o =>
      o.variableDefs.map (·.type.name) ++ Selection.conditionsOfAll o.selections)
    ++ d.fragments.flatMap fun f => f.condition :: Selection.conditionsOfAll f.selections

/-- Every type that is mentioned is defined.  Definitions may mention standard types too. -/
def mentionsDefinedTypes (d : Document) : Bool :=
  d.mentionedTypes.all d.definesType
    && (d.typeSystem.flatMap (·.references)).all fun name =>
      d.definesType name || Introspection.isStandard name

/-- Every extension of a type extends a definition of the same kind. -/
def extendsDefinedTypes (d : Document) : Bool :=
  d.typeSystem.all fun
    | .type true added _ => d.typeSystem.any fun
      | .type false t _ => t.name == added.name && t.body.sameKind added.body
      | _ => false
    | _ => true

/-- Names of types, of their parts, of directives and of arguments are given once, and so are
roots. -/
def definesOnce (d : Document) : Bool :=
  let inputNames (inputs : List InputDef) : List String := inputs.map (·.name)
  decide (d.schemaDefinitions ≤ 1)
    && decide (d.listedRoots.map (·.1)).Nodup
    && decide (d.definedTypes.map (·.name)).Nodup
    && decide (d.definedDirectives.map (·.name)).Nodup
    && d.definedTypes.all (fun t =>
      decide t.body.partNames.Nodup
        && t.fields.all fun f => decide (inputNames f.arguments).Nodup)
    && d.definedDirectives.all fun definition =>
      decide (inputNames definition.arguments).Nodup

/-- The operations and fragments of a document, each with its selections at any depth. -/
def selectionLists (d : Document) : List (List Selection) :=
  d.operations.map (fun o => Selection.flattenAll o.selections)
    ++ d.fragments.map fun f => Selection.flattenAll f.selections

/-- The literals that stand alone in a document: the defaults of inputs and of variables. -/
def defaults (d : Document) : List Value :=
  d.typeSystem.flatMap (·.defaults)
    ++ d.operations.flatMap fun o => o.variableDefs.filterMap (·.default)

/-- The calls of a document, as far as they are known without types: those of its directives, and
those of fields, of which it is not known what they are. -/
def untypedCalls (d : Document) (vocabulary : List DirectiveDef)
    (parts : List PlacedDirectives) : List Call :=
  (parts.flatMap (·.directives)).map (·.call vocabulary [])
    ++ d.selectionLists.flatMap (·.filterMap fun
      | .field head _ => some ⟨none, [], head.arguments⟩
      | _ => none)

/-- Directives stand where they may and are called as they may be, and no literal names a field of
an object twice. -/
def directivesFit (d : Document) : Bool :=
  let vocabulary := d.vocabulary Introspection.directives
  let parts := d.operations.flatMap (·.placedDirectives)
    ++ d.fragments.flatMap (·.placedDirectives)
  let calls := d.untypedCalls vocabulary
    (parts ++ d.typeSystem.flatMap (·.placedDirectives))
  placementFaults vocabulary parts + systemPlacementFaults vocabulary d.typeSystem
    + total (·.ownFaults) calls + total (·.fieldRepeats) d.defaults == 0

/-- The standard directives that describe definitions by a text have one: what is deprecated may
give a reason, and a scalar that is specified elsewhere says where.  Definitions of standard types
do not matter. -/
def describesByTexts (d : Document) : Bool :=
  d.typeSystem.all fun t => isStandardType t ||
    t.partDirectives.all (fun p => givesText p.directives "deprecated" "reason" false)
      && match t with
        | .type false ⟨_, .scalar⟩ directives => givesText directives "specifiedBy" "url" true
        | _ => true
where
  /-- A standard type is defined or extended. -/
  isStandardType : TypeSystemDefinition → Bool
    | .type _ t _ => Introspection.isStandard t.name
    | _ => false
  /-- The directive of a name, if there is one, gives a text for an argument. -/
  givesText (directives : List Directive) (name argument : String) (required : Bool) : Bool :=
    match directives.find? (·.name == name) with
    | none => true
    | some directive =>
      match directive.arguments.reverse.find? (·.name == argument) with
      | some ⟨_, .string ..⟩ => true
      | some ⟨_, .null⟩ | none => !required
      | some _ => false

/-- The definitions of a document fit together. -/
def definitionsFit (d : Document) : Bool :=
  d.mentionsDefinedTypes && d.extendsDefinedTypes && d.definesOnce && d.directivesFit

end Document

end GraphQLTyping
