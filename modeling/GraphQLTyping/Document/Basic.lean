import GraphQLTyping.Schema.TypeDef
import GraphQLTyping.Source.Text

/-!
# Documents

What a GraphQL text says once it is read: operations, fragments, and definitions of a type system.
Selections are trees, a field's selections below the field; a field without selections has the
empty list.
-/

namespace GraphQLTyping

open Source (Span)

/-- What a selected **field** says besides its selections.  `responseName` is its key in an
answer: the alias if there is one. -/
structure FieldHead where
  span : Span
  responseName : String
  name : String
  arguments : List Argument
  directives : List Directive
deriving Inhabited

/-- What a **spread** of a named fragment says. -/
structure SpreadHead where
  span : Span
  name : String
  directives : List Directive
deriving Inhabited

/-- What an **inline fragment** says besides its selections. -/
structure InlineHead where
  span : Span
  condition : Option String
  directives : List Directive
deriving Inhabited

/-- A **selection** of a selection set. -/
inductive Selection where
  | field (head : FieldHead) (selections : List Selection)
  | spread (head : SpreadHead)
  | inlineFragment (head : InlineHead) (selections : List Selection)
deriving Inhabited

mutual

/-- A selection and all selections below it, in the order of the text. -/
def Selection.flatten : Selection → List Selection
  | .field head selections => .field head selections :: Selection.flattenAll selections
  | .spread head => [.spread head]
  | .inlineFragment head selections =>
    .inlineFragment head selections :: Selection.flattenAll selections

/-- Selections and all selections below them, in the order of the text. -/
def Selection.flattenAll : List Selection → List Selection
  | [] => []
  | selection :: rest => selection.flatten ++ Selection.flattenAll rest

end

/-- A **variable definition** of an operation. -/
structure VariableDef where
  span : Span
  name : String
  type : TypeRef
  default : Option Value
  directives : List Directive
deriving Inhabited

/-- An **operation**. -/
structure Operation where
  span : Span
  kind : OperationKind
  name : Option String
  variableDefs : List VariableDef
  directives : List Directive
  selections : List Selection
deriving Inhabited

/-- A **fragment**: selections to be spread where its type condition allows. -/
structure Fragment where
  span : Span
  name : String
  condition : String
  directives : List Directive
  selections : List Selection
deriving Inhabited

/-- A **definition of a type system**, or an extension of one.  An extension of a type has the
extended type's name and only the added parts. -/
inductive TypeSystemDefinition where
  | schema (extension : Bool) (roots : List (OperationKind × String))
    (directives : List Directive)
  | type (extension : Bool) (definition : TypeDef) (directives : List Directive)
  | directive (definition : DirectiveDef)
deriving Inhabited

/-- The name of what is defined or extended; a schema has none. -/
def TypeSystemDefinition.name? : TypeSystemDefinition → Option String
  | schema .. => none
  | type _ t _ => some t.name
  | directive d => some d.name

/-- The names of the types that a definition of a type system refers to. -/
def TypeSystemDefinition.references : TypeSystemDefinition → List String
  | schema _ roots _ => roots.map (·.2)
  | type _ t _ => t.references
  | directive d => d.arguments.map (·.type.name)

/-- A definition of a document. -/
inductive Definition where
  | operation (definition : Operation)
  | fragment (definition : Fragment)
  | typeSystem (span : Span) (definition : TypeSystemDefinition)
deriving Inhabited

/-- A **document**: its definitions in order. -/
structure Document where
  definitions : List Definition
deriving Inhabited

namespace Document

/-- The operations of a document. -/
def operations (d : Document) : List Operation :=
  d.definitions.filterMap fun
    | .operation o => some o
    | _ => none

/-- The fragments of a document. -/
def fragments (d : Document) : List Fragment :=
  d.definitions.filterMap fun
    | .fragment f => some f
    | _ => none

/-- The type system definitions of a document. -/
def typeSystem (d : Document) : List TypeSystemDefinition :=
  d.definitions.filterMap fun
    | .typeSystem _ t => some t
    | _ => none

/-- Whether a document defines a type of the given name. -/
def definesType (d : Document) (name : String) : Bool :=
  d.typeSystem.any fun
    | .type false t _ => t.name == name
    | _ => false

/-- The directives that a document defines. -/
def definedDirectives (d : Document) : List DirectiveDef :=
  d.typeSystem.filterMap fun
    | .directive definition => some definition
    | _ => none

/-- The fragment of the given name, the last one if there are several. -/
def fragment? (d : Document) (name : String) : Option Fragment :=
  d.fragments.reverse.find? (·.name == name)

end Document

end GraphQLTyping
