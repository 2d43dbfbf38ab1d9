import GraphQLTyping.Document.Basic

/-!
# Nodes of documents

A **node** is a definition, a variable definition or a selection.  Its **path** leads to it from the
document: the number of its definition and then, selection set by selection set, the number of the
selection.  Two texts may say the same, so a node's **identity** (`NodeId`) has the number of its
document besides.

* `Document.node?`: the node at a path.
* `Document.nodes`: all nodes of operations and fragments with their paths, in the order of the
  text.
* `selectedFields`: the fields among the selections below a node, with their identities.
* `definedVariables`: the variables of an operation, with their identities.
-/

namespace GraphQLTyping

open Source (Span)

/-- The way from a document to a node: through the selections of a definition (no step leads to the
definition itself), or to a variable of an operation. -/
inductive NodePath where
  | within (definition : Nat) (steps : List Nat)
  | variable (definition : Nat) (index : Nat)
deriving DecidableEq, Inhabited

/-- The path to a selection below the node. -/
def NodePath.child : NodePath → Nat → NodePath
  | within definition steps, i => within definition (steps ++ [i])
  | .variable definition index, _ => .variable definition index

/-- The path to a variable of the operation. -/
def NodePath.variableAt : NodePath → Nat → NodePath
  | within definition _, i => .variable definition i
  | .variable definition _, i => .variable definition i

/-- The **identity** of a node: the number of its document, and its path there. -/
structure NodeId where
  document : Nat
  path : NodePath
deriving DecidableEq, Inhabited

/-- The identity of a selection below the node. -/
def NodeId.child (id : NodeId) (i : Nat) : NodeId := ⟨id.document, id.path.child i⟩

/-- The identity of a variable of the operation. -/
def NodeId.variableAt (id : NodeId) (i : Nat) : NodeId := ⟨id.document, id.path.variableAt i⟩

/-- A part of a document that has an identity. -/
inductive Node where
  | operation (definition : Operation)
  | fragment (definition : Fragment)
  | variable (definition : VariableDef)
  | field (head : FieldHead) (selections : List Selection)
  | spread (head : SpreadHead)
  | inlineFragment (head : InlineHead) (selections : List Selection)
  | typeSystem (span : Span) (definition : TypeSystemDefinition)
deriving Inhabited

namespace TypeSystemDefinition

/-- What sort of definition this is, as messages say it. -/
def kindText : TypeSystemDefinition → String
  | schema extension .. => "Schema" ++ ending extension
  | type extension definition _ => bodyText definition.body ++ "Type" ++ ending extension
  | directive _ => "DirectiveDefinition"
where
  /-- What an extension and a definition are called. -/
  ending (extension : Bool) : String := if extension then "Extension" else "Definition"
  /-- What the sorts of types are called. -/
  bodyText : TypeBody → String
    | .scalar => "Scalar"
    | .object .. => "Object"
    | .interface .. => "Interface"
    | .union _ => "Union"
    | .enum _ => "Enum"
    | .input .. => "InputObject"

end TypeSystemDefinition

namespace Node

/-- The node that a selection is. -/
def ofSelection : Selection → Node
  | .field head selections => .field head selections
  | .spread head => .spread head
  | .inlineFragment head selections => .inlineFragment head selections

/-- The selections below a node of a sort that can have some. -/
def selections? : Node → Option (List Selection)
  | operation o => some o.selections
  | fragment f => some f.selections
  | field _ selections | inlineFragment _ selections => some selections
  | .variable _ | spread _ | typeSystem .. => none

/-- The selections below a node. -/
def selections (n : Node) : List Selection := n.selections?.getD []

/-- The variables that a node of a sort that can have some defines; fragments define none. -/
def variableDefs? : Node → Option (List VariableDef)
  | operation o => some o.variableDefs
  | fragment _ => some []
  | _ => none

/-- The name of a node, if it has one.  A field has its own name, not its alias.  A variable
definition has none: the name is that of the variable. -/
def name? : Node → Option String
  | operation o => o.name
  | fragment f => some f.name
  | field head _ => some head.name
  | spread head => some head.name
  | typeSystem _ definition => definition.name?
  | .variable _ | inlineFragment .. => none

/-- Whether a node is of a sort that can have a name. -/
def canHaveName : Node → Bool
  | .variable _ | inlineFragment .. | typeSystem _ (.schema ..) => false
  | _ => true

/-- Where a node stands. -/
def span : Node → Span
  | operation o => o.span
  | fragment f => f.span
  | .variable v => v.span
  | field head _ => head.span
  | spread head => head.span
  | inlineFragment head _ => head.span
  | typeSystem span _ => span

/-- What sort of node this is, as messages say it. -/
def kindText : Node → String
  | operation _ => "OperationDefinitionNode"
  | fragment _ => "FragmentDefinitionNode"
  | .variable _ => "VariableDefinitionNode"
  | field .. => "FieldNode"
  | spread _ => "FragmentSpreadNode"
  | inlineFragment .. => "InlineFragmentNode"
  | typeSystem _ definition => definition.kindText ++ "Node"

/-- The node below this one that steps lead to. -/
def descendant? : Node → List Nat → Option Node
  | n, [] => some n
  | n, i :: steps => n.selections[i]?.bind fun s => (ofSelection s).descendant? steps

end Node

mutual

/-- A selection and all selections below it. -/
def Selection.nodesAt (path : NodePath) : Selection → List (NodePath × Node)
  | .field head selections =>
    (path, .field head selections) :: Selection.nodesFrom path 0 selections
  | .spread head => [(path, .spread head)]
  | .inlineFragment head selections =>
    (path, .inlineFragment head selections) :: Selection.nodesFrom path 0 selections

/-- Selections below a path, numbered from the given one on, and all selections below them. -/
def Selection.nodesFrom (parent : NodePath) (i : Nat) :
    List Selection → List (NodePath × Node)
  | [] => []
  | s :: rest => s.nodesAt (parent.child i) ++ Selection.nodesFrom parent (i + 1) rest

end

/-- The node that a definition is. -/
def Definition.node : Definition → Node
  | .operation o => .operation o
  | .fragment f => .fragment f
  | .typeSystem span definition => .typeSystem span definition

/-- The nodes of an operation or a fragment: itself, its variables, and its selections. -/
def Definition.nodes (number : Nat) : Definition → List (NodePath × Node)
  | .operation o =>
    (.within number [], .operation o)
      :: o.variableDefs.mapIdx (fun i v => (.variable number i, .variable v))
      ++ Selection.nodesFrom (.within number []) 0 o.selections
  | .fragment f =>
    (.within number [], .fragment f) :: Selection.nodesFrom (.within number []) 0 f.selections
  | .typeSystem .. => []

namespace Document

/-- The nodes of the operations and fragments of a document, in the order of its text. -/
def nodes (d : Document) : List (NodePath × Node) :=
  (d.definitions.mapIdx fun i definition => definition.nodes i).flatten

/-- The node at a path. -/
def node? (d : Document) : NodePath → Option Node
  | .within number steps => d.definitions[number]?.bind fun definition =>
    definition.node.descendant? steps
  | .variable number index =>
    match d.definitions[number]? with
    | some (.operation o) => o.variableDefs[index]?.map .variable
    | _ => none

end Document

/-- The fields among selections below a node, numbered from the given one on.  Spreads and inline
fragments take numbers but are left out. -/
def selectedFieldsFrom (parent : NodeId) (i : Nat) : List Selection → List (NodeId × String)
  | [] => []
  | .field head _ :: rest =>
    (parent.child i, head.name) :: selectedFieldsFrom parent (i + 1) rest
  | _ :: rest => selectedFieldsFrom parent (i + 1) rest

/-- The fields directly below a node: their identities and names, in order. -/
def selectedFields (parent : NodeId) (selections : List Selection) : List (NodeId × String) :=
  selectedFieldsFrom parent 0 selections

/-- The variables of an operation, numbered from the given one on. -/
def definedVariablesFrom (operation : NodeId) (i : Nat) :
    List VariableDef → List (NodeId × String)
  | [] => []
  | v :: rest =>
    (operation.variableAt i, v.name) :: definedVariablesFrom operation (i + 1) rest

/-- The variables of an operation: their identities and names, in order. -/
def definedVariables (operation : NodeId) (defs : List VariableDef) :
    List (NodeId × String) :=
  definedVariablesFrom operation 0 defs

end GraphQLTyping
