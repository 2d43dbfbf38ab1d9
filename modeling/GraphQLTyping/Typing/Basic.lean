import GraphQLTyping.Typing.Error
import GraphQLTyping.Typing.InputLists

/-!
# Typings

A **typing** is what a pass has found out about a document, kept beside it: the records of typed
fields, which record each node has, the variables in order, and for each operation its root fields
and its variables.  Nodes are found by identity, so a node of another document is never found,
however alike.

* `Typing.record?`, `Typing.typedField`: the record of a node.
* `Typing.fieldsOf`, `Typing.variablesOf`: the records of an operation.
* `FieldTree`, `Typing.tree`: a record with all records below it.
-/

namespace GraphQLTyping

/-- A **typing**.  What was noted last about a node stands first. -/
structure Typing where
  records : Array TypedField := #[]
  nodes : List (NodeId × RecordId) := []
  variableRecords : List RecordId := []
  operationFields : List (NodeId × List RecordId) := []
  operationVariables : List (NodeId × List RecordId) := []
  inputs : InputLists := {}
deriving Inhabited

namespace Typing

/-- The record of a node. -/
def record? (t : Typing) (id : NodeId) : Option RecordId := t.nodes.lookup id

/-- The typed field of a record. -/
def field? (t : Typing) (record : RecordId) : Option TypedField := t.records[record]?

/-- The typing with a typed field as the record of a node. -/
def add (t : Typing) (id : NodeId) (f : TypedField) : Typing :=
  { t with records := t.records.push f, nodes := (id, t.records.size) :: t.nodes }

/-- The typing with a typed field as the record of a variable, which is the last one so far. -/
def addVariable (t : Typing) (id : NodeId) (f : TypedField) : Typing :=
  { t.add id f with variableRecords := t.variableRecords ++ [t.records.size] }

/-- The typing with the given records below a record. -/
def setChildren (t : Typing) (record : RecordId) (children : List RecordId) : Typing :=
  { t with records := t.records.modify record ({ · with children := .selected children }) }

/-- The record of a node, which must have one. -/
def typedField (t : Typing) (id : NodeId) (node : Node) : Except LookupError RecordId :=
  match t.record? id with
  | some record => .ok record
  | none => .error (.noTypedField node.kindText node.span)

/-- What is noted about an operation, which must be one of the document. -/
def noted {α : Type} (notes : List (NodeId × α)) (id : NodeId) (node : Node) :
    Except LookupError α :=
  match notes.lookup id with
  | some found => .ok found
  | none => .error (if node.canHaveName then .foreignOperation node.name? else .nameless)

/-- The root fields of an operation. -/
def fieldsOf (t : Typing) (id : NodeId) (node : Node) : Except LookupError (List RecordId) :=
  noted t.operationFields id node

/-- The variables of an operation. -/
def variablesOf (t : Typing) (id : NodeId) (node : Node) : Except LookupError (List RecordId) :=
  noted t.operationVariables id node

end Typing

/-- A typed field with the typed fields selected below it.  A shared list stays a reference. -/
inductive FieldTree where
  | node (field : TypedField) (children : List FieldTree)
deriving Inhabited

mutual

/-- The shared lists that a tree mentions, in order. -/
def FieldTree.mentions : FieldTree → List ListId
  | node field children => field.children.list?.toList ++ FieldTree.allMentions children

/-- The shared lists that trees mention, in order. -/
def FieldTree.allMentions : List FieldTree → List ListId
  | [] => []
  | t :: rest => t.mentions ++ FieldTree.allMentions rest

end

namespace Typing

/-- The tree of a record, cut at the given depth. -/
def treeWithin (t : Typing) : Nat → RecordId → Option FieldTree
  | 0, _ => none
  | depth + 1, record =>
    (t.field? record).map fun f =>
      .node f (f.children.records.filterMap (t.treeWithin depth))

/-- The **tree** of a record.  A record stands deeper in the document than the one above it, so no
tree is deeper than there are records. -/
def tree (t : Typing) (record : RecordId) : Option FieldTree :=
  t.treeWithin t.records.size record

/-- The trees of records. -/
def trees (t : Typing) (records : List RecordId) : List FieldTree := records.filterMap t.tree

end Typing

end GraphQLTyping
