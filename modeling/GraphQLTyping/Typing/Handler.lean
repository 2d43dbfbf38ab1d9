import GraphQLTyping.Typing.Pass

/-!
# Handlers

A **handler** is a step of a pass to be taken on a node by itself, without a walk.  Each is meant
for one sort of node (`Handler.suits`).  On a node of another sort it goes as far as it finds the
parts that it needs: a name, selections, variables.
-/

namespace GraphQLTyping

/-- The **handlers**. -/
inductive Handler where
  | enterOperation
  | leaveOperation
  | enterVariable
  | enterField
  | leaveField
  | enterInlineFragment
  | enterFragment
deriving DecidableEq, Inhabited

/-- Whether a node is of the sort that a handler is meant for. -/
def Handler.suits : Handler → Node → Bool
  | enterOperation, .operation _ | leaveOperation, .operation _ => true
  | enterVariable, .variable _ => true
  | enterField, .field .. | leaveField, .field .. => true
  | enterInlineFragment, .inlineFragment .. => true
  | enterFragment, .fragment _ => true
  | _, _ => false

namespace Pass

/-- A part that a step needs of its node. -/
def needed {α : Type} (part : Option α) : Step α :=
  match part with
  | some p => return p
  | none => throw .partMissing

/-- Takes the step of a handler on a node. -/
def handle (s : Schema) (id : NodeId) (node : Node) : Handler → Step Descent
  | .enterOperation => do
    match node with
    | .operation o =>
      enterOperation s o.kind
      return .into
    | _ => throw .partMissing
  | .leaveOperation => do
    discard pop
    noteFields id (selectedFields id (← needed node.selections?))
    noteVariables id (definedVariables id (← needed node.variableDefs?))
    return .into
  | .enterVariable => do
    match node with
    | .variable v =>
      enterVariable s id v.name v.type
      return .over
    | _ => throw .partMissing
  | .enterField => do enterField s id (← needed node.name?)
  | .leaveField => do
    match ← leaveType ((node.name?.map .neverEntered).getD .partMissing) id with
    | none => return .into
    | some record =>
      let children ← childRecords (selectedFields id (← needed node.selections?))
      note (·.setChildren record children)
      return .into
  | .enterInlineFragment | .enterFragment => return .over

end Pass

end GraphQLTyping
