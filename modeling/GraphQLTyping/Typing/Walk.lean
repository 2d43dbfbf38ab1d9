import GraphQLTyping.Typing.Pass

/-!
# Walking through documents

The order of the steps of a pass.  A node is entered, then the nodes below it are walked through in
order if the pass goes into it, and then it is left.  An operation has its variables before its
selections.  Spreads and inline fragments are passed over, and so are all definitions but
operations.

* `Pass.walkNode`: the walk through one node and what is below it.
* `Pass.complete`: a whole walk, which only an unused pass may take.
-/

namespace GraphQLTyping.Pass

mutual

/-- Walks through a selection. -/
def walkSelection (s : Schema) (id : NodeId) : Selection → Step Unit
  | .field head selections => do
    match ← enterField s id head.name with
    | .over => return
    | .into =>
      walkSelections s id 0 selections
      leaveField id head.name (selectedFields id selections)
  | .spread _ => return
  | .inlineFragment .. => return

/-- Walks through selections below a node, numbered from the given one on. -/
def walkSelections (s : Schema) (parent : NodeId) (i : Nat) : List Selection → Step Unit
  | [] => return
  | selection :: rest => do
    walkSelection s (parent.child i) selection
    walkSelections s parent (i + 1) rest

end

/-- Walks through variable definitions of an operation, numbered from the given one on. -/
def walkVariables (s : Schema) (operation : NodeId) (i : Nat) : List VariableDef → Step Unit
  | [] => return
  | v :: rest => do
    enterVariable s (operation.variableAt i) v.name v.type
    walkVariables s operation (i + 1) rest

/-- Walks through an operation. -/
def walkOperation (s : Schema) (id : NodeId) (o : Operation) : Step Unit := do
  enterOperation s o.kind
  walkVariables s id 0 o.variableDefs
  walkSelections s id 0 o.selections
  leaveOperation id (selectedFields id o.selections) (definedVariables id o.variableDefs)

/-- Walks through definitions of a document, numbered from the given one on. -/
def walkDefinitions (s : Schema) (document : Nat) (i : Nat) : List Definition → Step Unit
  | [] => return
  | .operation o :: rest => do
    walkOperation s ⟨document, .within i []⟩ o
    walkDefinitions s document (i + 1) rest
  | _ :: rest => walkDefinitions s document (i + 1) rest

/-- Walks through a node.  A walk cannot start from a node that is passed over, which shows when it
has been entered. -/
def walkNode (s : Schema) (id : NodeId) : Node → Step Unit
  | .operation o => walkOperation s id o
  | .variable v => do
    enterVariable s id v.name v.type
    throw .startPassedOver
  | .field head selections => do
    match ← enterField s id head.name with
    | .over => throw .startPassedOver
    | .into =>
      walkSelections s id 0 selections
      leaveField id head.name (selectedFields id selections)
  | .fragment _ | .inlineFragment .. => throw .startPassedOver
  | .spread _ | .typeSystem .. => return

/-- **Completes** a walk.  A pass does this once, and must have left all types it entered. -/
def complete (walk : Step Unit) : Step Unit := do
  if (← get).used then throw .alreadyUsed
  modify ({ · with used := true })
  walk
  let depth := (← get).depth
  unless depth = 0 do throw (.leftEnclosed depth)

/-- Types the document of a number. -/
def typeDocument (s : Schema) (number : Nat) (d : Document) : Step Unit :=
  complete (walkDefinitions s number 0 d.definitions)

/-- Types a node alone, with what is below it. -/
def typeNode (s : Schema) (id : NodeId) (node : Node) : Step Unit :=
  complete (walkNode s id node)

end GraphQLTyping.Pass
