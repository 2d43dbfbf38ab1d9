import GraphQLTyping.Typing.Basic

/-!
# Passes

A **pass** goes through a document once.  It knows the object types that enclose its place, the
innermost first; a field is typed against the innermost.  Entering an operation or a field of object
type encloses what is below it in that type, and leaving it takes the type away again.

Any object type may be put around the place of a pass, also one from elsewhere that looks like one of
the schema.  It is another type all the same: leaving a field takes away the very type that entering
it put there, or fails.

A pass may be told to enclose its place in the type of a name that there is none of.  Then a
**missing** type (`none`) encloses it, which fails to be put there, to be looked at and to be taken
away, though it is put there and taken away.

Each step below is what a pass does on entering or leaving one node.  A step that fails leaves the
pass as it was at the failure.
-/

namespace GraphQLTyping

/-- The state of a **pass**: whether it was used, the types that enclose its place, what it found
out, and the events so far in order. -/
structure Pass where
  used : Bool := false
  enclosing : List (Option TypeDef) := []
  typing : Typing := {}
  log : List Event := []
deriving Inhabited

/-- What a pass does after entering a node: go **into** it, or **over** it to what follows. -/
inductive Descent where
  | into
  | over
deriving DecidableEq, Inhabited

/-- A step of a pass.  A failure keeps the state it was met in. -/
abbrev Step := EStateM TypingError Pass

namespace Pass

/-- How many types enclose the place of a pass. -/
def depth (p : Pass) : Nat := p.enclosing.length

/-- Reports an event. -/
def report (e : Event) : Step Unit := modify fun p => { p with log := p.log ++ [e] }

/-- A type that must not be missing. -/
def known (t : Option TypeDef) : Step TypeDef :=
  match t with
  | some t => return t
  | none => throw .typeMissing

/-- Encloses what follows in a type. -/
def push (t : TypeDef) : Step Unit := do
  modify fun p => { p with enclosing := some t :: p.enclosing }
  report (.pushed t.name (← get).depth)

/-- Encloses what follows in the type of a name, or in a missing one. -/
def pushNamed (s : Schema) (name : String) : Step Unit := do
  match s.type? name with
  | some t => push t
  | none =>
    modify fun p => { p with enclosing := none :: p.enclosing }
    throw .typeMissing

/-- Takes the innermost enclosing type away. -/
def pop : Step TypeDef := do
  match (← get).enclosing with
  | [] => throw .nothingEnclosing
  | innermost :: rest =>
    modify fun p => { p with enclosing := rest }
    let t ← known innermost
    report (.popped t.name rest.length)
    return t

/-- The innermost enclosing type, be it missing or not. -/
def innermost : Step (Option TypeDef) := do
  match (← get).enclosing with
  | [] => throw .outsideOperation
  | t :: _ => return t

/-- The innermost enclosing type. -/
def current : Step TypeDef := do known (← innermost)

/-- Changes the typing. -/
def note (change : Typing → Typing) : Step Unit :=
  modify fun p => { p with typing := change p.typing }

/-- Resolves an input object type to its shared list. -/
def resolveInput (s : Schema) (t : TypeDef) : Step ListId := do
  let (list, resolving) := InputLists.resolve s t (← get).typing.inputs
  note ({ · with inputs := resolving.inputs })
  modify fun p => { p with log := p.log ++ resolving.events.map .input }
  return list

/-- The record of a node that has to be typed by now. -/
def recordOr (e : TypingError) (id : NodeId) : Step RecordId := do
  match (← get).typing.record? id with
  | some record => return record
  | none => throw e

/-- The records of fields, each given with its name. -/
def childRecords (children : List (NodeId × String)) : Step (List RecordId) :=
  children.mapM fun (id, name) => recordOr (.childNotTyped name) id

/-- Enters an operation: its root type encloses what follows. -/
def enterOperation (s : Schema) (kind : OperationKind) : Step Unit := do
  match s.root? kind with
  | none => throw (.missingRoot kind)
  | some root =>
    report (.started kind root.name)
    push root

/-- Notes the root fields of an operation, given with their names. -/
def noteFields (id : NodeId) (children : List (NodeId × String)) : Step Unit := do
  let fields ← childRecords children
  note fun a => { a with operationFields := (id, fields) :: a.operationFields }

/-- Notes the variables of an operation, given with their names. -/
def noteVariables (id : NodeId) (defined : List (NodeId × String)) : Step Unit := do
  let records ← defined.mapM fun (node, name) => recordOr (.variableNotTyped name) node
  note fun a => { a with operationVariables := (id, records) :: a.operationVariables }

/-- Leaves an operation, given its root fields and its variables with their names. -/
def leaveOperation (id : NodeId) (children defined : List (NodeId × String)) : Step Unit := do
  discard pop
  noteFields id children
  noteVariables id defined

/-- Enters a variable definition: types the variable.  Its shape is looked at before its name. -/
def enterVariable (s : Schema) (id : NodeId) (name : String) (type : TypeRef) : Step Unit := do
  match type.simpleShape with
  | .error shape => throw (.unsupportedShape shape)
  | .ok shape =>
    match s.type? shape.name with
    | none => throw (.unknownType name shape.name)
    | some bare =>
      let field := TypedField.ofVariable name shape bare
      let children ←
        if field.resolution = .object then Children.shared <$> resolveInput s bare
        else pure .none
      if field.resolution = .unclassified then report (.unclassifiedVariable name bare.name)
      note (·.addVariable id { field with children })

/-- Why an enclosing type has no field of a name. -/
def fieldMissing (name : String) : Option TypeDef → TypingError
  | none => .typeMissing
  | some parent =>
    if parent.hasFields then .undefinedField name parent.name else .withoutFields parent.name

/-- Enters a field: types it against the innermost enclosing type.  An object type encloses the
field's selections; those of a field without a resolution are passed over. -/
def enterField (s : Schema) (id : NodeId) (name : String) : Step Descent := do
  let parent ← innermost
  match s.typedOutput? parent name with
  | none => throw (fieldMissing name parent)
  | some field =>
    note (·.add id field)
    match field.resolution with
    | .object =>
      push field.type
      return .into
    | .unclassified =>
      report (.unclassifiedField (← known parent).name name field.type.name)
      return .over
    | _ => return .into

/-- Takes the type of an entered node away again if it is an object type, and answers the node's
record then.  What is taken away must be that type, and not just one of its name.  The error is for a
node that was not entered. -/
def leaveType (e : TypingError) (id : NodeId) : Step (Option RecordId) := do
  let record ← recordOr e id
  match (← get).typing.field? record with
  | none => throw e
  | some field =>
    if field.resolution = .object then
      let left ← pop
      unless left = field.type do
        throw (.wrongTypeLeft field.type.name field.name left.name)
      return some record
    else return none

/-- Leaves a field, given the fields selected in it with their names.  Only a field of object type
took a type in, and only such a field has children. -/
def leaveField (id : NodeId) (name : String) (children : List (NodeId × String)) :
    Step Unit := do
  match ← leaveType (.neverEntered name) id with
  | none => return
  | some record =>
    let records ← childRecords children
    note (·.setChildren record records)

end Pass

end GraphQLTyping
