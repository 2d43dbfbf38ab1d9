import GraphQLTyping.Schema.TypeDef

/-!
# Events

What typing a document reports of its course, event by event.  Events come from three sources: the
pass over the document, the types that enclose its current place, and the lists of input fields.
-/

namespace GraphQLTyping

/-- An event of the lists of input fields. -/
inductive InputEvent where
  /-- A field whose type is a list of lists. -/
  | unsupported (owner field : String) (type : TypeRef)
  /-- The list of a type is complete, with so many fields. -/
  | resolved (count : Nat) (type : String)
deriving DecidableEq, Inhabited

/-- An **event** of a pass. -/
inductive Event where
  /-- An operation starts at its root type. -/
  | started (kind : OperationKind) (root : String)
  /-- A variable has a type that is no input type. -/
  | unclassifiedVariable (name type : String)
  /-- The selections of a field are passed over. -/
  | unclassifiedField (parent field type : String)
  /-- A type encloses what follows; so many now do. -/
  | pushed (type : String) (depth : Nat)
  /-- A type encloses nothing more; so many still do. -/
  | popped (type : String) (depth : Nat)
  /-- An event of the lists of input fields. -/
  | input (event : InputEvent)
deriving DecidableEq, Inhabited

/-- The text of an event of the lists of input fields. -/
def InputEvent.message : InputEvent → String
  | unsupported owner field type =>
    s!"Input field {owner}.{field} has unsupported type shape {type.text}."
  | resolved count type => s!"Resolved {count} fields of input object type {type}."

/-- The text of an event. -/
def Event.message : Event → String
  | started kind root => s!"Annotating {kind.text} operation with root type {root}."
  | unclassifiedVariable name type => s!"Variable ${name} has unclassified type {type}."
  | unclassifiedField parent field type =>
    s!"Field {parent}.{field} has unclassified type {type}; skipping its selections."
  | pushed type depth => s!"Pushed type {type}, stack depth is now {depth}."
  | popped type depth => s!"Popped type {type}, stack depth is now {depth}."
  | input event => event.message

end GraphQLTyping
