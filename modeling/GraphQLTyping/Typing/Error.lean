import GraphQLTyping.Document.Node
import GraphQLTyping.TypeRef.Shape

/-!
# Typing errors

Why a document cannot be typed, why a step of a pass fails, and why a look-up finds nothing.  The
errors at which a pass finds its own records broken say so.
-/

namespace GraphQLTyping

/-- Why a pass fails. -/
inductive TypingError where
  /-- The schema has no root type for an operation. -/
  | missingRoot (kind : OperationKind)
  /-- The enclosing type is one that has no fields. -/
  | withoutFields (type : String)
  /-- The enclosing type is one that does not exist. -/
  | typeMissing
  /-- The enclosing type has no field of a name. -/
  | undefinedField (field type : String)
  /-- The schema has no type of a name. -/
  | unknownType (name type : String)
  /-- A variable's type is a list of lists. -/
  | unsupportedShape (shape : UnsupportedShape)
  /-- No type is left to take away. -/
  | nothingEnclosing
  /-- No type encloses a field. -/
  | outsideOperation
  /-- The pass was used before. -/
  | alreadyUsed
  /-- The node that a walk starts from is passed over. -/
  | startPassedOver
  /-- A step needs a part that no node of the sort has. -/
  | partMissing
  /-- Types are left at the end. -/
  | leftEnclosed (depth : Nat)
  /-- A field was not typed when its parent was left. -/
  | childNotTyped (field : String)
  /-- A variable was not typed when its operation was left. -/
  | variableNotTyped (name : String)
  /-- A field was left that had not been entered. -/
  | neverEntered (field : String)
  /-- The type taken away on leaving a field is not the field's. -/
  | wrongTypeLeft (expected field left : String)
deriving DecidableEq, Inhabited

/-- The text of an error. -/
def TypingError.message : TypingError → String
  | missingRoot kind =>
    s!"The schema does not define a root type for {kind.text} operations."
  | withoutFields type => s!"Type \"{type}\" has no fields."
  | typeMissing => "The type does not exist."
  | undefinedField field type =>
    s!"Field \"{field}\" is not defined on type \"{type}\". Only documents that validate "
      ++ "against the schema can be annotated."
  | unknownType name type =>
    s!"Variable \"${name}\" has type \"{type}\", which does not exist in the schema."
  | unsupportedShape shape =>
    s!"Type \"{shape.whole.text}\" is not supported: expected a named type with at most one "
      ++ s!"list wrapper, but found \"{shape.rest.text}\" inside the wrappers."
  | nothingEnclosing =>
    "Attempted to pop from an empty type stack. This means a node was left without having been "
      ++ "entered."
  | outsideOperation =>
    "No enclosing type is set: fields can only be resolved inside an operation."
  | alreadyUsed =>
    "This TypeAnnotationVisitor was already used to annotate a document. Create a new visitor "
      ++ "for every document."
  | startPassedOver => "The node to start from is one that is passed over."
  | partMissing => "The node has no such part."
  | leftEnclosed depth =>
    s!"Type stack was not empty after annotating the document: depth {depth}. This is a bug."
  | childNotTyped field =>
    s!"Field \"{field}\" was not annotated before its parent was left. This is a bug."
  | variableNotTyped name =>
    s!"Variable \"${name}\" was not annotated before its operation was left. This is a bug."
  | neverEntered field =>
    s!"Left field \"{field}\" which was never entered. This is a bug."
  | wrongTypeLeft expected field left =>
    s!"Expected to leave type \"{expected}\" when leaving field \"{field}\", but left type "
      ++ s!"\"{left}\" instead. This is a bug."

/-- Why a look-up in a typing fails. -/
inductive LookupError where
  /-- The operation was not typed. -/
  | foreignOperation (name : Option String)
  /-- The node is of a sort that has no name to tell. -/
  | nameless
  /-- The node has no typed field. -/
  | noTypedField (kind : String) (span : Source.Span)
deriving DecidableEq, Inhabited

/-- The text of a failed look-up. -/
def LookupError.message : LookupError → String
  | foreignOperation name =>
    s!"Operation {name.getD anonymous} is not part of this document."
  | nameless => "The node is no operation and has no name."
  | noTypedField kind span =>
    s!"No typed field was recorded for node {kind} at {span.start}:{span.stop}. Only variable "
      ++ "definitions and fields outside of fragments are annotated, and only for nodes of this "
      ++ "exact document."
where
  /-- What an operation without a name is called. -/
  anonymous : String := "<anonymous>"

end GraphQLTyping
