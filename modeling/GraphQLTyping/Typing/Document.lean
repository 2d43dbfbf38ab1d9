import GraphQLTyping.Document.Parser
import GraphQLTyping.Schema.Validity
import GraphQLTyping.Typing.Walk
import GraphQLTyping.Validation.Document

/-!
# Typing documents

A document is typed by a pass of its own.  The outcome is a typing, or the reason why there is none,
and in either case the events up to there.

* `Document.typing`: the typing of a document that is taken to be valid.
* `Schema.typeText`: reads a text, makes sure that it is valid unless told not to, and types it.
-/

namespace GraphQLTyping

/-- The **typing** of a document that is taken to be valid, by a new pass. -/
def Document.typing (s : Schema) (d : Document) : Except TypingError Typing × List Event :=
  match (Pass.typeDocument s 0 d).run {} with
  | .ok _ p => (.ok p.typing, p.log)
  | .error e p => (.error e, p.log)

/-- Why a text has no typing: it cannot be read, the schema is not valid, it cannot be decided
whether the document is, it is not, or the pass fails. -/
inductive TextError where
  | unreadable (failure : Source.SyntaxError)
  | invalidSchema
  | undecided
  | invalidDocument
  | untyped (cause : TypingError)
deriving Inhabited

/-- A document with its typing. -/
structure TypedDocument where
  document : Document
  typing : Typing
deriving Inhabited

/-- Makes sure that a document is valid, the schema first. -/
def Schema.checkValid (s : Schema) (d : Document) : Except TextError Unit :=
  if !s.isValid then .error .invalidSchema
  else match d.verdict s with
    | .valid => .ok ()
    | .undecided => .error .undecided
    | .invalid => .error .invalidDocument

/-- Types the document of a text, made sure of or taken to be valid. -/
def Schema.typeText (s : Schema) (text : String) (validate : Bool := true) :
    Except TextError TypedDocument × List Event :=
  match Document.parse text with
  | .error failure => (.error (.unreadable failure), [])
  | .ok d =>
    match if validate then s.checkValid d else .ok () with
    | .error e => (.error e, [])
    | .ok () =>
      match d.typing s with
      | (.ok typing, log) => (.ok ⟨d, typing⟩, log)
      | (.error e, log) => (.error (.untyped e), log)

end GraphQLTyping
