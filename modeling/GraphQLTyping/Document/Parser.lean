import GraphQLTyping.Document.Parser.TypeSystem

/-!
# Parsing documents

`Document.parse` reads a document of one definition or more, and `TypeRef.parse` a type reference
that stands alone.  A definition is known by its first word, or by the word after the string that
describes it.
-/

namespace GraphQLTyping

open Source

namespace Document.Parser

/-- The definition that a word starts, a describing string being passed over first.  Extensions
have no description. -/
def definition? (word : String) : Option (Parser Definition) :=
  match typeSystem? word false with
  | some p => some <| spanned do
    description
    let read ← p
    return fun span => .typeSystem span read
  | none =>
    if (OperationKind.ofText? word).isSome then some (.operation <$> operation)
    else if word = "fragment" then some (.fragment <$> fragment)
    else none

/-- An extension, the word `extend` being in hand. -/
def extension : Parser Definition := spanned do
  let next ← lookahead
  match next.lexeme with
  | .name word =>
    match typeSystem? word true with
    | some p =>
      discard take
      let read ← p
      return fun span => .typeSystem span read
    | none => unexpected next
  | _ => unexpected next

/-- A definition with a string before it. -/
def describedDefinition : Parser Definition := do
  let text ← current
  let next ← lookahead
  match next.lexeme with
  | .punctuator .braceOpen =>
    failAt text
      "Unexpected description, descriptions are not supported on shorthand queries."
  | .name word =>
    match definition? word with
    | some p => p
    | none =>
      failAt text "Unexpected description, only GraphQL definitions support descriptions."
  | _ => unexpected next

/-- A definition. -/
def definition : Parser Definition := do
  let token ← current
  match token.lexeme with
  | .punctuator .braceOpen => .operation <$> operation
  | .string .. => describedDefinition
  | .name "extend" => extension
  | .name word =>
    match definition? word with
    | some p => p
    | none => unexpected token
  | _ => unexpected token

/-- Definitions up to the end of the text, at most as many as given. -/
def definitionsWithin : Nat → Parser (List Definition)
  | 0 => return []
  | rounds + 1 => do
    if (← lexeme) == .endOfText then return []
    let first ← definition
    return first :: (← definitionsWithin rounds)

/-- A document; its first definition is read whatever stands there. -/
def document : Parser Document := do
  let first ← definition
  return ⟨first :: (← definitionsWithin (← remaining))⟩

end Document.Parser

/-- Reads a document. -/
def Document.parse (source : String) : Except SyntaxError Document :=
  Document.Parser.document.run source

/-- Reads a type reference that is the whole text. -/
def TypeRef.parse (source : String) : Except SyntaxError TypeRef :=
  let alone : Document.Parser TypeRef := do
    let type ← Document.Parser.typeRef
    Document.Parser.endOfText
    return type
  Document.Parser.run alone source

end GraphQLTyping
