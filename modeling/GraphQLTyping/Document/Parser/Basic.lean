import GraphQLTyping.Source.Lexer

/-!
# Parsers

A **parser** reads tokens from a cursor and answers what they say, or fails with a syntax error.
The cursor has one token in hand and goes on when that token is taken, so a part of the text that is
no token fails as soon as the token before it is taken.

Repetitions (`many`, `optionalMany`, `any`) take as many rounds at most as tokens are left; each
round takes a token, so they never stop early.
-/

namespace GraphQLTyping.Document

open Source

/-- A **cursor**: the token in hand, the tokens after it and how they end, and the offset just past
the last token taken. -/
structure Cursor where
  current : Token
  later : Tokens
  lastStop : Nat

/-- A reader of tokens. -/
abbrev Parser := StateT Cursor (Except SyntaxError)

namespace Parser

/-- The token that comes first among the given ones; at their end it is the end of the text, over
and over. -/
def nextToken (later : Tokens) : Except SyntaxError (Token × Tokens) :=
  match later.tokens, later.ending with
  | token :: rest, ending => .ok (token, ⟨rest, ending⟩)
  | [], .ok stop => .ok (⟨.endOfText, stop, stop⟩, ⟨[], .ok stop⟩)
  | [], .error failure => .error failure

/-- Runs a parser on a text from its first token on. -/
def run {α : Type} (p : Parser α) (source : String) : Except SyntaxError α := do
  let (first, later) ← nextToken (Tokens.read source)
  let (answer, _) ← StateT.run p ⟨first, later, 0⟩
  return answer

/-- The token in hand. -/
def current : Parser Token := return (← get).current

/-- The lexeme in hand. -/
def lexeme : Parser Lexeme := return (← current).lexeme

/-- The token after the one in hand. -/
def lookahead : Parser Token := do
  let (token, _) ← nextToken (← get).later
  return token

/-- Takes the token in hand. -/
def take : Parser Token := do
  let cursor ← get
  let (next, later) ← nextToken cursor.later
  set { current := next, later, lastStop := cursor.current.span.stop : Cursor }
  return cursor.current

/-- A bound on the rounds of a repetition: the tokens left, the end of the text among them, and one
round to meet the end in. -/
def remaining : Parser Nat := return (← get).later.tokens.length + 2

/-- Fails with a description at a token. -/
def failAt {α : Type} (token : Token) (description : String) : Parser α :=
  throw ⟨description, token.span.start⟩

/-- Fails because of a token that nothing may start with. -/
def unexpected {α : Type} (token : Token) : Parser α :=
  failAt token s!"Unexpected {token.lexeme.describe}."

/-- Fails because something else than the token in hand has to stand there. -/
def expected {α : Type} (what : String) : Parser α := do
  let token ← current
  failAt token s!"Expected {what}, found {token.lexeme.describe}."

/-- Whether the token in hand is the given punctuator. -/
def peek (mark : Punctuator) : Parser Bool := return (← lexeme) == .punctuator mark

/-- Whether the token in hand is a name. -/
def peekName : Parser Bool := return (← lexeme) matches .name _

/-- Whether the token in hand is a string. -/
def peekString : Parser Bool := return (← lexeme) matches .string ..

/-- Takes the given punctuator if it is in hand. -/
def accept (mark : Punctuator) : Parser Bool := do
  if ← peek mark then
    discard take
    return true
  else return false

/-- Takes the given punctuator. -/
def expect (mark : Punctuator) : Parser Unit := do
  unless ← accept mark do expected ("'" ++ mark.text ++ "'")

/-- Takes the given word if it is in hand. -/
def acceptWord (word : String) : Parser Bool := do
  if (← lexeme) == .name word then
    discard take
    return true
  else return false

/-- Takes the given word. -/
def expectWord (word : String) : Parser Unit := do
  unless ← acceptWord word do expected ("'" ++ word ++ "'")

/-- Takes a name. -/
def name : Parser String := do
  match ← lexeme with
  | .name text =>
    discard take
    return text
  | _ => expected "Name"

/-- Takes the end of the text. -/
def endOfText : Parser Unit := do
  unless (← lexeme) == .endOfText do expected "<EOF>"

/-- Passes over a string that describes what follows it, if there is one. -/
def description : Parser Unit := do
  if ← peekString then discard take

/-- What a parser reads, with its span. -/
def spanned {α : Type} (p : Parser (Span → α)) : Parser α := do
  let start := (← current).span.start
  let build ← p
  return build ⟨start, (← get).lastStop⟩

/-- Items, at most as many as given, up to and with a closing mark. -/
def itemsUntil {α : Type} (close : Punctuator) (item : Parser α) : Nat → Parser (List α)
  | 0 => do unexpected (← current)
  | rounds + 1 => do
    if ← accept close then return []
    let first ← item
    return first :: (← itemsUntil close item rounds)

/-- Items between marks; there may be none. -/
def any {α : Type} (opening : Punctuator) (item : Parser α) (close : Punctuator) :
    Parser (List α) := do
  expect opening
  itemsUntil close item (← remaining)

/-- Items between marks; the first is read whatever stands there. -/
def many {α : Type} (opening : Punctuator) (item : Parser α) (close : Punctuator) :
    Parser (List α) := do
  expect opening
  let first ← item
  return first :: (← itemsUntil close item (← remaining))

/-- Items between marks, or nothing at all. -/
def optionalMany {α : Type} (opening : Punctuator) (item : Parser α) (close : Punctuator) :
    Parser (List α) := do
  if ← peek opening then many opening item close else return []

/-- Items, at most as many as given, for as long as a separator follows. -/
def separatedItems {α : Type} (separator : Punctuator) (item : Parser α) :
    Nat → Parser (List α)
  | 0 => return []
  | rounds + 1 => do
    let first ← item
    if ← accept separator then return first :: (← separatedItems separator item rounds)
    else return [first]

/-- Items with separators between them; one more may stand before the first. -/
def separated {α : Type} (separator : Punctuator) (item : Parser α) : Parser (List α) := do
  discard (accept separator)
  separatedItems separator item (← remaining)

end Parser

end GraphQLTyping.Document
