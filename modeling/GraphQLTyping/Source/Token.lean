import GraphQLTyping.Source.Text

/-!
# Tokens

The lexical units of a GraphQL text, the way messages name them, and the failure to read one.
-/

namespace GraphQLTyping.Source

/-- The punctuators. -/
inductive Punctuator where
  | bang | dollar | ampersand | parenOpen | parenClose | spread | colon | equals
  | atSign | bracketOpen | bracketClose | braceOpen | pipe | braceClose
deriving DecidableEq, Inhabited

/-- A punctuator as it is written. -/
def Punctuator.text : Punctuator → String
  | bang => "!"
  | dollar => "$"
  | ampersand => "&"
  | parenOpen => "("
  | parenClose => ")"
  | spread => "..."
  | colon => ":"
  | equals => "="
  | atSign => "@"
  | bracketOpen => "["
  | bracketClose => "]"
  | braceOpen => "\x7b"
  | pipe => "|"
  | braceClose => "\x7d"

/-- The punctuator that one character is. -/
def Punctuator.ofChar? (c : Char) : Option Punctuator :=
  [bang, dollar, ampersand, parenOpen, parenClose, colon, equals, atSign, bracketOpen,
    bracketClose, braceOpen, pipe, braceClose].find? (·.text == c.toString)

/-- What a token is: numbers keep their digits, strings their value. -/
inductive Lexeme where
  | punctuator (mark : Punctuator)
  | name (text : String)
  | int (digits : String)
  | float (digits : String)
  | string (value : String) (block : Bool)
  | endOfText
deriving DecidableEq, Inhabited

namespace Lexeme

/-- What kind of lexeme this is, as messages say it. -/
def kindText : Lexeme → String
  | punctuator mark => "'" ++ mark.text ++ "'"
  | name _ => "Name"
  | int _ => "Int"
  | float _ => "Float"
  | string _ block => if block then "BlockString" else "String"
  | endOfText => "<EOF>"

/-- The text of a lexeme that has one besides its kind. -/
def value? : Lexeme → Option String
  | punctuator _ | endOfText => none
  | name text => some text
  | int digits | float digits => some digits
  | string value _ => some value

/-- A lexeme as messages describe it: the kind, then the value in quotes. -/
def describe (l : Lexeme) : String :=
  match l.value? with
  | some value => l.kindText ++ " '" ++ value ++ "'"
  | none => l.kindText

end Lexeme

/-- A **token**: a lexeme and where it stands. -/
structure Token where
  lexeme : Lexeme
  span : Span
deriving DecidableEq, Inhabited

/-- A **syntax error**: what is wrong, and the offset where it shows. -/
structure SyntaxError where
  description : String
  offset : Nat
deriving DecidableEq, Inhabited

/-- The full text of a syntax error in its source. -/
def SyntaxError.message (source : String) (e : SyntaxError) : String :=
  s!"Syntax Error: {e.description}\n\n{excerpt source.toList e.offset}"

/-- The tokens of a text, and how they end: at the end of the text (its offset) or at a part that
is no token. -/
structure Tokens where
  tokens : List Token
  ending : Except SyntaxError Nat

end GraphQLTyping.Source
