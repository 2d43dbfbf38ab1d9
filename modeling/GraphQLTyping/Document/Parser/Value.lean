import GraphQLTyping.Document.Parser.Basic
import GraphQLTyping.Document.Basic

/-!
# Parsing types, values and directives

The parts that executable and type system definitions share.  Values stand in lists and objects,
and types in lists, which may be nested only so deep (`nestingLimit`).  A parser of something nested
is given the number of **levels** left: a selection set, a list or an object takes one of them from
all that stands inside it.
-/

namespace GraphQLTyping.Document.Parser

open Source

/-- The number of levels that a text may have. -/
def nestingLimit : Nat := 200

/-- Fails because no level is left for what the token in hand opens. -/
def tooDeep {α : Type} : Parser α := do
  failAt (← current) "Document is nested too deeply. Parsing aborted."

/-- The rest of a type reference after what it marks. -/
def marked (inner : TypeRef) : Parser TypeRef :=
  return if ← accept .bang then inner.required else inner

/-- A list type after its bracket, or a type name, with so many levels left. -/
def typeRefWithin : Nat → Parser TypeRef
  | 0 => do
    if ← accept .bracketOpen then tooDeep
    marked (TypeRef.named (← name) false)
  | levels + 1 => do
    if ← accept .bracketOpen then
      let element ← typeRefWithin levels
      expect .bracketClose
      marked (TypeRef.list element false)
    else marked (TypeRef.named (← name) false)

/-- A type reference. -/
def typeRef : Parser TypeRef := typeRefWithin nestingLimit

/-- A variable where a value stands.  Where the value has to be constant, the dollar is at fault,
and the name after it is told if there is one. -/
def variableValue (constant : Bool) : Parser Value := do
  let dollar ← take
  if constant then
    match ← lexeme with
    | .name text => failAt dollar s!"Unexpected variable '${text}' in constant value."
    | _ => unexpected dollar
  else return .variable (← name)

/-- The value that a bare word is. -/
def wordValue : String → Value
  | "true" => .boolean true
  | "false" => .boolean false
  | "null" => .null
  | word => .enum word

/-- A value that is no list and no object. -/
def plainValue (constant : Bool) : Parser Value := do
  let token ← current
  match token.lexeme with
  | .punctuator .dollar => variableValue constant
  | .int digits => discard take; return .int digits
  | .float digits => discard take; return .float digits
  | .string text block => discard take; return .string text block
  | .name word => discard take; return wordValue word
  | _ => unexpected token

/-- A value with so many levels left; a constant one holds no variables. -/
def value (constant : Bool) : Nat → Parser Value
  | 0 => do
    if (← peek .bracketOpen) || (← peek .braceOpen) then tooDeep
    plainValue constant
  | levels + 1 => do
    if ← peek .bracketOpen then
      return .list (← any .bracketOpen (value constant levels) .bracketClose)
    else if ← peek .braceOpen then
      let field : Parser (String × Value) := do
        let key ← name
        expect .colon
        return (key, ← value constant levels)
      return .object (← any .braceOpen field .braceClose)
    else plainValue constant

/-- A named value. -/
def argument (constant : Bool) (levels : Nat) : Parser Argument := do
  let key ← name
  expect .colon
  return ⟨key, ← value constant levels⟩

/-- Arguments in parentheses, or none. -/
def arguments (constant : Bool) (levels : Nat) : Parser (List Argument) :=
  optionalMany .parenOpen (argument constant levels) .parenClose

/-- Directives, at most as many as given. -/
def directivesWithin (constant : Bool) (levels : Nat) : Nat → Parser (List Directive)
  | 0 => return []
  | rounds + 1 => do
    if ← accept .atSign then
      let first : Directive := ⟨← name, ← arguments constant levels⟩
      return first :: (← directivesWithin constant levels rounds)
    else return []

/-- All directives that stand here. -/
def directives (constant : Bool) (levels : Nat) : Parser (List Directive) := do
  directivesWithin constant levels (← remaining)

/-- The default of a variable or input, if there is one. -/
def defaultValue : Parser (Option Value) := do
  if ← accept .equals then some <$> value true nestingLimit else return none

/-- The constant directives of a definition, or of a part of one. -/
def ownDirectives : Parser (List Directive) := directives true nestingLimit

end GraphQLTyping.Document.Parser
