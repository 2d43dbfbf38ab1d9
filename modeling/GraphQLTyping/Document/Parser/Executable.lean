import GraphQLTyping.Document.Parser.Value

/-!
# Parsing operations and fragments

Selection sets stand in selections, each taking one of the levels that are left.
-/

namespace GraphQLTyping.Document.Parser

open Source

/-- The name of a fragment, which is any but the word `on`. -/
def fragmentName : Parser String := do
  if (← lexeme).value? == some "on" then unexpected (← current) else name

/-- A field with so many levels left, given how to read its selection set. -/
def field (levels : Nat) (selectionSet : Parser (List Selection)) : Parser Selection := do
  let start := (← current).span.start
  let first ← name
  let fieldName ← if ← accept .colon then name else pure first
  let arguments ← arguments false levels
  let directives ← directives false levels
  let selections ← if ← peek .braceOpen then selectionSet else pure []
  let span := ⟨start, (← get).lastStop⟩
  return .field ⟨span, first, fieldName, arguments, directives⟩ selections

/-- A spread or an inline fragment with so many levels left, given how to read its selection set. -/
def spreadOrInline (levels : Nat) (selectionSet : Parser (List Selection)) :
    Parser Selection := do
  let start := (← current).span.start
  expect .spread
  let conditioned ← acceptWord "on"
  if !conditioned && (← peekName) then
    let fragment ← fragmentName
    let directives ← directives false levels
    return .spread ⟨⟨start, (← get).lastStop⟩, fragment, directives⟩
  else
    let condition ← if conditioned then some <$> name else pure none
    let directives ← directives false levels
    let selections ← selectionSet
    return .inlineFragment ⟨⟨start, (← get).lastStop⟩, condition, directives⟩ selections

/-- A selection with so many levels left, given how to read its selection set. -/
def selection (levels : Nat) (selectionSet : Parser (List Selection)) : Parser Selection := do
  if ← peek .spread then spreadOrInline levels selectionSet else field levels selectionSet

/-- A selection set with so many levels left. -/
def selectionSetWithin : Nat → Parser (List Selection)
  | 0 => tooDeep
  | levels + 1 =>
    many .braceOpen (selection levels (selectionSetWithin levels)) .braceClose

/-- The selection set of an operation or fragment. -/
def selectionSet : Parser (List Selection) := selectionSetWithin nestingLimit

/-- The word for an operation kind. -/
def operationKind : Parser OperationKind := do
  let token ← current
  let word ← name
  match OperationKind.ofText? word with
  | some kind => return kind
  | none => unexpected token

/-- A variable definition. -/
def variableDef : Parser VariableDef := spanned do
  description
  expect .dollar
  let variableName ← name
  expect .colon
  let type ← typeRef
  let default ← defaultValue
  let directives ← ownDirectives
  return fun span => ⟨span, variableName, type, default, directives⟩

/-- An operation: a selection set alone, or what starts with the word for its kind. -/
def operation : Parser Operation := spanned do
  if ← peek .braceOpen then
    let selections ← selectionSet
    return fun span => ⟨span, .query, none, [], [], selections⟩
  else
    description
    let kind ← operationKind
    let operationName ← if ← peekName then some <$> name else pure none
    let variableDefs ← optionalMany .parenOpen variableDef .parenClose
    let directives ← directives false nestingLimit
    let selections ← selectionSet
    return fun span => ⟨span, kind, operationName, variableDefs, directives, selections⟩

/-- A fragment definition. -/
def fragment : Parser Fragment := spanned do
  description
  expectWord "fragment"
  let fragmentName ← fragmentName
  expectWord "on"
  let condition ← name
  let directives ← directives false nestingLimit
  let selections ← selectionSet
  return fun span => ⟨span, fragmentName, condition, directives, selections⟩

end GraphQLTyping.Document.Parser
