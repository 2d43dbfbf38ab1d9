import GraphQLTyping.Document.Parser.Executable

/-!
# Parsing type system definitions

Definitions and extensions of schemas and types have the same parts.  An extension must have at
least one part, where a definition may be bare.
-/

namespace GraphQLTyping.Document.Parser

open Source

/-- An argument or input field. -/
def inputDef : Parser InputDef := do
  description
  let inputName ← name
  expect .colon
  let type ← typeRef
  let default ← defaultValue
  let directives ← ownDirectives
  return { name := inputName, type, default, directives }

/-- The arguments of a field or directive. -/
def argumentDefs : Parser (List InputDef) := optionalMany .parenOpen inputDef .parenClose

/-- A field of an object or interface type. -/
def fieldDef : Parser FieldDef := do
  description
  let fieldName ← name
  let arguments ← argumentDefs
  expect .colon
  let type ← typeRef
  let directives ← ownDirectives
  return { name := fieldName, arguments, type, directives }

/-- The fields of an object or interface type. -/
def fieldDefs : Parser (List FieldDef) := optionalMany .braceOpen fieldDef .braceClose

/-- The interfaces that a type implements. -/
def implementedInterfaces : Parser (List String) := do
  if ← acceptWord "implements" then separated .ampersand name else return []

/-- The members of a union type. -/
def unionMembers : Parser (List String) := do
  if ← accept .equals then separated .pipe name else return []

/-- A value of an enum type.  The words for other values cannot be one, and are refused even as
strings. -/
def enumValue : Parser EnumValueDef := do
  description
  let token ← current
  if token.lexeme.value?.any ["true", "false", "null"].contains then
    failAt token s!"{token.lexeme.describe} is reserved and cannot be used for an enum value."
  let valueName ← name
  return { name := valueName, directives := ← ownDirectives }

/-- The type of a root operation. -/
def rootType : Parser (OperationKind × String) := do
  let kind ← operationKind
  expect .colon
  return (kind, ← name)

/-- Refuses an extension that adds nothing. -/
def refuseEmpty (extension : Bool) (empty : Bool) : Parser Unit := do
  if extension && empty then unexpected (← current)

/-- The parts of a schema definition after its word. -/
def schemaParts (extension : Bool) : Parser TypeSystemDefinition := do
  let directives ← ownDirectives
  let roots ←
    if extension then optionalMany .braceOpen rootType .braceClose
    else many .braceOpen rootType .braceClose
  refuseEmpty extension (directives.isEmpty && roots.isEmpty)
  return .schema extension roots directives

/-- A reader of the parts of a type after its name: what the type is made of, and its directives. -/
abbrev TypeParts := Parser (TypeBody × List Directive)

/-- The parts of a scalar after its name. -/
def scalarParts (extension : Bool) : TypeParts := do
  let directives ← ownDirectives
  refuseEmpty extension directives.isEmpty
  return (.scalar, directives)

/-- The parts of an object or interface type after its name. -/
def fieldedParts (extension : Bool) (build : List String → List FieldDef → TypeBody) :
    TypeParts := do
  let interfaces ← implementedInterfaces
  let directives ← ownDirectives
  let fields ← fieldDefs
  refuseEmpty extension (interfaces.isEmpty && directives.isEmpty && fields.isEmpty)
  return (build interfaces fields, directives)

/-- The parts of a union type after its name. -/
def unionParts (extension : Bool) : TypeParts := do
  let directives ← ownDirectives
  let members ← unionMembers
  refuseEmpty extension (directives.isEmpty && members.isEmpty)
  return (.union members, directives)

/-- The parts of an enum type after its name. -/
def enumParts (extension : Bool) : TypeParts := do
  let directives ← ownDirectives
  let values ← optionalMany .braceOpen enumValue .braceClose
  refuseEmpty extension (directives.isEmpty && values.isEmpty)
  return (.enum values, directives)

/-- The parts of an input object type after its name. -/
def inputParts (extension : Bool) : TypeParts := do
  let directives ← ownDirectives
  let fields ← optionalMany .braceOpen inputDef .braceClose
  refuseEmpty extension (directives.isEmpty && fields.isEmpty)
  return (.input fields (directives.any (·.name == "oneOf")), directives)

/-- The parts after a name of the type that a word defines. -/
def typeParts? (word : String) (extension : Bool) : Option TypeParts :=
  match word with
  | "scalar" => some (scalarParts extension)
  | "type" => some (fieldedParts extension .object)
  | "interface" => some (fieldedParts extension .interface)
  | "union" => some (unionParts extension)
  | "enum" => some (enumParts extension)
  | "input" => some (inputParts extension)
  | _ => none

/-- A directive definition after its word. -/
def directiveParts : Parser TypeSystemDefinition := do
  expect .atSign
  let directiveName ← name
  let arguments ← argumentDefs
  let repeatable ← acceptWord "repeatable"
  expectWord "on"
  let location : Parser String := do
    let token ← current
    let place ← name
    if directiveLocations.contains place then return place else unexpected token
  let locations ← separated .pipe location
  return .directive { name := directiveName, arguments, repeatable, locations }

/-- The definition that a word starts, the word being in hand, if it is one of a type system. -/
def typeSystem? (word : String) (extension : Bool) : Option (Parser TypeSystemDefinition) :=
  match typeParts? word extension with
  | some parts => some do
    discard take
    let typeName ← name
    let (body, directives) ← parts
    return .type extension ⟨typeName, body⟩ directives
  | none =>
    match word, extension with
    | "schema", _ => some do
      discard take
      schemaParts extension
    | "directive", false => some do
      discard take
      directiveParts
    | _, _ => none

end GraphQLTyping.Document.Parser
