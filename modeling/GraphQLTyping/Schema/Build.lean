import GraphQLTyping.Document.Parser
import GraphQLTyping.Schema.Default
import GraphQLTyping.Schema.Definitions

/-!
# Building schemas

A schema is built from the type system definitions of a document, if these fit together.  The root
types are those that the schema definition and its extensions list; a text without a schema
definition has the types named `Query`, `Mutation` and `Subscription` as well.
-/

namespace GraphQLTyping

/-- Why no schema could be built: the text cannot be read, its definitions do not fit together, or
they are described by something else than texts. -/
inductive SchemaError where
  | unreadable (failure : Source.SyntaxError)
  | inconsistent
  | undescribed
deriving Inhabited

namespace Document

/-- The name of the root type for a kind of operation: the one listed last, unless there is no
schema definition and a type has the usual name. -/
def rootOf (d : Document) (kind : OperationKind) : Option String :=
  if d.schemaDefinitions = 0 && d.definesType kind.usualRoot then some kind.usualRoot
  else (d.listedRoots.filterMap fun (k, name) => if k = kind then some name else none).getLast?

/-- The types of a schema with the definitions of a document: the defined ones, the introspection
types and their scalars, and of the other standard scalars those that are defined or that something
refers to.  A definition of a standard type gives way to it, with all that it refers to. -/
def allTypes (d : Document) : List TypeDef :=
  let standard := Introspection.types ++ Introspection.ownScalars
  let own := d.definedTypes.filter (!Introspection.isStandard ·.name)
  let mentioned := d.definedTypes.map (·.name) ++ own.flatMap (·.references)
    ++ d.definedDirectives.flatMap (·.arguments.map (·.type.name))
    ++ OperationKind.all.filterMap d.rootOf
  own ++ standard ++ Introspection.namedScalars.filter (mentioned.contains ·.name)

/-- The directives of a schema with the definitions of a document: the defined ones, and the
standard ones that are not defined anew. -/
def allDirectives (d : Document) : List DirectiveDef :=
  let defined := d.definedDirectives
  defined ++ Introspection.directives.filter fun t => !(defined.map (·.name)).contains t.name

end Document

/-- An input is of an input type. -/
def InputDef.fitsIn (types : List TypeDef) (i : InputDef) : Bool :=
  (TypeDef.lookup types i.type.name).any (·.isInput)

/-- The parts of a type are of kinds that fit their place. -/
def TypeDef.fitsIn (types : List TypeDef) (t : TypeDef) : Bool :=
  t.fields.all (fun f =>
      (lookup types f.type.name).any (·.isOutput) && f.arguments.all (·.fitsIn types))
    && t.inputFields.all (·.fitsIn types)
    && t.members.all (fun name => (lookup types name).any (·.isObject))
    && t.interfaces.all fun name => (lookup types name).any (·.isInterface)

namespace Schema

/-- The schema that the definitions of a document define, if they fit together. -/
def ofDocument? (d : Document) : Option Schema :=
  let types := d.allTypes
  let directives := d.allDirectives
  if d.definitionsFit && types.all (·.fitsIn types)
      && directives.all (·.arguments.all (·.fitsIn types)) then do
    let settled := settledTypes types
    guard (settled.length = types.length)
    ofParts? settled d.rootOf (← directives.mapM (·.settle? types settled))
  else none

/-- Reads a schema from a text of definitions. -/
def parse (source : String) : Except SchemaError Schema :=
  match Document.parse source with
  | .error failure => .error (.unreadable failure)
  | .ok document =>
    if document.definitionsFit && !document.describesByTexts then .error .undescribed
    else match ofDocument? document with
      | some schema => .ok schema
      | none => .error .inconsistent

end Schema

end GraphQLTyping
