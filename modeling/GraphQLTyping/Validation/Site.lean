import GraphQLTyping.Document.Directives
import GraphQLTyping.Reach
import GraphQLTyping.Schema.Literal

/-!
# Sites

A **site** is a selection with the type that encloses it.  The rules for valid documents look at
each site and each call of each executable definition; this module lists them.

The enclosing type is unknown (`none`) where a root type is missing or a field is not known; what is
there to say about types is then not said.  An inline fragment or a fragment with a type condition
has an enclosing type in any case.

* `Executable.sites`: the sites of an operation or fragment, fragments not being followed.
* `Executable.calls`: its calls.  The arguments of a directive that the schema does not know are
  typed by the field around it.
* `Document.variableUses`: the uses of variables in an operation and the fragments it leads to.
-/

namespace GraphQLTyping

namespace Schema

/-- The definition of a field where it is selected, if the enclosing type has one. -/
def fieldDef? (s : Schema) (parent : TypeDef) (name : String) : Option FieldDef :=
  (s.metaField? (some parent) name).or (parent.field? name)

/-- The composite type of a name. -/
def composite? (s : Schema) (name : String) : Option TypeDef :=
  (s.type? name).filter (·.isComposite)

/-- The type that encloses the selections of a field. -/
def below? (s : Schema) (parent : Option TypeDef) (name : String) : Option TypeDef :=
  (parent.bind (s.fieldDef? · name)).bind fun field => s.composite? field.type.name

/-- The type that encloses the selections of an inline fragment. -/
def narrowed? (s : Schema) (parent : Option TypeDef) : Option String → Option TypeDef
  | some condition => s.composite? condition
  | none => parent

end Schema

/-- A **site**: a selection and the type that encloses it.  One that is no field has the definition
of the field around it besides, if there is a field and its definition is known. -/
inductive Site where
  | field (parent : Option TypeDef) (head : FieldHead) (selections : List Selection)
  | spread (parent : Option TypeDef) (around : Option FieldDef) (head : SpreadHead)
  | inlineFragment (parent : Option TypeDef) (around : Option FieldDef) (head : InlineHead)
    (selections : List Selection)
deriving Inhabited

mutual

/-- The sites of a selection, given the type that encloses it and the field around it. -/
def Selection.sites (s : Schema) (parent : Option TypeDef) (around : Option FieldDef) :
    Selection → List Site
  | .field head selections =>
    .field parent head selections
      :: Selection.sitesOfAll s (s.below? parent head.name)
        (parent.bind (s.fieldDef? · head.name)) selections
  | .spread head => [.spread parent around head]
  | .inlineFragment head selections =>
    .inlineFragment parent around head selections
      :: Selection.sitesOfAll s (s.narrowed? parent head.condition) around selections

/-- The sites of selections. -/
def Selection.sitesOfAll (s : Schema) (parent : Option TypeDef) (around : Option FieldDef) :
    List Selection → List Site
  | [] => []
  | selection :: rest =>
    selection.sites s parent around ++ Selection.sitesOfAll s parent around rest

end

namespace Site

/-- The definition of the field at a site, or else of the field around it. -/
def fieldDef? (s : Schema) : Site → Option FieldDef
  | .field parent head _ => parent.bind (s.fieldDef? · head.name)
  | .spread _ around _ => around
  | .inlineFragment _ around _ _ => around

/-- The directives at a site. -/
def directives : Site → List Directive
  | .field _ head _ => head.directives
  | .spread _ _ head => head.directives
  | .inlineFragment _ _ head _ => head.directives

end Site

/-- The inputs that type the arguments of a directive: its own, if the schema knows it, or else
those of the field that it stands at or in. -/
def Schema.directiveTyping (s : Schema) (field : Option FieldDef) (d : Directive) : List InputDef :=
  match s.directive? d.name with
  | some definition => definition.arguments
  | none => (field.map (·.arguments)).getD []

/-- The calls that directives are, given the definition of the field that they stand at or in. -/
def Schema.directiveCalls (s : Schema) (vocabulary : List DirectiveDef) (field : Option FieldDef)
    (directives : List Directive) : List Call :=
  directives.map fun directive => directive.call vocabulary (s.directiveTyping field directive)

/-- The calls at a site: a field's own, and those of directives. -/
def Site.calls (s : Schema) (vocabulary : List DirectiveDef) (site : Site) : List Call :=
  let inputs := (site.fieldDef? s).map (·.arguments)
  (match site with
    | .field _ head _ => [⟨inputs, inputs.getD [], head.arguments⟩]
    | _ => [])
    ++ s.directiveCalls vocabulary (site.fieldDef? s) site.directives

/-- An **executable** definition: an operation or a fragment. -/
inductive Executable where
  | operation (definition : Operation)
  | fragment (definition : Fragment)
deriving Inhabited

/-- The executable definitions of a document. -/
def Document.executables (d : Document) : List Executable :=
  d.definitions.filterMap fun
    | .operation o => some (.operation o)
    | .fragment f => some (.fragment f)
    | .typeSystem .. => none

namespace Executable

/-- Where a definition stands. -/
def span : Executable → Source.Span
  | operation o => o.span
  | fragment f => f.span

/-- The selections of a definition. -/
def selections : Executable → List Selection
  | operation o => o.selections
  | fragment f => f.selections

/-- The type that encloses the selections of a definition. -/
def parent? (s : Schema) : Executable → Option TypeDef
  | operation o => s.root? o.kind
  | fragment f => s.composite? f.condition

/-- The sites of a definition. -/
def sites (s : Schema) (e : Executable) : List Site :=
  Selection.sitesOfAll s (e.parent? s) none e.selections

/-- The directives of a definition and of its variables. -/
def ownDirectives : Executable → List Directive
  | operation o => o.directives ++ o.variableDefs.flatMap (·.directives)
  | fragment f => f.directives

/-- The directives of a definition and of all its parts, with their locations. -/
def placedDirectives : Executable → List PlacedDirectives
  | operation o => o.placedDirectives
  | fragment f => f.placedDirectives

/-- All calls of a definition. -/
def calls (d : Document) (s : Schema) (e : Executable) : List Call :=
  let vocabulary := d.vocabulary s.directives
  s.directiveCalls vocabulary none e.ownDirectives ++ (e.sites s).flatMap (·.calls s vocabulary)

/-- The uses of variables in a definition, fragments not being followed. -/
def variableUses (d : Document) (s : Schema) (e : Executable) : List VariableUse :=
  (e.calls d s).flatMap fun call => call.arguments.flatMap fun argument =>
    match call.typing.find? (·.name == argument.name) with
    | some input =>
      s.variableUses (some input.type) input.default.isSome false argument.value
    | none => s.variableUses none false false argument.value

end Executable

/-- The names of the fragments spread in selections themselves, those spread deeper apart. -/
def Selection.spreadsHere (selections : List Selection) : List String :=
  selections.filterMap fun
    | .spread head => some head.name
    | _ => none

mutual

/-- The names of the fragments spread below a selection. -/
def Selection.spreadsBelow : Selection → List String
  | .field _ selections =>
    Selection.spreadsHere selections ++ Selection.spreadsBelowAll selections
  | .spread _ => []
  | .inlineFragment _ selections =>
    Selection.spreadsHere selections ++ Selection.spreadsBelowAll selections

/-- The names of the fragments spread below selections, those below the last one first. -/
def Selection.spreadsBelowAll : List Selection → List String
  | [] => []
  | selection :: rest => Selection.spreadsBelowAll rest ++ selection.spreadsBelow

end

/-- The names of all fragments spread in selections, at any depth.  Those spread in the selections
themselves come first, then those below, the last selection first. -/
def Selection.spreadsOfAll (selections : List Selection) : List String :=
  Selection.spreadsHere selections ++ Selection.spreadsBelowAll selections

namespace Document

/-- The names of the fragments of a document. -/
def fragmentNames (d : Document) : List String := d.fragments.map (·.name)

/-- The fragments that are spread in the fragment of a name. -/
def spreadsIn (d : Document) (name : String) : List String :=
  match d.fragment? name with
  | some f => Selection.spreadsOfAll f.selections
  | none => []

/-- The fragments that selections lead to, through other fragments too. -/
def reachedFragments (d : Document) (selections : List Selection) : List Fragment :=
  (explore id d.spreadsIn (d.fragmentNames.length + 1)
    (Selection.spreadsOfAll selections)).filterMap d.fragment?

/-- The number of steps that a document may take in all of its operations together, each time that
something is found out by following fragments. -/
def stepLimit : Nat := 50000

/-- The uses of variables in an operation, in the fragments it leads to as well. -/
def variableUses (d : Document) (s : Schema) (o : Operation) : List VariableUse :=
  (Executable.operation o).variableUses d s
    ++ (d.reachedFragments o.selections).flatMap fun f => (Executable.fragment f).variableUses d s

end Document

end GraphQLTyping
