import GraphQLTyping.Validation.Site

/-!
# Valid arguments and directives

Calls are without faults by themselves and give literals that the types of their inputs accept.
Directives stand where they may.

Definitions of a type system have directives too, and defaults.  Their defaults are given for no
type that is known, so that only the literals themselves can be at fault.
-/

namespace GraphQLTyping

namespace Schema

/-- The faults of the literal that an argument is, if its type is known. -/
def argumentFaults (s : Schema) (typing : List InputDef) (argument : Argument) : Nat :=
  match typing.find? (·.name == argument.name) with
  | some input => s.literalFaults input.type argument.value
  | none => 0

/-- The faults of a call. -/
def callFaults (s : Schema) (call : Call) : Nat :=
  call.ownFaults + total (s.argumentFaults call.typing) call.arguments

end Schema

namespace Document

/-- The faults of the arguments and directives of a definition. -/
def callFaults (d : Document) (s : Schema) (e : Executable) : Nat :=
  total s.callFaults (e.calls d s)
    + placementFaults (d.vocabulary s.directives) e.placedDirectives

/-- The faults of the directives and defaults of definitions of a type system. -/
def systemCallFaults (d : Document) (s : Schema) (definitions : List TypeSystemDefinition) : Nat :=
  let vocabulary := d.vocabulary s.directives
  let directives := definitions.flatMap fun t => t.placedDirectives.flatMap (·.directives)
  total s.callFaults (s.directiveCalls vocabulary none directives)
    + systemPlacementFaults vocabulary definitions
    + total (·.fieldRepeats) (definitions.flatMap (·.defaults))

end Document

end GraphQLTyping
