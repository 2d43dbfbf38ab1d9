import GraphQLTyping.Document.Basic

/-!
# Calls

A **call** is a field or directive with the arguments given to it.  A call by itself names each
argument once, names only inputs that there are, and gives all that are required.  What is called
may be unknown; then only the names of its arguments and the literals themselves can be at fault.

* `Call.ownFaults`: the faults of a call by itself, whatever types its arguments are given for.
-/

namespace GraphQLTyping

/-- A **call**: the arguments given to a field or directive, the inputs that it has if it is known,
and the inputs whose types its arguments are given for. -/
structure Call where
  inputs : Option (List InputDef)
  typing : List InputDef
  arguments : List Argument
deriving Inhabited

namespace Call

/-- Whether an argument of the given name is given. -/
def gives (c : Call) (name : String) : Bool := c.arguments.any (·.name == name)

/-- The names of required inputs that are not given. -/
def missing (c : Call) (inputs : List InputDef) : List String :=
  ((inputs.filter (·.isRequired)).map (·.name)).eraseDups.filter (!c.gives ·)

/-- The number of arguments that are no inputs. -/
def unknown (c : Call) (inputs : List InputDef) : Nat :=
  c.arguments.countP fun argument => !inputs.any (·.name == argument.name)

/-- The faults of a call by itself. -/
def ownFaults (c : Call) : Nat :=
  repeated (c.arguments.map (·.name)) + total (·.value.fieldRepeats) c.arguments
    + match c.inputs with
      | none => 0
      | some inputs => c.unknown inputs + (c.missing inputs).length

end Call

end GraphQLTyping
