import GraphQLTyping.Validation.Arguments
import GraphQLTyping.Validation.Fields
import GraphQLTyping.Validation.Fragments
import GraphQLTyping.Validation.Introspection
import GraphQLTyping.Validation.Merging
import GraphQLTyping.Validation.Nesting
import GraphQLTyping.Validation.Operations
import GraphQLTyping.Validation.Variables

/-!
# Valid documents

A document is **valid** for a valid schema if it has no faults: none in its operations, fragments,
variables, fields, calls and introspection, and its fields merge.  Besides, it keeps the limits of
what is looked at (`Document.exceedsLimits`).

Definitions are gone through in order.  At a subscription whose root fields are undecided nothing
can be said, unless the document was found not to be valid before: by more than a hundred faults, or
by a limit.  Then the rest of it is not looked at.

* `Document.isValid`: whether a document has no faults.
* `Document.verdict`: whether it is valid, or cannot be decided to be.
-/

namespace GraphQLTyping

/-- What is found out about a document. -/
inductive Verdict where
  | valid
  | invalid
  | undecided
deriving DecidableEq, Inhabited

/-- The number of faults after which a document is not looked at any further. -/
def faultLimit : Nat := 100

namespace Document

/-- The faults of a definition by itself. -/
def faultsOf (d : Document) (s : Schema) (e : Executable) : Nat :=
  e.typeFaults d s + d.spreadFaults s e + d.callFaults s e + d.introspectionFaults e
    + match e with
      | .operation o => d.rootFaults s o + d.variableFaults s o
      | .fragment _ => 0

/-- The faults of the definitions of a part of a document, fields that do not merge apart. -/
def faultsIn (d : Document) (s : Schema) (part : Document) : Nat :=
  d.referenceFaults s part.typeSystem + d.systemCallFaults s part.typeSystem
    + repeats part.fragmentNames + d.circleFaults part.fragmentNames
    + total (d.faultsOf s) part.executables

/-- A part of a document goes beyond the limits of what is looked at: selection sets are too deep in
each other, or operations lead too far. -/
def exceedsLimits (d : Document) (s : Schema) (part : Document) : Bool :=
  part.executables.any (fun e => decide (setLimit < d.height e)) || d.leadsTooFar s part.operations

/-- A document has more than so many faults, or goes beyond a limit, when certain operations have
been entered and the definitions of a part of it have been left.  Definitions of a type system are
faults from the start. -/
def hasMoreFaults (d : Document) (s : Schema) (limit : Nat) (entered : List Operation)
    (left : Document) : Bool :=
  let faults := d.typeSystem.length + d.namingFaults entered + d.faultsIn s left
  decide (limit < faults) || d.exceedsLimits s left ||
    match d.conflicts? s left.executables with
    | some conflicts => decide (limit < faults + conflicts)
    | none => true

/-- Whether a document is **valid** for a schema. -/
def isValid (d : Document) (s : Schema) : Bool :=
  !d.hasMoreFaults s 0 d.operations d && d.fragmentsUsed

/-- What is found out about a document. -/
def verdict (d : Document) (s : Schema) : Verdict :=
  match d.untilRootFailure s stepLimit d.definitions with
  | (before, some (o, .undecided)) =>
    let before : Document := ⟨before⟩
    if d.hasMoreFaults s faultLimit (before.operations ++ [o]) before then .invalid
    else .undecided
  | (_, some (_, .tooMany)) => .invalid
  | (_, none) => if d.isValid s then .valid else .invalid

end Document

end GraphQLTyping
