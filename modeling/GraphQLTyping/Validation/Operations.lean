import GraphQLTyping.Fault
import GraphQLTyping.Validation.RootFields

/-!
# Valid operations

A document to be executed has operations and fragments only.  Operations have names of their own,
unless there is only one, and a subscription selects one field that is no meta field.
-/

namespace GraphQLTyping

namespace Document

/-- The faults of the names of operations, among those of a document: a name that was there before,
or no name where there are several operations. -/
def namingFaults (d : Document) (operations : List Operation) : Nat :=
  repeats (operations.filterMap (·.name))
    + if d.operations.length ≤ 1 then 0 else operations.countP (·.name.isNone)

/-- The faults of the root of a subscription: that it asks for several fields, and each meta field
that it asks for.  Selections with the same response name are one field. -/
def rootFaults (d : Document) (s : Schema) (o : Operation) : Nat :=
  match d.subscribedFields s stepLimit o with
  | .ok (heads, _) =>
    let fields := heads.eraseDupsBy fun a b => a.responseName == b.responseName
    (decide (1 < fields.length)).toNat + fields.countP (·.name.startsWith "__")
  | .error _ => 0

end Document

end GraphQLTyping
