import GraphQLTyping.Schema.Subtype
import GraphQLTyping.Validation.Fields

/-!
# Valid variables

An operation defines each of its variables once and uses all of them, defines all that it and the
fragments it leads to use, and uses each where its type allows.
-/

namespace GraphQLTyping

/-- Whether a literal is a default that is not null. -/
def Value.isNonNullDefault : Value → Bool
  | .null => false
  | _ => true

namespace VariableDef

/-- The type of a variable is a subtype of the place's, where a mark on the place is not counted if
the variable or the place has a default. -/
def fitsPlace (s : Schema) (v : VariableDef) (use : VariableUse) (place : TypeRef) : Bool :=
  if place.nonNull && !v.type.nonNull then
    (v.default.any (·.isNonNullDefault) || use.hasDefault) && s.isSubtype v.type place.nullable
  else s.isSubtype v.type place

/-- The faults of a use of a variable, if both types are known: that it does not fit its place, and
that it may be null where it is the one field of an object that has exactly one. -/
def useFaults (s : Schema) (v : VariableDef) (use : VariableUse) : Nat :=
  match s.type? v.type.name, use.type with
  | some _, some place =>
    (!v.fitsPlace s use place).toNat + (use.isOnlyField && !v.type.nonNull).toNat
  | _, _ => 0

/-- The faults of a default: those of a literal of the variable's type, if that is an input type,
and those that it has by itself. -/
def defaultFaults (s : Schema) (v : VariableDef) : Nat :=
  match v.default with
  | none => 0
  | some literal =>
    literal.fieldRepeats
      + if (s.type? v.type.name).any (·.isInput) then s.literalFaults v.type literal else 0

end VariableDef

namespace Document

/-- The steps to the fragments that an operation leads to: one for the operation and each fragment,
and one for each spread in them. -/
def reachSteps (d : Document) (o : Operation) : Nat :=
  let steps (selections : List Selection) : Nat :=
    1 + (Selection.spreadsOfAll selections).length
  steps o.selections + total (fun f => steps f.selections) (d.reachedFragments o.selections)

/-- The steps to the variables that an operation uses: one for each use, and one for each fragment
that it leads to. -/
def useSteps (d : Document) (s : Schema) (o : Operation) : Nat :=
  (d.variableUses s o).length + (d.reachedFragments o.selections).length

/-- Operations take too many steps to the fragments that they lead to, or to the variables that they
use.  What several of them lead to takes steps for each. -/
def leadsTooFar (d : Document) (s : Schema) (operations : List Operation) : Bool :=
  decide (stepLimit < total d.reachSteps operations)
    || decide (stepLimit < total (d.useSteps s) operations)

end Document

/-- The faults of the variables of an operation. -/
def Document.variableFaults (d : Document) (s : Schema) (o : Operation) : Nat :=
  let uses := d.variableUses s o
  repeated (o.variableDefs.map (·.name))
    + o.variableDefs.countP (fun v => !uses.any (·.name == v.name))
    + total (·.defaultFaults s) o.variableDefs
    + total (fun use =>
        match o.variableDefs.reverse.find? (·.name == use.name) with
        | some v => v.useFaults s use
        | none => 1)
      uses

end GraphQLTyping
