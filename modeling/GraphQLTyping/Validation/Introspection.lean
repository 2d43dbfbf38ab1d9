import GraphQLTyping.Validation.Site

/-!
# Depth of introspection

The fields `fields`, `interfaces`, `possibleTypes` and `inputFields` answer lists whose items lead
on to such lists.  Below `__schema` or `__type`, three of them in each other are too many, fragments
counted where they are spread.

A fragment matters with the number of lists around its spread, of which there are few, so that a
fragment that is spread in many ways is still looked at a few times only.
-/

namespace GraphQLTyping

/-- The number of lists of introspection that may be in each other. -/
def listLimit : Nat := 2

/-- The number of lists around what is selected in a field, so many being around the field. -/
def FieldHead.listsWithin (head : FieldHead) (around : Nat) : Nat :=
  if ["fields", "interfaces", "possibleTypes", "inputFields"].contains head.name then around + 1
  else around

mutual

/-- The most lists in each other in a selection, so many being around it, fragments not being
followed. -/
def Selection.mostLists (around : Nat) : Selection → Nat
  | .field head selections => Selection.mostListsOfAll (head.listsWithin around) selections
  | .spread _ => around
  | .inlineFragment _ selections => Selection.mostListsOfAll around selections

/-- The same for selections. -/
def Selection.mostListsOfAll (around : Nat) : List Selection → Nat
  | [] => around
  | selection :: rest => max (selection.mostLists around) (Selection.mostListsOfAll around rest)

end

mutual

/-- The fragments spread in a selection, each with the number of lists around it. -/
def Selection.spreadsInLists (around : Nat) : Selection → List (String × Nat)
  | .field head selections => Selection.spreadsInListsOfAll (head.listsWithin around) selections
  | .spread head => [(head.name, around)]
  | .inlineFragment _ selections => Selection.spreadsInListsOfAll around selections

/-- The same for selections. -/
def Selection.spreadsInListsOfAll (around : Nat) : List Selection → List (String × Nat)
  | [] => []
  | selection :: rest =>
    selection.spreadsInLists around ++ Selection.spreadsInListsOfAll around rest

end

mutual

/-- The introspection fields in a selection below which lists are too deep in each other, given
whether those in some selections are.  Inside such a field no others are counted. -/
def Selection.deepIntrospections (isTooDeep : List Selection → Bool) : Selection → Nat
  | .field head selections =>
    if ["__schema", "__type"].contains head.name && isTooDeep selections then 1
    else Selection.deepIntrospectionsOfAll isTooDeep selections
  | .spread _ => 0
  | .inlineFragment _ selections => Selection.deepIntrospectionsOfAll isTooDeep selections

/-- The same for selections. -/
def Selection.deepIntrospectionsOfAll (isTooDeep : List Selection → Bool) :
    List Selection → Nat
  | [] => 0
  | selection :: rest =>
    selection.deepIntrospections isTooDeep + Selection.deepIntrospectionsOfAll isTooDeep rest

end

namespace Document

/-- Lists in given selections are too deep in each other. -/
def listsAreTooDeep (d : Document) (selections : List Selection) : Bool :=
  let within (name : String) : List Selection := ((d.fragment? name).map (·.selections)).getD []
  let next : String × Nat → List (String × Nat) := fun (name, around) =>
    (Selection.spreadsInListsOfAll around (within name)).filter (·.2 ≤ listLimit)
  let reached := explore id next (d.fragmentNames.length * (listLimit + 1) + 1)
    (Selection.spreadsInListsOfAll 0 selections)
  decide (listLimit < Selection.mostListsOfAll 0 selections)
    || reached.any fun (name, around) =>
      decide (listLimit < Selection.mostListsOfAll around (within name))

/-- The faults of the introspection in a definition. -/
def introspectionFaults (d : Document) (e : Executable) : Nat :=
  Selection.deepIntrospectionsOfAll d.listsAreTooDeep e.selections

end Document

end GraphQLTyping
