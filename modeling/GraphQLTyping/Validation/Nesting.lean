import Std.Data.HashMap
import GraphQLTyping.Validation.Site

/-!
# Nesting of selection sets

Selection sets stand in each other, those of fragments where the fragments are spread.  So many may
do so (`setLimit`).  A fragment that is spread inside itself adds nothing there.

The **height** of a definition is the number of selection sets in each other, its own among them.
The height of a fragment is found out once for each definition that leads to it.
-/

namespace GraphQLTyping

/-- The number of selection sets that may be in each other. -/
def setLimit : Nat := 200

/-- A step that finds out heights.  It knows those of fragments it has been to, which are zero as
long as it is inside. -/
abbrev HeightStep := StateM (Std.HashMap String Nat)

mutual

/-- The number of selection sets in each other below a selection, given how to find out the height
of a fragment. -/
def Selection.heightBelow (spread : String → HeightStep Nat) : Selection → HeightStep Nat
  | .field _ selections =>
    if selections.isEmpty then return 0 else Selection.heightOfSet spread selections
  | .spread head => spread head.name
  | .inlineFragment _ selections => Selection.heightOfSet spread selections

/-- The number of selection sets in each other, the one of the given selections among them. -/
def Selection.heightOfSet (spread : String → HeightStep Nat) : List Selection → HeightStep Nat
  | [] => return 1
  | selection :: rest =>
    return max (1 + (← selection.heightBelow spread)) (← Selection.heightOfSet spread rest)

end

namespace Document

/-- The height of the fragment of a name, with at most so many fragments in each other. -/
def fragmentHeight (d : Document) : Nat → String → HeightStep Nat
  | 0, _ => return 0
  | depth + 1, name => do
    if let some height := (← get)[name]? then return height
    match d.fragment? name with
    | none => return 0
    | some f =>
      modify (·.insert name 0)
      let height ← Selection.heightOfSet (d.fragmentHeight depth) f.selections
      modify (·.insert name height)
      return height

/-- The height of a definition, as far as it does not go beyond the limit.  Each fragment adds one
at least, so no more fragments in each other than the limit need to be followed. -/
def height (d : Document) (e : Executable) : Nat :=
  let inside : Std.HashMap String Nat := match e with
    | .operation _ => {}
    | .fragment f => ({} : Std.HashMap String Nat).insert f.name 0
  ((Selection.heightOfSet (d.fragmentHeight (setLimit + 1)) e.selections).run inside).1

end Document

end GraphQLTyping
