import Mathlib.Data.List.Basic
import GraphQLTyping.Typing.Walk

/-!
# Turns

A walk is a row of **moves**, each of which is one step of a pass on one node.  Which moves these
are, and which types enclose the place of each, can be told from the schema and the document alone:
a field of object type takes its type in for what is below it, a field without a resolution is
passed over.  A move with the types that enclose its place is a **turn**.

* `Selection.turnsFrom`, `Operation.turns`, `Document.turns`: the turns of a walk, in order.
* `Turn.fault?`: how a turn fails, told from its move and from the types that enclose it.
* `typedNodes`: the nodes that get a record, in order.

Selections are walked through list by list, and what is below a field is such a list again; so the
induction over turns (`Selection.turns_induct`) is over lists of selections, with one case for a
field that is passed over, one for a field with turns inside, and one for any other selection.
-/

namespace GraphQLTyping

/-- A **move**: a step of a pass on a node. -/
inductive Move where
  | enterOperation (id : NodeId) (o : Operation)
  | leaveOperation (id : NodeId) (o : Operation)
  | enterVariable (id : NodeId) (v : VariableDef)
  | enterField (id : NodeId) (head : FieldHead) (selections : List Selection)
  | leaveField (id : NodeId) (head : FieldHead) (selections : List Selection)
deriving Inhabited

/-- A **turn** of a walk: a move, and the types that enclose its place, innermost first. -/
structure Turn where
  move : Move
  enclosing : List (Option TypeDef)
deriving Inhabited

/-- The step of a pass that a move is.  A walk looks at what entering a field answers, which a
single step does not. -/
def Move.step (s : Schema) : Move → Step Unit
  | .enterOperation _ o => Pass.enterOperation s o.kind
  | .leaveOperation id o =>
    Pass.leaveOperation id (selectedFields id o.selections) (definedVariables id o.variableDefs)
  | .enterVariable id v => Pass.enterVariable s id v.name v.type
  | .enterField id head _ => discard (Pass.enterField s id head.name)
  | .leaveField id head selections =>
    Pass.leaveField id head.name (selectedFields id selections)

/-- The node that a move types. -/
def Move.typed? : Move → Option NodeId
  | .enterVariable id _ => some id
  | .enterField id _ _ => some id
  | _ => none

/-- The nodes that turns type, in order. -/
def typedNodes (turns : List Turn) : List NodeId := turns.filterMap (·.move.typed?)

/-! ### Faults -/

namespace Schema

/-- How a variable definition fails.  Its shape is looked at before its name. -/
def variableFault? (s : Schema) (v : VariableDef) : Option TypingError :=
  match v.type.simpleShape with
  | .error shape => some (.unsupportedShape shape)
  | .ok shape =>
    if (s.type? shape.name).isSome then none else some (.unknownType v.name shape.name)

/-- How a field fails that types enclose.  A field that a missing type encloses may be defined and
still fail, as nothing can be reported of it. -/
def fieldFault? (s : Schema) (enclosing : List (Option TypeDef)) (name : String) :
    Option TypingError :=
  match enclosing with
  | [] => some .outsideOperation
  | parent :: _ =>
    match s.typedOutput? parent name with
    | none => some (Pass.fieldMissing name parent)
    | some f =>
      if parent.isNone && f.resolution = .unclassified then some .typeMissing else none

/-- The typed field of a field that types enclose. -/
def typedInside? (s : Schema) (enclosing : List (Option TypeDef)) (name : String) :
    Option TypedField :=
  enclosing.head?.bind (s.typedOutput? · name)

/-- The types that enclose what is **inside** a field, given those that enclose the field.  There is
no inside of a field that is passed over. -/
def inside? (s : Schema) (enclosing : List (Option TypeDef)) (name : String) :
    Option (List (Option TypeDef)) :=
  (s.typedInside? enclosing name).bind fun f =>
    match f.resolution with
    | .object => some (some f.type :: enclosing)
    | .unclassified => none
    | _ => some enclosing

end Schema

/-- How a turn **fails**, if it does.  No leaving ever fails. -/
def Turn.fault? (s : Schema) (turn : Turn) : Option TypingError :=
  match turn.move with
  | .enterOperation _ o => if (s.root? o.kind).isSome then none else some (.missingRoot o.kind)
  | .enterVariable _ v => s.variableFault? v
  | .enterField _ head _ => s.fieldFault? turn.enclosing head.name
  | .leaveOperation .. | .leaveField .. => none

/-! ### The turns of a walk -/

mutual

/-- The turns of a selection. -/
def Selection.turns (s : Schema) (enclosing : List (Option TypeDef)) (id : NodeId) :
    Selection → List Turn
  | .field head selections =>
    ⟨.enterField id head selections, enclosing⟩ ::
      match s.inside? enclosing head.name with
      | none => []
      | some inner =>
        Selection.turnsFrom s inner id 0 selections ++ [⟨.leaveField id head selections, inner⟩]
  | .spread _ => []
  | .inlineFragment .. => []

/-- The turns of selections below a node, numbered from the given one on. -/
def Selection.turnsFrom (s : Schema) (enclosing : List (Option TypeDef)) (parent : NodeId)
    (i : Nat) : List Selection → List Turn
  | [] => []
  | selection :: rest =>
    selection.turns s enclosing (parent.child i) ++
      Selection.turnsFrom s enclosing parent (i + 1) rest

end

/-- The turns of variable definitions of an operation, numbered from the given one on. -/
def VariableDef.turnsFrom (enclosing : List (Option TypeDef)) (operation : NodeId) (i : Nat) :
    List VariableDef → List Turn
  | [] => []
  | v :: rest =>
    ⟨.enterVariable (operation.variableAt i) v, enclosing⟩ ::
      VariableDef.turnsFrom enclosing operation (i + 1) rest

/-- The turns inside an operation, given the types that enclose its inside. -/
def Operation.turnsInside (s : Schema) (inner : List (Option TypeDef)) (id : NodeId)
    (o : Operation) : List Turn :=
  VariableDef.turnsFrom inner id 0 o.variableDefs ++ Selection.turnsFrom s inner id 0 o.selections

/-- The turns of an operation.  One without a root type has no more than the first. -/
def Operation.turns (s : Schema) (enclosing : List (Option TypeDef)) (id : NodeId)
    (o : Operation) : List Turn :=
  ⟨.enterOperation id o, enclosing⟩ ::
    match s.root? o.kind with
    | none => []
    | some root =>
      o.turnsInside s (some root :: enclosing) id ++
        [⟨.leaveOperation id o, some root :: enclosing⟩]

/-- The turns of definitions of a document, numbered from the given one on. -/
def Definition.turnsFrom (s : Schema) (enclosing : List (Option TypeDef)) (document i : Nat) :
    List Definition → List Turn
  | [] => []
  | .operation o :: rest =>
    o.turns s enclosing ⟨document, .within i []⟩ ++
      Definition.turnsFrom s enclosing document (i + 1) rest
  | _ :: rest => Definition.turnsFrom s enclosing document (i + 1) rest

/-- The **turns** of a document of a number, by a new pass. -/
def Document.turns (s : Schema) (number : Nat) (d : Document) : List Turn :=
  Definition.turnsFrom s [] number 0 d.definitions

/-! ### Lists of selections -/

namespace Selection

variable {s : Schema} {enclosing inner : List (Option TypeDef)} {n k i : Nat} {steps : List Nat}
  {head : FieldHead} {selections rest : List Selection}

/-- Whether a selection is a field. -/
def isField : Selection → Bool
  | .field .. => true
  | _ => false

@[simp] theorem turnsFrom_nil {parent : NodeId} : turnsFrom s enclosing parent i [] = [] := by
  rw [turnsFrom]

/-- A field that is passed over has one turn. -/
theorem turnsFrom_over (h : s.inside? enclosing head.name = none) :
    turnsFrom s enclosing ⟨n, .within k steps⟩ i (.field head selections :: rest) =
      ⟨.enterField ⟨n, .within k (steps ++ [i])⟩ head selections, enclosing⟩ ::
        turnsFrom s enclosing ⟨n, .within k steps⟩ (i + 1) rest := by
  rw [turnsFrom, turns, h]
  rfl

/-- A field that a walk goes into has its turn, the turns inside, and the one of leaving it. -/
theorem turnsFrom_into (h : s.inside? enclosing head.name = some inner) :
    turnsFrom s enclosing ⟨n, .within k steps⟩ i (.field head selections :: rest) =
      ⟨.enterField ⟨n, .within k (steps ++ [i])⟩ head selections, enclosing⟩ ::
          (turnsFrom s inner ⟨n, .within k (steps ++ [i])⟩ 0 selections ++
            [⟨.leaveField ⟨n, .within k (steps ++ [i])⟩ head selections, inner⟩]) ++
        turnsFrom s enclosing ⟨n, .within k steps⟩ (i + 1) rest := by
  rw [turnsFrom, turns, h]
  rfl

theorem turnsFrom_other {selection : Selection} {parent : NodeId}
    (h : selection.isField = false) :
    turnsFrom s enclosing parent i (selection :: rest) =
      turnsFrom s enclosing parent (i + 1) rest := by
  cases selection with
  | field => cases h
  | spread | inlineFragment => rw [turnsFrom, turns, List.nil_append]

/-- **Induction over the turns of selections**, at places of one definition. -/
theorem turns_induct (s : Schema)
    {motive : List Selection → List (Option TypeDef) → List Nat → Nat → Prop}
    (nil : ∀ enclosing steps i, motive [] enclosing steps i)
    (passed : ∀ head selections rest enclosing steps i, s.inside? enclosing head.name = none →
      motive rest enclosing steps (i + 1) →
      motive (.field head selections :: rest) enclosing steps i)
    (into : ∀ head selections rest enclosing inner steps i,
      s.inside? enclosing head.name = some inner → motive selections inner (steps ++ [i]) 0 →
      motive rest enclosing steps (i + 1) →
      motive (.field head selections :: rest) enclosing steps i)
    (other : ∀ selection rest enclosing steps i, selection.isField = false →
      motive rest enclosing steps (i + 1) → motive (selection :: rest) enclosing steps i) :
    ∀ (selections : List Selection) (enclosing : List (Option TypeDef)) (steps : List Nat)
      (i : Nat), motive selections enclosing steps i
  | [], enclosing, steps, i => nil enclosing steps i
  | .field head selections :: rest, enclosing, steps, i =>
    have hrest := turns_induct s nil passed into other rest enclosing steps (i + 1)
    match h : s.inside? enclosing head.name with
    | none => passed head selections rest enclosing steps i h hrest
    | some inner =>
      into head selections rest enclosing inner steps i h
        (turns_induct s nil passed into other selections inner (steps ++ [i]) 0) hrest
  | .spread head :: rest, enclosing, steps, i =>
    other (.spread head) rest enclosing steps i rfl
      (turns_induct s nil passed into other rest enclosing steps (i + 1))
  | .inlineFragment head selections :: rest, enclosing, steps, i =>
    other (.inlineFragment head selections) rest enclosing steps i rfl
      (turns_induct s nil passed into other rest enclosing steps (i + 1))

/-- The turns of selections are on fields. -/
theorem move_of_turn (selections : List Selection) (enclosing : List (Option TypeDef))
    (steps : List Nat) (i : Nat) :
    ∀ turn ∈ turnsFrom s enclosing ⟨n, .within k steps⟩ i selections, ∃ id head below,
      turn.move = .enterField id head below ∨ turn.move = .leaveField id head below := by
  induction selections, enclosing, steps, i using turns_induct s with
  | nil =>
    intro turn hturn
    rw [turnsFrom_nil] at hturn
    cases hturn
  | passed head selections rest enclosing steps i h ih =>
    intro turn hturn
    rw [turnsFrom_over h] at hturn
    rcases List.mem_cons.mp hturn with rfl | hturn
    · exact ⟨_, _, _, .inl rfl⟩
    · exact ih turn hturn
  | into head selections rest enclosing inner steps i h ihin ih =>
    intro turn hturn
    rw [turnsFrom_into h, List.mem_append, List.mem_cons, List.mem_append,
      List.mem_singleton] at hturn
    rcases hturn with (rfl | hturn | rfl) | hturn
    · exact ⟨_, _, _, .inl rfl⟩
    · exact ihin turn hturn
    · exact ⟨_, _, _, .inr rfl⟩
    · exact ih turn hturn
  | other selection rest enclosing steps i h ih =>
    rw [turnsFrom_other h]
    exact ih

end Selection

/-- The turns of variable definitions enter these. -/
theorem VariableDef.move_of_turn {enclosing : List (Option TypeDef)} {id : NodeId}
    (vs : List VariableDef) (i : Nat) :
    ∀ turn ∈ turnsFrom enclosing id i vs, ∃ id', ∃ v ∈ vs, turn.move = .enterVariable id' v := by
  induction vs generalizing i with
  | nil =>
    intro turn hturn
    cases hturn
  | cons v rest ih =>
    intro turn hturn
    rcases List.mem_cons.mp hturn with rfl | hturn
    · exact ⟨_, v, List.mem_cons_self, rfl⟩
    · obtain ⟨id', w, hw, hmove⟩ := ih (i + 1) turn hturn
      exact ⟨id', w, List.mem_cons_of_mem _ hw, hmove⟩

end GraphQLTyping
