import GraphQLTyping.Proofs.Pass.Mirror

/-!
# Turns of moved definitions

A definition may stand at another place of another document.  Its nodes are then **moved**: their
paths begin with another number and go on as before (`NodePath.moved`), and so are the turns of an
operation, which are the same otherwise (`Operation.turns_moved`).

* `Document.append`: a document with the definitions of another one after its own, the turns of which
  are those of the first and then those of the second, moved (`Document.turns_append`).
* `Document.Holds`: a document has the definitions of another one, wherever they stand.  It types of
  their nodes what the other one types (`Document.Holds.mem_typedNodes_iff`).
-/

namespace GraphQLTyping

variable {s : Schema} {d d' : Document} {n k i : Nat} {steps : List Nat} {id : NodeId}
  {turn : Turn} {place : Nat → Nat} {enclosing : List (Option TypeDef)}

/-! ### Moving -/

/-- The path in a definition that stands elsewhere. -/
def NodePath.moved (place : Nat → Nat) : NodePath → NodePath
  | within k steps => within (place k) steps
  | .variable k i => .variable (place k) i

/-- The identity of a node in a definition that stands elsewhere. -/
def NodeId.moved (place : Nat → Nat) (id : NodeId) : NodeId := ⟨id.document, id.path.moved place⟩

/-- The move on a node in a definition that stands elsewhere. -/
def Move.moved (place : Nat → Nat) : Move → Move
  | .enterOperation id o => .enterOperation (id.moved place) o
  | .leaveOperation id o => .leaveOperation (id.moved place) o
  | .enterVariable id v => .enterVariable (id.moved place) v
  | .enterField id head selections => .enterField (id.moved place) head selections
  | .leaveField id head selections => .leaveField (id.moved place) head selections

/-- The turn on a node in a definition that stands elsewhere. -/
def Turn.moved (place : Nat → Nat) (turn : Turn) : Turn := ⟨turn.move.moved place, turn.enclosing⟩

@[simp] theorem NodePath.definition_moved (path : NodePath) :
    (path.moved place).definition = place path.definition := by
  cases path <;> rfl

theorem NodeId.moved_nowhere (id : NodeId) : id.moved (fun k => k) = id := by
  obtain ⟨n, path⟩ := id
  cases path <;> rfl

/-- Nodes of one definition that are moved to one node are the same. -/
theorem NodeId.eq_of_moved {id' : NodeId} (h : id.moved place = id'.moved place)
    (hk : id.path.definition = id'.path.definition) : id = id' := by
  obtain ⟨n, path⟩ := id
  obtain ⟨n', path'⟩ := id'
  cases path <;> cases path' <;> cases hk <;> cases h <;> rfl

theorem NodeId.moved_injective {id' : NodeId} (hplace : Function.Injective place)
    (h : id.moved place = id'.moved place) : id = id' := by
  have hdef : place id.path.definition = place id'.path.definition := by
    simpa [moved] using congrArg (·.path.definition) h
  exact eq_of_moved h (hplace hdef)

theorem Move.typed?_moved (m : Move) : (m.moved place).typed? = m.typed?.map (·.moved place) := by
  cases m <;> rfl

theorem Move.typedVariable?_moved (m : Move) :
    (m.moved place).typedVariable? = m.typedVariable?.map (·.moved place) := by
  cases m <;> rfl

theorem typedNodes_map_moved (turns : List Turn) :
    typedNodes (turns.map (·.moved place)) = (typedNodes turns).map (·.moved place) := by
  rw [typedNodes, typedNodes, List.filterMap_map, List.map_filterMap]
  exact List.filterMap_congr fun turn _ => turn.move.typed?_moved

theorem typedVariables_map_moved (turns : List Turn) :
    typedVariables (turns.map (·.moved place)) = (typedVariables turns).map (·.moved place) := by
  rw [typedVariables, typedVariables, List.filterMap_map, List.map_filterMap]
  exact List.filterMap_congr fun turn _ => turn.move.typedVariable?_moved

/-- Where a definition stands has no part in how its turns fail. -/
theorem Turn.fault?_moved (turn : Turn) : (turn.moved place).fault? s = turn.fault? s := by
  obtain ⟨move, enclosing⟩ := turn
  cases move <;> rfl

theorem selectedFieldsFrom_moved (id : NodeId) (selections : List Selection) (i : Nat) :
    (selectedFieldsFrom (id.moved place) i selections).map (·.1) =
      ((selectedFieldsFrom id i selections).map (·.1)).map (·.moved place) := by
  have hchild : ∀ j, (id.moved place).child j = (id.child j).moved place := by
    intro j
    obtain ⟨n, path⟩ := id
    cases path <;> rfl
  rw [Selection.selectedFieldsFrom_eq, Selection.selectedFieldsFrom_eq, List.map_map]
  exact List.map_congr_left fun x _ => hchild x.2

theorem definedVariablesFrom_moved (id : NodeId) (vs : List VariableDef) (i : Nat) :
    (definedVariablesFrom (id.moved place) i vs).map (·.1) =
      ((definedVariablesFrom id i vs).map (·.1)).map (·.moved place) := by
  induction vs generalizing i with
  | nil => rfl
  | cons v rest ih =>
    have hfirst : (id.moved place).variableAt i = (id.variableAt i).moved place := by
      obtain ⟨n, path⟩ := id
      cases path <;> rfl
    rw [definedVariablesFrom, definedVariablesFrom, List.map_cons, List.map_cons, List.map_cons,
      ih (i + 1), hfirst]

/-! ### Operations -/

namespace Selection

theorem turnsFrom_moved (selections : List Selection) (enclosing : List (Option TypeDef))
    (steps : List Nat) (i : Nat) :
    turnsFrom s enclosing ⟨n, .within (place k) steps⟩ i selections =
      (turnsFrom s enclosing ⟨n, .within k steps⟩ i selections).map (·.moved place) := by
  induction selections, enclosing, steps, i using turns_induct s with
  | nil => rw [turnsFrom_nil, turnsFrom_nil, List.map_nil]
  | passed head selections rest enclosing steps i h ih =>
    rw [turnsFrom_over h, turnsFrom_over h, ih]
    rfl
  | into head selections rest enclosing inner steps i h ihin ih =>
    rw [turnsFrom_into h, turnsFrom_into h, ihin, ih]
    simp [Turn.moved, Move.moved, NodeId.moved, NodePath.moved]
  | other selection rest enclosing steps i h ih =>
    rw [turnsFrom_other h, turnsFrom_other h, ih]

end Selection

theorem VariableDef.turnsFrom_moved (vs : List VariableDef) (i : Nat) :
    turnsFrom enclosing ⟨n, .within (place k) steps⟩ i vs =
      (turnsFrom enclosing ⟨n, .within k steps⟩ i vs).map (·.moved place) := by
  induction vs generalizing i with
  | nil => rfl
  | cons v rest ih =>
    rw [turnsFrom, turnsFrom, ih (i + 1)]
    rfl

/-- **The turns of an operation** are the same wherever it stands, but for where it stands. -/
theorem Operation.turns_moved (o : Operation) :
    o.turns s enclosing ⟨n, .within (place k) steps⟩ =
      (o.turns s enclosing ⟨n, .within k steps⟩).map (·.moved place) := by
  cases h : s.root? o.kind with
  | none =>
    rw [turns_missing h, turns_missing h]
    rfl
  | some root =>
    rw [turns_root h, turns_root h, turnsInside, turnsInside, VariableDef.turnsFrom_moved,
      Selection.turnsFrom_moved]
    simp [Turn.moved, Move.moved, NodeId.moved, NodePath.moved]

/-! ### Documents one after the other -/

namespace Definition

theorem turnsFrom_append (a b : List Definition) (i : Nat) :
    turnsFrom s enclosing n i (a ++ b) =
      turnsFrom s enclosing n i a ++ turnsFrom s enclosing n (i + a.length) b := by
  induction a generalizing i with
  | nil => rfl
  | cons d rest ih =>
    have hlength : i + (d :: rest).length = i + 1 + rest.length := by
      rw [List.length_cons]
      omega
    rw [hlength]
    cases d with
    | operation o =>
      rw [List.cons_append, turnsFrom, turnsFrom, ih (i + 1), List.append_assoc]
    | fragment | typeSystem => exact ih (i + 1)

theorem turnsFrom_shifted (m : Nat) (ds : List Definition) (i : Nat) :
    turnsFrom s enclosing n (m + i) ds =
      (turnsFrom s enclosing n i ds).map (·.moved (m + ·)) := by
  induction ds generalizing i with
  | nil => rfl
  | cons d rest ih =>
    cases d with
    | operation o =>
      have hmoved : o.turns s enclosing ⟨n, .within (m + i) []⟩ =
          (o.turns s enclosing ⟨n, .within i []⟩).map (·.moved (m + ·)) := o.turns_moved
      rw [turnsFrom, turnsFrom, List.map_append, ← ih (i + 1), ← Nat.add_assoc, hmoved]
    | fragment | typeSystem => exact ih (i + 1)

end Definition

namespace Document

/-- The document with the definitions of another one after its own. -/
def append (d d' : Document) : Document := ⟨d.definitions ++ d'.definitions⟩

theorem turns_append (s : Schema) (n : Nat) (d d' : Document) :
    (d.append d').turns s n =
      d.turns s n ++ (d'.turns s n).map (·.moved (d.definitions.length + ·)) := by
  rw [turns, append, Definition.turnsFrom_append, Nat.zero_add]
  exact congrArg (_ ++ ·) (Definition.turnsFrom_shifted d.definitions.length d'.definitions 0)

/-! ### Definitions wherever they stand -/

/-- A document **holds** another one if it has the definitions of that at the given places. -/
def Holds (d' d : Document) (place : Nat → Nat) : Prop :=
  ∀ k definition, d.definitions[k]? = some definition →
    d'.definitions[place k]? = some definition

theorem append_holds_left (d d' : Document) : (d.append d').Holds d fun k => k := by
  intro k definition h
  exact (List.getElem?_append_left (List.getElem?_eq_some_iff.mp h).1).trans h

theorem append_holds_right (d d' : Document) :
    (d.append d').Holds d' (d.definitions.length + ·) := by
  intro k definition h
  show (d.definitions ++ d'.definitions)[d.definitions.length + k]? = some definition
  rw [List.getElem?_append_right (Nat.le_add_right _ _), Nat.add_sub_cancel_left, h]

/-- Where an operation of a document stands. -/
theorem exists_operation_of_turn (hturn : turn ∈ d.turns s n) :
    ∃ (k : Nat) (o : Operation), d.definitions[k]? = some (.operation o) ∧
      turn ∈ o.turns s [] ⟨n, .within k []⟩ := by
  obtain ⟨⟨id, o⟩, hx, hturn⟩ := mem_turns.mp hturn
  obtain ⟨k, hget, hid⟩ := mem_operationNodes.mp hx
  obtain rfl : id = ⟨n, .within k []⟩ := hid
  exact ⟨k, o, hget, hturn⟩

namespace Holds

theorem operation {o : Operation} (h : d'.Holds d place)
    (hx : (⟨n, .within k []⟩, o) ∈ d.operationNodes n) :
    (⟨n, .within (place k) []⟩, o) ∈ d'.operationNodes n := by
  obtain ⟨j, hget, hid⟩ := mem_operationNodes.mp hx
  cases hid
  exact mem_operationNodes.mpr ⟨place k, h k _ hget, rfl⟩

/-- The turns of a document are turns of one that holds it. -/
theorem mem_turns (h : d'.Holds d place) (hturn : turn ∈ d.turns s n) :
    turn.moved place ∈ d'.turns s n := by
  obtain ⟨k, o, hget, hturn⟩ := exists_operation_of_turn hturn
  refine mem_turns_of_operation (h k _ hget) ?_
  rw [Operation.turns_moved]
  exact List.mem_map_of_mem hturn

/-- The turns on an operation that is held are those of the document that it is from. -/
theorem exists_turn (h : d'.Holds d place) (hturn : turn ∈ d'.turns s n)
    (hid : turn.move.typed? = some (id.moved place))
    (hk : (d.definitions[id.path.definition]?).isSome) :
    ∃ before ∈ d.turns s n, turn = before.moved place ∧ before.move.typed? = some id := by
  obtain ⟨definition, hget⟩ := Option.isSome_iff_exists.mp hk
  obtain ⟨k', o, hget', hturn⟩ := exists_operation_of_turn hturn
  have hk' : place id.path.definition = k' := by
    have hdef := Operation.definition_of_typed (mem_typedNodes.mpr ⟨turn, hturn, hid⟩)
    rwa [NodeId.moved, NodePath.definition_moved] at hdef
  subst hk'
  rw [h _ _ hget] at hget'
  cases hget'
  rw [Operation.turns_moved] at hturn
  obtain ⟨before, hbefore, rfl⟩ := List.mem_map.mp hturn
  refine ⟨before, mem_turns_of_operation hget hbefore, rfl, ?_⟩
  obtain ⟨id', hid', hmoved⟩ := Option.map_eq_some_iff.mp (before.move.typed?_moved.symm.trans hid)
  have hdef := Operation.definition_of_typed (mem_typedNodes.mpr ⟨before, hbefore, hid'⟩)
  rw [hid', NodeId.eq_of_moved hmoved hdef]

/-- **What is typed** of the nodes of a document is typed of them in one that holds it, and nothing
more. -/
theorem mem_typedNodes_iff (h : d'.Holds d place)
    (hk : (d.definitions[id.path.definition]?).isSome) :
    id.moved place ∈ typedNodes (d'.turns s n) ↔ id ∈ typedNodes (d.turns s n) := by
  rw [mem_typedNodes, mem_typedNodes]
  constructor
  · rintro ⟨turn, hturn, hid⟩
    obtain ⟨before, hbefore, _, hid⟩ := h.exists_turn hturn hid hk
    exact ⟨before, hbefore, hid⟩
  · rintro ⟨turn, hturn, hid⟩
    refine ⟨_, h.mem_turns hturn, ?_⟩
    rw [Turn.moved, Move.typed?_moved, hid, Option.map_some]

end Holds

end Document

end GraphQLTyping
