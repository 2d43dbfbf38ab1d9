import Mathlib.Data.List.Nodup
import GraphQLTyping.Proofs.Pass.Turn

/-!
# The places of turns

Facts about the turns of a walk that do not look at any pass.  A walk types every node once at most
(`Selection.nodup_typedNodes` and its like), the fields below a node it goes into are among those
that it types, and whatever the types around its start have, and going further in keeps, the types
around each of its turns have (`Selection.forall_enclosing` and its like).

That the nodes are different is seen from their paths: those below a node continue its path, and
those of later siblings have a larger number there.
-/

namespace GraphQLTyping

variable {s : Schema} {enclosing : List (Option TypeDef)} {n k i : Nat} {steps : List Nat}
  {id : NodeId} {turns : List Turn}

@[simp] theorem typedNodes_nil : typedNodes [] = [] := rfl

@[simp] theorem typedNodes_append (a b : List Turn) :
    typedNodes (a ++ b) = typedNodes a ++ typedNodes b := List.filterMap_append

@[simp] theorem typedNodes_enterField {head : FieldHead} {selections : List Selection}
    (turns : List Turn) :
    typedNodes (⟨.enterField id head selections, enclosing⟩ :: turns) = id :: typedNodes turns :=
  rfl

@[simp] theorem typedNodes_leaveField {head : FieldHead} {selections : List Selection}
    (turns : List Turn) :
    typedNodes (⟨.leaveField id head selections, enclosing⟩ :: turns) = typedNodes turns := rfl

@[simp] theorem typedNodes_enterVariable {v : VariableDef} (turns : List Turn) :
    typedNodes (⟨.enterVariable id v, enclosing⟩ :: turns) = id :: typedNodes turns := rfl

@[simp] theorem typedNodes_enterOperation {o : Operation} (turns : List Turn) :
    typedNodes (⟨.enterOperation id o, enclosing⟩ :: turns) = typedNodes turns := rfl

@[simp] theorem typedNodes_leaveOperation {o : Operation} (turns : List Turn) :
    typedNodes (⟨.leaveOperation id o, enclosing⟩ :: turns) = typedNodes turns := rfl

theorem mem_typedNodes : id ∈ typedNodes turns ↔ ∃ turn ∈ turns, turn.move.typed? = some id :=
  List.mem_filterMap

/-- The nodes whose records a move makes or puts together. -/
def Move.nodes : Move → List NodeId
  | .enterOperation .. => []
  | .leaveOperation id o =>
    (selectedFields id o.selections).map (·.1) ++ (definedVariables id o.variableDefs).map (·.1)
  | .enterVariable id _ => [id]
  | .enterField id _ _ => [id]
  | .leaveField id _ selections => id :: (selectedFields id selections).map (·.1)

/-- Turns are **closed** if they type all nodes of their moves. -/
def Closed (turns : List Turn) : Prop :=
  ∀ turn ∈ turns, ∀ id ∈ turn.move.nodes, id ∈ typedNodes turns

theorem closed_nil : Closed [] := by
  intro turn h
  cases h

theorem Closed.append {a b : List Turn} (ha : Closed a) (hb : Closed b) : Closed (a ++ b) := by
  intro turn hturn id hid
  rw [typedNodes_append, List.mem_append]
  rcases List.mem_append.mp hturn with h | h
  · exact Or.inl (ha turn h id hid)
  · exact Or.inr (hb turn h id hid)

/-- A first turn that makes the records of its nodes. -/
theorem Closed.cons {a : List Turn} (ha : Closed a) {turn : Turn}
    (h : turn.move.nodes = turn.move.typed?.toList) : Closed (turn :: a) := by
  intro other hother id hid
  rw [mem_typedNodes]
  rcases List.mem_cons.mp hother with rfl | hm
  · rw [h, Option.mem_toList] at hid
    exact ⟨other, List.mem_cons_self, hid⟩
  · obtain ⟨typing, ht, htyped⟩ := mem_typedNodes.mp (ha other hm id hid)
    exact ⟨typing, List.mem_cons_of_mem _ ht, htyped⟩

/-- A last turn that puts together records which the ones before it make. -/
theorem Closed.concat {a : List Turn} (ha : Closed a) {turn : Turn}
    (h : ∀ id ∈ turn.move.nodes, id ∈ typedNodes a) : Closed (a ++ [turn]) := by
  intro other hother id hid
  rw [typedNodes_append, List.mem_append]
  rcases List.mem_append.mp hother with hm | hm
  · exact Or.inl (ha other hm id hid)
  · rw [List.mem_singleton.mp hm] at hid
    exact Or.inl (h id hid)

/-- A property of the types around a place is **kept** if it goes over to the places that a walk goes
into from there. -/
structure Kept (s : Schema) (P : List (Option TypeDef) → Prop) : Prop where
  root : ∀ enclosing kind root, P enclosing → s.root? kind = some root →
    P (some root :: enclosing)
  inside : ∀ enclosing name inner, P enclosing → s.inside? enclosing name = some inner → P inner

theorem Schema.suffix_of_inside? {name : String} {inner : List (Option TypeDef)}
    (h : s.inside? enclosing name = some inner) : enclosing <:+ inner := by
  obtain ⟨f, _, h⟩ := Option.bind_eq_some_iff.mp h
  cases hr : f.resolution with
  | object =>
    rw [hr] at h
    cases h
    exact List.suffix_cons _ _
  | unclassified =>
    rw [hr] at h
    cases h
  | scalar | enum =>
    rw [hr] at h
    cases h
    exact List.suffix_rfl

/-- Whatever encloses a place encloses all that is inside. -/
theorem kept_suffix (s : Schema) (outer : List (Option TypeDef)) : Kept s (outer <:+ ·) where
  root := fun _ _ _ h _ => h.trans (List.suffix_cons _ _)
  inside := fun _ _ _ h hin => h.trans (Schema.suffix_of_inside? hin)

/-! ### Selections -/

namespace Selection

variable {selections rest : List Selection} {head : FieldHead} {inner : List (Option TypeDef)}

theorem typedNodes_over (h : s.inside? enclosing head.name = none) :
    typedNodes (turnsFrom s enclosing ⟨n, .within k steps⟩ i (.field head selections :: rest)) =
      ⟨n, .within k (steps ++ [i])⟩ ::
        typedNodes (turnsFrom s enclosing ⟨n, .within k steps⟩ (i + 1) rest) := by
  rw [turnsFrom_over h, typedNodes_enterField]

theorem typedNodes_into (h : s.inside? enclosing head.name = some inner) :
    typedNodes (turnsFrom s enclosing ⟨n, .within k steps⟩ i (.field head selections :: rest)) =
      ⟨n, .within k (steps ++ [i])⟩ ::
        (typedNodes (turnsFrom s inner ⟨n, .within k (steps ++ [i])⟩ 0 selections) ++
          typedNodes (turnsFrom s enclosing ⟨n, .within k steps⟩ (i + 1) rest)) := by
  rw [turnsFrom_into h, typedNodes_append, typedNodes_enterField, typedNodes_append,
    typedNodes_leaveField, typedNodes_nil, List.append_nil, List.cons_append]

/-- What is typed below a node continues its path. -/
theorem path_of_typed (selections : List Selection) (enclosing : List (Option TypeDef))
    (steps : List Nat) (i : Nat) :
    ∀ id ∈ typedNodes (turnsFrom s enclosing ⟨n, .within k steps⟩ i selections),
      ∃ j more, i ≤ j ∧ id = ⟨n, .within k (steps ++ j :: more)⟩ := by
  induction selections, enclosing, steps, i using turns_induct s with
  | nil =>
    intro id hid
    rw [turnsFrom_nil] at hid
    cases hid
  | passed head selections rest enclosing steps i h ih =>
    intro id hid
    rw [typedNodes_over h] at hid
    rcases List.mem_cons.mp hid with rfl | hid
    · exact ⟨i, [], Nat.le_refl i, rfl⟩
    · obtain ⟨j, more, hj, rfl⟩ := ih id hid
      exact ⟨j, more, Nat.le_of_succ_le hj, rfl⟩
  | into head selections rest enclosing inner steps i h ihin ih =>
    intro id hid
    rw [typedNodes_into h, List.mem_cons, List.mem_append] at hid
    rcases hid with rfl | hid | hid
    · exact ⟨i, [], Nat.le_refl i, rfl⟩
    · obtain ⟨j, more, _, rfl⟩ := ihin id hid
      exact ⟨i, j :: more, Nat.le_refl i, by rw [List.append_assoc, List.singleton_append]⟩
    · obtain ⟨j, more, hj, rfl⟩ := ih id hid
      exact ⟨j, more, Nat.le_of_succ_le hj, rfl⟩
  | other selection rest enclosing steps i h ih =>
    intro id hid
    rw [turnsFrom_other h] at hid
    obtain ⟨j, more, hj, rfl⟩ := ih id hid
    exact ⟨j, more, Nat.le_of_succ_le hj, rfl⟩

/-- Nothing that is typed at a node or below it is typed among its later siblings. -/
theorem not_typed_later {selections : List Selection} {more : List Nat} :
    ⟨n, .within k (steps ++ i :: more)⟩ ∉
      typedNodes (turnsFrom s enclosing ⟨n, .within k steps⟩ (i + 1) selections) := by
  intro hid
  obtain ⟨j, more', hj, heq⟩ := path_of_typed selections enclosing steps (i + 1) _ hid
  simp only [NodeId.mk.injEq, NodePath.within.injEq, List.append_cancel_left_eq,
    List.cons.injEq, true_and] at heq
  omega

theorem not_typed_below {selections : List Selection} :
    ⟨n, .within k steps⟩ ∉
      typedNodes (turnsFrom s enclosing ⟨n, .within k steps⟩ i selections) := by
  intro hid
  obtain ⟨j, more, _, heq⟩ := path_of_typed selections enclosing steps i _ hid
  simp at heq

theorem nodup_typedNodes (selections : List Selection) (enclosing : List (Option TypeDef))
    (steps : List Nat) (i : Nat) :
    (typedNodes (turnsFrom s enclosing ⟨n, .within k steps⟩ i selections)).Nodup := by
  induction selections, enclosing, steps, i using turns_induct s with
  | nil =>
    rw [turnsFrom_nil]
    exact List.nodup_nil
  | passed head selections rest enclosing steps i h ih =>
    rw [typedNodes_over h]
    exact List.nodup_cons.mpr ⟨not_typed_later, ih⟩
  | into head selections rest enclosing inner steps i h ihin ih =>
    rw [typedNodes_into h]
    refine List.nodup_cons.mpr ⟨?_, List.nodup_append'.mpr ⟨ihin, ih, ?_⟩⟩
    · rw [List.mem_append, not_or]
      exact ⟨not_typed_below, not_typed_later⟩
    · intro id hin hrest
      obtain ⟨j, more, _, rfl⟩ := path_of_typed selections inner (steps ++ [i]) 0 id hin
      rw [List.append_assoc, List.singleton_append] at hrest
      exact not_typed_later hrest
  | other selection rest enclosing steps i h ih =>
    rw [turnsFrom_other h]
    exact ih

/-- All fields of a list of selections are typed. -/
theorem typed_of_mem_selectedFieldsFrom (selections : List Selection) (parent : NodeId) (i : Nat) :
    ∀ child ∈ selectedFieldsFrom parent i selections,
      child.1 ∈ typedNodes (turnsFrom s enclosing parent i selections) := by
  induction selections generalizing i with
  | nil =>
    intro child hchild
    cases hchild
  | cons selection rest ih =>
    intro child hchild
    rw [turnsFrom, typedNodes_append, List.mem_append]
    cases selection with
    | field head selections =>
      rcases List.mem_cons.mp hchild with rfl | hchild
      · rw [turns, typedNodes_enterField]
        exact Or.inl List.mem_cons_self
      · exact Or.inr (ih (i + 1) child hchild)
    | spread | inlineFragment => exact Or.inr (ih (i + 1) child hchild)

theorem closed_field {inside : List Turn} (hc : Closed inside)
    (h : ∀ child ∈ selectedFields id selections, child.1 ∈ typedNodes inside) :
    Closed (⟨.enterField id head selections, enclosing⟩ ::
      (inside ++ [⟨.leaveField id head selections, inner⟩])) := by
  refine Closed.concat (hc.cons rfl) ?_
  intro id' hid'
  rw [typedNodes_enterField, List.mem_cons]
  rcases List.mem_cons.mp hid' with rfl | hid'
  · exact Or.inl rfl
  · obtain ⟨child, hchild, rfl⟩ := List.mem_map.mp hid'
    exact Or.inr (h child hchild)

theorem closed_turns (selections : List Selection) (enclosing : List (Option TypeDef))
    (steps : List Nat) (i : Nat) :
    Closed (turnsFrom s enclosing ⟨n, .within k steps⟩ i selections) := by
  induction selections, enclosing, steps, i using turns_induct s with
  | nil =>
    rw [turnsFrom_nil]
    exact closed_nil
  | passed head selections rest enclosing steps i h ih =>
    rw [turnsFrom_over h]
    exact ih.cons rfl
  | into head selections rest enclosing inner steps i h ihin ih =>
    rw [turnsFrom_into h]
    exact (closed_field ihin (typed_of_mem_selectedFieldsFrom selections _ 0)).append ih
  | other selection rest enclosing steps i h ih =>
    rw [turnsFrom_other h]
    exact ih

/-- Whatever the types around selections have, and going inside a field keeps, the types around
each of their turns have. -/
theorem forall_enclosing {P : List (Option TypeDef) → Prop} (hk : Kept s P)
    (selections : List Selection) (enclosing : List (Option TypeDef)) (steps : List Nat) (i : Nat) :
    P enclosing → ∀ turn ∈ turnsFrom s enclosing ⟨n, .within k steps⟩ i selections,
      P turn.enclosing := by
  induction selections, enclosing, steps, i using turns_induct s with
  | nil =>
    intro _ turn hturn
    rw [turnsFrom_nil] at hturn
    cases hturn
  | passed head selections rest enclosing steps i h ih =>
    intro hP turn hturn
    rw [turnsFrom_over h] at hturn
    rcases List.mem_cons.mp hturn with rfl | hturn
    · exact hP
    · exact ih hP turn hturn
  | into head selections rest enclosing inner steps i h ihin ih =>
    intro hP turn hturn
    have hinner := hk.inside enclosing head.name inner hP h
    rw [turnsFrom_into h, List.mem_append, List.mem_cons, List.mem_append,
      List.mem_singleton] at hturn
    rcases hturn with (rfl | hturn | rfl) | hturn
    · exact hP
    · exact ihin hinner turn hturn
    · exact hinner
    · exact ih hP turn hturn
  | other selection rest enclosing steps i h ih =>
    rw [turnsFrom_other h]
    exact ih

theorem forall_enclosing_field {P : List (Option TypeDef) → Prop} (hk : Kept s P)
    (h : P enclosing) : ∀ turn ∈ (Selection.field head selections).turns s enclosing
      ⟨n, .within k steps⟩, P turn.enclosing := by
  intro turn hturn
  rw [turns, List.mem_cons] at hturn
  rcases hturn with rfl | hturn
  · exact h
  · cases hin : s.inside? enclosing head.name with
    | none =>
      rw [hin] at hturn
      cases hturn
    | some inner =>
      have hinner := hk.inside enclosing head.name inner h hin
      simp only [hin, List.mem_append, List.mem_singleton] at hturn
      rcases hturn with hturn | rfl
      · exact forall_enclosing hk _ _ _ _ hinner turn hturn
      · exact hinner

end Selection

/-! ### Operations and documents -/

/-- The number of the definition that a path leads into. -/
def NodePath.definition : NodePath → Nat
  | .within definition _ => definition
  | .variable definition _ => definition

namespace VariableDef

theorem path_of_typed (vs : List VariableDef) (i : Nat) :
    ∀ id ∈ typedNodes (turnsFrom enclosing ⟨n, .within k steps⟩ i vs),
      ∃ j, i ≤ j ∧ id = ⟨n, .variable k j⟩ := by
  induction vs generalizing i with
  | nil =>
    intro id hid
    cases hid
  | cons v rest ih =>
    intro id hid
    rw [turnsFrom, typedNodes_enterVariable] at hid
    rcases List.mem_cons.mp hid with rfl | hid
    · exact ⟨i, Nat.le_refl i, rfl⟩
    · obtain ⟨j, hj, rfl⟩ := ih (i + 1) id hid
      exact ⟨j, Nat.le_of_succ_le hj, rfl⟩

theorem nodup_typedNodes (vs : List VariableDef) (enclosing : List (Option TypeDef))
    (steps : List Nat) (i : Nat) :
    (typedNodes (turnsFrom enclosing ⟨n, .within k steps⟩ i vs)).Nodup := by
  induction vs generalizing i with
  | nil => exact List.nodup_nil
  | cons v rest ih =>
    rw [turnsFrom, typedNodes_enterVariable]
    refine List.nodup_cons.mpr ⟨?_, ih (i + 1)⟩
    intro hid
    obtain ⟨j, hj, heq⟩ := path_of_typed rest (i + 1) _ hid
    simp only [NodeId.variableAt, NodePath.variableAt, NodeId.mk.injEq, NodePath.variable.injEq,
      true_and] at heq
    omega

theorem typed_of_mem_definedVariablesFrom (vs : List VariableDef) (i : Nat) :
    ∀ child ∈ definedVariablesFrom id i vs, child.1 ∈ typedNodes (turnsFrom enclosing id i vs) := by
  induction vs generalizing i with
  | nil =>
    intro child hchild
    cases hchild
  | cons v rest ih =>
    intro child hchild
    rw [turnsFrom, typedNodes_enterVariable, List.mem_cons]
    rcases List.mem_cons.mp hchild with rfl | hchild
    · exact Or.inl rfl
    · exact Or.inr (ih (i + 1) child hchild)

theorem closed_turns (vs : List VariableDef) (i : Nat) : Closed (turnsFrom enclosing id i vs) := by
  induction vs generalizing i with
  | nil => exact closed_nil
  | cons v rest ih => exact (ih (i + 1)).cons rfl

theorem enclosing_eq (vs : List VariableDef) (i : Nat) :
    ∀ turn ∈ turnsFrom enclosing id i vs, turn.enclosing = enclosing := by
  induction vs generalizing i with
  | nil =>
    intro turn hturn
    cases hturn
  | cons v rest ih =>
    intro turn hturn
    rcases List.mem_cons.mp hturn with rfl | hturn
    · rfl
    · exact ih (i + 1) turn hturn

end VariableDef

namespace Operation

variable {o : Operation}

theorem turns_missing (h : s.root? o.kind = none) :
    o.turns s enclosing id = [⟨.enterOperation id o, enclosing⟩] := by
  rw [turns, h]

theorem turns_root {root : TypeDef} (h : s.root? o.kind = some root) :
    o.turns s enclosing id =
      ⟨.enterOperation id o, enclosing⟩ ::
        (o.turnsInside s (some root :: enclosing) id ++
          [⟨.leaveOperation id o, some root :: enclosing⟩]) := by
  rw [turns, h]

theorem typedNodes_turns_root {root : TypeDef} (h : s.root? o.kind = some root) :
    typedNodes (o.turns s enclosing id) =
      typedNodes (o.turnsInside s (some root :: enclosing) id) := by
  rw [turns_root h, typedNodes_enterOperation, typedNodes_append, typedNodes_leaveOperation,
    typedNodes_nil, List.append_nil]

theorem nodup_typedNodes_inside (o : Operation) (enclosing : List (Option TypeDef))
    (steps : List Nat) : (typedNodes (o.turnsInside s enclosing ⟨n, .within k steps⟩)).Nodup := by
  rw [turnsInside, typedNodes_append]
  refine List.nodup_append'.mpr ⟨VariableDef.nodup_typedNodes _ _ _ _,
    Selection.nodup_typedNodes _ _ _ _, ?_⟩
  intro id hv hs
  obtain ⟨j, _, rfl⟩ := VariableDef.path_of_typed _ _ id hv
  obtain ⟨j', more, _, heq⟩ := Selection.path_of_typed _ _ _ _ _ hs
  simp at heq

theorem definition_of_typed (hid : id ∈ typedNodes (o.turns s enclosing ⟨n, .within k steps⟩)) :
    id.path.definition = k := by
  cases h : s.root? o.kind with
  | none =>
    rw [turns_missing h, typedNodes_enterOperation] at hid
    cases hid
  | some root =>
    rw [typedNodes_turns_root h, turnsInside, typedNodes_append, List.mem_append] at hid
    rcases hid with hid | hid
    · obtain ⟨j, _, rfl⟩ := VariableDef.path_of_typed _ _ id hid
      rfl
    · obtain ⟨j, more, _, rfl⟩ := Selection.path_of_typed _ _ _ _ id hid
      rfl

theorem nodup_typedNodes (o : Operation) (enclosing : List (Option TypeDef)) (steps : List Nat) :
    (typedNodes (o.turns s enclosing ⟨n, .within k steps⟩)).Nodup := by
  cases h : s.root? o.kind with
  | none =>
    rw [turns_missing h]
    exact List.nodup_nil
  | some root =>
    rw [typedNodes_turns_root h]
    exact nodup_typedNodes_inside o _ steps

/-- The fields and variables right below an operation are typed inside it. -/
theorem typed_of_mem_nodes (o : Operation) (enclosing : List (Option TypeDef)) (id : NodeId) :
    ∀ node ∈ (Move.leaveOperation id o).nodes,
      node ∈ typedNodes (o.turnsInside s enclosing id) := by
  intro node hnode
  rw [turnsInside, typedNodes_append, List.mem_append]
  rcases List.mem_append.mp hnode with h | h
  · obtain ⟨child, hchild, rfl⟩ := List.mem_map.mp h
    exact Or.inr (Selection.typed_of_mem_selectedFieldsFrom _ _ _ child hchild)
  · obtain ⟨child, hchild, rfl⟩ := List.mem_map.mp h
    exact Or.inl (VariableDef.typed_of_mem_definedVariablesFrom _ _ child hchild)

theorem closed_turns (o : Operation) (enclosing : List (Option TypeDef)) (steps : List Nat) :
    Closed (o.turns s enclosing ⟨n, .within k steps⟩) := by
  cases h : s.root? o.kind with
  | none =>
    rw [turns_missing h]
    exact closed_nil.cons rfl
  | some root =>
    rw [turns_root h]
    refine Closed.cons (Closed.concat ?_ (typed_of_mem_nodes o _ _)) rfl
    exact (VariableDef.closed_turns _ _).append (Selection.closed_turns _ _ _ _)

theorem forall_enclosing {P : List (Option TypeDef) → Prop} (hk : Kept s P) (hP : P enclosing) :
    ∀ turn ∈ o.turns s enclosing ⟨n, .within k steps⟩, P turn.enclosing := by
  intro turn hturn
  cases h : s.root? o.kind with
  | none =>
    rw [turns_missing h, List.mem_singleton] at hturn
    rw [hturn]
    exact hP
  | some root =>
    have hinner := hk.root enclosing o.kind root hP h
    rw [turns_root h, turnsInside, List.mem_cons, List.mem_append, List.mem_append,
      List.mem_singleton] at hturn
    rcases hturn with rfl | (hturn | hturn) | rfl
    · exact hP
    · rw [VariableDef.enclosing_eq _ _ turn hturn]
      exact hinner
    · exact Selection.forall_enclosing hk _ _ _ _ hinner turn hturn
    · exact hinner

end Operation

namespace Definition

theorem definition_of_typed (ds : List Definition) (i : Nat) :
    ∀ id ∈ typedNodes (turnsFrom s enclosing n i ds), i ≤ id.path.definition := by
  induction ds generalizing i with
  | nil =>
    intro id hid
    cases hid
  | cons d rest ih =>
    intro id hid
    cases d with
    | operation o =>
      rw [turnsFrom, typedNodes_append, List.mem_append] at hid
      rcases hid with hid | hid
      · exact Nat.le_of_eq (Operation.definition_of_typed hid).symm
      · exact Nat.le_of_succ_le (ih (i + 1) id hid)
    | fragment | typeSystem => exact Nat.le_of_succ_le (ih (i + 1) id hid)

theorem nodup_typedNodes (ds : List Definition) (enclosing : List (Option TypeDef)) (i : Nat) :
    (typedNodes (turnsFrom s enclosing n i ds)).Nodup := by
  induction ds generalizing i with
  | nil => exact List.nodup_nil
  | cons d rest ih =>
    cases d with
    | operation o =>
      rw [turnsFrom, typedNodes_append]
      refine List.nodup_append'.mpr ⟨Operation.nodup_typedNodes o _ [], ih (i + 1), ?_⟩
      intro id ho hrest
      have hi := Operation.definition_of_typed ho
      have hlater := definition_of_typed rest (i + 1) id hrest
      omega
    | fragment | typeSystem => exact ih (i + 1)

theorem forall_enclosing {P : List (Option TypeDef) → Prop} (hk : Kept s P) (hP : P enclosing)
    (ds : List Definition) (i : Nat) :
    ∀ turn ∈ turnsFrom s enclosing n i ds, P turn.enclosing := by
  induction ds generalizing i with
  | nil =>
    intro turn hturn
    cases hturn
  | cons d rest ih =>
    intro turn hturn
    cases d with
    | operation o =>
      rcases List.mem_append.mp hturn with hturn | hturn
      · exact Operation.forall_enclosing hk hP turn hturn
      · exact ih (i + 1) turn hturn
    | fragment | typeSystem => exact ih (i + 1) turn hturn

end Definition

end GraphQLTyping
