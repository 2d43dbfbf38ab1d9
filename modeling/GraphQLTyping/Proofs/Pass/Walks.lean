import GraphQLTyping.Proofs.Pass.Run
import GraphQLTyping.Typing.Document

/-!
# Walks take their turns

The turns of a walk are sound from any state of a pass that is enclosed in the types from which the
turns were told (`Selection.sound_turns`, `Operation.sound_turns`, `Definition.sound_turns`), and the
walk does nothing else than to take them (`Pass.walkSelections_eq`, `Pass.walkOperation_eq`,
`Pass.walkDefinitions_eq`).  What else is in the pass does not matter: it may hold anything about the
same nodes already.
-/

namespace GraphQLTyping

open Pass

variable {s : Schema} {p : Pass} {n k i : Nat} {steps : List Nat} {id : NodeId}
  {enclosing inner : List (Option TypeDef)}

/-! ### Selections -/

/-- **The turns of selections are sound.** -/
theorem Selection.sound_turns (selections : List Selection) (enclosing : List (Option TypeDef))
    (steps : List Nat) (i : Nat) : ∀ p : Pass, p.enclosing = enclosing →
      Sound s (turnsFrom s enclosing ⟨n, .within k steps⟩ i selections) p := by
  induction selections, enclosing, steps, i using turns_induct s with
  | nil =>
    intro p _
    rw [turnsFrom_nil]
    exact sound_nil s p
  | passed head selections rest enclosing steps i h ih =>
    intro p hp
    have hn := nodup_typedNodes (s := s) (n := n) (k := k) (.field head selections :: rest)
      enclosing steps i
    subst hp
    rw [turnsFrom_over h, ← List.singleton_append] at hn ⊢
    exact (sound_over h).append (fun q hq => ih q hq) (closed_nil.cons rfl) hn
  | into head selections rest enclosing inner steps i h ihin ih =>
    intro p hp
    have hn := nodup_typedNodes (s := s) (n := n) (k := k) (.field head selections :: rest)
      enclosing steps i
    -- leaving the field looks up just the fields that are selected in it
    have hsel : ∀ child ∈ selectedFields ⟨n, .within k (steps ++ [i])⟩ selections,
        child.1 ∈ typedNodes (turnsFrom s inner ⟨n, .within k (steps ++ [i])⟩ 0 selections) :=
      typed_of_mem_selectedFieldsFrom selections _ 0
    subst hp
    rw [turnsFrom_into h] at hn ⊢
    exact (sound_into h ihin not_typed_below hsel).append (fun q hq => ih q hq)
      (closed_field (closed_turns _ _ _ _) hsel) hn
  | other selection rest enclosing steps i h ih =>
    rw [turnsFrom_other h]
    exact ih

/-- The turns of a field are sound, wherever it stands. -/
theorem Selection.sound_field (head : FieldHead) (selections : List Selection) (p : Pass) :
    Sound s ((Selection.field head selections).turns s p.enclosing ⟨n, .within k steps⟩) p := by
  rw [turns]
  cases h : s.inside? p.enclosing head.name with
  | none => exact sound_over h
  | some inner =>
    exact sound_into h (sound_turns selections inner steps 0) not_typed_below
      (typed_of_mem_selectedFieldsFrom selections _ 0)

namespace Pass

theorem walkSelection_other {selection : Selection} (h : selection.isField = false) (p : Pass) :
    walkSelection s id selection p = .ok ⟨⟩ p := by
  cases selection with
  | field => cases h
  | spread | inlineFragment => rfl

/-- A field alone, given that the walk inside it takes its turns. -/
theorem walkField_eq {head : FieldHead} {selections : List Selection} {p : Pass}
    (h : ∀ inner q, s.inside? p.enclosing head.name = some inner → q.enclosing = inner →
      walkSelections s id 0 selections q =
        takeTurns s (Selection.turnsFrom s inner id 0 selections) q) :
    walkSelection s id (.field head selections) p =
      takeTurns s ((Selection.field head selections).turns s p.enclosing id) p := by
  rw [walkSelection, Selection.turns]
  cases hin : s.inside? p.enclosing head.name with
  | none =>
    cases hf : s.fieldFault? p.enclosing head.name with
    | some e =>
      obtain ⟨q, hstep, _⟩ := enterField_of_fault hf id
      rw [bind_of_error hstep, takeTurns_cons_of_error (step_enterField_of_error hstep)]
    | none =>
      obtain ⟨f, q, _, hstep, _⟩ := enterField_of_over hin hf id
      rw [bind_of_ok hstep, takeTurns_cons_of_ok (step_enterField hstep)]
      rfl
  | some inner =>
    obtain ⟨f, q, _, hstep, hq, _⟩ := enterField_of_into hin id
    rw [bind_of_ok hstep, takeTurns_cons_of_ok (step_enterField hstep), takeTurns_append]
    refine bind_congr_apply (h inner q hin hq) ?_
    intro _ r _
    rw [takeTurns_singleton]
    rfl

/-- A field and what follows it, given that the walks inside it and after it take their turns. -/
theorem walkSelections_field {head : FieldHead} {selections rest : List Selection} {p : Pass}
    (hin : ∀ inner q, s.inside? p.enclosing head.name = some inner → q.enclosing = inner →
      walkSelections s ⟨n, .within k (steps ++ [i])⟩ 0 selections q =
        takeTurns s (Selection.turnsFrom s inner ⟨n, .within k (steps ++ [i])⟩ 0 selections) q)
    (hrest : ∀ q, q.enclosing = p.enclosing →
      walkSelections s ⟨n, .within k steps⟩ (i + 1) rest q =
        takeTurns s (Selection.turnsFrom s p.enclosing ⟨n, .within k steps⟩ (i + 1) rest) q) :
    walkSelections s ⟨n, .within k steps⟩ i (.field head selections :: rest) p =
      takeTurns s (Selection.turnsFrom s p.enclosing ⟨n, .within k steps⟩ i
        (.field head selections :: rest)) p := by
  rw [walkSelections, Selection.turnsFrom, takeTurns_append]
  refine bind_congr_apply (walkField_eq hin) ?_
  intro _ q hq
  exact hrest q ((Selection.sound_field head selections p).enclosing q hq)

/-- **The walk through selections takes their turns.** -/
theorem walkSelections_eq (selections : List Selection) (enclosing : List (Option TypeDef))
    (steps : List Nat) (i : Nat) : ∀ p : Pass, p.enclosing = enclosing →
      walkSelections s ⟨n, .within k steps⟩ i selections p =
        takeTurns s (Selection.turnsFrom s enclosing ⟨n, .within k steps⟩ i selections) p := by
  induction selections, enclosing, steps, i using Selection.turns_induct s with
  | nil =>
    intro p _
    rw [Selection.turnsFrom_nil]
    rfl
  | passed head selections rest enclosing steps i h ih =>
    intro p hp
    subst hp
    refine walkSelections_field ?_ (fun q hq => ih q hq)
    intro inner q hin
    rw [h] at hin
    cases hin
  | into head selections rest enclosing inner steps i h ihin ih =>
    intro p hp
    subst hp
    refine walkSelections_field ?_ (fun q hq => ih q hq)
    intro inner' q hin hq
    rw [h] at hin
    cases hin
    exact ihin q hq
  | other selection rest enclosing steps i h ih =>
    intro p hp
    rw [walkSelections, bind_of_ok (walkSelection_other h p), Selection.turnsFrom_other h]
    exact ih p hp

end Pass

/-! ### Operations -/

theorem VariableDef.sound_turns (vs : List VariableDef) (enclosing : List (Option TypeDef))
    (steps : List Nat) (i : Nat) : ∀ p : Pass, p.enclosing = enclosing →
      Sound s (turnsFrom enclosing ⟨n, .within k steps⟩ i vs) p := by
  induction vs generalizing i with
  | nil =>
    intro p _
    exact sound_nil s p
  | cons v rest ih =>
    intro p hp
    have hn := nodup_typedNodes (n := n) (k := k) (v :: rest) enclosing steps i
    subst hp
    rw [turnsFrom, ← List.singleton_append] at hn ⊢
    exact (sound_enterVariable v _ p).append (fun q hq => ih (i + 1) q hq) (closed_nil.cons rfl) hn

/-- **The turns of an operation are sound.** -/
theorem Operation.sound_turns (o : Operation) (p : Pass) :
    Sound s (o.turns s p.enclosing ⟨n, .within k steps⟩) p := by
  cases h : s.root? o.kind with
  | none =>
    rw [turns_missing h]
    exact sound_of_error rfl (enterOperation_missing h p) (by simp [Turn.fault?, h]) rfl
  | some root =>
    rw [turns_root h]
    refine sound_operation h ?_ (typed_of_mem_nodes o _ _)
    intro q hq
    refine (VariableDef.sound_turns o.variableDefs _ steps 0 q hq).append ?_
      (VariableDef.closed_turns _ _) (nodup_typedNodes_inside o _ _)
    intro r hr
    exact Selection.sound_turns o.selections _ steps 0 r (hr.trans hq)

namespace Pass

theorem walkVariables_eq (vs : List VariableDef) (i : Nat) :
    walkVariables s id i vs = takeTurns s (VariableDef.turnsFrom enclosing id i vs) := by
  induction vs generalizing i with
  | nil => rfl
  | cons v rest ih =>
    rw [walkVariables, VariableDef.turnsFrom, takeTurns, ih]
    rfl

/-- **The walk through an operation takes its turns.** -/
theorem walkOperation_eq (o : Operation) (p : Pass) :
    walkOperation s ⟨n, .within k steps⟩ o p =
      takeTurns s (o.turns s p.enclosing ⟨n, .within k steps⟩) p := by
  rw [walkOperation]
  cases h : s.root? o.kind with
  | none =>
    have hstep := enterOperation_missing h p
    rw [Operation.turns_missing h, takeTurns_singleton, bind_of_error hstep]
    exact hstep.symm
  | some root =>
    have hstep := enterOperation_root h p
    have hmove : (Move.enterOperation ⟨n, .within k steps⟩ o).step s p = _ := hstep
    rw [Operation.turns_root h, bind_of_ok hstep, takeTurns_cons_of_ok hmove, Operation.turnsInside,
      List.append_assoc (VariableDef.turnsFrom _ _ _ _), takeTurns_append]
    refine bind_congr_apply (by rw [← walkVariables_eq]) ?_
    intro _ q hq
    have he := (VariableDef.sound_turns o.variableDefs (some root :: p.enclosing) steps 0 _
      rfl).enclosing q hq
    rw [takeTurns_append]
    refine bind_congr_apply (walkSelections_eq o.selections _ steps 0 q he) ?_
    intro _ r _
    rw [takeTurns_singleton]
    rfl

end Pass

/-! ### Documents and nodes -/

/-- **The turns of definitions are sound.** -/
theorem Definition.sound_turns (ds : List Definition) (i : Nat) (p : Pass) :
    Sound s (turnsFrom s p.enclosing n i ds) p := by
  induction ds generalizing i p with
  | nil => exact sound_nil s p
  | cons d rest ih =>
    cases d with
    | operation o =>
      have hn := nodup_typedNodes (s := s) (n := n) (.operation o :: rest) p.enclosing i
      rw [turnsFrom] at hn ⊢
      refine (Operation.sound_turns o p).append ?_ (Operation.closed_turns o _ []) hn
      intro q hq
      rw [← hq]
      exact ih (i + 1) q
    | fragment | typeSystem => exact ih (i + 1) p

namespace Pass

/-- **The walk through definitions takes their turns.** -/
theorem walkDefinitions_eq (ds : List Definition) (i : Nat) (p : Pass) :
    walkDefinitions s n i ds p = takeTurns s (Definition.turnsFrom s p.enclosing n i ds) p := by
  induction ds generalizing i p with
  | nil => rfl
  | cons d rest ih =>
    cases d with
    | operation o =>
      rw [walkDefinitions, Definition.turnsFrom, takeTurns_append]
      refine bind_congr_apply (walkOperation_eq o p) ?_
      intro _ q hq
      rw [ih (i + 1) q, (Operation.sound_turns o p).enclosing q hq]
    | fragment | typeSystem => exact ih (i + 1) p

/-- A walk that starts from a field takes the turns of the field, unless the field is passed over. -/
theorem walkNode_field_eq {head : FieldHead} {selections : List Selection} {p : Pass}
    (h : ∀ q, enterField s ⟨n, .within k steps⟩ head.name p ≠ .ok .over q) :
    walkNode s ⟨n, .within k steps⟩ (.field head selections) p =
      takeTurns s
        ((Selection.field head selections).turns s p.enclosing ⟨n, .within k steps⟩) p := by
  rw [← walkField_eq fun inner q _ hq => walkSelections_eq selections inner steps 0 q hq, walkNode,
    walkSelection]
  refine bind_congr_apply rfl ?_
  intro descent q hq
  match descent, hq with
  | .into, _ => rfl
  | .over, hq => exact absurd hq (h q)

/-- A whole walk of an unused pass, which fails if types are left at the end. -/
theorem complete_of_unused (hu : p.used = false) (walk : Step Unit) :
    complete walk p = match walk { p with used := true } with
      | .error e q => .error e q
      | .ok _ q =>
        if q.enclosing = [] then .ok ⟨⟩ q else .error (.leftEnclosed q.enclosing.length) q := by
  simp only [complete, bind_apply, get_apply, hu, Bool.false_eq_true, if_false, modify_apply]
  cases walk { p with used := true } with
  | error e q => rfl
  | ok _ q =>
    show (if q.depth = 0 then pure ⟨⟩ else throw (.leftEnclosed q.depth) : Step Unit) q =
      if q.enclosing = [] then _ else _
    by_cases hq : q.enclosing = []
    · have hdepth : q.depth = 0 := List.length_eq_zero_iff.mpr hq
      rw [if_pos hdepth, if_pos hq]
      rfl
    · have hdepth : q.depth ≠ 0 := fun h => hq (List.length_eq_zero_iff.mp h)
      rw [if_neg hdepth, if_neg hq]
      rfl

end Pass

/-- The turns of a document are sound for a new pass. -/
theorem Document.sound_turns (s : Schema) (number : Nat) (d : Document) :
    Sound s (d.turns s number) { used := true } :=
  Definition.sound_turns d.definitions 0 { used := true }

/-- **Typing a document** is taking its turns. -/
theorem Pass.typeDocument_eq (s : Schema) (number : Nat) (d : Document) :
    typeDocument s number d {} = takeTurns s (d.turns s number) { used := true } := by
  have hwalk : walkDefinitions s number 0 d.definitions { used := true } =
      takeTurns s (d.turns s number) { used := true } :=
    walkDefinitions_eq d.definitions 0 { used := true }
  rw [typeDocument, complete_of_unused rfl]
  show (match walkDefinitions s number 0 d.definitions { used := true } with
    | .error e q => _
    | .ok _ q => _) = _
  rw [hwalk]
  cases hq : takeTurns s (d.turns s number) { used := true } with
  | error e q => rfl
  | ok _ q =>
    have he : q.enclosing = [] := (d.sound_turns s number).enclosing q hq
    simp only [he, if_true]

theorem Document.typing_eq (s : Schema) (d : Document) :
    d.typing s = match takeTurns s (d.turns s 0) { used := true } with
      | .ok _ q => (.ok q.typing, q.log)
      | .error e q => (.error e, q.log) := by
  rw [typing]
  show (match typeDocument s 0 d {} with
    | .ok _ q => _
    | .error e q => _) = _
  rw [typeDocument_eq]

end GraphQLTyping
