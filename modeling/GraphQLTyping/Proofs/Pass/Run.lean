import GraphQLTyping.Proofs.Pass.Outcome

/-!
# Taking turns

A pass keeps **in step** with turns (`Pass.InStep`) if before each of them it is enclosed in the types
that the turn says, and the turn fails with the fault that it says or not at all.

That leaving a field takes away what entering it took in rests on the record that was made on
entering, which the turns in between leave alone.  So being in step, being enclosed at the end in the
types of the start, and what is recorded are shown together (`Pass.Sound`): for a single turn, for
rows of turns that type different nodes (`Pass.Sound.append`), and for a field around the turns
inside it (`Pass.sound_into`).
-/

namespace GraphQLTyping.Pass

variable {s : Schema} {p q : Pass} {turn : Turn} {a b rest turns : List Turn} {id : NodeId}
  {enclosing inner : List (Option TypeDef)} {e : TypingError}

/-! ### Rows of turns -/

/-- **Takes** turns one after the other. -/
def takeTurns (s : Schema) : List Turn → Step Unit
  | [] => return
  | turn :: rest => do
    turn.move.step s
    takeTurns s rest

theorem takeTurns_cons_of_ok (h : turn.move.step s p = .ok ⟨⟩ q) (rest : List Turn) :
    takeTurns s (turn :: rest) p = takeTurns s rest q := by
  rw [takeTurns, bind_of_ok h]

theorem takeTurns_cons_of_error (h : turn.move.step s p = .error e q) (rest : List Turn) :
    takeTurns s (turn :: rest) p = .error e q := by
  rw [takeTurns, bind_of_error h]

theorem takeTurns_singleton (turn : Turn) : takeTurns s [turn] = turn.move.step s := by
  rw [takeTurns, takeTurns]
  exact bind_pure _

theorem takeTurns_append (a b : List Turn) (p : Pass) :
    takeTurns s (a ++ b) p = (takeTurns s a >>= fun _ => takeTurns s b) p := by
  induction a generalizing p with
  | nil => rfl
  | cons turn rest ih =>
    rw [List.cons_append, takeTurns, takeTurns, bind_assoc, bind_apply, bind_apply]
    cases turn.move.step s p with
    | ok _ q => exact ih q
    | error e q => rfl

theorem takeTurns_append_of_ok (h : takeTurns s a p = .ok ⟨⟩ q) (b : List Turn) :
    takeTurns s (a ++ b) p = takeTurns s b q := by
  rw [takeTurns_append, bind_of_ok h]

theorem takeTurns_append_of_error (h : takeTurns s a p = .error e q) (b : List Turn) :
    takeTurns s (a ++ b) p = .error e q := by
  rw [takeTurns_append, bind_of_error h]

/-- Turns that are taken without a failure are so up to any of them. -/
theorem exists_takeTurns_of_append (h : takeTurns s (a ++ b) p = .ok ⟨⟩ q) :
    ∃ r, takeTurns s a p = .ok ⟨⟩ r ∧ takeTurns s b r = .ok ⟨⟩ q := by
  cases ha : takeTurns s a p with
  | ok _ r => exact ⟨r, rfl, by rwa [takeTurns_append_of_ok ha] at h⟩
  | error e r =>
    rw [takeTurns_append_of_error ha] at h
    cases h

/-! ### In step -/

/-- A pass is **in step** with turns: before each it is enclosed in the types that the turn says, and
the turn fails with its fault if it has one and succeeds otherwise. -/
def InStep (s : Schema) : Pass → List Turn → Prop
  | _, [] => True
  | p, turn :: rest =>
    p.enclosing = turn.enclosing ∧
      match turn.move.step s p with
      | .ok _ q => turn.fault? s = none ∧ InStep s q rest
      | .error e q => turn.fault? s = some e ∧ q.enclosing = p.enclosing

theorem InStep.cons_of_ok (hp : p.enclosing = turn.enclosing)
    (h : turn.move.step s p = .ok ⟨⟩ q) (hf : turn.fault? s = none) (hq : InStep s q rest) :
    InStep s p (turn :: rest) := by
  rw [InStep, h]
  exact ⟨hp, hf, hq⟩

theorem InStep.cons_of_error (hp : p.enclosing = turn.enclosing)
    (h : turn.move.step s p = .error e q) (hf : turn.fault? s = some e)
    (hq : q.enclosing = p.enclosing) : InStep s p (turn :: rest) := by
  rw [InStep, h]
  exact ⟨hp, hf, hq⟩

theorem InStep.append (ha : InStep s p a)
    (hb : ∀ q, takeTurns s a p = .ok ⟨⟩ q → InStep s q b) : InStep s p (a ++ b) := by
  induction a generalizing p with
  | nil => exact hb p rfl
  | cons turn rest ih =>
    obtain ⟨hp, h⟩ := ha
    cases hstep : turn.move.step s p with
    | ok _ q =>
      rw [hstep] at h
      refine InStep.cons_of_ok hp hstep h.1 (ih h.2 ?_)
      intro r hr
      exact hb r (by rwa [takeTurns_cons_of_ok hstep])
    | error e q =>
      rw [hstep] at h
      exact InStep.cons_of_error hp hstep h.1 h.2

theorem InStep.of_append (h : InStep s p (a ++ b)) : InStep s p a := by
  induction a generalizing p with
  | nil => trivial
  | cons turn rest ih =>
    obtain ⟨hp, h⟩ := h
    cases hstep : turn.move.step s p with
    | ok _ q =>
      rw [hstep] at h
      exact InStep.cons_of_ok hp hstep h.1 (ih h.2)
    | error e q =>
      rw [hstep] at h
      exact InStep.cons_of_error hp hstep h.1 h.2

/-- Before a turn, a pass that is in step is enclosed in the types of the turn. -/
theorem InStep.enclosing_eq (h : InStep s p (a ++ turn :: b)) (ha : takeTurns s a p = .ok ⟨⟩ q) :
    q.enclosing = turn.enclosing := by
  induction a generalizing p with
  | nil =>
    cases ha
    exact h.1
  | cons first rest ih =>
    obtain ⟨_, h⟩ := h
    cases hstep : first.move.step s p with
    | ok _ r =>
      rw [hstep] at h
      rw [takeTurns_cons_of_ok hstep] at ha
      exact ih h.2 ha
    | error e r =>
      rw [takeTurns_cons_of_error hstep] at ha
      cases ha

/-- **The first fault is the outcome**: turns with which a pass is in step fail with it, at a turn
that leaves the pass enclosed in the types of the turn, and succeed if there is none. -/
theorem InStep.outcome (h : InStep s p turns) :
    match turns.findSome? (·.fault? s) with
    | some e => ∃ q, takeTurns s turns p = .error e q ∧ ∃ turn ∈ turns,
        turn.fault? s = some e ∧ q.enclosing = turn.enclosing
    | none => ∃ q, takeTurns s turns p = .ok ⟨⟩ q := by
  induction turns generalizing p with
  | nil => exact ⟨p, rfl⟩
  | cons turn rest ih =>
    obtain ⟨hp, h⟩ := h
    cases hstep : turn.move.step s p with
    | ok _ q =>
      rw [hstep] at h
      have hrest := ih h.2
      rw [List.findSome?_cons, h.1]
      simp only [takeTurns_cons_of_ok hstep]
      cases hfind : rest.findSome? (·.fault? s) with
      | none =>
        rw [hfind] at hrest
        exact hrest
      | some e =>
        rw [hfind] at hrest
        obtain ⟨r, hr, other, hother, h⟩ := hrest
        exact ⟨r, hr, other, List.mem_cons_of_mem _ hother, h⟩
    | error e q =>
      rw [hstep] at h
      rw [List.findSome?_cons, h.1]
      exact ⟨q, takeTurns_cons_of_error hstep rest, turn, List.mem_cons_self, h.1, h.2.trans hp⟩

/-- A failure is the fault of one of the turns. -/
theorem InStep.exists_fault (h : InStep s p turns) (he : takeTurns s turns p = .error e q) :
    ∃ turn ∈ turns, turn.fault? s = some e ∧ q.enclosing = turn.enclosing := by
  have hout := h.outcome
  cases hfind : turns.findSome? (·.fault? s) with
  | none =>
    rw [hfind] at hout
    obtain ⟨r, hr⟩ := hout
    rw [he] at hr
    cases hr
  | some e' =>
    rw [hfind] at hout
    obtain ⟨r, hr, h⟩ := hout
    rw [he] at hr
    cases hr
    exact h

/-! ### Sound turns -/

/-- Turns are **sound** for a pass: it keeps in step with them, and if it takes them all it is
enclosed in the same types at the end as at the start, and its typing has grown by them. -/
structure Sound (s : Schema) (turns : List Turn) (p : Pass) : Prop where
  inStep : InStep s p turns
  enclosing : ∀ q, takeTurns s turns p = .ok ⟨⟩ q → q.enclosing = p.enclosing
  grown : ∀ q, takeTurns s turns p = .ok ⟨⟩ q → Grown s turns p.typing q.typing

theorem sound_nil (s : Schema) (p : Pass) : Sound s [] p := by
  refine ⟨trivial, ?_, ?_⟩
  · intro q h
    cases h
    rfl
  · intro q h
    cases h
    exact grown_nil s _

theorem Sound.append (ha : Sound s a p) (hb : ∀ q, q.enclosing = p.enclosing → Sound s b q)
    (hc : Closed a) (hn : (typedNodes (a ++ b)).Nodup) : Sound s (a ++ b) p := by
  refine ⟨?_, ?_, ?_⟩
  · exact ha.inStep.append fun q hq => (hb q (ha.enclosing q hq)).inStep
  · intro r hr
    obtain ⟨q, hq, hr⟩ := exists_takeTurns_of_append hr
    have he := ha.enclosing q hq
    rw [(hb q he).enclosing r hr, he]
  · intro r hr
    obtain ⟨q, hq, hr⟩ := exists_takeTurns_of_append hr
    exact (ha.grown q hq).append ((hb q (ha.enclosing q hq)).grown r hr) hc hn

/-- A turn that fails is sound if it fails as it says. -/
theorem sound_of_error (hp : p.enclosing = turn.enclosing) (h : turn.move.step s p = .error e q)
    (hf : turn.fault? s = some e) (hq : q.enclosing = p.enclosing) : Sound s [turn] p := by
  refine ⟨InStep.cons_of_error hp h hf hq, ?_, ?_⟩
  all_goals
    intro r hr
    rw [takeTurns_cons_of_error h] at hr
    cases hr

theorem sound_of_ok (hp : p.enclosing = turn.enclosing) (h : turn.move.step s p = .ok ⟨⟩ q)
    (hf : turn.fault? s = none) (hq : q.enclosing = p.enclosing)
    (hg : Grown s [turn] p.typing q.typing) : Sound s [turn] p := by
  have hone : takeTurns s [turn] p = .ok ⟨⟩ q := takeTurns_cons_of_ok h []
  refine ⟨InStep.cons_of_ok hp h hf trivial, ?_, ?_⟩
  · intro r hr
    rw [hone] at hr
    cases hr
    exact hq
  · intro r hr
    rw [hone] at hr
    cases hr
    exact hg

/-- **Sound turns inside others** that take in what the last one takes away. -/
theorem sound_around {enter leave : Turn} {inside : List Turn} (hp : p.enclosing = enter.enclosing)
    (hstep : enter.move.step s p = .ok ⟨⟩ q) (henter : enter.fault? s = none)
    (hnever : leave.fault? s = none) (hin : Sound s inside q)
    (hleave : ∀ q', Grown s inside q.typing q'.typing → q'.enclosing = q.enclosing →
      q'.enclosing = leave.enclosing ∧
      ∃ r, leave.move.step s q' = .ok ⟨⟩ r ∧ r.enclosing = p.enclosing ∧
        Grown s (enter :: (inside ++ [leave])) p.typing r.typing) :
    Sound s (enter :: (inside ++ [leave])) p := by
  -- whatever pass the turns inside end in, `hleave` says what leaving makes of it
  have htake : ∀ r, takeTurns s (enter :: (inside ++ [leave])) p = .ok ⟨⟩ r →
      r.enclosing = p.enclosing ∧ Grown s (enter :: (inside ++ [leave])) p.typing r.typing := by
    intro r hr
    rw [takeTurns_cons_of_ok hstep] at hr
    obtain ⟨q', hq', hr⟩ := exists_takeTurns_of_append hr
    obtain ⟨_, r', hr', h⟩ := hleave q' (hin.grown q' hq') (hin.enclosing q' hq')
    rw [takeTurns_singleton, hr'] at hr
    cases hr
    exact h
  refine ⟨?_, fun r hr => (htake r hr).1, fun r hr => (htake r hr).2⟩
  refine InStep.cons_of_ok hp hstep henter (hin.inStep.append fun q' hq' => ?_)
  obtain ⟨he, r, hr, _⟩ := hleave q' (hin.grown q' hq') (hin.enclosing q' hq')
  exact InStep.cons_of_ok he hr hnever trivial

theorem sound_enterVariable (v : VariableDef) (id : NodeId) (p : Pass) :
    Sound s [⟨.enterVariable id v, p.enclosing⟩] p := by
  cases h : s.variableFault? v with
  | none =>
    obtain ⟨q, hstep, hq, hg⟩ := enterVariable_of_sound h id p p.enclosing
    exact sound_of_ok rfl hstep h hq hg
  | some e => exact sound_of_error rfl (enterVariable_of_fault h p) h rfl

section Field

variable {head : FieldHead} {selections : List Selection} {inside : List Turn}

theorem step_enterField {descent : Descent} (h : enterField s id head.name p = .ok descent q) :
    (Move.enterField id head selections).step s p = .ok ⟨⟩ q := by
  rw [Move.step, discard_apply, h]

theorem step_enterField_of_error (h : enterField s id head.name p = .error e q) :
    (Move.enterField id head selections).step s p = .error e q := by
  rw [Move.step, discard_apply, h]

theorem sound_over (h : s.inside? p.enclosing head.name = none) :
    Sound s [⟨.enterField id head selections, p.enclosing⟩] p := by
  cases hf : s.fieldFault? p.enclosing head.name with
  | some e =>
    obtain ⟨q, hstep, hq⟩ := enterField_of_fault hf id
    exact sound_of_error rfl (step_enterField_of_error hstep) hf hq
  | none =>
    obtain ⟨f, q, htyped, hstep, hq, htyping⟩ := enterField_of_over h hf id
    refine sound_of_ok rfl (step_enterField hstep) hf hq ?_
    rw [htyping]
    exact grown_enterField htyped (Schema.children_of_typedInside? htyped)

/-- Entering a field, sound turns inside that type what is selected in it, and leaving it. -/
theorem sound_into (h : s.inside? p.enclosing head.name = some inner)
    (hin : ∀ q, q.enclosing = inner → Sound s inside q) (hid : id ∉ typedNodes inside)
    (hsel : ∀ child ∈ selectedFields id selections, child.1 ∈ typedNodes inside) :
    Sound s (⟨.enterField id head selections, p.enclosing⟩ ::
      (inside ++ [⟨.leaveField id head selections, inner⟩])) p := by
  obtain ⟨f, q, hf, henter, hq, htyping⟩ := enterField_of_into h id
  refine sound_around rfl (step_enterField henter) (Schema.fieldFault?_of_inside? h) rfl
    (hin q hq) ?_
  intro q' hg he
  have hsome : ∀ child ∈ selectedFields id selections, (q'.typing.record? child.1).isSome :=
    fun child hchild => hg.isSome (hsel child hchild)
  rw [htyping] at hg
  rw [hq] at he
  exact ⟨he, leaveField_of_inside h hf he hg hid hsome⟩

end Field

/-- Entering an operation, sound turns inside that type its root fields and its variables, and
leaving it. -/
theorem sound_operation {o : Operation} {root : TypeDef} {inside : List Turn}
    (h : s.root? o.kind = some root)
    (hin : ∀ q, q.enclosing = some root :: p.enclosing → Sound s inside q)
    (hnodes : ∀ node ∈ (Move.leaveOperation id o).nodes, node ∈ typedNodes inside) :
    Sound s (⟨.enterOperation id o, p.enclosing⟩ ::
      (inside ++ [⟨.leaveOperation id o, some root :: p.enclosing⟩])) p := by
  refine sound_around rfl (enterOperation_root h p) ?_ rfl (hin _ rfl) ?_
  · simp [Turn.fault?, h]
  · intro q' hg he
    have hsome : ∀ node ∈ (Move.leaveOperation id o).nodes, (q'.typing.record? node).isSome :=
      fun node hnode => hg.isSome (hnodes node hnode)
    refine ⟨he, _, leaveOperation_of_cons he ?_ ?_, rfl, hg.leave_operation _ _⟩
    · intro child hchild
      exact hsome child.1 (List.mem_append_left _ (List.mem_map_of_mem hchild))
    · intro v hv
      exact hsome v.1 (List.mem_append_right _ (List.mem_map_of_mem hv))

end GraphQLTyping.Pass
