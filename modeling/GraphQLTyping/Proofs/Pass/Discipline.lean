import GraphQLTyping.Proofs.Pass.Walks
import GraphQLTyping.Proofs.Sample

/-!
# Enclosing types are taken away as they were taken in

A walk leaves the types that enclose a pass at its start where they are, takes each type that it
takes in away again, and never finds its own records broken (`Pass.walk_discipline`).  This holds of
every pass that was not used before, whatever encloses it and whatever is noted in it, and of every
place from which a walk can start (`Pass.Start`).

Only entering something can fail, as the turns of a sound row fail with their faults alone; and every
turn of a walk is enclosed in what enclosed its start.  As a turn takes in or away one type at most,
what encloses the pass between turns is all that has to be looked at.
-/

namespace GraphQLTyping

variable {s : Schema} {p q : Pass} {turn : Turn} {before after turns : List Turn} {e : TypingError}

/-- Whether an error says that a pass is broken, and no document or schema is to blame. -/
def TypingError.isBug : TypingError → Bool
  | .childNotTyped _ | .variableNotTyped _ | .neverEntered _ | .wrongTypeLeft .. => true
  | .leftEnclosed _ => true
  | _ => false

theorem Pass.of_fieldMissing (name : String) (parent : Option TypeDef) :
    (fieldMissing name parent).isBug = false ∧ fieldMissing name parent ≠ .nothingEnclosing ∧
      fieldMissing name parent ≠ .outsideOperation := by
  cases parent with
  | none => exact ⟨rfl, by simp [fieldMissing], by simp [fieldMissing]⟩
  | some t =>
    rw [fieldMissing]
    split <;> exact ⟨rfl, by simp, by simp⟩

/-- No fault of a turn is a bug, none comes from taking away what is not there, and only a field that
nothing encloses is outside of all operations. -/
theorem Turn.of_fault? (h : turn.fault? s = some e) :
    e.isBug = false ∧ e ≠ .nothingEnclosing ∧
      (e = .outsideOperation →
        turn.enclosing = [] ∧ ∃ id head selections, turn.move = .enterField id head selections) := by
  obtain ⟨move, enclosing⟩ := turn
  cases move with
  | leaveOperation | leaveField => cases h
  | enterOperation id o =>
    simp only [fault?] at h
    split at h <;> cases h
    exact ⟨rfl, by simp, by simp⟩
  | enterVariable id v =>
    simp only [fault?, Schema.variableFault?] at h
    split at h
    · cases h
      exact ⟨rfl, by simp, by simp⟩
    · split at h <;> cases h
      exact ⟨rfl, by simp, by simp⟩
  | enterField id head selections =>
    simp only [fault?, Schema.fieldFault?] at h
    split at h
    · cases h
      exact ⟨rfl, by simp, fun _ => ⟨rfl, id, head, selections, rfl⟩⟩
    · split at h
      · cases h
        obtain ⟨hbug, hnothing, hinside⟩ := Pass.of_fieldMissing head.name _
        exact ⟨hbug, hnothing, fun hout => absurd hout hinside⟩
      · split at h <;> cases h
        exact ⟨rfl, by simp, by simp⟩

/-- The fields of an operation are inside of it. -/
theorem Operation.not_outside {o : Operation} {enclosing : List (Option TypeDef)} {n k : Nat}
    {steps : List Nat} :
    ∀ turn ∈ o.turns s enclosing ⟨n, .within k steps⟩,
      turn.fault? s ≠ some .outsideOperation := by
  intro turn hturn hfault
  obtain ⟨hnil, id, head, selections, hmove⟩ := (Turn.of_fault? hfault).2.2 rfl
  cases h : s.root? o.kind with
  | none =>
    rw [turns_missing h, List.mem_singleton] at hturn
    rw [hturn] at hmove
    cases hmove
  | some root =>
    rw [turns_root h, turnsInside, List.mem_cons, List.mem_append, List.mem_append,
      List.mem_singleton] at hturn
    rcases hturn with rfl | (hturn | hturn) | rfl
    · cases hmove
    · rw [VariableDef.enclosing_eq _ _ turn hturn] at hnil
      cases hnil
    · have hsuffix := Selection.forall_enclosing (kept_suffix s _) _ _ _ _ List.suffix_rfl turn hturn
      rw [hnil] at hsuffix
      cases List.suffix_nil.mp hsuffix
    · cases hmove

theorem Definition.not_outside {enclosing : List (Option TypeDef)} {n : Nat}
    (ds : List Definition) (i : Nat) :
    ∀ turn ∈ turnsFrom s enclosing n i ds, turn.fault? s ≠ some .outsideOperation := by
  induction ds generalizing i with
  | nil =>
    intro turn hturn
    cases hturn
  | cons d rest ih =>
    intro turn hturn
    cases d with
    | operation o =>
      rcases List.mem_append.mp hturn with hturn | hturn
      · exact Operation.not_outside turn hturn
      · exact ih (i + 1) turn hturn
    | fragment | typeSystem => exact ih (i + 1) turn hturn

/-- A path of a variable leads to a variable. -/
theorem Document.exists_within_of_node? {d : Document} {path : NodePath} {node : Node}
    (h : d.node? path = some node) (hv : ∀ v, node ≠ .variable v) :
    ∃ k steps, path = .within k steps := by
  obtain ⟨k, steps⟩ | ⟨k, i⟩ := path
  · exact ⟨k, steps, rfl⟩
  · simp only [Document.node?] at h
    split at h
    · obtain ⟨v, _, hnode⟩ := Option.map_eq_some_iff.mp h
      exact absurd hnode.symm (hv v)
    · cases h

namespace Pass

/-- The pass after turns, or as one of them that fails leaves it. -/
def afterTurns (s : Schema) (turns : List Turn) (p : Pass) : Pass :=
  match takeTurns s turns p with
  | .ok _ q => q
  | .error _ q => q

/-- Whatever encloses the start and all turns of a sound row encloses the pass throughout. -/
theorem Sound.suffix (h : Sound s (before ++ after) p)
    (hs : ∀ turn ∈ before ++ after, p.enclosing <:+ turn.enclosing) :
    p.enclosing <:+ (afterTurns s before p).enclosing := by
  rw [afterTurns]
  cases hb : takeTurns s before p with
  | error e q =>
    obtain ⟨turn, hturn, _, he⟩ := h.inStep.of_append.exists_fault hb
    simp only [he]
    exact hs turn (List.mem_append_left _ hturn)
  | ok _ q =>
    cases after with
    | nil =>
      rw [List.append_nil] at h
      simp only [h.enclosing q hb]
      exact List.suffix_rfl
    | cons turn rest =>
      simp only [h.inStep.enclosing_eq hb]
      exact hs turn (by simp)

/-- Where a walk of a pass can **start**: at a document, at an operation of it, or at a field of it
that is not passed over.  With the walk come its turns. -/
inductive Start (s : Schema) (p : Pass) (number : Nat) (d : Document) :
    Step Unit → List Turn → Prop
  | document :
    Start s p number d (walkDefinitions s number 0 d.definitions)
      (Definition.turnsFrom s p.enclosing number 0 d.definitions)
  | operation (path : NodePath) {o : Operation} (h : d.node? path = some (.operation o)) :
    Start s p number d (walkNode s ⟨number, path⟩ (.operation o))
      (o.turns s p.enclosing ⟨number, path⟩)
  | field (path : NodePath) {head : FieldHead} {selections : List Selection}
    (h : d.node? path = some (.field head selections))
    (hover : ∀ q, enterField s ⟨number, path⟩ head.name p ≠ .ok .over q) :
    Start s p number d (walkNode s ⟨number, path⟩ (.field head selections))
      ((Selection.field head selections).turns s p.enclosing ⟨number, path⟩)

/-- From wherever a walk starts, it takes its turns, these are sound, and all are enclosed in what
encloses the start. -/
theorem Start.sound {number : Nat} {d : Document} {walk : Step Unit}
    (h : Start s p number d walk turns) :
    walk p = takeTurns s turns p ∧ Sound s turns p ∧
      ∀ turn ∈ turns, p.enclosing <:+ turn.enclosing := by
  cases h with
  | document =>
    exact ⟨walkDefinitions_eq _ 0 p, Definition.sound_turns _ 0 p,
      Definition.forall_enclosing (kept_suffix s _) List.suffix_rfl _ 0⟩
  | operation path h =>
    obtain ⟨k, steps, rfl⟩ := Document.exists_within_of_node? h (by simp)
    exact ⟨walkOperation_eq _ p, Operation.sound_turns _ p,
      Operation.forall_enclosing (kept_suffix s _) List.suffix_rfl⟩
  | field path h hover =>
    obtain ⟨k, steps, rfl⟩ := Document.exists_within_of_node? h (by simp)
    exact ⟨walkNode_field_eq hover, Selection.sound_field _ _ p,
      Selection.forall_enclosing_field (kept_suffix s _) List.suffix_rfl⟩

/-- On a document, a new pass never finds itself broken, and never that nothing encloses a place. -/
theorem typeDocument_error {number : Nat} {d : Document}
    (h : typeDocument s number d {} = .error e q) :
    e.isBug = false ∧ e ≠ .nothingEnclosing ∧ e ≠ .outsideOperation := by
  rw [typeDocument_eq] at h
  obtain ⟨turn, hturn, hfault, _⟩ := (Document.sound_turns s number d).inStep.exists_fault h
  obtain ⟨hbug, hnothing, _⟩ := Turn.of_fault? hfault
  refine ⟨hbug, hnothing, ?_⟩
  rintro rfl
  exact Definition.not_outside _ _ turn hturn hfault

/-- **Enclosing types are taken away as they were taken in.**  A walk of an unused pass keeps what
encloses its start throughout, is enclosed in nothing more at the end, and never finds the pass
broken; so the pass complains of types that are left exactly if there were some at the start.  On a
document, a new pass never complains that it is broken or that nothing encloses a place. -/
theorem walk_discipline (s : Schema) (number : Nat) (d : Document) :
    (∀ p : Pass, p.used = false → ∀ walk turns, Start s { p with used := true } number d walk turns →
      walk { p with used := true } = takeTurns s turns { p with used := true } ∧
      (∀ before after, turns = before ++ after →
        p.enclosing <:+ (afterTurns s before { p with used := true }).enclosing) ∧
      (∀ e q, walk { p with used := true } = .error e q →
        e.isBug = false ∧ e ≠ .nothingEnclosing) ∧
      (∀ q, walk { p with used := true } = .ok ⟨⟩ q → q.enclosing = p.enclosing) ∧
      complete walk p = match walk { p with used := true } with
        | .error e q => .error e q
        | .ok _ q =>
          if p.enclosing = [] then .ok ⟨⟩ q
          else .error (.leftEnclosed p.enclosing.length) q) ∧
    ∀ e q, typeDocument s number d {} = .error e q →
      e.isBug = false ∧ e ≠ .nothingEnclosing ∧ e ≠ .outsideOperation := by
  refine ⟨?_, fun e q he => typeDocument_error he⟩
  intro p hu walk turns hstart
  obtain ⟨hwalk, hsound, hsuffix⟩ := hstart.sound
  have hend : ∀ q, walk { p with used := true } = .ok ⟨⟩ q → q.enclosing = p.enclosing :=
    fun q hq => hsound.enclosing q (by rw [← hwalk, hq])
  refine ⟨hwalk, ?_, ?_, hend, ?_⟩
  · rintro before after rfl
    exact hsound.suffix hsuffix
  · intro e q he
    rw [hwalk] at he
    obtain ⟨turn, _, hfault, _⟩ := hsound.inStep.exists_fault he
    exact ⟨(Turn.of_fault? hfault).1, (Turn.of_fault? hfault).2.1⟩
  · rw [complete_of_unused hu]
    cases hq : walk { p with used := true } with
    | error e q => rfl
    | ok _ q => simp only [hend q hq]

/-- A pass that something encloses already may start from a field of it, and finds it at the end. -/
theorem walk_discipline_of_me :
    ∃ q, complete (walkNode Sample.schema ⟨0, .within 0 [0]⟩
        (.field (Sample.head "me")
          [.field (Sample.head "friend") [.field (Sample.head "name") []]]))
      { enclosing := [some Sample.query] } = .error (.leftEnclosed 1) q := by
  have hover : ∀ q, enterField Sample.schema ⟨0, .within 0 [0]⟩ "me"
      { used := true, enclosing := [some Sample.query] } ≠ .ok .over q := by
    intro q h
    rw [enterField_object rfl rfl rfl] at h
    cases h
  obtain ⟨_, _, _, _, h⟩ := (walk_discipline Sample.schema 0 (Sample.document "friend" "name")).1
    { enclosing := [some Sample.query] } rfl _ _ (Start.field (.within 0 [0]) rfl hover)
  exact ⟨_, h⟩

end Pass

end GraphQLTyping
