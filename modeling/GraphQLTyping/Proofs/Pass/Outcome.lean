import GraphQLTyping.Proofs.Pass.Records
import GraphQLTyping.Proofs.Pass.Step

/-!
# The outcome of a turn

What entering a variable, an operation or a field does is decided by its turn alone: it fails with
the fault of the turn if there is one, and the pass goes inside a field if the field has an inside.
A failure takes no type in and none away.
-/

namespace GraphQLTyping

variable {s : Schema} {p : Pass} {id : NodeId} {name : String} {enclosing : List (Option TypeDef)}
  {inner : List (Option TypeDef)} {f : TypedField}

namespace Schema

theorem inside?_of_object (hf : s.typedInside? enclosing name = some f)
    (hr : f.resolution = .object) : s.inside? enclosing name = some (some f.type :: enclosing) := by
  rw [inside?, hf, Option.bind_some, hr]

theorem inside?_of_leaf (hf : s.typedInside? enclosing name = some f) (ho : f.resolution ≠ .object)
    (hu : f.resolution ≠ .unclassified) : s.inside? enclosing name = some enclosing := by
  rw [inside?, hf, Option.bind_some]
  cases hr : f.resolution with
  | object => exact absurd hr ho
  | unclassified => exact absurd hr hu
  | scalar | enum => rfl

theorem inside?_of_unclassified (hf : s.typedInside? enclosing name = some f)
    (hu : f.resolution = .unclassified) : s.inside? enclosing name = none := by
  rw [inside?, hf, Option.bind_some, hu]

/-- A field that has an inside is typed, and its own type comes first inside if it is an object
type. -/
theorem typedInside?_of_inside? (h : s.inside? enclosing name = some inner) :
    ∃ f, s.typedInside? enclosing name = some f ∧
      (f.resolution = .object ∧ inner = some f.type :: enclosing ∨
        f.resolution ≠ .object ∧ f.resolution ≠ .unclassified ∧ inner = enclosing) := by
  obtain ⟨f, hf, _⟩ := Option.bind_eq_some_iff.mp h
  refine ⟨f, hf, ?_⟩
  by_cases ho : f.resolution = .object
  · rw [inside?_of_object hf ho] at h
    exact Or.inl ⟨ho, (Option.some.inj h).symm⟩
  · have hu : f.resolution ≠ .unclassified := by
      intro hu
      rw [inside?_of_unclassified hf hu] at h
      cases h
    rw [inside?_of_leaf hf ho hu] at h
    exact Or.inr ⟨ho, hu, (Option.some.inj h).symm⟩

theorem children_of_typedInside? (h : s.typedInside? enclosing name = some f) :
    f.children = .none := by
  obtain ⟨parent, _, h⟩ := Option.bind_eq_some_iff.mp h
  obtain ⟨whole, _, rfl⟩ := Option.map_eq_some_iff.mp h
  rfl

theorem exists_cons_of_typedInside? (h : s.typedInside? enclosing name = some f) :
    ∃ parent outer, enclosing = parent :: outer ∧ s.typedOutput? parent name = some f := by
  obtain ⟨parent, hp, h⟩ := Option.bind_eq_some_iff.mp h
  obtain ⟨outer, rfl⟩ := List.head?_eq_some_iff.mp hp
  exact ⟨parent, outer, rfl, h⟩

/-- A field that resolves to an object has an object type. -/
theorem isObject_of_output {parent : Option TypeDef} (h : s.typedOutput? parent name = some f)
    (hr : f.resolution = .object) : f.type.isObject = true := by
  obtain ⟨whole, _, rfl⟩ := Option.map_eq_some_iff.mp h
  simp only at hr
  split at hr
  · exact TypeDef.outputResolution_eq_object_iff.mp hr
  · cases hr

/-- On a type of the schema, a field that resolves to an object has an object type of the schema. -/
theorem hasObject_of_output {t : TypeDef} (ht : t ∈ s.types)
    (h : s.typedOutput? (some t) name = some f) (hr : f.resolution = .object) :
    s.HasObject f.type := by
  have hobject := isObject_of_output h hr
  refine ⟨?_, hobject⟩
  obtain ⟨whole, _, rfl⟩ := Option.map_eq_some_iff.mp h
  simp only [namedAt_of_mem ht] at hobject ⊢
  cases hn : s.type? whole.shape.name with
  | some type =>
    rw [named_of_type? hn]
    exact mem_types_of_type? hn
  | none =>
    rw [named, hn] at hobject
    cases hobject

theorem fieldFault?_of_inside? (h : s.inside? enclosing name = some inner) :
    s.fieldFault? enclosing name = none := by
  obtain ⟨f, hf, hr⟩ := typedInside?_of_inside? h
  obtain ⟨parent, outer, rfl, hout⟩ := exists_cons_of_typedInside? hf
  have hu : f.resolution ≠ .unclassified := by
    rcases hr with ⟨ho, _⟩ | ⟨_, hu, _⟩
    · rw [ho]
      decide
    · exact hu
  simp [fieldFault?, hout, hu]

end Schema

/-- All types around a place exist and have a property. -/
def Enclosed (P : TypeDef → Prop) (enclosing : List (Option TypeDef)) : Prop :=
  ∀ t ∈ enclosing, ∃ type, t = some type ∧ P type

theorem Enclosed.cons {P : TypeDef → Prop} {type : TypeDef} (h : Enclosed P enclosing)
    (ht : P type) : Enclosed P (some type :: enclosing) := by
  intro t hmem
  rcases List.mem_cons.mp hmem with rfl | hmem
  · exact ⟨type, rfl, ht⟩
  · exact h t hmem

/-- What root types have, and with a type all object types that its fields lead to, all types around a
place have. -/
theorem kept_enclosed {P : TypeDef → Prop}
    (hroot : ∀ kind root, s.root? kind = some root → P root)
    (hobject : ∀ t name f, P t → s.typedOutput? (some t) name = some f → f.resolution = .object →
      P f.type) : Kept s (Enclosed P) where
  root := fun _ kind root h hr => h.cons (hroot kind root hr)
  inside := by
    intro enclosing name inner h hin
    obtain ⟨f, hf, ⟨ho, rfl⟩ | ⟨_, _, rfl⟩⟩ := Schema.typedInside?_of_inside? hin
    · obtain ⟨parent, outer, rfl, hout⟩ := Schema.exists_cons_of_typedInside? hf
      obtain ⟨t, rfl, ht⟩ := h parent List.mem_cons_self
      exact h.cons (hobject t name f ht hout ho)
    · exact h

theorem Document.enclosed {P : TypeDef → Prop} {d : Document} {n : Nat} {turn : Turn}
    (hk : Kept s (Enclosed P)) (hturn : turn ∈ d.turns s n) : Enclosed P turn.enclosing := by
  refine Definition.forall_enclosing hk ?_ d.definitions 0 turn hturn
  intro t ht
  cases ht

namespace Pass

/-! ### Operations and variables -/

theorem enterVariable_of_fault {v : VariableDef} {e : TypingError}
    (h : s.variableFault? v = some e) (p : Pass) :
    enterVariable s id v.name v.type p = .error e p := by
  rw [Schema.variableFault?] at h
  cases hs : v.type.simpleShape with
  | error shape =>
    rw [hs] at h
    cases h
    exact enterVariable_unsupported hs p
  | ok shape =>
    rw [hs] at h
    cases ht : s.type? shape.name with
    | none =>
      simp only [ht, Option.isSome_none, Bool.false_eq_true, if_false, Option.some.injEq] at h
      rw [← h]
      exact enterVariable_unknown hs ht p
    | some bare => simp [ht] at h

/-- A variable that can be typed is recorded. -/
theorem enterVariable_of_sound {v : VariableDef} (h : s.variableFault? v = none) (id : NodeId)
    (p : Pass) (enclosing : List (Option TypeDef)) :
    ∃ q, enterVariable s id v.name v.type p = .ok ⟨⟩ q ∧ q.enclosing = p.enclosing ∧
      Grown s [⟨.enterVariable id v, enclosing⟩] p.typing q.typing := by
  rw [Schema.variableFault?] at h
  cases hs : v.type.simpleShape with
  | error shape =>
    rw [hs] at h
    cases h
  | ok shape =>
    cases hb : s.type? shape.name with
    | none => simp [hs, hb] at h
    | some bare =>
      by_cases ho : bare.inputResolution = .object
      · obtain ⟨hadd, hfind⟩ := InputLists.resolve_adds (Schema.mem_types_of_type? hb)
          (TypeDef.inputResolution_eq_object_iff.mp ho) p.typing.inputs
        exact ⟨_, enterVariable_object hs hb ho p, rfl,
          grown_enterVariable hs hb hadd (fun _ => ⟨_, hfind, rfl⟩) fun hn => absurd ho hn⟩
      · have hgrown : Grown s [⟨.enterVariable id v, enclosing⟩] p.typing
            (p.typing.addVariable id (TypedField.ofVariable v.name shape bare)) :=
          grown_enterVariable hs hb (InputLists.Adds.refl s p.typing.inputs)
            (fun h => absurd h ho) fun _ => rfl
        by_cases hu : bare.inputResolution = .unclassified
        · exact ⟨_, enterVariable_unclassified hs hb hu p, rfl, hgrown⟩
        · exact ⟨_, enterVariable_leaf hs hb ho hu p, rfl, hgrown⟩

/-! ### Fields -/

theorem enterField_of_fault {e : TypingError} (h : s.fieldFault? p.enclosing name = some e)
    (id : NodeId) :
    ∃ q, enterField s id name p = .error e q ∧ q.enclosing = p.enclosing := by
  cases hp : p.enclosing with
  | nil =>
    rw [hp] at h
    cases h
    exact ⟨p, enterField_of_nil hp, hp⟩
  | cons parent outer =>
    rw [hp, Schema.fieldFault?] at h
    cases hf : s.typedOutput? parent name with
    | none =>
      rw [hf] at h
      cases h
      exact ⟨p, enterField_missing hp hf, hp⟩
    | some f =>
      simp only [hf] at h
      split at h
      · next hno =>
        cases h
        rw [Bool.and_eq_true, Option.isNone_iff_eq_none, decide_eq_true_eq] at hno
        obtain ⟨rfl, hu⟩ := hno
        exact ⟨_, enterField_nowhere hp hf hu, hp⟩
      · cases h

/-- A field that can be typed and has no inside is passed over. -/
theorem enterField_of_over (h : s.inside? p.enclosing name = none)
    (hfault : s.fieldFault? p.enclosing name = none) (id : NodeId) :
    ∃ f q, s.typedInside? p.enclosing name = some f ∧ enterField s id name p = .ok .over q ∧
      q.enclosing = p.enclosing ∧ q.typing = p.typing.add id f := by
  cases hp : p.enclosing with
  | nil =>
    rw [hp] at hfault
    cases hfault
  | cons parent outer =>
    rw [hp, Schema.fieldFault?] at hfault
    cases hf : s.typedOutput? parent name with
    | none =>
      rw [hf] at hfault
      cases hfault
    | some f =>
      have htyped : s.typedInside? (parent :: outer) name = some f := hf
      have hu : f.resolution = .unclassified := by
        by_contra hu
        rw [hp] at h
        by_cases ho : f.resolution = .object
        · rw [Schema.inside?_of_object htyped ho] at h
          cases h
        · rw [Schema.inside?_of_leaf htyped ho hu] at h
          cases h
      cases parent with
      | none => simp [hf, hu] at hfault
      | some t => exact ⟨f, _, htyped, enterField_unclassified hp hf hu, hp, rfl⟩

/-- A field that has an inside is gone into. -/
theorem enterField_of_into (h : s.inside? p.enclosing name = some inner) (id : NodeId) :
    ∃ f q, s.typedInside? p.enclosing name = some f ∧ enterField s id name p = .ok .into q ∧
      q.enclosing = inner ∧ q.typing = p.typing.add id f := by
  obtain ⟨f, htyped, hr⟩ := Schema.typedInside?_of_inside? h
  obtain ⟨parent, outer, hp, hf⟩ := Schema.exists_cons_of_typedInside? htyped
  rcases hr with ⟨ho, rfl⟩ | ⟨ho, hu, rfl⟩
  · exact ⟨f, _, htyped, enterField_object hp hf ho, rfl, rfl⟩
  · exact ⟨f, _, htyped, enterField_leaf hp hf ho hu, rfl, rfl⟩

/-- A field that was gone into is left: what its inside is enclosed in is as it was on entering, and
all fields selected in it have been typed. -/
theorem leaveField_of_inside {head : FieldHead} {selections : List Selection}
    {inside : List Turn} {t : Typing} (hin : s.inside? enclosing head.name = some inner)
    (hf : s.typedInside? enclosing head.name = some f) (hp : p.enclosing = inner)
    (hg : Grown s inside (t.add id f) p.typing) (hid : id ∉ typedNodes inside)
    (hsome : ∀ child ∈ selectedFields id selections, (p.typing.record? child.1).isSome) :
    ∃ q, leaveField id head.name (selectedFields id selections) p = .ok ⟨⟩ q ∧
      q.enclosing = enclosing ∧
      Grown s (⟨.enterField id head selections, enclosing⟩ ::
        (inside ++ [⟨.leaveField id head selections, inner⟩])) t q.typing := by
  obtain ⟨hrec, hfield⟩ := hg.own_record hid
  obtain ⟨f', hf', hr⟩ := Schema.typedInside?_of_inside? hin
  rw [hf] at hf'
  cases hf'
  rcases hr with ⟨ho, rfl⟩ | ⟨ho, _, rfl⟩
  · exact ⟨_, leaveField_of_object hrec hfield ho hp hsome, rfl,
      hg.leave_object hid hf ho hsome⟩
  · exact ⟨p, leaveField_of_leaf hrec hfield ho, hp,
      hg.leave_leaf hid hf (Schema.children_of_typedInside? hf) ho⟩

end Pass

end GraphQLTyping
