import GraphQLTyping.Proofs.Pass.Discipline

/-!
# The first offence of a document

If all root types are object types, a document has a typing unless something in it **offends**
(`Turn.offence?`), and then typing it fails with the first offence in the order of the walk
(`Document.typing_outcome`).

The turns of a document are in the order of its text, and each has the types around its place: the
first of them is the object type of the nearest field above that has one, and the root type of the
operation if there is none.  As these are all object types, the fault of a turn is its offence.
-/

namespace GraphQLTyping

variable {s : Schema} {turn : Turn}

/-- How a turn **offends**.  An operation does without a root type of its kind.  A variable does with
a type of two lists or more, or else of a name that is not in the schema.  A field does if it is no
meta field and the innermost type around it declares no field of its name. -/
def Turn.offence? (s : Schema) (turn : Turn) : Option TypingError :=
  match turn.move, turn.enclosing with
  | .enterOperation _ o, _ =>
    if (s.root? o.kind).isNone then some (.missingRoot o.kind) else none
  | .enterVariable _ v, _ =>
    if 2 ≤ v.type.listDepth then some (.unsupportedShape ⟨v.type, v.type.unwrapped⟩)
    else if (s.type? v.type.name).isNone then some (.unknownType v.name v.type.name)
    else none
  | .enterField _ head _, some parent :: _ =>
    if (s.metaField? (some parent) head.name).isNone && (parent.fieldType? head.name).isNone then
      some (.undefinedField head.name parent.name)
    else none
  | _, _ => none

/-! ### Faults are offences -/

theorem Schema.variableFault?_eq (v : VariableDef) :
    s.variableFault? v =
      if 2 ≤ v.type.listDepth then some (.unsupportedShape ⟨v.type, v.type.unwrapped⟩)
      else if (s.type? v.type.name).isNone then some (.unknownType v.name v.type.name)
      else none := by
  rw [variableFault?]
  by_cases h : 2 ≤ v.type.listDepth
  · rw [TypeRef.simpleShape_of_le_listDepth h, if_pos h]
  · rw [TypeRef.simpleShape_of_listDepth_lt (Nat.lt_of_not_le h), if_neg h]
    simp only [TypeRef.name_shape]
    cases s.type? v.type.name <;> rfl

/-- A field of an object type fails exactly if it is not defined there. -/
theorem Schema.fieldFault?_of_isObject {parent : TypeDef} (outer : List (Option TypeDef))
    (h : parent.isObject = true) (name : String) :
    s.fieldFault? (some parent :: outer) name =
      if (s.metaField? (some parent) name).isNone && (parent.fieldType? name).isNone then
        some (.undefinedField name parent.name)
      else none := by
  have hfields : parent.hasFields = true := by
    rw [TypeDef.isObject] at h
    rw [TypeDef.hasFields]
    cases hb : parent.body <;> simp [hb] at h ⊢
  have hfields : Pass.fieldMissing name (some parent) = .undefinedField name parent.name := by
    rw [Pass.fieldMissing, if_pos hfields]
  simp only [fieldFault?, typedOutput?, fieldType?, Option.bind_some]
  cases s.metaField? (some parent) name with
  | some field => simp
  | none => cases parent.fieldType? name <;> simp [hfields]

theorem Turn.fault?_eq_offence? (h : Enclosed (·.isObject = true) turn.enclosing)
    (hinside : turn.fault? s ≠ some .outsideOperation) : turn.fault? s = turn.offence? s := by
  obtain ⟨move, enclosing⟩ := turn
  cases move with
  | leaveOperation | leaveField => cases enclosing <;> rfl
  | enterOperation id o =>
    simp only [fault?, offence?]
    cases s.root? o.kind <;> rfl
  | enterVariable id v => exact Schema.variableFault?_eq v
  | enterField id head selections =>
    cases enclosing with
    | nil => exact absurd rfl hinside
    | cons t outer =>
      obtain ⟨parent, rfl, hobject⟩ := h t List.mem_cons_self
      exact Schema.fieldFault?_of_isObject outer hobject head.name

theorem Document.fault_eq_offence (d : Document) (number : Nat)
    (hroots : ∀ kind root, s.root? kind = some root → root.isObject = true) :
    (d.turns s number).findSome? (·.fault? s) = (d.turns s number).findSome? (·.offence? s) := by
  have heq : ∀ turn ∈ d.turns s number, turn.fault? s = turn.offence? s := by
    intro turn hturn
    have hk : Kept s (Enclosed (·.isObject = true)) :=
      kept_enclosed hroots fun _ _ _ _ hf ho => Schema.isObject_of_output hf ho
    exact Turn.fault?_eq_offence? (Document.enclosed hk hturn)
      (Definition.not_outside d.definitions 0 turn hturn)
  generalize d.turns s number = turns at heq
  induction turns with
  | nil => rfl
  | cons turn rest ih =>
    rw [List.findSome?_cons, List.findSome?_cons, heq turn List.mem_cons_self,
      ih fun other hother => heq other (List.mem_cons_of_mem _ hother)]

/-- **The first offence is the outcome.**  Typing a document fails with the first offence of its
turns, and gives a typing if none of them offends. -/
theorem Document.typing_outcome (s : Schema) (d : Document)
    (hroots : ∀ kind root, s.root? kind = some root → root.isObject = true) :
    match (d.turns s 0).findSome? (·.offence? s) with
    | some e => (d.typing s).1 = .error e
    | none => ∃ t, (d.typing s).1 = .ok t := by
  have hout := (d.sound_turns s 0).inStep.outcome
  rw [d.fault_eq_offence 0 hroots] at hout
  rw [d.typing_eq]
  cases hfind : (d.turns s 0).findSome? (·.offence? s) with
  | some e =>
    rw [hfind] at hout
    obtain ⟨q, hq, _⟩ := hout
    simp only [hq]
  | none =>
    rw [hfind] at hout
    obtain ⟨q, hq⟩ := hout
    simp only [hq]
    exact ⟨q.typing, rfl⟩

/-- A field in a field in a field of object type that the innermost of these does not declare. -/
theorem Document.typing_outcome_undefined :
    (∀ kind root, Sample.schema.root? kind = some root → root.isObject = true) ∧
      ((Sample.document "friend" "nme").typing Sample.schema).1 =
        .error (.undefinedField "nme" "User") := by
  have hroots : ∀ kind root, Sample.schema.root? kind = some root → root.isObject = true := by
    intro kind root h
    cases kind with
    | query =>
      have hq : some Sample.query = some root := h
      rw [← Option.some.inj hq]
      rfl
    | mutation | subscription => cases h
  have hfirst : ((Sample.document "friend" "nme").turns Sample.schema 0).findSome?
      (·.offence? Sample.schema) = some (.undefinedField "nme" "User") := by
    decide
  have hout := Document.typing_outcome Sample.schema (Sample.document "friend" "nme") hroots
  rw [hfirst] at hout
  exact ⟨hroots, hout⟩

end GraphQLTyping
