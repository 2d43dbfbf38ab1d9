import GraphQLTyping.Proofs.Schema.Names
import GraphQLTyping.Typing.Document

/-!
# What typing needs of validation

Of all that makes a document valid, typing needs little (`Schema.Admits`): queries have a root and all
roots are object types, variables have input types, and every field is one of the type on which it is
selected and has selections only if it may.  Valid documents of valid schemas have that
(`Schema.admits_of_checkValid`), as none of these rules has a fault then.
-/

namespace GraphQLTyping

variable {s : Schema} {d : Document} {o : Operation} {e : Executable}

namespace Schema

/-- A field **fits** a type on which it is selected: the type has it, as a meta field or by
declaration, and nothing is selected in it if it is of a leaf type. -/
def Fits (s : Schema) (parent : TypeDef) (name : String) (selections : List Selection) : Prop :=
  ∃ field, s.fieldDef? parent name = some field ∧
    ((s.named field.type.name).isLeaf = true → selections = [])

/-- A schema **admits** a document if the document keeps the rules that typing relies on. -/
structure Admits (s : Schema) (d : Document) : Prop where
  queryRoot : ∃ root, s.root? .query = some root
  roots : ∀ kind root, s.root? kind = some root → root.isObject = true
  inputs : ∀ o ∈ d.operations, ∀ v ∈ o.variableDefs,
    ∃ t, s.type? v.type.name = some t ∧ t.isInput = true
  fields : ∀ e ∈ d.executables, ∀ parent head selections,
    .field (some parent) head selections ∈ e.sites s → s.Fits parent head.name selections

/-! ### Valid schemas -/

theorem root?_of_isValid (h : s.isValid = true) :
    (∃ root, s.root? .query = some root) ∧
      ∀ kind root, s.root? kind = some root → root.isObject = true := by
  have hroots : s.rootsAreObjects = true := by
    simp only [isValid, Bool.and_eq_true] at h
    exact h.1.1
  simp only [rootsAreObjects, Bool.and_eq_true, List.all_eq_true] at hroots
  obtain ⟨hquery, hall⟩ := hroots
  have hone : ∀ kind, s.rootName? kind ∈ [s.query, s.mutation, s.subscription] := by
    intro kind
    cases kind <;> simp [rootName?]
  refine ⟨?_, ?_⟩
  · have hq := hall _ (hone .query)
    cases hr : s.root? .query with
    | some root => exact ⟨root, rfl⟩
    | none =>
      rw [root?] at hr
      rw [hr] at hq
      rw [rootName?] at hq
      simp [Option.isSome_iff_ne_none] at hquery
      simp [hquery] at hq
  · intro kind root hr
    have hk := hall _ (hone kind)
    rw [root?] at hr
    rw [hr] at hk
    exact hk

end Schema

/-! ### Valid documents -/

namespace Document

theorem mem_operations : o ∈ d.operations ↔ .operation o ∈ d.definitions := by
  rw [operations, List.mem_filterMap]
  constructor
  · rintro ⟨definition, hmem, heq⟩
    cases definition <;> cases heq
    exact hmem
  · exact fun hmem => ⟨_, hmem, rfl⟩

theorem mem_executables (h : .operation o ∈ d.definitions) : .operation o ∈ d.executables :=
  List.mem_filterMap.mpr ⟨_, h, rfl⟩

theorem isValid_of_verdict (h : d.verdict s = .valid) : d.isValid s = true := by
  rw [verdict] at h
  split at h
  next =>
    dsimp only at h
    split at h <;> cases h
  next => cases h
  next =>
    split at h
    next hvalid => exact hvalid
    next => cases h

theorem total_eq_zero {α : Type} {f : α → Nat} {xs : List α} (h : total f xs = 0) :
    ∀ x ∈ xs, f x = 0 := by
  induction xs with
  | nil => simp
  | cons y rest ih =>
    rw [total, List.foldr_cons, Nat.add_eq_zero_iff] at h
    exact List.forall_mem_cons.mpr ⟨h.1, ih h.2⟩

/-- In a valid document no definition is of a type system, and none has faults of types. -/
theorem faults_of_isValid (h : d.isValid s = true) :
    d.typeSystem = [] ∧ ∀ e ∈ d.executables, e.typeFaults d s = 0 := by
  rw [isValid, Bool.and_eq_true, Bool.not_eq_true', hasMoreFaults] at h
  obtain ⟨h, _⟩ := h
  simp only [Bool.or_eq_false_iff, decide_eq_false_iff_not, Nat.not_lt, Nat.le_zero,
    Nat.add_eq_zero_iff, List.length_eq_zero_iff] at h
  obtain ⟨⟨⟨⟨hsystem, _⟩, hin⟩, _⟩, _⟩ := h
  refine ⟨hsystem, fun e he => ?_⟩
  rw [faultsIn, Nat.add_eq_zero_iff] at hin
  have hof := total_eq_zero hin.2 e he
  simp only [faultsOf, Nat.add_eq_zero_iff] at hof
  exact hof.1.1.1.1

theorem definesType_eq_false (h : d.typeSystem = []) (name : String) :
    d.definesType name = false := by
  rw [definesType, h]
  rfl

end Document

namespace Executable

theorem inputs_of_typeFaults (hd : d.typeSystem = [])
    (h : (Executable.operation o).typeFaults d s = 0) :
    ∀ v ∈ o.variableDefs, ∃ t, s.type? v.type.name = some t ∧ t.isInput = true := by
  intro v hv
  rw [typeFaults, Nat.add_eq_zero_iff, List.countP_eq_zero] at h
  have hvalid := h.1 v hv
  rw [Bool.not_eq_true, Bool.not_eq_false', Document.variableTypeIsValid] at hvalid
  split at hvalid
  next t ht => exact ⟨t, ht, hvalid⟩
  next =>
    rw [Document.definesType_eq_false hd] at hvalid
    cases hvalid

theorem fits_of_typeFaults (h : e.typeFaults d s = 0) {parent : TypeDef} {head : FieldHead}
    {selections : List Selection} (hsite : .field (some parent) head selections ∈ e.sites s) :
    s.Fits parent head.name selections := by
  unfold typeFaults at h
  rw [Nat.add_eq_zero_iff, List.countP_eq_zero] at h
  have hvalid := h.2 _ hsite
  rw [Bool.not_eq_true, Bool.not_eq_false', Site.typeIsValid, Schema.fieldIsKnown] at hvalid
  cases hfield : s.fieldDef? parent head.name with
  | none =>
    rw [hfield] at hvalid
    cases hvalid
  | some field =>
    rw [hfield] at hvalid
    refine ⟨field, hfield, fun hleaf => ?_⟩
    have hfit : s.selectionsFit field selections = true := hvalid
    rw [Schema.selectionsFit, hleaf] at hfit
    simpa using hfit

end Executable

/-- **Valid documents of valid schemas are admitted.** -/
theorem Schema.admits_of_checkValid (h : s.checkValid d = .ok ()) : s.Admits d := by
  rw [checkValid] at h
  split at h
  next => cases h
  next hschema =>
    rw [Bool.not_eq_true', Bool.not_eq_false] at hschema
    obtain ⟨hquery, hroots⟩ := root?_of_isValid hschema
    split at h
    next hverdict =>
      obtain ⟨hsystem, hfaults⟩ := Document.faults_of_isValid (Document.isValid_of_verdict hverdict)
      refine ⟨hquery, hroots, ?_, ?_⟩
      · intro o ho
        rw [Document.mem_operations] at ho
        exact Executable.inputs_of_typeFaults hsystem (hfaults _ (Document.mem_executables ho))
      · exact fun e he parent head selections => Executable.fits_of_typeFaults (hfaults e he)
    next => cases h
    next => cases h

end GraphQLTyping
