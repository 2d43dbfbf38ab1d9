import GraphQLTyping.Proofs.Schema.Names
import GraphQLTyping.Schema.Build
import Mathlib.Data.Option.Basic

/-!
# Schemas that are built

A schema that is built from a text declares every field once (`Schema.declaresOnce_of_parse`): the
text does, and settling the defaults of a type changes none of the names that it declares.  And it has
the types of the meta fields (`Schema.hasMetaTypes_of_parse`), since they are added to whatever the
text defines and all types have to settle.
-/

namespace GraphQLTyping

variable {d : Document} {s : Schema} {types settled : List TypeDef} {t u : TypeDef}

/-! ### Settling -/

theorem InputDef.name_of_settle? {i j : InputDef} (h : i.settle? types settled = some j) :
    j.name = i.name := by
  rw [settle?] at h
  cases hd : i.default with
  | none =>
    rw [hd] at h
    cases h
    rfl
  | some literal =>
    rw [hd] at h
    obtain ⟨conforms, _, hj⟩ := Option.bind_eq_some_iff.mp h
    cases conforms <;>
    · cases hj
      rfl

theorem map_eq_of_mapM {α β γ : Type} {f : α → Option β} {g : α → γ} {g' : β → γ}
    (hf : ∀ a b, f a = some b → g' b = g a) {as : List α} {bs : List β} (h : as.mapM f = some bs) :
    bs.map g' = as.map g := by
  induction as generalizing bs with
  | nil =>
    cases h
    rfl
  | cons a rest ih =>
    rw [List.mapM_cons] at h
    obtain ⟨b, hb, h⟩ := Option.bind_eq_some_iff.mp h
    obtain ⟨more, hmore, h⟩ := Option.bind_eq_some_iff.mp h
    cases h
    rw [List.map_cons, List.map_cons, hf a b hb, ih hmore]

/-- A settled input object type was one before, with the fields that it declares. -/
theorem TypeDef.of_settle? (h : t.settle? types settled = some u) (hu : u.isInputObject = true) :
    t.isInputObject = true ∧ u.body.partNames = t.body.partNames := by
  obtain ⟨name, body⟩ := t
  cases body with
  | input fields exactlyOne =>
    obtain ⟨fields', hfields, hu'⟩ := Option.bind_eq_some_iff.mp h
    cases hu'
    exact ⟨rfl, map_eq_of_mapM (fun _ _ => InputDef.name_of_settle?) hfields⟩
  | object interfaces fields | interface interfaces fields =>
    obtain ⟨fields', _, hu'⟩ := Option.bind_eq_some_iff.mp h
    cases hu'
    cases hu
  | scalar | union members | enum values =>
    cases h
    cases hu

theorem TypeDef.name_of_settle? (h : t.settle? types settled = some u) : u.name = t.name := by
  obtain ⟨name, body⟩ := t
  cases body with
  | input fields exactlyOne | object interfaces fields | interface interfaces fields =>
    obtain ⟨_, _, hu⟩ := Option.bind_eq_some_iff.mp h
    cases hu
    rfl
  | scalar | union members | enum values =>
    cases h
    rfl

theorem exists_settledWithin_eq (rounds : Nat)
    (h : ∃ before, settled = types.filterMap (·.settle? types before)) :
    ∃ before, settledWithin types rounds settled = types.filterMap (·.settle? types before) := by
  induction rounds generalizing settled with
  | zero => exact h
  | succ rounds ih =>
    rw [settledWithin]
    split
    · exact h
    · exact ih ⟨settled, rfl⟩

/-- The settled types are those that can be settled when some others are. -/
theorem exists_settledTypes_eq (types : List TypeDef) :
    ∃ before, settledTypes types = types.filterMap (·.settle? types before) := by
  rw [settledTypes, settledWithin]
  split
  next hlength => exact ⟨[], (List.eq_nil_of_length_eq_zero hlength).symm⟩
  next => exact exists_settledWithin_eq _ ⟨[], rfl⟩

/-- If as many types are settled as there are, each of them is. -/
theorem exists_mem_settledTypes (hlength : (settledTypes types).length = types.length)
    (ht : t ∈ types) : ∃ u ∈ settledTypes types, u.name = t.name := by
  obtain ⟨before, hsettled⟩ := exists_settledTypes_eq types
  rw [hsettled, List.filterMap_length_eq_length] at hlength
  obtain ⟨u, hu⟩ := Option.isSome_iff_exists.mp (hlength t ht)
  rw [hsettled]
  exact ⟨u, List.mem_filterMap.mpr ⟨t, ht, hu⟩, TypeDef.name_of_settle? hu⟩

/-! ### Definitions -/

/-- None of the standard types is an input object type. -/
theorem Introspection.not_isInputObject :
    ∀ t ∈ Introspection.types ++ ownScalars ++ namedScalars, t.isInputObject = false := by
  decide

theorem Document.mem_definedTypes (ht : t ∈ d.allTypes) (hi : t.isInputObject = true) :
    t ∈ d.definedTypes := by
  rw [allTypes, List.mem_append, List.mem_append] at ht
  rcases ht with (ht | ht) | ht
  · exact (List.mem_filter.mp ht).1
  · rw [Introspection.not_isInputObject t (List.mem_append_left _ ht)] at hi
    cases hi
  · rw [Introspection.not_isInputObject t
      (List.mem_append_right _ (List.mem_filter.mp ht).1)] at hi
    cases hi

theorem Document.nodup_partNames (h : d.definitionsFit = true) (ht : t ∈ d.definedTypes) :
    t.body.partNames.Nodup := by
  have honce : d.definesOnce = true := by
    simp only [definitionsFit, Bool.and_eq_true] at h
    exact h.1.2
  simp only [definesOnce, Bool.and_eq_true, List.all_eq_true, decide_eq_true_eq] at honce
  exact (honce.1.2 t ht).1

theorem TypeDef.declared_map_eq (hi : t.isInputObject = true) :
    t.declared.map (·.1) = t.body.partNames := by
  obtain ⟨name, body⟩ := t
  cases body with
  | input fields exactlyOne => simp [declared, TypeBody.partNames]
  | object | interface | scalar | union | enum => cases hi

namespace Schema

theorem types_of_ofDocument? (h : ofDocument? d = some s) :
    d.definitionsFit = true ∧ s.types = settledTypes d.allTypes ∧
      (settledTypes d.allTypes).length = d.allTypes.length := by
  rw [ofDocument?] at h
  split at h
  next hfit =>
    simp only [Bool.and_eq_true] at hfit
    obtain ⟨_, hguard, h⟩ := Option.bind_eq_some_iff.mp h
    obtain ⟨directives, _, h⟩ := Option.bind_eq_some_iff.mp h
    refine ⟨hfit.1.1, ?_, by simpa using hguard⟩
    rw [ofParts?] at h
    split at h
    · split at h
      · split at h
        · split at h
          · cases h
            rfl
          · cases h
        · cases h
      · cases h
    · cases h
  next => cases h

theorem declaresOnce_of_ofDocument? (h : ofDocument? d = some s) : s.DeclaresOnce := by
  obtain ⟨hfit, htypes, _⟩ := types_of_ofDocument? h
  obtain ⟨before, hsettled⟩ := exists_settledTypes_eq d.allTypes
  intro u hu hi
  rw [htypes, hsettled] at hu
  obtain ⟨t, ht, hsettle⟩ := List.mem_filterMap.mp hu
  obtain ⟨hti, hnames⟩ := TypeDef.of_settle? hsettle hi
  rw [TypeDef.declared_map_eq hi, hnames]
  exact Document.nodup_partNames hfit (Document.mem_definedTypes ht hti)

theorem hasMetaTypes_of_ofDocument? (h : ofDocument? d = some s) : s.HasMetaTypes := by
  obtain ⟨_, htypes, hlength⟩ := types_of_ofDocument? h
  intro name hname
  obtain ⟨t, ht, rfl⟩ : ∃ t ∈ Introspection.types ++ Introspection.ownScalars, t.name = name := by
    revert name
    decide
  have hall : t ∈ d.allTypes := List.mem_append_left _ (List.mem_append_right _ ht)
  obtain ⟨u, hu, heq⟩ := exists_mem_settledTypes hlength hall
  rw [← htypes] at hu
  rw [← heq, type?_name hu]
  rfl

/-- What is read from a text is what its definitions define. -/
theorem exists_ofDocument?_of_parse {source : String} (h : parse source = .ok s) :
    ∃ d, ofDocument? d = some s := by
  rw [parse] at h
  split at h
  next => cases h
  next d _ =>
    split at h
    · cases h
    · split at h
      next schema hs =>
        cases h
        exact ⟨d, hs⟩
      next => cases h

/-- **A schema that is built from a text declares every field once.** -/
theorem declaresOnce_of_parse {source : String} (h : parse source = .ok s) : s.DeclaresOnce := by
  obtain ⟨_, hd⟩ := exists_ofDocument?_of_parse h
  exact declaresOnce_of_ofDocument? hd

/-- **A schema that is built from a text has the types of the meta fields.** -/
theorem hasMetaTypes_of_parse {source : String} (h : parse source = .ok s) : s.HasMetaTypes := by
  obtain ⟨_, hd⟩ := exists_ofDocument?_of_parse h
  exact hasMetaTypes_of_ofDocument? hd

end Schema

end GraphQLTyping
