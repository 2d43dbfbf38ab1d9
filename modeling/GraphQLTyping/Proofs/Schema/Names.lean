import Mathlib.Data.List.Nodup
import GraphQLTyping.Proofs.TypeRef.Wrappers
import GraphQLTyping.Typing.Field

/-!
# Names of types

A schema ties names to types: each of its types is the one of its name, and what a type declares has
types that exist.  A field of one of its types leads to the type of the name it is declared with
(`Schema.namedAt_of_mem`).
-/

namespace GraphQLTyping

theorem TypeDef.inputResolution_eq_object_iff {t : TypeDef} :
    t.inputResolution = .object ↔ t.isInputObject = true := by
  rw [inputResolution, isInputObject]
  cases t.body <;> simp

theorem TypeDef.outputResolution_eq_object_iff {t : TypeDef} :
    t.outputResolution = .object ↔ t.isObject = true := by
  rw [outputResolution, isObject]
  cases t.body <;> simp

theorem TypeDef.mem_references_of_declared {t : TypeDef} {declared : String × TypeRef}
    (h : declared ∈ t.declared) : declared.2.name ∈ t.references := by
  rw [references, List.mem_append, List.mem_append]
  rw [TypeDef.declared] at h
  cases hb : t.body with
  | object interfaces fields | interface interfaces fields =>
    rw [hb] at h
    obtain ⟨field, hf, rfl⟩ := List.mem_map.mp h
    refine Or.inl (Or.inr (List.mem_flatMap.mpr ⟨field, ?_, by simp⟩))
    rwa [TypeDef.fields, hb]
  | input fields exactlyOne =>
    rw [hb] at h
    obtain ⟨field, hf, rfl⟩ := List.mem_map.mp h
    refine Or.inr (List.mem_map.mpr ⟨field, ?_, rfl⟩)
    rwa [TypeDef.inputFields, hb]
  | scalar | union | enum =>
    rw [hb] at h
    simp at h

namespace Schema

variable {s : Schema} {t : TypeDef} {name : String}

/-- Every input object type declares each of its fields once. -/
def DeclaresOnce (s : Schema) : Prop :=
  ∀ t ∈ s.types, t.isInputObject = true → (t.declared.map (·.1)).Nodup

/-- A schema has the types of the meta fields. -/
def HasMetaTypes (s : Schema) : Prop :=
  ∀ name ∈ ["String", "__Schema", "__Type"], (s.type? name).isSome

/-- A type is an **object type of** a schema. -/
abbrev HasObject (s : Schema) (t : TypeDef) : Prop := t ∈ s.types ∧ t.isObject = true

theorem mem_types_of_type? (h : s.type? name = some t) : t ∈ s.types :=
  List.mem_of_find?_eq_some h

theorem name_of_type? (h : s.type? name = some t) : t.name = name := by
  simpa using List.find?_some h

theorem type?_name (h : t ∈ s.types) : s.type? t.name = some t := by
  obtain ⟨u, hu⟩ : ∃ u, s.type? t.name = some u := by
    rw [← Option.isSome_iff_exists, type?, TypeDef.lookup, List.find?_isSome]
    exact ⟨t, h, by simp⟩
  rw [hu, List.inj_on_of_nodup_map s.distinct (mem_types_of_type? hu) h (name_of_type? hu)]

theorem named_of_type? (h : s.type? name = some t) : s.named name = t := by
  rw [named, h, Option.getD_some]

/-- A declared field has a type that exists. -/
theorem type?_of_declared {declared : String × TypeRef} (h : t ∈ s.types)
    (hd : declared ∈ t.declared) : s.type? declared.2.name = some (s.named declared.2.name) := by
  have hc := s.closed t h _ (TypeDef.mem_references_of_declared hd)
  obtain ⟨u, hu⟩ := Option.isSome_iff_exists.mp hc
  rw [named_of_type? hu]
  exact hu

theorem namedBy_of_here (h : t.home = .here) (name : String) : s.namedBy t name = s.named name := by
  rw [namedBy, h]

/-- Fields of the schema's types lead to types of the schema. -/
theorem namedAt_of_mem (h : t ∈ s.types) (field name : String) :
    s.namedAt (some t) field name = s.named name := by
  cases hm : s.metaField? (some t) field with
  | none => simp only [namedAt, hm, namedBy_of_here (s.atHome t h)]
  | some _ => simp only [namedAt, hm]

theorem isQueryRoot_iff {parent : Option TypeDef} :
    s.isQueryRoot parent = true ↔ s.root? .query = parent := by
  rw [isQueryRoot, decide_eq_true_iff]

theorem mem_types_of_root? {kind : OperationKind} (h : s.root? kind = some t) : t ∈ s.types := by
  obtain ⟨name, _, ht⟩ := Option.bind_eq_some_iff.mp h
  exact mem_types_of_type? ht

end Schema

end GraphQLTyping
