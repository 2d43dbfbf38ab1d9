import GraphQLTyping.Proofs.Sample
import GraphQLTyping.Proofs.Schema.Names

/-!
# Schemas that extend others

A schema **extends** another one (`Schema.ExtendedBy`) if it has the same root types by name, and all
types of the other one with the same kind: object types with the same fields at least, and input
object types with just the same fields.  What is new is of no concern to those who do not name it.

* `Schema.counterpart`: the type of a name in another schema.
* `ExtendedBy.typedOutput?_eq`: a field that is selected on an object type is typed alike on the
  counterpart of that type, if the types of the meta fields are among those of the schema
  (`Schema.HasMetaTypes`), as they are in every schema that is read.
-/

namespace GraphQLTyping

variable {s s' : Schema} {t t' : TypeDef} {name : String} {type : TypeRef} {f : TypedField}

/-- The **kinds** of named type. -/
inductive TypeKind where
  | scalar
  | object
  | interface
  | union
  | enum
  | inputObject
deriving DecidableEq

/-- The kind of a type. -/
def TypeDef.kind (t : TypeDef) : TypeKind :=
  match t.body with
  | .scalar => .scalar
  | .object .. => .object
  | .interface .. => .interface
  | .union _ => .union
  | .enum _ => .enum
  | .input .. => .inputObject

/-- A type **extends** another one of its name: it has the same kind, an object type has the other
one's fields, of the same types, and an input object type the very same fields. -/
structure TypeDef.ExtendedBy (t t' : TypeDef) : Prop where
  kind : t'.kind = t.kind
  fields : t.isObject = true →
    ∀ name type, t.fieldType? name = some type → t'.fieldType? name = some type
  inputs : t.isInputObject = true → t'.declared = t.declared

theorem TypeDef.ExtendedBy.refl (t : TypeDef) : t.ExtendedBy t :=
  ⟨rfl, fun _ _ _ h => h, fun _ => rfl⟩

namespace Schema

/-- A schema **extends** another one: the roots are the same by name, and it has all types of the
other one, each of which it may extend. -/
structure ExtendedBy (s s' : Schema) : Prop where
  rootName? : ∀ kind, s'.rootName? kind = s.rootName? kind
  types : ∀ t ∈ s.types, ∃ t', s'.type? t.name = some t' ∧ t.ExtendedBy t'

/-- A schema with a new field and a new input object type extends the one without. -/
theorem described_extendedBy : Sample.described.ExtendedBy Sample.extended := by
  refine ⟨fun kind => by cases kind <;> rfl, fun t ht => ?_⟩
  have hmem : t = Sample.query ∨ t ∈ Sample.extended.types := by
    revert ht
    simp only [Sample.described, Sample.extended, Sample.outputTypes, List.mem_append,
      List.mem_cons, List.tail_cons]
    tauto
  rcases hmem with rfl | hmem
  · refine ⟨Sample.moreQuery, rfl, rfl, fun _ name type h => ?_, fun hinput => ?_⟩
    · have hname : (name == "hits") = false := by
        rw [beq_eq_false_iff_ne]
        rintro rfl
        cases h
      exact (List.lookup_cons ..).trans (by rw [hname]; exact h)
    · cases hinput
  · exact ⟨t, type?_name hmem, .refl t⟩

/-- The **counterpart** of a type: the type of its name in another schema. -/
def counterpart (s' : Schema) (t : TypeDef) : TypeDef := s'.named t.name

theorem name_named (s : Schema) (name : String) : (s.named name).name = name := by
  rw [named]
  cases h : s.type? name with
  | some t => exact name_of_type? h
  | none => rfl

@[simp] theorem name_counterpart (s' : Schema) (t : TypeDef) : (s'.counterpart t).name = t.name :=
  s'.name_named t.name

end Schema

/-- A typed field with the counterparts of its types. -/
def TypedField.counterpart (s' : Schema) (f : TypedField) : TypedField :=
  { f with parent := f.parent.map s'.counterpart, type := s'.counterpart f.type }

/-! ### Kinds -/

namespace TypeDef

theorem inputResolution_of_kind (h : t'.kind = t.kind) :
    t'.inputResolution = t.inputResolution := by
  simp only [kind] at h
  simp only [inputResolution]
  cases hb : t.body <;> cases hb' : t'.body <;> simp_all

theorem outputResolution_of_kind (h : t'.kind = t.kind) :
    t'.outputResolution = t.outputResolution := by
  simp only [kind] at h
  simp only [outputResolution]
  cases hb : t.body <;> cases hb' : t'.body <;> simp_all

end TypeDef

/-! ### Types of fields -/

namespace Schema

theorem mem_declared_of_fieldType? (h : t.fieldType? name = some type) :
    (name, type) ∈ t.declared := by
  rw [TypeDef.fieldType?] at h
  obtain ⟨l₁, l₂, heq, _⟩ := List.lookup_eq_some_iff.mp h
  rw [heq]
  simp

/-- A meta field is of one of the types that every schema has. -/
theorem type?_of_metaField? {parent : Option TypeDef} {field : FieldDef} (hmeta : s.HasMetaTypes)
    (h : s.metaField? parent name = some field) : (s.type? field.type.name).isSome := by
  rw [metaField?] at h
  split at h
  · cases h
    exact hmeta _ (by simp [typenameField, TypeRef.name])
  · split at h
    · split at h
      · cases h
        exact hmeta _ (by simp [schemaField, TypeRef.name])
      · split at h
        · cases h
          exact hmeta _ (by simp [typeField, TypeRef.name])
        · cases h
    · cases h

/-- A field that is selected on a type of the schema has a type that exists. -/
theorem type?_of_fieldType? (hmeta : s.HasMetaTypes) (ht : t ∈ s.types)
    (h : s.fieldType? (some t) name = some type) :
    s.type? type.name = some (s.named type.name) := by
  obtain ⟨u, hu⟩ : ∃ u, s.type? type.name = some u := by
    rw [fieldType?] at h
    cases hm : s.metaField? (some t) name with
    | some field =>
      rw [hm] at h
      cases h
      exact Option.isSome_iff_exists.mp (type?_of_metaField? hmeta hm)
    | none =>
      rw [hm] at h
      exact ⟨_, type?_of_declared ht (mem_declared_of_fieldType? h)⟩
  rw [named_of_type? hu]
  exact hu

namespace ExtendedBy

theorem exists_type? (h : s.ExtendedBy s') (ht : s.type? name = some t) :
    s'.type? name = some (s'.counterpart t) ∧ t.ExtendedBy (s'.counterpart t) := by
  obtain ⟨t', ht', hext⟩ := h.types t (mem_types_of_type? ht)
  rw [counterpart, named_of_type? ht']
  rw [name_of_type? ht] at ht'
  exact ⟨ht', hext⟩

theorem type?_counterpart (h : s.ExtendedBy s') (ht : t ∈ s.types) :
    s'.type? t.name = some (s'.counterpart t) ∧ t.ExtendedBy (s'.counterpart t) :=
  h.exists_type? (type?_name ht)

theorem root? (h : s.ExtendedBy s') {kind : OperationKind} (hr : s.root? kind = some t) :
    s'.root? kind = some (s'.counterpart t) := by
  obtain ⟨name, hname, ht⟩ := Option.bind_eq_some_iff.mp hr
  rw [Schema.root?, h.rootName?, hname, Option.bind_some]
  exact (h.exists_type? ht).1

theorem isQueryRoot_eq (h : s.ExtendedBy s') (ht : t ∈ s.types) :
    s'.isQueryRoot (some (s'.counterpart t)) = s.isQueryRoot (some t) := by
  rw [Bool.eq_iff_iff, isQueryRoot_iff, isQueryRoot_iff]
  constructor
  · intro hroot
    obtain ⟨name, hname, hcounterpart⟩ := Option.bind_eq_some_iff.mp hroot
    obtain rfl : t.name = name := by rw [← name_of_type? hcounterpart, name_counterpart]
    rw [Schema.root?, ← h.rootName?, hname, Option.bind_some, type?_name ht]
  · exact h.root?

theorem fieldType?_eq (h : s.ExtendedBy s') (ht : t ∈ s.types) (ho : t.isObject = true)
    (hf : s.fieldType? (some t) name = some type) :
    s'.fieldType? (some (s'.counterpart t)) name = some type := by
  have hmeta : s'.metaField? (some (s'.counterpart t)) name = s.metaField? (some t) name := by
    rw [metaField?, metaField?, h.isQueryRoot_eq ht]
  rw [fieldType?] at hf ⊢
  rw [hmeta]
  cases hm : s.metaField? (some t) name with
  | some field =>
    rw [hm] at hf
    exact hf
  | none =>
    rw [hm] at hf
    exact (h.type?_counterpart ht).2.fields ho name type hf

/-- **A field is typed alike on the counterpart** of an object type. -/
theorem typedOutput?_eq (h : s.ExtendedBy s') (hmeta : s.HasMetaTypes) (ht : t ∈ s.types)
    (ho : t.isObject = true) (hf : s.typedOutput? (some t) name = some f) :
    s'.typedOutput? (some (s'.counterpart t)) name = some (f.counterpart s') := by
  obtain ⟨type, htype, rfl⟩ := Option.map_eq_some_iff.mp hf
  have hu := type?_of_fieldType? hmeta ht htype
  rw [← TypeRef.name_shape] at hu
  obtain ⟨hu', hext⟩ := h.exists_type? hu
  have hres := TypeDef.outputResolution_of_kind hext.kind
  have hmem := mem_types_of_type? (h.type?_counterpart ht).1
  rw [typedOutput?, h.fieldType?_eq ht ho htype, Option.map_some]
  simp only [TypedField.counterpart, Option.map_some, namedAt_of_mem ht, namedAt_of_mem hmem,
    named_of_type? hu', hres]

end ExtendedBy

end Schema

end GraphQLTyping
