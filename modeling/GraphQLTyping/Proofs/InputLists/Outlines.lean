import GraphQLTyping.Proofs.InputLists.Paths
import GraphQLTyping.Proofs.InputLists.Agreement
import GraphQLTyping.Proofs.Schema.Extension

/-!
# Outlines

Typed fields of two schemas have different types, if only of the same name.  What can be compared is
their **outline**, which has names for types.  Two lists **look alike** (`InputLists.LookAlike`) if
every path leads to the same outline in both.

The lists of a type and of its counterpart in a schema that extends the first look alike
(`OwnedBy.lookAlike`): both types declare the same, and what the declared fields refer to are
counterparts again.
-/

namespace GraphQLTyping

/-- The **outline** of a typed field: all that it says itself, with the names of types for types. -/
structure TypedField.Outline where
  side : Side
  name : String
  parent : Option String
  nonNull : Bool
  list : Bool
  resolution : Resolution
  type : String
deriving DecidableEq

/-- The outline of a typed field. -/
def TypedField.outline (f : TypedField) : Outline :=
  ⟨f.side, f.name, f.parent.map (·.name), f.nonNull, f.list, f.resolution, f.type.name⟩

variable {s s' : Schema} {t owner : TypeDef} {declared : String × TypeRef} {f g : TypedField}
  {l l' : InputLists} {id id' : ListId}

@[simp] theorem TypedField.outline_counterpart (s' : Schema) (f : TypedField) :
    (f.counterpart s').outline = f.outline := by
  rw [outline, counterpart, outline, Option.map_map, Schema.name_counterpart]
  congr 2
  exact funext s'.name_counterpart

/-- Typed fields that tell of one declared field, in a schema and in one that extends it, have one
outline. -/
theorem TypedField.Tells.outline_eq (h : s.ExtendedBy s') (hf : f.Tells s owner declared)
    (hg : g.Tells s' (s'.counterpart owner) declared) :
    g.outline = f.outline ∧ g.type = s'.counterpart f.type := by
  obtain ⟨htype, hext⟩ := h.exists_type? hf.type
  obtain heq : g.type = s'.counterpart f.type := Option.some.inj (hg.type.symm.trans htype)
  refine ⟨?_, heq⟩
  have hres : g.resolution = f.resolution := by
    rw [hf.resolution, hg.resolution, heq, TypeDef.inputResolution_of_kind hext.kind]
  rw [outline, outline, hf.side, hg.side, hf.name, hg.name, hf.parent, hg.parent, hf.nonNull,
    hg.nonNull, hf.list, hg.list, hres, heq, Option.map_some, Option.map_some,
    Schema.name_counterpart, Schema.name_counterpart]

namespace InputLists

/-- Two lists **look alike** if every path leads to the same outline in both. -/
def LookAlike (l l' : InputLists) (id id' : ListId) : Prop :=
  ∀ i rest, (l.at? id i rest).map (·.outline) = (l'.at? id' i rest).map (·.outline)

/-- At each place, the lists of a type and of its counterpart have fields that describe one declared
field, or both have none. -/
theorem OwnedBy.getElem?_cases (hext : s.ExtendedBy s') (h : OwnedBy s l) (h' : OwnedBy s' l')
    (ht : t ∈ s.types) (hi : t.isInputObject = true) (hid : l.find? t.name = some id)
    (hid' : l'.find? t.name = some id') (i : Nat) :
    ((l.fields id)[i]? = none ∧ (l'.fields id')[i]? = none) ∨
      ∃ declared f g, (l.fields id)[i]? = some f ∧ (l'.fields id')[i]? = some g ∧
        Describes s l t declared f ∧ Describes s' l' (s'.counterpart t) declared g := by
  obtain ⟨htype', hcounter⟩ := hext.type?_counterpart ht
  rw [← Schema.name_counterpart s' t] at htype' hid'
  have hsame := hcounter.inputs hi
  cases hd : t.declared[i]? with
  | none =>
    exact .inl ⟨h.getElem?_eq_none (Schema.type?_name ht) hid hd,
      h'.getElem?_eq_none htype' hid' (by rw [hsame, hd])⟩
  | some declared =>
    obtain ⟨f, hf, hdesc⟩ := h.exists_describes (Schema.type?_name ht) hid hd
    obtain ⟨g, hg, hdesc'⟩ := h'.exists_describes htype' hid' (hsame ▸ hd)
    exact .inr ⟨declared, f, g, hf, hg, hdesc, hdesc'⟩

/-- **The lists of a type and of its counterpart look alike.** -/
theorem OwnedBy.lookAlike (hext : s.ExtendedBy s') (h : OwnedBy s l) (h' : OwnedBy s' l')
    (ht : t ∈ s.types) (hi : t.isInputObject = true) (hid : l.find? t.name = some id)
    (hid' : l'.find? t.name = some id') : LookAlike l l' id id' := by
  intro i rest
  induction rest generalizing t id id' i with
  | nil =>
    rcases h.getElem?_cases hext h' ht hi hid hid' i with
      ⟨hf, hg⟩ | ⟨declared, f, g, hf, hg, hdesc, hdesc'⟩
    · rw [at?_of_none hf, at?_of_none hg]
    · rw [at?, at?, hf, hg]
      exact congrArg some (hdesc.tells.outline_eq hext hdesc'.tells).1.symm
  | cons j rest ih =>
    rcases h.getElem?_cases hext h' ht hi hid hid' i with
      ⟨hf, hg⟩ | ⟨declared, f, g, hf, hg, hdesc, hdesc'⟩
    · rw [at?_of_none hf, at?_of_none hg]
    · obtain ⟨houtline, htype⟩ := hdesc.tells.outline_eq hext hdesc'.tells
      have hres : g.resolution = f.resolution := congrArg (·.resolution) houtline
      by_cases ho : f.resolution = .object
      · -- both fields lead on, to the list of a type and to that of its counterpart
        obtain ⟨next, hnext, hc⟩ := hdesc.shared ho
        obtain ⟨next', hnext', hc'⟩ := hdesc'.shared (hres.trans ho)
        obtain ⟨_, _, hobject, _⟩ := hdesc.of_shared hc
        rw [at?_cons_of_shared hf hc, at?_cons_of_shared hg hc']
        rw [htype, Schema.name_counterpart] at hnext'
        exact ih (Schema.mem_types_of_type? hdesc.type) hobject hnext hnext' j
      · have ho' : g.resolution ≠ .object := fun hobject => ho (hres.symm.trans hobject)
        rw [at?_cons_of_bare hf (hdesc.nothing ho), at?_cons_of_bare hg (hdesc'.nothing ho')]

end InputLists

end GraphQLTyping
