import GraphQLTyping.Proofs.InputLists.Paths

/-!
# Lists that agree

Two lists **agree** if they tell the same along every path (`InputLists.Agrees`).  A path says for
each list the place of a field in it, and goes on from the shared list of that field; so what agrees
has the same fields in the same order, however deep they are read, though lists may have other numbers
and lead back to themselves elsewhere.

All lists of one type name agree, if they are of one schema (`InputLists.OwnedBy.agrees`): both
describe what the type declares, field by field.
-/

namespace GraphQLTyping

/-- A typed field **bared** of what stands below it. -/
def TypedField.bare (f : TypedField) : TypedField := { f with children := .none }

namespace InputLists

variable {s : Schema} {l l' : InputLists} {t : TypeDef} {id id' next : ListId} {i j : Nat}
  {rest : List Nat} {declared : String × TypeRef} {f : TypedField}

/-- The typed field that a **path** leads to from a list. -/
def at? (l : InputLists) (id : ListId) (i : Nat) : List Nat → Option TypedField
  | [] => (l.fields id)[i]?
  | j :: rest => ((l.fields id)[i]?.bind (·.children.list?)).bind fun next => l.at? next j rest

/-- Two lists **agree** if every path leads to the same in both, as far as its end itself goes. -/
def Agrees (l l' : InputLists) (id id' : ListId) : Prop :=
  ∀ i rest, (l.at? id i rest).map (·.bare) = (l'.at? id' i rest).map (·.bare)

theorem at?_cons_of_shared (hf : (l.fields id)[i]? = some f) (hc : f.children = .shared next) :
    l.at? id i (j :: rest) = l.at? next j rest := by
  rw [at?, hf, Option.bind_some, hc]
  rfl

theorem at?_cons_of_bare (hf : (l.fields id)[i]? = some f) (hc : f.children = .none) :
    l.at? id i (j :: rest) = none := by
  rw [at?, hf, Option.bind_some, hc]
  rfl

theorem at?_of_none (hf : (l.fields id)[i]? = none) : l.at? id i rest = none := by
  cases rest with
  | nil => rw [at?, hf]
  | cons j rest => rw [at?, hf, Option.bind_none, Option.bind_none]

/-! ### Lists of one schema -/

/-- The field of a list at the place of a declared field describes that one. -/
theorem OwnedBy.exists_describes (h : OwnedBy s l) (ht : s.type? t.name = some t)
    (hid : l.find? t.name = some id) (hd : t.declared[i]? = some declared) :
    ∃ f, (l.fields id)[i]? = some f ∧ Describes s l t declared f :=
  exists_of_getElem? (h.fields ht hid).flip hd

theorem OwnedBy.getElem?_eq_none (h : OwnedBy s l) (ht : s.type? t.name = some t)
    (hid : l.find? t.name = some id) (hd : t.declared[i]? = none) : (l.fields id)[i]? = none := by
  rw [List.getElem?_eq_none_iff] at hd ⊢
  rwa [← (h.fields ht hid).length_eq]

/-- **The lists of one name agree**, if both are lists of one schema. -/
theorem OwnedBy.agrees (h : OwnedBy s l) (h' : OwnedBy s l') (ht : s.type? t.name = some t)
    (hid : l.find? t.name = some id) (hid' : l'.find? t.name = some id') : Agrees l l' id id' := by
  intro i rest
  induction rest generalizing t id id' i with
  | nil =>
    cases hd : t.declared[i]? with
    | none =>
      rw [at?_of_none (h.getElem?_eq_none ht hid hd), at?_of_none (h'.getElem?_eq_none ht hid' hd)]
    | some declared =>
      obtain ⟨f, hf, hdesc⟩ := h.exists_describes ht hid hd
      obtain ⟨g, hg, hdesc'⟩ := h'.exists_describes ht hid' hd
      rw [at?, at?, hf, hg]
      exact congrArg some (hdesc.tells.eq hdesc'.tells)
  | cons j rest ih =>
    cases hd : t.declared[i]? with
    | none =>
      rw [at?_of_none (h.getElem?_eq_none ht hid hd), at?_of_none (h'.getElem?_eq_none ht hid' hd)]
    | some declared =>
      obtain ⟨f, hf, hdesc⟩ := h.exists_describes ht hid hd
      obtain ⟨g, hg, hdesc'⟩ := h'.exists_describes ht hid' hd
      have hsame := hdesc.tells.eq hdesc'.tells
      have hres : f.resolution = g.resolution := congrArg (·.resolution) hsame
      have htype : f.type = g.type := congrArg (·.type) hsame
      by_cases ho : f.resolution = .object
      · -- both fields lead on to the list of their type
        obtain ⟨next, hnext, hc⟩ := hdesc.shared ho
        obtain ⟨next', hnext', hc'⟩ := hdesc'.shared (hres.symm.trans ho)
        rw [at?_cons_of_shared hf hc, at?_cons_of_shared hg hc']
        have hu := hdesc.type
        rw [← htype] at hnext'
        exact ih (by rw [Schema.name_of_type? hu, hu]) hnext hnext' j
      · have ho' : g.resolution ≠ .object := fun hg => ho (hres.trans hg)
        rw [at?_cons_of_bare hf (hdesc.nothing ho), at?_cons_of_bare hg (hdesc'.nothing ho')]

/-- All lists that are added to none are of the schema. -/
theorem ownedBy_of_adds (h : Adds s {} l) : OwnedBy s l :=
  fun _ _ hid => h.owned rfl hid

end InputLists

end GraphQLTyping
