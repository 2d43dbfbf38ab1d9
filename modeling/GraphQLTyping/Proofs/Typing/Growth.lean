import GraphQLTyping.Typing.Basic

/-!
# Growing typings

A pass only ever adds typed fields to a typing (`Typing.add`) and puts records below records that it
made itself (`Typing.setChildren`).  `Typing.Extends` says what that leaves alone: records that were
there keep their typed fields, and nodes outside a given list keep their records.
-/

namespace GraphQLTyping.Typing

variable {t t' t'' : Typing} {id : NodeId} {f : TypedField} {r : RecordId}

/-! ### Records of nodes -/

theorem mem_nodes_of_record? (h : t.record? id = some r) : (id, r) ∈ t.nodes := by
  obtain ⟨before, after, heq, _⟩ := List.lookup_eq_some_iff.mp h
  rw [heq]
  exact List.mem_append_right _ List.mem_cons_self

/-! ### One change -/

theorem record?_add (t : Typing) (id other : NodeId) (f : TypedField) :
    (t.add id f).record? other = if other = id then some t.records.size else t.record? other := by
  rw [record?, add, List.lookup_cons]
  by_cases h : other = id
  · simp [h]
  · simp [h, beq_eq_false_iff_ne.mpr h, record?]

@[simp] theorem record?_add_self : (t.add id f).record? id = some t.records.size := by
  simp [record?_add]

@[simp] theorem field?_add_size : (t.add id f).field? t.records.size = some f := by
  simp [field?, add]

theorem field?_add_of_lt (h : r < t.records.size) : (t.add id f).field? r = t.field? r := by
  simp only [field?, add]
  rw [Array.getElem?_push, if_neg (Nat.ne_of_lt h)]

@[simp] theorem record?_setChildren (t : Typing) (r : RecordId) (children : List RecordId)
    (id : NodeId) : (t.setChildren r children).record? id = t.record? id := rfl

@[simp] theorem size_setChildren (t : Typing) (r : RecordId) (children : List RecordId) :
    (t.setChildren r children).records.size = t.records.size := by
  simp [setChildren]

theorem field?_setChildren (t : Typing) (r other : RecordId) (children : List RecordId) :
    (t.setChildren r children).field? other =
      if r = other then (t.field? other).map ({ · with children := .selected children })
      else t.field? other := by
  simp only [field?, setChildren]
  exact Array.getElem?_modify

theorem lt_size_of_field? (h : t.field? r = some f) : r < t.records.size :=
  (Array.getElem?_eq_some_iff.mp h).1

/-! ### What stays -/

/-- A typing **extends** another one outside of some nodes: it has the typed fields of all records
of the other, and each further node has the record that it has there. -/
structure Extends (t t' : Typing) (ids : List NodeId) : Prop where
  size_le : t.records.size ≤ t'.records.size
  field?_eq : ∀ r < t.records.size, t'.field? r = t.field? r
  record?_eq : ∀ id ∉ ids, t'.record? id = t.record? id

theorem Extends.refl (t : Typing) (ids : List NodeId) : t.Extends t ids :=
  ⟨Nat.le_refl _, fun _ _ => rfl, fun _ _ => rfl⟩

theorem Extends.trans {ids more : List NodeId} (h : t.Extends t' ids) (h' : t'.Extends t'' more) :
    t.Extends t'' (ids ++ more) := by
  refine ⟨Nat.le_trans h.size_le h'.size_le, ?_, ?_⟩
  · intro r hr
    rw [h'.field?_eq r (Nat.lt_of_lt_of_le hr h.size_le), h.field?_eq r hr]
  · intro id hid
    rw [List.mem_append, not_or] at hid
    rw [h'.record?_eq id hid.2, h.record?_eq id hid.1]

theorem extends_add (t : Typing) (id : NodeId) (f : TypedField) :
    t.Extends (t.add id f) [id] := by
  refine ⟨by simp [add], fun r hr => field?_add_of_lt hr, ?_⟩
  intro other ho
  rw [record?_add, if_neg (by simpa using ho)]

/-- Records that are put below a later record are none of a typing's own. -/
theorem Extends.setChildren {ids : List NodeId} (h : t.Extends t' ids)
    (hr : t.records.size ≤ r) (children : List RecordId) :
    t.Extends (t'.setChildren r children) ids := by
  refine ⟨by simpa using h.size_le, ?_, fun id hid => by simpa using h.record?_eq id hid⟩
  intro other ho
  rw [field?_setChildren, if_neg (Nat.ne_of_gt (Nat.lt_of_lt_of_le ho hr)), h.field?_eq other ho]

/-! ### Typed nodes -/

/-- A node is **typed** as a field: it has a record with that typed field, and the record is none of
the first ones. -/
def Typed (t : Typing) (first : Nat) (id : NodeId) (f : TypedField) : Prop :=
  ∃ r, first ≤ r ∧ t.record? id = some r ∧ t.field? r = some f

theorem typed_add (t : Typing) (id : NodeId) (f : TypedField) :
    (t.add id f).Typed t.records.size id f :=
  ⟨t.records.size, Nat.le_refl _, record?_add_self, field?_add_size⟩

theorem Typed.isSome {first : Nat} (h : t.Typed first id f) : (t.record? id).isSome := by
  obtain ⟨r, _, hr, _⟩ := h
  rw [hr]
  rfl

theorem Typed.le {first first' : Nat} (h : t.Typed first' id f) (hle : first ≤ first') :
    t.Typed first id f := by
  obtain ⟨r, hr, h⟩ := h
  exact ⟨r, Nat.le_trans hle hr, h⟩

theorem Typed.mono {first : Nat} {ids : List NodeId} (h : t.Typed first id f)
    (he : t.Extends t' ids) (hid : id ∉ ids) : t'.Typed first id f := by
  obtain ⟨r, hle, hr, hf⟩ := h
  refine ⟨r, hle, ?_, ?_⟩
  · rw [he.record?_eq id hid, hr]
  · rw [he.field?_eq r (lt_size_of_field? hf), hf]

theorem Typed.setChildren_of_lt {first : Nat} (h : t.Typed first id f) (hr : r < first)
    (children : List RecordId) : (t.setChildren r children).Typed first id f := by
  obtain ⟨r', hle, hr', hf⟩ := h
  refine ⟨r', hle, hr', ?_⟩
  rw [field?_setChildren, if_neg (Nat.ne_of_lt (Nat.lt_of_lt_of_le hr hle)), hf]

end GraphQLTyping.Typing
