import GraphQLTyping.Proofs.InputLists.Nesting

/-!
# Which lists a resolution adds

A resolution adds the lists of the names that references lead to from its type, as long as they lead
through names that have no list (`isResolved_resolve_iff`).  It does not look beyond a name that has
one: that list may be of another schema, or lead to nothing.

* What is added was in progress at some moment, and the types in progress then are a path to it
  (`InProgress.reachesPast`).
* What can be reached is added.  This is not to be read off the recursion, as a reference that leads
  back to a type in progress ends there, before that type's own fields are all typed.  But all lists
  are complete in the end, and complete lists have the lists of all references
  (`isResolved_of_reachesPast`).
-/

namespace GraphQLTyping

/-- A type **reaches** another one **past** lists if references lead there and none of the types on the
way after it has one of the lists. -/
abbrev Schema.ReachesPast (s : Schema) (l : InputLists) : TypeDef → TypeDef → Prop :=
  Relation.ReflTransGen fun t u => s.Refers t u ∧ l.isResolved u.name = false

namespace InputLists

variable {s : Schema} {t u : TypeDef} {l l' : InputLists} {r r' : Resolving} {busy : List TypeDef}
  {name : String}

/-- Types in progress are reached from the outermost past what had a list. -/
theorem InProgress.reachesPast (h : InProgress s t r busy r') (ht : t ∈ s.types)
    (hi : t.isInputObject = true) : ∀ u ∈ busy, s.ReachesPast r.inputs t u := by
  induction h with
  | start _ => simpa using .refl
  | @next u v busy r' r'' h hstarts hmissed ih =>
    intro w hw
    rcases List.mem_cons.mp hw with rfl | hw
    · have hmem := (h.mem_types ht hi u List.mem_cons_self).1
      have hnew := (h.next hstarts hmissed).not_mem_names w List.mem_cons_self
      rw [← isResolved_iff, Bool.not_eq_true] at hnew
      exact (ih u List.mem_cons_self).tail ⟨hstarts.refers hmem, hnew⟩
    · exact ih w hw

/-- Complete lists are added for all that is reached past what had a list. -/
theorem isResolved_of_reachesPast (ha : Adds s l l') (ht : t ∈ s.types)
    (hmissed : l.isResolved t.name = false) (hadded : l'.isResolved t.name = true)
    (h : s.ReachesPast l t u) : l'.isResolved u.name = true := by
  have hall : u ∈ s.types ∧ l.isResolved u.name = false ∧ l'.isResolved u.name = true := by
    induction h with
    | refl => exact ⟨ht, hmissed, hadded⟩
    | @tail u v _ href ih =>
      obtain ⟨hmem, hold, hnew⟩ := ih
      obtain ⟨id, hid⟩ := Option.isSome_iff_exists.mp hnew
      obtain ⟨u', fields, htype, _, _, hfields⟩ :=
        ha.owned (Option.not_isSome_iff_eq_none.mp (Bool.not_eq_true _ ▸ hold)) hid
      rw [Schema.type?_name hmem] at htype
      cases htype
      have hname := mem_names_of_refers hfields href.1
      obtain ⟨_, _, _, hv, _⟩ := href.1
      exact ⟨Schema.mem_types_of_type? hv, href.2, isResolved_iff.mpr hname⟩
  exact hall.2.2

/-- **The names with a list after a resolution** are those that had one, and those that are reached
from its type past them. -/
theorem isResolved_resolve_iff (ht : t ∈ s.types) (hi : t.isInputObject = true)
    (hmissed : l.isResolved t.name = false) :
    (resolve s t l).2.inputs.isResolved name = true ↔
      l.isResolved name = true ∨ ∃ u, s.ReachesPast l t u ∧ u.name = name := by
  obtain ⟨hadds, hfind⟩ := resolve_adds ht hi l
  constructor
  · intro h
    rcases exists_inProgress ht hi ⟨l, []⟩ name (isResolved_iff.mp h) with hold | hnew
    · exact .inl (isResolved_iff.mpr hold)
    · obtain ⟨u, busy, r', hbusy, hname⟩ := hnew
      exact .inr ⟨u, hbusy.reachesPast ht hi u List.mem_cons_self, hname⟩
  · rintro (hold | ⟨u, hreaches, rfl⟩)
    · exact isResolved_iff.mpr (hadds.names_prefix.subset (isResolved_iff.mp hold))
    · have hadded : (resolve s t l).2.inputs.isResolved t.name = true := by
        rw [isResolved, hfind]
        rfl
      exact isResolved_of_reachesPast hadds ht hmissed hadded hreaches

end InputLists

end GraphQLTyping
