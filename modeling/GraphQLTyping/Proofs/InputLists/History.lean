import Mathlib.Data.List.Induction
import GraphQLTyping.Proofs.InputLists.Resolution
import GraphQLTyping.Proofs.Sample

/-!
# The lists after any resolutions

Types are resolved one after the other, in any order and possibly of several schemas, which may
have different types of one name.  After each of the calls all lists are complete, a list is of the
type with which its name was missed first (`resolveAll_complete`), and different names have
different lists.

A name is **missed** in the first call that ends with a list for it (`Misses`).  A resolution never
leaves the schema of its call, so the type with which the name was missed is the type of that name
in that schema.
-/

namespace GraphQLTyping.InputLists

variable {s : Schema} {l l' : InputLists} {name : String} {id : ListId}

/-- The lists after types of schemas have been resolved one after the other, none being there at the
start. -/
def resolveAll (calls : List (Schema × TypeDef)) : InputLists :=
  calls.foldl (fun l call => (resolve call.1 call.2 l).2.inputs) {}

theorem resolveAll_append_singleton (calls : List (Schema × TypeDef)) (call : Schema × TypeDef) :
    resolveAll (calls ++ [call]) = (resolve call.1 call.2 (resolveAll calls)).2.inputs := by
  rw [resolveAll, List.foldl_append]
  rfl

/-- Among calls, one in a schema **misses** a name: there is a list of the name after that call and
none before. -/
def Misses (calls : List (Schema × TypeDef)) (s : Schema) (name : String) : Prop :=
  ∃ before t after, calls = before ++ (s, t) :: after ∧
    (resolveAll before).find? name = none ∧
    ((resolveAll (before ++ [(s, t)])).find? name).isSome

theorem Misses.append_singleton {calls : List (Schema × TypeDef)} (h : Misses calls s name)
    (call : Schema × TypeDef) : Misses (calls ++ [call]) s name := by
  obtain ⟨before, t, after, hc, hb, ha⟩ := h
  exact ⟨before, t, after ++ [call], by rw [hc, List.append_assoc, List.cons_append], hb, ha⟩

/-- The list of a name is that of the type of the name in the schema, and complete. -/
def Owned (s : Schema) (l : InputLists) (name : String) (id : ListId) : Prop :=
  ∃ t fields, s.type? name = some t ∧ t.isInputObject = true ∧ l.list? id = some ⟨t, fields⟩ ∧
    List.Forall₂ (Describes s l t) t.declared fields

theorem Adds.list?_eq (h : Adds s l l') (hid : id < l.lists.length) :
    l'.list? id = l.list? id := by
  obtain ⟨more, hm, _⟩ := h
  rw [list?, list?, hm, List.getElem?_append_left hid]

/-- A list of a name that had none is one of those added. -/
theorem Adds.owned (h : Adds s l l') (hn : l.find? name = none) (hf : l'.find? name = some id) :
    Owned s l' name id := by
  obtain ⟨more, hm, hc⟩ := h
  have hname := getElem?_names_of_find? hf
  rw [names, hm, List.map_append] at hname
  have hge : (l.lists.map (·.owner.name)).length ≤ id := by
    by_contra hlt
    rw [List.getElem?_append_left (Nat.lt_of_not_le hlt)] at hname
    exact find?_eq_none_iff.mp hn (List.mem_of_getElem? hname)
  rw [List.getElem?_append_right hge, List.length_map, List.getElem?_map,
    Option.map_eq_some_iff] at hname
  rw [List.length_map] at hge
  obtain ⟨list, hlist, rfl⟩ := hname
  have hcomplete := hc list (List.mem_of_getElem? hlist)
  refine ⟨list.owner, list.fields, Schema.type?_name hcomplete.mem, hcomplete.isInputObject, ?_,
    hcomplete.fields⟩
  rw [list?, hm, List.getElem?_append_right hge, hlist]

theorem Owned.of_adds {s' : Schema} (h : Owned s l name id) (ha : Adds s' l l') :
    Owned s l' name id := by
  obtain ⟨t, fields, ht, hi, hlist, hfields⟩ := h
  refine ⟨t, fields, ht, hi, ?_, hfields.imp fun _ _ hd => hd.mono ha.names_prefix⟩
  rw [ha.list?_eq (List.getElem?_eq_some_iff.mp hlist).1, hlist]

/-- Every list is that of the type with which its name was missed. -/
theorem owned_of_find? (calls : List (Schema × TypeDef))
    (h : ∀ call ∈ calls, call.2 ∈ call.1.types ∧ call.2.isInputObject = true)
    (hf : (resolveAll calls).find? name = some id) :
    ∃ s, Misses calls s name ∧ Owned s (resolveAll calls) name id := by
  induction calls using List.reverseRecOn generalizing id with
  | nil => cases hf
  | append_singleton before call ih =>
    obtain ⟨ht, hi⟩ := h call (by simp)
    have hadd := (resolve_adds ht hi (resolveAll before)).1
    rw [← resolveAll_append_singleton] at hadd
    cases hb : (resolveAll before).find? name with
    | none =>
      refine ⟨call.1, ⟨before, call.2, [], rfl, hb, ?_⟩, hadd.owned hb hf⟩
      rw [hf]
      rfl
    | some id' =>
      have hsame := find?_of_names_prefix hadd.names_prefix hb
      rw [hf] at hsame
      cases hsame
      obtain ⟨s, hm, ho⟩ := ih (fun c hc => h c (List.mem_append_left _ hc)) hb
      exact ⟨s, hm.append_singleton call, ho.of_adds hadd⟩

/-- **All lists are complete after any resolutions.**  The list of a name is of one type, that of
the name in the schema whose call missed the name: its fields describe the declared fields of the
type, one each and in their order, and share the very lists of the types that they refer to.
Different names have different lists. -/
theorem resolveAll_complete (calls : List (Schema × TypeDef))
    (h : ∀ call ∈ calls, call.2 ∈ call.1.types ∧ call.2.isInputObject = true) :
    (∀ name id, (resolveAll calls).find? name = some id →
      ∃ s t fields, Misses calls s name ∧ s.type? name = some t ∧ t.isInputObject = true ∧
        (resolveAll calls).list? id = some ⟨t, fields⟩ ∧
        List.Forall₂ (Describes s (resolveAll calls) t) t.declared fields) ∧
    ∀ name name' id, (resolveAll calls).find? name = some id →
      (resolveAll calls).find? name' = some id → name = name' := by
  refine ⟨?_, ?_⟩
  · intro name id hf
    obtain ⟨s, hm, t, fields, ho⟩ := owned_of_find? calls h hf
    exact ⟨s, t, fields, hm, ho⟩
  · intro name name' id hf hf'
    have hn := getElem?_names_of_find? hf
    rw [getElem?_names_of_find? hf'] at hn
    exact (Option.some.inj hn).symm

/-- The second schema finds a list of the name of its type, which is of the type of the first. -/
theorem resolveAll_complete_two_ranges :
    (∀ call ∈ [(Sample.schema, Sample.filter), (Sample.otherSchema, Sample.otherRange)],
      call.2 ∈ call.1.types ∧ call.2.isInputObject = true) ∧
    (resolveAll [(Sample.schema, Sample.filter), (Sample.otherSchema, Sample.otherRange)]).find?
      "Range" = some 1 ∧
    ∃ s t fields,
      Misses [(Sample.schema, Sample.filter), (Sample.otherSchema, Sample.otherRange)] s "Range" ∧
      s.type? "Range" = some t ∧ t.isInputObject = true ∧
      (resolveAll [(Sample.schema, Sample.filter), (Sample.otherSchema, Sample.otherRange)]).list? 1
        = some ⟨t, fields⟩ ∧
      List.Forall₂ (Describes s (resolveAll
        [(Sample.schema, Sample.filter), (Sample.otherSchema, Sample.otherRange)]) t)
        t.declared fields := by
  have hcalls : ∀ call ∈ [(Sample.schema, Sample.filter), (Sample.otherSchema, Sample.otherRange)],
      call.2 ∈ call.1.types ∧ call.2.isInputObject = true := by
    simp only [List.forall_mem_cons]
    exact ⟨⟨by simp [Sample.schema], rfl⟩, ⟨by simp [Sample.otherSchema], rfl⟩, by simp⟩
  have hf : (resolveAll [(Sample.schema, Sample.filter),
      (Sample.otherSchema, Sample.otherRange)]).find? "Range" = some 1 := by
    decide
  exact ⟨hcalls, hf, (resolveAll_complete _ hcalls).1 "Range" 1 hf⟩

end GraphQLTyping.InputLists
