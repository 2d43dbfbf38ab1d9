import Mathlib.Logic.Relation
import GraphQLTyping.Proofs.InputLists.Paths

/-!
# What resolving a type reports

A resolution reports of every list that it adds which of the declared fields are lists of lists, and
at last that the list is complete (`TypeDef.listEvents`); of lists that it finds it reports nothing.
A type may be resolved between two fields of another one, so the events of the types mingle.  What is
told here is which events there are, and each as often as it is there (`InputLists.Reports`).

The lists that are added are those of types to which declared fields lead from the type that is
resolved (`Schema.Refers`).  Complete lists have all these types (`InputLists.mem_owners_of_reaches`),
so in the end there is a list of just the types that can be reached.
-/

namespace GraphQLTyping

namespace TypeDef

/-- What is reported of declared fields of a type: those that are lists of lists. -/
def nestedEvents (t : TypeDef) (declared : List (String × TypeRef)) : List InputEvent :=
  (declared.filter (2 ≤ ·.2.listDepth)).map fun field => .unsupported t.name field.1 field.2

/-- The **events of the list** of a type: one for each declared field that is a list of lists, and
one for the list, which has a field for every declared one. -/
def listEvents (t : TypeDef) : List InputEvent :=
  t.nestedEvents t.declared ++ [.resolved t.declared.length t.name]

theorem nestedEvents_append (t : TypeDef) (declared more : List (String × TypeRef)) :
    t.nestedEvents (declared ++ more) = t.nestedEvents declared ++ t.nestedEvents more := by
  rw [nestedEvents, List.filter_append, List.map_append]
  rfl

theorem nestedEvents_singleton (t : TypeDef) (declared : String × TypeRef) :
    t.nestedEvents [declared] =
      if declared.2.shape.supported then [] else [.unsupported t.name declared.1 declared.2] := by
  rw [nestedEvents]
  by_cases hs : declared.2.shape.supported = true
  · have hdepth := TypeRef.supported_shape_iff.mp hs
    rw [if_pos hs, List.filter_cons_of_neg (by simpa using hdepth), List.filter_nil, List.map_nil]
  · have hdepth : 2 ≤ declared.2.listDepth :=
      Nat.le_of_not_lt fun hlt => hs (TypeRef.supported_shape_iff.mpr hlt)
    rw [if_neg hs, List.filter_cons_of_pos (by simpa using hdepth), List.filter_nil,
      List.map_singleton]

end TypeDef

/-- A type **refers** to an input object type if it declares a field of it, inside one list at
most. -/
def Schema.Refers (s : Schema) (t u : TypeDef) : Prop :=
  ∃ declared ∈ t.declared, declared.2.listDepth < 2 ∧ s.type? declared.2.name = some u ∧
    u.isInputObject = true

/-- A type **reaches** another one if references lead there. -/
abbrev Schema.Reaches (s : Schema) : TypeDef → TypeDef → Prop := Relation.ReflTransGen s.Refers

namespace InputLists

variable {s : Schema} {t u : TypeDef} {l : InputLists} {r r' r'' : Resolving}
  {typed : List (String × TypeRef)} {declared : String × TypeRef}
  {resolve : TypeDef → StateM Resolving ListId}

/-- The types that have a list, in the order of the lists. -/
def owners (l : InputLists) : List TypeDef := l.lists.map (·.owner)

theorem names_eq_map_owners (l : InputLists) : l.names = l.owners.map (·.name) := by
  rw [names, owners, List.map_map]
  rfl

theorem listDepth_lt_of_typedInput (ho : (s.typedInput t declared).resolution = .object) :
    declared.2.listDepth < 2 := by
  by_contra hn
  rw [Schema.typedInput, if_neg fun hs => hn (TypeRef.supported_shape_iff.mp hs)] at ho
  cases ho

/-- A field of an input object type that has a list below it refers to its type. -/
theorem refers_of_typedInput (ht : t ∈ s.types) (hd : declared ∈ t.declared)
    (ho : (s.typedInput t declared).resolution = .object) :
    s.Refers t (s.typedInput t declared).type := by
  refine ⟨declared, hd, listDepth_lt_of_typedInput ho, ?_, (mem_types_of_typedInput ht hd ho).2⟩
  rw [Schema.type?_of_declared ht hd, typedInput_type]

/-! ### One resolution -/

/-- What a resolution of a type **reports**: it adds lists of types that can be reached, none of a
name that has one, and its events are those of these lists. -/
def Reports (s : Schema) (t : TypeDef) (r r' : Resolving) : Prop :=
  ∃ more events, r'.inputs.lists = r.inputs.lists ++ more ∧ r'.events = r.events ++ events ∧
    (∀ list ∈ more, s.Reaches t list.owner) ∧ events.Perm (more.flatMap (·.owner.listEvents)) ∧
    (r.inputs.names.Nodup → r'.inputs.names.Nodup)

/-- A resolution **under way**: after the list of the type stand those that were added since, and the
events are theirs and those of the declared fields that were typed so far. -/
def Underway (s : Schema) (t : TypeDef) (typed : List (String × TypeRef)) (r r' : Resolving) : Prop :=
  ∃ fields more events, r'.inputs.lists = r.inputs.lists ++ ⟨t, fields⟩ :: more ∧
    fields.length = typed.length ∧ r'.events = r.events ++ events ∧
    (∀ list ∈ more, s.Reaches t list.owner) ∧
    events.Perm (t.nestedEvents typed ++ more.flatMap (·.owner.listEvents)) ∧
    (r.inputs.names.Nodup → r'.inputs.names.Nodup)

theorem reports_refl (s : Schema) (t : TypeDef) (r : Resolving) : Reports s t r r :=
  ⟨[], [], by rw [List.append_nil], by rw [List.append_nil], by simp, by simp, fun h => h⟩

theorem underway_reserve (s : Schema) (h : r.inputs.find? t.name = none) :
    Underway s t [] r { r with inputs := r.inputs.reserve t } := by
  refine ⟨[], [], [], rfl, rfl, by rw [List.append_nil], by simp,
    by simp [TypeDef.nestedEvents], ?_⟩
  intro hn
  rw [names_reserve, List.nodup_append]
  refine ⟨hn, List.nodup_singleton _, ?_⟩
  rintro a ha _ hb rfl
  rw [List.mem_singleton.mp hb] at ha
  exact find?_eq_none_iff.mp h ha

theorem lists_addField {before more : List InputList} {fields : List TypedField}
    (h : l.lists = before ++ ⟨t, fields⟩ :: more) (f : TypedField) :
    (l.addField before.length f).lists = before ++ ⟨t, fields ++ [f]⟩ :: more := by
  simp [addField, h, List.modify_eq_take_cons_drop]

theorem Underway.names_prefix (h : Underway s t typed r r') :
    (r.inputs.reserve t).names <+: r'.inputs.names := by
  obtain ⟨fields, more, _, hlists, _⟩ := h
  rw [names_reserve, names, names, hlists]
  exact ⟨more.map (·.owner.name), by simp⟩

/-- One more declared field, which refers to no type. -/
theorem Underway.other (h : Underway s t typed r r') (f : TypedField) :
    Underway s t (typed ++ [declared]) r
      ⟨r'.inputs.addField r.inputs.lists.length f, r'.events ++ t.nestedEvents [declared]⟩ := by
  obtain ⟨fields, more, events, hlists, hlength, hevents, hreaches, hperm, hnodup⟩ := h
  refine ⟨fields ++ [f], more, events ++ t.nestedEvents [declared], lists_addField hlists f, ?_, ?_,
    hreaches, ?_, ?_⟩
  · rw [List.length_append, List.length_append, hlength]
    rfl
  · rw [hevents, List.append_assoc]
  · rw [TypeDef.nestedEvents_append, List.append_assoc]
    refine (hperm.append_right _).trans ?_
    rw [List.append_assoc]
    exact List.perm_append_comm.append_left _
  · rw [names_addField]
    exact hnodup

/-- One more declared field, the type of which was resolved. -/
theorem Underway.object (h : Underway s t typed r r') (href : s.Refers t u)
    (hres : Reports s u r' r'') (f : TypedField) (hdepth : declared.2.listDepth < 2) :
    Underway s t (typed ++ [declared]) r
      { r'' with inputs := r''.inputs.addField r.inputs.lists.length f } := by
  obtain ⟨fields, more, events, hlists, hlength, hevents, hreaches, hperm, hnodup⟩ := h
  obtain ⟨added, new, hlists', hevents', hreaches', hperm', hnodup'⟩ := hres
  have hall : r''.inputs.lists = r.inputs.lists ++ ⟨t, fields⟩ :: (more ++ added) := by
    rw [hlists', hlists, List.append_assoc, List.cons_append]
  have hnone : t.nestedEvents [declared] = [] := by
    rw [TypeDef.nestedEvents_singleton, if_pos (TypeRef.supported_shape_iff.mpr hdepth)]
  refine ⟨fields ++ [f], more ++ added, events ++ new, lists_addField hall f, ?_, ?_, ?_, ?_, ?_⟩
  · rw [List.length_append, List.length_append, hlength]
    rfl
  · rw [hevents', hevents, List.append_assoc]
  · intro list hlist
    rcases List.mem_append.mp hlist with hlist | hlist
    · exact hreaches list hlist
    · exact (hreaches' list hlist).head href
  · rw [TypeDef.nestedEvents_append, hnone, List.append_nil, List.flatMap_append,
      ← List.append_assoc]
    exact hperm.append hperm'
  · rw [names_addField]
    exact fun hn => hnodup' (hnodup hn)

/-- One more declared field. -/
theorem Underway.addTyped (h : Underway s t typed r r') (ht : t ∈ s.types)
    (hd : declared ∈ t.declared)
    (hres : ∀ u ∈ s.types, u.isInputObject = true → Reports s u r' (resolve u r').2) :
    Underway s t (typed ++ [declared]) r
      (InputLists.addTyped s resolve t r.inputs.lists.length declared r').2 := by
  rw [addTyped_snd]
  by_cases ho : (s.typedInput t declared).resolution = .object
  · obtain ⟨hmem, hi⟩ := mem_types_of_typedInput ht hd ho
    rw [typeField_of_object ho]
    exact h.object (refers_of_typedInput ht hd ho) (hres _ hmem hi) _
      (listDepth_lt_of_typedInput ho)
  · rw [typeField_of_other ho, ← TypeDef.nestedEvents_singleton]
    exact h.other _

/-- The loop over the declared fields, from any point of it on. -/
theorem Underway.foldl (ht : t ∈ s.types)
    (hres : ∀ r' : Resolving, (r.inputs.reserve t).names <+: r'.inputs.names →
      ∀ u ∈ s.types, u.isInputObject = true → Reports s u r' (resolve u r').2) :
    ∀ (todo typed : List (String × TypeRef)) (r' : Resolving), t.declared = typed ++ todo →
      Underway s t typed r r' →
      Underway s t t.declared r
        (todo.foldl
          (fun r' declared =>
            (InputLists.addTyped s resolve t r.inputs.lists.length declared r').2) r') := by
  intro todo
  induction todo with
  | nil =>
    intro typed r' hsplit h
    rw [hsplit, List.append_nil]
    exact h
  | cons declared rest ih =>
    intro typed r' hsplit h
    have hd : declared ∈ t.declared := by rw [hsplit]; simp
    refine ih (typed ++ [declared]) _ (by rw [hsplit, List.append_assoc]; rfl) ?_
    exact h.addTyped ht hd (hres r' h.names_prefix)

/-- Once all declared fields are typed, the list is reported with as many fields. -/
theorem Underway.reports (h : Underway s t t.declared r r') :
    Reports s t r { r' with
      events := r'.events ++
        [.resolved (r'.inputs.fields r.inputs.lists.length).length t.name] } := by
  obtain ⟨fields, more, events, hlists, hlength, hevents, hreaches, hperm, hnodup⟩ := h
  have hfields : r'.inputs.fields r.inputs.lists.length = fields := by
    simp [InputLists.fields, list?, hlists]
  rw [hfields, hlength]
  refine ⟨⟨t, fields⟩ :: more, events ++ [.resolved t.declared.length t.name], hlists, ?_, ?_, ?_,
    hnodup⟩
  · rw [hevents, List.append_assoc]
  · intro list hlist
    rcases List.mem_cons.mp hlist with rfl | hlist
    · exact .refl
    · exact hreaches list hlist
  · rw [List.flatMap_cons, TypeDef.listEvents, List.append_assoc]
    refine (hperm.append_right _).trans ?_
    rw [List.append_assoc]
    exact List.perm_append_comm.append_left _

/-- **What a resolution reports** are the events of the lists that it adds.  There have to be as many
levels left as there are types without a list. -/
theorem resolveWithin_reports (s : Schema) (depth : Nat) (t : TypeDef) (r : Resolving)
    (ht : t ∈ s.types) (hi : t.isInputObject = true)
    (hu : (uncached s r.inputs).length ≤ depth) : Reports s t r (resolveWithin s depth t r).2 := by
  induction depth generalizing t r with
  | zero =>
    cases hf : r.inputs.find? t.name with
    | some id =>
      rw [resolveWithin_of_find? hf]
      exact reports_refl s t r
    | none =>
      -- no level is left, and yet the type itself has no list
      have := uncached_reserve_lt ht hi hf
      omega
  | succ depth ih =>
    cases hf : r.inputs.find? t.name with
    | some id =>
      rw [resolveWithin_of_find? hf]
      exact reports_refl s t r
    | none =>
      have hlt := uncached_reserve_lt ht hi hf
      have hres : ∀ r' : Resolving, (r.inputs.reserve t).names <+: r'.inputs.names →
          ∀ u ∈ s.types, u.isInputObject = true →
            Reports s u r' (resolveWithin s depth u r').2 := by
        intro r' hp u hmem ho
        have hle := uncached_length_le (s := s) hp
        exact ih u r' hmem ho (by omega)
      rw [resolveWithin_of_none hf]
      exact (Underway.foldl ht hres t.declared [] _ rfl (underway_reserve s hf)).reports

/-- The types that a resolution adds lists of, and their events. -/
theorem resolve_reports (ht : t ∈ s.types) (hi : t.isInputObject = true) (l : InputLists) :
    ∃ types, (InputLists.resolve s t l).2.inputs.owners = l.owners ++ types ∧
      (∀ u ∈ types, s.Reaches t u) ∧
      (InputLists.resolve s t l).2.events.Perm (types.flatMap (·.listEvents)) ∧
      (l.names.Nodup → (InputLists.resolve s t l).2.inputs.names.Nodup) := by
  obtain ⟨more, events, hlists, hevents, hreaches, hperm, hnodup⟩ :=
    resolveWithin_reports s _ t ⟨l, []⟩ ht hi (Nat.le_of_lt (uncached_length_lt s l))
  refine ⟨more.map (·.owner), ?_, ?_, ?_, hnodup⟩
  · rw [owners, InputLists.resolve, StateT.run, hlists, List.map_append]
    rfl
  · intro u hu
    obtain ⟨list, hlist, rfl⟩ := List.mem_map.mp hu
    exact hreaches list hlist
  · rw [InputLists.resolve, StateT.run, hevents, List.nil_append, List.flatMap_map]
    exact hperm

/-! ### Complete lists -/

/-- A type that has a name with a list has that list. -/
theorem mem_owners_of_mem_names (h : ∀ list ∈ l.lists, Complete s l list) (hu : u ∈ s.types)
    (hname : u.name ∈ l.names) : u ∈ l.owners := by
  obtain ⟨list, hlist, heq⟩ := List.mem_map.mp hname
  have hsame : list.owner = u := by
    have htype := Schema.type?_name (h list hlist).mem
    rw [heq, Schema.type?_name hu] at htype
    exact (Option.some.inj htype).symm
  exact List.mem_map.mpr ⟨list, hlist, hsame⟩

/-- Fields that describe what a type declares share lists of all types that it refers to. -/
theorem mem_names_of_refers {fields : List TypedField}
    (h : List.Forall₂ (Describes s l t) t.declared fields) (href : s.Refers t u) :
    u.name ∈ l.names := by
  obtain ⟨declared, hd, hdepth, htype, hi⟩ := href
  obtain ⟨i, hget⟩ := List.mem_iff_getElem?.mp hd
  obtain ⟨f, _, hdesc⟩ := exists_of_getElem? h.flip hget
  have htells := hdesc.tells
  obtain rfl : u = f.type := Option.some.inj (htype.symm.trans htells.type)
  have ho : f.resolution = .object := by
    rw [htells.resolution, if_pos hdepth]
    exact TypeDef.inputResolution_eq_object_iff.mpr hi
  obtain ⟨id, hid, _⟩ := hdesc.shared ho
  exact List.mem_of_getElem? (getElem?_names_of_find? hid)

/-- Complete lists share the lists of all types that theirs refer to. -/
theorem mem_owners_of_refers (h : ∀ list ∈ l.lists, Complete s l list) (ht : t ∈ l.owners)
    (href : s.Refers t u) : u ∈ l.owners := by
  obtain ⟨list, hlist, rfl⟩ := List.mem_map.mp ht
  have hname := mem_names_of_refers (h list hlist).fields href
  obtain ⟨_, _, _, htype, _⟩ := href
  exact mem_owners_of_mem_names h (Schema.mem_types_of_type? htype) hname

/-- **Complete lists are closed**: they have the list of every type that theirs reach. -/
theorem mem_owners_of_reaches (h : ∀ list ∈ l.lists, Complete s l list) (ht : t ∈ l.owners)
    (hreaches : s.Reaches t u) : u ∈ l.owners := by
  induction hreaches with
  | refl => exact ht
  | tail _ href ih => exact mem_owners_of_refers h ih href

end InputLists

end GraphQLTyping
