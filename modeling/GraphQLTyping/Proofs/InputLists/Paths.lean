import GraphQLTyping.Proofs.InputLists.History

/-!
# Paths through the lists

An input object type may refer to itself, so its list leads back to itself, and there is no end to the
paths through it.  Read along paths, the lists are the schema: names lead from the list of a type to a
typed field (`InputLists.Leads`) exactly if they lead from the type through what types declare
(`Schema.Leads`), and the typed field there tells of the declared one (`TypedField.Tells`).  As this
says nothing of what was resolved before, all that may depend on it is which numbers lists have
(`InputLists.resolve_leads`).

It holds of any lists that are all of one schema (`InputLists.OwnedBy`), by induction on paths.
-/

namespace GraphQLTyping

variable {s : Schema} {l : InputLists} {t owner : TypeDef} {id : ListId} {names : List String}
  {declared : String × TypeRef} {f : TypedField}

/-! ### Following names -/

namespace InputLists

/-- Where a typed field stands: in which list, and in which place of it. -/
abbrev Place := ListId × Nat

/-- Names **lead** from a list to the typed field at a place: the first name is that of a field of the
list, and those that come after it lead on from the shared list of that field. -/
inductive Leads (l : InputLists) : ListId → List String → Place → TypedField → Prop
  | last {id : ListId} {i : Nat} {name : String} {f : TypedField}
    (hf : (l.fields id)[i]? = some f) (hname : f.name = name) : Leads l id [name] (id, i) f
  | step {id next : ListId} {i : Nat} {name : String} {f g : TypedField} {names : List String}
    {place : Place} (hf : (l.fields id)[i]? = some f) (hname : f.name = name)
    (hnext : f.children = .shared next) (hrest : Leads l next names place g) :
    Leads l id (name :: names) place g

end InputLists

namespace Schema

/-- Names **lead** from an input object type to a declared field of another one: the first name is
that of a field that the type declares, and if others come after it, that field is of an input object
type, inside one list at most, from which the others lead on. -/
inductive Leads (s : Schema) : TypeDef → List String → TypeDef → String × TypeRef → Prop
  | last {t : TypeDef} {declared : String × TypeRef} (hd : declared ∈ t.declared) :
    Leads s t [declared.1] t declared
  | step {t u owner : TypeDef} {declared target : String × TypeRef} {names : List String}
    (hd : declared ∈ t.declared) (hdepth : declared.2.listDepth < 2)
    (hu : s.type? declared.2.name = some u) (hi : u.isInputObject = true)
    (hrest : Leads s u names owner target) : Leads s t (declared.1 :: names) owner target

end Schema

/-- A typed field **tells** of a declared field of an input object type: its name, the type that
declares it, its outer wrappers, its innermost type, and how that resolves if there is one list around
it at most. -/
structure TypedField.Tells (s : Schema) (owner : TypeDef) (declared : String × TypeRef)
    (f : TypedField) : Prop where
  side : f.side = .input
  name : f.name = declared.1
  parent : f.parent = some owner
  nonNull : f.nonNull = declared.2.nonNull
  list : f.list = declared.2.isList
  type : s.type? declared.2.name = some f.type
  resolution : f.resolution =
    if declared.2.listDepth < 2 then f.type.inputResolution else .unclassified
  children : (∃ id, f.children = .shared id) ↔ f.resolution = .object

namespace InputLists

theorem Describes.tells (h : Describes s l owner declared f) : f.Tells s owner declared where
  side := h.side
  name := h.name
  parent := h.parent
  nonNull := h.nonNull.trans (TypeRef.nonNull_shape _)
  list := h.list.trans (TypeRef.list_shape _)
  type := by
    rw [← TypeRef.name_shape]
    exact h.type
  resolution := by
    rw [h.resolution]
    simp only [TypeRef.supported_shape_iff]
  children := by
    constructor
    · rintro ⟨id, hid⟩
      by_contra ho
      rw [h.nothing ho] at hid
      cases hid
    · intro ho
      obtain ⟨id, _, hid⟩ := h.shared ho
      exact ⟨id, hid⟩

end InputLists

/-- What two typed fields tell of one declared field is the same, but for which list they share. -/
theorem TypedField.Tells.eq {g : TypedField} (hf : f.Tells s owner declared)
    (hg : g.Tells s owner declared) :
    { f with children := .none } = { g with children := .none } := by
  have htype : f.type = g.type := Option.some.inj (hf.type.symm.trans hg.type)
  simp only [TypedField.mk.injEq, and_true]
  refine ⟨hf.side.trans hg.side.symm, hf.name.trans hg.name.symm, hf.parent.trans hg.parent.symm,
    hf.nonNull.trans hg.nonNull.symm, hf.list.trans hg.list.symm, ?_, htype⟩
  rw [hf.resolution, hg.resolution, htype]

/-! ### Lists of one schema -/

namespace InputLists

theorem exists_of_getElem? {α β : Type} {R : α → β → Prop} {as : List α} {bs : List β} {i : Nat}
    {b : β} (h : List.Forall₂ R as bs) (hb : bs[i]? = some b) : ∃ a, as[i]? = some a ∧ R a b := by
  induction h generalizing i with
  | nil => cases hb
  | @cons a _ _ _ hfirst _ ih =>
    cases i with
    | zero =>
      cases hb
      exact ⟨a, rfl, hfirst⟩
    | succ i => exact ih hb

theorem exists_of_mem {α β : Type} {R : α → β → Prop} {as : List α} {bs : List β} {b : β}
    (h : List.Forall₂ R as bs) (hb : b ∈ bs) : ∃ a ∈ as, R a b := by
  obtain ⟨i, hi⟩ := List.mem_iff_getElem?.mp hb
  obtain ⟨a, ha, hab⟩ := exists_of_getElem? h hi
  exact ⟨a, List.mem_of_getElem? ha, hab⟩

/-- All lists are of one schema. -/
def OwnedBy (s : Schema) (l : InputLists) : Prop :=
  ∀ name id, l.find? name = some id → Owned s l name id

theorem fields_eq {list : InputList} (h : l.list? id = some list) : l.fields id = list.fields := by
  rw [fields, h]
  rfl

/-- The fields of the list of a type describe what the type declares, in order. -/
theorem OwnedBy.fields (h : OwnedBy s l) (ht : s.type? t.name = some t)
    (hid : l.find? t.name = some id) :
    List.Forall₂ (Describes s l t) t.declared (l.fields id) := by
  obtain ⟨t', fields, ht', _, hlist, hfields⟩ := h t.name id hid
  rw [ht] at ht'
  cases ht'
  rw [fields_eq hlist]
  exact hfields

/-- What stands below a field that has a shared list: the list of an input object type. -/
theorem Describes.of_shared {next : ListId} (h : Describes s l owner declared f)
    (hc : f.children = .shared next) :
    declared.2.listDepth < 2 ∧ s.type? declared.2.name = some f.type ∧
      f.type.isInputObject = true ∧ l.find? f.type.name = some next := by
  have htells := h.tells
  have ho : f.resolution = .object := htells.children.mp ⟨next, hc⟩
  obtain ⟨id, hid, hc'⟩ := h.shared ho
  rw [hc] at hc'
  cases hc'
  have hres := htells.resolution
  rw [ho] at hres
  split at hres
  next hdepth =>
    exact ⟨hdepth, htells.type, TypeDef.inputResolution_eq_object_iff.mp hres.symm, hid⟩
  next => cases hres

/-- A typed field that names lead to tells of a declared field that they lead to. -/
theorem Leads.exists_declared {place : Place} (h : l.Leads id names place f) (hl : OwnedBy s l) :
    ∀ t, s.type? t.name = some t → l.find? t.name = some id →
      ∃ owner declared, s.Leads t names owner declared ∧ f.Tells s owner declared := by
  induction h with
  | @last id i name f hf hname =>
    intro t ht hid
    obtain ⟨declared, hd, hdesc⟩ := exists_of_getElem? (hl.fields ht hid) hf
    obtain rfl := hdesc.name.symm.trans hname
    exact ⟨t, declared, .last (List.mem_of_getElem? hd), hdesc.tells⟩
  | @step id next i name f g names place hf hname hnext _ ih =>
    intro t ht hid
    obtain ⟨declared, hd, hdesc⟩ := exists_of_getElem? (hl.fields ht hid) hf
    obtain rfl := hdesc.name.symm.trans hname
    obtain ⟨hdepth, hu, hi, hlist⟩ := hdesc.of_shared hnext
    obtain ⟨owner, target, hleads, htells⟩ :=
      ih f.type (by rw [Schema.name_of_type? hu, hu]) hlist
    exact ⟨owner, target, .step (List.mem_of_getElem? hd) hdepth hu hi hleads, htells⟩

/-- Names that lead to a declared field lead to a typed field that tells of it. -/
theorem exists_leads (h : s.Leads t names owner declared) (hl : OwnedBy s l) :
    s.type? t.name = some t → l.find? t.name = some id →
      ∃ place f, l.Leads id names place f ∧ f.Tells s owner declared := by
  induction h generalizing id with
  | @last t declared hd =>
    intro ht hid
    obtain ⟨i, hi⟩ := List.mem_iff_getElem?.mp hd
    obtain ⟨f, hf, hdesc⟩ := exists_of_getElem? (hl.fields ht hid).flip hi
    exact ⟨(id, i), f, .last hf hdesc.name, hdesc.tells⟩
  | @step t u owner declared target names hd hdepth hu hi _ ih =>
    intro ht hid
    obtain ⟨i, hdi⟩ := List.mem_iff_getElem?.mp hd
    obtain ⟨f, hf, hdesc⟩ := exists_of_getElem? (hl.fields ht hid).flip hdi
    have htells := hdesc.tells
    obtain rfl : u = f.type := Option.some.inj (hu.symm.trans htells.type)
    have ho : f.resolution = .object := by
      rw [htells.resolution, if_pos hdepth]
      exact TypeDef.inputResolution_eq_object_iff.mpr hi
    obtain ⟨next, hnext, hc⟩ := hdesc.shared ho
    obtain ⟨place, g, hleads, hg⟩ := ih (by rw [Schema.name_of_type? hu, hu]) hnext
    exact ⟨place, g, .step hf hdesc.name hc hleads, hg⟩

/-- The place of a field in a list is told from its name, if the type declares each field once. -/
theorem OwnedBy.place_eq {i j : Nat} {g : TypedField} (hl : OwnedBy s l)
    (ht : s.type? t.name = some t) (hid : l.find? t.name = some id)
    (hn : (t.declared.map (·.1)).Nodup) (hf : (l.fields id)[i]? = some f)
    (hg : (l.fields id)[j]? = some g) (h : f.name = g.name) : i = j := by
  obtain ⟨declared, hd, hdesc⟩ := exists_of_getElem? (hl.fields ht hid) hf
  obtain ⟨declared', hd', hdesc'⟩ := exists_of_getElem? (hl.fields ht hid) hg
  have hi : (t.declared.map (·.1))[i]? = some f.name := by
    rw [List.getElem?_map, hd, Option.map_some, hdesc.name]
  have hj : (t.declared.map (·.1))[j]? = some f.name := by
    rw [List.getElem?_map, hd', Option.map_some, h, hdesc'.name]
  obtain ⟨hlt, _⟩ := List.getElem?_eq_some_iff.mp hi
  exact (List.getElem?_inj hlt hn).mp (hi.trans hj.symm)

/-- **Names lead to one place at most**, if every type declares each field once. -/
theorem Leads.unique {place place' : Place} {g : TypedField} (hl : OwnedBy s l)
    (hs : s.DeclaresOnce) (h : l.Leads id names place f) (h' : l.Leads id names place' g) :
    ∀ t, s.type? t.name = some t → t.isInputObject = true → l.find? t.name = some id →
      place = place' ∧ f = g := by
  induction h generalizing place' g with
  | @last id i name f hf hname =>
    intro t ht hi hid
    have hn := hs t (Schema.mem_types_of_type? ht) hi
    cases h' with
    | @last _ j _ g hg hname' =>
      obtain rfl := hl.place_eq ht hid hn hf hg (hname.trans hname'.symm)
      rw [hf] at hg
      exact ⟨rfl, Option.some.inj hg⟩
    | step _ _ _ hrest => cases hrest
  | @step id next i name f last names place hf hname hnext hrest ih =>
    intro t ht hi hid
    have hn := hs t (Schema.mem_types_of_type? ht) hi
    cases h' with
    | last => cases hrest
    | @step _ next' j _ f' g _ _ hf' hname' hnext' hrest' =>
      obtain rfl := hl.place_eq ht hid hn hf hf' (hname.trans hname'.symm)
      rw [hf] at hf'
      cases hf'
      rw [hnext] at hnext'
      cases hnext'
      obtain ⟨declared, _, hdesc⟩ := exists_of_getElem? (hl.fields ht hid) hf
      obtain ⟨_, hu, hiu, hlist⟩ := hdesc.of_shared hnext
      exact ih hrest' f.type (by rw [Schema.name_of_type? hu, hu]) hiu hlist

/-! ### After any resolutions -/

/-- After resolutions in one schema all lists are of that schema. -/
theorem ownedBy_resolveAll (history : List TypeDef)
    (h : ∀ u ∈ history, u ∈ s.types ∧ u.isInputObject = true) :
    OwnedBy s (resolveAll (history.map (s, ·))) := by
  intro name id hid
  have hcalls : ∀ call ∈ history.map ((s, ·) : TypeDef → Schema × TypeDef),
      call.2 ∈ call.1.types ∧ call.2.isInputObject = true := by
    intro call hcall
    obtain ⟨u, hu, rfl⟩ := List.mem_map.mp hcall
    exact h u hu
  obtain ⟨s', ⟨before, u, after, hsplit, _⟩, howned⟩ := owned_of_find? _ hcalls hid
  have hmem : (s', u) ∈ history.map ((s, ·) : TypeDef → Schema × TypeDef) := by
    rw [hsplit]
    simp
  obtain ⟨_, _, heq⟩ := List.mem_map.mp hmem
  cases heq
  exact howned

/-- The lists there are once a type has been resolved after others, and the list of the type. -/
theorem resolve_ownedBy (history : List TypeDef)
    (h : ∀ u ∈ history, u ∈ s.types ∧ u.isInputObject = true) (ht : t ∈ s.types)
    (hi : t.isInputObject = true) :
    OwnedBy s (resolve s t (resolveAll (history.map (s, ·)))).2.inputs ∧
      (resolve s t (resolveAll (history.map (s, ·)))).2.inputs.find? t.name =
        some (resolve s t (resolveAll (history.map (s, ·)))).1 := by
  refine ⟨?_, (resolve_adds ht hi _).2⟩
  have hall := ownedBy_resolveAll (s := s) (history ++ [t]) (by
    intro u hu
    rcases List.mem_append.mp hu with hu | hu
    · exact h u hu
    · rw [List.mem_singleton.mp hu]
      exact ⟨ht, hi⟩)
  rwa [List.map_append, List.map_singleton, resolveAll_append_singleton] at hall

/-- **The lists describe the schema along every path.**  Whatever was resolved before, names lead from
the list of an input object type to a typed field exactly if they lead from the type to a declared
field, and the typed field tells of that one.  There is one such place only, if types declare their
fields once.  So what the lists tell along paths is the same after any other resolutions, and after
none. -/
theorem resolve_leads (s : Schema) (history : List TypeDef) (t : TypeDef)
    (hhistory : ∀ u ∈ history, u ∈ s.types ∧ u.isInputObject = true) (ht : t ∈ s.types)
    (hi : t.isInputObject = true) (names : List String) :
    let answer := resolve s t (resolveAll (history.map (s, ·)))
    ((∃ place f, answer.2.inputs.Leads answer.1 names place f) ↔
      ∃ owner declared, s.Leads t names owner declared) ∧
    (∀ place f, answer.2.inputs.Leads answer.1 names place f →
      ∃ owner declared, s.Leads t names owner declared ∧ f.Tells s owner declared) ∧
    (∀ owner declared, s.Leads t names owner declared →
      ∃ place f, answer.2.inputs.Leads answer.1 names place f ∧ f.Tells s owner declared) ∧
    (s.DeclaresOnce → ∀ place place' f g, answer.2.inputs.Leads answer.1 names place f →
      answer.2.inputs.Leads answer.1 names place' g → place = place' ∧ f = g) ∧
    ∀ other : List TypeDef, (∀ u ∈ other, u ∈ s.types ∧ u.isInputObject = true) →
      let answer' := resolve s t (resolveAll (other.map (s, ·)))
      ∀ place f, answer.2.inputs.Leads answer.1 names place f →
        ∃ place' g, answer'.2.inputs.Leads answer'.1 names place' g ∧
          { g with children := .none } = { f with children := .none } ∧
          ((∃ id, g.children = .shared id) ↔ ∃ id, f.children = .shared id) := by
  intro answer
  have htype : s.type? t.name = some t := Schema.type?_name ht
  obtain ⟨howned, hfind⟩ := resolve_ownedBy history hhistory ht hi
  have hdown : ∀ place f, answer.2.inputs.Leads answer.1 names place f →
      ∃ owner declared, s.Leads t names owner declared ∧ f.Tells s owner declared :=
    fun place f hleads => hleads.exists_declared howned t htype hfind
  have hup : ∀ owner declared, s.Leads t names owner declared →
      ∃ place f, answer.2.inputs.Leads answer.1 names place f ∧ f.Tells s owner declared :=
    fun owner declared hleads => exists_leads hleads howned htype hfind
  refine ⟨⟨?_, ?_⟩, hdown, hup, ?_, ?_⟩
  · rintro ⟨place, f, hleads⟩
    obtain ⟨owner, declared, hdeclared, _⟩ := hdown place f hleads
    exact ⟨owner, declared, hdeclared⟩
  · rintro ⟨owner, declared, hdeclared⟩
    obtain ⟨place, f, hleads, _⟩ := hup owner declared hdeclared
    exact ⟨place, f, hleads⟩
  · intro hs place place' f g hf hg
    exact hf.unique howned hs hg t htype hi hfind
  · intro other hother answer' place f hf
    obtain ⟨owner, declared, hdeclared, htells⟩ := hdown place f hf
    obtain ⟨howned', hfind'⟩ := resolve_ownedBy other hother ht hi
    obtain ⟨place', g, hg, htells'⟩ := exists_leads hdeclared howned' htype hfind'
    refine ⟨place', g, hg, htells'.eq htells, ?_⟩
    have hres : g.resolution = f.resolution := congrArg (·.resolution) (htells'.eq htells)
    rw [htells'.children, htells.children, hres]

/-- Once round a cycle that was entered elsewhere before. -/
theorem resolve_leads_round_a_cycle :
    (∀ u ∈ [Sample.range], u ∈ Sample.schema.types ∧ u.isInputObject = true) ∧
    Sample.filter ∈ Sample.schema.types ∧ Sample.filter.isInputObject = true ∧
    let answer := resolve Sample.schema Sample.filter
      (resolveAll ([Sample.range].map (Sample.schema, ·)))
    ∃ place f, answer.2.inputs.Leads answer.1 ["ranges", "of", "ranges", "least"] place f ∧
      f.parent = some Sample.range ∧ f.resolution = .scalar ∧
      ∀ place' g, answer.2.inputs.Leads answer.1 ["ranges", "of", "ranges", "least"] place' g →
        place = place' := by
  have hhistory : ∀ u ∈ [Sample.range], u ∈ Sample.schema.types ∧ u.isInputObject = true := by
    simp only [List.forall_mem_singleton]
    exact ⟨by simp [Sample.schema], rfl⟩
  have hfilter : Sample.filter ∈ Sample.schema.types := by simp [Sample.schema]
  have honce : Sample.schema.DeclaresOnce := by
    unfold Schema.DeclaresOnce
    decide
  have hranges : ("ranges", .list (.named "Range" true) true) ∈ Sample.filter.declared := by decide
  have hof : ("of", .named "Filter" true) ∈ Sample.range.declared := by decide
  have hleast : ("least", Sample.maybe "Int") ∈ Sample.range.declared := by decide
  have hround := (Schema.Leads.last hleast).step (s := Sample.schema) hranges (by decide) rfl rfl
  have hpath := (hround.step hof (by decide) rfl rfl).step hranges (by decide) rfl rfl
  obtain ⟨_, _, hup, hunique, _⟩ := resolve_leads Sample.schema [Sample.range] Sample.filter hhistory
    hfilter rfl ["ranges", "of", "ranges", "least"]
  obtain ⟨place, f, hleads, htells⟩ := hup _ _ hpath
  refine ⟨hhistory, hfilter, rfl, place, f, hleads, htells.parent, ?_, fun place' g hg =>
    (hunique honce place place' f g hleads hg).1⟩
  have hint : Sample.schema.type? "Int" = some ⟨"Int", .scalar⟩ := rfl
  have htype : f.type = ⟨"Int", .scalar⟩ :=
    Option.some.inj (htells.type.symm.trans hint)
  rw [htells.resolution, htype]
  rfl

end InputLists

end GraphQLTyping
