import Mathlib.Data.List.Forall2
import GraphQLTyping.Proofs.Schema.Names
import GraphQLTyping.Typing.InputLists

/-!
# What resolving a type does to the lists

A resolution of an input object type leaves every list that it finds alone, contents included, adds
a list for its type and for every type that it meets first, and returns with all these lists
complete (`resolve_adds`).

Complete means: one typed field for every declared field, in the order of their declaration, and
each **describes** its declared field (`Describes`).  While a resolution runs, the lists of the types
in progress are not complete: they are reserved empty, are met in that state by references that lead
back to them, and grow by one field at a time.  So the induction is about one such list at a time
(`Filling`): the lists before it are as they were, those after it are complete, and its own fields
describe the declared fields that were typed so far.  The fields that are shared are those of names
that have a list, and no step takes a name away.

The nesting of resolutions is bounded by the number of input object types that have no list yet
(`uncached`), as each reserves one before it goes on.
-/

namespace GraphQLTyping.InputLists

variable {s : Schema} {t : TypeDef} {l l' l'' : InputLists} {name : String} {id : ListId}

/-! ### Names that have a list -/

/-- The names that have a list, in the order of the lists. -/
def names (l : InputLists) : List String := l.lists.map (·.owner.name)

theorem find?_eq (l : InputLists) (name : String) :
    l.find? name = l.names.findIdx? (· == name) := by
  rw [find?, names, List.findIdx?_map]
  rfl

theorem find?_eq_none_iff : l.find? name = none ↔ name ∉ l.names := by
  rw [find?_eq, List.findIdx?_eq_none_iff]
  constructor
  · intro h hm
    simpa using h name hm
  · intro h x hx
    simp only [beq_eq_false_iff_ne]
    rintro rfl
    exact h hx

theorem isResolved_iff : l.isResolved name = true ↔ name ∈ l.names := by
  rw [isResolved, Option.isSome_iff_ne_none, ne_eq, find?_eq_none_iff, not_not]

/-- A number is the list of one name at most. -/
theorem getElem?_names_of_find? (h : l.find? name = some id) : l.names[id]? = some name := by
  rw [find?_eq, List.findIdx?_eq_some_iff_getElem] at h
  obtain ⟨hlt, heq, _⟩ := h
  rw [List.getElem?_eq_getElem hlt]
  simpa using heq

theorem find?_of_names_prefix (hn : l.names <+: l'.names) (h : l.find? name = some id) :
    l'.find? name = some id := by
  obtain ⟨more, hm⟩ := hn
  rw [find?_eq] at h ⊢
  rw [← hm, List.findIdx?_append, h]
  rfl

@[simp] theorem names_reserve : (l.reserve t).names = l.names ++ [t.name] := by
  simp [names, reserve]

@[simp] theorem names_addField (f : TypedField) : (l.addField id f).names = l.names := by
  apply List.ext_getElem?
  intro i
  simp only [names, addField, List.getElem?_map, List.getElem?_modify]
  cases l.lists[i]? with
  | none => rfl
  | some list => by_cases h : id = i <;> simp [h]

theorem find?_reserve (h : l.find? t.name = none) :
    (l.reserve t).find? t.name = some l.lists.length := by
  rw [find?_eq] at h
  rw [find?_eq, names_reserve, List.findIdx?_append, h]
  simp [names]

/-! ### Types that have no list yet -/

/-- The input object types of a schema that have no list yet. -/
def uncached (s : Schema) (l : InputLists) : List TypeDef :=
  s.types.filter fun t => t.isInputObject && !l.isResolved t.name

theorem uncached_length_le (h : l.names <+: l'.names) :
    (uncached s l').length ≤ (uncached s l).length := by
  rw [uncached, uncached, ← List.countP_eq_length_filter, ← List.countP_eq_length_filter]
  apply List.countP_mono_left
  intro t _ ht
  rw [Bool.and_eq_true, Bool.not_eq_true', ← Bool.not_eq_true, isResolved_iff] at ht ⊢
  exact ⟨ht.1, fun hm => ht.2 (h.subset hm)⟩

theorem uncached_reserve_lt (ht : t ∈ s.types) (hi : t.isInputObject = true)
    (h : l.find? t.name = none) :
    (uncached s (l.reserve t)).length < (uncached s l).length := by
  have heq : uncached s (l.reserve t) = (uncached s l).filter fun u => u.name != t.name := by
    rw [uncached, uncached, List.filter_filter]
    apply List.filter_congr
    intro u _
    rw [Bool.eq_iff_iff]
    simp only [Bool.and_eq_true, Bool.not_eq_true', ← Bool.not_eq_true, isResolved_iff,
      names_reserve, List.mem_append, List.mem_singleton, not_or, bne_iff_ne, ne_eq]
    exact ⟨fun ⟨a, b, c⟩ => ⟨c, a, b⟩, fun ⟨c, a, b⟩ => ⟨a, b, c⟩⟩
  rw [heq, List.length_filter_lt_length_iff_exists]
  refine ⟨t, ?_, by simp⟩
  rw [uncached, List.mem_filter, hi, Bool.true_and, Bool.not_eq_true', ← Bool.not_eq_true,
    isResolved_iff]
  exact ⟨ht, find?_eq_none_iff.mp h⟩

/-! ### Complete lists -/

/-- A typed field **describes** a declared field of an input object type of a schema: it has its
name, its type and the wrappers of that, and below it the very list of its type if it resolves to an
input object type, and nothing otherwise. -/
structure Describes (s : Schema) (l : InputLists) (owner : TypeDef) (declared : String × TypeRef)
    (f : TypedField) : Prop where
  side : f.side = .input
  name : f.name = declared.1
  parent : f.parent = some owner
  nonNull : f.nonNull = declared.2.shape.nonNull
  list : f.list = declared.2.shape.list
  type : s.type? declared.2.shape.name = some f.type
  resolution :
    f.resolution = if declared.2.shape.supported then f.type.inputResolution else .unclassified
  shared : f.resolution = .object →
    ∃ id, l.find? f.type.name = some id ∧ f.children = .shared id
  nothing : f.resolution ≠ .object → f.children = .none

theorem Describes.mono {owner : TypeDef} {declared : String × TypeRef} {f : TypedField}
    (h : Describes s l owner declared f) (hn : l.names <+: l'.names) :
    Describes s l' owner declared f := by
  refine { h with shared := fun hr => ?_ }
  obtain ⟨id, hf, hc⟩ := h.shared hr
  exact ⟨id, find?_of_names_prefix hn hf, hc⟩

/-- A list is **complete** if its type is an input object type of the schema and its fields describe
the declared fields of the type, one each, in the order of their declaration. -/
structure Complete (s : Schema) (l : InputLists) (list : InputList) : Prop where
  mem : list.owner ∈ s.types
  isInputObject : list.owner.isInputObject = true
  fields : List.Forall₂ (Describes s l list.owner) list.owner.declared list.fields

theorem Complete.mono {list : InputList} (h : Complete s l list) (hn : l.names <+: l'.names) :
    Complete s l' list :=
  { h with fields := h.fields.imp fun _ _ hd => hd.mono hn }

/-- Lists **add** complete ones to others, all of which stay as they are. -/
def Adds (s : Schema) (l l' : InputLists) : Prop :=
  ∃ more, l'.lists = l.lists ++ more ∧ ∀ list ∈ more, Complete s l' list

theorem Adds.names_prefix (h : Adds s l l') : l.names <+: l'.names := by
  obtain ⟨more, hm, _⟩ := h
  rw [names, names, hm, List.map_append]
  exact List.prefix_append _ _

theorem Adds.refl (s : Schema) (l : InputLists) : Adds s l l := ⟨[], by simp, by simp⟩

theorem Adds.trans (h : Adds s l l') (h' : Adds s l' l'') : Adds s l l'' := by
  obtain ⟨more, hm, hc⟩ := h
  obtain ⟨more', hm', hc'⟩ := id h'
  refine ⟨more ++ more', by rw [hm', hm, List.append_assoc], ?_⟩
  intro list hlist
  rcases List.mem_append.mp hlist with hl | hl
  · exact (hc list hl).mono h'.names_prefix
  · exact hc' list hl

theorem Adds.complete (h : Adds s l l') (hl : ∀ list ∈ l.lists, Complete s l list) :
    ∀ list ∈ l'.lists, Complete s l' list := by
  obtain ⟨more, hm, hc⟩ := id h
  intro list hlist
  rw [hm] at hlist
  rcases List.mem_append.mp hlist with hlist | hlist
  · exact (hl list hlist).mono h.names_prefix
  · exact hc list hlist

/-! ### A list that is being filled -/

/-- A list is being **filled** for a type: it stands after the given ones, its fields describe the
declared fields that were typed so far, and the lists after it are complete. -/
def Filling (s : Schema) (before : List InputList) (t : TypeDef) (typed : List (String × TypeRef))
    (l : InputLists) : Prop :=
  ∃ fields more, l.lists = before ++ ⟨t, fields⟩ :: more ∧
    List.Forall₂ (Describes s l t) typed fields ∧ ∀ list ∈ more, Complete s l list

section Filling

variable {before : List InputList} {typed : List (String × TypeRef)}

theorem filling_reserve (s : Schema) (l : InputLists) (t : TypeDef) :
    Filling s l.lists t [] (l.reserve t) :=
  ⟨[], [], rfl, List.Forall₂.nil, by simp⟩

theorem Filling.of_adds (h : Filling s before t typed l) (ha : Adds s l l') :
    Filling s before t typed l' := by
  obtain ⟨fields, more, hl, hf, hm⟩ := h
  obtain ⟨added, hl', hm'⟩ := id ha
  have hn := ha.names_prefix
  refine ⟨fields, more ++ added, by rw [hl', hl, List.append_assoc, List.cons_append],
    hf.imp fun _ _ hd => hd.mono hn, ?_⟩
  intro list hlist
  rcases List.mem_append.mp hlist with h | h
  · exact (hm list h).mono hn
  · exact hm' list h

theorem Filling.addField (h : Filling s before t typed l) {declared : String × TypeRef}
    {f : TypedField} (hd : Describes s l t declared f) :
    Filling s before t (typed ++ [declared]) (l.addField before.length f) := by
  obtain ⟨fields, more, hl, hf, hm⟩ := h
  have hn : l.names <+: (l.addField before.length f).names := ⟨[], by simp⟩
  refine ⟨fields ++ [f], more, ?_, ?_, fun list hlist => (hm list hlist).mono hn⟩
  · simp [InputLists.addField, hl, List.modify_eq_take_cons_drop]
  · exact List.rel_append (hf.imp fun _ _ h => h.mono hn)
      (List.Forall₂.cons (hd.mono hn) List.Forall₂.nil)

theorem Filling.names_prefix (h : Filling s before t typed l) :
    (before.map (·.owner.name) ++ [t.name]) <+: l.names := by
  obtain ⟨fields, more, hl, _, _⟩ := h
  rw [names, hl]
  exact ⟨more.map (·.owner.name), by simp⟩

/-- Once all declared fields are typed the list is complete itself. -/
theorem Filling.adds (h : Filling s l.lists t t.declared l') (ht : t ∈ s.types)
    (hi : t.isInputObject = true) : Adds s l l' := by
  obtain ⟨fields, more, hl, hf, hm⟩ := h
  refine ⟨⟨t, fields⟩ :: more, hl, ?_⟩
  intro list hlist
  rcases List.mem_cons.mp hlist with rfl | h
  · exact ⟨ht, hi, hf⟩
  · exact hm list h

end Filling

/-! ### The steps of a resolution -/

section Step

variable {resolve : TypeDef → StateM Resolving ListId} {owner : TypeDef}
  {declared : String × TypeRef} {r : Resolving} {depth : Nat}

theorem typeField_of_object (h : (s.typedInput owner declared).resolution = .object) :
    typeField s resolve owner declared r =
      ({ s.typedInput owner declared with
          children := .shared (resolve (s.typedInput owner declared).type r).1 },
        (resolve (s.typedInput owner declared).type r).2) := by
  have hs : declared.2.shape.supported = true := by
    by_contra hn
    rw [Schema.typedInput, if_neg hn] at h
    cases h
  simp only [typeField, hs, h]
  rfl

theorem typeField_of_other (h : (s.typedInput owner declared).resolution ≠ .object) :
    typeField s resolve owner declared r =
      (s.typedInput owner declared, { r with
        events := r.events ++
          if declared.2.shape.supported then []
          else [.unsupported owner.name declared.1 declared.2] }) := by
  cases hs : declared.2.shape.supported with
  | true =>
    simp only [typeField, hs, if_neg h, if_true, List.append_nil]
    rfl
  | false =>
    simp only [typeField, hs, if_neg h]
    rfl

theorem addTyped_snd :
    (addTyped s resolve owner id declared r).2 =
      { (typeField s resolve owner declared r).2 with
        inputs := (typeField s resolve owner declared r).2.inputs.addField id
          (typeField s resolve owner declared r).1 } := rfl

theorem forM_addTyped (fields : List (String × TypeRef)) (r : Resolving) :
    (fields.forM (addTyped s resolve owner id)) r =
      (⟨⟩, fields.foldl (fun r declared => (addTyped s resolve owner id declared r).2) r) := by
  induction fields generalizing r with
  | nil => rfl
  | cons declared rest ih => exact ih (addTyped s resolve owner id declared r).2

theorem resolveWithin_of_find? (h : r.inputs.find? t.name = some id) :
    resolveWithin s depth t r = (id, r) := by
  change (resolveWithin s depth t).run r = (id, r)
  cases depth <;>
  · simp only [resolveWithin, StateT.run_bind, StateT.run_get, pure_bind, h]
    rfl

theorem resolveWithin_of_none (h : r.inputs.find? t.name = none) :
    resolveWithin s (depth + 1) t r =
      let r' := t.declared.foldl
        (fun r' declared =>
          (addTyped s (resolveWithin s depth) t r.inputs.lists.length declared r').2)
        { r with inputs := r.inputs.reserve t }
      (r.inputs.lists.length, { r' with
        events := r'.events ++
          [.resolved (r'.inputs.fields r.inputs.lists.length).length t.name] }) := by
  have hloop : t.declared.forM (addTyped s (resolveWithin s depth) t r.inputs.lists.length)
      { r with inputs := r.inputs.reserve t } = _ :=
    forM_addTyped t.declared { r with inputs := r.inputs.reserve t }
  change (resolveWithin s (depth + 1) t).run r = _
  simp only [resolveWithin, StateT.run_bind, StateT.run_get, pure_bind, h, reserveList,
    StateT.run_modifyGet]
  rw [StateT.run, hloop]
  rfl

end Step

/-! ### Resolutions -/

theorem typedInput_type {declared : String × TypeRef} :
    (s.typedInput t declared).type = s.named declared.2.name := by
  rw [Schema.typedInput, TypeRef.name_shape]

/-- What a declared field is typed as describes it, once its type has been given a list. -/
theorem describes_typedInput {declared : String × TypeRef} {children : Children}
    (ht : t ∈ s.types) (hd : declared ∈ t.declared)
    (hs : (s.typedInput t declared).resolution = .object →
      ∃ id, l.find? (s.typedInput t declared).type.name = some id ∧ children = .shared id)
    (hn : (s.typedInput t declared).resolution ≠ .object → children = .none) :
    Describes s l t declared { s.typedInput t declared with children } := by
  refine ⟨rfl, rfl, rfl, rfl, rfl, ?_, rfl, hs, hn⟩
  rw [TypeRef.name_shape, Schema.type?_of_declared ht hd, ← typedInput_type]

/-- A field of an input object type refers to a type of the schema. -/
theorem mem_types_of_typedInput {declared : String × TypeRef} (ht : t ∈ s.types)
    (hd : declared ∈ t.declared) (hr : (s.typedInput t declared).resolution = .object) :
    (s.typedInput t declared).type ∈ s.types ∧
      (s.typedInput t declared).type.isInputObject = true := by
  rw [typedInput_type]
  refine ⟨Schema.mem_types_of_type? (Schema.type?_of_declared ht hd), ?_⟩
  rw [Schema.typedInput] at hr
  split at hr
  · rw [TypeRef.name_shape] at hr
    exact TypeDef.inputResolution_eq_object_iff.mp hr
  · cases hr

/-- What a resolution owes to whoever asks for the list of a type. -/
def Answers (s : Schema) (resolve : TypeDef → StateM Resolving ListId) (u : TypeDef)
    (r : Resolving) : Prop :=
  Adds s r.inputs (resolve u r).2.inputs ∧
    (resolve u r).2.inputs.find? u.name = some (resolve u r).1

section Loop

variable {before : List InputList} {resolve : TypeDef → StateM Resolving ListId}

/-- One more field of a list that is being filled. -/
theorem Filling.addTyped {typed : List (String × TypeRef)} {declared : String × TypeRef}
    {r : Resolving} (hr : Filling s before t typed r.inputs) (ht : t ∈ s.types)
    (hd : declared ∈ t.declared)
    (hres : ∀ u ∈ s.types, u.isInputObject = true → Answers s resolve u r) :
    Filling s before t (typed ++ [declared])
      (InputLists.addTyped s resolve t before.length declared r).2.inputs := by
  rw [addTyped_snd]
  by_cases ho : (s.typedInput t declared).resolution = .object
  · obtain ⟨hmem, hobj⟩ := mem_types_of_typedInput ht hd ho
    obtain ⟨hadd, hfind⟩ := hres _ hmem hobj
    rw [typeField_of_object ho]
    refine (hr.of_adds hadd).addField (describes_typedInput ht hd ?_ ?_)
    · exact fun _ => ⟨_, hfind, rfl⟩
    · exact fun hn => absurd ho hn
  · rw [typeField_of_other ho]
    refine hr.addField (f := { s.typedInput t declared with children := .none })
      (describes_typedInput ht hd ?_ ?_)
    · exact fun h => absurd h ho
    · exact fun _ => rfl

/-- The loop over the declared fields, from any point of it on. -/
theorem Filling.foldl (ht : t ∈ s.types)
    (hres : ∀ r : Resolving, (before.map (·.owner.name) ++ [t.name]) <+: r.inputs.names →
      ∀ u ∈ s.types, u.isInputObject = true → Answers s resolve u r) :
    ∀ (todo typed : List (String × TypeRef)) (r : Resolving), t.declared = typed ++ todo →
      Filling s before t typed r.inputs →
      Filling s before t t.declared
        (todo.foldl
          (fun r declared => (InputLists.addTyped s resolve t before.length declared r).2)
          r).inputs := by
  intro todo
  induction todo with
  | nil =>
    intro typed r hsplit hr
    rw [hsplit, List.append_nil]
    exact hr
  | cons declared rest ih =>
    intro typed r hsplit hr
    have hd : declared ∈ t.declared := by rw [hsplit]; simp
    refine ih (typed ++ [declared]) _ (by rw [hsplit, List.append_assoc]; rfl) ?_
    exact hr.addTyped ht hd (hres r hr.names_prefix)

end Loop

/-- **A resolution only adds complete lists**, one of them for its type unless there is one.  There
have to be as many levels left as there are types without a list. -/
theorem resolveWithin_answers (s : Schema) (depth : Nat) (t : TypeDef) (r : Resolving)
    (ht : t ∈ s.types) (hi : t.isInputObject = true)
    (hu : (uncached s r.inputs).length ≤ depth) : Answers s (resolveWithin s depth) t r := by
  induction depth generalizing t r with
  | zero =>
    cases hf : r.inputs.find? t.name with
    | some id =>
      rw [Answers, resolveWithin_of_find? hf]
      exact ⟨Adds.refl s _, hf⟩
    | none =>
      -- no level is left, and yet the type itself has no list
      have := uncached_reserve_lt ht hi hf
      omega
  | succ depth ih =>
    cases hf : r.inputs.find? t.name with
    | some id =>
      rw [Answers, resolveWithin_of_find? hf]
      exact ⟨Adds.refl s _, hf⟩
    | none =>
      -- wherever the loop resolves a type, at least the list reserved for `t` is there, and so
      -- the levels that are left suffice
      have hlt := uncached_reserve_lt ht hi hf
      have hres : ∀ r' : Resolving,
          (r.inputs.lists.map (·.owner.name) ++ [t.name]) <+: r'.inputs.names →
          ∀ u ∈ s.types, u.isInputObject = true → Answers s (resolveWithin s depth) u r' := by
        intro r' hp u hu' ho
        have hle : (uncached s r'.inputs).length ≤ (uncached s (r.inputs.reserve t)).length := by
          apply uncached_length_le
          rw [names_reserve]
          exact hp
        exact ih u r' hu' ho (by omega)
      have hfill := Filling.foldl ht hres t.declared [] { r with inputs := r.inputs.reserve t } rfl
        (filling_reserve s r.inputs t)
      rw [Answers, resolveWithin_of_none hf]
      refine ⟨hfill.adds ht hi, find?_of_names_prefix ?_ (find?_reserve hf)⟩
      rw [names_reserve]
      exact hfill.names_prefix

theorem uncached_length_lt (s : Schema) (l : InputLists) :
    (uncached s l).length < s.types.length + 1 :=
  Nat.lt_succ_of_le (List.length_filter_le _ _)

theorem resolve_adds (ht : t ∈ s.types) (hi : t.isInputObject = true) (l : InputLists) :
    Adds s l (resolve s t l).2.inputs ∧
      (resolve s t l).2.inputs.find? t.name = some (resolve s t l).1 :=
  resolveWithin_answers s _ t ⟨l, []⟩ ht hi (Nat.le_of_lt (uncached_length_lt s l))

end GraphQLTyping.InputLists
