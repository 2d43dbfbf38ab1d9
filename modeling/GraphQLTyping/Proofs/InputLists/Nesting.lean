import Mathlib.Data.List.Perm.Subperm
import GraphQLTyping.Proofs.InputLists.Events

/-!
# Resolutions in resolutions

A resolution is given a number of levels, as there is no end to the references of types.  With as many
levels as there are types that have no list yet, the number does not matter
(`resolveWithin_eq`), and it is the recursion that it stands for (`resolving_of_find?`,
`resolving_of_none`).

While a type is resolved, its list stands where it was reserved and some of its fields are typed: the
resolution is **midway** (`midway`).  From there it **starts** those of the types that its fields refer
to (`Starts`), and each of these finds one more name with a list.  So no chain of starts goes on
forever (`acc_starts`), and what follows from what is so of all that a resolution starts holds of every
resolution (`resolving_induct`).

The types that are **in progress** at a moment (`InProgress`), the innermost first, are all missed on
the way there.  Their names are different, none of them had a list when the outermost was started, and
each refers to the one it started.  Conversely every name that a resolution adds was once in progress
(`exists_inProgress`).
-/

namespace GraphQLTyping.InputLists

variable {s : Schema} {t u v : TypeDef} {l : InputLists} {r r' r'' : Resolving} {id : ListId}
  {declared : String × TypeRef} {typed rest : List (String × TypeRef)} {busy : List TypeDef}
  {resolve resolve' : TypeDef → StateM Resolving ListId} {depth depth' : Nat} {name : String}

/-! ### Growth -/

/-- A resolution **grows**: names with a list and events are added, and none go. -/
structure Grows (r r' : Resolving) : Prop where
  names : r.inputs.names <+: r'.inputs.names
  events : r.events <+: r'.events

theorem Grows.refl (r : Resolving) : Grows r r := ⟨List.prefix_rfl, List.prefix_rfl⟩

theorem Grows.trans (h : Grows r r') (h' : Grows r' r'') : Grows r r'' :=
  ⟨h.names.trans h'.names, h.events.trans h'.events⟩

theorem grows_reserve (r : Resolving) (t : TypeDef) :
    Grows r { r with inputs := r.inputs.reserve t } := by
  refine ⟨?_, List.prefix_rfl⟩
  rw [names_reserve]
  exact List.prefix_append _ _

theorem grows_addField (r : Resolving) (id : ListId) (f : TypedField) (more : List InputEvent) :
    Grows r ⟨r.inputs.addField id f, r.events ++ more⟩ := by
  refine ⟨⟨[], ?_⟩, List.prefix_append _ _⟩
  rw [names_addField, List.append_nil]

theorem grows_addTyped (h : ∀ u r, Grows r (resolve u r).2) (id : ListId)
    (declared : String × TypeRef) (r : Resolving) :
    Grows r (addTyped s resolve t id declared r).2 := by
  rw [addTyped_snd]
  by_cases ho : (s.typedInput t declared).resolution = .object
  · rw [typeField_of_object ho]
    refine (h (s.typedInput t declared).type r).trans ?_
    simpa using grows_addField (resolve (s.typedInput t declared).type r).2 id _ []
  · rw [typeField_of_other ho]
    exact grows_addField r id _ _

theorem grows_foldl (h : ∀ u r, Grows r (resolve u r).2) (id : ListId)
    (fields : List (String × TypeRef)) (r : Resolving) :
    Grows r (fields.foldl (fun r declared => (addTyped s resolve t id declared r).2) r) := by
  induction fields generalizing r with
  | nil => exact Grows.refl r
  | cons declared rest ih => exact (grows_addTyped h id declared r).trans (ih _)

theorem resolveWithin_grows (s : Schema) (depth : Nat) (t : TypeDef) (r : Resolving) :
    Grows r (resolveWithin s depth t r).2 := by
  induction depth generalizing t r with
  | zero =>
    cases hf : r.inputs.find? t.name with
    | some id =>
      rw [resolveWithin_of_find? hf]
      exact Grows.refl r
    | none =>
      have heq : resolveWithin s 0 t r =
          (r.inputs.lists.length, { r with inputs := r.inputs.reserve t }) := by
        change (resolveWithin s 0 t).run r = _
        simp only [resolveWithin, StateT.run_bind, StateT.run_get, pure_bind, hf]
        rfl
      rw [heq]
      exact grows_reserve r t
  | succ depth ih =>
    cases hf : r.inputs.find? t.name with
    | some id =>
      rw [resolveWithin_of_find? hf]
      exact Grows.refl r
    | none =>
      have hloop := grows_foldl (s := s) (t := t) ih r.inputs.lists.length t.declared
        { r with inputs := r.inputs.reserve t }
      rw [resolveWithin_of_none hf]
      exact ((grows_reserve r t).trans hloop).trans ⟨List.prefix_rfl, List.prefix_append _ _⟩

/-! ### Enough levels -/

/-- Typing a field depends on how its type is resolved then and there. -/
theorem addTyped_congr (h : (s.typedInput t declared).resolution = .object →
      resolve (s.typedInput t declared).type r = resolve' (s.typedInput t declared).type r) :
    addTyped s resolve t id declared r = addTyped s resolve' t id declared r := by
  refine Prod.ext rfl ?_
  rw [addTyped_snd, addTyped_snd]
  by_cases ho : (s.typedInput t declared).resolution = .object
  · rw [typeField_of_object ho, typeField_of_object ho, h ho]
  · rw [typeField_of_other ho, typeField_of_other ho]

/-- The loop over declared fields depends on how types are resolved once some names have a list. -/
theorem foldl_addTyped_congr {names : List String} (ht : t ∈ s.types)
    (hgrows : ∀ u r, Grows r (resolve' u r).2)
    (hsame : ∀ r : Resolving, names <+: r.inputs.names →
      ∀ u ∈ s.types, u.isInputObject = true → resolve u r = resolve' u r)
    (fields : List (String × TypeRef)) (hfields : ∀ declared ∈ fields, declared ∈ t.declared)
    (r : Resolving) (hr : names <+: r.inputs.names) :
    fields.foldl (fun r declared => (addTyped s resolve t id declared r).2) r =
      fields.foldl (fun r declared => (addTyped s resolve' t id declared r).2) r := by
  induction fields generalizing r with
  | nil => rfl
  | cons declared rest ih =>
    have hd := hfields declared List.mem_cons_self
    have hfirst : addTyped s resolve t id declared r = addTyped s resolve' t id declared r := by
      refine addTyped_congr fun ho => ?_
      obtain ⟨hmem, hi⟩ := mem_types_of_typedInput ht hd ho
      exact hsame r hr _ hmem hi
    rw [List.foldl_cons, List.foldl_cons, hfirst]
    refine ih (fun other hother => hfields other (List.mem_cons_of_mem _ hother)) _ ?_
    exact hr.trans (grows_addTyped hgrows id declared r).names

/-- **Levels do not matter**, if there are as many as there are types without a list. -/
theorem resolveWithin_eq (ht : t ∈ s.types) (hi : t.isInputObject = true)
    (h : (uncached s r.inputs).length ≤ depth) (h' : (uncached s r.inputs).length ≤ depth') :
    resolveWithin s depth t r = resolveWithin s depth' t r := by
  induction depth generalizing depth' t r with
  | zero =>
    cases hf : r.inputs.find? t.name with
    | some id => rw [resolveWithin_of_find? hf, resolveWithin_of_find? hf]
    | none =>
      have := uncached_reserve_lt ht hi hf
      omega
  | succ depth ih =>
    cases hf : r.inputs.find? t.name with
    | some id => rw [resolveWithin_of_find? hf, resolveWithin_of_find? hf]
    | none =>
      have hlt := uncached_reserve_lt ht hi hf
      cases depth' with
      | zero => omega
      | succ depth' =>
        have hsame : ∀ r' : Resolving, (r.inputs.reserve t).names <+: r'.inputs.names →
            ∀ u ∈ s.types, u.isInputObject = true →
              resolveWithin s depth u r' = resolveWithin s depth' u r' := by
          intro r' hr' u hmem hu
          have hle := uncached_length_le (s := s) hr'
          exact ih hmem hu (by omega) (by omega)
        rw [resolveWithin_of_none hf, resolveWithin_of_none hf,
          foldl_addTyped_congr ht (resolveWithin_grows s depth') hsame t.declared (fun _ hd => hd) _
            List.prefix_rfl]

/-! ### Resolutions without a bound -/

/-- Resolves a type with as many levels as there may be. -/
def resolving (s : Schema) : TypeDef → StateM Resolving ListId :=
  resolveWithin s (s.types.length + 1)

/-- A resolution **midway**: the list of the type is reserved and some of its fields are typed. -/
def midway (s : Schema) (t : TypeDef) (r : Resolving) (typed : List (String × TypeRef)) :
    Resolving :=
  typed.foldl (fun r' declared => (addTyped s (resolving s) t r.inputs.lists.length declared r').2)
    { r with inputs := r.inputs.reserve t }

theorem resolving_grows (s : Schema) (t : TypeDef) (r : Resolving) : Grows r (resolving s t r).2 :=
  resolveWithin_grows s _ t r

theorem resolving_of_find? (h : r.inputs.find? t.name = some id) : resolving s t r = (id, r) :=
  resolveWithin_of_find? h

/-- A type without a list is resolved by typing all its fields; then its list is reported. -/
theorem resolving_of_none (ht : t ∈ s.types) (hi : t.isInputObject = true)
    (h : r.inputs.find? t.name = none) :
    resolving s t r = (r.inputs.lists.length, { midway s t r t.declared with
      events := (midway s t r t.declared).events ++
        [.resolved ((midway s t r t.declared).inputs.fields r.inputs.lists.length).length
          t.name] }) := by
  have hlt := uncached_reserve_lt ht hi h
  have hall := uncached_length_lt s r.inputs
  have hsame : ∀ r' : Resolving, (r.inputs.reserve t).names <+: r'.inputs.names →
      ∀ u ∈ s.types, u.isInputObject = true →
        resolveWithin s s.types.length u r' = resolving s u r' := by
    intro r' hr' u hmem hu
    have hle := uncached_length_le (s := s) hr'
    exact resolveWithin_eq hmem hu (by omega) (by omega)
  rw [resolving, resolveWithin_of_none h,
    foldl_addTyped_congr ht (resolving_grows s) hsame t.declared (fun _ hd => hd) _
      List.prefix_rfl]
  rfl

theorem midway_concat (s : Schema) (t : TypeDef) (r : Resolving) (typed : List (String × TypeRef))
    (declared : String × TypeRef) :
    midway s t r (typed ++ [declared]) =
      (addTyped s (resolving s) t r.inputs.lists.length declared (midway s t r typed)).2 := by
  rw [midway, List.foldl_append]
  rfl

theorem midway_grows (s : Schema) (t : TypeDef) (r : Resolving) (typed : List (String × TypeRef)) :
    Grows { r with inputs := r.inputs.reserve t } (midway s t r typed) :=
  grows_foldl (resolving_grows s) _ _ _

theorem midway_append_grows (s : Schema) (t : TypeDef) (r : Resolving)
    (typed more : List (String × TypeRef)) :
    Grows (midway s t r typed) (midway s t r (typed ++ more)) := by
  rw [midway, midway, List.foldl_append]
  exact grows_foldl (resolving_grows s) _ _ _

/-! ### What a resolution starts -/

/-- The resolution of a type **starts** that of another one: the next field to be typed is of that
type. -/
inductive Starts (s : Schema) (t : TypeDef) (r : Resolving) : TypeDef → Resolving → Prop
  | intro {typed rest : List (String × TypeRef)} {declared : String × TypeRef}
    (hmissed : r.inputs.find? t.name = none) (hsplit : t.declared = typed ++ declared :: rest)
    (ho : (s.typedInput t declared).resolution = .object) :
    Starts s t r (s.typedInput t declared).type (midway s t r typed)

namespace Starts

theorem missed (h : Starts s t r u r') : r.inputs.find? t.name = none := by
  cases h
  assumption

theorem mem_types (h : Starts s t r u r') (ht : t ∈ s.types) :
    u ∈ s.types ∧ u.isInputObject = true := by
  obtain ⟨_, hsplit, ho⟩ := h
  exact mem_types_of_typedInput ht (by rw [hsplit]; simp) ho

theorem refers (h : Starts s t r u r') (ht : t ∈ s.types) : s.Refers t u := by
  obtain ⟨_, hsplit, ho⟩ := h
  exact refers_of_typedInput ht (by rw [hsplit]; simp) ho

theorem grows (h : Starts s t r u r') : Grows { r with inputs := r.inputs.reserve t } r' := by
  obtain ⟨_, _, _⟩ := h
  exact midway_grows s t r _

theorem uncached_lt (h : Starts s t r u r') (ht : t ∈ s.types) (hi : t.isInputObject = true) :
    (uncached s r'.inputs).length < (uncached s r.inputs).length :=
  Nat.lt_of_le_of_lt (uncached_length_le h.grows.names) (uncached_reserve_lt ht hi h.missed)

end Starts

/-- **Induction over what resolutions start.** -/
theorem resolving_induct {P : TypeDef → Resolving → Prop}
    (h : ∀ t r, t ∈ s.types → t.isInputObject = true → (∀ u r', Starts s t r u r' → P u r') → P t r)
    (t : TypeDef) (r : Resolving) (ht : t ∈ s.types) (hi : t.isInputObject = true) : P t r := by
  induction hn : (uncached s r.inputs).length using Nat.strongRecOn generalizing t r with
  | ind n ih =>
    refine h t r ht hi fun u r' hstarts => ?_
    obtain ⟨hmem, hobject⟩ := hstarts.mem_types ht
    exact ih _ (hn ▸ hstarts.uncached_lt ht hi) u r' hmem hobject rfl

/-- **No chain of starts goes on forever.** -/
theorem acc_starts (t : TypeDef) (r : Resolving) (ht : t ∈ s.types) (hi : t.isInputObject = true) :
    Acc (fun call call' : TypeDef × Resolving => Starts s call'.1 call'.2 call.1 call.2) (t, r) :=
  resolving_induct (P := fun t r =>
      Acc (fun call call' : TypeDef × Resolving => Starts s call'.1 call'.2 call.1 call.2) (t, r))
    (fun _ _ _ _ ih => Acc.intro _ fun call hstarts => ih call.1 call.2 hstarts) t r ht hi

/-- What holds once a list is reserved, and is kept by the resolutions that are started and by adding
a field, holds at each moment between two fields. -/
theorem midway_induct {P : Resolving → Prop} (hmissed : r.inputs.find? t.name = none)
    (hreserved : P { r with inputs := r.inputs.reserve t })
    (hstarted : ∀ u r', Starts s t r u r' → P r' → P (resolving s u r').2)
    (hadded : ∀ r' f more, (∀ n name, .resolved n name ∉ more) → P r' →
      P ⟨r'.inputs.addField r.inputs.lists.length f, r'.events ++ more⟩)
    (hsplit : t.declared = typed ++ rest) : P (midway s t r typed) := by
  induction typed using List.reverseRecOn generalizing rest with
  | nil => exact hreserved
  | append_singleton typed declared ih =>
    rw [List.append_assoc, List.singleton_append] at hsplit
    have hbefore := ih hsplit
    rw [midway_concat, addTyped_snd]
    by_cases ho : (s.typedInput t declared).resolution = .object
    · rw [typeField_of_object ho]
      have hafter := hstarted _ _ (.intro hmissed hsplit ho) hbefore
      simpa using hadded _ _ [] (by simp) hafter
    · rw [typeField_of_other ho]
      refine hadded _ _ _ (fun n name hmem => ?_) hbefore
      split at hmem <;> simp at hmem

/-! ### Types in progress -/

/-- The types that are **in progress** when the resolution of the first of them starts: each but the
last was started by the next one, and had no list then. -/
inductive InProgress (s : Schema) (t : TypeDef) (r : Resolving) : List TypeDef → Resolving → Prop
  | start (hmissed : r.inputs.find? t.name = none) : InProgress s t r [t] r
  | next {u v : TypeDef} {busy : List TypeDef} {r' r'' : Resolving}
    (h : InProgress s t r (u :: busy) r') (hstarts : Starts s u r' v r'')
    (hmissed : r''.inputs.find? v.name = none) : InProgress s t r (v :: u :: busy) r''

namespace InProgress

/-- Induction over types in progress, with the innermost apart. -/
theorem head_induct {motive : ∀ u busy r', InProgress s t r (u :: busy) r' → Prop}
    (start : ∀ hmissed, motive t [] r (.start hmissed))
    (next : ∀ u v busy r' r'' (h : InProgress s t r (u :: busy) r') (hstarts : Starts s u r' v r'')
      (hmissed : r''.inputs.find? v.name = none), motive u busy r' h →
      motive v (u :: busy) r'' (h.next hstarts hmissed)) :
    ∀ {u busy r'} (h : InProgress s t r (u :: busy) r'), motive u busy r' h
  | _, _, _, .start hmissed => start hmissed
  | _, _, _, .next h hstarts hmissed =>
    next _ _ _ _ _ h hstarts hmissed (head_induct start next h)

theorem missed (h : InProgress s t r (u :: busy) r') : r'.inputs.find? u.name = none := by
  cases h with
  | start hmissed => exact hmissed
  | next _ _ hmissed => exact hmissed

theorem mem_types (h : InProgress s t r busy r') (ht : t ∈ s.types) (hi : t.isInputObject = true) :
    ∀ u ∈ busy, u ∈ s.types ∧ u.isInputObject = true := by
  induction h with
  | start _ => simpa using ⟨ht, hi⟩
  | next _ hstarts _ ih =>
    intro w hw
    rcases List.mem_cons.mp hw with rfl | hw
    · exact hstarts.mem_types (ih _ List.mem_cons_self).1
    · exact ih w hw

theorem names_prefix (h : InProgress s t r busy r') : r.inputs.names <+: r'.inputs.names := by
  induction h with
  | start _ => exact List.prefix_rfl
  | next _ hstarts _ ih => exact ih.trans ((grows_reserve _ _).trans hstarts.grows).names

/-- All but the innermost have a list by now. -/
theorem resolved (h : InProgress s t r (u :: busy) r') : ∀ v ∈ busy, v.name ∈ r'.inputs.names := by
  induction h using head_induct with
  | start _ => simp
  | next u v busy r' r'' _ hstarts _ ih =>
    have hsub := hstarts.grows.names.subset
    intro w hw
    refine hsub ?_
    rw [names_reserve]
    rcases List.mem_cons.mp hw with rfl | hw
    · exact List.mem_append_right _ (List.mem_singleton_self _)
    · exact List.mem_append_left _ (ih w hw)

/-- **Names in progress are different.** -/
theorem nodup (h : InProgress s t r busy r') : (busy.map (·.name)).Nodup := by
  induction h with
  | start _ => exact List.nodup_singleton _
  | @next u v busy r' r'' h hstarts hmissed ih =>
    refine List.nodup_cons.mpr ⟨fun hmem => ?_, ih⟩
    obtain ⟨w, hw, heq⟩ := List.mem_map.mp hmem
    have hold := (h.next hstarts hmissed).resolved w hw
    rw [heq] at hold
    exact find?_eq_none_iff.mp hmissed hold

/-- **No name in progress had a list** when the outermost was started. -/
theorem not_mem_names (h : InProgress s t r busy r') : ∀ u ∈ busy, u.name ∉ r.inputs.names := by
  induction h with
  | start hmissed => simpa using find?_eq_none_iff.mp hmissed
  | next h hstarts hmissed ih =>
    intro w hw
    rcases List.mem_cons.mp hw with rfl | hw
    · have hkept := InProgress.names_prefix (h.next hstarts hmissed)
      exact fun hmem => find?_eq_none_iff.mp hmissed (hkept.subset hmem)
    · exact ih w hw

/-- **There are no more types in progress than types without a list** when the outermost was
started. -/
theorem length_le (h : InProgress s t r busy r') (ht : t ∈ s.types) (hi : t.isInputObject = true) :
    busy.length ≤ (uncached s r.inputs).length := by
  refine (List.subperm_of_subset h.nodup.of_map fun u hu => ?_).length_le
  obtain ⟨hmem, hobject⟩ := h.mem_types ht hi u hu
  rw [uncached, List.mem_filter, hobject, Bool.true_and, Bool.not_eq_true', ← Bool.not_eq_true,
    isResolved_iff]
  exact ⟨hmem, h.not_mem_names u hu⟩

/-- The outermost of all is the type that started the rest. -/
theorem outer (h : InProgress s u r' busy r'') (hstarts : Starts s t r u r') :
    InProgress s t r (busy ++ [t]) r'' := by
  induction h with
  | start hmissed => exact (InProgress.start hstarts.missed).next hstarts hmissed
  | next _ hnext hmissed ih => exact ih.next hnext hmissed

end InProgress

/-- **Every name that a resolution adds was in progress** at some moment. -/
theorem exists_inProgress (ht : t ∈ s.types) (hi : t.isInputObject = true) (r : Resolving) :
    ∀ name ∈ (resolving s t r).2.inputs.names, name ∈ r.inputs.names ∨
      ∃ u busy r', InProgress s t r (u :: busy) r' ∧ u.name = name := by
  refine resolving_induct (P := fun t r => ∀ name ∈ (resolving s t r).2.inputs.names,
    name ∈ r.inputs.names ∨ ∃ u busy r', InProgress s t r (u :: busy) r' ∧ u.name = name)
    (fun t r ht hi ih => ?_) t r ht hi
  cases hf : r.inputs.find? t.name with
  | some id =>
    rw [resolving_of_find? hf]
    exact fun name => Or.inl
  | none =>
    rw [resolving_of_none ht hi hf]
    refine midway_induct (P := fun r' => ∀ name ∈ r'.inputs.names, name ∈ r.inputs.names ∨
      ∃ u busy r'', InProgress s t r (u :: busy) r'' ∧ u.name = name) hf ?_ ?_ ?_
      (List.append_nil _).symm
    · intro name hname
      rw [names_reserve, List.mem_append, List.mem_singleton] at hname
      rcases hname with hname | rfl
      · exact .inl hname
      · exact .inr ⟨t, [], r, .start hf, rfl⟩
    · intro u r' hstarts hbefore name hname
      rcases ih u r' hstarts name hname with hname | ⟨v, busy, r'', hbusy, heq⟩
      · exact hbefore name hname
      · exact .inr ⟨v, busy ++ [t], r'', hbusy.outer hstarts, heq⟩
    · intro r' f more _ hbefore name hname
      rw [names_addField] at hname
      exact hbefore name hname

end GraphQLTyping.InputLists
