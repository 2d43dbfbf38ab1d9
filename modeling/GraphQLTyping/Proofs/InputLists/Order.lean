import GraphQLTyping.Proofs.InputLists.Nesting

/-!
# Each type once, and in order

Whatever types are resolved one after the other (`life`), the list of a name is reported once, with as
many fields as it has, and a name without a list is never reported.

The lines stand in order.  A type that is started while others are in progress is reported before all
of these (`InProgress.before`).  And when it starts, every other name with a list had it when the
outermost started, or is in progress as well, or is reported already (`InProgress.accounted`); this
goes on to hold as its fields are typed.  In the end it has lists of all types that it refers to.  If
no references lead from it back to itself, none of these is in progress, so all of them are reported
before it.
-/

namespace GraphQLTyping

/-- Whether an event is the **line** of a name: that its list is complete. -/
def InputEvent.isLineOf (name : String) : InputEvent → Bool
  | .resolved _ type => type == name
  | .unsupported .. => false

namespace InputLists

variable {s : Schema} {t u v : TypeDef} {l : InputLists} {r r' r'' : Resolving} {id : ListId}
  {typed rest : List (String × TypeRef)} {busy : List TypeDef} {name first second : String}
  {old : List String} {events events' : List InputEvent} {calls : List (Schema × TypeDef)}

/-- The line of a name stands **before** that of another one. -/
def Before (events : List InputEvent) (first second : String) : Prop :=
  ∃ n m, [.resolved n first, .resolved m second].Sublist events

theorem Before.mono (h : Before events first second) (hsub : events.Sublist events') :
    Before events' first second := by
  obtain ⟨n, m, hlines⟩ := h
  exact ⟨n, m, hlines.trans hsub⟩

theorem before_concat {n m : Nat} (h : .resolved n first ∈ events) :
    Before (events ++ [.resolved m second]) first second :=
  ⟨n, m, (List.singleton_sublist.mpr h).append (List.Sublist.refl _)⟩

/-! ### Types in progress are reported inside out -/

/-- A resolution goes on after what it starts, and reports its own type at last. -/
theorem Starts.exists_events (h : Starts s t r u r') (ht : t ∈ s.types)
    (hi : t.isInputObject = true) :
    ∃ more n, (resolving s t r).2.events =
      (resolving s u r').2.events ++ more ++ [.resolved n t.name] := by
  rw [resolving_of_none ht hi h.missed]
  obtain @⟨typed, rest, declared, _, hsplit, ho⟩ := h
  obtain ⟨more, hmore⟩ := (midway_append_grows s t r (typed ++ [declared]) rest).events
  have hstep : (midway s t r (typed ++ [declared])).events =
      (resolving s (s.typedInput t declared).type (midway s t r typed)).2.events := by
    rw [midway_concat, addTyped_snd, typeField_of_object ho]
  rw [List.append_assoc, List.singleton_append, ← hsplit, hstep] at hmore
  exact ⟨more, _, congrArg (· ++ _) hmore.symm⟩

/-- The line of the type is the last of its resolution. -/
theorem exists_line (ht : t ∈ s.types) (hi : t.isInputObject = true)
    (h : r.inputs.find? t.name = none) :
    ∃ n, (resolving s t r).2.events =
      (midway s t r t.declared).events ++ [.resolved n t.name] := by
  rw [resolving_of_none ht hi h]
  exact ⟨_, rfl⟩

namespace InProgress

theorem events_prefix (h : InProgress s t r (u :: busy) r') (ht : t ∈ s.types)
    (hi : t.isInputObject = true) :
    (resolving s u r').2.events <+: (resolving s t r).2.events := by
  induction h using head_induct with
  | start _ => exact List.prefix_rfl
  | next u v busy r' r'' h hstarts _ ih =>
    obtain ⟨hmem, hobject⟩ := h.mem_types ht hi u List.mem_cons_self
    obtain ⟨more, n, hevents⟩ := hstarts.exists_events hmem hobject
    refine List.IsPrefix.trans ?_ ih
    rw [hevents, List.append_assoc]
    exact List.prefix_append _ _

/-- A type in progress is reported after the events of all that is started meanwhile. -/
theorem exists_events (h : InProgress s t r (u :: busy) r') (ht : t ∈ s.types)
    (hi : t.isInputObject = true) :
    ∀ v ∈ busy, ∃ more n,
      (resolving s u r').2.events ++ more ++ [.resolved n v.name] <+: (resolving s t r).2.events := by
  induction h using head_induct with
  | start _ => simp
  | next u v busy r' r'' h hstarts _ ih =>
    obtain ⟨hmem, hobject⟩ := h.mem_types ht hi u List.mem_cons_self
    obtain ⟨more, n, hevents⟩ := hstarts.exists_events hmem hobject
    intro w hw
    rcases List.mem_cons.mp hw with rfl | hw
    · refine ⟨more, n, ?_⟩
      rw [← hevents]
      exact h.events_prefix ht hi
    · obtain ⟨more', m, hprefix⟩ := ih w hw
      refine ⟨more ++ [.resolved n u.name] ++ more', m, ?_⟩
      rw [hevents] at hprefix
      simpa only [List.append_assoc] using hprefix

/-- **What is started while a type is in progress is reported before it.** -/
theorem before (h : InProgress s t r (u :: busy) r') (ht : t ∈ s.types)
    (hi : t.isInputObject = true) (hv : v ∈ busy) :
    Before (resolving s t r).2.events u.name v.name := by
  obtain ⟨more, n, hprefix⟩ := h.exists_events ht hi v hv
  obtain ⟨hmem, hobject⟩ := h.mem_types ht hi u List.mem_cons_self
  obtain ⟨m, hline⟩ := exists_line hmem hobject h.missed
  have hinner : .resolved m u.name ∈ (resolving s u r').2.events ++ more := by
    rw [hline]
    simp
  exact (before_concat hinner).mono hprefix.sublist

/-- References lead from a type in progress to what is started meanwhile. -/
theorem refers (h : InProgress s t r (u :: busy) r') (ht : t ∈ s.types)
    (hi : t.isInputObject = true) : ∀ v ∈ busy, Relation.TransGen s.Refers v u := by
  induction h using head_induct with
  | start _ => simp
  | next u v busy r' r'' h hstarts _ ih =>
    have href := hstarts.refers (h.mem_types ht hi u List.mem_cons_self).1
    intro w hw
    rcases List.mem_cons.mp hw with rfl | hw
    · exact .single href
    · exact (ih w hw).tail href

end InProgress

/-! ### Every name is accounted for -/

/-- Every name with a list is **accounted** for: it is an old one, that of a type in progress, or was
reported. -/
def Accounted (old : List String) (busy : List TypeDef) (r : Resolving) : Prop :=
  ∀ name ∈ r.inputs.names,
    name ∈ old ∨ (∃ u ∈ busy, u.name = name) ∨ ∃ n, .resolved n name ∈ r.events

theorem accounted_reserve (h : Accounted old busy r) (t : TypeDef) :
    Accounted old (t :: busy) { r with inputs := r.inputs.reserve t } := by
  intro name hname
  rw [names_reserve, List.mem_append, List.mem_singleton] at hname
  rcases hname with hname | rfl
  · exact (h name hname).imp_right (Or.imp_left fun ⟨u, hu, heq⟩ =>
      ⟨u, List.mem_cons_of_mem _ hu, heq⟩)
  · exact .inr (.inl ⟨t, List.mem_cons_self, rfl⟩)

theorem Accounted.addField (h : Accounted old busy r) (id : ListId) (f : TypedField)
    (more : List InputEvent) : Accounted old busy ⟨r.inputs.addField id f, r.events ++ more⟩ := by
  intro name hname
  rw [names_addField] at hname
  exact (h name hname).imp_right (Or.imp_right fun ⟨n, hn⟩ => ⟨n, List.mem_append_left _ hn⟩)

/-- A type in progress that is reported need not be in progress any more. -/
theorem Accounted.report (h : Accounted old (t :: busy) r) (n : Nat) :
    Accounted old busy { r with events := r.events ++ [.resolved n t.name] } := by
  intro name hname
  rcases h name hname with hold | ⟨u, hu, rfl⟩ | ⟨m, hm⟩
  · exact .inl hold
  · rcases List.mem_cons.mp hu with rfl | hu
    · exact .inr (.inr ⟨n, List.mem_append_right _ (List.mem_singleton_self _)⟩)
    · exact .inr (.inl ⟨u, hu, rfl⟩)
  · exact .inr (.inr ⟨m, List.mem_append_left _ hm⟩)

/-- A resolution accounts for what it adds. -/
theorem Accounted.resolving (ht : t ∈ s.types) (hi : t.isInputObject = true)
    (h : Accounted old busy r) : Accounted old busy (resolving s t r).2 := by
  refine resolving_induct (s := s) (P := fun t r =>
    ∀ busy, Accounted old busy r → Accounted old busy (InputLists.resolving s t r).2)
    (fun t r ht hi ih busy h => ?_) t r ht hi busy h
  cases hf : r.inputs.find? t.name with
  | some id =>
    rw [resolving_of_find? hf]
    exact h
  | none =>
    rw [resolving_of_none ht hi hf]
    refine Accounted.report (midway_induct (P := Accounted old (t :: busy)) hf
      (accounted_reserve h t) ?_ ?_ (List.append_nil _).symm) _
    · exact fun u r' hstarts => ih u r' hstarts (t :: busy)
    · exact fun r' f more _ h' => h'.addField _ f more

/-- So it does midway. -/
theorem Accounted.midway (ht : t ∈ s.types) (h : Accounted old busy r)
    (hf : r.inputs.find? t.name = none) (hsplit : t.declared = typed ++ rest) :
    Accounted old (t :: busy) (midway s t r typed) := by
  refine midway_induct hf (accounted_reserve h t) ?_ ?_ hsplit
  · intro u r' hstarts h'
    obtain ⟨hmem, hobject⟩ := hstarts.mem_types ht
    exact h'.resolving hmem hobject
  · exact fun r' f more _ h' => h'.addField _ f more

/-- When a type starts, the others are accounted for. -/
theorem InProgress.accounted (h : InProgress s t r (u :: busy) r') (ht : t ∈ s.types)
    (hi : t.isInputObject = true) : Accounted r.inputs.names busy r' := by
  induction h using InProgress.head_induct with
  | start _ => exact fun name => Or.inl
  | next u v busy r' r'' h hstarts _ ih =>
    have hmem := (h.mem_types ht hi u List.mem_cons_self).1
    obtain ⟨hf, hsplit, _⟩ := hstarts
    exact ih.midway hmem hf hsplit

/-- Once its fields are typed, a type has lists of all types that it refers to. -/
theorem mem_names_midway (ht : t ∈ s.types) (hi : t.isInputObject = true)
    (hf : r.inputs.find? t.name = none) (href : s.Refers t u) :
    u.name ∈ (midway s t r t.declared).inputs.names := by
  obtain ⟨hadds, hfind⟩ : Answers s (resolving s) t r :=
    resolveWithin_answers s _ t r ht hi (Nat.le_of_lt (uncached_length_lt s _))
  obtain ⟨t', fields, htype, _, _, hfields⟩ := hadds.owned hf hfind
  rw [Schema.type?_name ht] at htype
  cases htype
  have hname := mem_names_of_refers hfields href
  rwa [resolving_of_none ht hi hf] at hname

/-- **What a type refers to is reported before it**, unless it had a list when the outermost type
started, or references lead from the type back to itself. -/
theorem InProgress.before_of_refers (h : InProgress s t r (u :: busy) r') (ht : t ∈ s.types)
    (hi : t.isInputObject = true) (href : s.Refers u v) (hacyclic : ¬ Relation.TransGen s.Refers u u) :
    v.name ∈ r.inputs.names ∨ Before (resolving s t r).2.events v.name u.name := by
  obtain ⟨hmem, hobject⟩ := h.mem_types ht hi u List.mem_cons_self
  have hbusy := (h.accounted ht hi).midway hmem h.missed (List.append_nil _).symm
  rcases hbusy v.name (mem_names_midway hmem hobject h.missed href) with hold | ⟨w, hw, heq⟩ | ⟨n, hn⟩
  · exact .inl hold
  · -- a type in progress that `u` refers to would lead back to `u`
    have hsame : w = v := by
      have hwmem := (h.mem_types ht hi w hw).1
      obtain ⟨_, _, _, hv, _⟩ := href
      have htype := Schema.type?_name hwmem
      rw [heq, Schema.type?_name (Schema.mem_types_of_type? hv)] at htype
      exact (Option.some.inj htype).symm
    subst hsame
    refine absurd ?_ hacyclic
    rcases List.mem_cons.mp hw with rfl | hw
    · exact .single href
    · exact .head href (h.refers ht hi w hw)
  · obtain ⟨m, hline⟩ := exists_line hmem hobject h.missed
    refine .inr (Before.mono ?_ (h.events_prefix ht hi).sublist)
    rw [hline]
    exact before_concat hn

/-- No references lead to a type of which no type declares a field. -/
theorem not_transGen_refers (ht : t ∈ s.types)
    (h : ∀ v ∈ s.types, ∀ declared ∈ v.declared, declared.2.name ≠ u.name) :
    ¬ Relation.TransGen s.Refers t u := by
  intro hround
  obtain ⟨v, hreach, declared, hd, _, htype, _⟩ := Relation.TransGen.tail'_iff.mp hround
  have hv : v ∈ s.types := by
    rcases Relation.ReflTransGen.cases_tail hreach with rfl | ⟨_, _, _, _, _, htype', _⟩
    · exact ht
    · exact Schema.mem_types_of_type? htype'
  exact h v hv declared hd (Schema.name_of_type? htype).symm

/-! ### A whole life -/

/-- The lists, and all events, after types of schemas have been resolved one after the other, none
being there at the start. -/
def life (calls : List (Schema × TypeDef)) : Resolving :=
  calls.foldl (fun r call =>
    ⟨(resolve call.1 call.2 r.inputs).2.inputs,
      r.events ++ (resolve call.1 call.2 r.inputs).2.events⟩) ⟨{}, []⟩

theorem life_append_singleton (calls : List (Schema × TypeDef)) (call : Schema × TypeDef) :
    life (calls ++ [call]) = ⟨(resolve call.1 call.2 (life calls).inputs).2.inputs,
      (life calls).events ++ (resolve call.1 call.2 (life calls).inputs).2.events⟩ := by
  rw [life, List.foldl_append]
  rfl

theorem life_inputs (calls : List (Schema × TypeDef)) : (life calls).inputs = resolveAll calls := by
  induction calls using List.reverseRecOn with
  | nil => rfl
  | append_singleton before call ih =>
    rw [life_append_singleton, resolveAll_append_singleton, ih]

theorem life_events_prefix (calls more : List (Schema × TypeDef)) :
    (life calls).events <+: (life (calls ++ more)).events := by
  induction more using List.reverseRecOn with
  | nil =>
    refine ⟨[], ?_⟩
    rw [List.append_nil, List.append_nil]
  | append_singleton more call ih =>
    rw [← List.append_assoc, life_append_singleton]
    exact ih.trans (List.prefix_append _ _)

/-- The events of a call stand among those of a life after what was there before. -/
theorem life_events_sublist (before after : List (Schema × TypeDef)) (s : Schema) (t : TypeDef) :
    ((life before).events ++ (resolve s t (life before).inputs).2.events).Sublist
      (life (before ++ (s, t) :: after)).events := by
  have hprefix := life_events_prefix (before ++ [(s, t)]) after
  rw [life_append_singleton, List.append_assoc, List.singleton_append] at hprefix
  exact hprefix.sublist

theorem isLineOf_listEvents (t : TypeDef) (name : String) :
    t.listEvents.countP (·.isLineOf name) = if t.name == name then 1 else 0 := by
  have hnested : (t.nestedEvents t.declared).countP (·.isLineOf name) = 0 := by
    rw [List.countP_eq_zero]
    intro e he
    obtain ⟨_, _, rfl⟩ := List.mem_map.mp he
    exact Bool.false_ne_true
  rw [TypeDef.listEvents, List.countP_append, hnested, Nat.zero_add, List.countP_singleton]
  rfl

theorem countP_listEvents (types : List TypeDef) (name : String) :
    (types.flatMap (·.listEvents)).countP (·.isLineOf name) = (types.map (·.name)).count name := by
  induction types with
  | nil => rfl
  | cons t rest ih =>
    rw [List.flatMap_cons, List.countP_append, isLineOf_listEvents, ih, List.map_cons,
      List.count_cons, Nat.add_comm]

/-- The events of a life are those of its lists, which have different names. -/
theorem life_reports
    (h : ∀ call ∈ calls, call.2 ∈ call.1.types ∧ call.2.isInputObject = true) :
    (life calls).events.Perm ((life calls).inputs.owners.flatMap (·.listEvents)) ∧
      (life calls).inputs.names.Nodup := by
  induction calls using List.reverseRecOn with
  | nil => exact ⟨.refl _, List.nodup_nil⟩
  | append_singleton before call ih =>
    obtain ⟨hevents, hnodup⟩ := ih fun c hc => h c (List.mem_append_left _ hc)
    obtain ⟨ht, hi⟩ := h call (by simp)
    obtain ⟨types, howners, _, hperm, hkept⟩ := resolve_reports ht hi (life before).inputs
    rw [life_append_singleton]
    refine ⟨?_, hkept hnodup⟩
    rw [howners, List.flatMap_append]
    exact hevents.append hperm

theorem countP_isLineOf_life
    (h : ∀ call ∈ calls, call.2 ∈ call.1.types ∧ call.2.isInputObject = true) (name : String) :
    (life calls).events.countP (·.isLineOf name) = (life calls).inputs.names.count name := by
  rw [(life_reports h).1.countP_eq, countP_listEvents, names_eq_map_owners]

/-- **A list is reported once**, with as many fields as it has. -/
theorem life_line (h : ∀ call ∈ calls, call.2 ∈ call.1.types ∧ call.2.isInputObject = true)
    (hf : (life calls).inputs.find? name = some id) :
    (life calls).events.countP (·.isLineOf name) = 1 ∧
      .resolved ((life calls).inputs.fields id).length name ∈ (life calls).events := by
  obtain ⟨hperm, hnodup⟩ := life_reports h
  refine ⟨?_, ?_⟩
  · rw [countP_isLineOf_life h]
    exact List.count_eq_one_of_mem hnodup (List.mem_of_getElem? (getElem?_names_of_find? hf))
  · obtain ⟨s, _, t, fields, htype, _, hlist, hfields⟩ :=
      owned_of_find? calls h (by rwa [← life_inputs])
    rw [← life_inputs] at hlist
    have howner : t ∈ (life calls).inputs.owners :=
      List.mem_map.mpr ⟨_, List.mem_of_getElem? hlist, rfl⟩
    rw [fields_eq hlist, ← hfields.length_eq, ← Schema.name_of_type? htype]
    refine hperm.mem_iff.mpr (List.mem_flatMap.mpr ⟨t, howner, ?_⟩)
    exact List.mem_append_right _ (List.mem_singleton_self _)

/-- What is missed is in progress in the call that misses it. -/
theorem Misses.exists_inProgress
    (h : ∀ call ∈ calls, call.2 ∈ call.1.types ∧ call.2.isInputObject = true)
    (hm : Misses calls s name) :
    ∃ before t after u busy r, calls = before ++ (s, t) :: after ∧ t ∈ s.types ∧
      t.isInputObject = true ∧
      InProgress s t ⟨(life before).inputs, []⟩ (u :: busy) r ∧ u.name = name := by
  obtain ⟨before, t, after, rfl, hold, hnew⟩ := hm
  obtain ⟨ht, hi⟩ := h (s, t) (by simp)
  rw [resolveAll_append_singleton] at hnew
  rw [← life_inputs] at hold hnew
  rcases InputLists.exists_inProgress ht hi ⟨(life before).inputs, []⟩ name (isResolved_iff.mp hnew)
    with hmem | ⟨u, busy, r, hbusy, hname⟩
  · exact absurd hmem (find?_eq_none_iff.mp hold)
  · exact ⟨before, t, after, u, busy, r, rfl, ht, hi, hbusy, hname⟩

/-- What a type refers to is reported before it in the whole of a life. -/
theorem life_before (h : ∀ call ∈ calls, call.2 ∈ call.1.types ∧ call.2.isInputObject = true)
    (hm : Misses calls s name) (hu : s.type? name = some u) (href : s.Refers u v)
    (hacyclic : ¬ Relation.TransGen s.Refers u u) : Before (life calls).events v.name name := by
  obtain ⟨before, t, after, u', busy, r, rfl, ht, hi, hbusy, rfl⟩ := hm.exists_inProgress h
  obtain ⟨hmem, hobject⟩ := hbusy.mem_types ht hi u' List.mem_cons_self
  rw [Schema.type?_name hmem] at hu
  cases hu
  refine Before.mono ?_ (life_events_sublist before after s t)
  rcases hbusy.before_of_refers ht hi href hacyclic with hold | hbefore
  · -- the list was there before the call, and so was its line
    have hcalls : ∀ call ∈ before, call.2 ∈ call.1.types ∧ call.2.isInputObject = true :=
      fun call hcall => h call (List.mem_append_left _ hcall)
    obtain ⟨id, hid⟩ := Option.isSome_iff_exists.mp (isResolved_iff.mpr hold)
    obtain ⟨m, hline⟩ := exists_line hmem hobject hbusy.missed
    have hlast : .resolved m u.name ∈ (resolve s t (life before).inputs).2.events :=
      (hbusy.events_prefix ht hi).subset (by rw [hline]; simp)
    exact ⟨_, m, (List.singleton_sublist.mpr (life_line hcalls hid).2).append
      (List.singleton_sublist.mpr hlast)⟩
  · exact hbefore.mono (List.sublist_append_right _ _)

/-- A resolution **ends**: no chain of what it starts goes on forever, it is the same with any number
of levels that is enough, and each of the types in progress at a moment is another one of those that
had no list when it started. -/
structure Ends (s : Schema) (t : TypeDef) (r : Resolving) : Prop where
  acc : Acc (fun call call' : TypeDef × Resolving => Starts s call'.1 call'.2 call.1 call.2) (t, r)
  levels : ∀ depth, (uncached s r.inputs).length ≤ depth →
    resolveWithin s depth t r = resolving s t r
  nodup : ∀ busy r', InProgress s t r busy r' → (busy.map (·.name)).Nodup
  missed : ∀ busy r', InProgress s t r busy r' → ∀ u ∈ busy, r.inputs.isResolved u.name = false
  bounded : ∀ busy r', InProgress s t r busy r' → busy.length ≤ (uncached s r.inputs).length

theorem ends (ht : t ∈ s.types) (hi : t.isInputObject = true) (r : Resolving) : Ends s t r where
  acc := acc_starts t r ht hi
  levels := fun _ h => resolveWithin_eq ht hi h (Nat.le_of_lt (uncached_length_lt s _))
  nodup := fun _ _ h => h.nodup
  missed := fun _ _ h u hu => by
    rw [← Bool.not_eq_true, isResolved_iff]
    exact h.not_mem_names u hu
  bounded := fun _ _ h => h.length_le ht hi

/-- **Resolutions end, and do each type once.**  Whatever the types refer to and whatever lists there
are, a resolution ends.  In a whole life every list is reported once, with as many fields as it has,
and nothing else is; what is started while a type is in progress is reported before it; and so is what
a type refers to if references do not lead from it back to itself. -/
theorem resolve_ends_once :
    (∀ (s : Schema) (t : TypeDef) (r : Resolving), t ∈ s.types → t.isInputObject = true →
      Ends s t r) ∧
    ∀ calls : List (Schema × TypeDef),
      (∀ call ∈ calls, call.2 ∈ call.1.types ∧ call.2.isInputObject = true) →
      (∀ name id, (life calls).inputs.find? name = some id →
        (life calls).events.countP (·.isLineOf name) = 1 ∧
          ∃ n, n = ((life calls).inputs.fields id).length ∧
            .resolved n name ∈ (life calls).events ∧
            (InputEvent.resolved n name).message =
              s!"Resolved {n} fields of input object type {name}.") ∧
      (∀ name, (life calls).inputs.find? name = none →
        (life calls).events.countP (·.isLineOf name) = 0) ∧
      (∀ before s t after u busy r, calls = before ++ (s, t) :: after →
        InProgress s t ⟨(life before).inputs, []⟩ (u :: busy) r →
        ∀ v ∈ busy, Before (life calls).events u.name v.name) ∧
      ∀ s name u v, Misses calls s name → s.type? name = some u → s.Refers u v →
        ¬ Relation.TransGen s.Refers u u → Before (life calls).events v.name name := by
  refine ⟨fun s t r ht hi => ends ht hi r, fun calls h => ⟨fun name id hf => ?_,
    fun name hf => ?_, ?_, fun s name u v => life_before h⟩⟩
  · obtain ⟨honce, hline⟩ := life_line h hf
    exact ⟨honce, _, rfl, hline, rfl⟩
  · rw [countP_isLineOf_life h]
    exact List.count_eq_zero_of_not_mem (find?_eq_none_iff.mp hf)
  · rintro before s t after u busy r rfl hbusy v hv
    obtain ⟨ht, hi⟩ := h (s, t) (by simp)
    have hbefore : Before (resolve s t (life before).inputs).2.events u.name v.name :=
      hbusy.before ht hi hv
    exact (hbefore.mono (List.sublist_append_right _ _)).mono (life_events_sublist before after s t)

/-- A type that refers to one that another one refers back to: the last is started while the second is
in progress, and both are reported before the first, to which nothing leads. -/
theorem resolve_ends_once_of_search :
    (∀ call ∈ [(Sample.extended, Sample.search)],
      call.2 ∈ call.1.types ∧ call.2.isInputObject = true) ∧
    Ends Sample.extended Sample.search ⟨{}, []⟩ ∧
    (life [(Sample.extended, Sample.search)]).events.countP (·.isLineOf "Range") = 1 ∧
    Before (life [(Sample.extended, Sample.search)]).events "Range" "Filter" ∧
    Before (life [(Sample.extended, Sample.search)]).events "Filter" "Search" := by
  have hmem : Sample.search ∈ Sample.extended.types := by simp [Sample.extended]
  have hcalls : ∀ call ∈ [(Sample.extended, Sample.search)],
      call.2 ∈ call.1.types ∧ call.2.isInputObject = true := by
    simpa using ⟨hmem, rfl⟩
  obtain ⟨hends, hlife⟩ := resolve_ends_once
  obtain ⟨honce, _, hinside, hacyclic⟩ := hlife _ hcalls
  refine ⟨hcalls, hends _ _ _ hmem rfl, (honce "Range" 2 (by decide)).1, ?_, ?_⟩
  · -- `Search` starts `Filter` by its second field, and that starts `Range` by its second one
    have hfilter : Starts Sample.extended Sample.search ⟨{}, []⟩ Sample.filter
        (midway Sample.extended Sample.search ⟨{}, []⟩ [("text", Sample.maybe "String")]) :=
      @Starts.intro _ _ _ _ [] ("by", .list (Sample.maybe "Filter") false) rfl rfl rfl
    have hrange : Starts Sample.extended Sample.filter
        (midway Sample.extended Sample.search ⟨{}, []⟩ [("text", Sample.maybe "String")])
        Sample.range _ :=
      @Starts.intro _ _ _ [("not", Sample.maybe "Filter")]
        [("grid", .list (.list (Sample.maybe "Int") false) false)]
        ("ranges", .list (.named "Range" true) true) rfl rfl rfl
    exact hinside [] _ _ [] _ _ _ rfl
      (((InProgress.start rfl).next hfilter rfl).next hrange rfl) _ List.mem_cons_self
  · have hrefers : Sample.extended.Refers Sample.search Sample.filter :=
      ⟨("by", .list (Sample.maybe "Filter") false), by decide, by decide, rfl, rfl⟩
    have hnothing : ∀ t ∈ Sample.extended.types, ∀ declared ∈ t.declared,
        declared.2.name ≠ "Search" := by
      decide
    exact hacyclic Sample.extended "Search" Sample.search Sample.filter
      ⟨[], Sample.search, [], rfl, rfl, by decide⟩ rfl hrefers (not_transGen_refers hmem hnothing)

end InputLists

end GraphQLTyping
