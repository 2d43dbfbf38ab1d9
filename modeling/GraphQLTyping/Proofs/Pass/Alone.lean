import GraphQLTyping.Proofs.Pass.Effect
import GraphQLTyping.Proofs.Pass.Found

/-!
# A field by itself

What a walk through a field does is decided by the innermost type around the field.  Which types are
around that, and what the pass has noted so far, does not matter: neither the records of other
nodes, nor older ones of the same nodes, nor the lists of input fields.

So the walk can be told from a pass that nothing else is known of than that type.  A pass is put
**onto** another one (`Pass.onto`) by taking what it has noted as noted later, with records numbered
on and depths counted on.  A step **carries over** from a pass (`Pass.CarriesOver`) if it has the
same outcome wherever the pass is put, put there as well:

    walk (c.onto p) = (walk c) put onto p.

Entering a field carries over from any pass that is enclosed in something
(`carriesOver_enterField`).  Leaving one carries over only where the pass itself has the records
that are looked up, as otherwise those of the other pass would be found (`carriesOver_leaveField`).
A walk that comes to leave a field has made these records before, which is what `Grown` says of the
turns in between.  So the walks through a field carry over (`carriesOver_fieldWalks`).
-/

namespace GraphQLTyping

variable {s : Schema} {p q c : Pass} {t u : Typing} {id : NodeId} {r : RecordId} {name : String}
  {n k i : Nat} {steps : List Nat} {f : TypedField} {head : FieldHead} {selections : List Selection}
  {enclosing inner : List (Option TypeDef)} {α β : Type}

/-- The event, reported where so many more types are around. -/
def Event.deeper (more : Nat) : Event → Event
  | .pushed type depth => .pushed type (more + depth)
  | .popped type depth => .popped type (more + depth)
  | event => event

/-- What stands below a typed field, with records numbered on from a first one. -/
def Children.numberedFrom (first : Nat) : Children → Children
  | .selected records => .selected (records.map (first + ·))
  | children => children

/-- The typed field with the records below it numbered on from a first one. -/
def TypedField.numberedFrom (first : Nat) (f : TypedField) : TypedField :=
  { f with children := f.children.numberedFrom first }

theorem TypedField.numberedFrom_of_none (h : f.children = .none) (first : Nat) :
    f.numberedFrom first = f := by
  cases f
  cases h
  rfl

/-! ### Typings put onto others -/

namespace Typing

/-- The typing with the records of another one as its latest. -/
def onto (u t : Typing) : Typing :=
  { t with
    records := t.records ++ u.records.map (·.numberedFrom t.records.size)
    nodes := u.nodes.map (fun x => (x.1, t.records.size + x.2)) ++ t.nodes }

theorem empty_onto (t : Typing) : onto {} t = t := by
  simp [onto]

theorem lookup_map_snd {κ : Type} [BEq κ] (g : α → β) (l : List (κ × α)) (key : κ) :
    (l.map fun x => (x.1, g x.2)).lookup key = (l.lookup key).map g := by
  induction l with
  | nil => rfl
  | cons x rest ih =>
    rw [List.map_cons, List.lookup_cons, List.lookup_cons, ih]
    cases key == x.1 <;> rfl

/-- A node has its latest record. -/
theorem record?_onto (u t : Typing) (id : NodeId) :
    (u.onto t).record? id =
      ((u.record? id).map (t.records.size + ·)).or (t.record? id) := by
  simp only [record?, onto]
  rw [List.lookup_append, lookup_map_snd]

theorem record?_onto_of_some (h : u.record? id = some r) (t : Typing) :
    (u.onto t).record? id = some (t.records.size + r) := by
  rw [record?_onto, h]
  rfl

theorem field?_onto_add (u t : Typing) (r : RecordId) :
    (u.onto t).field? (t.records.size + r) =
      (u.field? r).map (·.numberedFrom t.records.size) := by
  simp only [field?, onto]
  rw [Array.getElem?_append_right (Nat.le_add_right _ _), Nat.add_sub_cancel_left,
    Array.getElem?_map]

theorem field?_onto_of_lt (u : Typing) (h : r < t.records.size) :
    (u.onto t).field? r = t.field? r := by
  simp only [field?, onto]
  exact Array.getElem?_append_left h

theorem add_onto (hf : f.children = .none) (u t : Typing) (id : NodeId) :
    (u.add id f).onto t = (u.onto t).add id f := by
  simp only [onto, add, Array.map_push, f.numberedFrom_of_none hf, Array.append_push, List.map_cons,
    List.cons_append, Array.size_append, Array.size_map]

/-- Records that are put below a record are numbered on like it. -/
theorem setChildren_onto (u t : Typing) (r : RecordId) (children : List RecordId) :
    (u.setChildren r children).onto t =
      (u.onto t).setChildren (t.records.size + r) (children.map (t.records.size + ·)) := by
  have hrecords : t.records ++ (u.setChildren r children).records.map
        (·.numberedFrom t.records.size) =
      ((u.onto t).setChildren (t.records.size + r)
        (children.map (t.records.size + ·))).records := by
    refine Array.ext_getElem? fun other => ?_
    show ((u.setChildren r children).onto t).field? other = field? _ other
    rw [field?_setChildren]
    by_cases hlt : other < t.records.size
    · have hne : t.records.size + r ≠ other :=
        Nat.ne_of_gt (Nat.lt_of_lt_of_le hlt (Nat.le_add_right _ _))
      rw [field?_onto_of_lt _ hlt, field?_onto_of_lt _ hlt, if_neg hne]
    · obtain ⟨later, rfl⟩ := Nat.exists_eq_add_of_le (Nat.le_of_not_lt hlt)
      rw [field?_onto_add, field?_onto_add, field?_setChildren]
      simp only [Nat.add_left_cancel_iff]
      by_cases hr : r = later
      · rw [if_pos hr, if_pos hr, Option.map_map, Option.map_map]
        rfl
      · rw [if_neg hr, if_neg hr]
  rw [onto, hrecords]
  rfl

end Typing

namespace Pass

/-! ### Passes put onto others -/

/-- The pass with what another one has noted as noted later, at a place that the other one's types
enclose and, in place of the innermost type, all others. -/
def onto (c p : Pass) : Pass where
  used := p.used
  enclosing := c.enclosing ++ p.enclosing.tail
  typing := c.typing.onto p.typing
  log := p.log ++ c.log.map (.deeper p.enclosing.tail.length)

/-- The outcome of a step, put onto a pass. -/
def outcomeOnto (outcome : EStateM.Result TypingError Pass α) (p : Pass) :
    EStateM.Result TypingError Pass α :=
  match outcome with
  | .ok a c => .ok a (c.onto p)
  | .error e c => .error e (c.onto p)

/-- A step **carries over** from a pass if it does the same wherever the pass is put. -/
def CarriesOver (x : Step α) (c : Pass) : Prop := ∀ p : Pass, x (c.onto p) = outcomeOnto (x c) p

theorem depth_onto (c p : Pass) : (c.onto p).depth = p.enclosing.tail.length + c.depth := by
  rw [depth, onto, List.length_append, Nat.add_comm, depth]

theorem onto_typed (hf : f.children = .none) (c p : Pass) (id : NodeId) :
    onto { c with typing := c.typing.add id f } p =
      { c.onto p with typing := (c.onto p).typing.add id f } := by
  have hadd := Typing.add_onto hf c.typing p.typing id
  simp only [onto, hadd]

theorem onto_selected (c p : Pass) (r : RecordId) (children : List RecordId) :
    onto { c with typing := c.typing.setChildren r children } p =
      { c.onto p with
        typing := (c.onto p).typing.setChildren (p.typing.records.size + r)
          (children.map (p.typing.records.size + ·)) } := by
  simp only [onto, Typing.setChildren_onto]

theorem onto_reported (c p : Pass) (event : Event) :
    onto { c with log := c.log ++ [event] } p =
      { c.onto p with
        log := (c.onto p).log ++ [event.deeper p.enclosing.tail.length] } := by
  simp only [onto, List.map_append, List.map_singleton, List.append_assoc]

theorem onto_pushed (c p : Pass) (type : TypeDef) :
    onto (c.pushed type) p = (c.onto p).pushed type := by
  rw [pushed, pushed, depth_onto, Nat.add_assoc]
  exact congrArg (fun q : Pass => { q with enclosing := some type :: (c.onto p).enclosing })
    (onto_reported c p (.pushed type.name (c.depth + 1)))

theorem onto_popped (c p : Pass) (type : TypeDef) (outer : List (Option TypeDef)) :
    onto (c.popped type outer) p = (c.onto p).popped type (outer ++ p.enclosing.tail) := by
  rw [popped, popped, List.length_append, Nat.add_comm outer.length]
  exact congrArg (fun q : Pass => { q with enclosing := outer ++ p.enclosing.tail })
    (onto_reported c p (.popped type.name outer.length))

theorem carriesOver_pure (a : α) (c : Pass) : CarriesOver (pure a : Step α) c := fun _ => rfl

theorem carriesOver_throw (e : TypingError) (c : Pass) : CarriesOver (throw e : Step α) c :=
  fun _ => rfl

theorem CarriesOver.bind {x : Step α} {g : α → Step β} (h : CarriesOver x c)
    (hg : ∀ a q, x c = .ok a q → CarriesOver (g a) q) : CarriesOver (x >>= g) c := by
  intro p
  rw [bind_apply, bind_apply, h p]
  cases hx : x c with
  | ok a q => exact hg a q hx p
  | error e q => rfl

/-- **Entering a field carries over**: it is typed by the innermost type. -/
theorem carriesOver_enterField (h : c.enclosing ≠ []) (id : NodeId) (name : String) :
    CarriesOver (enterField s id name) c := by
  obtain ⟨parent, rest, hc⟩ := List.exists_cons_of_ne_nil h
  intro p
  have hp : (c.onto p).enclosing = parent :: (rest ++ p.enclosing.tail) := by
    rw [onto, hc, List.cons_append]
  cases hf : s.typedOutput? parent name with
  | none =>
    rw [enterField_missing hc hf, enterField_missing hp hf]
    rfl
  | some f =>
    have hin : s.typedInside? c.enclosing name = some f := by
      rw [Schema.typedInside?, hc]
      exact hf
    have htyped := onto_typed (Schema.children_of_typedInside? hin) c p id
    by_cases ho : f.resolution = .object
    · have hpushed := onto_pushed { c with typing := c.typing.add id f } p f.type
      rw [htyped] at hpushed
      rw [enterField_object hc hf ho, enterField_object hp hf ho]
      exact congrArg (EStateM.Result.ok Descent.into) hpushed.symm
    · by_cases hu : f.resolution = .unclassified
      · cases parent with
        | none =>
          rw [enterField_nowhere hc hf hu, enterField_nowhere hp hf hu, outcomeOnto, htyped]
        | some type =>
          have hreported := onto_reported { c with typing := c.typing.add id f } p
            (.unclassifiedField type.name name f.type.name)
          rw [htyped] at hreported
          rw [enterField_unclassified hc hf hu, enterField_unclassified hp hf hu]
          exact congrArg (EStateM.Result.ok Descent.over) hreported.symm
      · rw [enterField_leaf hc hf ho hu, enterField_leaf hp hf ho hu, outcomeOnto, htyped]

/-- **Leaving a field carries over** from a pass that has the records of the field and of what is
selected in it, and is enclosed in the field's type if that is an object type. -/
theorem carriesOver_leaveField {children : List (NodeId × String)}
    (hr : c.typing.record? id = some r) (hf : c.typing.field? r = some f)
    (ho : f.resolution = .object → ∃ outer, c.enclosing = some f.type :: outer)
    (hsome : ∀ child ∈ children, (c.typing.record? child.1).isSome) (name : String) :
    CarriesOver (leaveField id name children) c := by
  intro p
  have hr' : (c.onto p).typing.record? id = some (p.typing.records.size + r) :=
    Typing.record?_onto_of_some hr p.typing
  have hf' : (c.onto p).typing.field? (p.typing.records.size + r) =
      some (f.numberedFrom p.typing.records.size) := by
    rw [onto, Typing.field?_onto_add, hf]
    rfl
  by_cases hobject : f.resolution = .object
  · obtain ⟨outer, hc⟩ := ho hobject
    have hp : (c.onto p).enclosing = some f.type :: (outer ++ p.enclosing.tail) := by
      rw [onto, hc, List.cons_append]
    have hsome' : ∀ child ∈ children, ((c.onto p).typing.record? child.1).isSome := by
      intro child hchild
      obtain ⟨r', hchild⟩ := Option.isSome_iff_exists.mp (hsome child hchild)
      rw [onto, Typing.record?_onto_of_some hchild]
      rfl
    have hrecords : (children.filterMap fun child => (c.onto p).typing.record? child.1) =
        (children.filterMap fun child => c.typing.record? child.1).map
          (p.typing.records.size + ·) := by
      rw [List.map_filterMap]
      refine List.filterMap_congr fun child hchild => ?_
      obtain ⟨r', hchild⟩ := Option.isSome_iff_exists.mp (hsome child hchild)
      rw [onto, Typing.record?_onto_of_some hchild, hchild]
      rfl
    have hselected := onto_selected (c.popped f.type outer) p r
      (children.filterMap fun child => c.typing.record? child.1)
    rw [onto_popped] at hselected
    rw [leaveField_of_object hr hf hobject hc hsome,
      leaveField_of_object hr' hf' hobject hp hsome', hrecords]
    exact congrArg (EStateM.Result.ok PUnit.unit) hselected.symm
  · rw [leaveField_of_leaf hr hf hobject, leaveField_of_leaf hr' hf' hobject]
    rfl

/-! ### Walks -/

/-- A walk goes into a field that has an inside, and types it. -/
theorem exists_inside_of_enterField_into (h : enterField s id name c = .ok .into q) :
    ∃ inner f, s.inside? c.enclosing name = some inner ∧
      s.typedInside? c.enclosing name = some f ∧ q.enclosing = inner ∧
      q.typing = c.typing.add id f := by
  cases hin : s.inside? c.enclosing name with
  | none =>
    cases hf : s.fieldFault? c.enclosing name with
    | some e =>
      obtain ⟨_, hstep, _⟩ := enterField_of_fault hf id
      rw [hstep] at h
      cases h
    | none =>
      obtain ⟨_, _, _, hstep, _⟩ := enterField_of_over hin hf id
      rw [hstep] at h
      cases h
  | some inner =>
    obtain ⟨f, _, hf, hstep, hq, htyping⟩ := enterField_of_into hin id
    rw [hstep] at h
    cases h
    exact ⟨inner, f, rfl, hf, hq, htyping⟩

/-- What a walk does inside a field and on leaving it carries over if it does so inside. -/
theorem carriesOver_inside (hq : enterField s ⟨n, .within k steps⟩ head.name c = .ok .into q)
    (hin : CarriesOver (walkSelections s ⟨n, .within k steps⟩ 0 selections) q) :
    CarriesOver (do
      walkSelections s ⟨n, .within k steps⟩ 0 selections
      leaveField ⟨n, .within k steps⟩ head.name
        (selectedFields ⟨n, .within k steps⟩ selections)) q := by
  obtain ⟨inner, f, hinside, hf, hinner, htyping⟩ := exists_inside_of_enterField_into hq
  refine hin.bind fun _ r hr => ?_
  -- the turns inside have made the records that leaving the field looks up
  have hsound := Selection.sound_turns (s := s) (n := n) (k := k) selections inner steps 0 q hinner
  rw [walkSelections_eq selections inner steps 0 q hinner] at hr
  have hgrown := hsound.grown r hr
  have hsome : ∀ child ∈ selectedFields ⟨n, .within k steps⟩ selections,
      (r.typing.record? child.1).isSome := fun child hchild =>
    hgrown.isSome (Selection.typed_of_mem_selectedFieldsFrom selections _ 0 child hchild)
  rw [htyping] at hgrown
  obtain ⟨hrecord, hfield⟩ := hgrown.own_record Selection.not_typed_below
  refine carriesOver_leaveField hrecord hfield (fun ho => ?_) hsome head.name
  rw [Schema.inside?_of_object hf ho] at hinside
  rw [hsound.enclosing r hr, hinner, ← Option.some.inj hinside]
  exact ⟨_, rfl⟩

/-- A walk through a field carries over if it does so inside, whatever it does with a field that is
passed over. -/
theorem carriesOver_descent {passed : Step Unit} (hne : c.enclosing ≠ [])
    (hpassed : ∀ q, CarriesOver passed q)
    (hin : ∀ inner q, s.inside? c.enclosing head.name = some inner → q.enclosing = inner →
      CarriesOver (walkSelections s ⟨n, .within k steps⟩ 0 selections) q) :
    CarriesOver (do
      match ← enterField s ⟨n, .within k steps⟩ head.name with
      | .over => passed
      | .into =>
        walkSelections s ⟨n, .within k steps⟩ 0 selections
        leaveField ⟨n, .within k steps⟩ head.name
          (selectedFields ⟨n, .within k steps⟩ selections)) c := by
  refine (carriesOver_enterField hne _ _).bind fun descent q hq => ?_
  cases descent with
  | «over» => exact hpassed q
  | into =>
    obtain ⟨inner, _, hinside, _, hinner, _⟩ := exists_inside_of_enterField_into hq
    exact carriesOver_inside hq (hin inner q hinside hinner)

/-- A walk goes on after a field where it was. -/
theorem enclosing_of_walkSelection
    (h : walkSelection s ⟨n, .within k steps⟩ (.field head selections) p = .ok ⟨⟩ q) :
    q.enclosing = p.enclosing := by
  rw [walkField_eq fun _ q _ hq => walkSelections_eq selections _ _ 0 q hq] at h
  exact (Selection.sound_field head selections p).enclosing q h

/-- **The walk through selections carries over** from a pass that is enclosed in something. -/
theorem carriesOver_walkSelections (selections : List Selection) (enclosing : List (Option TypeDef))
    (steps : List Nat) (i : Nat) : ∀ c : Pass, c.enclosing = enclosing → enclosing ≠ [] →
      CarriesOver (walkSelections s ⟨n, .within k steps⟩ i selections) c := by
  induction selections, enclosing, steps, i using Selection.turns_induct s with
  | nil =>
    intro c _ _
    rw [walkSelections]
    exact carriesOver_pure _ c
  | passed head selections rest enclosing steps i h ih =>
    intro c hc hne
    subst hc
    rw [walkSelections]
    refine CarriesOver.bind ?_ fun _ q hq => ih q (enclosing_of_walkSelection hq) hne
    rw [walkSelection]
    refine carriesOver_descent hne (carriesOver_pure _) fun inner _ hin _ => ?_
    rw [h] at hin
    cases hin
  | into head selections rest enclosing inner steps i h ihin ih =>
    intro c hc hne
    subst hc
    have hinner : inner ≠ [] := by
      rintro rfl
      exact hne (List.suffix_nil.mp (Schema.suffix_of_inside? h))
    rw [walkSelections]
    refine CarriesOver.bind ?_ fun _ q hq => ih q (enclosing_of_walkSelection hq) hne
    rw [walkSelection]
    refine carriesOver_descent hne (carriesOver_pure _) fun inner' q hin hq => ?_
    rw [h] at hin
    cases hin
    exact ihin q hq hinner
  | other selection rest enclosing steps i h ih =>
    intro c hc hne
    rw [walkSelections]
    refine CarriesOver.bind (fun p => ?_) fun _ q hq => ?_
    · rw [walkSelection_other h, walkSelection_other h]
      rfl
    · rw [walkSelection_other h] at hq
      cases hq
      exact ih c hc hne

/-- The walks through a field: as one of the selections of a walk, and as the node from which a walk
starts, which must not be one that is passed over. -/
def fieldWalks (s : Schema) (id : NodeId) (head : FieldHead) (selections : List Selection) :
    List (Step Unit) :=
  [walkSelection s id (.field head selections), walkNode s id (.field head selections)]

/-- **The walks through a field carry over** from a pass that is enclosed in something. -/
theorem carriesOver_fieldWalks {walk : Step Unit} (hne : c.enclosing ≠ [])
    (hwalk : walk ∈ fieldWalks s ⟨n, .within k steps⟩ head selections) :
    CarriesOver walk c := by
  have hin : ∀ inner q, s.inside? c.enclosing head.name = some inner → q.enclosing = inner →
      CarriesOver (walkSelections s ⟨n, .within k steps⟩ 0 selections) q := by
    intro inner q h hq
    refine carriesOver_walkSelections selections inner steps 0 q hq ?_
    rintro rfl
    exact hne (List.suffix_nil.mp (Schema.suffix_of_inside? h))
  rw [fieldWalks, List.mem_cons, List.mem_singleton] at hwalk
  rcases hwalk with rfl | rfl
  · rw [walkSelection]
    exact carriesOver_descent hne (carriesOver_pure _) hin
  · rw [walkNode]
    exact carriesOver_descent hne (carriesOver_throw _) hin

end Pass

end GraphQLTyping
