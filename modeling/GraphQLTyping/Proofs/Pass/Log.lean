import GraphQLTyping.Proofs.InputLists.Events
import GraphQLTyping.Proofs.Pass.Session

/-!
# What a log always tells

Whatever is done with a pass, and wherever that fails, its log keeps to three rules.

* Pushes and pops **nest** (`unanswered?`): a pop names the type of the latest push without an answer,
  and either says how many pushes are without an answer then.  Those types are the ones that enclose
  the place of the pass (`Pass.Nested`).
* The start of an operation comes directly before the push of its root type (`Announced`).
* The events of the lists of input fields are those of the lists that there are, and these are the
  lists of the types that variables reach (`Pass.Told`, `Pass.inputs_told`).

A new pass keeps to them, and so does each move.
-/

namespace GraphQLTyping

open Pass

variable {s : Schema} {documents : Nat → Document} {t t' : Typing} {p q : Pass} {id : NodeId}
  {f : TypedField} {m : Move} {e : Option TypingError} {log more : List Event}
  {pending : List String} {r : RecordId}

/-! ### Pushes and pops -/

/-- Whether an event is a push or a pop. -/
def Event.isBracket : Event → Bool
  | .pushed .. | .popped .. => true
  | _ => false

/-- What an event makes of the types of pushes without an answer, the latest first.  There is no
answer if the event does not fit them: a pop has to name the latest type, and either has to say how
many there are then. -/
def Event.answer? : Event → List String → Option (List String)
  | .pushed type depth, pending =>
    if depth = pending.length + 1 then some (type :: pending) else none
  | .popped type depth, latest :: earlier =>
    if type = latest ∧ depth = earlier.length then some earlier else none
  | .popped .., [] => none
  | _, pending => some pending

/-- The types of the pushes that are **unanswered** in a log, the latest first.  There is no answer if
pushes and pops do not nest. -/
def unanswered? (log : List Event) : Option (List String) :=
  log.foldlM (fun pending event => event.answer? pending) []

theorem unanswered?_concat (h : unanswered? log = some pending) (event : Event) :
    unanswered? (log ++ [event]) = event.answer? pending := by
  rw [unanswered?] at h
  rw [unanswered?, List.foldlM_append, h]
  exact bind_pure (event.answer? pending)

theorem unanswered?_plain (h : unanswered? log = some pending)
    (hmore : ∀ event ∈ more, event.isBracket = false) :
    unanswered? (log ++ more) = some pending := by
  induction more generalizing log with
  | nil => rwa [List.append_nil]
  | cons event rest ih =>
    have hplain : event.answer? pending = some pending := by
      have hevent := hmore event List.mem_cons_self
      cases event with
      | pushed | popped => cases hevent
      | started | unclassifiedVariable | unclassifiedField | input => rfl
    rw [List.append_cons]
    refine ih ?_ fun other ho => hmore other (List.mem_cons_of_mem _ ho)
    rw [unanswered?_concat h, hplain]

namespace Pass

/-- Pushes and pops **nest** in the log of a pass, and those without an answer are of the types that
enclose its place. -/
def Nested (p : Pass) : Prop :=
  ∃ types : List TypeDef, p.enclosing = types.map some ∧
    unanswered? p.log = some (types.map (·.name))

theorem Nested.exists_unanswered (h : p.Nested) : ∃ pending, unanswered? p.log = some pending := by
  obtain ⟨types, _, htypes⟩ := h
  exact ⟨_, htypes⟩

theorem Nested.unanswered_eq (h : p.Nested) (hp : p.enclosing = []) :
    unanswered? p.log = some [] := by
  obtain ⟨types, henclosing, htypes⟩ := h
  rw [hp] at henclosing
  rw [htypes, List.map_eq_nil_iff.mp henclosing.symm, List.map_nil]

theorem Nested.not_missing (h : p.Nested) {outer : List (Option TypeDef)} :
    p.enclosing ≠ none :: outer := by
  obtain ⟨types, henclosing, _⟩ := h
  rw [henclosing]
  cases types <;> simp

theorem Nested.pushed (h : p.Nested) (type : TypeDef) : (p.pushed type).Nested := by
  obtain ⟨types, henclosing, htypes⟩ := h
  refine ⟨type :: types, by rw [Pass.pushed, henclosing]; rfl, ?_⟩
  rw [Pass.pushed, unanswered?_concat htypes, Event.answer?, if_pos]
  · rfl
  · rw [depth, henclosing, List.length_map, List.length_map]

theorem Nested.popped (h : p.Nested) {type : TypeDef} {outer : List (Option TypeDef)}
    (hp : p.enclosing = some type :: outer) : (p.popped type outer).Nested := by
  obtain ⟨types, henclosing, htypes⟩ := h
  rw [hp] at henclosing
  obtain ⟨_, rest, rfl, hfirst, rfl⟩ := List.map_eq_cons_iff.mp henclosing.symm
  cases hfirst
  refine ⟨rest, rfl, ?_⟩
  rw [Pass.popped, unanswered?_concat htypes, List.map_cons, Event.answer?, if_pos]
  refine ⟨rfl, ?_⟩
  rw [List.length_map, List.length_map]

/-- Other events do not count. -/
theorem Nested.plain (h : p.Nested) (hp : q.enclosing = p.enclosing) (hlog : q.log = p.log ++ more)
    (hmore : ∀ event ∈ more, event.isBracket = false) : q.Nested := by
  obtain ⟨types, henclosing, htypes⟩ := h
  exact ⟨types, hp.trans henclosing, by rw [hlog, unanswered?_plain htypes hmore]⟩

/-- **A move keeps pushes and pops nested**, whatever it does. -/
theorem Nested.of_does (h : p.Nested) (hdoes : m.Does s p e q) : q.Nested := by
  cases hdoes with
  | refused | variableLeaf | fieldLeaf | fieldNowhere | leafLeft => exact h
  | missing _ hp => exact absurd hp h.not_missing
  | broken _ hp | operationHalfLeft _ hp | operationLeft _ hp => exact h.popped hp
  | fieldLeft _ _ _ _ _ hp => exact h.popped hp
  | operationEntered =>
    refine Nested.pushed ?_ _
    exact h.plain rfl rfl (by simp [Event.isBracket])
  | fieldEntered => exact h.pushed _
  | variableShared => exact h.plain rfl rfl (by simp [Event.isBracket])
  | variableUnclassified | fieldOver => exact h.plain rfl rfl (by simp [Event.isBracket])

/-- **Pushes and pops nest throughout a session**. -/
theorem Session.nested (h : Session s documents p) : p.Nested := by
  refine h.induct ⟨[], rfl, rfl⟩ ?_ ?_ ?_ ?_ fun _ hp => hp
  · intro m p e q _ hdoes hp
    exact hp.of_does hdoes
  · intro p type _ hp
    exact hp.pushed type
  · intro p outer hcons hp
    exact absurd hcons hp.not_missing
  · intro p type outer hcons hp
    exact hp.popped hcons

end Pass

/-! ### Starts of operations -/

/-- Whether an event is the start of an operation. -/
def Event.isStart : Event → Bool
  | .started .. => true
  | _ => false

/-- Every operation in a log is **announced**: its start comes directly before the push of its root
type. -/
def Announced (log : List Event) : Prop :=
  ∀ i kind root, log[i]? = some (.started kind root) →
    ∃ depth, log[i + 1]? = some (.pushed root depth)

theorem Announced.append (h : Announced log) (hmore : Announced more) : Announced (log ++ more) := by
  intro i kind root hi
  by_cases hlt : i < log.length
  · rw [List.getElem?_append_left hlt] at hi
    obtain ⟨depth, hnext⟩ := h i kind root hi
    rw [List.getElem?_append_left (List.getElem?_eq_some_iff.mp hnext).1]
    exact ⟨depth, hnext⟩
  · have hle := Nat.le_of_not_lt hlt
    rw [List.getElem?_append_right hle] at hi
    obtain ⟨depth, hnext⟩ := hmore _ kind root hi
    rw [List.getElem?_append_right (Nat.le_succ_of_le hle), Nat.succ_sub hle]
    exact ⟨depth, hnext⟩

theorem announced_of_not_start (h : ∀ event ∈ log, event.isStart = false) : Announced log := by
  intro i kind root hi
  cases h _ (List.mem_of_getElem? hi)

theorem announced_start (kind : OperationKind) (root : String) (depth : Nat) :
    Announced [.started kind root, .pushed root depth] := by
  intro i kind' root' hi
  cases i with
  | zero =>
    cases hi
    exact ⟨depth, rfl⟩
  | succ i => cases i <;> cases hi

theorem Announced.concat (h : Announced log) {event : Event} (hevent : event.isStart = false) :
    Announced (log ++ [event]) :=
  h.append (announced_of_not_start (by simpa using hevent))

/-- A move announces the operation that it enters. -/
theorem Announced.of_does (h : Announced p.log) (hdoes : m.Does s p e q) : Announced q.log := by
  cases hdoes with
  | refused | missing | variableLeaf | fieldLeaf | fieldNowhere | leafLeft => exact h
  | broken | operationHalfLeft | operationLeft | fieldLeft => exact h.concat rfl
  | variableUnclassified | fieldOver | fieldEntered => exact h.concat rfl
  | variableShared => exact h.append (announced_of_not_start (by simp [Event.isStart]))
  | operationEntered =>
    rw [Pass.pushed, List.append_assoc]
    exact h.append (announced_start _ _ _)

/-- **Operations are announced throughout a session**. -/
theorem Pass.Session.announced (h : Session s documents p) : Announced p.log := by
  refine h.induct (P := fun p => Announced p.log) ?_ ?_ ?_ ?_ ?_ fun _ hp => hp
  · exact announced_of_not_start (by simp)
  · intro m p e q _ hdoes hp
    exact Announced.of_does hp hdoes
  · intro p type _ hp
    exact Announced.concat hp rfl
  · intro p outer _ hp
    exact hp
  · intro p type outer _ hp
    exact Announced.concat hp rfl

/-! ### Lists of input fields -/

/-- The events of the lists of input fields in a log. -/
def inputEvents (log : List Event) : List InputEvent :=
  log.filterMap fun
    | .input event => some event
    | _ => none

theorem inputEvents_append (log more : List Event) :
    inputEvents (log ++ more) = inputEvents log ++ inputEvents more :=
  List.filterMap_append

theorem inputEvents_map_input (events : List InputEvent) :
    inputEvents (events.map .input) = events := by
  rw [inputEvents, List.filterMap_map]
  exact List.filterMap_some

namespace Typing

/-- The types of the variables of input object type, in the order of the variables. -/
def variableTypes (t : Typing) : List TypeDef :=
  t.variableRecords.filterMap fun r => (t.field? r).bind (·.objectType?)

/-- The lists of a typing are **rooted** in its variables: they are complete, no two have one name,
and they are those of the types that the types of variables reach. -/
structure Rooted (s : Schema) (t : Typing) : Prop where
  recorded : ∀ r ∈ t.variableRecords, r < t.records.size
  complete : ∀ list ∈ t.inputs.lists, InputLists.Complete s t.inputs list
  nodup : t.inputs.names.Nodup
  listed : ∀ type ∈ t.variableTypes, type ∈ t.inputs.owners
  reached : ∀ type ∈ t.inputs.owners, ∃ root ∈ t.variableTypes, s.Reaches root type

theorem variableTypes_add (h : ∀ r ∈ t.variableRecords, r < t.records.size) (id : NodeId)
    (f : TypedField) : (t.add id f).variableTypes = t.variableTypes :=
  List.filterMap_congr fun r hr => by rw [field?_add_of_lt (h r hr)]

theorem variableTypes_addVariable (h : ∀ r ∈ t.variableRecords, r < t.records.size) (id : NodeId)
    (f : TypedField) :
    (t.addVariable id f).variableTypes = t.variableTypes ++ f.objectType?.toList := by
  have hlast : [t.records.size].filterMap (fun r => ((t.add id f).field? r).bind (·.objectType?)) =
      f.objectType?.toList := by
    rw [List.filterMap_cons, field?_add_size, Option.bind_some]
    cases f.objectType? <;> rfl
  rw [← hlast, ← variableTypes_add h id f]
  exact List.filterMap_append

theorem variableTypes_setChildren (t : Typing) (r : RecordId) (children : List RecordId) :
    (t.setChildren r children).variableTypes = t.variableTypes := by
  refine List.filterMap_congr fun other _ => ?_
  rw [field?_setChildren]
  split
  · cases t.field? other <;> rfl
  · rfl

theorem rooted_empty (s : Schema) : Rooted s {} where
  recorded := by
    intro r hr
    cases hr
  complete := by
    intro list hlist
    cases hlist
  nodup := List.nodup_nil
  listed := by
    intro type htype
    cases htype
  reached := by
    intro type htype
    cases htype

theorem Rooted.add (h : t.Rooted s) (id : NodeId) (f : TypedField) : (t.add id f).Rooted s where
  recorded := by
    intro r hr
    refine Nat.lt_trans (h.recorded r hr) ?_
    simp [Typing.add]
  complete := h.complete
  nodup := h.nodup
  listed := by
    rw [variableTypes_add h.recorded]
    exact h.listed
  reached := by
    rw [variableTypes_add h.recorded]
    exact h.reached

theorem Rooted.setChildren (h : t.Rooted s) (r : RecordId) (children : List RecordId) :
    (t.setChildren r children).Rooted s where
  recorded := by
    rw [size_setChildren]
    exact h.recorded
  complete := h.complete
  nodup := h.nodup
  listed := by
    rw [variableTypes_setChildren]
    exact h.listed
  reached := by
    rw [variableTypes_setChildren]
    exact h.reached

/-- A variable is added together with the lists of the types that its own reaches. -/
theorem Rooted.addVariable (h : t.Rooted s) {inputs : InputLists}
    (hcomplete : ∀ list ∈ inputs.lists, InputLists.Complete s inputs list)
    (hnodup : inputs.names.Nodup) (hkept : t.inputs.owners ⊆ inputs.owners)
    (hlisted : ∀ type, f.objectType? = some type → type ∈ inputs.owners)
    (hreached : ∀ type ∈ inputs.owners,
      type ∈ t.inputs.owners ∨ ∃ root, f.objectType? = some root ∧ s.Reaches root type)
    (id : NodeId) : ({ t with inputs }.addVariable id f).Rooted s := by
  have htypes : ({ t with inputs }.addVariable id f).variableTypes =
      t.variableTypes ++ f.objectType?.toList :=
    variableTypes_addVariable (t := { t with inputs }) h.recorded id f
  refine ⟨?_, hcomplete, hnodup, ?_, ?_⟩
  · intro r hr
    have hsize : ({ t with inputs }.addVariable id f).records.size = t.records.size + 1 := by
      simp [Typing.addVariable, Typing.add]
    rw [hsize, Nat.lt_succ_iff]
    rcases List.mem_append.mp hr with hr | hr
    · exact Nat.le_of_lt (h.recorded r hr)
    · exact Nat.le_of_eq (List.mem_singleton.mp hr)
  · intro type htype
    rw [htypes, List.mem_append, Option.mem_toList] at htype
    rcases htype with htype | htype
    · exact hkept (h.listed type htype)
    · exact hlisted type htype
  · intro type htype
    rw [htypes]
    rcases hreached type htype with hold | ⟨root, hroot, hreaches⟩
    · obtain ⟨root, hroot, hreaches⟩ := h.reached type hold
      exact ⟨root, List.mem_append_left _ hroot, hreaches⟩
    · exact ⟨root, List.mem_append_right _ (Option.mem_toList.mpr hroot), hreaches⟩

/-- A variable of no input object type. -/
theorem Rooted.addVariable_other (h : t.Rooted s) (hf : f.resolution ≠ .object) (id : NodeId) :
    (t.addVariable id f).Rooted s := by
  have hnone : f.objectType? = none := if_neg hf
  refine h.addVariable h.complete h.nodup (List.Subset.refl _) ?_ (fun _ => .inl) id
  intro type htype
  rw [hnone] at htype
  cases htype

/-- A variable of an input object type, which was resolved. -/
theorem Rooted.addVariable_shared (h : t.Rooted s) {bare : TypeDef} (hb : bare ∈ s.types)
    (hi : bare.isInputObject = true) (hf : f.objectType? = some bare) (id : NodeId) :
    ({ t with inputs := (InputLists.resolve s bare t.inputs).2.inputs }.addVariable id f).Rooted
      s := by
  obtain ⟨types, howners, hreaches, _, hnodup⟩ := InputLists.resolve_reports hb hi t.inputs
  obtain ⟨hadds, hfind⟩ := InputLists.resolve_adds hb hi t.inputs
  have hcomplete := hadds.complete h.complete
  have hown : bare ∈ (InputLists.resolve s bare t.inputs).2.inputs.owners :=
    InputLists.mem_owners_of_mem_names hcomplete hb
      (List.mem_of_getElem? (InputLists.getElem?_names_of_find? hfind))
  refine h.addVariable hcomplete (hnodup h.nodup) ?_ ?_ ?_ id
  · rw [howners]
    exact List.subset_append_left _ _
  · intro type htype
    rw [hf] at htype
    cases htype
    exact hown
  · intro type htype
    rw [howners] at htype
    rcases List.mem_append.mp htype with htype | htype
    · exact .inl htype
    · exact .inr ⟨bare, hf, hreaches type htype⟩

/-- The types that have a list are those that the types of variables reach. -/
theorem Rooted.mem_owners_iff (h : t.Rooted s) {type : TypeDef} :
    type ∈ t.inputs.owners ↔ ∃ root ∈ t.variableTypes, s.Reaches root type := by
  refine ⟨h.reached type, ?_⟩
  rintro ⟨root, hroot, hreaches⟩
  exact InputLists.mem_owners_of_reaches h.complete (h.listed root hroot) hreaches

end Typing

namespace Pass

/-- The log of a pass **tells** of the lists of its typing: they are rooted in the variables, and the
events of lists are theirs. -/
structure Told (s : Schema) (p : Pass) : Prop where
  rooted : p.typing.Rooted s
  events : (inputEvents p.log).Perm (p.typing.inputs.owners.flatMap (·.listEvents))

theorem Told.plain (h : p.Told s) (hr : q.typing.Rooted s) (hi : q.typing.inputs = p.typing.inputs)
    (hlog : q.log = p.log ++ more) (hmore : inputEvents more = []) : q.Told s where
  rooted := hr
  events := by
    rw [hlog, inputEvents_append, hmore, List.append_nil, hi]
    exact h.events

theorem Told.shared (h : p.Told s) {shape : Shape} {bare : TypeDef}
    (hb : s.type? shape.name = some bare) (ho : bare.inputResolution = .object) (id : NodeId)
    (name : String) : (p.typedShared s id name shape bare).Told s := by
  have hmem := Schema.mem_types_of_type? hb
  have hi := TypeDef.inputResolution_eq_object_iff.mp ho
  refine ⟨Typing.Rooted.addVariable_shared h.rooted hmem hi ?_ id, ?_⟩
  · exact if_pos ho
  · obtain ⟨types, howners, _, hperm, _⟩ := InputLists.resolve_reports hmem hi p.typing.inputs
    change
      (inputEvents (p.log ++ (InputLists.resolve s bare p.typing.inputs).2.events.map .input)).Perm
      ((InputLists.resolve s bare p.typing.inputs).2.inputs.owners.flatMap (·.listEvents))
    rw [inputEvents_append, inputEvents_map_input, howners, List.flatMap_append]
    exact h.events.append hperm

/-- **A move tells of the lists that it adds**, whatever it does. -/
theorem Told.of_does (h : p.Told s) (hdoes : m.Does s p e q) : q.Told s := by
  have hr := h.rooted
  cases hdoes with
  | refused | leafLeft => exact h
  | missing => exact ⟨hr, h.events⟩
  | broken => exact h.plain hr rfl rfl rfl
  | operationHalfLeft | operationLeft =>
    exact h.plain ⟨hr.recorded, hr.complete, hr.nodup, hr.listed, hr.reached⟩ rfl rfl rfl
  | operationEntered => exact h.plain hr rfl (List.append_assoc _ _ _) rfl
  | variableShared id _ hb ho => exact h.shared hb ho id _
  | variableUnclassified id _ _ hu =>
    exact h.plain (hr.addVariable_other (fun ho => by cases hu.symm.trans ho) id) rfl rfl rfl
  | variableLeaf id _ _ ho => exact ⟨hr.addVariable_other ho id, h.events⟩
  | fieldEntered id | fieldOver id => exact h.plain (hr.add id _) rfl rfl rfl
  | fieldLeaf id | fieldNowhere id => exact ⟨hr.add id _, h.events⟩
  | fieldLeft => exact h.plain (hr.setChildren _ _) rfl rfl rfl

theorem Session.told (h : Session s documents p) : p.Told s := by
  refine h.induct ⟨Typing.rooted_empty s, .refl _⟩ ?_ ?_ ?_ ?_ fun _ hp => ⟨hp.rooted, hp.events⟩
  · intro m p e q _ hdoes hp
    exact hp.of_does hdoes
  · intro p type _ hp
    exact hp.plain hp.rooted rfl rfl rfl
  · intro p outer _ hp
    exact ⟨hp.rooted, hp.events⟩
  · intro p type outer _ hp
    exact hp.plain hp.rooted rfl rfl rfl

/-- **The events of lists are told exactly** throughout a session: those of each type that the type
of a variable reaches, once for each. -/
theorem inputs_told (h : Session s documents p) :
    ∃ types : List TypeDef, types.Nodup ∧
      (∀ type, type ∈ types ↔ ∃ root ∈ p.typing.variableTypes, s.Reaches root type) ∧
      (inputEvents p.log).Perm (types.flatMap (·.listEvents)) := by
  have htold := h.told
  refine ⟨p.typing.inputs.owners, ?_, fun type => htold.rooted.mem_owners_iff, htold.events⟩
  have hnodup := htold.rooted.nodup
  rw [InputLists.names_eq_map_owners] at hnodup
  exact hnodup.of_map _

end Pass

end GraphQLTyping
