import Mathlib.Data.List.Perm.Basic
import Mathlib.Logic.Equiv.Basic
import GraphQLTyping.Proofs.InputLists.Agreement
import GraphQLTyping.Proofs.Pass.Moved

/-!
# Operations do not influence each other

Typing one document after another in one pass does what typing each by itself does
(`Document.typing_append`): it fails with the error of the first one that fails, and if none does, its
typing shows that of either document (`Typing.Shows`).  The definitions may also stand in another
order, which only orders the results.

What a typing shows of another one is the same but for three things: where a definition stands, the
numbers of records, and the numbers of shared lists, which are compared by what they tell along paths
(`TypedField.Agrees`).  That nothing else can differ is not seen from the passes side by side: each
typing is known from the turns of its document (`Turn.Recorded`, `Ledger`), and the turns on an
operation are the same in both.
-/

namespace GraphQLTyping

open Pass

variable {s : Schema} {d d' : Document} {t t' : Typing} {k : Nat} {id : NodeId} {r : RecordId}
  {turn : Turn} {place : Nat → Nat} {number : RecordId → RecordId} {f : TypedField}

/-! ### Typings that show others -/

/-- What stands below two typed fields **agrees**: nothing, the same records under other numbers, or
lists that agree. -/
inductive Children.Agrees (number : RecordId → RecordId) (l l' : InputLists) :
    Children → Children → Prop
  | none : Agrees number l l' .none .none
  | selected (records : List RecordId) :
    Agrees number l l' (.selected records) (.selected (records.map number))
  | shared {list list' : ListId} (h : l.Agrees l' list list') :
    Agrees number l l' (.shared list) (.shared list')

/-- Two typed fields **agree**: they are the same, and what stands below them agrees. -/
structure TypedField.Agrees (number : RecordId → RecordId) (l l' : InputLists)
    (f f' : TypedField) : Prop where
  bare : f'.bare = f.bare
  children : f.children.Agrees number l l' f'.children

/-- A typing **shows** another one, which is of a document: whatever the other one finds for a node of
the document, it finds for that node where its definition is placed, the records under their new
numbers and the typed fields agreeing. -/
structure Typing.Shows (t' t : Typing) (d : Document) (place : Nat → Nat)
    (number : RecordId → RecordId) : Prop where
  record? : ∀ path node, d.node? path = some node →
    t'.record? ⟨0, path.moved place⟩ = (t.record? ⟨0, path⟩).map number
  field? : ∀ r f, t.field? r = some f →
    ∃ f', t'.field? (number r) = some f' ∧ f.Agrees number t.inputs t'.inputs f'
  fieldsOf : ∀ k o, d.definitions[k]? = some (.operation o) →
    ∃ records, t.fieldsOf ⟨0, .within k []⟩ (.operation o) = .ok records ∧
      t'.fieldsOf ⟨0, .within (place k) []⟩ (.operation o) = .ok (records.map number)
  variablesOf : ∀ k o, d.definitions[k]? = some (.operation o) →
    ∃ records, t.variablesOf ⟨0, .within k []⟩ (.operation o) = .ok records ∧
      t'.variablesOf ⟨0, .within (place k) []⟩ (.operation o) = .ok (records.map number)

namespace Typing

variable {nodes : List NodeId} {records records' : List RecordId}

theorem RecordsOf.eq (h : t.RecordsOf nodes records) (h' : t.RecordsOf nodes records') :
    records' = records :=
  List.map_injective_iff.mpr (fun _ _ => Option.some.inj) (h'.trans h.symm)

/-- The records of moved nodes are those of the nodes under their new numbers. -/
theorem RecordsOf.moved (h : t.RecordsOf nodes records)
    (hnumber : ∀ id r, t.record? id = some r → t'.record? (id.moved place) = some (number r)) :
    t'.RecordsOf (nodes.map (·.moved place)) (records.map number) := by
  have heach : ∀ id ∈ nodes, (t.record? id).map number = t'.record? (id.moved place) := by
    intro id hid
    have hmem : t.record? id ∈ records.map some := by
      rw [h]
      exact List.mem_map_of_mem hid
    obtain ⟨r, _, hr⟩ := List.mem_map.mp hmem
    rw [← hr, Option.map_some, hnumber id r hr.symm]
  calc (records.map number).map some
      = (records.map some).map (Option.map number) := by rw [List.map_map, List.map_map]; rfl
    _ = (nodes.map t.record?).map (Option.map number) := by rw [h]
    _ = nodes.map fun id => t'.record? (id.moved place) := by
      rw [List.map_map]
      exact List.map_congr_left heach
    _ = (nodes.map (·.moved place)).map t'.record? := by rw [List.map_map]; rfl

end Typing

/-! ### What turns type -/

/-- A turn of an operation that types a node is on one of its variables, or on a node below it. -/
theorem Operation.move_of_typed {o : Operation} {enclosing : List (Option TypeDef)} {n : Nat}
    (hturn : turn ∈ o.turns s enclosing ⟨n, .within k []⟩) (hid : turn.move.typed? = some id) :
    (∃ v, turn.move = .enterVariable id v) ∨ ∃ steps, id = ⟨n, .within k steps⟩ := by
  cases h : s.root? o.kind with
  | none =>
    rw [turns_missing h, List.mem_singleton] at hturn
    rw [hturn] at hid
    cases hid
  | some root =>
    rw [turns_root h, turnsInside, List.mem_cons, List.mem_append, List.mem_append,
      List.mem_singleton] at hturn
    rcases hturn with rfl | (hturn | hturn) | rfl
    · cases hid
    · obtain ⟨_, v, _, hmove⟩ := VariableDef.move_of_turn _ _ turn hturn
      rw [hmove] at hid
      cases hid
      exact Or.inl ⟨v, hmove⟩
    · obtain ⟨j, more, _, rfl⟩ := Selection.path_of_typed _ _ _ _ id
        (mem_typedNodes.mpr ⟨turn, hturn, hid⟩)
      exact Or.inr ⟨_, rfl⟩
    · cases hid

/-- A turn that types a node is on a variable or a field of the document. -/
theorem Document.move_of_typed {n : Nat} (hturn : turn ∈ d.turns s n)
    (hid : turn.move.typed? = some id) :
    (∃ v, turn.move = .enterVariable id v) ∨
      ∃ k steps head below, id = ⟨n, .within k steps⟩ ∧ turn.move = .enterField id head below ∧
        d.node? (.within k steps) = some (.field head below) := by
  obtain ⟨k, o, _, ho⟩ := exists_operation_of_turn hturn
  rcases Operation.move_of_typed ho hid with hvariable | ⟨steps, rfl⟩
  · exact Or.inl hvariable
  · obtain ⟨head, below, hmove, _, hnode⟩ := exists_path_of_typed hturn hid
    exact Or.inr ⟨k, steps, head, below, rfl, hmove, hnode⟩

theorem Document.isSome_definition_of_node? {path : NodePath} {node : Node}
    (h : d.node? path = some node) : (d.definitions[path.definition]?).isSome := by
  cases path with
  | within k steps =>
    obtain ⟨definition, hget, _⟩ := Option.bind_eq_some_iff.mp h
    rw [NodePath.definition, hget]
    rfl
  | «variable» k i =>
    rw [NodePath.definition]
    cases hget : d.definitions[k]? with
    | some => rfl
    | none => simp [node?, hget] at h

theorem Document.Holds.node?_within {steps : List Nat} {node : Node} (h : d'.Holds d place)
    (hnode : d.node? (.within k steps) = some node) :
    d'.node? (.within (place k) steps) = some node := by
  obtain ⟨definition, hget, hnode⟩ := Option.bind_eq_some_iff.mp hnode
  rw [Document.node?_within (h k definition hget), hnode]

/-! ### One typing in another -/

theorem Typing.typedAt?_eq (hr : t.record? id = some r) (hf : t.field? r = some f) :
    t.typedAt? id = some f := by
  rw [typedAt?, hr, Option.bind_some, hf]

namespace Document.HasTyping

variable {n : Nat}

/-- Every record is that of a node. -/
theorem exists_record?_of_lt (h : d.HasTyping s n t) (hr : r < t.records.size) :
    ∃ id, t.record? id = some r := by
  rw [h.ledger.size] at hr
  exact ⟨_, h.record?_eq_some_iff.mpr (List.getElem?_eq_getElem hr)⟩

theorem ownedBy (h : d.HasTyping s n t) : t.inputs.OwnedBy s := by
  obtain ⟨q, hq, rfl⟩ := h
  exact InputLists.ownedBy_of_adds ((d.sound_turns s n).grown q hq).inputs

/-- A typed variable agrees with that of the same definition elsewhere. -/
theorem agrees_variable {v : VariableDef} {id' : NodeId} {f' : TypedField}
    (h : d.HasTyping s n t) (h' : d'.HasTyping s n t') (hv : t.HasVariable s 0 id v)
    (hv' : t'.HasVariable s 0 id' v) (hf : t.typedAt? id = some f) (hf' : t'.typedAt? id' = some f') :
    f.Agrees number t.inputs t'.inputs f' := by
  obtain ⟨shape, bare, children, hshape, hbare, htyped, hobject, hother⟩ := hv
  obtain ⟨shape', bare', children', hshape', hbare', htyped', hobject', hother'⟩ := hv'
  obtain rfl : shape = shape' := Except.ok.inj (hshape.symm.trans hshape')
  obtain rfl : bare = bare' := Option.some.inj (hbare.symm.trans hbare')
  obtain rfl := Option.some.inj (hf.symm.trans htyped.typedAt?)
  obtain rfl := Option.some.inj (hf'.symm.trans htyped'.typedAt?)
  refine ⟨rfl, ?_⟩
  by_cases ho : bare.inputResolution = .object
  · obtain ⟨list, hlist, rfl⟩ := hobject ho
    obtain ⟨list', hlist', rfl⟩ := hobject' ho
    have htype : s.type? bare.name = some bare := Schema.type?_name (Schema.mem_types_of_type? hbare)
    exact .shared (h.ownedBy.agrees h'.ownedBy htype hlist hlist')
  · obtain rfl := hother ho
    obtain rfl := hother' ho
    exact .none

/-- A typed field agrees with that of the same field elsewhere. -/
theorem agrees_field {steps : List Nat} {k' : Nat} {head : FieldHead} {below : List Selection}
    {enclosing : List (Option TypeDef)} {f' : TypedField} {r' : RecordId}
    (h : d.HasTyping s n t) (h' : d'.HasTyping s n t')
    (hv : t.HasField s 0 enclosing ⟨n, .within k steps⟩ head.name)
    (hv' : t'.HasField s 0 enclosing ⟨n, .within k' steps⟩ head.name)
    (hnode : d.node? (.within k steps) = some (.field head below))
    (hnode' : d'.node? (.within k' steps) = some (.field head below))
    (hr : t.record? ⟨n, .within k steps⟩ = some r)
    (hr' : t'.record? ⟨n, .within k' steps⟩ = some r') (hf : t.field? r = some f)
    (hf' : t'.field? r' = some f') (hk : place k = k')
    (hnumber : ∀ id r, t.record? id = some r → t'.record? (id.moved place) = some (number r)) :
    f.Agrees number t.inputs t'.inputs f' := by
  subst hk
  obtain ⟨f₀, children, hf₀, htyped, hother⟩ := hv
  obtain ⟨f₀', children', hf₀', htyped', hother'⟩ := hv'
  obtain rfl : f₀ = f₀' := Option.some.inj (hf₀.symm.trans hf₀')
  obtain ⟨hobject, hnone⟩ := h.children_eq hnode hr hf
  obtain ⟨hobject', hnone'⟩ := h'.children_eq hnode' hr' hf'
  obtain rfl := Option.some.inj ((Typing.typedAt?_eq hr hf).symm.trans htyped.typedAt?)
  obtain rfl := Option.some.inj ((Typing.typedAt?_eq hr' hf').symm.trans htyped'.typedAt?)
  refine ⟨rfl, ?_⟩
  by_cases ho : f₀.resolution = .object
  · obtain ⟨records, rfl, hrecords⟩ := hobject ho
    obtain ⟨records', rfl, hrecords'⟩ := hobject' ho
    have hmoved := hrecords.moved hnumber
    rw [selectedFields, ← selectedFieldsFrom_moved] at hmoved
    obtain rfl := hmoved.eq hrecords'
    exact .selected records
  · obtain rfl := hnone ho
    obtain rfl := hnone' ho
    exact .none

/-- **A typing shows that of a document it holds**, given what the numbers of records are. -/
theorem shows (h : d.HasTyping s 0 t) (h' : d'.HasTyping s 0 t') (hd : d'.Holds d place)
    (hnumber : ∀ id r, t.record? id = some r → t'.record? (id.moved place) = some (number r)) :
    t'.Shows t d place number where
  record? := by
    intro path node hnode
    cases hr : t.record? ⟨0, path⟩ with
    | some r => exact hnumber _ r hr
    | none =>
      have hiff : NodeId.moved place ⟨0, path⟩ ∈ typedNodes (d'.turns s 0) ↔
          ⟨0, path⟩ ∈ typedNodes (d.turns s 0) :=
        hd.mem_typedNodes_iff (isSome_definition_of_node? hnode)
      rw [← h.record?_isSome_iff, ← h'.record?_isSome_iff, hr] at hiff
      exact Option.not_isSome_iff_eq_none.mp fun hsome => by cases hiff.mp hsome
  field? := by
    intro r f hf
    obtain ⟨id, hr⟩ := h.exists_record?_of_lt (Typing.lt_size_of_field? hf)
    obtain ⟨turn, hturn, hid⟩ := mem_typedNodes.mp (h.record?_isSome_iff.mp (by rw [hr]; rfl))
    have hrec := h.recorded turn hturn
    have hrec' := h'.recorded _ (hd.mem_turns hturn)
    have hr' := hnumber id r hr
    obtain ⟨f', hf'⟩ := h'.exists_field? hr'
    refine ⟨f', hf', ?_⟩
    obtain ⟨move, enclosing⟩ := turn
    rcases move_of_typed hturn hid with ⟨v, rfl⟩ | ⟨k, steps, head, below, rfl, rfl, hnode⟩
    · exact h.agrees_variable h' hrec hrec' (Typing.typedAt?_eq hr hf)
        (Typing.typedAt?_eq hr' hf')
    · exact h.agrees_field h' hrec hrec' hnode (hd.node?_within hnode) hr hr' hf hf' rfl hnumber
  fieldsOf := by
    intro k o hget
    have hx : (⟨0, .within k []⟩, o) ∈ d.operationNodes 0 := mem_operationNodes.mpr ⟨k, hget, rfl⟩
    obtain ⟨records, hanswer, hrecords⟩ := h.exists_fieldsOf hx
    obtain ⟨records', hanswer', hrecords'⟩ := h'.exists_fieldsOf (hd.operation hx)
    have hmoved := hrecords.moved hnumber
    rw [rootFields, selectedFields, ← selectedFieldsFrom_moved] at hmoved
    obtain rfl := hmoved.eq hrecords'
    exact ⟨records, hanswer, hanswer'⟩
  variablesOf := by
    intro k o hget
    have hx : (⟨0, .within k []⟩, o) ∈ d.operationNodes 0 := mem_operationNodes.mpr ⟨k, hget, rfl⟩
    obtain ⟨records, hanswer, hrecords⟩ := h.exists_variablesOf hx
    obtain ⟨records', hanswer', hrecords'⟩ := h'.exists_variablesOf (hd.operation hx)
    have hmoved := hrecords.moved hnumber
    rw [variablesIn, definedVariables, ← definedVariablesFrom_moved] at hmoved
    obtain rfl := hmoved.eq hrecords'
    exact ⟨records, hanswer, hanswer'⟩

end Document.HasTyping

/-! ### Outcomes -/

namespace Document

/-- The first fault of its turns is why a document has no typing. -/
theorem typing_eq_error_iff {e : TypingError} :
    (d.typing s).1 = .error e ↔ (d.turns s 0).findSome? (·.fault? s) = some e := by
  have hout := (d.sound_turns s 0).inStep.outcome
  rw [d.typing_eq]
  cases hfind : (d.turns s 0).findSome? (·.fault? s) with
  | some e' =>
    rw [hfind] at hout
    obtain ⟨q, hq, _⟩ := hout
    simp only [hq, Except.error.injEq, Option.some.injEq]
  | none =>
    rw [hfind] at hout
    obtain ⟨q, hq⟩ := hout
    simp [hq]

theorem exists_typing_iff :
    (∃ t, (d.typing s).1 = .ok t) ↔ (d.turns s 0).findSome? (·.fault? s) = none := by
  cases hd : (d.typing s).1 with
  | error e => simp [typing_eq_error_iff.mp hd]
  | ok t =>
    simp only [Except.ok.injEq, exists_eq', true_iff]
    exact List.findSome?_eq_none_iff.mpr (hasTyping_of_typing hd).fault?_eq_none

theorem findSome?_fault?_append (s : Schema) (d d' : Document) :
    ((d.append d').turns s 0).findSome? (·.fault? s) =
      ((d.turns s 0).findSome? (·.fault? s)).or ((d'.turns s 0).findSome? (·.fault? s)) := by
  rw [turns_append, List.findSome?_append, List.findSome?_map]
  exact congrArg _ (congrArg (List.findSome? · _) (funext fun turn => turn.fault?_moved))

/-- A document has a typing if all operations of it stand in one that has. -/
theorem Holds.exists_typing (h : d'.Holds d place) (ht : (d'.typing s).1 = .ok t') :
    ∃ t, (d.typing s).1 = .ok t := by
  refine exists_typing_iff.mpr (List.findSome?_eq_none_iff.mpr fun turn hturn => ?_)
  rw [← turn.fault?_moved]
  exact (hasTyping_of_typing ht).fault?_eq_none _ (h.mem_turns hturn)

end Document

/-! ### One document after another -/

namespace Document.HasTyping

variable {t₁ t₂ : Typing}

theorem getElem?_typedNodes_append (h : (d.append d').HasTyping s 0 t) :
    t.record? id = some r ↔
      (typedNodes (d.turns s 0) ++
        (typedNodes (d'.turns s 0)).map (·.moved (d.definitions.length + ·)))[r]? = some id := by
  rw [h.record?_eq_some_iff, turns_append, typedNodes_append, typedNodes_map_moved]

theorem record?_append_left (h : (d.append d').HasTyping s 0 t) (h₁ : d.HasTyping s 0 t₁)
    (hr : t₁.record? id = some r) : t.record? (id.moved fun k => k) = some r := by
  rw [h₁.record?_eq_some_iff] at hr
  rw [NodeId.moved_nowhere, h.getElem?_typedNodes_append,
    List.getElem?_append_left (List.getElem?_eq_some_iff.mp hr).1, hr]

theorem record?_append_right (h : (d.append d').HasTyping s 0 t) (h₁ : d.HasTyping s 0 t₁)
    (h₂ : d'.HasTyping s 0 t₂) (hr : t₂.record? id = some r) :
    t.record? (id.moved (d.definitions.length + ·)) = some (t₁.records.size + r) := by
  rw [h₂.record?_eq_some_iff] at hr
  rw [h.getElem?_typedNodes_append, h₁.ledger.size,
    List.getElem?_append_right (Nat.le_add_right _ _), Nat.add_sub_cancel_left, List.getElem?_map,
    hr, Option.map_some]

theorem variableRecords_append (h : (d.append d').HasTyping s 0 t) (h₁ : d.HasTyping s 0 t₁)
    (h₂ : d'.HasTyping s 0 t₂) :
    t.variableRecords =
      t₁.variableRecords ++ t₂.variableRecords.map (t₁.records.size + ·) := by
  have hleft : t.RecordsOf ((typedVariables (d.turns s 0)).map (·.moved fun k => k))
      (t₁.variableRecords.map fun r => r) :=
    h₁.ledger.variableRecords.moved fun id r => h.record?_append_left h₁
  have hright := h₂.ledger.variableRecords.moved fun id r => h.record?_append_right h₁ h₂
  have hall := h.ledger.variableRecords
  have hself : (typedVariables (d.turns s 0)).map (·.moved fun k => k) =
      typedVariables (d.turns s 0) := by
    rw [List.map_congr_left fun id _ => id.moved_nowhere, List.map_id']
  rw [hself, List.map_id'] at hleft
  rw [turns_append, typedVariables, List.filterMap_append] at hall
  rw [← typedVariables_map_moved] at hright
  exact (hleft.append hright).eq hall

end Document.HasTyping

/-! ### Definitions in another order -/

theorem typedVariables_sublist (turns : List Turn) :
    (typedVariables turns).Sublist (typedNodes turns) := by
  induction turns with
  | nil => exact List.Sublist.slnil
  | cons turn rest ih =>
    obtain ⟨move, enclosing⟩ := turn
    cases move with
    | enterVariable => exact ih.cons_cons _
    | enterField => exact ih.cons _
    | enterOperation | leaveOperation | leaveField => exact ih

namespace Document

variable {σ : Equiv.Perm ℕ}

/-- What turns pick, on a document and on one with the same definitions in another order. -/
theorem perm_of_holds {pick : Move → Option NodeId}
    (hpick : ∀ (place : Nat → Nat) (m : Move), pick (m.moved place) = (pick m).map (·.moved place))
    (hnodup : ∀ d : Document, ((d.turns s 0).filterMap (pick ·.move)).Nodup)
    (h : d'.Holds d σ) (h' : d.Holds d' σ.symm) :
    ((d'.turns s 0).filterMap (pick ·.move)).Perm
      (((d.turns s 0).filterMap (pick ·.move)).map (·.moved σ)) := by
  have hback : ∀ id : NodeId, (id.moved σ.symm).moved σ = id := by
    intro id
    obtain ⟨n, path⟩ := id
    cases path <;> simp [NodeId.moved, NodePath.moved]
  have hinj : Function.Injective (NodeId.moved σ) := fun _ _ => NodeId.moved_injective σ.injective
  refine (List.perm_ext_iff_of_nodup (hnodup d') ((hnodup d).map hinj)).mpr fun id => ?_
  simp only [List.mem_map, List.mem_filterMap]
  constructor
  · rintro ⟨turn, hturn, hid⟩
    refine ⟨id.moved σ.symm, ⟨_, h'.mem_turns hturn, ?_⟩, hback id⟩
    rw [Turn.moved, hpick, hid, Option.map_some]
  · rintro ⟨_, ⟨turn, hturn, hid⟩, rfl⟩
    refine ⟨_, h.mem_turns hturn, ?_⟩
    rw [Turn.moved, hpick, hid, Option.map_some]

theorem typedNodes_perm (h : d'.Holds d σ) (h' : d.Holds d' σ.symm) :
    (typedNodes (d'.turns s 0)).Perm ((typedNodes (d.turns s 0)).map (·.moved σ)) :=
  perm_of_holds (fun _ => Move.typed?_moved) (fun d => d.nodup_typedNodes s 0) h h'

theorem typedVariables_perm (h : d'.Holds d σ) (h' : d.Holds d' σ.symm) :
    (typedVariables (d'.turns s 0)).Perm ((typedVariables (d.turns s 0)).map (·.moved σ)) :=
  perm_of_holds (fun _ => Move.typedVariable?_moved)
    (fun d => (d.nodup_typedNodes s 0).sublist (typedVariables_sublist _)) h h'

/-- A typing of the same definitions in another order shows the one that there was. -/
theorem exists_shows_of_perm (hσ : ∀ k, d'.definitions[σ k]? = d.definitions[k]?)
    (ht : (d.typing s).1 = .ok t) :
    ∃ t' number, (d'.typing s).1 = .ok t' ∧ t'.Shows t d σ number ∧
      t'.records.size = t.records.size ∧
      (∀ r < t.records.size, ∀ r' < t.records.size, number r = number r' → r = r') ∧
      t'.variableRecords.Perm (t.variableRecords.map number) := by
  have h : d'.Holds d σ := fun k definition hget => (hσ k).trans hget
  have h' : d.Holds d' σ.symm := by
    intro k definition hget
    rw [← hσ, Equiv.apply_symm_apply, hget]
  obtain ⟨t', ht'⟩ := h'.exists_typing ht
  have hd := hasTyping_of_typing ht
  have hd' := hasTyping_of_typing ht'
  -- the record of a node is numbered by where the node was typed before
  obtain ⟨number, hnumber⟩ : ∃ number : RecordId → RecordId, ∀ id r, t.record? id = some r →
      t'.record? (id.moved σ) = some (number r) := by
    refine ⟨fun r => ((typedNodes (d.turns s 0))[r]?.bind fun id =>
      t'.record? (id.moved σ)).getD 0, ?_⟩
    intro id r hr
    rw [hd.record?_eq_some_iff] at hr
    obtain ⟨turn, hturn, hid⟩ := mem_typedNodes.mp (List.mem_of_getElem? hr)
    have hmem : id.moved σ ∈ typedNodes (d'.turns s 0) := by
      refine mem_typedNodes.mpr ⟨_, h.mem_turns hturn, ?_⟩
      rw [Turn.moved, Move.typed?_moved, hid, Option.map_some]
    obtain ⟨r', hr'⟩ := Option.isSome_iff_exists.mp (hd'.record?_isSome_iff.mpr hmem)
    simp only [hr, Option.bind_some, hr', Option.getD_some]
  refine ⟨t', number, ht', hd.shows hd' h hnumber, ?_, ?_, ?_⟩
  · rw [hd.ledger.size, hd'.ledger.size, (typedNodes_perm h h').length_eq, List.length_map]
  · intro r hr r' hr' heq
    obtain ⟨id, hid⟩ := hd.exists_record?_of_lt hr
    obtain ⟨id', hid'⟩ := hd.exists_record?_of_lt hr'
    have hsame := hd'.eq_of_record? (hnumber id r hid) ((hnumber id' r' hid').trans (by rw [heq]))
    rw [NodeId.moved_injective σ.injective hsame, hid'] at hid
    exact (Option.some.inj hid).symm
  · have hmoved := hd.ledger.variableRecords.moved hnumber
    have hall := hd'.ledger.variableRecords
    have hperm := (typedVariables_perm (s := s) h h').map t'.record?
    rw [← hmoved, ← hall] at hperm
    exact (List.map_perm_map_iff (Option.some_injective _)).mp hperm

/-- **Operations do not influence each other.**  Typing one document after another fails with the
error of the first of the two that has no typing.  If both have one, the variables of the first come
before those of the second, and all nodes and operations have what they have in the typing of their
own document.  So the same definitions in another order have the same results, in another order. -/
theorem typing_append (s : Schema) (d d' : Document) :
    (match (d.typing s).1, (d'.typing s).1 with
      | .error e, _ => ((d.append d').typing s).1 = .error e
      | .ok _, .error e => ((d.append d').typing s).1 = .error e
      | .ok t₁, .ok t₂ => ∃ t, ((d.append d').typing s).1 = .ok t ∧
        t.variableRecords =
          t₁.variableRecords ++ t₂.variableRecords.map (t₁.records.size + ·) ∧
        t.Shows t₁ d (fun k => k) (fun r => r) ∧
        t.Shows t₂ d' (d.definitions.length + ·) (t₁.records.size + ·)) ∧
    ∀ (σ : Equiv.Perm ℕ) (other : Document) (t : Typing),
      (∀ k, other.definitions[σ k]? = d.definitions[k]?) → (d.typing s).1 = .ok t →
      ∃ t' number, (other.typing s).1 = .ok t' ∧ t'.Shows t d σ number ∧
        t'.records.size = t.records.size ∧
        (∀ r < t.records.size, ∀ r' < t.records.size, number r = number r' → r = r') ∧
        t'.variableRecords.Perm (t.variableRecords.map number) := by
  refine ⟨?_, fun σ other t hσ ht => exists_shows_of_perm hσ ht⟩
  have hfault := findSome?_fault?_append s d d'
  cases h₁ : (d.typing s).1 with
  | error e =>
    rw [typing_eq_error_iff.mp h₁] at hfault
    exact typing_eq_error_iff.mpr hfault
  | ok t₁ =>
    rw [exists_typing_iff.mp ⟨t₁, h₁⟩, Option.none_or] at hfault
    cases h₂ : (d'.typing s).1 with
    | error e => exact typing_eq_error_iff.mpr (hfault.trans (typing_eq_error_iff.mp h₂))
    | ok t₂ =>
      obtain ⟨t, ht⟩ := exists_typing_iff.mpr (hfault.trans (exists_typing_iff.mp ⟨t₂, h₂⟩))
      have hall := hasTyping_of_typing ht
      have ht₁ := hasTyping_of_typing h₁
      have ht₂ := hasTyping_of_typing h₂
      exact ⟨t, ht, hall.variableRecords_append ht₁ ht₂,
        ht₁.shows hall (append_holds_left d d') fun id r => hall.record?_append_left ht₁,
        ht₂.shows hall (append_holds_right d d') fun id r => hall.record?_append_right ht₁ ht₂⟩

/-- Two documents, one after the other in either order: a field of the second is found where the
definition stands. -/
theorem typing_append_in_either_order :
    ∃ t t', ∃ number : RecordId → RecordId,
      (((Sample.document "friend" "name").append (Sample.document "name" "friend")).typing
        Sample.schema).1 = .ok t ∧
      (((Sample.document "name" "friend").append (Sample.document "friend" "name")).typing
        Sample.schema).1 = .ok t' ∧
      t.record? ⟨0, .within 1 [0, 0]⟩ = some 6 ∧
      t'.record? ⟨0, .within 0 [0, 0]⟩ = some (number 6) := by
  have hnone : (((Sample.document "friend" "name").append
      (Sample.document "name" "friend")).turns Sample.schema 0).findSome? (·.fault? Sample.schema) =
      none := rfl
  obtain ⟨t, ht⟩ := exists_typing_iff.mpr hnone
  have hswap : ∀ k, ((Sample.document "name" "friend").append
      (Sample.document "friend" "name")).definitions[Equiv.swap 0 1 k]? =
      ((Sample.document "friend" "name").append
        (Sample.document "name" "friend")).definitions[k]? := by
    intro k
    match k with
    | 0 | 1 => rfl
    | k + 2 =>
      rw [Equiv.swap_apply_of_ne_of_ne (by omega) (by omega)]
      rfl
  have hrecord : t.record? ⟨0, .within 1 [0, 0]⟩ = some 6 :=
    (hasTyping_of_typing ht).record?_eq_some_iff.mpr rfl
  obtain ⟨t', number, ht', hshows, _⟩ := (typing_append Sample.schema _
    (Sample.document "friend" "name")).2 _ _ t hswap ht
  refine ⟨t, t', number, ht, ht', hrecord, ?_⟩
  have hmoved := hshows.record? (.within 1 [0, 0]) _ rfl
  rwa [hrecord] at hmoved

end Document

end GraphQLTyping
