import GraphQLTyping.Proofs.Pass.Enclosing
import GraphQLTyping.Proofs.Pass.Ledger

/-!
# Documents that have a typing

A typing is **of** a document (`Document.HasTyping`) if a new pass ends with it after all turns of
the document.  Then none of these failed, all of them are recorded, and the ledger of the pass is
theirs.  What the typing says of a node or of an operation can so be told from the turns:

* `HasTyping.record?_isSome_iff`: the nodes with a record are those that the turns type.
* `HasTyping.eq_of_record?`: different nodes have different records.
* `HasTyping.exists_fieldsOf` and its like for variables, `HasTyping.noted_of_foreign`: each operation
  of the document has an answer, and nothing else has.
* `HasTyping.exists_turn`: a field that has a record was entered, and has the typed field of that.
-/

namespace GraphQLTyping

open Pass

variable {s : Schema} {d : Document} {t : Typing} {n k i : Nat} {id : NodeId} {r : RecordId}
  {turns : List Turn} {enclosing inner : List (Option TypeDef)} {steps : List Nat}
  {head : FieldHead} {selections : List Selection}

/-- Turns that are taken without a failure have no fault. -/
theorem Pass.InStep.fault?_eq_none {p q : Pass} (h : InStep s p turns)
    (hq : takeTurns s turns p = .ok ⟨⟩ q) : ∀ turn ∈ turns, turn.fault? s = none := by
  have hout := h.outcome
  cases hfind : turns.findSome? (·.fault? s) with
  | some e =>
    rw [hfind] at hout
    obtain ⟨r, hr, _⟩ := hout
    rw [hq] at hr
    cases hr
  | none => exact List.findSome?_eq_none_iff.mp hfind

/-! ### The operations of a document -/

/-- The operations of a document of a number with their identities, in the order of the text. -/
def Document.operationNodes (number : Nat) (d : Document) : List (NodeId × Operation) :=
  d.definitions.zipIdx.filterMap fun
    | (.operation o, i) => some (⟨number, .within i []⟩, o)
    | _ => none

theorem Document.mem_operationNodes {x : NodeId × Operation} :
    x ∈ d.operationNodes n ↔
      ∃ k, d.definitions[k]? = some (.operation x.2) ∧ x.1 = ⟨n, .within k []⟩ := by
  rw [operationNodes, List.mem_filterMap]
  constructor
  · rintro ⟨⟨definition, k⟩, hmem, hx⟩
    have hget := List.mem_zipIdx_iff_getElem?.mp hmem
    cases definition with
    | operation o =>
      cases hx
      exact ⟨k, hget, rfl⟩
    | fragment | typeSystem => cases hx
  · rintro ⟨k, hget, hid⟩
    refine ⟨(.operation x.2, k), List.mem_zipIdx_iff_getElem?.mpr hget, ?_⟩
    simp only [← hid]

theorem Document.eq_of_mem_operationNodes {x y : NodeId × Operation}
    (hx : x ∈ d.operationNodes n) (hy : y ∈ d.operationNodes n) (h : y.1 = x.1) : y = x := by
  obtain ⟨k, hget, hid⟩ := mem_operationNodes.mp hx
  obtain ⟨k', hget', hid'⟩ := mem_operationNodes.mp hy
  rw [hid, hid'] at h
  cases h
  rw [hget] at hget'
  exact Prod.ext (hid'.trans hid.symm) (Definition.operation.inj (Option.some.inj hget')).symm

/-- **The turns of a document** are those of its operations, one after the other. -/
theorem Document.turns_eq (s : Schema) (n : Nat) (d : Document) :
    d.turns s n = (d.operationNodes n).flatMap fun x => x.2.turns s [] x.1 := by
  have hfrom : ∀ (ds : List Definition) (i : Nat), Definition.turnsFrom s [] n i ds =
      ((ds.zipIdx i).filterMap fun
        | (.operation o, i) => some ((⟨n, .within i []⟩, o) : NodeId × Operation)
        | _ => none).flatMap fun x => x.2.turns s [] x.1 := by
    intro ds
    induction ds with
    | nil => exact fun _ => rfl
    | cons d rest ih =>
      intro i
      cases d with
      | operation o =>
        rw [Definition.turnsFrom, ih (i + 1)]
        rfl
      | fragment | typeSystem => exact ih (i + 1)
  exact hfrom d.definitions 0

theorem Document.mem_turns {turn : Turn} :
    turn ∈ d.turns s n ↔ ∃ x ∈ d.operationNodes n, turn ∈ x.2.turns s [] x.1 := by
  rw [turns_eq, List.mem_flatMap]

theorem leftOperations_eq_nil (h : ∀ turn ∈ turns, turn.move.left? = none) :
    leftOperations turns = [] :=
  List.filterMap_eq_nil_iff.mpr h

theorem Operation.leftOperations_turns {o : Operation} {root : TypeDef}
    (h : s.root? o.kind = some root) :
    leftOperations (o.turns s enclosing ⟨n, .within k steps⟩) =
      [(⟨n, .within k steps⟩, o)] := by
  have hinside : leftOperations
      (o.turnsInside s (some root :: enclosing) ⟨n, .within k steps⟩) = [] := by
    refine leftOperations_eq_nil fun turn hturn => ?_
    rcases List.mem_append.mp hturn with hturn | hturn
    · obtain ⟨_, _, _, hmove⟩ := VariableDef.move_of_turn _ _ turn hturn
      rw [hmove]
      rfl
    · obtain ⟨_, _, _, hmove | hmove⟩ := Selection.move_of_turn _ _ _ _ turn hturn <;>
      · rw [hmove]
        rfl
  rw [turns_root h, ← List.singleton_append, leftOperations, List.filterMap_append,
    List.filterMap_append]
  rw [leftOperations] at hinside
  rw [hinside]
  rfl

/-- An operation whose first turn has no fault has a root type. -/
theorem Operation.exists_root {o : Operation}
    (h : ∀ turn ∈ o.turns s enclosing id, turn.fault? s = none) :
    ∃ root, s.root? o.kind = some root := by
  have hfirst := h ⟨.enterOperation id o, enclosing⟩ List.mem_cons_self
  rw [← Option.isSome_iff_exists]
  by_contra hnone
  simp [Turn.fault?, hnone] at hfirst

theorem Operation.mem_turns_of_selections {o : Operation} {root : TypeDef} {turn : Turn}
    (hroot : s.root? o.kind = some root)
    (hturn : turn ∈ Selection.turnsFrom s (some root :: enclosing) id 0 o.selections) :
    turn ∈ o.turns s enclosing id := by
  rw [turns_root hroot, turnsInside]
  simp [hturn]

theorem Document.mem_turns_of_operation {o : Operation} {turn : Turn}
    (hget : d.definitions[k]? = some (.operation o))
    (hturn : turn ∈ o.turns s [] ⟨n, .within k []⟩) : turn ∈ d.turns s n := by
  have hx : (⟨n, .within k []⟩, o) ∈ d.operationNodes n := mem_operationNodes.mpr ⟨k, hget, rfl⟩
  exact mem_turns.mpr ⟨_, hx, hturn⟩

/-- The operations that turns without a fault leave are all operations. -/
theorem Document.leftOperations_turns (h : ∀ turn ∈ d.turns s n, turn.fault? s = none) :
    leftOperations (d.turns s n) = d.operationNodes n := by
  have hone : ∀ x ∈ d.operationNodes n, leftOperations (x.2.turns s [] x.1) = [x] := by
    intro x hx
    obtain ⟨k, _, hid⟩ := mem_operationNodes.mp hx
    obtain ⟨root, hroot⟩ := Operation.exists_root (o := x.2)
      fun turn hturn => h turn (mem_turns.mpr ⟨x, hx, hturn⟩)
    rw [hid, Operation.leftOperations_turns hroot, ← hid]
  rw [turns_eq, leftOperations, List.filterMap_flatMap]
  calc (d.operationNodes n).flatMap (fun x => leftOperations (x.2.turns s [] x.1))
      = (d.operationNodes n).flatMap fun x => [x] := List.flatMap_congr hone
    _ = d.operationNodes n := List.flatMap_singleton' _

/-! ### What a typing says of nodes -/

/-- A typing is **of** a document of a number if a new pass ends with it. -/
def Document.HasTyping (s : Schema) (number : Nat) (d : Document) (t : Typing) : Prop :=
  ∃ q, takeTurns s (d.turns s number) { used := true } = .ok ⟨⟩ q ∧ q.typing = t

theorem Document.hasTyping_of_typing (h : (d.typing s).1 = .ok t) : d.HasTyping s 0 t := by
  rw [typing_eq] at h
  cases hq : takeTurns s (d.turns s 0) { used := true } with
  | error e q =>
    rw [hq] at h
    cases h
  | ok _ q =>
    rw [hq] at h
    cases h
    exact ⟨q, hq, rfl⟩

theorem Document.hasTyping_of_typeDocument {q : Pass} (h : typeDocument s n d {} = .ok ⟨⟩ q) :
    d.HasTyping s n q.typing := by
  rw [typeDocument_eq] at h
  exact ⟨q, h, rfl⟩

theorem Document.nodup_typedNodes (s : Schema) (n : Nat) (d : Document) :
    (typedNodes (d.turns s n)).Nodup :=
  Definition.nodup_typedNodes d.definitions [] 0

namespace Document.HasTyping

theorem recorded (h : d.HasTyping s n t) : ∀ turn ∈ d.turns s n, turn.Recorded s 0 t := by
  obtain ⟨q, hq, rfl⟩ := h
  exact ((d.sound_turns s n).grown q hq).recorded

theorem fault?_eq_none (h : d.HasTyping s n t) : ∀ turn ∈ d.turns s n, turn.fault? s = none := by
  obtain ⟨q, hq, rfl⟩ := h
  exact (d.sound_turns s n).inStep.fault?_eq_none hq

/-- Each operation has a root type. -/
theorem exists_root {o : Operation} (h : d.HasTyping s n t)
    (hget : d.definitions[k]? = some (.operation o)) : ∃ root, s.root? o.kind = some root :=
  Operation.exists_root fun turn hturn =>
    h.fault?_eq_none turn (mem_turns_of_operation hget hturn)

theorem ledger (h : d.HasTyping s n t) : Ledger (d.turns s n) t := by
  obtain ⟨q, hq, rfl⟩ := h
  exact ledger_of_takeTurns rfl hq (d.nodup_typedNodes s n)

theorem record?_eq_some_iff (h : d.HasTyping s n t) :
    t.record? id = some r ↔ (typedNodes (d.turns s n))[r]? = some id :=
  h.ledger.record?_eq_some_iff (d.nodup_typedNodes s n)

/-- **The nodes with a record** are those that the turns type. -/
theorem record?_isSome_iff (h : d.HasTyping s n t) :
    (t.record? id).isSome ↔ id ∈ typedNodes (d.turns s n) :=
  h.ledger.record?_isSome_iff (d.nodup_typedNodes s n)

/-- **Different nodes have different records.** -/
theorem eq_of_record? {id' : NodeId} (h : d.HasTyping s n t) (hid : t.record? id = some r)
    (hid' : t.record? id' = some r) : id = id' := by
  rw [h.record?_eq_some_iff] at hid hid'
  rw [hid] at hid'
  exact Option.some.inj hid'

theorem exists_field? (h : d.HasTyping s n t) (hid : t.record? id = some r) :
    ∃ f, t.field? r = some f := by
  rw [h.record?_eq_some_iff] at hid
  have hlt : r < t.records.size := by
    rw [h.ledger.size]
    exact (List.getElem?_eq_some_iff.mp hid).1
  exact ⟨t.records[r], by rw [Typing.field?, Array.getElem?_eq_getElem hlt]⟩

/-- A field that has a record was entered, and its typed field is that of its turn with something
below it. -/
theorem exists_turn (h : d.HasTyping s n t) (hnode : d.node? (.within k steps) =
      some (.field head selections)) (hid : (t.record? ⟨n, .within k steps⟩).isSome) :
    ∃ enclosing, ⟨.enterField ⟨n, .within k steps⟩ head selections, enclosing⟩ ∈ d.turns s n := by
  rw [h.record?_isSome_iff, mem_typedNodes] at hid
  obtain ⟨⟨move, enclosing⟩, hturn, hid⟩ := hid
  obtain ⟨head', below, hmove, _, hnode'⟩ := exists_path_of_typed hturn hid
  rw [hnode] at hnode'
  cases hnode'
  cases hmove
  exact ⟨enclosing, hturn⟩

end Document.HasTyping

/-! ### What a typing says of operations -/

namespace Typing

variable {below : NodeId × Operation → List NodeId} {ops : List (NodeId × Operation)}
  {entries : List (NodeId × List RecordId)} {x : NodeId × Operation}

/-- The entry of an operation is found. -/
theorem exists_lookup_of_lists (h : List.Forall₂ (t.Lists below) ops entries) (hx : x ∈ ops)
    (huniq : ∀ y ∈ ops, y.1 = x.1 → y = x) :
    ∃ records, entries.lookup x.1 = some records ∧ t.RecordsOf (below x) records := by
  induction h with
  | nil => cases hx
  | @cons y entry ops entries hfirst _ ih =>
    by_cases hy : y.1 = x.1
    · obtain rfl := huniq y List.mem_cons_self hy
      refine ⟨entry.2, ?_, hfirst.2⟩
      rw [List.lookup_cons, hfirst.1, beq_self_eq_true]
    · have hmem : x ∈ ops := by
        rcases List.mem_cons.mp hx with rfl | hx
        · exact absurd rfl hy
        · exact hx
      obtain ⟨records, hlookup, hrecords⟩ :=
        ih hmem fun z hz => huniq z (List.mem_cons_of_mem _ hz)
      refine ⟨records, ?_, hrecords⟩
      rw [List.lookup_cons, hfirst.1, beq_eq_false_iff_ne.mpr (Ne.symm hy)]
      exact hlookup

theorem lookup_eq_none_of_lists (h : List.Forall₂ (t.Lists below) ops entries)
    (hid : ∀ y ∈ ops, y.1 ≠ id) : entries.lookup id = none := by
  induction h with
  | nil => rfl
  | cons hfirst _ ih =>
    rw [List.lookup_cons, hfirst.1,
      beq_eq_false_iff_ne.mpr (Ne.symm (hid _ List.mem_cons_self))]
    exact ih fun y hy => hid y (List.mem_cons_of_mem _ hy)

end Typing

namespace Document.HasTyping

theorem leftOperations_eq (h : d.HasTyping s n t) :
    leftOperations (d.turns s n) = d.operationNodes n :=
  leftOperations_turns h.fault?_eq_none

variable {x : NodeId × Operation} {below : NodeId × Operation → List NodeId}
  {entries : List (NodeId × List RecordId)}

theorem exists_lookup (h : d.HasTyping s n t)
    (hl : List.Forall₂ (t.Lists below) (leftOperations (d.turns s n)).reverse entries)
    (hx : x ∈ d.operationNodes n) :
    ∃ records, entries.lookup x.1 = some records ∧ t.RecordsOf (below x) records := by
  rw [h.leftOperations_eq] at hl
  refine Typing.exists_lookup_of_lists hl (List.mem_reverse.mpr hx) ?_
  intro y hy heq
  exact eq_of_mem_operationNodes hx (List.mem_reverse.mp hy) heq

theorem lookup_eq_none (h : d.HasTyping s n t)
    (hl : List.Forall₂ (t.Lists below) (leftOperations (d.turns s n)).reverse entries)
    (hid : ∀ x ∈ d.operationNodes n, x.1 ≠ id) : entries.lookup id = none := by
  rw [h.leftOperations_eq] at hl
  exact Typing.lookup_eq_none_of_lists hl fun x hx => hid x (List.mem_reverse.mp hx)

/-- Each operation has its root fields. -/
theorem exists_fieldsOf (h : d.HasTyping s n t) (hx : x ∈ d.operationNodes n) :
    ∃ records, t.fieldsOf x.1 (.operation x.2) = .ok records ∧
      t.RecordsOf (rootFields x) records := by
  obtain ⟨records, hlookup, hrecords⟩ := h.exists_lookup h.ledger.operationFields hx
  exact ⟨records, by rw [Typing.fieldsOf, Typing.noted, hlookup], hrecords⟩

/-- Each operation has its variables. -/
theorem exists_variablesOf (h : d.HasTyping s n t) (hx : x ∈ d.operationNodes n) :
    ∃ records, t.variablesOf x.1 (.operation x.2) = .ok records ∧
      t.RecordsOf (variablesIn x) records := by
  obtain ⟨records, hlookup, hrecords⟩ := h.exists_lookup h.ledger.operationVariables hx
  exact ⟨records, by rw [Typing.variablesOf, Typing.noted, hlookup], hrecords⟩

/-- What is no operation of the document has no root fields and no variables. -/
theorem noted_of_foreign (h : d.HasTyping s n t) (hid : ∀ x ∈ d.operationNodes n, x.1 ≠ id)
    (o : Operation) :
    t.fieldsOf id (.operation o) = .error (.foreignOperation o.name) ∧
      t.variablesOf id (.operation o) = .error (.foreignOperation o.name) := by
  rw [Typing.fieldsOf, Typing.variablesOf, Typing.noted, Typing.noted,
    h.lookup_eq_none h.ledger.operationFields hid,
    h.lookup_eq_none h.ledger.operationVariables hid]
  exact ⟨rfl, rfl⟩

end Document.HasTyping

end GraphQLTyping
