import Mathlib.Data.List.Induction
import GraphQLTyping.Proofs.Pass.Run

/-!
# The ledger of a run

What a pass has noted when it has taken turns without a failure is known from the turns alone
(`Pass.ledger_of_takeTurns`): each node that they type has a record, and these are numbered in the
order of the turns; the variables are listed in that order too, and for each operation that was left
its root fields and its variables.

So the record of a node is its place among the nodes that were typed (`Ledger.record?_eq_some_iff`).
In particular, different nodes have different records.

What a single step notes is read off its successful outcomes (`Move.notes_of_ok`), and what a run
notes follows by induction from its end: a step that types one more node leaves the records of all
other nodes alone.
-/

namespace GraphQLTyping

variable {s : Schema} {p q : Pass} {t t' : Typing} {id : NodeId} {r : RecordId}
  {turns : List Turn} {turn : Turn}

/-- Records are **those of** nodes, one of each and in their order. -/
def Typing.RecordsOf (t : Typing) (nodes : List NodeId) (records : List RecordId) : Prop :=
  records.map some = nodes.map t.record?

theorem Typing.RecordsOf.length_eq {nodes : List NodeId} {records : List RecordId}
    (h : t.RecordsOf nodes records) : records.length = nodes.length := by
  rw [← List.length_map (f := some), h, List.length_map]

/-! ### Steps that succeed -/

namespace Pass

variable {α β : Type} {name : String}

theorem exists_of_bind_ok {x : Step α} {f : α → Step β} {b : β} (h : (x >>= f) p = .ok b q) :
    ∃ a r, x p = .ok a r ∧ f a r = .ok b q := by
  rw [bind_apply] at h
  cases hx : x p with
  | ok a r =>
    rw [hx] at h
    exact ⟨a, r, rfl, h⟩
  | error e r =>
    rw [hx] at h
    cases h

theorem exists_of_discard_ok {x : Step α} (h : (discard x : Step PUnit) p = .ok ⟨⟩ q) :
    ∃ a, x p = .ok a q := by
  rw [discard_apply] at h
  cases hx : x p with
  | ok a r =>
    rw [hx] at h
    cases h
    exact ⟨a, rfl⟩
  | error e r =>
    rw [hx] at h
    cases h

theorem recordOr_ok {e : TypingError} (h : recordOr e id p = .ok r q) :
    p.typing.record? id = some r ∧ q = p := by
  cases hr : p.typing.record? id with
  | some r' =>
    rw [recordOr_of_some hr] at h
    cases h
    exact ⟨rfl, rfl⟩
  | none =>
    simp only [recordOr, bind_apply, get_apply, hr, throw_apply] at h
    cases h

theorem mapM_recordOr_ok {error : String → TypingError} {nodes : List (NodeId × String)}
    {records : List RecordId}
    (h : (nodes.mapM fun (id, name) => recordOr (error name) id) p = .ok records q) :
    p.typing.RecordsOf (nodes.map (·.1)) records ∧ q = p := by
  induction nodes generalizing records q with
  | nil =>
    cases h
    exact ⟨rfl, rfl⟩
  | cons node rest ih =>
    rw [List.mapM_cons] at h
    obtain ⟨first, _, hfirst, hrest⟩ := exists_of_bind_ok h
    obtain ⟨hrecord, rfl⟩ := recordOr_ok hfirst
    obtain ⟨others, _, hothers, hpure⟩ := exists_of_bind_ok hrest
    obtain ⟨hmap, rfl⟩ := ih hothers
    cases hpure
    refine ⟨?_, rfl⟩
    rw [Typing.RecordsOf, List.map_cons, List.map_cons, List.map_cons, hmap, hrecord]

theorem pop_ok {left : TypeDef} (h : pop p = .ok left q) : q.typing = p.typing := by
  cases hp : p.enclosing with
  | nil =>
    simp only [pop, bind_apply, get_apply, hp, throw_apply] at h
    cases h
  | cons innermost rest =>
    cases innermost with
    | none =>
      simp only [pop, bind_apply, get_apply, hp, modify_apply, known, throw_apply] at h
      cases h
    | some t =>
      rw [pop_of_cons hp] at h
      cases h
      rfl

theorem leaveType_ok {e : TypingError} {left : Option RecordId}
    (h : leaveType e id p = .ok left q) : q.typing = p.typing := by
  obtain ⟨record, p', hrecord, hrest⟩ := exists_of_bind_ok h
  obtain ⟨_, rfl⟩ := recordOr_ok hrecord
  obtain ⟨_, _, hget, hfield⟩ := exists_of_bind_ok hrest
  cases hget
  cases hf : p'.typing.field? record with
  | none =>
    simp only [hf, throw_apply] at hfield
    cases hfield
  | some f =>
    by_cases ho : f.resolution = .object
    · simp only [hf, if_pos ho] at hfield
      obtain ⟨t, _, hpop, hname⟩ := exists_of_bind_ok hfield
      rw [← pop_ok hpop]
      split at hname <;> cases hname
      rfl
    · simp only [hf, if_neg ho] at hfield
      cases hfield
      rfl

theorem enterOperation_ok {kind : OperationKind} (h : enterOperation s kind p = .ok ⟨⟩ q) :
    q.typing = p.typing := by
  cases hr : s.root? kind with
  | none =>
    rw [enterOperation_missing hr] at h
    cases h
  | some root =>
    rw [enterOperation_root hr] at h
    cases h
    rfl

theorem enterVariable_ok {type : TypeRef} (h : enterVariable s id name type p = .ok ⟨⟩ q) :
    ∃ inputs f, q.typing = { p.typing with inputs }.addVariable id f := by
  cases hs : type.simpleShape with
  | error rest =>
    rw [enterVariable_unsupported hs] at h
    cases h
  | ok shape =>
    cases hb : s.type? shape.name with
    | none =>
      rw [enterVariable_unknown hs hb] at h
      cases h
    | some bare =>
      by_cases ho : bare.inputResolution = .object
      · rw [enterVariable_object hs hb ho] at h
        cases h
        exact ⟨_, _, rfl⟩
      · by_cases hu : bare.inputResolution = .unclassified
        · rw [enterVariable_unclassified hs hb hu] at h
          cases h
          exact ⟨_, _, rfl⟩
        · rw [enterVariable_leaf hs hb ho hu] at h
          cases h
          exact ⟨_, _, rfl⟩

theorem enterField_ok {descent : Descent} (h : enterField s id name p = .ok descent q) :
    ∃ f, q.typing = p.typing.add id f := by
  cases hp : p.enclosing with
  | nil =>
    rw [enterField_of_nil hp] at h
    cases h
  | cons parent outer =>
    cases hf : s.typedOutput? parent name with
    | none =>
      rw [enterField_missing hp hf] at h
      cases h
    | some f =>
      refine ⟨f, ?_⟩
      by_cases ho : f.resolution = .object
      · rw [enterField_object hp hf ho] at h
        cases h
        rfl
      · by_cases hu : f.resolution = .unclassified
        · cases parent with
          | none =>
            rw [enterField_nowhere hp hf hu] at h
            cases h
          | some parent =>
            rw [enterField_unclassified hp hf hu] at h
            cases h
            rfl
        · rw [enterField_leaf hp hf ho hu] at h
          cases h
          rfl

theorem leaveField_ok {children : List (NodeId × String)}
    (h : leaveField id name children p = .ok ⟨⟩ q) :
    q.typing = p.typing ∨ ∃ record records, q.typing = p.typing.setChildren record records := by
  obtain ⟨left, _, hleave, hrest⟩ := exists_of_bind_ok h
  have htyping := leaveType_ok hleave
  cases left with
  | none =>
    cases hrest
    exact Or.inl htyping
  | some record =>
    obtain ⟨records, _, hrecords, hnote⟩ := exists_of_bind_ok hrest
    obtain ⟨_, rfl⟩ := mapM_recordOr_ok hrecords
    cases hnote
    exact Or.inr ⟨record, records, by rw [← htyping]⟩

theorem leaveOperation_ok {children defined : List (NodeId × String)}
    (h : leaveOperation id children defined p = .ok ⟨⟩ q) :
    ∃ fields noted,
      p.typing.RecordsOf (children.map (·.1)) fields ∧
      p.typing.RecordsOf (defined.map (·.1)) noted ∧
      q.typing = { p.typing with
        operationFields := (id, fields) :: p.typing.operationFields
        operationVariables := (id, noted) :: p.typing.operationVariables } := by
  obtain ⟨_, _, hdiscard, hrest⟩ := exists_of_bind_ok h
  obtain ⟨left, hpop⟩ := exists_of_discard_ok hdiscard
  have htyping := pop_ok hpop
  obtain ⟨_, _, hnoteFields, hnoteVariables⟩ := exists_of_bind_ok hrest
  obtain ⟨fields, _, hchildren, hnote⟩ := exists_of_bind_ok hnoteFields
  obtain ⟨hfields, rfl⟩ := mapM_recordOr_ok hchildren
  cases hnote
  obtain ⟨noted, _, hdefined, hnote⟩ := exists_of_bind_ok hnoteVariables
  obtain ⟨hnoted, rfl⟩ := mapM_recordOr_ok hdefined
  cases hnote
  refine ⟨fields, noted, ?_, ?_, ?_⟩
  · rw [← htyping]
    exact hfields
  · rw [← htyping]
    exact hnoted
  · rw [← htyping]

end Pass

/-! ### What a step notes -/

/-- The variable that a move types. -/
def Move.typedVariable? : Move → Option NodeId
  | .enterVariable id _ => some id
  | _ => none

/-- The operation that a move leaves. -/
def Move.left? : Move → Option (NodeId × Operation)
  | .leaveOperation id o => some (id, o)
  | _ => none

/-- The variables that turns type, in order. -/
def typedVariables (turns : List Turn) : List NodeId := turns.filterMap (·.move.typedVariable?)

/-- The operations that turns leave, in order. -/
def leftOperations (turns : List Turn) : List (NodeId × Operation) :=
  turns.filterMap (·.move.left?)

/-- The root fields of an operation. -/
def rootFields (operation : NodeId × Operation) : List NodeId :=
  (selectedFields operation.1 operation.2.selections).map (·.1)

/-- The variables of an operation. -/
def variablesIn (operation : NodeId × Operation) : List NodeId :=
  (definedVariables operation.1 operation.2.variableDefs).map (·.1)

theorem length_definedVariablesFrom (id : NodeId) (i : Nat) (vs : List VariableDef) :
    (definedVariablesFrom id i vs).length = vs.length := by
  induction vs generalizing i with
  | nil => rfl
  | cons v rest ih => rw [definedVariablesFrom, List.length_cons, List.length_cons, ih]

theorem length_variablesIn (operation : NodeId × Operation) :
    (variablesIn operation).length = operation.2.variableDefs.length := by
  rw [variablesIn, List.length_map, definedVariables, length_definedVariablesFrom]

namespace Typing

/-- An entry **lists** what is below an operation: it is the operation's own, and has the records of
the nodes there. -/
def Lists (t : Typing) (below : NodeId × Operation → List NodeId)
    (operation : NodeId × Operation) (entry : NodeId × List RecordId) : Prop :=
  entry.1 = operation.1 ∧ t.RecordsOf (below operation) entry.2

end Typing

/-- What a move **notes** in a typing when it succeeds. -/
structure Move.Notes (m : Move) (t t' : Typing) : Prop where
  nodes : t'.nodes = m.typed?.toList.map (·, t.records.size) ++ t.nodes
  size : t'.records.size = t.records.size + m.typed?.toList.length
  variableRecords : t'.variableRecords =
    t.variableRecords ++ m.typedVariable?.toList.map fun _ => t.records.size
  operationFields : ∃ entries, t'.operationFields = entries ++ t.operationFields ∧
    List.Forall₂ (t.Lists rootFields) m.left?.toList entries
  operationVariables : ∃ entries, t'.operationVariables = entries ++ t.operationVariables ∧
    List.Forall₂ (t.Lists variablesIn) m.left?.toList entries

/-- A move that types nothing and leaves no operation. -/
theorem Move.notes_of_eq {m : Move} (hm : m.typed? = none) (hv : m.typedVariable? = none)
    (hl : m.left? = none) (hn : t'.nodes = t.nodes) (hs : t'.records.size = t.records.size)
    (hr : t'.variableRecords = t.variableRecords) (hf : t'.operationFields = t.operationFields)
    (hd : t'.operationVariables = t.operationVariables) : m.Notes t t' where
  nodes := by rw [hm, hn]; rfl
  size := by rw [hm, hs]; rfl
  variableRecords := by rw [hv, hr]; simp
  operationFields := ⟨[], by rw [hf]; rfl, by rw [hl]; exact .nil⟩
  operationVariables := ⟨[], by rw [hd]; rfl, by rw [hl]; exact .nil⟩

/-- **What a step notes** when it succeeds. -/
theorem Move.notes_of_ok {m : Move} (h : m.step s p = .ok ⟨⟩ q) : m.Notes p.typing q.typing := by
  cases m with
  | enterOperation id o =>
    rw [Pass.enterOperation_ok h]
    exact notes_of_eq rfl rfl rfl rfl rfl rfl rfl rfl
  | leaveOperation id o =>
    obtain ⟨fields, noted, hfields, hnoted, htyping⟩ := Pass.leaveOperation_ok h
    rw [htyping]
    refine ⟨rfl, rfl, by simp [typedVariable?], ⟨[(id, fields)], rfl, ?_⟩, ⟨[(id, noted)], rfl, ?_⟩⟩
    · exact .cons ⟨rfl, hfields⟩ .nil
    · exact .cons ⟨rfl, hnoted⟩ .nil
  | enterVariable id v =>
    obtain ⟨inputs, f, htyping⟩ := Pass.enterVariable_ok h
    rw [htyping]
    exact ⟨rfl, by simp [Typing.addVariable, Typing.add, typed?], rfl, ⟨[], rfl, .nil⟩,
      ⟨[], rfl, .nil⟩⟩
  | enterField id head selections =>
    obtain ⟨descent, hstep⟩ := Pass.exists_of_discard_ok h
    obtain ⟨f, htyping⟩ := Pass.enterField_ok hstep
    rw [htyping]
    exact ⟨rfl, by simp [Typing.add, typed?], by simp [Typing.add, typedVariable?], ⟨[], rfl, .nil⟩,
      ⟨[], rfl, .nil⟩⟩
  | leaveField id head selections =>
    rcases Pass.leaveField_ok h with htyping | ⟨record, records, htyping⟩
    · rw [htyping]
      exact notes_of_eq rfl rfl rfl rfl rfl rfl rfl rfl
    · rw [htyping]
      exact notes_of_eq rfl rfl rfl rfl (by simp) rfl rfl rfl

namespace Typing

/-- A typing **keeps** the records of the nodes of another one. -/
def Keeps (t t' : Typing) : Prop := ∀ id r, t.record? id = some r → t'.record? id = some r

theorem RecordsOf.mono {nodes : List NodeId} {records : List RecordId}
    (h : t.RecordsOf nodes records) (hk : t.Keeps t') : t'.RecordsOf nodes records := by
  refine Eq.trans h (List.map_congr_left fun node hnode => ?_)
  have hmem : t.record? node ∈ records.map some := by
    rw [h]
    exact List.mem_map_of_mem hnode
  obtain ⟨r, _, hr⟩ := List.mem_map.mp hmem
  rw [← hr, hk node r hr.symm]

theorem Lists.mono {below : NodeId × Operation → List NodeId} {operation : NodeId × Operation}
    {entry : NodeId × List RecordId} (h : t.Lists below operation entry) (hk : t.Keeps t') :
    t'.Lists below operation entry :=
  ⟨h.1, h.2.mono hk⟩

end Typing

/-- A move that types no node that has a record keeps all records. -/
theorem Move.Notes.keeps {m : Move} (h : m.Notes t t')
    (hm : ∀ id, m.typed? = some id → t.record? id = none) : t.Keeps t' := by
  intro id r hr
  rw [Typing.record?, h.nodes]
  cases htyped : m.typed? with
  | none => exact hr
  | some own =>
    have hne : id ≠ own := by
      rintro rfl
      rw [hm id htyped] at hr
      cases hr
    rw [Option.toList_some, List.map_singleton, List.singleton_append, List.lookup_cons,
      beq_eq_false_iff_ne.mpr hne]
    exact hr

theorem Move.Notes.record?_typed {m : Move} (h : m.Notes t t') (hm : m.typed? = some id) :
    t'.record? id = some t.records.size := by
  rw [Typing.record?, h.nodes, hm]
  simp

theorem Move.typed?_of_typedVariable? {m : Move} (h : m.typedVariable? = some id) :
    m.typed? = some id := by
  cases m with
  | enterVariable => exact h
  | enterOperation | leaveOperation | enterField | leaveField => cases h

/-! ### What a run notes -/

/-- The **ledger** of turns: what a typing that was empty before has noted when they have been
taken. -/
structure Ledger (turns : List Turn) (t : Typing) : Prop where
  nodes : t.nodes = (typedNodes turns).zipIdx.reverse
  size : t.records.size = (typedNodes turns).length
  variableRecords : t.RecordsOf (typedVariables turns) t.variableRecords
  operationFields :
    List.Forall₂ (t.Lists rootFields) (leftOperations turns).reverse t.operationFields
  operationVariables :
    List.Forall₂ (t.Lists variablesIn) (leftOperations turns).reverse t.operationVariables

theorem lookup_eq_some_iff_mem {α β : Type} [BEq α] [LawfulBEq α] {l : List (α × β)} {a : α} {b : β}
    (h : (l.map (·.1)).Nodup) : l.lookup a = some b ↔ (a, b) ∈ l := by
  induction l with
  | nil => simp
  | cons x rest ih =>
    rw [List.map_cons, List.nodup_cons] at h
    rw [List.lookup_cons, List.mem_cons]
    by_cases hx : a = x.1
    · subst hx
      have hnot : (x.1, b) ∉ rest := fun hmem => h.1 (List.mem_map_of_mem (f := (·.1)) hmem)
      simp only [beq_self_eq_true, hnot, or_false, Option.some.injEq]
      constructor
      · rintro rfl
        rfl
      · intro heq
        rw [← heq]
    · rw [beq_eq_false_iff_ne.mpr hx]
      have hne : (a, b) ≠ x := fun heq => hx (congrArg (·.1) heq)
      simp only [ih h.2, hne, false_or]

namespace Ledger

/-- **The record of a node is its place** among the nodes that were typed. -/
theorem record?_eq_some_iff (h : Ledger turns t) (hn : (typedNodes turns).Nodup) :
    t.record? id = some r ↔ (typedNodes turns)[r]? = some id := by
  have hkeys : (t.nodes.map (·.1)).Nodup := by
    rw [h.nodes, List.map_reverse, List.nodup_reverse]
    simpa using hn
  rw [Typing.record?, lookup_eq_some_iff_mem hkeys, h.nodes, List.mem_reverse,
    List.mem_zipIdx_iff_getElem?]

theorem record?_isSome_iff (h : Ledger turns t) (hn : (typedNodes turns).Nodup) :
    (t.record? id).isSome ↔ id ∈ typedNodes turns := by
  simp only [Option.isSome_iff_exists, h.record?_eq_some_iff hn, List.mem_iff_getElem?]

theorem nil : Ledger [] {} :=
  ⟨rfl, rfl, rfl, .nil, .nil⟩

/-- The ledger after one more turn. -/
theorem concat (h : Ledger turns t) (hm : turn.move.Notes t t')
    (hn : (typedNodes (turns ++ [turn])).Nodup) : Ledger (turns ++ [turn]) t' := by
  have htyped : typedNodes (turns ++ [turn]) = typedNodes turns ++ turn.move.typed?.toList := by
    rw [typedNodes_append, typedNodes, typedNodes, List.filterMap_cons]
    cases turn.move.typed? <;> rfl
  have hvariables :
      typedVariables (turns ++ [turn]) = typedVariables turns ++ turn.move.typedVariable?.toList := by
    rw [typedVariables, typedVariables, List.filterMap_append, List.filterMap_cons]
    cases turn.move.typedVariable? <;> rfl
  have hleft :
      (leftOperations (turns ++ [turn])).reverse =
        turn.move.left?.toList ++ (leftOperations turns).reverse := by
    rw [leftOperations, leftOperations, List.filterMap_append, List.reverse_append,
      List.filterMap_cons]
    cases turn.move.left? <;> rfl
  rw [htyped] at hn
  have hk : t.Keeps t' := by
    refine hm.keeps fun id hid => ?_
    rw [← Option.not_isSome_iff_eq_none, h.record?_isSome_iff hn.of_append_left]
    intro hmem
    exact List.disjoint_of_nodup_append hn hmem (by rw [hid]; simp)
  refine ⟨?_, ?_, ?_, ?_, ?_⟩
  · rw [hm.nodes, h.nodes, h.size, htyped, List.zipIdx_append, List.reverse_append, Nat.zero_add]
    cases turn.move.typed? <;> rfl
  · rw [hm.size, h.size, htyped, List.length_append]
  · have hown : t'.RecordsOf turn.move.typedVariable?.toList
        (turn.move.typedVariable?.toList.map fun _ => t.records.size) := by
      cases hv : turn.move.typedVariable? with
      | none => rfl
      | some id =>
        have hrecord := hm.record?_typed (Move.typed?_of_typedVariable? hv)
        simp [Typing.RecordsOf, hrecord]
    rw [hm.variableRecords, hvariables, Typing.RecordsOf, List.map_append, List.map_append,
      h.variableRecords.mono hk, hown]
  · obtain ⟨entries, heq, hentries⟩ := hm.operationFields
    rw [heq, hleft]
    exact List.rel_append (hentries.imp fun _ _ he => he.mono hk)
      (h.operationFields.imp fun _ _ he => he.mono hk)
  · obtain ⟨entries, heq, hentries⟩ := hm.operationVariables
    rw [heq, hleft]
    exact List.rel_append (hentries.imp fun _ _ he => he.mono hk)
      (h.operationVariables.imp fun _ _ he => he.mono hk)

end Ledger

/-- **What a run notes.**  A pass that has noted nothing takes turns that type different nodes. -/
theorem Pass.ledger_of_takeTurns (hp : p.typing = {}) (h : takeTurns s turns p = .ok ⟨⟩ q)
    (hn : (typedNodes turns).Nodup) : Ledger turns q.typing := by
  induction turns using List.reverseRecOn generalizing q with
  | nil =>
    cases h
    rw [hp]
    exact Ledger.nil
  | append_singleton before turn ih =>
    obtain ⟨r, hbefore, hlast⟩ := exists_takeTurns_of_append h
    rw [takeTurns_singleton] at hlast
    have hbeforeNodup : (typedNodes before).Nodup := by
      rw [typedNodes_append] at hn
      exact hn.of_append_left
    exact (ih hbefore hbeforeNodup).concat (Move.notes_of_ok hlast) hn

end GraphQLTyping
