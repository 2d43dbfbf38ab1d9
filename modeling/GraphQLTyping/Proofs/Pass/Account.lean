import GraphQLTyping.Proofs.Pass.Independence
import GraphQLTyping.Proofs.Pass.Log

/-!
# The log is an account of the document

When a document has been typed, its log says of each node in the order of the text what became of it
on entering: the root type of an operation, the type of a field of object type, and which fields and
variables have no resolution (`Document.log_account`).  All else in it are the pops, which answer the
pushes, and the events of the lists of input fields.

* `Turn.entries`: what a turn reports on entering its node, told from the schema.
* `Typing.entriesAt`: the same of a node of the document, told from its typed field.
* `Pass.entries_of_takeTurns`: a run reports what its turns do, one after the other.
* `Selection.entries_turnsFrom`: **what turns report is what is told of the nodes**, by induction over
  turns.  What encloses a turn is what stands above its node.
-/

namespace GraphQLTyping

open Pass

variable {s : Schema} {d : Document} {t : Typing} {p q : Pass} {n k i : Nat} {id : NodeId}
  {f : TypedField} {m : Move} {turns : List Turn} {enclosing inner : List (Option TypeDef)}
  {steps : List Nat} {head : FieldHead} {selections : List Selection} {root : TypeDef}
  {x : NodePath × Node}

/-! ### What is reported on entering -/

/-- Whether an event is reported of a node on entering it. -/
def Event.isEntry : Event → Bool
  | .popped .. | .input _ => false
  | _ => true

/-- What is reported of an operation, if with its root type so many types enclose its inside. -/
def Operation.entries (s : Schema) (depth : Nat) (o : Operation) : List Event :=
  (s.root? o.kind).toList.flatMap fun root =>
    [.started o.kind root.name, .pushed root.name depth]

namespace TypedField

/-- What is reported of a variable: that it has no resolution. -/
def variableEntries (f : TypedField) : List Event :=
  if f.resolution = .unclassified then [.unclassifiedVariable f.name f.type.name] else []

/-- What is reported of a field: its object type, with which so many types enclose its inside, or that
it has no resolution. -/
def fieldEntries (depth : Nat) (f : TypedField) : List Event :=
  match f.resolution with
  | .object => [.pushed f.type.name depth]
  | .unclassified => [.unclassifiedField ((f.parent.map (·.name)).getD "") f.name f.type.name]
  | _ => []

end TypedField

/-- The typed field of a variable definition, with nothing below it yet. -/
def Schema.typedVariable? (s : Schema) (v : VariableDef) : Option TypedField :=
  v.type.simpleShape.toOption.bind fun shape =>
    (s.type? shape.name).map (TypedField.ofVariable v.name shape)

/-- What a turn **reports** on entering its node. -/
def Turn.entries (s : Schema) (turn : Turn) : List Event :=
  match turn.move with
  | .enterOperation _ o => o.entries s (turn.enclosing.length + 1)
  | .enterVariable _ v => (s.typedVariable? v).toList.flatMap (·.variableEntries)
  | .enterField _ head _ =>
    (s.typedInside? turn.enclosing head.name).toList.flatMap
      (·.fieldEntries (turn.enclosing.length + 1))
  | .leaveOperation .. | .leaveField .. => []

namespace Typing

/-- How many types enclose the inside of a field of object type: its own, those of the fields above
it, and the root type. -/
def depthAt (t : Typing) (n : Nat) : NodePath → Nat
  | .within k steps => (t.objectsAbove n k steps).length + 2
  | .variable .. => 1

/-- What is **reported of a node** on entering it. -/
def entriesAt (s : Schema) (t : Typing) (n : Nat) (x : NodePath × Node) : List Event :=
  match x.2 with
  | .operation o => o.entries s 1
  | .variable _ => (t.typedAt? ⟨n, x.1⟩).toList.flatMap (·.variableEntries)
  | .field .. => (t.typedAt? ⟨n, x.1⟩).toList.flatMap (·.fieldEntries (t.depthAt n x.1))
  | _ => []

end Typing

/-! ### What a run reports -/

namespace TypedField

theorem variableEntries_of_ne (h : f.resolution ≠ .unclassified) : f.variableEntries = [] := if_neg h

theorem fieldEntries_of_object (h : f.resolution = .object) (depth : Nat) :
    f.fieldEntries depth = [.pushed f.type.name depth] := by
  rw [fieldEntries, h]

theorem fieldEntries_of_leaf (ho : f.resolution ≠ .object) (hu : f.resolution ≠ .unclassified)
    (depth : Nat) : f.fieldEntries depth = [] := by
  rw [fieldEntries]
  cases hr : f.resolution with
  | object => exact absurd hr ho
  | unclassified => exact absurd hr hu
  | scalar | enum => rfl

end TypedField

/-- A field without a resolution is reported with the type that encloses it. -/
theorem Schema.fieldEntries_of_unclassified {type : TypeDef} {outer : List (Option TypeDef)}
    {name : String} (hf : s.typedInside? (some type :: outer) name = some f)
    (hu : f.resolution = .unclassified) (depth : Nat) :
    f.fieldEntries depth = [.unclassifiedField type.name name f.type.name] := by
  obtain ⟨_, _, rfl⟩ := Option.map_eq_some_iff.mp hf
  rw [TypedField.fieldEntries, hu]
  rfl

namespace Turn

theorem entries_operation {o : Operation} (h : s.root? o.kind = some root) :
    entries s ⟨.enterOperation id o, enclosing⟩ =
      [.started o.kind root.name, .pushed root.name (enclosing.length + 1)] := by
  simp only [entries, Operation.entries, h, Option.toList_some, List.flatMap_singleton]

theorem entries_variable {v : VariableDef} {shape : Shape} {bare : TypeDef}
    (hs : v.type.simpleShape = .ok shape) (hb : s.type? shape.name = some bare) :
    entries s ⟨.enterVariable id v, enclosing⟩ =
      (TypedField.ofVariable v.name shape bare).variableEntries := by
  have htyped : s.typedVariable? v = some (TypedField.ofVariable v.name shape bare) := by
    rw [Schema.typedVariable?, hs]
    exact Option.map_eq_some_iff.mpr ⟨bare, hb, rfl⟩
  simp only [entries, htyped, Option.toList_some, List.flatMap_singleton]

theorem entries_field (h : s.typedInside? enclosing head.name = some f) :
    entries s ⟨.enterField id head selections, enclosing⟩ =
      f.fieldEntries (enclosing.length + 1) := by
  simp only [entries, h, Option.toList_some, List.flatMap_singleton]

end Turn

/-- **What a move reports** when it succeeds. -/
theorem Move.Does.exists_entries (h : m.Does s p none q) :
    ∃ more, q.log = p.log ++ more ∧ more.filter (·.isEntry) = Turn.entries s ⟨m, p.enclosing⟩ := by
  cases h with
  | operationEntered _ hroot =>
    exact ⟨_, List.append_assoc _ _ _, (Turn.entries_operation hroot).symm⟩
  | operationLeft | fieldLeft => exact ⟨_, rfl, rfl⟩
  | leafLeft => exact ⟨[], (List.append_nil _).symm, rfl⟩
  | variableShared _ hs hb ho =>
    refine ⟨_, rfl, ?_⟩
    rw [Turn.entries_variable hs hb, TypedField.variableEntries_of_ne]
    · simp [Event.isEntry]
    · exact fun hu => by cases ho.symm.trans hu
  | variableUnclassified _ hs hb hu =>
    refine ⟨_, rfl, ?_⟩
    rw [Turn.entries_variable hs hb]
    exact (if_pos hu).symm
  | variableLeaf _ hs hb _ hu =>
    refine ⟨[], (List.append_nil _).symm, ?_⟩
    rw [Turn.entries_variable hs hb, TypedField.variableEntries_of_ne hu]
    rfl
  | fieldEntered _ _ hf ho =>
    refine ⟨_, rfl, ?_⟩
    rw [Turn.entries_field hf, TypedField.fieldEntries_of_object ho]
    rfl
  | fieldLeaf _ _ hf ho hu =>
    refine ⟨[], (List.append_nil _).symm, ?_⟩
    rw [Turn.entries_field hf, TypedField.fieldEntries_of_leaf ho hu]
    rfl
  | fieldOver _ _ hp hf hu =>
    refine ⟨_, rfl, ?_⟩
    rw [Turn.entries_field hf]
    rw [hp] at hf
    rw [Schema.fieldEntries_of_unclassified hf hu]
    rfl

/-- **What a run reports** is what its turns do. -/
theorem Pass.entries_of_takeTurns (hin : InStep s p turns) (h : takeTurns s turns p = .ok ⟨⟩ q) :
    q.log.filter (·.isEntry) = p.log.filter (·.isEntry) ++ turns.flatMap (·.entries s) := by
  induction turns generalizing p with
  | nil =>
    cases h
    exact (List.append_nil _).symm
  | cons turn rest ih =>
    obtain ⟨hp, hin⟩ := hin
    cases hstep : turn.move.step s p with
    | error e r =>
      rw [takeTurns_cons_of_error hstep] at h
      cases h
    | ok _ r =>
      rw [hstep] at hin
      rw [takeTurns_cons_of_ok hstep] at h
      have hdoes := turn.move.does (s := s) p
      rw [failure?_of_ok hstep, after_of_ok hstep] at hdoes
      obtain ⟨more, hlog, hmore⟩ := hdoes.exists_entries
      rw [hp] at hmore
      rw [ih hin.2 h, hlog, List.filter_append, hmore, List.append_assoc, List.flatMap_cons]

/-! ### What is told of the nodes -/

namespace Typing

theorem entriesAt_eq_nil (h : t.record? ⟨n, x.1⟩ = none) (hx : ∀ o, x.2 ≠ .operation o) :
    t.entriesAt s n x = [] := by
  have hnone : t.typedAt? ⟨n, x.1⟩ = none := by
    rw [typedAt?, h]
    rfl
  rw [entriesAt, hnone]
  cases hnode : x.2 with
  | operation o => exact absurd hnode (hx o)
  | «variable» | field | fragment | spread | inlineFragment | typeSystem => rfl

theorem entriesAt_field {path : NodePath} (h : t.typedAt? ⟨n, path⟩ = some f) :
    t.entriesAt s n (path, .field head selections) = f.fieldEntries (t.depthAt n path) := by
  simp only [entriesAt, h, Option.toList_some, List.flatMap_singleton]

theorem entriesAt_variable {path : NodePath} {v : VariableDef}
    (h : t.typedAt? ⟨n, path⟩ = some f) :
    t.entriesAt s n (path, .variable v) = f.variableEntries := by
  simp only [entriesAt, h, Option.toList_some, List.flatMap_singleton]

end Typing

/-- Nothing is reported of what is below a node that is not passed. -/
theorem Document.HasTyping.entries_below_eq_nil {node : Node} (h : d.HasTyping s n t)
    (hnode : d.node? (.within k steps) = some node) (hpass : ¬ t.Passes n k steps node) :
    (Selection.nodesFrom (.within k steps) 0 node.selections).flatMap (t.entriesAt s n) = [] := by
  rw [List.flatMap_eq_nil_iff]
  intro x hx
  refine Typing.entriesAt_eq_nil (h.record?_below_eq_none hnode hpass node.selections x hx) ?_
  rintro o heq
  obtain ⟨_, y, more, _, _, hend⟩ := (Selection.mem_nodesFrom _ _ _).mp hx
  rw [heq] at hend
  exact Node.descendant?_ne_operation y more hend

/-- What the turn of a field reports is told of the field. -/
theorem Typing.HasField.entries {first : Nat}
    (h : t.HasField s first enclosing ⟨n, .within k steps⟩ head.name)
    (he : enclosing = (t.objectsAbove n k steps).map some ++ [some root]) :
    Turn.entries s ⟨.enterField ⟨n, .within k steps⟩ head selections, enclosing⟩ =
      t.entriesAt s n (.within k steps, .field head selections) := by
  obtain ⟨f, children, hf, htyped, _⟩ := h
  have hdepth : enclosing.length + 1 = t.depthAt n (.within k steps) := by
    rw [he, List.length_append, List.length_map]
    rfl
  rw [Turn.entries_field hf, hdepth, Typing.entriesAt_field htyped.typedAt?]
  rfl

theorem Typing.HasVariable.entries {first : Nat} {v : VariableDef}
    (h : t.HasVariable s first ⟨n, .variable k i⟩ v) :
    Turn.entries s ⟨.enterVariable ⟨n, .variable k i⟩ v, enclosing⟩ =
      t.entriesAt s n (.variable k i, .variable v) := by
  obtain ⟨shape, bare, children, hs, hb, htyped, _⟩ := h
  rw [Turn.entries_variable hs hb, Typing.entriesAt_variable htyped.typedAt?]
  rfl

namespace Selection

variable {rest : List Selection}

/-- A field that is gone into reports what is reported inside it, and nothing on leaving it. -/
theorem entries_into (h : s.inside? enclosing head.name = some inner) :
    (turnsFrom s enclosing ⟨n, .within k steps⟩ i (.field head selections :: rest)).flatMap
        (·.entries s) =
      Turn.entries s ⟨.enterField ⟨n, .within k (steps ++ [i])⟩ head selections, enclosing⟩ ++
        ((turnsFrom s inner ⟨n, .within k (steps ++ [i])⟩ 0 selections).flatMap (·.entries s) ++
          (turnsFrom s enclosing ⟨n, .within k steps⟩ (i + 1) rest).flatMap (·.entries s)) := by
  have hleave : Turn.entries s
      ⟨.leaveField ⟨n, .within k (steps ++ [i])⟩ head selections, inner⟩ = [] := rfl
  rw [turnsFrom_into h, List.flatMap_append, List.flatMap_cons, List.flatMap_append,
    List.flatMap_singleton, hleave, List.append_nil, List.append_assoc]

/-- Nothing is reported of a selection that is no field, nor of what is below it. -/
theorem entries_other {y : Selection} (h : d.HasTyping s n t) (hother : y.isField = false)
    (hnode : d.node? (.within k steps) = some (.ofSelection y)) :
    ((NodePath.within k steps, Node.ofSelection y) ::
      nodesFrom (.within k steps) 0 (Node.ofSelection y).selections).flatMap (t.entriesAt s n) =
        [] := by
  cases y with
  | field => cases hother
  | spread =>
    rw [Node.ofSelection, Node.selections, Node.selections?, Option.getD_none, nodesFrom_nil]
    rfl
  | inlineFragment =>
    rw [List.flatMap_cons, h.entries_below_eq_nil hnode fun hpass => by cases hpass.1]
    rfl

/-- **What the turns of selections report** is told of their nodes, one after the other. -/
theorem entries_turnsFrom {first : Nat} (h : d.HasTyping s n t) (selections : List Selection)
    (enclosing : List (Option TypeDef)) (steps : List Nat) (i : Nat) :
    (∀ turn ∈ turnsFrom s enclosing ⟨n, .within k steps⟩ i selections, turn.Recorded s first t) →
    d.Stand k steps i selections →
    (∀ j, enclosing = (t.objectsAbove n k (steps ++ [j])).map some ++ [some root]) →
    (turnsFrom s enclosing ⟨n, .within k steps⟩ i selections).flatMap (·.entries s) =
      (nodesFrom (.within k steps) i selections).flatMap (t.entriesAt s n) := by
  induction selections, enclosing, steps, i using turns_induct s with
  | nil =>
    intro _ _ _
    rw [turnsFrom_nil, nodesFrom_nil]
    rfl
  | passed head selections rest enclosing steps i hin ih =>
    intro hrec hstand he
    rw [turnsFrom_over hin] at hrec ⊢
    obtain ⟨hfield, hrec⟩ := List.forall_mem_cons.mp hrec
    have hbelow := h.entries_below_eq_nil hstand.first (Typing.HasField.not_passes hfield hin)
    rw [nodesFrom_cons, List.flatMap_cons, List.flatMap_cons, List.flatMap_append, hbelow,
      List.nil_append, Typing.HasField.entries hfield (he i), ih hrec hstand.rest he]
    rfl
  | into head selections rest enclosing inner steps i hin ihin ih =>
    intro hrec hstand he
    rw [turnsFrom_into hin] at hrec
    obtain ⟨hrec, hlater⟩ := List.forall_mem_append.mp hrec
    obtain ⟨hfield, hrec⟩ := List.forall_mem_cons.mp hrec
    obtain ⟨hinside, _⟩ := List.forall_mem_append.mp hrec
    rw [entries_into hin, nodesFrom_cons, List.flatMap_cons, List.flatMap_append,
      Typing.HasField.entries hfield (he i), ih hlater hstand.rest he,
      ihin hinside (Document.stand_below hstand.first) (inside_eq_objectsAbove hin hfield (he i))]
    rfl
  | other y rest enclosing steps i hother ih =>
    intro hrec hstand he
    rw [turnsFrom_other hother] at hrec ⊢
    rw [nodesFrom_cons, ← List.cons_append, List.flatMap_append,
      entries_other h hother hstand.first, List.nil_append, ih hrec hstand.rest he]

end Selection

/-- What the turns of variables report is told of their nodes. -/
theorem VariableDef.entries_turnsFrom {first : Nat} (vs : List VariableDef) (i : Nat)
    (hrec : ∀ turn ∈ turnsFrom enclosing ⟨n, .within k []⟩ i vs, turn.Recorded s first t) :
    (turnsFrom enclosing ⟨n, .within k []⟩ i vs).flatMap (·.entries s) =
      ((vs.zipIdx i).map fun x => (NodePath.variable k x.2, Node.variable x.1)).flatMap
        (t.entriesAt s n) := by
  induction vs generalizing i with
  | nil => rfl
  | cons v rest ih =>
    obtain ⟨hown, hrest⟩ := List.forall_mem_cons.mp hrec
    rw [turnsFrom, List.flatMap_cons, ih (i + 1) hrest, List.zipIdx_cons, List.map_cons,
      List.flatMap_cons]
    exact congrArg (· ++ _) (Typing.HasVariable.entries hown)

/-- What the turns of an operation report is told of its nodes. -/
theorem Document.HasTyping.entries_operation {o : Operation} (h : d.HasTyping s n t)
    (hget : d.definitions[k]? = some (.operation o)) :
    (o.turns s [] ⟨n, .within k []⟩).flatMap (·.entries s) =
      ((Definition.operation o).nodes k).flatMap (t.entriesAt s n) := by
  obtain ⟨root, hroot⟩ := h.exists_root hget
  have hrec : ∀ turn ∈ o.turns s [] ⟨n, .within k []⟩, turn.Recorded s 0 t := fun turn hturn =>
    h.recorded turn (mem_turns_of_operation hget hturn)
  rw [Operation.turns_root hroot, Operation.turnsInside] at hrec ⊢
  obtain ⟨_, hrec⟩ := List.forall_mem_cons.mp hrec
  obtain ⟨hrec, _⟩ := List.forall_mem_append.mp hrec
  obtain ⟨hvariables, hselections⟩ := List.forall_mem_append.mp hrec
  have hself : d.node? (.within k []) = some (.operation o) := node?_within hget
  -- above the root fields there is only the operation, which has no record
  have habove : ∀ j, [some root] = (t.objectsAbove n k ([] ++ [j])).map some ++ [some root] := by
    intro j
    rw [Typing.objectsAbove_concat, h.typedAt?_eq_none d.definition_not_typed]
    rfl
  have hbelow := Selection.entries_turnsFrom h o.selections [some root] [] 0 hselections
    (stand_below hself) habove
  have hleave : Turn.entries s ⟨.leaveOperation ⟨n, .within k []⟩ o, [some root]⟩ = [] := rfl
  rw [List.flatMap_cons, List.flatMap_append, List.flatMap_append, List.flatMap_singleton, hleave,
    List.append_nil, VariableDef.entries_turnsFrom o.variableDefs 0 hvariables, hbelow,
    Definition.nodes, List.cons_append, List.flatMap_cons, List.flatMap_append,
    List.mapIdx_eq_zipIdx_map]
  rfl

/-- What the turns of a document report is told of its nodes. -/
theorem Document.HasTyping.entries_turns (h : d.HasTyping s n t) :
    (d.turns s n).flatMap (·.entries s) = d.nodes.flatMap (t.entriesAt s n) := by
  rw [turns_eq, nodes_eq, operationNodes, List.filterMap_eq_flatMap_toList, List.flatMap_assoc,
    List.flatMap_assoc, List.flatMap_assoc]
  refine List.flatMap_congr fun x hx => ?_
  obtain ⟨definition, k⟩ := x
  have hget := List.mem_zipIdx_iff_getElem?.mp hx
  cases definition with
  | operation o =>
    rw [← h.entries_operation hget]
    exact List.append_nil _
  | typeSystem => rfl
  | fragment f =>
    have hnode : d.node? (.within k []) = some (.fragment f) := node?_within hget
    have hbelow := h.entries_below_eq_nil hnode fun hpass => by cases hpass.1
    rw [Definition.nodes, List.flatMap_cons]
    exact hbelow.symm

/-! ### Logs of documents -/

namespace Document

/-- The types of variables are those of the variables that have a record. -/
theorem HasTyping.mem_variableTypes_iff (h : d.HasTyping s n t) {type : TypeDef} :
    type ∈ t.variableTypes ↔
      ∃ k i f, t.typedAt? ⟨n, .variable k i⟩ = some f ∧ f.objectType? = some type := by
  have hrecords : ∀ r, r ∈ t.variableRecords ↔
      ∃ id ∈ typedVariables (d.turns s n), t.record? id = some r := by
    intro r
    rw [← List.mem_map_of_injective fun _ _ => Option.some.inj, h.ledger.variableRecords,
      List.mem_map]
  rw [Typing.variableTypes, List.mem_filterMap]
  constructor
  · rintro ⟨r, hr, hf⟩
    obtain ⟨id, hid, hrecord⟩ := (hrecords r).mp hr
    obtain ⟨f, hfield, htype⟩ := Option.bind_eq_some_iff.mp hf
    have hat : t.typedAt? id = some f := by rw [Typing.typedAt?, hrecord, Option.bind_some, hfield]
    cases h.record?_isSome_iff_inReach.mp (by rw [hrecord]; rfl) with
    | @ofVariable k i => exact ⟨k, i, f, hat, htype⟩
    | ofField hnode =>
      obtain ⟨turn, hturn, hvariable⟩ := List.mem_filterMap.mp hid
      obtain ⟨_, _, hmove, _⟩ :=
        exists_path_of_typed hturn (Move.typed?_of_typedVariable? hvariable)
      rw [hmove] at hvariable
      cases hvariable
  · rintro ⟨k, i, f, hat, htype⟩
    obtain ⟨r, hrecord, hfield⟩ := Option.bind_eq_some_iff.mp hat
    refine ⟨r, (hrecords r).mpr ⟨⟨n, .variable k i⟩, ?_, hrecord⟩, by rw [hfield]; exact htype⟩
    obtain ⟨turn, hturn, hid⟩ :=
      mem_typedNodes.mp (h.record?_isSome_iff.mp (by rw [hrecord]; rfl))
    rcases move_of_typed hturn hid with ⟨v, hmove⟩ | ⟨_, _, _, _, hpath, _⟩
    · exact List.mem_filterMap.mpr ⟨turn, hturn, by rw [hmove]; rfl⟩
    · cases hpath

/-- The log of a document is that of a session which types it with a new pass. -/
theorem typing_eq_after (s : Schema) (d : Document) :
    (d.typing s).2 = (after (typeDocument s 0 d) {}).log ∧
      ∀ t, (d.typing s).1 = .ok t → (after (typeDocument s 0 d) {}).typing = t ∧
        (after (typeDocument s 0 d) {}).enclosing = [] ∧
        takeTurns s (d.turns s 0) { used := true } = .ok ⟨⟩ (after (typeDocument s 0 d) {}) := by
  rw [typing_eq, after, typeDocument_eq]
  cases hq : takeTurns s (d.turns s 0) { used := true } with
  | error e q =>
    refine ⟨rfl, fun t ht => ?_⟩
    cases ht
  | ok _ q =>
    refine ⟨rfl, fun t ht => ?_⟩
    cases ht
    exact ⟨rfl, (d.sound_turns s 0).enclosing q hq, rfl⟩

/-- **The log is a faithful account.**  Up to the end of a pass or its failure, each pop answers the
latest push without an answer and names its type, with each goes the number of pushes that are
unanswered then, and operations are announced.  If a document was typed, all pushes are answered.  All
other events but those of lists are what is told of the nodes, in the order of the text, and those of
lists are told of the types that the types of variables reach, of each type once. -/
theorem log_account (s : Schema) (d : Document) :
    (∃ pending, unanswered? (d.typing s).2 = some pending) ∧ Announced (d.typing s).2 ∧
    ∀ t, (d.typing s).1 = .ok t →
      unanswered? (d.typing s).2 = some [] ∧
      (∀ (k : Nat) (o : Operation), d.definitions[k]? = some (.operation o) →
        ∃ root, s.root? o.kind = some root) ∧
      (d.typing s).2.filter (·.isEntry) = d.nodes.flatMap (t.entriesAt s 0) ∧
      ∃ types : List TypeDef, types.Nodup ∧
        (∀ type, type ∈ types ↔ ∃ k i f root, t.typedAt? ⟨0, .variable k i⟩ = some f ∧
          f.objectType? = some root ∧ s.Reaches root type) ∧
        (inputEvents (d.typing s).2).Perm (types.flatMap (·.listEvents)) := by
  have hsession : Session s (fun _ => d) (after (typeDocument s 0 d) {}) := .typeDocument .new 0
  obtain ⟨hlog, hok⟩ := d.typing_eq_after s
  rw [hlog]
  refine ⟨hsession.nested.exists_unanswered, hsession.announced, fun t ht => ?_⟩
  obtain ⟨htyping, henclosing, hturns⟩ := hok t ht
  have htyped : d.HasTyping s 0 t := hasTyping_of_typing ht
  refine ⟨hsession.nested.unanswered_eq henclosing, fun k o => htyped.exists_root, ?_, ?_⟩
  · rw [entries_of_takeTurns (d.sound_turns s 0).inStep hturns, htyped.entries_turns]
    rfl
  · obtain ⟨types, hnodup, hmem, hperm⟩ := inputs_told hsession
    refine ⟨types, hnodup, fun type => (hmem type).trans ?_, hperm⟩
    rw [htyping]
    simp only [htyped.mem_variableTypes_iff]
    constructor
    · rintro ⟨root, ⟨k, i, f, hat, hroot⟩, hreaches⟩
      exact ⟨k, i, f, root, hat, hroot, hreaches⟩
    · rintro ⟨k, i, f, root, hat, hroot, hreaches⟩
      exact ⟨root, ⟨k, i, f, hat, hroot⟩, hreaches⟩

/-- A variable of a type that leads to another one and back, and a field in a field in a field. -/
theorem log_account_of_filter :
    ∃ t, ((Sample.document "friend" "name").typing Sample.schema).1 = .ok t ∧
      unanswered? ((Sample.document "friend" "name").typing Sample.schema).2 = some [] ∧
      ((Sample.document "friend" "name").typing Sample.schema).2.filter (·.isEntry) =
        [.started .query "Query", .pushed "Query" 1, .pushed "User" 2, .pushed "User" 3] ∧
      ∃ types : List TypeDef, types.Nodup ∧ Sample.range ∈ types ∧
        (inputEvents ((Sample.document "friend" "name").typing Sample.schema).2).Perm
          (types.flatMap (·.listEvents)) := by
  obtain ⟨t, f, ht, hat, htype, hentries⟩ : ∃ t f,
      ((Sample.document "friend" "name").typing Sample.schema).1 = .ok t ∧
      t.typedAt? ⟨0, .variable 0 0⟩ = some f ∧ f.objectType? = some Sample.filter ∧
      (Sample.document "friend" "name").nodes.flatMap (t.entriesAt Sample.schema 0) =
        [.started .query "Query", .pushed "Query" 1, .pushed "User" 2, .pushed "User" 3] :=
    ⟨_, _, rfl, rfl, rfl, rfl⟩
  obtain ⟨_, _, hok⟩ := log_account Sample.schema (Sample.document "friend" "name")
  obtain ⟨hanswered, _, hfilter, types, hnodup, hmem, hperm⟩ := hok t ht
  have href : Sample.schema.Refers Sample.filter Sample.range :=
    ⟨("ranges", .list (.named "Range" true) true), by decide, by decide, rfl, rfl⟩
  exact ⟨t, ht, hanswered, hfilter.trans hentries, types, hnodup,
    (hmem _).mpr ⟨0, 0, f, Sample.filter, hat, htype, .single href⟩, hperm⟩

end Document

end GraphQLTyping
