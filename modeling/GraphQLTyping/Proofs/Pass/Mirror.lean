import Mathlib.Data.List.Perm.Subperm
import GraphQLTyping.Proofs.Pass.Found
import GraphQLTyping.Proofs.Typing.Unfolding

/-!
# Trees mirror selections

The records below a field are put together when a walk leaves it, from its selections and from what
was noted about them on the way in.  That the two agree, field by field, is told here of the whole
document: the trees of its operations are its selections again (`Document.trees_mirror_selections`).

* `Typing.shown`: a field with a record and without a scalar or an enum above it.  Fields below a
  scalar have records but are in no tree, as nothing is put below the record of a scalar.
* `Typing.Mirrors`: records are those of some roots, and unfold to those of all nodes that are shown,
  in the order of the text.  It is put together like the text is (`Mirrors.append`, `Mirrors.field`).
* `Selection.exists_mirrors`: **the records of selections mirror them**, by induction over turns.
-/

namespace GraphQLTyping

open Pass

variable {s : Schema} {d : Document} {t : Typing} {n k i : Nat} {id : NodeId} {r : RecordId}
  {enclosing inner : List (Option TypeDef)} {steps more : List Nat} {head : FieldHead}
  {selections : List Selection} {roots roots' : List NodeId}
  {nodes nodes' : List (NodePath × Node)} {records records' all all' : List RecordId}
  {f : TypedField}

/-! ### What is shown -/

/-- Whether a node is a field. -/
def Node.isField : Node → Bool
  | .field .. => true
  | _ => false

theorem TypedField.isLeaf_iff :
    f.isLeaf = true ↔ f.resolution ≠ .object ∧ f.resolution ≠ .unclassified := by
  rw [isLeaf]
  cases f.resolution <;> simp

namespace Typing

/-- Whether a field that resolved to a scalar or an enum stands above a place. -/
def leafAbove (t : Typing) (n : Nat) : NodePath → Bool
  | .within k steps => (List.range steps.length).any fun length =>
    (t.typedAt? ⟨n, .within k (steps.take length)⟩).any (·.isLeaf)
  | .variable .. => false

/-- Whether a node is a field with a record and without a scalar or an enum above. -/
def shown (t : Typing) (n : Nat) (x : NodePath × Node) : Bool :=
  x.2.isField && (t.record? ⟨n, x.1⟩).isSome && !t.leafAbove n x.1

/-- One step down from a place that is no leaf. -/
theorem leafAbove_child (h : t.leafAbove n (.within k steps) = false)
    (hf : ∀ f, t.typedAt? ⟨n, .within k steps⟩ = some f → f.isLeaf = false) (i : Nat) :
    t.leafAbove n (.within k (steps ++ [i])) = false := by
  rw [leafAbove, List.any_eq_false] at h ⊢
  intro length hlength
  rw [List.length_append, List.length_singleton, List.mem_range, Nat.lt_succ_iff] at hlength
  rw [List.take_append_of_le_length hlength]
  rcases Nat.lt_or_eq_of_le hlength with hlt | rfl
  · exact h length (List.mem_range.mpr hlt)
  · rw [List.take_length]
    cases hat : t.typedAt? ⟨n, .within k steps⟩ with
    | none => simp
    | some f => simp [hf f hat]

theorem leafAbove_of_typedAt? (h : t.typedAt? ⟨n, .within k steps⟩ = some f) (hf : f.isLeaf = true) :
    t.leafAbove n (.within k (steps ++ i :: more)) = true := by
  rw [leafAbove, List.any_eq_true]
  refine ⟨steps.length, by simp, ?_⟩
  rw [List.take_left, h]
  exact hf

/-- Records **mirror** nodes below some roots: they are those of the roots, and unfold to those of all
nodes that are shown, in order. -/
structure Mirrors (t : Typing) (n : Nat) (roots : List NodeId) (nodes : List (NodePath × Node))
    (records all : List RecordId) : Prop where
  roots : t.RecordsOf roots records
  unfolds : t.Unfolds records all
  shown : t.RecordsOf ((nodes.filter (t.shown n)).map fun x => ⟨n, x.1⟩) all

theorem RecordsOf.append {a b : List NodeId} (ha : t.RecordsOf a records) (hb : t.RecordsOf b all) :
    t.RecordsOf (a ++ b) (records ++ all) := by
  rw [RecordsOf, List.map_append, List.map_append, ha, hb]

/-- Nodes of which none is shown. -/
theorem mirrors_of_not_shown (h : ∀ x ∈ nodes, t.shown n x = false) : t.Mirrors n [] nodes [] [] := by
  refine ⟨rfl, .nil, ?_⟩
  rw [List.filter_eq_nil_iff.mpr fun x hx => by simp [h x hx]]
  rfl

theorem Mirrors.append (h : t.Mirrors n roots nodes records all)
    (h' : t.Mirrors n roots' nodes' records' all') :
    t.Mirrors n (roots ++ roots') (nodes ++ nodes') (records ++ records') (all ++ all') := by
  refine ⟨h.roots.append h'.roots, h.unfolds.append h'.unfolds, ?_⟩
  rw [List.filter_append, List.map_append]
  exact h.shown.append h'.shown

/-- A field with a record, and what is below it. -/
theorem Mirrors.field {path : NodePath} {node : Node} (hnode : node.isField = true)
    (hr : t.record? ⟨n, path⟩ = some r) (hf : t.field? r = some f)
    (hleaf : t.leafAbove n path = false) (h : t.Mirrors n roots nodes f.children.records all) :
    t.Mirrors n [⟨n, path⟩] ((path, node) :: nodes) [r] (r :: all) := by
  have hshown : t.shown n (path, node) = true := by
    simp [Typing.shown, hnode, hr, hleaf]
  refine ⟨?_, ?_, ?_⟩
  · simp [RecordsOf, hr]
  · simpa using Unfolds.cons hf h.unfolds .nil
  · rw [List.filter_cons_of_pos hshown, List.map_cons, RecordsOf, List.map_cons, List.map_cons,
      h.shown, hr]

end Typing

/-! ### Selections -/

/-- Nothing below a node that is not passed has a record. -/
theorem Document.HasTyping.record?_below_eq_none {node : Node} (h : d.HasTyping s n t)
    (hnode : d.node? (.within k steps) = some node) (hpass : ¬ t.Passes n k steps node)
    (selections : List Selection) :
    ∀ x ∈ Selection.nodesFrom (.within k steps) 0 selections, t.record? ⟨n, x.1⟩ = none := by
  intro x hx
  obtain ⟨j, _, more, _, hpath, _⟩ := (Selection.mem_nodesFrom _ _ _).mp hx
  have hreach : ¬ d.InReach t n ⟨n, x.1⟩ := by
    rw [hpath]
    rintro (_ | ⟨_, habove⟩)
    have hself := habove steps.length (by simp) node (by rw [List.take_left]; exact hnode)
    rw [List.take_left] at hself
    exact hpass hself
  rwa [← h.record?_isSome_iff_inReach, Option.not_isSome_iff_eq_none] at hreach

theorem Document.HasTyping.not_shown_below {node : Node} (h : d.HasTyping s n t)
    (hnode : d.node? (.within k steps) = some node) (hpass : ¬ t.Passes n k steps node)
    (selections : List Selection) :
    ∀ x ∈ Selection.nodesFrom (.within k steps) 0 selections, t.shown n x = false := by
  intro x hx
  simp [Typing.shown, h.record?_below_eq_none hnode hpass selections x hx]

theorem Typing.not_shown_below_leaf (h : t.typedAt? ⟨n, .within k steps⟩ = some f)
    (hf : f.isLeaf = true) (selections : List Selection) :
    ∀ x ∈ Selection.nodesFrom (.within k steps) 0 selections, t.shown n x = false := by
  intro x hx
  obtain ⟨j, _, more, _, hpath, _⟩ := (Selection.mem_nodesFrom _ _ _).mp hx
  simp [Typing.shown, hpath, leafAbove_of_typedAt? h hf]

/-- The records that a list of nodes with records has are what is found for them. -/
theorem Typing.RecordsOf.filterMap_eq {children : List (NodeId × String)}
    (h : t.RecordsOf (children.map (·.1)) records) :
    (children.filterMap fun child => t.record? child.1) = records := by
  rw [RecordsOf, List.map_map] at h
  calc (children.filterMap fun child => t.record? child.1)
      = (children.map fun child => t.record? child.1).filterMap id := by rw [List.filterMap_map]; rfl
    _ = (records.map some).filterMap id := by rw [h]; rfl
    _ = records := by simp

theorem Selection.selectedFieldsFrom_other {x : Selection} {rest : List Selection} {parent : NodeId}
    (h : x.isField = false) :
    selectedFieldsFrom parent i (x :: rest) = selectedFieldsFrom parent (i + 1) rest := by
  cases x with
  | field => cases h
  | spread | inlineFragment => rfl

/-- A field with nothing below its record, as nothing below the field is shown. -/
theorem Selection.exists_mirrors_bare {first : Nat}
    (hrec : t.HasField s first enclosing ⟨n, .within k steps⟩ head.name)
    (ho : ∀ f, s.typedInside? enclosing head.name = some f → f.resolution ≠ .object)
    (hleaf : t.leafAbove n (.within k steps) = false)
    (hbelow : ∀ x ∈ nodesFrom (.within k steps) 0 selections, t.shown n x = false) :
    ∃ records all, t.Mirrors n [⟨n, .within k steps⟩]
      ((.within k steps, .field head selections) :: nodesFrom (.within k steps) 0 selections)
      records all := by
  obtain ⟨f, children, hf, ⟨r, _, hr, hfield⟩, hnone⟩ := hrec
  obtain rfl := hnone (ho f hf)
  exact ⟨[r], [r], Typing.Mirrors.field rfl hr hfield hleaf (Typing.mirrors_of_not_shown hbelow)⟩

/-- A field of object type, below the record of which are those of the fields selected in it. -/
theorem Selection.exists_mirrors_object {first : Nat}
    (hrec : t.HasChildren first ⟨n, .within k steps⟩ selections)
    (hf : t.typedAt? ⟨n, .within k steps⟩ = some f) (ho : f.resolution = .object)
    (hleaf : t.leafAbove n (.within k steps) = false)
    (hbelow : t.Mirrors n ((selectedFields ⟨n, .within k steps⟩ selections).map (·.1))
      (nodesFrom (.within k steps) 0 selections) records all) :
    ∃ records all, t.Mirrors n [⟨n, .within k steps⟩]
      ((.within k steps, .field head selections) :: nodesFrom (.within k steps) 0 selections)
      records all := by
  obtain ⟨f', ⟨r, _, hr, hfield⟩, hchildren⟩ := hrec
  rw [Typing.typedAt?, hr, Option.bind_some, hfield] at hf
  cases hf
  obtain ⟨_, hchildren⟩ := hchildren ho
  have hrecords : f.children.records = records := by
    rw [hchildren, hbelow.roots.filterMap_eq]
    rfl
  rw [← hrecords] at hbelow
  exact ⟨[r], r :: all, Typing.Mirrors.field rfl hr hfield hleaf hbelow⟩

/-- A field that is passed over. -/
theorem Selection.exists_mirrors_passed {first : Nat} (h : d.HasTyping s n t)
    (hin : s.inside? enclosing head.name = none)
    (hrec : t.HasField s first enclosing ⟨n, .within k steps⟩ head.name)
    (hnode : d.node? (.within k steps) = some (.field head selections))
    (hleaf : t.leafAbove n (.within k steps) = false) :
    ∃ records all, t.Mirrors n [⟨n, .within k steps⟩]
      ((.within k steps, .field head selections) :: nodesFrom (.within k steps) 0 selections)
      records all := by
  refine exists_mirrors_bare hrec (fun f hf ho => ?_) hleaf
    (h.not_shown_below hnode (hrec.not_passes hin) selections)
  rw [Schema.inside?_of_object hf ho] at hin
  cases hin

/-- A field that is gone into.  What is below it has to mirror its selections only if it is no leaf. -/
theorem Selection.exists_mirrors_into {first : Nat}
    (hin : s.inside? enclosing head.name = some inner)
    (hrec : t.HasField s first enclosing ⟨n, .within k steps⟩ head.name)
    (hchildren : t.HasChildren first ⟨n, .within k steps⟩ selections)
    (hleaf : t.leafAbove n (.within k steps) = false)
    (hbelow : (∀ j, t.leafAbove n (.within k (steps ++ [j])) = false) →
      ∃ records all, t.Mirrors n ((selectedFields ⟨n, .within k steps⟩ selections).map (·.1))
        (nodesFrom (.within k steps) 0 selections) records all) :
    ∃ records all, t.Mirrors n [⟨n, .within k steps⟩]
      ((.within k steps, .field head selections) :: nodesFrom (.within k steps) 0 selections)
      records all := by
  obtain ⟨f, children, hf, htyped, _⟩ := id hrec
  obtain ⟨f', hf', hr⟩ := Schema.typedInside?_of_inside? hin
  rw [hf] at hf'
  cases hf'
  rcases hr with ⟨ho, _⟩ | ⟨ho, hu, _⟩
  · have hfree : ∀ j, t.leafAbove n (.within k (steps ++ [j])) = false :=
      Typing.leafAbove_child hleaf fun f' hf' => by
        rw [htyped.typedAt?] at hf'
        cases hf'
        simp [TypedField.isLeaf, ho]
    obtain ⟨records, all, hmirrors⟩ := hbelow hfree
    exact exists_mirrors_object hchildren htyped.typedAt? ho hleaf hmirrors
  · refine exists_mirrors_bare hrec (fun f' hf' => ?_) hleaf
      (Typing.not_shown_below_leaf htyped.typedAt? (TypedField.isLeaf_iff.mpr ⟨ho, hu⟩) selections)
    rw [hf] at hf'
    cases hf'
    exact ho

/-- A selection that is no field. -/
theorem Selection.mirrors_other {x : Selection} (h : d.HasTyping s n t) (hother : x.isField = false)
    (hnode : d.node? (.within k steps) = some (.ofSelection x)) :
    t.Mirrors n [] ((.within k steps, .ofSelection x) ::
      nodesFrom (.within k steps) 0 (Node.ofSelection x).selections) [] [] := by
  refine Typing.mirrors_of_not_shown (List.forall_mem_cons.mpr ⟨?_, ?_⟩)
  · cases x with
    | field => cases hother
    | spread | inlineFragment => rfl
  · cases x with
    | field => cases hother
    | spread =>
      intro y hy
      simp [Node.ofSelection, Node.selections, Node.selections?, nodesFrom_nil] at hy
    | inlineFragment => exact h.not_shown_below hnode (fun hpass => by cases hpass.1) _

/-- Selections **stand** below a place of a document, numbered from the given one on. -/
def Document.Stand (d : Document) (k : Nat) (steps : List Nat) (i : Nat)
    (selections : List Selection) : Prop :=
  ∀ j x, selections[j]? = some x → d.node? (.within k (steps ++ [i + j])) = some (.ofSelection x)

namespace Document

theorem stand_below {node : Node} (h : d.node? (.within k steps) = some node) :
    d.Stand k steps 0 node.selections := by
  intro j x hx
  rw [Nat.zero_add]
  exact node?_child h hx

theorem Stand.first {x : Selection} {rest : List Selection} (h : d.Stand k steps i (x :: rest)) :
    d.node? (.within k (steps ++ [i])) = some (.ofSelection x) :=
  h 0 x rfl

theorem Stand.rest {x : Selection} {rest : List Selection} (h : d.Stand k steps i (x :: rest)) :
    d.Stand k steps (i + 1) rest := by
  intro j y hy
  rw [Nat.add_assoc, Nat.add_comm 1]
  exact h (j + 1) y hy

end Document

/-- **The records of selections mirror them**, at a place that no scalar or enum is above. -/
theorem Selection.exists_mirrors {first : Nat} (h : d.HasTyping s n t) (selections : List Selection)
    (enclosing : List (Option TypeDef)) (steps : List Nat) (i : Nat) :
    (∀ turn ∈ turnsFrom s enclosing ⟨n, .within k steps⟩ i selections, turn.Recorded s first t) →
    d.Stand k steps i selections →
    (∀ j, t.leafAbove n (.within k (steps ++ [j])) = false) →
    ∃ records all, t.Mirrors n ((selectedFieldsFrom ⟨n, .within k steps⟩ i selections).map (·.1))
      (nodesFrom (.within k steps) i selections) records all := by
  induction selections, enclosing, steps, i using turns_induct s with
  | nil =>
    intro _ _ _
    rw [nodesFrom_nil]
    exact ⟨[], [], rfl, .nil, rfl⟩
  | passed head selections rest enclosing steps i hin ih =>
    intro hrec hstand hleaf
    rw [turnsFrom_over hin] at hrec
    obtain ⟨hfield, hrec⟩ := List.forall_mem_cons.mp hrec
    obtain ⟨_, _, hown⟩ := exists_mirrors_passed h hin hfield hstand.first (hleaf i)
    obtain ⟨_, _, hrest⟩ := ih hrec hstand.rest hleaf
    rw [nodesFrom_cons]
    exact ⟨_, _, hown.append hrest⟩
  | into head selections rest enclosing inner steps i hin ihin ih =>
    intro hrec hstand hleaf
    rw [turnsFrom_into hin] at hrec
    obtain ⟨hrec, hlater⟩ := List.forall_mem_append.mp hrec
    obtain ⟨hfield, hrec⟩ := List.forall_mem_cons.mp hrec
    obtain ⟨hinside, hchildren⟩ := List.forall_mem_append.mp hrec
    obtain ⟨_, _, hown⟩ := exists_mirrors_into hin hfield (hchildren _ List.mem_cons_self)
      (hleaf i) (ihin hinside (Document.stand_below hstand.first))
    obtain ⟨_, _, hrest⟩ := ih hlater hstand.rest hleaf
    rw [nodesFrom_cons]
    exact ⟨_, _, hown.append hrest⟩
  | other selection rest enclosing steps i hother ih =>
    intro hrec hstand hleaf
    rw [turnsFrom_other hother] at hrec
    obtain ⟨_, _, hrest⟩ := ih hrec hstand.rest hleaf
    rw [nodesFrom_cons, selectedFieldsFrom_other hother]
    exact ⟨_, _, (mirrors_other h hother hstand.first).append hrest⟩

/-! ### Documents -/

/-- The records of operations, one after the other, mirror the nodes of all of them. -/
theorem Typing.exists_mirrors_flatMap {ops : List (NodeId × Operation)}
    {answer : NodeId × Operation → Except LookupError (List RecordId)}
    {roots : NodeId × Operation → List NodeId}
    {nodes : NodeId × Operation → List (NodePath × Node)}
    (h : ∀ x ∈ ops, ∃ records all, answer x = .ok records ∧
      t.Mirrors n (roots x) (nodes x) records all) :
    ∃ lists all, ops.mapM answer = .ok lists ∧
      t.Mirrors n (ops.flatMap roots) (ops.flatMap nodes) lists.flatten all := by
  induction ops with
  | nil => exact ⟨[], [], rfl, rfl, .nil, rfl⟩
  | cons x rest ih =>
    obtain ⟨records, all, hanswer, hfirst⟩ := h x List.mem_cons_self
    obtain ⟨lists, more, hlists, hrest⟩ := ih fun y hy => h y (List.mem_cons_of_mem _ hy)
    refine ⟨records :: lists, all ++ more, ?_, hfirst.append hrest⟩
    rw [List.mapM_cons, hanswer, hlists]
    rfl

namespace Document

/-- The nodes that an operation of a document lists. -/
def nodesOf (x : NodeId × Operation) : List (NodePath × Node) :=
  (Definition.operation x.2).nodes x.1.path.definition

namespace HasTyping

variable {x : NodeId × Operation}

/-- The records of an operation mirror its nodes. -/
theorem exists_mirrors (h : d.HasTyping s n t) (hx : x ∈ d.operationNodes n) :
    ∃ records all, t.fieldsOf x.1 (.operation x.2) = .ok records ∧
      t.Mirrors n (rootFields x) (nodesOf x) records all := by
  obtain ⟨k, hget, hid⟩ := mem_operationNodes.mp hx
  obtain ⟨id, o⟩ := x
  cases hid
  obtain ⟨root, hroot⟩ := h.exists_root hget
  have hrec : ∀ turn ∈ Selection.turnsFrom s [some root] ⟨n, .within k []⟩ 0 o.selections,
      turn.Recorded s 0 t := fun turn hturn =>
    h.recorded turn (mem_turns_of_operation hget (Operation.mem_turns_of_selections hroot hturn))
  have hself : d.node? (.within k []) = some (.operation o) := node?_within hget
  have hleaf : ∀ j, t.leafAbove n (.within k ([] ++ [j])) = false := by
    refine Typing.leafAbove_child rfl fun f hf => ?_
    rw [h.typedAt?_eq_none d.definition_not_typed] at hf
    cases hf
  obtain ⟨records, all, hmirrors⟩ :=
    Selection.exists_mirrors h o.selections [some root] [] 0 hrec (stand_below hself) hleaf
  obtain ⟨found, hfound, hroots⟩ := h.exists_fieldsOf hx
  have heq : found = records :=
    List.map_injective_iff.mpr (fun _ _ => Option.some.inj) (hroots.trans hmirrors.roots.symm)
  subst heq
  refine ⟨found, all, hfound, hroots, hmirrors.unfolds, ?_⟩
  -- neither the operation nor one of its variables is a field
  have hvariables : (o.variableDefs.mapIdx fun i v =>
      (NodePath.variable k i, Node.variable v)).filter (t.shown n) = [] := by
    refine List.filter_eq_nil_iff.mpr fun y hy => ?_
    obtain ⟨i, hi, rfl⟩ := List.mem_mapIdx.mp hy
    simp [Typing.shown, Node.isField]
  have hshown : t.shown n (.within k [], .operation o) = false := rfl
  rw [nodesOf, NodePath.definition, Definition.nodes, List.filter_append,
    List.filter_cons_of_neg (by simp [hshown]), hvariables]
  exact hmirrors.shown

/-- All nodes that are shown are nodes of operations. -/
theorem filter_nodes (h : d.HasTyping s n t) :
    d.nodes.filter (t.shown n) = ((d.operationNodes n).flatMap nodesOf).filter (t.shown n) := by
  rw [nodes_eq, operationNodes, List.filterMap_eq_flatMap_toList, List.flatMap_assoc,
    List.filter_flatMap, List.filter_flatMap]
  refine List.flatMap_congr fun x hx => ?_
  obtain ⟨definition, k⟩ := x
  have hget := List.mem_zipIdx_iff_getElem?.mp hx
  cases definition with
  | operation o => simp [nodesOf, NodePath.definition]
  | typeSystem => rfl
  | fragment f =>
    have hnode : d.node? (.within k []) = some (.fragment f) := node?_within hget
    refine List.filter_eq_nil_iff.mpr fun y hy => ?_
    rw [Definition.nodes] at hy
    rcases List.mem_cons.mp hy with rfl | hy
    · simp [Typing.shown, Node.isField]
    · have hshown := h.not_shown_below hnode (fun hpass => by cases hpass.1) f.selections y hy
      simp [hshown]

end HasTyping

end Document

/-! ### What is below a field -/

/-- A field that is entered and has an inside is left. -/
theorem Selection.leave_mem_turnsFrom {below : List Selection} {around : List (Option TypeDef)}
    (hin : s.inside? around head.name = some inner) (selections : List Selection)
    (enclosing : List (Option TypeDef)) (steps : List Nat) (i : Nat) :
    ⟨.enterField id head below, around⟩ ∈
        turnsFrom s enclosing ⟨n, .within k steps⟩ i selections →
      ⟨.leaveField id head below, inner⟩ ∈
        turnsFrom s enclosing ⟨n, .within k steps⟩ i selections := by
  induction selections, enclosing, steps, i using turns_induct s with
  | nil =>
    intro hturn
    rw [turnsFrom_nil] at hturn
    cases hturn
  | passed head' selections rest enclosing steps i h ih =>
    intro hturn
    rw [turnsFrom_over h] at hturn ⊢
    rcases List.mem_cons.mp hturn with heq | hturn
    · cases heq
      rw [h] at hin
      cases hin
    · exact List.mem_cons_of_mem _ (ih hturn)
  | into head' selections rest enclosing inner' steps i h ihin ih =>
    intro hturn
    rw [turnsFrom_into h] at hturn ⊢
    rw [List.mem_append, List.mem_cons, List.mem_append, List.mem_singleton] at hturn
    rcases hturn with (heq | hturn | heq) | hturn
    · cases heq
      rw [h] at hin
      cases hin
      simp
    · simp [ihin hturn]
    · cases heq
    · exact List.mem_append_right _ (ih hturn)
  | other selection rest enclosing steps i h ih =>
    rw [turnsFrom_other h]
    exact ih

/-- The fields selected below a node are its selections that are fields, in order. -/
theorem Selection.selectedFieldsFrom_eq (parent : NodeId) (selections : List Selection) (i : Nat) :
    (selectedFieldsFrom parent i selections).map (·.1) =
      ((selections.zipIdx i).filter (·.1.isField)).map fun x => parent.child x.2 := by
  induction selections generalizing i with
  | nil => rfl
  | cons x rest ih =>
    cases x with
    | field head selections =>
      rw [selectedFieldsFrom, List.map_cons, ih (i + 1), List.zipIdx_cons,
        List.filter_cons_of_pos rfl, List.map_cons]
    | spread | inlineFragment =>
      rw [selectedFieldsFrom_other rfl, ih (i + 1), List.zipIdx_cons,
        List.filter_cons_of_neg (by simp [isField])]

/-- The records found for nodes that all have one are theirs. -/
theorem Typing.recordsOf_filterMap {children : List (NodeId × String)}
    (h : ∀ child ∈ children, (t.record? child.1).isSome) :
    t.RecordsOf (children.map (·.1)) (children.filterMap fun child => t.record? child.1) := by
  induction children with
  | nil => rfl
  | cons child rest ih =>
    obtain ⟨r, hr⟩ := Option.isSome_iff_exists.mp (h child List.mem_cons_self)
    have hrest := ih fun other ho => h other (List.mem_cons_of_mem _ ho)
    rw [RecordsOf] at hrest
    rw [RecordsOf, List.filterMap_cons, hr, List.map_cons, hrest, List.map_cons, List.map_cons, hr]

namespace Document

/-- What is below the record of a field: the records of the fields selected in it if it is of object
type, and nothing if not. -/
theorem HasTyping.children_eq (h : d.HasTyping s n t)
    (hnode : d.node? (.within k steps) = some (.field head selections))
    (hr : t.record? ⟨n, .within k steps⟩ = some r) (hf : t.field? r = some f) :
    (f.resolution = .object → ∃ below, f.children = .selected below ∧
      t.RecordsOf ((selectedFields ⟨n, .within k steps⟩ selections).map (·.1)) below) ∧
    (f.resolution ≠ .object → f.children = .none) := by
  obtain ⟨enclosing, hturn⟩ := h.exists_turn hnode (by rw [hr]; rfl)
  have hat : t.typedAt? ⟨n, .within k steps⟩ = some f := by
    rw [Typing.typedAt?, hr, Option.bind_some, hf]
  obtain ⟨f₀, children, hf₀, htyped, hnone⟩ := h.recorded _ hturn
  rw [htyped.typedAt?] at hat
  cases hat
  refine ⟨fun ho => ?_, hnone⟩
  obtain ⟨o, root, hget, hroot, hsel, hup⟩ := turn_of_typed hturn rfl
  obtain ⟨f', ⟨r', _, hr', hf'⟩, hchildren⟩ := h.recorded _
    (hup _ (Selection.leave_mem_turnsFrom (Schema.inside?_of_object hf₀ ho) _ _ _ _ hsel))
  rw [hr] at hr'
  cases hr'
  rw [hf] at hf'
  cases hf'
  obtain ⟨hsome, heq⟩ := hchildren ho
  exact ⟨_, heq, Typing.recordsOf_filterMap hsome⟩

/-! ### Whole documents -/

namespace HasTyping

/-- The records of all operations mirror all nodes of the document. -/
theorem exists_mirrors_nodes (h : d.HasTyping s n t) :
    ∃ lists all, (d.operationNodes n).mapM (fun x => t.fieldsOf x.1 (.operation x.2)) = .ok lists ∧
      t.Mirrors n ((d.operationNodes n).flatMap rootFields) d.nodes lists.flatten all := by
  obtain ⟨lists, all, hlists, hmirrors⟩ :=
    Typing.exists_mirrors_flatMap fun x hx => h.exists_mirrors (x := x) hx
  refine ⟨lists, all, hlists, hmirrors.roots, hmirrors.unfolds, ?_⟩
  rw [h.filter_nodes]
  exact hmirrors.shown

theorem mem_iff_of_mirrors (h : d.HasTyping s n t) (hm : t.Mirrors n roots d.nodes records all)
    {path : NodePath} (hnode : d.node? path = some (.field head selections))
    (hr : t.record? ⟨n, path⟩ = some r) : r ∈ all ↔ t.leafAbove n path = false := by
  have hmem : r ∈ all ↔ ∃ x ∈ d.nodes, t.shown n x = true ∧ t.record? ⟨n, x.1⟩ = some r := by
    rw [← List.mem_map_of_injective (fun _ _ => Option.some.inj), hm.shown, List.map_map,
      List.mem_map]
    simp only [List.mem_filter, and_assoc, Function.comp_apply]
  rw [hmem]
  constructor
  · rintro ⟨x, _, hshown, hx⟩
    have heq := h.eq_of_record? hx hr
    cases heq
    simp only [Typing.shown, Bool.and_eq_true, Bool.not_eq_true'] at hshown
    exact hshown.2
  · intro hleaf
    refine ⟨_, field_mem_nodes.mpr hnode, ?_, hr⟩
    simp [Typing.shown, Node.isField, hr, hleaf]

/-- Records that mirror a document are all different. -/
theorem nodup_of_mirrors (h : d.HasTyping s n t) (hm : t.Mirrors n roots d.nodes records all) :
    all.Nodup := by
  have hids : ((d.nodes.filter (t.shown n)).map fun x => (⟨n, x.1⟩ : NodeId)).Nodup := by
    have hpaths := (List.filter_sublist (p := t.shown n)).map (·.1) |>.nodup d.nodup_nodes
    have hids := hpaths.map (f := fun path => (⟨n, path⟩ : NodeId)) fun _ _ heq => by
      cases heq
      rfl
    rwa [List.map_map] at hids
  refine List.Nodup.of_map some ?_
  rw [hm.shown]
  refine List.Nodup.map_on ?_ hids
  intro id hid id' _ heq
  obtain ⟨x, hx, rfl⟩ := List.mem_map.mp hid
  have hshown := (List.mem_filter.mp hx).2
  simp only [Typing.shown, Bool.and_eq_true] at hshown
  obtain ⟨r, hr⟩ := Option.isSome_iff_exists.mp hshown.1.2
  exact h.eq_of_record? hr (heq ▸ hr)

theorem length_le_of_mirrors (h : d.HasTyping s n t) (hm : t.Mirrors n roots d.nodes records all) :
    all.length ≤ t.records.size := by
  have hsub : all ⊆ List.range t.records.size := by
    intro r hr
    obtain ⟨f, hf⟩ := hm.unfolds.exists_field? hr
    exact List.mem_range.mpr (Typing.lt_size_of_field? hf)
  simpa using ((h.nodup_of_mirrors hm).subperm hsub).length_le

end HasTyping

/-- **The trees of a typing mirror the selections.**  Below a field of object type are the records of
the fields selected in it, in order, and below any other field there is nothing; the root fields of an
operation are those of the fields that it selects.  So the trees of all operations flattened have
every field that was typed once, in the order of the text, but those below a scalar or an enum. -/
theorem trees_mirror_selections (s : Schema) (d : Document) (t : Typing)
    (h : (d.typing s).1 = .ok t) :
    (∀ k steps head selections r f, d.node? (.within k steps) = some (.field head selections) →
      t.record? ⟨0, .within k steps⟩ = some r → t.field? r = some f →
      (f.resolution = .object → ∃ below, f.children = .selected below ∧
        below.map some = (selections.zipIdx.filter (·.1.isField)).map fun x =>
          t.record? ⟨0, .within k (steps ++ [x.2])⟩) ∧
      (f.resolution ≠ .object → f.children = .none)) ∧
    (∀ k o, d.definitions[k]? = some (.operation o) →
      ∃ roots, t.fieldsOf ⟨0, .within k []⟩ (.operation o) = .ok roots ∧
        roots.map some = (o.selections.zipIdx.filter (·.1.isField)).map fun x =>
          t.record? ⟨0, .within k [x.2]⟩) ∧
    ∃ lists flat,
      (d.operationNodes 0).mapM (fun x => t.fieldsOf x.1 (.operation x.2)) = .ok lists ∧
      t.Unfolds lists.flatten flat ∧
      FieldTree.allFields (t.trees lists.flatten) = flat.filterMap t.field? ∧
      flat.Nodup ∧
      flat.map some = (d.nodes.filter (t.shown 0)).map (fun x => t.record? ⟨0, x.1⟩) ∧
      ∀ path head selections r, d.node? path = some (.field head selections) →
        t.record? ⟨0, path⟩ = some r → (r ∈ flat ↔ t.leafAbove 0 path = false) := by
  have ht : d.HasTyping s 0 t := hasTyping_of_typing h
  refine ⟨?_, ?_, ?_⟩
  · intro k steps head selections r f hnode hr hf
    obtain ⟨hobject, hother⟩ := ht.children_eq hnode hr hf
    refine ⟨fun ho => ?_, hother⟩
    obtain ⟨below, hchildren, hbelow⟩ := hobject ho
    refine ⟨below, hchildren, ?_⟩
    rw [hbelow, selectedFields, Selection.selectedFieldsFrom_eq, List.map_map]
    rfl
  · intro k o hget
    have hx : (⟨0, .within k []⟩, o) ∈ d.operationNodes 0 :=
      mem_operationNodes.mpr ⟨k, hget, rfl⟩
    obtain ⟨roots, hroots, hrecords⟩ := ht.exists_fieldsOf hx
    refine ⟨roots, hroots, ?_⟩
    rw [hrecords, rootFields, selectedFields, Selection.selectedFieldsFrom_eq, List.map_map]
    rfl
  · obtain ⟨lists, flat, hlists, hmirrors⟩ := ht.exists_mirrors_nodes
    refine ⟨lists, flat, hlists, hmirrors.unfolds,
      Typing.allFields_trees hmirrors.unfolds (ht.length_le_of_mirrors hmirrors),
      ht.nodup_of_mirrors hmirrors, ?_, ?_⟩
    · rw [hmirrors.shown, List.map_map]
      rfl
    · intro path head selections r hnode hr
      exact ht.mem_iff_of_mirrors hmirrors hnode hr

/-- A field below a scalar that has selections has a record, which is in none of the trees. -/
theorem trees_mirror_selections_below_scalar :
    ∃ t, ((Sample.document "name" "friend").typing Sample.schema).1 = .ok t ∧
      t.record? ⟨0, .within 0 [0, 0, 0]⟩ = some 3 ∧
      t.Unfolds [1] [1, 2] ∧ (FieldTree.allFields (t.trees [1])).map (·.name) = ["me", "name"] := by
  obtain ⟨t, ht, hr, hroots, hshown, hnames⟩ : ∃ t,
      ((Sample.document "name" "friend").typing Sample.schema).1 = .ok t ∧
      t.record? ⟨0, .within 0 [0, 0, 0]⟩ = some 3 ∧
      ((Sample.document "name" "friend").operationNodes 0).mapM
        (fun x => t.fieldsOf x.1 (.operation x.2)) = .ok [[1]] ∧
      ((Sample.document "name" "friend").nodes.filter (t.shown 0)).map
        (fun x => t.record? ⟨0, x.1⟩) = [1, 2].map some ∧
      ([1, 2].filterMap t.field?).map (·.name) = ["me", "name"] := ⟨_, rfl, rfl, rfl, rfl, rfl⟩
  obtain ⟨_, _, lists, flat, hlists, hunfolds, htrees, _, hflat, _⟩ :=
    trees_mirror_selections Sample.schema (Sample.document "name" "friend") t ht
  rw [hroots] at hlists
  cases hlists
  obtain rfl : flat = [1, 2] :=
    List.map_injective_iff.mpr (fun _ _ => Option.some.inj) (hflat.trans hshown)
  refine ⟨t, ht, hr, hunfolds, ?_⟩
  rw [← hnames]
  exact congrArg _ htrees

end Document

end GraphQLTyping
