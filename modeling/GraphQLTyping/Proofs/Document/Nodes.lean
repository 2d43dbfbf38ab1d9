import Mathlib.Data.List.Nodup
import GraphQLTyping.Document.Node

/-!
# The nodes of a document

The nodes that a document lists are those that paths lead to (`Selection.mem_nodesFrom`,
`Document.field_mem_nodes`), each with a path of its own (`Document.nodup_nodes`).

A node is listed before all that is below it, and every selection has selections below it, if need be
none.  So the induction over what is listed (`Selection.nodes_induct`) has one case for a selection
with others after it.
-/

namespace GraphQLTyping

variable {d : Document} {k i j : Nat} {steps more : List Nat} {head : FieldHead}
  {selections below : List Selection} {x : NodePath × Node}

/-! ### Paths down -/

namespace Node

theorem descendant?_append (node : Node) (steps more : List Nat) :
    node.descendant? (steps ++ more) = (node.descendant? steps).bind (·.descendant? more) := by
  induction steps generalizing node with
  | nil => rfl
  | cons i steps ih =>
    rw [List.cons_append, descendant?, descendant?, Option.bind_assoc]
    exact Option.bind_congr fun x _ => ih (ofSelection x)

theorem descendant?_singleton (node : Node) (i : Nat) :
    node.descendant? [i] = node.selections[i]?.map ofSelection := by
  rw [descendant?]
  cases node.selections[i]? <;> rfl

/-- No operation stands at a selection or below it. -/
theorem descendant?_ne_operation {o : Operation} (y : Selection) (steps : List Nat) :
    (ofSelection y).descendant? steps ≠ some (.operation o) := by
  induction steps generalizing y with
  | nil =>
    intro hy
    cases y <;> cases hy
  | cons i steps ih =>
    intro hy
    rw [descendant?] at hy
    obtain ⟨z, _, hz⟩ := Option.bind_eq_some_iff.mp hy
    exact ih z hz

end Node

theorem Document.node?_within {definition : Definition} (h : d.definitions[k]? = some definition) :
    d.node? (.within k steps) = definition.node.descendant? steps := by
  rw [node?, h, Option.bind_some]

/-- The node one step below another one is the selection there. -/
theorem Document.node?_child {node : Node} {y : Selection} (h : d.node? (.within k steps) = some node)
    (hy : node.selections[i]? = some y) :
    d.node? (.within k (steps ++ [i])) = some (.ofSelection y) := by
  obtain ⟨definition, hget, hnode⟩ := Option.bind_eq_some_iff.mp h
  rw [node?_within hget, Node.descendant?_append, hnode, Option.bind_some,
    Node.descendant?_singleton, hy, Option.map_some]

/-! ### Selections -/

namespace Selection

/-- **Induction over the nodes of selections**, at places of one definition. -/
theorem nodes_induct {motive : List Selection → List Nat → Nat → Prop}
    (nil : ∀ steps i, motive [] steps i)
    (cons : ∀ y rest steps i, motive (Node.ofSelection y).selections (steps ++ [i]) 0 →
      motive rest steps (i + 1) → motive (y :: rest) steps i) :
    ∀ (selections : List Selection) (steps : List Nat) (i : Nat), motive selections steps i
  | [], steps, i => nil steps i
  | .field head below :: rest, steps, i =>
    cons (.field head below) rest steps i (nodes_induct nil cons below (steps ++ [i]) 0)
      (nodes_induct nil cons rest steps (i + 1))
  | .spread head :: rest, steps, i =>
    cons (.spread head) rest steps i (nil _ _) (nodes_induct nil cons rest steps (i + 1))
  | .inlineFragment head below :: rest, steps, i =>
    cons (.inlineFragment head below) rest steps i (nodes_induct nil cons below (steps ++ [i]) 0)
      (nodes_induct nil cons rest steps (i + 1))

theorem nodesFrom_nil {path : NodePath} : nodesFrom path i [] = [] := by
  rw [nodesFrom]

theorem nodesFrom_cons (y : Selection) (rest : List Selection) :
    nodesFrom (.within k steps) i (y :: rest) =
      (.within k (steps ++ [i]), .ofSelection y) ::
        (nodesFrom (.within k (steps ++ [i])) 0 (Node.ofSelection y).selections ++
          nodesFrom (.within k steps) (i + 1) rest) := by
  rw [nodesFrom]
  cases y with
  | spread =>
    rw [nodesAt, Node.ofSelection, Node.selections, Node.selections?, Option.getD_none, nodesFrom_nil]
    rfl
  | field | inlineFragment =>
    rw [nodesAt]
    rfl

/-- **What selections list** is what paths through them lead to. -/
theorem mem_nodesFrom (selections : List Selection) (steps : List Nat) (i : Nat) :
    x ∈ nodesFrom (.within k steps) i selections ↔
      ∃ j y more, selections[j]? = some y ∧ x.1 = .within k (steps ++ (i + j) :: more) ∧
        (Node.ofSelection y).descendant? more = some x.2 := by
  induction selections, steps, i using nodes_induct with
  | nil => simp [nodesFrom_nil]
  | cons y rest steps i ihbelow ihrest =>
    rw [nodesFrom_cons, List.mem_cons, List.mem_append, ihbelow, ihrest]
    constructor
    · rintro (rfl | ⟨j, z, more, hz, hpath, hnode⟩ | ⟨j, z, more, hz, hpath, hnode⟩)
      · exact ⟨0, y, [], rfl, rfl, rfl⟩
      · refine ⟨0, y, j :: more, rfl, ?_, ?_⟩
        · rw [hpath]
          simp
        · rw [Node.descendant?, hz]
          exact hnode
      · exact ⟨j + 1, z, more, hz, by rw [hpath, Nat.add_assoc, Nat.add_comm 1], hnode⟩
    · rintro ⟨j, z, more, hz, hpath, hnode⟩
      cases j with
      | zero =>
        cases hz
        cases more with
        | nil => exact Or.inl (Prod.ext hpath (Option.some.inj hnode).symm)
        | cons m more =>
          rw [Node.descendant?] at hnode
          obtain ⟨z, hz, hnode⟩ := Option.bind_eq_some_iff.mp hnode
          exact Or.inr (Or.inl ⟨m, z, more, hz, by rw [hpath]; simp, hnode⟩)
      | succ j =>
        refine Or.inr (Or.inr ⟨j, z, more, hz, ?_, hnode⟩)
        rw [hpath, Nat.add_assoc, Nat.add_comm 1]

theorem nodup_nodesFrom (selections : List Selection) (steps : List Nat) (i : Nat) :
    ((nodesFrom (.within k steps) i selections).map (·.1)).Nodup := by
  induction selections, steps, i using nodes_induct with
  | nil =>
    rw [nodesFrom_nil]
    exact List.nodup_nil
  | cons y rest steps i ihbelow ihrest =>
    rw [nodesFrom_cons, List.map_cons, List.map_append, List.nodup_cons, List.nodup_append']
    refine ⟨?_, ihbelow, ihrest, ?_⟩
    · rw [List.mem_append, not_or, List.mem_map, List.mem_map]
      refine ⟨?_, ?_⟩
      · rintro ⟨z, hz, hpath⟩
        obtain ⟨j, _, more, _, heq, _⟩ := (mem_nodesFrom _ _ _).mp hz
        simp [hpath] at heq
      · rintro ⟨z, hz, hpath⟩
        obtain ⟨j, _, more, _, heq, _⟩ := (mem_nodesFrom _ _ _).mp hz
        simp [hpath] at heq
        omega
    · intro path hbelow hrest
      obtain ⟨z, hz, rfl⟩ := List.mem_map.mp hbelow
      obtain ⟨z', hz', hpath⟩ := List.mem_map.mp hrest
      obtain ⟨j, _, more, _, heq, _⟩ := (mem_nodesFrom _ _ _).mp hz
      obtain ⟨j', _, more', _, heq', _⟩ := (mem_nodesFrom _ _ _).mp hz'
      rw [hpath, heq] at heq'
      simp at heq'
      omega

end Selection

/-! ### Definitions and documents -/

namespace Definition

/-- The fields that a definition lists are those that steps lead to from it. -/
theorem field_mem_nodes {definition : Definition} {path : NodePath} :
    (path, .field head below) ∈ definition.nodes k ↔
      ∃ steps, path = .within k steps ∧
        definition.node.descendant? steps = some (.field head below) := by
  have hsteps : ∀ node : Node, node ≠ .field head below →
      ((path, .field head below) ∈ Selection.nodesFrom (.within k []) 0 node.selections ↔
        ∃ steps, path = .within k steps ∧ node.descendant? steps = some (.field head below)) := by
    intro node hnode
    rw [Selection.mem_nodesFrom]
    constructor
    · rintro ⟨j, y, more, hy, hpath, hend⟩
      refine ⟨j :: more, by simpa using hpath, ?_⟩
      rw [Node.descendant?, hy]
      exact hend
    · rintro ⟨steps, hpath, hend⟩
      cases steps with
      | nil => exact absurd (Option.some.inj hend) hnode
      | cons j more =>
        rw [Node.descendant?] at hend
        obtain ⟨y, hy, hend⟩ := Option.bind_eq_some_iff.mp hend
        exact ⟨j, y, more, hy, by simpa using hpath, hend⟩
  cases definition with
  | operation o =>
    rw [node, ← hsteps (.operation o) (by simp), nodes]
    simp [Node.selections, Node.selections?]
  | fragment f =>
    rw [node, ← hsteps (.fragment f) (by simp), nodes]
    simp [Node.selections, Node.selections?]
  | typeSystem span definition =>
    rw [node, ← hsteps (.typeSystem span definition) (by simp), nodes]
    simp [Node.selections, Node.selections?, Selection.nodesFrom_nil]

theorem path_of_mem_nodes {definition : Definition} (hx : x ∈ definition.nodes k) :
    (∃ steps, x.1 = .within k steps) ∨ ∃ i, x.1 = .variable k i := by
  have hbelow : ∀ selections, x ∈ Selection.nodesFrom (.within k []) 0 selections →
      ∃ steps, x.1 = .within k steps := by
    intro selections hx
    obtain ⟨j, _, more, _, hpath, _⟩ := (Selection.mem_nodesFrom _ _ _).mp hx
    exact ⟨_, hpath⟩
  cases definition with
  | operation o =>
    rw [nodes, List.mem_append, List.mem_cons, List.mem_mapIdx] at hx
    rcases hx with (rfl | ⟨i, hi, rfl⟩) | hx
    · exact Or.inl ⟨[], rfl⟩
    · exact Or.inr ⟨i, rfl⟩
    · exact Or.inl (hbelow _ hx)
  | fragment f =>
    rw [nodes, List.mem_cons] at hx
    rcases hx with rfl | hx
    · exact Or.inl ⟨[], rfl⟩
    · exact Or.inl (hbelow _ hx)
  | typeSystem => cases hx

theorem nodup_nodes (definition : Definition) (k : Nat) :
    ((definition.nodes k).map (·.1)).Nodup := by
  have hbelow : ∀ selections : List Selection,
      .within k [] ∉ (Selection.nodesFrom (.within k []) 0 selections).map (·.1) := by
    intro selections hmem
    obtain ⟨x, hx, hpath⟩ := List.mem_map.mp hmem
    obtain ⟨j, _, more, _, heq, _⟩ := (Selection.mem_nodesFrom _ _ _).mp hx
    simp [hpath] at heq
  cases definition with
  | operation o =>
    have hvariables : (o.variableDefs.mapIdx fun i v => (NodePath.variable k i, Node.variable v)).map
        (·.1) = (List.range o.variableDefs.length).map (NodePath.variable k) := by
      refine List.ext_getElem (by simp) ?_
      simp
    rw [nodes, List.map_append, List.map_cons, hvariables, List.nodup_append', List.nodup_cons]
    refine ⟨⟨by simp, ?_⟩, Selection.nodup_nodesFrom _ _ _, ?_⟩
    · refine List.Nodup.map ?_ List.nodup_range
      intro i j hij
      simpa using hij
    · intro path hpath hsel
      rcases List.mem_cons.mp hpath with rfl | hpath
      · exact hbelow _ hsel
      · obtain ⟨i, _, rfl⟩ := List.mem_map.mp hpath
        obtain ⟨x, hx, hpath⟩ := List.mem_map.mp hsel
        obtain ⟨j, _, more, _, heq, _⟩ := (Selection.mem_nodesFrom _ _ _).mp hx
        simp [hpath] at heq
  | fragment f =>
    rw [nodes, List.map_cons, List.nodup_cons]
    exact ⟨hbelow _, Selection.nodup_nodesFrom _ _ _⟩
  | typeSystem => exact List.nodup_nil

/-- Definitions that stand in different places list different paths. -/
theorem nodup_flatMap_nodes (ds : List Definition) (i : Nat) :
    (((ds.zipIdx i).flatMap fun x => x.1.nodes x.2).map (·.1)).Nodup := by
  induction ds generalizing i with
  | nil => exact List.nodup_nil
  | cons d rest ih =>
    rw [List.zipIdx_cons, List.flatMap_cons, List.map_append, List.nodup_append']
    refine ⟨nodup_nodes d i, ih (i + 1), ?_⟩
    intro path hfirst hrest
    obtain ⟨x, hx, rfl⟩ := List.mem_map.mp hfirst
    obtain ⟨y, hy, hpath⟩ := List.mem_map.mp hrest
    obtain ⟨⟨d', j⟩, hj, hy⟩ := List.mem_flatMap.mp hy
    have hle : i + 1 ≤ j := List.le_snd_of_mem_zipIdx hj
    rcases path_of_mem_nodes hx with ⟨steps, hx⟩ | ⟨v, hx⟩ <;>
      rcases path_of_mem_nodes hy with ⟨steps', hy⟩ | ⟨v', hy⟩ <;>
      simp [hx, hy] at hpath <;> omega

end Definition

namespace Document

theorem nodes_eq (d : Document) : d.nodes = d.definitions.zipIdx.flatMap fun x => x.1.nodes x.2 := by
  rw [nodes, List.mapIdx_eq_zipIdx_map, List.flatMap_def]

/-- **The fields that a document lists** are those that paths lead to. -/
theorem field_mem_nodes {path : NodePath} :
    (path, .field head below) ∈ d.nodes ↔ d.node? path = some (.field head below) := by
  rw [nodes_eq, List.mem_flatMap]
  constructor
  · rintro ⟨⟨definition, k⟩, hmem, hx⟩
    obtain ⟨steps, rfl, hend⟩ := Definition.field_mem_nodes.mp hx
    exact (node?_within (List.mem_zipIdx_iff_getElem?.mp hmem)).trans hend
  · intro h
    rcases path with ⟨k, steps⟩ | ⟨k, i⟩
    · obtain ⟨definition, hget, hend⟩ := Option.bind_eq_some_iff.mp h
      exact ⟨(definition, k), List.mem_zipIdx_iff_getElem?.mpr hget,
        Definition.field_mem_nodes.mpr ⟨steps, rfl, hend⟩⟩
    · rw [node?] at h
      split at h
      · simp at h
      · cases h

/-- **Every node has a path of its own.** -/
theorem nodup_nodes (d : Document) : (d.nodes.map (·.1)).Nodup := by
  rw [nodes_eq]
  exact Definition.nodup_flatMap_nodes d.definitions 0

end Document

end GraphQLTyping
