import GraphQLTyping.Proofs.Pass.Walks
import GraphQLTyping.Proofs.Sample

/-!
# Every field is typed against the right type

In a typing of a document, a field that has a record is typed against the type of the nearest field
above it that resolved to an object, and against the root type of its operation if there is none
(`Document.typed_by_definition`).  Scalars and enums with selections are passed over on the way up.

What encloses a turn is told from the schema going down the document, and what stands above a node is
read off the typing going up its path (`Typing.objectsAbove`).  That the two agree is shown along the
walk: the record of a field that was gone into says what it took in
(`Selection.enclosing_eq_objectsAbove`).
-/

namespace GraphQLTyping

open Pass

variable {s : Schema} {t : Typing} {n k i : Nat} {steps : List Nat} {id : NodeId} {turn : Turn}
  {enclosing inner : List (Option TypeDef)} {head : FieldHead} {selections : List Selection}
  {f : TypedField}

/-! ### What stands above a node -/

namespace Typing

/-- The typed field of a node. -/
def typedAt? (t : Typing) (id : NodeId) : Option TypedField := (t.record? id).bind t.field?

/-- The object types of the fields above a place that resolved to an object, innermost first. -/
def objectsAbove (t : Typing) (document definition : Nat) (steps : List Nat) : List TypeDef :=
  (List.range steps.length).reverse.filterMap fun length =>
    (t.typedAt? ⟨document, .within definition (steps.take length)⟩).bind (·.objectType?)

theorem Typed.typedAt? {first : Nat} (h : t.Typed first id f) : t.typedAt? id = some f := by
  obtain ⟨r, _, hr, hf⟩ := h
  rw [Typing.typedAt?, hr]
  exact hf

/-- One step further down, the place itself stands above. -/
theorem objectsAbove_concat (t : Typing) (n k : Nat) (steps : List Nat) (i : Nat) :
    t.objectsAbove n k (steps ++ [i]) =
      ((t.typedAt? ⟨n, .within k steps⟩).bind (·.objectType?)).toList ++
        t.objectsAbove n k steps := by
  have hrest : ((List.range steps.length).reverse.filterMap fun length =>
      (t.typedAt? ⟨n, .within k ((steps ++ [i]).take length)⟩).bind (·.objectType?)) =
      t.objectsAbove n k steps := by
    refine List.filterMap_congr fun length h => ?_
    rw [List.mem_reverse, List.mem_range] at h
    rw [List.take_append_of_le_length (Nat.le_of_lt h)]
  rw [objectsAbove, List.length_append, List.length_singleton, List.range_succ,
    List.reverse_concat, List.filterMap_cons, hrest,
    List.take_append_of_le_length (Nat.le_refl _), List.take_length]
  cases (t.typedAt? ⟨n, .within k steps⟩).bind (·.objectType?) <;> rfl

end Typing

/-- What a field that was gone into took in, seen from a place below it. -/
theorem inside_eq_objectsAbove {first : Nat} {tail : List (Option TypeDef)}
    (hin : s.inside? enclosing head.name = some inner)
    (hrec : t.HasField s first enclosing ⟨n, .within k steps⟩ head.name)
    (he : enclosing = (t.objectsAbove n k steps).map some ++ tail) (i : Nat) :
    inner = (t.objectsAbove n k (steps ++ [i])).map some ++ tail := by
  obtain ⟨f, children, hf, htyped, _⟩ := hrec
  obtain ⟨f', hf', hr⟩ := Schema.typedInside?_of_inside? hin
  rw [hf] at hf'
  cases hf'
  rw [Typing.objectsAbove_concat, htyped.typedAt?, Option.bind_some, TypedField.objectType?]
  rcases hr with ⟨ho, rfl⟩ | ⟨ho, _, rfl⟩
  · rw [if_pos ho, he]
    rfl
  · rw [if_neg ho]
    exact he

/-- **What encloses a field** is what stands above it, if all turns are recorded. -/
theorem Selection.enclosing_eq_objectsAbove {first : Nat} {tail : List (Option TypeDef)}
    (selections : List Selection) (enclosing : List (Option TypeDef)) (steps : List Nat) (i : Nat) :
    (∀ turn ∈ turnsFrom s enclosing ⟨n, .within k steps⟩ i selections, turn.Recorded s first t) →
    (∀ j, enclosing = (t.objectsAbove n k (steps ++ [j])).map some ++ tail) →
    ∀ turn ∈ turnsFrom s enclosing ⟨n, .within k steps⟩ i selections,
      ∀ path head below, turn.move = .enterField ⟨n, .within k path⟩ head below →
        turn.enclosing = (t.objectsAbove n k path).map some ++ tail := by
  induction selections, enclosing, steps, i using turns_induct s with
  | nil =>
    intro _ _ turn hturn
    rw [turnsFrom_nil] at hturn
    cases hturn
  | passed head selections rest enclosing steps i h ih =>
    intro hrec he turn hturn path head' below hmove
    rw [turnsFrom_over h] at hrec hturn
    rcases List.mem_cons.mp hturn with rfl | hturn
    · cases hmove
      exact he i
    · exact ih (fun other ho => hrec other (List.mem_cons_of_mem _ ho)) he turn hturn path head'
        below hmove
  | into head selections rest enclosing inner steps i h ihin ih =>
    intro hrec he turn hturn path head' below hmove
    rw [turnsFrom_into h] at hrec hturn
    rw [List.mem_append, List.mem_cons, List.mem_append, List.mem_singleton] at hturn
    rcases hturn with (rfl | hturn | rfl) | hturn
    · cases hmove
      exact he i
    · have hown := hrec ⟨.enterField ⟨n, .within k (steps ++ [i])⟩ head selections, enclosing⟩
        (by simp)
      exact ihin (fun other ho => hrec other (by simp [ho]))
        (inside_eq_objectsAbove h hown (he i)) turn hturn path head' below hmove
    · cases hmove
    · exact ih (fun other ho => hrec other (List.mem_append_right _ ho)) he turn hturn path head'
        below hmove
  | other selection rest enclosing steps i h ih =>
    rw [turnsFrom_other h]
    exact ih

/-! ### The node of a turn -/

/-- Among selections numbered from `i` on, a path leads to a field. -/
def FieldAt (selections : List Selection) (i : Nat) (path : List Nat) (head : FieldHead)
    (below : List Selection) : Prop :=
  ∃ j more, path = (i + j) :: more ∧
    (selections[j]?.bind fun x => (Node.ofSelection x).descendant? more) =
      some (.field head below)

theorem fieldAt_self (head : FieldHead) (below rest : List Selection) (i : Nat) :
    FieldAt (.field head below :: rest) i [i] head below :=
  ⟨0, [], rfl, rfl⟩

theorem FieldAt.later {rest below : List Selection} {path : List Nat} {x : Selection}
    (h : FieldAt rest (i + 1) path head below) : FieldAt (x :: rest) i path head below := by
  obtain ⟨j, more, rfl, hnode⟩ := h
  exact ⟨j + 1, more, by rw [Nat.add_assoc, Nat.add_comm 1], hnode⟩

theorem FieldAt.inside {rest below : List Selection} {path : List Nat} {head' : FieldHead}
    (h : FieldAt selections 0 path head' below) :
    FieldAt (.field head selections :: rest) i (i :: path) head' below := by
  obtain ⟨j, more, rfl, hnode⟩ := h
  rw [Nat.zero_add]
  exact ⟨0, j :: more, rfl, hnode⟩

/-- A turn that types a node below another one is that of the field there. -/
theorem Selection.fieldAt_of_turn (selections : List Selection) (enclosing : List (Option TypeDef))
    (steps : List Nat) (i : Nat) :
    ∀ turn ∈ turnsFrom s enclosing ⟨n, .within k steps⟩ i selections,
      ∀ id, turn.move.typed? = some id →
        ∃ path head below, turn.move = .enterField id head below ∧
          id = ⟨n, .within k (steps ++ path)⟩ ∧ FieldAt selections i path head below := by
  induction selections, enclosing, steps, i using turns_induct s with
  | nil =>
    intro turn hturn
    rw [turnsFrom_nil] at hturn
    cases hturn
  | passed head selections rest enclosing steps i h ih =>
    intro turn hturn id hid
    rw [turnsFrom_over h] at hturn
    rcases List.mem_cons.mp hturn with rfl | hturn
    · cases hid
      exact ⟨[i], head, selections, rfl, rfl, fieldAt_self head selections rest i⟩
    · obtain ⟨path, head', below, hmove, hpath, hat⟩ := ih turn hturn id hid
      exact ⟨path, head', below, hmove, hpath, hat.later⟩
  | into head selections rest enclosing inner steps i h ihin ih =>
    intro turn hturn id hid
    rw [turnsFrom_into h, List.mem_append, List.mem_cons, List.mem_append,
      List.mem_singleton] at hturn
    rcases hturn with (rfl | hturn | rfl) | hturn
    · cases hid
      exact ⟨[i], head, selections, rfl, rfl, fieldAt_self head selections rest i⟩
    · obtain ⟨path, head', below, hmove, hpath, hat⟩ := ihin turn hturn id hid
      rw [List.append_assoc, List.singleton_append] at hpath
      exact ⟨i :: path, head', below, hmove, hpath, hat.inside⟩
    · cases hid
    · obtain ⟨path, head', below, hmove, hpath, hat⟩ := ih turn hturn id hid
      exact ⟨path, head', below, hmove, hpath, hat.later⟩
  | other selection rest enclosing steps i h ih =>
    intro turn hturn id hid
    rw [turnsFrom_other h] at hturn
    obtain ⟨path, head', below, hmove, hpath, hat⟩ := ih turn hturn id hid
    exact ⟨path, head', below, hmove, hpath, hat.later⟩

/-- A turn of an operation that types a node by its steps is one of its selections. -/
theorem Operation.turn_of_typed {o : Operation} {path : List Nat}
    (hturn : turn ∈ o.turns s enclosing ⟨n, .within k []⟩)
    (hid : turn.move.typed? = some ⟨n, .within k path⟩) :
    ∃ root, s.root? o.kind = some root ∧
      turn ∈ Selection.turnsFrom s (some root :: enclosing) ⟨n, .within k []⟩ 0 o.selections ∧
      (∀ other ∈ Selection.turnsFrom s (some root :: enclosing) ⟨n, .within k []⟩ 0 o.selections,
        other ∈ o.turns s enclosing ⟨n, .within k []⟩) := by
  cases h : s.root? o.kind with
  | none =>
    rw [turns_missing h, List.mem_singleton] at hturn
    rw [hturn] at hid
    cases hid
  | some root =>
    refine ⟨root, rfl, ?_, ?_⟩
    · rw [turns_root h, turnsInside, List.mem_cons, List.mem_append, List.mem_append,
        List.mem_singleton] at hturn
      rcases hturn with rfl | (hturn | hturn) | rfl
      · cases hid
      · obtain ⟨j, _, hvariable⟩ := VariableDef.path_of_typed _ _ _
          (mem_typedNodes.mpr ⟨turn, hturn, hid⟩)
        cases hvariable
      · exact hturn
      · cases hid
    · intro other hother
      rw [turns_root h, turnsInside]
      simp [hother]

/-- A turn of a document that types a node of a definition is one of the operation there. -/
theorem Definition.turn_of_typed {path : NodePath} (ds : List Definition) (i : Nat)
    (hturn : turn ∈ turnsFrom s enclosing n i ds) (hid : turn.move.typed? = some ⟨n, path⟩) :
    ∃ j o, ds[j]? = some (.operation o) ∧ path.definition = i + j ∧
      turn ∈ o.turns s enclosing ⟨n, .within (i + j) []⟩ ∧
      ∀ other ∈ o.turns s enclosing ⟨n, .within (i + j) []⟩,
        other ∈ turnsFrom s enclosing n i ds := by
  induction ds generalizing i with
  | nil => cases hturn
  | cons d rest ih =>
    have hlater : turn ∈ turnsFrom s enclosing n (i + 1) rest →
        ∃ j o, (d :: rest)[j]? = some (.operation o) ∧ path.definition = i + j ∧
          turn ∈ o.turns s enclosing ⟨n, .within (i + j) []⟩ ∧
          ∀ other ∈ o.turns s enclosing ⟨n, .within (i + j) []⟩,
            other ∈ turnsFrom s enclosing n (i + 1) rest := by
      intro hturn
      obtain ⟨j, o, hget, hpath, hin, hall⟩ := ih (i + 1) hturn
      have hij : i + 1 + j = i + (j + 1) := by omega
      rw [hij] at hpath hin hall
      exact ⟨j + 1, o, hget, hpath, hin, hall⟩
    cases d with
    | operation o =>
      rcases List.mem_append.mp hturn with hturn | hturn
      · have hdef := Operation.definition_of_typed (mem_typedNodes.mpr ⟨turn, hturn, hid⟩)
        exact ⟨0, o, rfl, hdef, hturn, fun other ho => List.mem_append_left _ ho⟩
      · obtain ⟨j, o', hget, hpath, hin, hall⟩ := hlater hturn
        exact ⟨j, o', hget, hpath, hin, fun other ho => List.mem_append_right _ (hall other ho)⟩
    | fragment | typeSystem => exact hlater hturn

/-- A turn that types a field of a document is one of the selections of its operation. -/
theorem Document.turn_of_typed {d : Document} {path : List Nat} (hturn : turn ∈ d.turns s n)
    (hid : turn.move.typed? = some ⟨n, .within k path⟩) :
    ∃ o root, d.definitions[k]? = some (.operation o) ∧ s.root? o.kind = some root ∧
      turn ∈ Selection.turnsFrom s [some root] ⟨n, .within k []⟩ 0 o.selections ∧
      ∀ other ∈ Selection.turnsFrom s [some root] ⟨n, .within k []⟩ 0 o.selections,
        other ∈ d.turns s n := by
  obtain ⟨j, o, hget, hk, hin, hall⟩ := Definition.turn_of_typed d.definitions 0 hturn hid
  rw [Nat.zero_add] at hk hin hall
  obtain rfl : k = j := hk
  obtain ⟨root, hroot, hsel, hup⟩ := Operation.turn_of_typed hin hid
  exact ⟨o, root, hget, hroot, hsel, fun other ho => hall other (hup other ho)⟩

theorem Document.exists_path_of_typed {d : Document} {path : List Nat}
    (hturn : turn ∈ d.turns s n) (hid : turn.move.typed? = some ⟨n, .within k path⟩) :
    ∃ head below, turn.move = .enterField ⟨n, .within k path⟩ head below ∧ path ≠ [] ∧
      d.node? (.within k path) = some (.field head below) := by
  obtain ⟨o, root, hget, hroot, hsel, _⟩ := Document.turn_of_typed hturn hid
  obtain ⟨path', head, below, hmove, hpath, j, more, rfl, hnode⟩ :=
    Selection.fieldAt_of_turn _ _ _ _ turn hsel _ hid
  cases hpath
  refine ⟨head, below, hmove, by simp, ?_⟩
  rw [Nat.zero_add, node?, List.nil_append, hget]
  exact hnode

/-- Definitions have no records. -/
theorem Document.definition_not_typed (d : Document) :
    ⟨n, .within k []⟩ ∉ typedNodes (d.turns s n) := by
  intro hid
  obtain ⟨turn, hturn, hid⟩ := mem_typedNodes.mp hid
  obtain ⟨head, below, _, hpath, _⟩ := exists_path_of_typed hturn hid
  exact hpath rfl

/-! ### Definitions of fields -/

/-- A type **defines** a field, with the type that the field is declared with or has as a meta field.
Every type has the first meta field, the type at which queries start has all three, and a meta field
wins over a declared field of its name. -/
inductive Schema.Defines (s : Schema) (parent : TypeDef) : String → TypeRef → Prop
  | typename : Defines s parent "__typename" (.named "String" true)
  | schema (h : s.root? .query = some parent) :
    Defines s parent "__schema" (.named "__Schema" true)
  | type (h : s.root? .query = some parent) : Defines s parent "__type" (.named "__Type" false)
  | declared {name : String} {type : TypeRef} (hname : name ≠ "__typename")
    (hmeta : s.root? .query = some parent → name ≠ "__schema" ∧ name ≠ "__type")
    (h : parent.fieldType? name = some type) : Defines s parent name type

theorem Schema.defines_of_fieldType? {parent : TypeDef} {name : String} {type : TypeRef}
    (h : s.fieldType? (some parent) name = some type) : s.Defines parent name type := by
  rw [fieldType?, metaField?] at h
  by_cases hname : name = "__typename"
  · subst hname
    cases h
    exact .typename
  · rw [if_neg hname] at h
    by_cases hq : s.isQueryRoot (some parent) = true
    · have hroot := isQueryRoot_iff.mp hq
      rw [if_pos hq] at h
      by_cases hs : name = "__schema"
      · subst hs
        cases h
        exact .schema hroot
      · rw [if_neg hs] at h
        by_cases ht : name = "__type"
        · subst ht
          cases h
          exact .type hroot
        · rw [if_neg ht] at h
          exact .declared hname (fun _ => ⟨hs, ht⟩) h
    · rw [if_neg hq] at h
      exact .declared hname (fun hr => absurd (isQueryRoot_iff.mpr hr) hq) h

/-! ### Typings of documents -/

/-- In a typing that has recorded all turns of a document, a field's turn is enclosed in what stands
above the field, with the root type of the operation around it. -/
theorem Document.enclosing_eq_objectsAbove {d : Document} {first : Nat}
    (hrec : ∀ turn ∈ d.turns s n, turn.Recorded s first t)
    (hnone : t.typedAt? ⟨n, .within k []⟩ = none) (hturn : turn ∈ d.turns s n)
    (hid : turn.move.typed? = some ⟨n, .within k steps⟩) :
    ∃ o root, d.definitions[k]? = some (.operation o) ∧ s.root? o.kind = some root ∧
      turn.enclosing = (t.objectsAbove n k steps).map some ++ [some root] := by
  obtain ⟨o, root, hget, hroot, hsel, hup⟩ := turn_of_typed hturn hid
  obtain ⟨head, below, hmove, _⟩ := exists_path_of_typed hturn hid
  refine ⟨o, root, hget, hroot, ?_⟩
  refine Selection.enclosing_eq_objectsAbove o.selections [some root] [] 0
    (fun other ho => hrec other (hup other ho)) ?_ turn hsel steps head below hmove
  -- above the root fields there is only the operation, which has no record
  intro j
  rw [Typing.objectsAbove_concat, hnone]
  rfl

/-- A field of a typing has its turn, which was taken when the pass was enclosed in what stands above
the field, and from which its typed field is told. -/
theorem Document.exists_turn_of_typedAt? {d : Document} (h : (d.typing s).1 = .ok t)
    (hnode : d.node? (.within k steps) = some (.field head selections))
    (hf : t.typedAt? ⟨0, .within k steps⟩ = some f) :
    ∃ o root before after q f₀ children,
      d.definitions[k]? = some (.operation o) ∧ s.root? o.kind = some root ∧
      d.turns s 0 = before ++ ⟨.enterField ⟨0, .within k steps⟩ head selections,
        (t.objectsAbove 0 k steps).map some ++ [some root]⟩ :: after ∧
      takeTurns s before { used := true } = .ok ⟨⟩ q ∧
      q.enclosing = (t.objectsAbove 0 k steps).map some ++ [some root] ∧
      s.typedInside? ((t.objectsAbove 0 k steps).map some ++ [some root]) head.name = some f₀ ∧
      f = { f₀ with children } := by
  rw [typing_eq] at h
  cases hq : takeTurns s (d.turns s 0) { used := true } with
  | error e q =>
    rw [hq] at h
    cases h
  | ok _ q =>
    rw [hq] at h
    cases h
    have hsound := d.sound_turns s 0
    have hg := hsound.grown q hq
    have hnone : ∀ id ∉ typedNodes (d.turns s 0), q.typing.typedAt? id = none := by
      intro id hid
      rw [Typing.typedAt?, hg.extended.record?_eq id hid]
      rfl
    have hmem : ⟨0, .within k steps⟩ ∈ typedNodes (d.turns s 0) := by
      by_contra hid
      rw [hnone _ hid] at hf
      cases hf
    obtain ⟨turn, hturn, hid⟩ := mem_typedNodes.mp hmem
    obtain ⟨o, root, hget, hroot, he⟩ :=
      enclosing_eq_objectsAbove hg.recorded (hnone _ d.definition_not_typed) hturn hid
    obtain ⟨head', below, hmove, _, hnode'⟩ := exists_path_of_typed hturn hid
    rw [hnode] at hnode'
    cases hnode'
    obtain ⟨move, enclosing⟩ := turn
    cases hmove
    cases he
    obtain ⟨before, after, hsplit⟩ := List.append_of_mem hturn
    obtain ⟨f₀, children, hf₀, htyped, _⟩ := hg.recorded _ hturn
    rw [hsplit] at hq
    obtain ⟨r, hr, _⟩ := exists_takeTurns_of_append hq
    have hinstep := hsound.inStep
    rw [hsplit] at hinstep
    rw [htyped.typedAt?] at hf
    cases hf
    exact ⟨o, root, before, after, r, f₀, children, hget, hroot, hsplit, hr,
      hinstep.enclosing_eq hr, hf₀, rfl⟩

/-- The type that encloses a field innermost is one of the schema. -/
theorem Document.mem_types_of_turn {d : Document} {parent : TypeDef} {outer : List (Option TypeDef)}
    (hturn : turn ∈ d.turns s n) (h : turn.enclosing = some parent :: outer) :
    parent ∈ s.types := by
  have hk : Kept s (Enclosed (· ∈ s.types)) :=
    kept_enclosed (fun _ _ hr => Schema.mem_types_of_root? hr)
      fun _ _ _ hmem hf ho => (Schema.hasObject_of_output hmem hf ho).1
  obtain ⟨type, heq, hmem⟩ := enclosed hk hturn (some parent) (by rw [h]; exact List.mem_cons_self)
  rw [Option.some.inj heq]
  exact hmem

/-- **Every field is typed against the right type**: the innermost object type above it, and the root
type of its operation if there is none.  Its name is its own, and the wrappers, the bare type and the
resolution are those of the definition that the field has there.  When the walk enters the field, the
pass is enclosed in just the root type and the object types above the field. -/
theorem Document.typed_by_definition (s : Schema) (d : Document) (t : Typing)
    (h : (d.typing s).1 = .ok t) (k : Nat) (steps : List Nat) (head : FieldHead)
    (selections : List Selection) (f : TypedField)
    (hnode : d.node? (.within k steps) = some (.field head selections))
    (hf : t.typedAt? ⟨0, .within k steps⟩ = some f) :
    ∃ o root parent whole,
      d.definitions[k]? = some (.operation o) ∧ s.root? o.kind = some root ∧
      parent = (t.objectsAbove 0 k steps).head?.getD root ∧
      f.side = .output ∧ f.parent = some parent ∧ f.name = head.name ∧
      s.Defines parent head.name whole ∧
      f.nonNull = whole.shape.nonNull ∧ f.list = whole.shape.list ∧
      f.type = s.named whole.name ∧
      f.resolution = (if whole.shape.supported then f.type.outputResolution else .unclassified) ∧
      ∃ before after q,
        d.turns s 0 = before ++ ⟨.enterField ⟨0, .within k steps⟩ head selections,
          q.enclosing⟩ :: after ∧
        takeTurns s before { used := true } = .ok ⟨⟩ q ∧
        q.enclosing = (t.objectsAbove 0 k steps).map some ++ [some root] := by
  obtain ⟨o, root, before, after, q, f₀, children, hget, hroot, hsplit, hq, he, hf₀, rfl⟩ :=
    exists_turn_of_typedAt? h hnode hf
  obtain ⟨outer, hcons⟩ : ∃ outer, (t.objectsAbove 0 k steps).map some ++ [some root] =
      some ((t.objectsAbove 0 k steps).head?.getD root) :: outer := by
    cases t.objectsAbove 0 k steps with
    | nil => exact ⟨[], rfl⟩
    | cons parent rest => exact ⟨rest.map some ++ [some root], rfl⟩
  have hturn : ⟨.enterField ⟨0, .within k steps⟩ head selections,
      (t.objectsAbove 0 k steps).map some ++ [some root]⟩ ∈ d.turns s 0 := by
    rw [hsplit]
    simp
  have hmem : (t.objectsAbove 0 k steps).head?.getD root ∈ s.types :=
    mem_types_of_turn hturn hcons
  rw [hcons] at hf₀
  obtain ⟨whole, hwhole, rfl⟩ := Option.map_eq_some_iff.mp hf₀
  refine ⟨o, root, _, whole, hget, hroot, rfl, rfl, rfl, rfl,
    Schema.defines_of_fieldType? hwhole, rfl, rfl, ?_, rfl, before, after, q, ?_, hq, he⟩
  · rw [← TypeRef.name_shape]
    exact Schema.namedAt_of_mem hmem head.name whole.shape.name
  · rw [he]
    exact hsplit

/-- A field below a scalar that has selections is typed against the object type further up. -/
theorem Document.typed_by_definition_below_scalar :
    ∃ t f, ((Sample.document "name" "friend").typing Sample.schema).1 = .ok t ∧
      t.typedAt? ⟨0, .within 0 [0, 0, 0]⟩ = some f ∧ f.parent = some Sample.user := by
  obtain ⟨t, f, ht, hf, habove⟩ : ∃ t f,
      ((Sample.document "name" "friend").typing Sample.schema).1 = .ok t ∧
      t.typedAt? ⟨0, .within 0 [0, 0, 0]⟩ = some f ∧
      t.objectsAbove 0 0 [0, 0, 0] = [Sample.user] := ⟨_, _, rfl, rfl, rfl⟩
  obtain ⟨_, root, parent, _, _, _, hparent, _, hfield, _⟩ :=
    typed_by_definition Sample.schema (Sample.document "name" "friend") t ht 0 [0, 0, 0] _ _ f
      rfl hf
  refine ⟨t, f, ht, hf, ?_⟩
  rw [hfield, hparent, habove]
  rfl

end GraphQLTyping
