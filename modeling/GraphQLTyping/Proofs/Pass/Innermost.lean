import GraphQLTyping.Proofs.Pass.Alone
import GraphQLTyping.Proofs.Pass.Session

/-!
# Only the innermost type matters

Two passes whose places are enclosed in the same innermost type do the same on a walk through a
field (`Pass.walk_of_innermost`).  Both walks end in the same way, and each pass gains the same
**addition** (`Addition`): the same typed fields for the same nodes of the field, with records
numbered on from its own, and the same events, with depths counted on from its own.  What it had
before, it keeps.

The addition is what the walk leaves of a pass that only the innermost type is known of
(`Pass.inside`), as a walk carries over from there to any other pass.
-/

namespace GraphQLTyping

open Pass

variable {s : Schema} {p q c : Pass} {turns : List Turn} {turn : Turn} {P : Pass → Prop}
  {n k : Nat} {steps : List Nat} {id : NodeId} {r : RecordId} {f : TypedField} {head : FieldHead}
  {selections : List Selection} {innermost : Option TypeDef}
  {outer outer' above : List (Option TypeDef)} {x walk : Step Unit}

/-- What a walk **adds** to a pass: the types that it leaves around the place, inside those from
before, typed fields with the nodes that they are of, and events.  Records are numbered from the
first new one, and depths are counted from the type that the walk finds around its place. -/
structure Addition where
  above : List (Option TypeDef)
  records : Array TypedField
  nodes : List (NodeId × RecordId)
  events : List Event

/-- A pass `q` is a pass `p` that has **gained** an addition, and nothing else. -/
structure Addition.Gained (g : Addition) (p q : Pass) : Prop where
  used : q.used = p.used
  enclosing : q.enclosing = g.above ++ p.enclosing
  /-- A node has its new record if it has one, and else its old one. -/
  record? : ∀ id, q.typing.record? id =
    ((g.nodes.lookup id).map (p.typing.records.size + ·)).or (p.typing.record? id)
  field?_new : ∀ r, q.typing.field? (p.typing.records.size + r) =
    g.records[r]?.map (·.numberedFrom p.typing.records.size)
  field?_old : ∀ r < p.typing.records.size, q.typing.field? r = p.typing.field? r
  variableRecords : q.typing.variableRecords = p.typing.variableRecords
  operationFields : q.typing.operationFields = p.typing.operationFields
  operationVariables : q.typing.operationVariables = p.typing.operationVariables
  inputs : q.typing.inputs = p.typing.inputs
  log : q.log = p.log ++ g.events.map (.deeper (p.depth - 1))

namespace Pass

/-! ### A pass of which the innermost type is known -/

/-- A new pass at a place inside a type. -/
def inside (type : Option TypeDef) : Pass := { enclosing := [type] }

/-- A pass is a new one put onto it. -/
theorem inside_onto (h : p.enclosing = innermost :: outer) : (inside innermost).onto p = p := by
  obtain ⟨used, enclosing, typing, log⟩ := p
  cases h
  simp only [onto, inside, Typing.empty_onto, List.singleton_append, List.tail_cons, List.map_nil,
    List.append_nil]

theorem CarriesOver.failure?_eq (h : CarriesOver x c) (p : Pass) :
    failure? x (c.onto p) = failure? x c := by
  rw [failure?, failure?, h p]
  cases x c <;> rfl

theorem CarriesOver.after_eq (h : CarriesOver x c) (p : Pass) :
    after x (c.onto p) = (after x c).onto p := by
  rw [after, after, h p]
  cases x c <;> rfl

/-- A pass that another one is put onto has gained what the other one has noted. -/
theorem gained_onto (hp : p.enclosing = innermost :: outer)
    (hc : c.enclosing = above ++ [innermost]) :
    Addition.Gained ⟨above, c.typing.records, c.typing.nodes, c.log⟩ p (c.onto p) where
  used := rfl
  enclosing := by
    rw [onto, hc, hp, List.tail_cons, List.append_assoc, List.singleton_append]
  record? := Typing.record?_onto c.typing p.typing
  field?_new := Typing.field?_onto_add c.typing p.typing
  field?_old := fun _ hr => Typing.field?_onto_of_lt c.typing hr
  variableRecords := rfl
  operationFields := rfl
  operationVariables := rfl
  inputs := rfl
  log := by
    rw [onto, depth, hp]
    rfl

/-! ### What a walk through a field leaves -/

theorem keeps_takeTurns (h : ∀ turn ∈ turns, Keeps P (turn.move.step s)) :
    Keeps P (takeTurns s turns) := by
  induction turns with
  | nil => exact keeps_pure _
  | cons turn rest ih =>
    refine (h turn List.mem_cons_self).bind fun _ => ?_
    exact ih fun other hother => h other (List.mem_cons_of_mem _ hother)

end Pass

namespace Typing

variable {t t' : Typing}

/-- A typing is **contained** if each record is of one node, the latest first, and the records below
a record are among these. -/
structure Contained (t : Typing) : Prop where
  numbered : t.nodes.map (·.2) = (List.range t.records.size).reverse
  below : ∀ r f, t.field? r = some f → ∀ child ∈ f.children.records, ∃ id, (id, child) ∈ t.nodes

theorem contained_empty : Contained {} where
  numbered := rfl
  below := fun _ _ hf => by cases hf

theorem Contained.of_eq (h : t.Contained) (hnodes : t'.nodes = t.nodes)
    (hrecords : t'.records = t.records) : t'.Contained where
  numbered := by
    rw [hnodes, hrecords]
    exact h.numbered
  below := by
    intro r f hf
    rw [hnodes]
    rw [field?, hrecords] at hf
    exact h.below r f hf

theorem Contained.add (h : t.Contained) (hf : f.children.records = []) (id : NodeId) :
    (t.add id f).Contained where
  numbered := by
    rw [Typing.add, List.map_cons, h.numbered, Array.size_push, List.range_succ,
      List.reverse_append]
    rfl
  below := by
    intro r g hg child hchild
    by_cases hr : r < t.records.size
    · rw [field?_add_of_lt hr] at hg
      obtain ⟨other, hother⟩ := h.below r g hg child hchild
      exact ⟨other, List.mem_cons_of_mem _ hother⟩
    · have hlt := lt_size_of_field? hg
      rw [Typing.add, Array.size_push] at hlt
      rw [Nat.le_antisymm (Nat.le_of_lt_succ hlt) (Nat.le_of_not_lt hr), field?_add_size] at hg
      cases hg
      rw [hf] at hchild
      cases hchild

theorem Contained.setChildren {children : List RecordId} (h : t.Contained)
    (hchildren : ∀ child ∈ children, ∃ id, (id, child) ∈ t.nodes) (r : RecordId) :
    (t.setChildren r children).Contained where
  numbered := by
    rw [size_setChildren]
    exact h.numbered
  below := by
    intro other f hf child hchild
    rw [field?_setChildren] at hf
    split at hf
    · obtain ⟨g, _, rfl⟩ := Option.map_eq_some_iff.mp hf
      exact hchildren child hchild
    · exact h.below other f hf child hchild

/-- The records of nodes are of nodes. -/
theorem RecordsOf.exists_node {nodes : List NodeId} {records : List RecordId}
    (h : t.RecordsOf nodes records) : ∀ r ∈ records, ∃ id, (id, r) ∈ t.nodes := by
  intro r hr
  have hmem : some r ∈ nodes.map t.record? := by
    rw [← h]
    exact List.mem_map_of_mem hr
  obtain ⟨id, _, hid⟩ := List.mem_map.mp hmem
  exact ⟨id, mem_nodes_of_record? hid⟩

end Typing

/-- **A move keeps a typing contained**, whatever it does. -/
theorem Move.Does.contained {m : Move} {e : Option TypingError} (h : m.Does s p e q)
    (hp : p.typing.Contained) : q.typing.Contained := by
  have hfield : ∀ {enclosing name} {f : TypedField} (id : NodeId),
      s.typedInside? enclosing name = some f → (p.typing.add id f).Contained := by
    intro enclosing name f id hf
    refine hp.add ?_ id
    rw [Schema.children_of_typedInside? hf]
    rfl
  cases h with
  | refused | missing | broken | operationEntered | leafLeft => exact hp
  | operationHalfLeft | operationLeft => exact hp.of_eq rfl rfl
  | variableShared id => exact (hp.add rfl id).of_eq rfl rfl
  | variableUnclassified id | variableLeaf id => exact (hp.add rfl id).of_eq rfl rfl
  | fieldEntered id _ hf | fieldLeaf id _ hf | fieldOver id _ _ hf | fieldNowhere id _ _ hf =>
    exact hfield id hf
  | fieldLeft id head hr hf ho hp' hrecords => exact hp.setChildren hrecords.exists_node _

/-- A move gives no node a record but the one that it types. -/
theorem Move.Does.mem_nodes {m : Move} {e : Option TypingError} (h : m.Does s p e q)
    {entry : NodeId × RecordId} (hentry : entry ∈ q.typing.nodes) :
    entry ∈ p.typing.nodes ∨ m.typed? = some entry.1 := by
  cases h with
  | variableShared | variableUnclassified | variableLeaf | fieldEntered | fieldLeaf | fieldOver
  | fieldNowhere =>
    rcases List.mem_cons.mp hentry with rfl | hentry
    · exact Or.inr rfl
    · exact Or.inl hentry
  | _ => exact Or.inl hentry

namespace Pass

theorem contained_after_turns (turns : List Turn) (hp : p.typing.Contained) :
    (after (takeTurns s turns) p).typing.Contained :=
  keeps_takeTurns (fun turn _ q hq => Move.Does.contained (turn.move.does q) hq) p hp

/-- Turns give no node a record but those that they type. -/
theorem mem_nodes_after_turns {entry : NodeId × RecordId}
    (hentry : entry ∈ (after (takeTurns s turns) p).typing.nodes) :
    entry ∈ p.typing.nodes ∨ entry.1 ∈ typedNodes turns := by
  have hkeeps : Keeps
      (fun q => ∀ x ∈ q.typing.nodes, x ∈ p.typing.nodes ∨ x.1 ∈ typedNodes turns)
      (takeTurns s turns) := by
    refine keeps_takeTurns fun turn hturn q hq x hx => ?_
    rcases Move.Does.mem_nodes (turn.move.does q) hx with hx | hx
    · exact hq x hx
    · exact Or.inr (mem_typedNodes.mpr ⟨turn, hturn, hx⟩)
  exact hkeeps p (fun x hx => Or.inl hx) entry hentry

/-- A walk that starts from a field leaves the pass as a walk does that comes to it. -/
theorem after_walkNode_field (id : NodeId) (p : Pass) :
    after (walkNode s id (.field head selections)) p =
      after (walkSelection s id (.field head selections)) p := by
  rw [after, after, walkNode, walkSelection, bind_apply, bind_apply]
  cases enterField s id head.name p with
  | error => rfl
  | ok descent q => cases descent <;> rfl

/-- It succeeds if that one does, unless the field is passed over. -/
theorem failure?_walkNode_field (h : failure? (walkNode s id (.field head selections)) p = none) :
    failure? (walkSelection s id (.field head selections)) p = none := by
  rw [failure?, walkNode, bind_apply] at h
  rw [failure?, walkSelection, bind_apply]
  cases henter : enterField s id head.name p with
  | error e q =>
    rw [henter] at h
    cases h
  | ok descent q =>
    cases descent with
    | «over» => rfl
    | into =>
      rw [henter] at h
      exact h

/-- What a walk through a field leaves of a pass that nothing is known of but the innermost type:
this type still encloses its place, with no other inside it if the walk succeeds, and each record is
of a node at the field or below it. -/
structure Own (n k : Nat) (steps : List Nat) (innermost : Option TypeDef)
    (failure : Option TypingError) (c : Pass) : Prop where
  enclosing : ∃ above, c.enclosing = above ++ [innermost] ∧ (failure = none → above = [])
  contained : c.typing.Contained
  nodes : ∀ entry ∈ c.typing.nodes, ∃ more, entry.1 = ⟨n, .within k (steps ++ more)⟩

theorem Own.of_none {failure failure' : Option TypingError} (h : Own n k steps innermost failure c)
    (hnone : failure' = none → failure = none) : Own n k steps innermost failure' c := by
  obtain ⟨⟨above, henclosing, habove⟩, hcontained, hnodes⟩ := h
  exact ⟨⟨above, henclosing, fun hfailure => habove (hnone hfailure)⟩, hcontained, hnodes⟩

theorem own_walkSelection (head : FieldHead) (selections : List Selection)
    (innermost : Option TypeDef) :
    Own n k steps innermost
      (failure? (walkSelection s ⟨n, .within k steps⟩ (.field head selections)) (inside innermost))
      (after (walkSelection s ⟨n, .within k steps⟩ (.field head selections))
        (inside innermost)) := by
  have hsound : Sound s ((Selection.field head selections).turns s [innermost]
      ⟨n, .within k steps⟩) (inside innermost) :=
    Selection.sound_field head selections (inside innermost)
  have hwalk : walkSelection s ⟨n, .within k steps⟩ (.field head selections) (inside innermost) =
      takeTurns s ((Selection.field head selections).turns s [innermost] ⟨n, .within k steps⟩)
        (inside innermost) :=
    walkField_eq fun _ q _ hq => walkSelections_eq selections _ _ 0 q hq
  rw [after, failure?, hwalk, ← after, ← failure?]
  refine ⟨?_, contained_after_turns _ Typing.contained_empty, fun entry hentry => ?_⟩
  · cases hrun : takeTurns s ((Selection.field head selections).turns s [innermost]
        ⟨n, .within k steps⟩) (inside innermost) with
    | ok _ q =>
      rw [after_of_ok hrun]
      exact ⟨[], hsound.enclosing q hrun, fun _ => rfl⟩
    | error e q =>
      rw [after_of_error hrun, failure?_of_error hrun]
      obtain ⟨turn, hturn, _, hq⟩ := hsound.inStep.exists_fault hrun
      obtain ⟨above, habove⟩ := Selection.forall_enclosing_field (kept_suffix s [innermost])
        List.suffix_rfl turn hturn
      refine ⟨above, hq.trans habove.symm, fun hnone => ?_⟩
      cases hnone
  · rcases mem_nodes_after_turns hentry with hentry | hentry
    · cases hentry
    · exact Selection.path_of_typed_here hentry

theorem own_fieldWalks (hwalk : walk ∈ fieldWalks s ⟨n, .within k steps⟩ head selections)
    (innermost : Option TypeDef) :
    Own n k steps innermost (failure? walk (inside innermost)) (after walk (inside innermost)) := by
  rw [fieldWalks, List.mem_cons, List.mem_singleton] at hwalk
  rcases hwalk with rfl | rfl
  · exact own_walkSelection head selections innermost
  · rw [after_walkNode_field]
    exact (own_walkSelection head selections innermost).of_none failure?_walkNode_field

/-! ### Two walks -/

/-- A walk through a field does to a pass what it does to one of which the innermost type alone is
known. -/
theorem gained_fieldWalks (hwalk : walk ∈ fieldWalks s ⟨n, .within k steps⟩ head selections)
    (hp : p.enclosing = innermost :: outer)
    (hc : (after walk (inside innermost)).enclosing = above ++ [innermost]) :
    failure? walk p = failure? walk (inside innermost) ∧
      Addition.Gained ⟨above, (after walk (inside innermost)).typing.records,
        (after walk (inside innermost)).typing.nodes, (after walk (inside innermost)).log⟩ p
        (after walk p) := by
  have hcarries : CarriesOver walk (inside innermost) :=
    carriesOver_fieldWalks (List.cons_ne_nil _ _) hwalk
  have hfailure := hcarries.failure?_eq p
  have hafter := hcarries.after_eq p
  rw [inside_onto hp] at hfailure hafter
  refine ⟨hfailure, ?_⟩
  rw [hafter]
  exact gained_onto hp hc

/-- **Only the innermost type matters.**  Walks through a field, by two passes at places inside the
same type, end in the same way: both succeed, or both fail with the same error.  Both passes gain
the same and keep the rest.  What they gain are types around the place if the walks fail, none if
not; typed fields, each of one node at the field or below it, with such fields below them; and
events. -/
theorem walk_of_innermost (hp : p.enclosing = innermost :: outer)
    (hq : q.enclosing = innermost :: outer')
    (hwalk : walk ∈ fieldWalks s ⟨n, .within k steps⟩ head selections) :
    failure? walk p = failure? walk q ∧ ∃ g : Addition,
      g.Gained p (after walk p) ∧ g.Gained q (after walk q) ∧
      (failure? walk p = none → g.above = []) ∧
      g.nodes.map (·.2) = (List.range g.records.size).reverse ∧
      (∀ entry ∈ g.nodes, ∃ more, entry.1 = ⟨n, .within k (steps ++ more)⟩) ∧
      ∀ (r : RecordId) (f : TypedField), g.records[r]? = some f →
        ∀ child ∈ f.children.records, ∃ id, (id, child) ∈ g.nodes := by
  obtain ⟨⟨above, hc, habove⟩, hcontained, hnodes⟩ := own_fieldWalks hwalk innermost
  obtain ⟨hfailure, hgained⟩ := gained_fieldWalks hwalk hp hc
  obtain ⟨hfailure', hgained'⟩ := gained_fieldWalks hwalk hq hc
  refine ⟨hfailure.trans hfailure'.symm, _, hgained, hgained', ?_, hcontained.numbered, hnodes,
    hcontained.below⟩
  rw [hfailure]
  exact habove

/-- A field that is walked through twice, the second time inside one more type: its node has a new
record then, and both walks have added the same. -/
theorem walk_of_innermost_twice :
    ∃ walk ∈ fieldWalks Sample.schema ⟨0, .within 0 [0]⟩ (Sample.head "me")
        [.field (Sample.head "name") []],
      ∃ q : Pass, q.enclosing = [some Sample.query, some Sample.user] ∧
        q.typing.record? ⟨0, .within 0 [0]⟩ = some 0 ∧
        (after walk q).typing.record? ⟨0, .within 0 [0]⟩ = some 2 ∧ failure? walk q = none ∧
        ∃ g : Addition, g.above = [] ∧
          g.Gained (inside (some Sample.query)) (after walk (inside (some Sample.query))) ∧
          g.Gained q (after walk q) := by
  have hwalk : walkSelection Sample.schema ⟨0, .within 0 [0]⟩
      (.field (Sample.head "me") [.field (Sample.head "name") []]) ∈
      fieldWalks Sample.schema ⟨0, .within 0 [0]⟩ (Sample.head "me")
        [.field (Sample.head "name") []] := List.mem_cons_self
  have henclosing : Pass.enclosing { after (walkSelection Sample.schema ⟨0, .within 0 [0]⟩
        (.field (Sample.head "me") [.field (Sample.head "name") []]))
          (inside (some Sample.query)) with
      enclosing := [some Sample.query, some Sample.user] } =
      [some Sample.query, some Sample.user] := rfl
  obtain ⟨_, g, hp, hq, habove, _⟩ :=
    walk_of_innermost (p := inside (some Sample.query)) rfl henclosing hwalk
  exact ⟨_, hwalk, _, henclosing, rfl, rfl, rfl, g, habove rfl, hp, hq⟩

end Pass

end GraphQLTyping
