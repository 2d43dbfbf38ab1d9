import GraphQLTyping.Proofs.Document.Nodes
import GraphQLTyping.Proofs.Pass.Completion

/-!
# Which nodes are found

A typing finds the variables of operations, and those fields to which a walk comes: no node above them
is a fragment, be it named or inline, or a field without a resolution (`Document.InReach`).  All other
nodes, and all nodes of other documents, are not found (`Document.lookups`).

Whether a field is typed is told from its path.  A path **leads** to a field if every node on the way
is passed (`Typing.Leads`), and so step by step: a walk goes into a field exactly if the typed field of
it has a resolution (`HasField.passes_iff`), and goes on there through the selection that the path
takes.
-/

namespace GraphQLTyping

open Pass

variable {s : Schema} {d : Document} {t : Typing} {n k i j : Nat} {id : NodeId} {r : RecordId}
  {enclosing inner : List (Option TypeDef)} {steps more : List Nat} {head : FieldHead}
  {selections rest : List Selection} {x : Selection} {turn : Turn}

/-! ### One step down -/

namespace Selection

/-- What is typed at a selection or below it continues its path. -/
theorem path_of_typed_here (h : id ∈ typedNodes (x.turns s enclosing ⟨n, .within k steps⟩)) :
    ∃ more, id = ⟨n, .within k (steps ++ more)⟩ := by
  cases x with
  | spread | inlineFragment =>
    rw [turns] at h
    cases h
  | field head selections =>
    rw [turns, typedNodes_enterField, List.mem_cons] at h
    rcases h with rfl | h
    · exact ⟨[], by rw [List.append_nil]⟩
    · cases hin : s.inside? enclosing head.name with
      | none =>
        rw [hin] at h
        cases h
      | some inner =>
        simp only [hin, typedNodes_append, typedNodes_leaveField, typedNodes_nil,
          List.append_nil] at h
        obtain ⟨j, more, _, rfl⟩ := path_of_typed selections inner steps 0 id h
        exact ⟨j :: more, rfl⟩

/-- A node below a list of selections is typed if it is by the one that its path goes through. -/
theorem mem_typedNodes_turnsFrom (selections : List Selection) (i j : Nat) :
    ⟨n, .within k (steps ++ (i + j) :: more)⟩ ∈
        typedNodes (turnsFrom s enclosing ⟨n, .within k steps⟩ i selections) ↔
      ∃ x, selections[j]? = some x ∧ ⟨n, .within k (steps ++ (i + j) :: more)⟩ ∈
        typedNodes (x.turns s enclosing ⟨n, .within k (steps ++ [i + j])⟩) := by
  induction selections generalizing i j with
  | nil => simp
  | cons first rest ih =>
    rw [turnsFrom, typedNodes_append, List.mem_append]
    cases j with
    | zero =>
      have hlater : ⟨n, .within k (steps ++ (i + 0) :: more)⟩ ∉
          typedNodes (turnsFrom s enclosing ⟨n, .within k steps⟩ (i + 1) rest) :=
        not_typed_later
      simp only [hlater, or_false, List.getElem?_cons_zero, Option.some.injEq, exists_eq_left']
      rfl
    | succ j =>
      have hfirst : ⟨n, .within k (steps ++ (i + (j + 1)) :: more)⟩ ∉
          typedNodes (first.turns s enclosing ((⟨n, .within k steps⟩ : NodeId).child i)) := by
        intro h
        obtain ⟨more', heq⟩ := path_of_typed_here h
        simp at heq
      have hij : i + (j + 1) = i + 1 + j := by omega
      rw [hij] at hfirst ⊢
      simp only [hfirst, false_or, List.getElem?_cons_succ, ih]

/-- A node at a field or below it is typed if it is the field itself or typed inside. -/
theorem mem_typedNodes_field :
    ⟨n, .within k (steps ++ more)⟩ ∈
        typedNodes ((Selection.field head selections).turns s enclosing ⟨n, .within k steps⟩) ↔
      more = [] ∨ ∃ inner, s.inside? enclosing head.name = some inner ∧
        ⟨n, .within k (steps ++ more)⟩ ∈
          typedNodes (turnsFrom s inner ⟨n, .within k steps⟩ 0 selections) := by
  have hself : (⟨n, .within k (steps ++ more)⟩ : NodeId) = ⟨n, .within k steps⟩ ↔ more = [] := by
    simp
  rw [turns, typedNodes_enterField, List.mem_cons, hself]
  cases s.inside? enclosing head.name with
  | none => simp
  | some inner => simp

end Selection

/-! ### All the way down -/

/-- The turns of a selection are among those of its list. -/
theorem Selection.mem_turnsFrom (selections : List Selection) (i j : Nat)
    (hx : selections[j]? = some x)
    (h : turn ∈ x.turns s enclosing ⟨n, .within k (steps ++ [i + j])⟩) :
    turn ∈ turnsFrom s enclosing ⟨n, .within k steps⟩ i selections := by
  induction selections generalizing i j with
  | nil => cases hx
  | cons first rest ih =>
    rw [turnsFrom, List.mem_append]
    cases j with
    | zero =>
      cases hx
      exact Or.inl h
    | succ j =>
      rw [← Nat.add_assoc, Nat.add_right_comm] at h
      exact Or.inr (ih (i + 1) j hx h)

/-- Whether a node is a fragment, be it named or inline. -/
def Node.isFragment : Node → Bool
  | .fragment _ | .inlineFragment .. => true
  | _ => false

namespace Typing

/-- A node at a place is **passed** on the way down if it is no fragment and, where it is typed, not
without a resolution. -/
def Passes (t : Typing) (n k : Nat) (steps : List Nat) (node : Node) : Prop :=
  node.isFragment = false ∧
    ∀ f, t.typedAt? ⟨n, .within k steps⟩ = some f → f.resolution ≠ .unclassified

/-- A path **leads** from a node at a place to a field if the node at its end is one and all nodes
on it are passed before. -/
def Leads (t : Typing) (n k : Nat) (steps : List Nat) (node : Node) (path : List Nat) : Prop :=
  (∃ head below, node.descendant? path = some (.field head below)) ∧
    ∀ m < path.length, ∀ above, node.descendant? (path.take m) = some above →
      t.Passes n k (steps ++ path.take m) above

theorem leads_nil {node : Node} :
    t.Leads n k steps node [] ↔ ∃ head below, node = .field head below := by
  simp [Leads, Node.descendant?]

/-- A path leads on from the selection that it goes through first. -/
theorem leads_cons {node : Node} :
    t.Leads n k steps node (i :: more) ↔
      t.Passes n k steps node ∧
        ∃ x, node.selections[i]? = some x ∧ t.Leads n k (steps ++ [i]) (.ofSelection x) more := by
  constructor
  · rintro ⟨⟨head, below, hend⟩, h⟩
    rw [Node.descendant?] at hend
    obtain ⟨x, hx, hend⟩ := Option.bind_eq_some_iff.mp hend
    refine ⟨?_, x, hx, ⟨head, below, hend⟩, ?_⟩
    · simpa using h 0 (Nat.zero_lt_succ _) node rfl
    · intro m hm above habove
      have hpass := h (m + 1) (Nat.succ_lt_succ hm) above (by
        rw [List.take_succ_cons, Node.descendant?, hx]
        exact habove)
      rwa [List.take_succ_cons, ← List.singleton_append, ← List.append_assoc] at hpass
  · rintro ⟨hself, x, hx, ⟨head, below, hend⟩, h⟩
    refine ⟨⟨head, below, ?_⟩, ?_⟩
    · rw [Node.descendant?, hx]
      exact hend
    · intro m hm above habove
      cases m with
      | zero =>
        cases habove
        simpa using hself
      | succ m =>
        rw [List.take_succ_cons, Node.descendant?, hx] at habove
        rw [List.take_succ_cons, ← List.singleton_append, ← List.append_assoc]
        exact h m (Nat.lt_of_succ_lt_succ hm) above habove

end Typing

/-- A field is passed exactly if it has an inside. -/
theorem Typing.HasField.passes_iff {first : Nat}
    (h : t.HasField s first enclosing ⟨n, .within k steps⟩ head.name) :
    t.Passes n k steps (.field head selections) ↔
      ∃ inner, s.inside? enclosing head.name = some inner := by
  obtain ⟨f, children, hf, htyped, _⟩ := h
  have hpass : t.Passes n k steps (.field head selections) ↔ f.resolution ≠ .unclassified := by
    rw [Passes, htyped.typedAt?]
    simp [Node.isFragment]
  rw [hpass]
  constructor
  · intro hu
    by_cases ho : f.resolution = .object
    · exact ⟨_, Schema.inside?_of_object hf ho⟩
    · exact ⟨_, Schema.inside?_of_leaf hf ho hu⟩
  · rintro ⟨inner, hin⟩ hu
    rw [Schema.inside?_of_unclassified hf hu] at hin
    cases hin

theorem Typing.HasField.not_passes {first : Nat}
    (h : t.HasField s first enclosing ⟨n, .within k steps⟩ head.name)
    (hin : s.inside? enclosing head.name = none) :
    ¬ t.Passes n k steps (.field head selections) := by
  rw [h.passes_iff, hin]
  rintro ⟨_, hinner⟩
  cases hinner

/-- Inside a list of selections, the typed nodes are those to which a path leads from a selection, if
this is so for each selection. -/
theorem Selection.mem_typedNodes_inside
    (h : ∀ x, selections[i]? = some x →
      (⟨n, .within k (steps ++ [i] ++ more)⟩ ∈
          typedNodes (x.turns s inner ⟨n, .within k (steps ++ [i])⟩) ↔
        t.Leads n k (steps ++ [i]) (.ofSelection x) more)) :
    ⟨n, .within k (steps ++ i :: more)⟩ ∈
        typedNodes (turnsFrom s inner ⟨n, .within k steps⟩ 0 selections) ↔
      ∃ x, selections[i]? = some x ∧ t.Leads n k (steps ++ [i]) (.ofSelection x) more := by
  have hstep : ⟨n, .within k (steps ++ (0 + i) :: more)⟩ ∈
      typedNodes (turnsFrom s inner ⟨n, .within k steps⟩ 0 selections) ↔ _ :=
    mem_typedNodes_turnsFrom selections 0 i
  have happend : steps ++ i :: more = steps ++ [i] ++ more := by simp
  rw [Nat.zero_add] at hstep
  rw [hstep, happend]
  exact exists_congr fun x => and_congr_right fun hx => h x hx

/-- **The typed nodes at a selection and below it** are the fields that a path leads to from it. -/
theorem Selection.mem_typedNodes_iff_leads {first : Nat} (path : List Nat) :
    ∀ (x : Selection) (enclosing : List (Option TypeDef)) (steps : List Nat),
      (∀ turn ∈ x.turns s enclosing ⟨n, .within k steps⟩, turn.Recorded s first t) →
      (⟨n, .within k (steps ++ path)⟩ ∈ typedNodes (x.turns s enclosing ⟨n, .within k steps⟩) ↔
        t.Leads n k steps (.ofSelection x) path) := by
  induction path with
  | nil =>
    intro x enclosing steps _
    rw [Typing.leads_nil]
    cases x with
    | field head selections =>
      rw [mem_typedNodes_field]
      simp [Node.ofSelection]
    | spread | inlineFragment => simp [turns, Node.ofSelection]
  | cons i more ih =>
    intro x enclosing steps hrec
    rw [Typing.leads_cons]
    cases x with
    | spread => simp [turns, Node.ofSelection, Node.selections, Node.selections?]
    | inlineFragment => simp [turns, Node.ofSelection, Typing.Passes, Node.isFragment]
    | field head selections =>
      have hfield : t.HasField s first enclosing ⟨n, .within k steps⟩ head.name :=
        hrec _ List.mem_cons_self
      have hbelow : ∀ inner, s.inside? enclosing head.name = some inner →
          (⟨n, .within k (steps ++ i :: more)⟩ ∈
              typedNodes (turnsFrom s inner ⟨n, .within k steps⟩ 0 selections) ↔
            ∃ y, selections[i]? = some y ∧ t.Leads n k (steps ++ [i]) (.ofSelection y) more) := by
        intro inner hin
        refine mem_typedNodes_inside fun y hy => ih y inner (steps ++ [i]) fun turn hturn => ?_
        refine hrec turn ?_
        rw [turns, hin]
        refine List.mem_cons_of_mem _ (List.mem_append_left _ ?_)
        exact mem_turnsFrom selections 0 i hy (by rwa [Nat.zero_add])
      rw [mem_typedNodes_field, Node.ofSelection, hfield.passes_iff]
      constructor
      · rintro (hnil | ⟨inner, hin, hmem⟩)
        · cases hnil
        · exact ⟨⟨inner, hin⟩, (hbelow inner hin).mp hmem⟩
      · rintro ⟨⟨inner, hin⟩, hleads⟩
        exact Or.inr ⟨inner, hin, (hbelow inner hin).mpr hleads⟩

/-! ### From the document down -/

/-- The variables of an operation are all typed. -/
theorem VariableDef.mem_typedNodes_iff (vs : List VariableDef) (i : Nat) :
    id ∈ typedNodes (turnsFrom enclosing ⟨n, .within k steps⟩ i vs) ↔
      ∃ j v, vs[j]? = some v ∧ id = ⟨n, .variable k (i + j)⟩ := by
  induction vs generalizing i with
  | nil => simp [turnsFrom]
  | cons v rest ih =>
    rw [turnsFrom, typedNodes_enterVariable, List.mem_cons, ih (i + 1)]
    constructor
    · rintro (rfl | ⟨j, w, hw, rfl⟩)
      · exact ⟨0, v, rfl, rfl⟩
      · exact ⟨j + 1, w, hw, by rw [Nat.add_assoc, Nat.add_comm 1]⟩
    · rintro ⟨j, w, hw, rfl⟩
      cases j with
      | zero => exact Or.inl rfl
      | succ j => exact Or.inr ⟨j, w, hw, by rw [Nat.add_assoc, Nat.add_comm 1]⟩

/-- The typed nodes of an operation are its variables and the fields that a path leads to from it. -/
theorem Operation.mem_typedNodes_iff {o : Operation} {root : TypeDef} {first : Nat}
    (hroot : s.root? o.kind = some root) (hnone : t.typedAt? ⟨n, .within k []⟩ = none)
    (hrec : ∀ turn ∈ o.turns s enclosing ⟨n, .within k []⟩, turn.Recorded s first t) :
    id ∈ typedNodes (o.turns s enclosing ⟨n, .within k []⟩) ↔
      (∃ j v, o.variableDefs[j]? = some v ∧ id = ⟨n, .variable k j⟩) ∨
        ∃ path, t.Leads n k [] (.operation o) path ∧ id = ⟨n, .within k path⟩ := by
  have hpasses : t.Passes n k [] (.operation o) := by
    refine ⟨rfl, fun f hf => ?_⟩
    rw [hnone] at hf
    cases hf
  have hbelow : ∀ i more, ⟨n, .within k (i :: more)⟩ ∈
      typedNodes (Selection.turnsFrom s (some root :: enclosing) ⟨n, .within k []⟩ 0 o.selections) ↔
        t.Leads n k [] (.operation o) (i :: more) := by
    intro i more
    rw [Typing.leads_cons]
    refine (Selection.mem_typedNodes_inside (t := t) fun x hx => ?_).trans
      (by simp [hpasses, Node.selections, Node.selections?])
    refine Selection.mem_typedNodes_iff_leads more x _ _ fun turn hturn => hrec turn ?_
    exact mem_turns_of_selections hroot
      (Selection.mem_turnsFrom o.selections 0 i hx (by rwa [Nat.zero_add]))
  rw [typedNodes_turns_root hroot, turnsInside, typedNodes_append, List.mem_append,
    VariableDef.mem_typedNodes_iff]
  simp only [Nat.zero_add]
  refine or_congr_right ⟨?_, ?_⟩
  · intro hid
    obtain ⟨i, more, _, rfl⟩ := Selection.path_of_typed _ _ _ _ _ hid
    exact ⟨i :: more, (hbelow i more).mp hid, rfl⟩
  · rintro ⟨path, hleads, rfl⟩
    cases path with
    | nil =>
      obtain ⟨_, _, hnode⟩ := Typing.leads_nil.mp hleads
      cases hnode
    | cons i more => exact (hbelow i more).mpr hleads

/-- A node of a document is **in reach** of a typing if it is a variable of an operation, or a field
all nodes above which are passed. -/
inductive Document.InReach (d : Document) (t : Typing) (n : Nat) : NodeId → Prop
  | ofVariable {k i : Nat} {v : VariableDef} (h : d.node? (.variable k i) = some (.variable v)) :
    InReach d t n ⟨n, .variable k i⟩
  | ofField {k : Nat} {steps : List Nat} {head : FieldHead} {selections : List Selection}
    (h : d.node? (.within k steps) = some (.field head selections))
    (habove : ∀ m < steps.length, ∀ above, d.node? (.within k (steps.take m)) = some above →
      t.Passes n k (steps.take m) above) :
    InReach d t n ⟨n, .within k steps⟩

namespace Document

theorem node?_variable_eq_some_iff {v : VariableDef} :
    d.node? (.variable k i) = some (.variable v) ↔
      ∃ o, d.definitions[k]? = some (.operation o) ∧ o.variableDefs[i]? = some v := by
  rw [node?]
  cases hget : d.definitions[k]? with
  | none => simp
  | some definition =>
    cases definition with
    | operation o => simp
    | fragment | typeSystem => simp

/-- Only from operations do paths lead to fields. -/
theorem exists_operation_of_leads {definition : Definition}
    (h : t.Leads n k [] definition.node steps) : ∃ o, definition = .operation o := by
  cases steps with
  | nil =>
    obtain ⟨_, _, hnode⟩ := Typing.leads_nil.mp h
    cases definition <;> cases hnode
  | cons i more =>
    obtain ⟨hpasses, x, hx, _⟩ := Typing.leads_cons.mp h
    cases definition with
    | operation o => exact ⟨o, rfl⟩
    | fragment => cases hpasses.1
    | typeSystem => cases hx

/-- The nodes in reach, operation by operation. -/
theorem inReach_iff : d.InReach t n id ↔
    ∃ k o, d.definitions[k]? = some (.operation o) ∧
      ((∃ j v, o.variableDefs[j]? = some v ∧ id = ⟨n, .variable k j⟩) ∨
        ∃ path, t.Leads n k [] (.operation o) path ∧ id = ⟨n, .within k path⟩) := by
  constructor
  · intro h
    cases h with
    | @ofVariable k i v h =>
      obtain ⟨o, hget, hv⟩ := node?_variable_eq_some_iff.mp h
      exact ⟨k, o, hget, Or.inl ⟨i, v, hv, rfl⟩⟩
    | @ofField k steps head selections h habove =>
      obtain ⟨definition, hget, hend⟩ := Option.bind_eq_some_iff.mp h
      have hleads : t.Leads n k [] definition.node steps :=
        ⟨⟨head, selections, hend⟩, fun m hm above hx =>
          habove m hm above ((node?_within hget).trans hx)⟩
      obtain ⟨o, rfl⟩ := exists_operation_of_leads hleads
      exact ⟨k, o, hget, Or.inr ⟨steps, hleads, rfl⟩⟩
  · rintro ⟨k, o, hget, ⟨j, v, hv, rfl⟩ | ⟨path, ⟨⟨head, below, hend⟩, habove⟩, rfl⟩⟩
    · exact .ofVariable (node?_variable_eq_some_iff.mpr ⟨o, hget, hv⟩)
    · refine .ofField ((node?_within hget).trans hend) fun m hm above hx => ?_
      exact habove m hm above ((node?_within hget).symm.trans hx)

namespace HasTyping

theorem typedAt?_eq_none (h : d.HasTyping s n t) (hid : id ∉ typedNodes (d.turns s n)) :
    t.typedAt? id = none := by
  rw [← h.record?_isSome_iff, Option.not_isSome_iff_eq_none] at hid
  rw [Typing.typedAt?, hid]
  rfl

/-- **The nodes with a record** are those in reach. -/
theorem record?_isSome_iff_inReach (h : d.HasTyping s n t) :
    (t.record? id).isSome ↔ d.InReach t n id := by
  have hone : ∀ k o, d.definitions[k]? = some (.operation o) →
      (id ∈ typedNodes (o.turns s [] ⟨n, .within k []⟩) ↔
        (∃ j v, o.variableDefs[j]? = some v ∧ id = ⟨n, .variable k j⟩) ∨
          ∃ path, t.Leads n k [] (.operation o) path ∧ id = ⟨n, .within k path⟩) := by
    intro k o hget
    obtain ⟨root, hroot⟩ := h.exists_root hget
    exact Operation.mem_typedNodes_iff hroot (h.typedAt?_eq_none d.definition_not_typed)
      fun turn hturn => h.recorded turn (mem_turns_of_operation hget hturn)
  rw [h.record?_isSome_iff, inReach_iff, mem_typedNodes]
  constructor
  · rintro ⟨turn, hturn, hid⟩
    obtain ⟨x, hx, hturn⟩ := mem_turns.mp hturn
    obtain ⟨k, hget, hnode⟩ := mem_operationNodes.mp hx
    rw [hnode] at hturn
    exact ⟨k, x.2, hget, (hone k x.2 hget).mp (mem_typedNodes.mpr ⟨turn, hturn, hid⟩)⟩
  · rintro ⟨k, o, hget, hcases⟩
    obtain ⟨turn, hturn, hid⟩ := mem_typedNodes.mp ((hone k o hget).mpr hcases)
    exact ⟨turn, mem_turns_of_operation hget hturn, hid⟩

/-- A node in reach has a record, and the record a typed field. -/
theorem exists_record? (h : d.HasTyping s n t) (hid : d.InReach t n id) :
    ∃ r f, t.record? id = some r ∧ t.field? r = some f := by
  obtain ⟨r, hr⟩ := Option.isSome_iff_exists.mp (h.record?_isSome_iff_inReach.mpr hid)
  obtain ⟨f, hf⟩ := h.exists_field? hr
  exact ⟨r, f, hr, hf⟩

/-- A node out of reach is not found. -/
theorem not_found (h : d.HasTyping s n t) (hid : ¬ d.InReach t n id) (node : Node) :
    t.record? id = none ∧
      t.typedField id node = .error (.noTypedField node.kindText node.span) := by
  rw [← h.record?_isSome_iff_inReach, Option.not_isSome_iff_eq_none] at hid
  rw [Typing.typedField, hid]
  exact ⟨rfl, rfl⟩

theorem typedAt?_iff_inReach (h : d.HasTyping s n t) :
    (∃ f, t.typedAt? id = some f) ↔ d.InReach t n id := by
  constructor
  · rintro ⟨f, hf⟩
    obtain ⟨r, hr, _⟩ := Option.bind_eq_some_iff.mp hf
    exact h.record?_isSome_iff_inReach.mp (by rw [hr]; rfl)
  · intro hid
    obtain ⟨r, f, hr, hf⟩ := h.exists_record? hid
    exact ⟨f, by rw [Typing.typedAt?, hr, Option.bind_some, hf]⟩

theorem typedField_ok_iff (h : d.HasTyping s n t) (node : Node) :
    (∃ r f, t.typedField id node = .ok r ∧ t.field? r = some f) ↔ d.InReach t n id := by
  constructor
  · rintro ⟨r, f, hr, _⟩
    by_contra hid
    rw [(h.not_found hid node).2] at hr
    cases hr
  · intro hid
    obtain ⟨r, f, hr, hf⟩ := h.exists_record? hid
    exact ⟨r, f, by rw [Typing.typedField, hr], hf⟩

theorem typedField_error_iff (h : d.HasTyping s n t) (node : Node) :
    t.typedField id node = .error (.noTypedField node.kindText node.span) ↔
      ¬ d.InReach t n id := by
  refine ⟨fun herror hid => ?_, fun hid => (h.not_found hid node).2⟩
  obtain ⟨r, _, hr, _⟩ := h.exists_record? hid
  rw [Typing.typedField, hr] at herror
  cases herror

end HasTyping

theorem InReach.document_eq (h : d.InReach t n id) : id.document = n := by
  cases h <;> rfl

/-! ### Looking up -/

/-- **Exactly the right nodes are found** in the typing of a document.  The nodes with a typed field
are those in reach, and looking up any other fails with what it is and where it stands; each operation
has its root fields and its variables.  Nodes are told apart by identity: nothing of another document
is found, be it one of the same text, and no two nodes share a record. -/
theorem lookups (s : Schema) (n : Nat) (d : Document) (p : Pass)
    (h : (typeDocument s n d).run {} = .ok ⟨⟩ p) :
    (∀ id, (∃ f, p.typing.typedAt? id = some f) ↔ d.InReach p.typing n id) ∧
    (∀ id node, (∃ r f, p.typing.typedField id node = .ok r ∧ p.typing.field? r = some f) ↔
      d.InReach p.typing n id) ∧
    (∀ id node, p.typing.typedField id node = .error (.noTypedField node.kindText node.span) ↔
      ¬ d.InReach p.typing n id) ∧
    (∀ k o, d.definitions[k]? = some (.operation o) →
      (∃ fields, p.typing.fieldsOf ⟨n, .within k []⟩ (.operation o) = .ok fields) ∧
      ∃ defined, p.typing.variablesOf ⟨n, .within k []⟩ (.operation o) = .ok defined) ∧
    (∀ id node, id.document ≠ n → p.typing.record? id = none ∧
      p.typing.typedField id node = .error (.noTypedField node.kindText node.span)) ∧
    (∀ id o, id.document ≠ n →
      p.typing.fieldsOf id (.operation o) = .error (.foreignOperation o.name) ∧
      p.typing.variablesOf id (.operation o) = .error (.foreignOperation o.name)) ∧
    ∀ id id' r, p.typing.record? id = some r → p.typing.record? id' = some r → id = id' := by
  have ht : d.HasTyping s n p.typing := hasTyping_of_typeDocument h
  refine ⟨fun id => ht.typedAt?_iff_inReach, fun id node => ht.typedField_ok_iff node,
    fun id node => ht.typedField_error_iff node, ?_, ?_, ?_, fun id id' r => ht.eq_of_record?⟩
  · intro k o hget
    have hx : (⟨n, .within k []⟩, o) ∈ d.operationNodes n :=
      mem_operationNodes.mpr ⟨k, hget, rfl⟩
    obtain ⟨fields, hfields, _⟩ := ht.exists_fieldsOf hx
    obtain ⟨defined, hdefined, _⟩ := ht.exists_variablesOf hx
    exact ⟨⟨fields, hfields⟩, ⟨defined, hdefined⟩⟩
  · exact fun id node hid => ht.not_found (fun hin => hid hin.document_eq) node
  · intro id o hid
    refine ht.noted_of_foreign (fun x hx heq => ?_) o
    obtain ⟨k, _, hnode⟩ := mem_operationNodes.mp hx
    rw [← heq, hnode] at hid
    exact hid rfl

/-- Two parses of one text: what stands in both is found only in the one that was typed. -/
theorem lookups_of_two_parses :
    ∃ p, (typeDocument Sample.schema 3 (Sample.document "friend" "name")).run {} = .ok ⟨⟩ p ∧
      (Sample.document "friend" "name").InReach p.typing 3 ⟨3, .within 0 [0, 0, 0]⟩ ∧
      p.typing.record? ⟨3, .within 0 [0, 0, 0]⟩ = some 3 ∧
      p.typing.record? ⟨4, .within 0 [0, 0, 0]⟩ = none := by
  obtain ⟨p, f, hp, hf, hr⟩ : ∃ p f,
      (typeDocument Sample.schema 3 (Sample.document "friend" "name")).run {} = .ok ⟨⟩ p ∧
      p.typing.typedAt? ⟨3, .within 0 [0, 0, 0]⟩ = some f ∧
      p.typing.record? ⟨3, .within 0 [0, 0, 0]⟩ = some 3 := ⟨_, _, rfl, rfl, rfl⟩
  obtain ⟨hreach, _, _, _, hforeign, _⟩ :=
    lookups Sample.schema 3 (Sample.document "friend" "name") p hp
  refine ⟨p, hp, (hreach _).mp ⟨f, hf⟩, hr, (hforeign ⟨4, .within 0 [0, 0, 0]⟩ ?_ ?_).1⟩
  · exact .field (Sample.head "name") []
  · decide

end Document

end GraphQLTyping
