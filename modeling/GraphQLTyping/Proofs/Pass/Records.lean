import GraphQLTyping.Proofs.InputLists.Resolution
import GraphQLTyping.Proofs.Pass.Places
import GraphQLTyping.Proofs.Typing.Growth

/-!
# What turns leave in a typing

After a row of turns every one of them is **recorded** (`Turn.Recorded`): a variable is typed by its
type, a field by what encloses it, and a field of object type that was left has the records of the
fields selected in it below its own.  All records are new, what was there stays as it was, and only
complete lists of input fields are added (`Grown`).

Rows of turns that type different nodes can be put together (`Grown.append`): the later ones leave
alone what the earlier ones recorded, as they neither type one of their nodes again nor change a
record that they did not make.
-/

namespace GraphQLTyping

variable {s : Schema} {t t' t'' : Typing} {first : Nat} {id : NodeId} {ids : List NodeId}

namespace Typing

/-- A variable definition is typed by its type, and by the shared list of its type if that is an
input object type. -/
def HasVariable (s : Schema) (t : Typing) (first : Nat) (id : NodeId) (v : VariableDef) : Prop :=
  ∃ shape bare children, v.type.simpleShape = .ok shape ∧ s.type? shape.name = some bare ∧
    t.Typed first id { TypedField.ofVariable v.name shape bare with children } ∧
    (bare.inputResolution = .object →
      ∃ list, t.inputs.find? bare.name = some list ∧ children = .shared list) ∧
    (bare.inputResolution ≠ .object → children = .none)

/-- A field is typed by the types that enclose it.  What stands below it is left open if it has
object type. -/
def HasField (s : Schema) (t : Typing) (first : Nat) (enclosing : List (Option TypeDef))
    (id : NodeId) (name : String) : Prop :=
  ∃ f children, s.typedInside? enclosing name = some f ∧
    t.Typed first id { f with children } ∧ (f.resolution ≠ .object → children = .none)

/-- A field of object type has the records of the fields selected in it below its own, and all of
them have one. -/
def HasChildren (t : Typing) (first : Nat) (id : NodeId) (selections : List Selection) : Prop :=
  ∃ f, t.Typed first id f ∧ (f.resolution = .object →
    (∀ child ∈ selectedFields id selections, (t.record? child.1).isSome) ∧
    f.children =
      .selected ((selectedFields id selections).filterMap fun child => t.record? child.1))

end Typing

/-- A turn is **recorded** in a typing, in none of the first records. -/
def Turn.Recorded (s : Schema) (first : Nat) (t : Typing) (turn : Turn) : Prop :=
  match turn.move with
  | .enterOperation .. | .leaveOperation .. => True
  | .enterVariable id v => t.HasVariable s first id v
  | .enterField id head _ => t.HasField s first turn.enclosing id head.name
  | .leaveField id _ selections => t.HasChildren first id selections

/-- What a row of turns does to a typing: it adds complete lists of input fields and new records,
and all its turns are recorded then. -/
structure Grown (s : Schema) (turns : List Turn) (t t' : Typing) : Prop where
  inputs : InputLists.Adds s t.inputs t'.inputs
  extended : t.Extends t' (typedNodes turns)
  recorded : ∀ turn ∈ turns, turn.Recorded s t.records.size t'

/-! ### What stays recorded -/

namespace Typing

theorem HasVariable.mono {v : VariableDef} (h : t.HasVariable s first id v)
    (he : t.Extends t' ids) (hn : t.inputs.names <+: t'.inputs.names) (hid : id ∉ ids) :
    t'.HasVariable s first id v := by
  obtain ⟨shape, bare, children, hs, hb, ht, ho, hno⟩ := h
  refine ⟨shape, bare, children, hs, hb, ht.mono he hid, ?_, hno⟩
  intro hr
  obtain ⟨list, hl, hc⟩ := ho hr
  exact ⟨list, InputLists.find?_of_names_prefix hn hl, hc⟩

theorem HasField.mono {enclosing : List (Option TypeDef)} {name : String}
    (h : t.HasField s first enclosing id name) (he : t.Extends t' ids) (hid : id ∉ ids) :
    t'.HasField s first enclosing id name := by
  obtain ⟨f, children, hf, ht, hno⟩ := h
  exact ⟨f, children, hf, ht.mono he hid, hno⟩

theorem HasChildren.mono {selections : List Selection} (h : t.HasChildren first id selections)
    (he : t.Extends t' ids) (hid : id ∉ ids)
    (hc : ∀ child ∈ selectedFields id selections, child.1 ∉ ids) :
    t'.HasChildren first id selections := by
  obtain ⟨f, ht, ho⟩ := h
  refine ⟨f, ht.mono he hid, ?_⟩
  intro hr
  obtain ⟨hsome, heq⟩ := ho hr
  refine ⟨?_, ?_⟩
  · intro child hchild
    rw [he.record?_eq child.1 (hc child hchild)]
    exact hsome child hchild
  · rw [heq]
    congr 1
    apply List.filterMap_congr
    intro child hchild
    exact (he.record?_eq child.1 (hc child hchild)).symm

end Typing

namespace Turn

variable {turn : Turn}

theorem Recorded.mono (h : turn.Recorded s first t) (he : t.Extends t' ids)
    (hn : t.inputs.names <+: t'.inputs.names) (hids : ∀ id ∈ turn.move.nodes, id ∉ ids) :
    turn.Recorded s first t' := by
  obtain ⟨move, enclosing⟩ := turn
  cases move with
  | enterOperation | leaveOperation => trivial
  | enterVariable id v => exact Typing.HasVariable.mono h he hn (hids id List.mem_cons_self)
  | enterField id head selections =>
    exact Typing.HasField.mono h he (hids id List.mem_cons_self)
  | leaveField id head selections =>
    refine Typing.HasChildren.mono h he (hids id List.mem_cons_self) ?_
    intro child hchild
    exact hids child.1 (List.mem_cons_of_mem _ (List.mem_map_of_mem hchild))

theorem Recorded.le {first' : Nat} (h : turn.Recorded s first' t) (hle : first ≤ first') :
    turn.Recorded s first t := by
  obtain ⟨move, enclosing⟩ := turn
  cases move with
  | enterOperation | leaveOperation => trivial
  | enterVariable id v =>
    obtain ⟨shape, bare, children, hs, hb, ht, h⟩ := h
    exact ⟨shape, bare, children, hs, hb, ht.le hle, h⟩
  | enterField id head selections =>
    obtain ⟨f, children, hf, ht, hno⟩ := h
    exact ⟨f, children, hf, ht.le hle, hno⟩
  | leaveField id head selections =>
    obtain ⟨f, ht, ho⟩ := h
    exact ⟨f, ht.le hle, ho⟩

/-- Putting records below one of the first records changes nothing for later ones. -/
theorem Recorded.setChildren {r : RecordId} (h : turn.Recorded s first t) (hr : r < first)
    (children : List RecordId) : turn.Recorded s first (t.setChildren r children) := by
  obtain ⟨move, enclosing⟩ := turn
  cases move with
  | enterOperation | leaveOperation => trivial
  | enterVariable id v =>
    obtain ⟨shape, bare, below, hs, hb, ht, h⟩ := h
    exact ⟨shape, bare, below, hs, hb, ht.setChildren_of_lt hr children, h⟩
  | enterField id head selections =>
    obtain ⟨f, below, hf, ht, hno⟩ := h
    exact ⟨f, below, hf, ht.setChildren_of_lt hr children, hno⟩
  | leaveField id head selections =>
    obtain ⟨f, ht, ho⟩ := h
    exact ⟨f, ht.setChildren_of_lt hr children, ho⟩

end Turn

/-! ### Rows of turns -/

theorem grown_nil (s : Schema) (t : Typing) : Grown s [] t t := by
  refine ⟨InputLists.Adds.refl s _, Typing.Extends.refl t _, ?_⟩
  intro turn hturn
  cases hturn

/-- **Rows of turns in a row**, of which the first is closed and no node is typed twice. -/
theorem Grown.append {a b : List Turn} (ha : Grown s a t t') (hb : Grown s b t' t'')
    (hc : Closed a) (hn : (typedNodes (a ++ b)).Nodup) : Grown s (a ++ b) t t'' := by
  rw [typedNodes_append] at hn
  refine ⟨ha.inputs.trans hb.inputs, ?_, ?_⟩
  · rw [typedNodes_append]
    exact ha.extended.trans hb.extended
  · intro turn hturn
    rcases List.mem_append.mp hturn with h | h
    · refine (ha.recorded turn h).mono hb.extended hb.inputs.names_prefix ?_
      intro id hid
      exact List.disjoint_of_nodup_append hn (hc turn h id hid)
    · exact (hb.recorded turn h).le ha.extended.size_le

/-- All nodes that turns type have records then. -/
theorem Grown.isSome {turns : List Turn} (h : Grown s turns t t') (hid : id ∈ typedNodes turns) :
    (t'.record? id).isSome := by
  obtain ⟨turn, hturn, htyped⟩ := mem_typedNodes.mp hid
  have hrec := h.recorded turn hturn
  obtain ⟨move, enclosing⟩ := turn
  cases move with
  | enterOperation | leaveOperation | leaveField => cases htyped
  | enterVariable id v =>
    cases htyped
    obtain ⟨shape, bare, children, _, _, ht, _⟩ := hrec
    exact ht.isSome
  | enterField id head selections =>
    cases htyped
    obtain ⟨f, children, _, ht, _⟩ := hrec
    exact ht.isSome

/-! ### Single turns -/

variable {enclosing inner : List (Option TypeDef)} {head : FieldHead} {selections : List Selection}
  {f : TypedField} {inside : List Turn}

theorem grown_enterVariable {v : VariableDef} {shape : Shape} {bare : TypeDef} {l : InputLists}
    {children : Children} (hs : v.type.simpleShape = .ok shape)
    (hb : s.type? shape.name = some bare) (ha : InputLists.Adds s t.inputs l)
    (ho : bare.inputResolution = .object →
      ∃ list, l.find? bare.name = some list ∧ children = .shared list)
    (hno : bare.inputResolution ≠ .object → children = .none) :
    Grown s [⟨.enterVariable id v, enclosing⟩] t
      ({ t with inputs := l }.addVariable id
        { TypedField.ofVariable v.name shape bare with children }) := by
  have hext := Typing.extends_add t id { TypedField.ofVariable v.name shape bare with children }
  refine ⟨ha, ⟨hext.size_le, hext.field?_eq, hext.record?_eq⟩, ?_⟩
  intro turn hturn
  rw [List.mem_singleton.mp hturn]
  exact ⟨shape, bare, children, hs, hb, Typing.typed_add { t with inputs := l } id _, ho, hno⟩

/-- A field that is entered and has no turns below it. -/
theorem grown_enterField (hf : s.typedInside? enclosing head.name = some f)
    (hc : f.children = .none) :
    Grown s [⟨.enterField id head selections, enclosing⟩] t (t.add id f) := by
  refine ⟨InputLists.Adds.refl s _, Typing.extends_add t id f, ?_⟩
  intro turn hturn
  rw [List.mem_singleton.mp hturn]
  exact ⟨f, f.children, hf, Typing.typed_add t id f, fun _ => hc⟩

/-- The turns inside a field leave the field's own record alone. -/
theorem Grown.own_record (h : Grown s inside (t.add id f) t') (hid : id ∉ typedNodes inside) :
    t'.record? id = some t.records.size ∧ t'.field? t.records.size = some f := by
  refine ⟨?_, ?_⟩
  · rw [h.extended.record?_eq id hid, Typing.record?_add_self]
  · rw [h.extended.field?_eq _ (Typing.lt_size_of_field? Typing.field?_add_size),
      Typing.field?_add_size]

theorem Grown.extended_field (h : Grown s inside (t.add id f) t') :
    t.Extends t' (typedNodes
      (⟨.enterField id head selections, enclosing⟩ ::
        (inside ++ [⟨.leaveField id head selections, inner⟩]))) := by
  rw [typedNodes_enterField, typedNodes_append, typedNodes_leaveField, typedNodes_nil,
    List.append_nil]
  exact (Typing.extends_add t id f).trans h.extended

/-- A field without object type that is left again: nothing is put below it. -/
theorem Grown.leave_leaf (h : Grown s inside (t.add id f) t') (hid : id ∉ typedNodes inside)
    (hf : s.typedInside? enclosing head.name = some f) (hc : f.children = .none)
    (hr : f.resolution ≠ .object) :
    Grown s (⟨.enterField id head selections, enclosing⟩ ::
      (inside ++ [⟨.leaveField id head selections, inner⟩])) t t' := by
  obtain ⟨hrec, hfield⟩ := h.own_record hid
  have htyped : t'.Typed t.records.size id f := ⟨_, Nat.le_refl _, hrec, hfield⟩
  refine ⟨h.inputs, h.extended_field, ?_⟩
  intro turn hturn
  rw [List.mem_cons, List.mem_append, List.mem_singleton] at hturn
  rcases hturn with rfl | hturn | rfl
  · exact ⟨f, f.children, hf, htyped, fun _ => hc⟩
  · exact (h.recorded turn hturn).le (Typing.extends_add t id f).size_le
  · exact ⟨f, htyped, fun ho => absurd ho hr⟩

/-- A field of object type that is left again: the records of what is selected in it are put below
its own. -/
theorem Grown.leave_object (h : Grown s inside (t.add id f) t') (hid : id ∉ typedNodes inside)
    (hf : s.typedInside? enclosing head.name = some f) (hr : f.resolution = .object)
    (hsome : ∀ child ∈ selectedFields id selections, (t'.record? child.1).isSome) :
    Grown s (⟨.enterField id head selections, enclosing⟩ ::
      (inside ++ [⟨.leaveField id head selections, inner⟩])) t
      (t'.setChildren t.records.size
        ((selectedFields id selections).filterMap fun child => t'.record? child.1)) := by
  obtain ⟨hrec, hfield⟩ := h.own_record hid
  have htyped : (t'.setChildren t.records.size
      ((selectedFields id selections).filterMap fun child => t'.record? child.1)).Typed
      t.records.size id { f with
        children := .selected
          ((selectedFields id selections).filterMap fun child => t'.record? child.1) } := by
    refine ⟨_, Nat.le_refl _, hrec, ?_⟩
    rw [Typing.field?_setChildren, if_pos rfl, hfield]
    rfl
  refine ⟨h.inputs, h.extended_field.setChildren (Nat.le_refl _) _, ?_⟩
  intro turn hturn
  rw [List.mem_cons, List.mem_append, List.mem_singleton] at hturn
  rcases hturn with rfl | hturn | rfl
  · exact ⟨f, _, hf, htyped, fun ho => absurd hr ho⟩
  · -- the turns inside have later records than that of the field, and theirs stay as they are
    have hlt : t.records.size < (t.add id f).records.size :=
      Typing.lt_size_of_field? Typing.field?_add_size
    exact ((h.recorded turn hturn).setChildren hlt _).le (Nat.le_of_lt hlt)
  · exact ⟨_, htyped, fun _ => ⟨hsome, rfl⟩⟩

/-- An operation around what is inside it: its root fields and its variables are noted, which changes
no record. -/
theorem Grown.leave_operation {o : Operation} (h : Grown s inside t t')
    (fields defined : List (NodeId × List RecordId)) :
    Grown s (⟨.enterOperation id o, enclosing⟩ :: (inside ++ [⟨.leaveOperation id o, inner⟩])) t
      { t' with operationFields := fields, operationVariables := defined } := by
  have hsame : t'.Extends { t' with operationFields := fields, operationVariables := defined } [] :=
    ⟨Nat.le_refl _, fun _ _ => rfl, fun _ _ => rfl⟩
  refine ⟨h.inputs, ?_, ?_⟩
  · rw [typedNodes_enterOperation, typedNodes_append, typedNodes_leaveOperation, typedNodes_nil]
    exact h.extended.trans hsame
  · intro turn hturn
    rw [List.mem_cons, List.mem_append, List.mem_singleton] at hturn
    rcases hturn with rfl | hturn | rfl
    · trivial
    · exact (h.recorded turn hturn).mono hsame List.prefix_rfl fun _ _ => List.not_mem_nil
    · trivial

end GraphQLTyping
