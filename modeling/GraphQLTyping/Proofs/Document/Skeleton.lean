import Mathlib.Data.List.Basic
import GraphQLTyping.Proofs.Pass.Turn

/-!
# The field skeleton of a document

The **skeleton** of a document is the document that is left when everything is taken out of it but its
operations, the names and types of their variables, and the fields they select, each with nothing but
its name and the fields in it (`Document.skeleton`).  Fragments go, spread or inline, with all that is
in them, and so do type systems, aliases, arguments, directives and defaults; and a field keeps no
selections if a walk would not go into it, as it has no resolution or is not there at all.

A node that stays stands at another place then, as only operations and fields are counted.  Its place
in the skeleton (`Document.place?`) is told from the document alone; different nodes have different
places (`Document.eq_of_place?`).
-/

namespace GraphQLTyping

variable {s : Schema} {enclosing inner : List (Option TypeDef)} {d : Document} {head : FieldHead}
  {selections rest : List Selection} {i j k : Nat}

/-! ### Skeletons -/

/-- What a field says that says nothing but its name. -/
def FieldHead.ofName (name : String) : FieldHead := ⟨default, name, name, [], []⟩

mutual

/-- The skeleton of a selection, which is one if it is a field. -/
def Selection.skeleton (s : Schema) (enclosing : List (Option TypeDef)) :
    Selection → List Selection
  | .field head selections =>
    [.field (.ofName head.name)
      (match s.inside? enclosing head.name with
        | none => []
        | some inner => Selection.skeletons s inner selections)]
  | .spread _ => []
  | .inlineFragment .. => []

/-- The skeletons of selections. -/
def Selection.skeletons (s : Schema) (enclosing : List (Option TypeDef)) :
    List Selection → List Selection
  | [] => []
  | selection :: rest =>
    selection.skeleton s enclosing ++ Selection.skeletons s enclosing rest

end

/-- The skeleton of a variable definition: its name and its type. -/
def VariableDef.skeleton (v : VariableDef) : VariableDef :=
  ⟨Inhabited.default, v.name, v.type, none, []⟩

/-- The skeleton of an operation. -/
def Operation.skeleton (s : Schema) (o : Operation) : Operation :=
  ⟨default, o.kind, none, o.variableDefs.map (·.skeleton), [],
    Selection.skeletons s ((s.root? o.kind).toList.map some) o.selections⟩

/-- The skeletons of the operations among definitions. -/
def Definition.skeletons (s : Schema) : List Definition → List Definition
  | [] => []
  | .operation o :: rest => .operation (o.skeleton s) :: Definition.skeletons s rest
  | _ :: rest => Definition.skeletons s rest

/-- The **skeleton** of a document. -/
def Document.skeleton (s : Schema) (d : Document) : Document := ⟨Definition.skeletons s d.definitions⟩

namespace Selection

@[simp] theorem skeletons_nil : skeletons s enclosing [] = [] := by
  rw [skeletons]

theorem skeletons_over (h : s.inside? enclosing head.name = none) :
    skeletons s enclosing (.field head selections :: rest) =
      .field (.ofName head.name) [] :: skeletons s enclosing rest := by
  rw [skeletons, skeleton, h]
  rfl

theorem skeletons_into (h : s.inside? enclosing head.name = some inner) :
    skeletons s enclosing (.field head selections :: rest) =
      .field (.ofName head.name) (skeletons s inner selections) :: skeletons s enclosing rest := by
  rw [skeletons, skeleton, h]
  rfl

theorem skeletons_other {selection : Selection} (h : selection.isField = false) :
    skeletons s enclosing (selection :: rest) = skeletons s enclosing rest := by
  cases selection with
  | field => cases h
  | spread | inlineFragment => rw [skeletons, skeleton, List.nil_append]

end Selection

/-! ### Places -/

/-- Whether a definition is an operation. -/
def Definition.isOperation : Definition → Bool
  | .operation _ => true
  | _ => false

/-- Where the node that steps lead to through selections stands in their skeleton, if it is a field
with nothing but fields above. -/
def Selection.place? (selections : List Selection) : List Nat → Option (List Nat)
  | [] => some []
  | i :: steps =>
    match selections[i]? with
    | some (.field _ below) =>
      (Selection.place? below steps).map ((selections.take i).countP (·.isField) :: ·)
    | _ => none

/-- Where a node stands in the **skeleton** of its document if nothing above it is left out, or where
it would stand if a field above it has its selections left out. -/
def Document.place? (d : Document) : NodePath → Option NodePath
  | .within k steps =>
    match d.definitions[k]? with
    | some (.operation o) => (Selection.place? o.selections steps).map
        (.within ((d.definitions.take k).countP (·.isOperation)))
    | _ => none
  | .variable k i =>
    match d.definitions[k]? with
    | some (.operation o) =>
      if i < o.variableDefs.length then
        some (.variable ((d.definitions.take k).countP (·.isOperation)) i)
      else none
    | _ => none

/-- An element that counts is told from how many before it do. -/
theorem eq_of_countP_take {α : Type} {p : α → Bool} {l : List α} {x y : α} (hi : l[i]? = some x)
    (hx : p x = true) (hj : l[j]? = some y) (hy : p y = true)
    (h : (l.take i).countP p = (l.take j).countP p) : i = j := by
  have hlt : ∀ {a b : Nat} {z : α}, l[a]? = some z → p z = true → a < b →
      (l.take a).countP p < (l.take b).countP p := by
    intro a b z hz hp hab
    have hsucc : (l.take (a + 1)).countP p = (l.take a).countP p + 1 := by
      rw [List.take_add_one, hz, List.countP_append]
      simp [hp]
    have hle : (l.take (a + 1)).countP p ≤ (l.take b).countP p :=
      (List.take_sublist_take_left hab).countP_le
    omega
  rcases Nat.lt_trichotomy i j with hij | hij | hij
  · have := hlt hi hx hij
    omega
  · exact hij
  · have := hlt hj hy hij
    omega

namespace Selection

theorem place?_cons_eq_some {steps place : List Nat} :
    place? selections (i :: steps) = some place ↔
      ∃ head below more, selections[i]? = some (.field head below) ∧
        place? below steps = some more ∧
        place = (selections.take i).countP (·.isField) :: more := by
  rw [place?]
  split
  · next head below hget =>
    rw [Option.map_eq_some_iff, hget]
    constructor
    · rintro ⟨more, hmore, rfl⟩
      exact ⟨head, below, more, rfl, hmore, rfl⟩
    · rintro ⟨head', below', more, heq, hmore, rfl⟩
      cases heq
      exact ⟨more, hmore, rfl⟩
  · next hnone =>
    constructor
    · intro h
      cases h
    · rintro ⟨head, below, more, heq, _⟩
      exact absurd heq (hnone head below)

/-- **A field is told from its place.** -/
theorem eq_of_place? {steps steps' place : List Nat} (h : place? selections steps = some place)
    (h' : place? selections steps' = some place) : steps = steps' := by
  induction steps generalizing selections steps' place with
  | nil =>
    cases h
    cases steps' with
    | nil => rfl
    | cons j steps' =>
      obtain ⟨_, _, _, _, _, heq⟩ := place?_cons_eq_some.mp h'
      cases heq
  | cons i steps ih =>
    obtain ⟨head, below, more, hget, hmore, rfl⟩ := place?_cons_eq_some.mp h
    cases steps' with
    | nil => cases h'
    | cons j steps' =>
      obtain ⟨head', below', more', hget', hmore', heq⟩ := place?_cons_eq_some.mp h'
      obtain ⟨hcount, rfl⟩ := List.cons.inj heq
      obtain rfl := eq_of_countP_take hget rfl hget' rfl hcount
      rw [hget] at hget'
      cases hget'
      rw [ih hmore hmore']

end Selection

namespace Document

theorem place?_within_eq_some {steps : List Nat} {place : NodePath} :
    d.place? (.within k steps) = some place ↔
      ∃ o more, d.definitions[k]? = some (.operation o) ∧
        Selection.place? o.selections steps = some more ∧
        place = .within ((d.definitions.take k).countP (·.isOperation)) more := by
  rw [place?]
  split
  · next o hget =>
    rw [Option.map_eq_some_iff, hget]
    constructor
    · rintro ⟨more, hmore, rfl⟩
      exact ⟨o, more, rfl, hmore, rfl⟩
    · rintro ⟨o', more, heq, hmore, rfl⟩
      cases heq
      exact ⟨more, hmore, rfl⟩
  · next hnone =>
    constructor
    · intro h
      cases h
    · rintro ⟨o, more, heq, _⟩
      exact absurd heq (hnone o)

theorem place?_variable_eq_some {place : NodePath} :
    d.place? (.variable k i) = some place ↔
      ∃ o, d.definitions[k]? = some (.operation o) ∧ i < o.variableDefs.length ∧
        place = .variable ((d.definitions.take k).countP (·.isOperation)) i := by
  rw [place?]
  split
  · next o hget =>
    rw [Option.ite_none_right_eq_some, hget]
    constructor
    · rintro ⟨hlt, heq⟩
      exact ⟨o, rfl, hlt, (Option.some.inj heq).symm⟩
    · rintro ⟨o', heq, hlt, rfl⟩
      cases heq
      exact ⟨hlt, rfl⟩
  · next hnone =>
    constructor
    · intro h
      cases h
    · rintro ⟨o, heq, _⟩
      exact absurd heq (hnone o)

/-- **A node is told from its place in the skeleton.** -/
theorem eq_of_place? {path path' place : NodePath} (h : d.place? path = some place)
    (h' : d.place? path' = some place) : path = path' := by
  obtain ⟨k, steps⟩ | ⟨k, i⟩ := path
  · obtain ⟨o, more, hget, hmore, rfl⟩ := place?_within_eq_some.mp h
    obtain ⟨k', steps'⟩ | ⟨k', i'⟩ := path'
    · obtain ⟨o', more', hget', hmore', heq⟩ := place?_within_eq_some.mp h'
      obtain ⟨hcount, rfl⟩ := NodePath.within.inj heq
      obtain rfl := eq_of_countP_take hget rfl hget' rfl hcount
      rw [hget] at hget'
      cases hget'
      rw [Selection.eq_of_place? hmore hmore']
    · obtain ⟨_, _, _, heq⟩ := place?_variable_eq_some.mp h'
      cases heq
  · obtain ⟨o, hget, _, rfl⟩ := place?_variable_eq_some.mp h
    obtain ⟨k', steps'⟩ | ⟨k', i'⟩ := path'
    · obtain ⟨_, _, _, _, heq⟩ := place?_within_eq_some.mp h'
      cases heq
    · obtain ⟨o', hget', _, heq⟩ := place?_variable_eq_some.mp h'
      obtain ⟨hcount, rfl⟩ := NodePath.variable.inj heq
      rw [eq_of_countP_take hget rfl hget' rfl hcount]

end Document

end GraphQLTyping
