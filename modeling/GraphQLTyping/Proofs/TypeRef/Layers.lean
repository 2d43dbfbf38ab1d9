import GraphQLTyping.Proofs.TypeRef.Wrappers
import GraphQLTyping.Typing.Error

/-!
# Types in layers

A type can be looked at as a name with wrappers around it, each of which makes a list or says
non-null (`Layers`).  Type references are those types in which no non-null wrapper stands on another
one (`Layers.regular_iff`): what such a wrapper says is the mark of the layer below it.

**Unwrapping** a type takes three steps: a non-null wrapper goes, then a list, then a non-null
wrapper again, each if it is there.  This is done on both sides of a schema.  A declared type that
is no name then is reported as unsupported (`Layers.shape`), a written one is refused with what is
left of it (`Layers.simpleShape`).

* `TypeRef.shape_layers`, `TypeRef.simpleShape_layers`: the shapes of a reference are what the three
  steps find out of its layers.
* `TypeRef.unwrapping`: **the two sides agree**, and take the six simple references alone.
-/

namespace GraphQLTyping

/-- A type in **layers**: a name inside list and non-null wrappers. -/
inductive Layers where
  | named (name : String)
  | list (inner : Layers)
  | nonNull (inner : Layers)
deriving DecidableEq, Inhabited

namespace Layers

/-- Whether the outermost layer says non-null. -/
def isNonNull : Layers → Bool
  | nonNull _ => true
  | _ => false

/-- Whether the outermost layer makes a list. -/
def isList : Layers → Bool
  | list _ => true
  | _ => false

/-- Whether no wrapper is left. -/
def isNamed : Layers → Bool
  | named _ => true
  | _ => false

/-- Takes a non-null wrapper off, if there is one. -/
def withoutNonNull : Layers → Layers
  | nonNull inner => inner
  | w => w

/-- Takes a list wrapper off, if there is one. -/
def withoutList : Layers → Layers
  | list inner => inner
  | w => w

/-- The name inside all wrappers. -/
def innermost : Layers → String
  | named name => name
  | list inner | nonNull inner => inner.innermost

/-- The text of a type: brackets around what a list wraps, a mark after what is non-null. -/
def text : Layers → String
  | named name => name
  | list inner => "[" ++ inner.text ++ "]"
  | nonNull inner => inner.text ++ "!"

/-- Layers are **regular** if no non-null wrapper stands on another one. -/
def Regular : Layers → Prop
  | named _ => True
  | list inner => inner.Regular
  | nonNull inner => inner.isNonNull = false ∧ inner.Regular

/-- What the three steps of **unwrapping** leave. -/
def unwrapped (w : Layers) : Layers := w.withoutNonNull.withoutList.withoutNonNull

/-- The shape of a declared type.  If wrappers are left, the name is the one inside of them. -/
def shape (w : Layers) : Shape where
  nonNull := w.isNonNull
  list := w.withoutNonNull.isList
  name := w.unwrapped.innermost
  supported := w.unwrapped.isNamed

/-- The shape of a written type.  If wrappers are left, the type is refused. -/
def simpleShape (w : Layers) : Except (Layers × Layers) Shape :=
  match w.unwrapped with
  | named name => .ok ⟨w.isNonNull, w.withoutNonNull.isList, name, true⟩
  | rest => .error (w, rest)

end Layers

namespace TypeRef

variable {t : TypeRef}

/-- The layers of a reference: a mark is a wrapper of its own. -/
def layers : TypeRef → Layers
  | named name marked => wrap marked (.named name)
  | list element marked => wrap marked (.list element.layers)
where
  /-- A layer with its mark. -/
  wrap (marked : Bool) (w : Layers) : Layers := if marked then .nonNull w else w

/-- The **simple** references to a name. -/
def simple (name : String) : List TypeRef :=
  [named name false, named name true, list (named name false) false, list (named name false) true,
    list (named name true) false, list (named name true) true]

/-! ### References are regular layers -/

theorem isNonNull_layers (t : TypeRef) : t.layers.isNonNull = t.nonNull := by
  cases t with
  | named _ marked | list _ marked => cases marked <;> rfl

theorem regular_layers (t : TypeRef) : t.layers.Regular := by
  induction t with
  | named name marked =>
    cases marked with
    | false => trivial
    | true => exact ⟨rfl, trivial⟩
  | list element marked ih =>
    cases marked with
    | false => exact ih
    | true => exact ⟨rfl, ih⟩

theorem layers_required (h : t.nonNull = false) : t.required.layers = .nonNull t.layers := by
  cases t with
  | named _ marked | list _ marked =>
    cases h
    rfl

/-- References with the same layers are the same. -/
theorem layers_injective : Function.Injective layers := by
  intro t
  induction t with
  | named name marked =>
    intro u h
    cases u with
    | named name' marked' => cases marked <;> cases marked' <;> cases h <;> rfl
    | list element' marked' => cases marked <;> cases marked' <;> cases h
  | list element marked ih =>
    intro u h
    cases u with
    | named name' marked' => cases marked <;> cases marked' <;> cases h
    | list element' marked' =>
      have hinner : element.layers = element'.layers ∧ marked = marked' := by
        cases marked <;> cases marked' <;> simp_all [layers, layers.wrap]
      rw [ih hinner.1, hinner.2]

end TypeRef

/-- **Regular layers** are those of a reference. -/
theorem Layers.regular_iff {w : Layers} : w.Regular ↔ ∃ t : TypeRef, t.layers = w := by
  constructor
  · induction w with
    | named name => exact fun _ => ⟨.named name false, rfl⟩
    | list inner ih =>
      intro h
      obtain ⟨element, rfl⟩ := ih h
      exact ⟨.list element false, rfl⟩
    | nonNull inner ih =>
      intro h
      obtain ⟨hmark, h⟩ := h
      obtain ⟨t, rfl⟩ := ih h
      rw [TypeRef.isNonNull_layers] at hmark
      exact ⟨t.required, TypeRef.layers_required hmark⟩
  · rintro ⟨t, rfl⟩
    exact t.regular_layers

namespace TypeRef

variable {t : TypeRef}

/-! ### Unwrapping -/

theorem text_layers (t : TypeRef) : t.layers.text = t.text := by
  induction t with
  | named name marked => cases marked <;> simp [layers, layers.wrap, Layers.text, text, text.mark]
  | list element marked ih =>
    cases marked <;> simp [layers, layers.wrap, Layers.text, text, text.mark, ih]

theorem innermost_layers (t : TypeRef) : t.layers.innermost = t.name := by
  induction t with
  | named name marked => cases marked <;> rfl
  | list element marked ih => cases marked <;> exact ih

theorem withoutNonNull_layers (t : TypeRef) : t.layers.withoutNonNull = t.nullable.layers := by
  cases t with
  | named _ marked | list _ marked => cases marked <;> rfl

theorem withoutList_layers (h : t.nonNull = false) :
    t.layers.withoutList = t.element.layers := by
  cases t with
  | named _ marked | list _ marked =>
    cases h
    rfl

theorem isList_layers (h : t.nonNull = false) : t.layers.isList = t.isList := by
  cases t with
  | named _ marked | list _ marked =>
    cases h
    rfl

/-- What the three steps leave of a reference. -/
theorem unwrapped_layers (t : TypeRef) : t.layers.unwrapped = t.unwrapped.layers := by
  rw [Layers.unwrapped, withoutNonNull_layers, withoutList_layers t.nonNull_nullable,
    withoutNonNull_layers, unwrapped]

theorem nonNull_unwrapped (t : TypeRef) : t.unwrapped.nonNull = false := nonNull_nullable _

theorem isNamed_layers (h : t.nonNull = false) : t.layers.isNamed = !t.isList := by
  cases t with
  | named _ marked | list _ marked =>
    cases h
    rfl

@[simp] theorem name_unwrapped (t : TypeRef) : t.unwrapped.name = t.name := by
  cases t with
  | named => rfl
  | list element marked => exact element.name_nullable

/-- A list is left of a list of lists alone. -/
theorem isList_unwrapped_iff : t.unwrapped.isList = true ↔ 2 ≤ t.listDepth := by
  cases t with
  | named => simp [unwrapped, nullable, element, isList, listDepth]
  | list element marked =>
    cases element <;> simp [unwrapped, nullable, TypeRef.element, isList, listDepth]

/-- **The shape of a declared reference** is what the three steps find. -/
theorem shape_layers (t : TypeRef) : t.layers.shape = t.shape := by
  have hsupported : (!t.unwrapped.isList) = t.shape.supported := by
    rw [Bool.eq_iff_iff, Bool.not_eq_true', ← Bool.not_eq_true, isList_unwrapped_iff,
      supported_shape_iff, Nat.not_le]
  rw [Layers.shape, isNonNull_layers, withoutNonNull_layers, isList_layers t.nonNull_nullable,
    isList_nullable, unwrapped_layers, innermost_layers, name_unwrapped,
    isNamed_layers t.nonNull_unwrapped, hsupported, ← nonNull_shape, ← list_shape, ← name_shape]

/-- **The shape of a written reference** is what the three steps find. -/
theorem simpleShape_layers (t : TypeRef) :
    t.layers.simpleShape =
      t.simpleShape.mapError fun refused => (refused.whole.layers, refused.rest.layers) := by
  rw [Layers.simpleShape, simpleShape, unwrapped_layers, isNonNull_layers, withoutNonNull_layers,
    isList_layers t.nonNull_nullable, isList_nullable]
  have hmark := t.nonNull_unwrapped
  cases hrest : t.unwrapped with
  | named name marked | list inner marked =>
    rw [hrest] at hmark
    cases hmark
    rfl

/-! ### What is accepted -/

theorem listDepth_le_one_iff : t.listDepth ≤ 1 ↔ ∃ name, t ∈ simple name := by
  constructor
  · intro h
    match t, h with
    | named name marked, _ => exact ⟨name, by cases marked <;> simp [simple]⟩
    | list (named name inner) marked, _ =>
      exact ⟨name, by cases inner <;> cases marked <;> simp [simple]⟩
    | list (list element _) _, h => simp [listDepth] at h
  · rintro ⟨name, h⟩
    simp only [simple, List.mem_cons, List.not_mem_nil, or_false] at h
    rcases h with rfl | rfl | rfl | rfl | rfl | rfl <;> simp [listDepth]

theorem simpleShape_eq_ok_iff {shape : Shape} :
    t.simpleShape = .ok shape ↔ t.listDepth ≤ 1 ∧ shape = t.shape := by
  by_cases h : t.listDepth < 2
  · rw [simpleShape_of_listDepth_lt h, Except.ok.injEq, eq_comm]
    exact (and_iff_right (Nat.le_of_lt_succ h)).symm
  · rw [simpleShape_of_le_listDepth (Nat.le_of_not_lt h)]
    simp only [reduceCtorEq, false_iff, not_and]
    omega

/-- What is refused is a list of lists. -/
theorem exists_of_simpleShape_error {refused : UnsupportedShape}
    (h : t.simpleShape = .error refused) :
    ∃ element marked, t = .list element marked ∧ element.isList = true ∧
      refused = ⟨t, element.nullable⟩ := by
  match t, h with
  | list (list inner mark) marked, h =>
    cases h
    exact ⟨list inner mark, marked, rfl, rfl, rfl⟩

theorem isList_iff : t.isList = true ↔ 0 < t.listDepth := by
  cases t <;> simp [isList, listDepth]

/-- **The two sides agree.**  References are the types in which no non-null wrapper stands on
another one, and either side finds of them what the three steps of unwrapping find.  A declared
reference is supported, and a written one has a simple shape, exactly if there is at most one list
in it, which makes it one of the six simple references; then the shapes are the same.  Whatever a
reference is, its shape has its outer mark, tells whether there is a list in it, and has its
innermost name.  A written reference that is refused is a list of lists, and the error has its text
and that of the inner list without the mark on it. -/
theorem unwrapping :
    (∀ w : Layers, w.Regular ↔ ∃ t : TypeRef, t.layers = w) ∧ Function.Injective layers ∧
    ∀ t : TypeRef,
      t.layers.shape = t.shape ∧
      t.layers.simpleShape =
        t.simpleShape.mapError (fun refused => (refused.whole.layers, refused.rest.layers)) ∧
      t.layers.text = t.text ∧
      (t.shape.supported = true ↔ t.listDepth ≤ 1) ∧
      (t.listDepth ≤ 1 ↔ ∃ name, t ∈ simple name) ∧
      (∀ shape, t.simpleShape = .ok shape ↔ t.listDepth ≤ 1 ∧ shape = t.shape) ∧
      t.shape.nonNull = t.nonNull ∧
      (t.shape.list = true ↔ 0 < t.listDepth) ∧
      t.shape.name = t.name ∧
      (1 < t.listDepth → ∃ element marked, t = .list element marked ∧
        element.nullable.isList = true ∧
        t.simpleShape = .error ⟨t, element.nullable⟩ ∧
        (TypingError.unsupportedShape ⟨t, element.nullable⟩).message =
          ("Type \"" ++ t.text ++ "\" is not supported: expected a named type with at most one ") ++
            ("list wrapper, but found \"" ++ element.nullable.text ++
              "\" inside the wrappers.")) := by
  refine ⟨fun w => Layers.regular_iff, layers_injective, fun t => ⟨t.shape_layers,
    t.simpleShape_layers, t.text_layers, ?_, listDepth_le_one_iff, fun shape =>
    simpleShape_eq_ok_iff, t.nonNull_shape, ?_, t.name_shape, ?_⟩⟩
  · rw [supported_shape_iff, Nat.lt_succ_iff]
  · rw [list_shape, isList_iff]
  · intro h
    obtain ⟨element, marked, rfl, hlist, hrefused⟩ :=
      exists_of_simpleShape_error (simpleShape_of_le_listDepth h)
    refine ⟨element, marked, rfl, by rw [isList_nullable, hlist], ?_, rfl⟩
    rw [simpleShape_of_le_listDepth h, hrefused]

/-- A list of lists is refused with the inner list, of which the mark is gone. -/
theorem unwrapping_of_grid :
    (list (list (named "Int" true) true) true).simpleShape =
        .error ⟨list (list (named "Int" true) true) true, list (named "Int" true) false⟩ ∧
      (list (list (named "Int" true) true) true).shape.name = "Int" := by
  obtain ⟨_, _, _, _, _, _, _, _, hname, hrefused⟩ :=
    unwrapping.2.2 (list (list (named "Int" true) true) true)
  obtain ⟨_, _, heq, _, herror, _⟩ := hrefused (by decide)
  cases heq
  exact ⟨herror, hname⟩

end TypeRef

end GraphQLTyping
