import GraphQLTyping.TypeRef.Shape

/-!
# Wrappers of type references

The shape of a declared reference has its outer mark, whether it is a list, and its innermost name.  A
reference has a simple shape exactly if there are less than two lists in it, and then the shape of the
written reference is that of the declared one.
-/

namespace GraphQLTyping.TypeRef

variable {t : TypeRef}

@[simp] theorem name_shape (t : TypeRef) : t.shape.name = t.name := by
  cases t with
  | named => rfl
  | list element => cases element <;> rfl

@[simp] theorem nonNull_shape (t : TypeRef) : t.shape.nonNull = t.nonNull := by
  cases t with
  | named => rfl
  | list element => cases element <;> rfl

@[simp] theorem list_shape (t : TypeRef) : t.shape.list = t.isList := by
  cases t with
  | named => rfl
  | list element => cases element <;> rfl

theorem supported_shape_iff : t.shape.supported = true ↔ t.listDepth < 2 := by
  cases t with
  | named => simp [shape, listDepth]
  | list element => cases element <;> simp [shape, listDepth]

theorem simpleShape_of_listDepth_lt (h : t.listDepth < 2) : t.simpleShape = .ok t.shape := by
  cases t with
  | named => rfl
  | list element marked =>
    cases element with
    | named => rfl
    | list inner =>
      rw [listDepth, listDepth] at h
      omega

/-- A list of lists is refused with what is left of it. -/
theorem simpleShape_of_le_listDepth (h : 2 ≤ t.listDepth) :
    t.simpleShape = .error ⟨t, t.unwrapped⟩ := by
  cases t with
  | named =>
    rw [listDepth] at h
    omega
  | list element marked =>
    cases element with
    | named =>
      rw [listDepth, listDepth] at h
      omega
    | list inner => rfl

end GraphQLTyping.TypeRef
