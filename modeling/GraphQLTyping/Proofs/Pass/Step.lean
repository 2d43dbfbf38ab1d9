import GraphQLTyping.Proofs.Typing.Growth
import GraphQLTyping.Typing.Walk

/-!
# What each step does

The outcome of every step of a pass, from any state in which the step can be told to do one thing:
`enterField_object` for a field that resolves to an object type, `enterField_missing` for one that
there is not, and so on.  What follows about walks rests on these equations and never opens a step
again.
-/

namespace GraphQLTyping.Pass

variable {α β : Type} {s : Schema} {p q : Pass} {id : NodeId} {name : String}

/-! ### Steps in a row -/

theorem bind_apply (x : Step α) (f : α → Step β) (p : Pass) :
    (x >>= f) p = match x p with
      | .ok a q => f a q
      | .error e q => .error e q := by
  show EStateM.bind x f p = _
  unfold EStateM.bind
  cases x p <;> rfl

theorem bind_of_ok {x : Step α} {a : α} (h : x p = .ok a q) (f : α → Step β) :
    (x >>= f) p = f a q := by
  rw [bind_apply, h]

theorem bind_of_error {x : Step α} {e : TypingError} (h : x p = .error e q) (f : α → Step β) :
    (x >>= f) p = .error e q := by
  rw [bind_apply, h]

/-- Two rows of steps agree if their parts do where they are taken. -/
theorem bind_congr_apply {x y : Step α} {f g : α → Step β} (hx : x p = y p)
    (hf : ∀ a q, y p = .ok a q → f a q = g a q) : (x >>= f) p = (y >>= g) p := by
  rw [bind_apply, bind_apply, hx]
  cases h : y p with
  | ok a q => exact hf a q h
  | error e q => rfl

theorem pure_apply (a : α) (p : Pass) : (pure a : Step α) p = .ok a p := rfl

theorem throw_apply (e : TypingError) (p : Pass) : (throw e : Step α) p = .error e p := rfl

theorem get_apply (p : Pass) : (get : Step Pass) p = .ok p p := rfl

theorem modify_apply (f : Pass → Pass) (p : Pass) : (modify f : Step Unit) p = .ok ⟨⟩ (f p) := rfl

theorem map_apply (f : α → β) (x : Step α) (p : Pass) :
    (f <$> x) p = match x p with
      | .ok a q => .ok (f a) q
      | .error e q => .error e q := by
  show EStateM.map f x p = _
  unfold EStateM.map
  cases x p <;> rfl

theorem discard_apply (x : Step α) (p : Pass) :
    (discard x : Step PUnit) p = match x p with
      | .ok _ q => .ok ⟨⟩ q
      | .error e q => .error e q := by
  show EStateM.map (Function.const α PUnit.unit) x p = _
  unfold EStateM.map
  cases x p <;> rfl

/-! ### Enclosing types -/

theorem report_apply (e : Event) (p : Pass) : report e p = .ok ⟨⟩ { p with log := p.log ++ [e] } :=
  rfl

theorem note_apply (change : Typing → Typing) (p : Pass) :
    note change p = .ok ⟨⟩ { p with typing := change p.typing } := rfl

theorem push_apply (t : TypeDef) (p : Pass) :
    push t p = .ok ⟨⟩ { p with
      enclosing := some t :: p.enclosing
      log := p.log ++ [.pushed t.name (p.depth + 1)] } := rfl

theorem pop_of_cons {t : TypeDef} {rest : List (Option TypeDef)}
    (h : p.enclosing = some t :: rest) :
    pop p = .ok t { p with enclosing := rest, log := p.log ++ [.popped t.name rest.length] } := by
  simp only [pop, bind_apply, get_apply, h, modify_apply, known, pure_apply, report_apply]

theorem innermost_of_nil (h : p.enclosing = []) : innermost p = .error .outsideOperation p := by
  simp only [innermost, bind_apply, get_apply, h, throw_apply]

theorem innermost_of_cons {t : Option TypeDef} {rest : List (Option TypeDef)}
    (h : p.enclosing = t :: rest) : innermost p = .ok t p := by
  simp only [innermost, bind_apply, get_apply, h, pure_apply]

/-! ### Records -/

theorem recordOr_of_some {r : RecordId} (h : p.typing.record? id = some r) (e : TypingError) :
    recordOr e id p = .ok r p := by
  simp only [recordOr, bind_apply, get_apply, h, pure_apply]

/-- The records of nodes that all have one. -/
theorem mapM_recordOr (error : String → TypingError) (nodes : List (NodeId × String))
    (h : ∀ node ∈ nodes, (p.typing.record? node.1).isSome) :
    (nodes.mapM fun (id, name) => recordOr (error name) id) p =
      .ok (nodes.filterMap fun node => p.typing.record? node.1) p := by
  induction nodes with
  | nil => rfl
  | cons node rest ih =>
    obtain ⟨r, hr⟩ := Option.isSome_iff_exists.mp (h node (by simp))
    rw [List.mapM_cons, bind_of_ok (recordOr_of_some hr _),
      bind_of_ok (ih fun other ho => h other (List.mem_cons_of_mem _ ho)), pure_apply,
      List.filterMap_cons, hr]

theorem childRecords_of_isSome {children : List (NodeId × String)}
    (h : ∀ child ∈ children, (p.typing.record? child.1).isSome) :
    childRecords children p =
      .ok (children.filterMap fun child => p.typing.record? child.1) p :=
  mapM_recordOr .childNotTyped children h

/-! ### Operations -/

theorem enterOperation_missing {kind : OperationKind} (h : s.root? kind = none) (p : Pass) :
    enterOperation s kind p = .error (.missingRoot kind) p := by
  simp only [enterOperation, h, throw_apply]

theorem enterOperation_root {kind : OperationKind} {root : TypeDef}
    (h : s.root? kind = some root) (p : Pass) :
    enterOperation s kind p = .ok ⟨⟩ { p with
      enclosing := some root :: p.enclosing
      log := p.log ++ [.started kind root.name] ++ [.pushed root.name (p.depth + 1)] } := by
  simp only [enterOperation, h, bind_apply, report_apply, push_apply, depth]

theorem leaveOperation_of_cons {root : TypeDef} {outer : List (Option TypeDef)}
    {children defined : List (NodeId × String)} (h : p.enclosing = some root :: outer)
    (hc : ∀ child ∈ children, (p.typing.record? child.1).isSome)
    (hd : ∀ v ∈ defined, (p.typing.record? v.1).isSome) :
    leaveOperation id children defined p = .ok ⟨⟩ { p with
      enclosing := outer
      log := p.log ++ [.popped root.name outer.length]
      typing := { p.typing with
        operationFields := (id, children.filterMap fun child => p.typing.record? child.1)
          :: p.typing.operationFields
        operationVariables := (id, defined.filterMap fun v => p.typing.record? v.1)
          :: p.typing.operationVariables } } := by
  simp only [leaveOperation, bind_apply, discard_apply, pop_of_cons h, noteFields, noteVariables]
  rw [childRecords_of_isSome (by exact hc)]
  simp only [note_apply]
  rw [mapM_recordOr .variableNotTyped _ (by exact hd)]
  rfl

/-! ### Variables -/

section Variable

variable {type : TypeRef} {shape : Shape} {bare : TypeDef}

theorem enterVariable_unsupported {rest : UnsupportedShape}
    (h : type.simpleShape = .error rest) (p : Pass) :
    enterVariable s id name type p = .error (.unsupportedShape rest) p := by
  simp only [enterVariable, h, throw_apply]

theorem enterVariable_unknown (h : type.simpleShape = .ok shape) (ht : s.type? shape.name = none)
    (p : Pass) : enterVariable s id name type p = .error (.unknownType name shape.name) p := by
  simp only [enterVariable, h, ht, throw_apply]

/-- A variable of an input object type has the shared list of the type below it. -/
theorem enterVariable_object (h : type.simpleShape = .ok shape)
    (ht : s.type? shape.name = some bare) (hr : bare.inputResolution = .object) (p : Pass) :
    enterVariable s id name type p = .ok ⟨⟩ { p with
      typing := { p.typing with inputs := (InputLists.resolve s bare p.typing.inputs).2.inputs }
        |>.addVariable id { TypedField.ofVariable name shape bare with
          children := .shared (InputLists.resolve s bare p.typing.inputs).1 }
      log := p.log ++ (InputLists.resolve s bare p.typing.inputs).2.events.map .input } := by
  have hf : (TypedField.ofVariable name shape bare).resolution = .object := hr
  simp only [enterVariable, h, ht, hf, if_true, bind_apply, map_apply, resolveInput, get_apply,
    note_apply, modify_apply, pure_apply, reduceCtorEq, if_false]

theorem enterVariable_unclassified (h : type.simpleShape = .ok shape)
    (ht : s.type? shape.name = some bare) (hr : bare.inputResolution = .unclassified) (p : Pass) :
    enterVariable s id name type p = .ok ⟨⟩ { p with
      typing := p.typing.addVariable id (TypedField.ofVariable name shape bare)
      log := p.log ++ [.unclassifiedVariable name bare.name] } := by
  have hf : (TypedField.ofVariable name shape bare).resolution = .unclassified := hr
  have ho : (TypedField.ofVariable name shape bare).resolution ≠ .object := by
    rw [hf]; decide
  simp only [enterVariable, h, ht, if_neg ho, if_pos hf, bind_apply, report_apply, note_apply,
    pure_apply]
  rfl

theorem enterVariable_leaf (h : type.simpleShape = .ok shape)
    (ht : s.type? shape.name = some bare) (ho : bare.inputResolution ≠ .object)
    (hu : bare.inputResolution ≠ .unclassified) (p : Pass) :
    enterVariable s id name type p = .ok ⟨⟩ { p with
      typing := p.typing.addVariable id (TypedField.ofVariable name shape bare) } := by
  have ho' : (TypedField.ofVariable name shape bare).resolution ≠ .object := ho
  have hu' : (TypedField.ofVariable name shape bare).resolution ≠ .unclassified := hu
  simp only [enterVariable, h, ht, ho', hu', bind_apply, note_apply, pure_apply, if_false]
  rfl

end Variable

/-! ### Fields -/

section Field

variable {parent : Option TypeDef} {outer : List (Option TypeDef)} {f : TypedField}

theorem enterField_of_nil (h : p.enclosing = []) :
    enterField s id name p = .error .outsideOperation p := by
  rw [enterField, bind_of_error (innermost_of_nil h)]

theorem enterField_missing (h : p.enclosing = parent :: outer)
    (hf : s.typedOutput? parent name = none) :
    enterField s id name p = .error (fieldMissing name parent) p := by
  rw [enterField, bind_of_ok (innermost_of_cons h)]
  simp only [hf, throw_apply]

theorem enterField_object (h : p.enclosing = parent :: outer)
    (hf : s.typedOutput? parent name = some f) (hr : f.resolution = .object) :
    enterField s id name p = .ok .into { p with
      typing := p.typing.add id f
      enclosing := some f.type :: p.enclosing
      log := p.log ++ [.pushed f.type.name (p.depth + 1)] } := by
  rw [enterField, bind_of_ok (innermost_of_cons h)]
  simp only [hf, hr, bind_apply, note_apply, push_apply, pure_apply, depth]

theorem enterField_leaf (h : p.enclosing = parent :: outer)
    (hf : s.typedOutput? parent name = some f) (ho : f.resolution ≠ .object)
    (hu : f.resolution ≠ .unclassified) :
    enterField s id name p = .ok .into { p with typing := p.typing.add id f } := by
  rw [enterField, bind_of_ok (innermost_of_cons h)]
  cases hr : f.resolution with
  | object => exact absurd hr ho
  | unclassified => exact absurd hr hu
  | scalar => simp only [hf, hr, bind_apply, note_apply, pure_apply]
  | enum => simp only [hf, hr, bind_apply, note_apply, pure_apply]

theorem enterField_unclassified {t : TypeDef} (h : p.enclosing = some t :: outer)
    (hf : s.typedOutput? (some t) name = some f) (hr : f.resolution = .unclassified) :
    enterField s id name p = .ok .over { p with
      typing := p.typing.add id f
      log := p.log ++ [.unclassifiedField t.name name f.type.name] } := by
  rw [enterField, bind_of_ok (innermost_of_cons h)]
  simp only [hf, hr, bind_apply, note_apply, known, pure_apply, report_apply]

/-- Nothing can be reported of a field that a missing type encloses. -/
theorem enterField_nowhere (h : p.enclosing = none :: outer)
    (hf : s.typedOutput? none name = some f) (hr : f.resolution = .unclassified) :
    enterField s id name p = .error .typeMissing { p with typing := p.typing.add id f } := by
  rw [enterField, bind_of_ok (innermost_of_cons h)]
  simp only [hf, hr, bind_apply, note_apply, known, throw_apply]

theorem leaveField_of_object {r : RecordId} {children : List (NodeId × String)}
    (hr : p.typing.record? id = some r) (hf : p.typing.field? r = some f)
    (ho : f.resolution = .object) (h : p.enclosing = some f.type :: outer)
    (hc : ∀ child ∈ children, (p.typing.record? child.1).isSome) :
    leaveField id name children p = .ok ⟨⟩ { p with
      enclosing := outer
      log := p.log ++ [.popped f.type.name outer.length]
      typing := p.typing.setChildren r
        (children.filterMap fun child => p.typing.record? child.1) } := by
  simp only [leaveField, leaveType, bind_apply, recordOr_of_some hr, get_apply, hf, ho, if_true,
    pop_of_cons h, pure_apply]
  rw [childRecords_of_isSome (by exact hc)]
  rfl

theorem leaveField_of_leaf {r : RecordId} {children : List (NodeId × String)}
    (hr : p.typing.record? id = some r) (hf : p.typing.field? r = some f)
    (ho : f.resolution ≠ .object) : leaveField id name children p = .ok ⟨⟩ p := by
  simp only [leaveField, leaveType, bind_apply, recordOr_of_some hr, get_apply, hf, ho, if_false,
    pure_apply]

end Field

end GraphQLTyping.Pass
