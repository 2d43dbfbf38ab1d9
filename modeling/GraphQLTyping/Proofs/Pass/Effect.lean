import GraphQLTyping.Proofs.Pass.Ledger

/-!
# What a move can do

From whatever pass a move is taken, it does one of a few things (`Move.Does`), and so says
`Move.does`.  A move that enters something fails at once or not at all, unless a missing type encloses
it.  A move that leaves something may fail after the innermost type was taken away, and leaving an
operation also after its root fields were noted.

What a pass has whatever is done with it follows from this relation, case by case.
-/

namespace GraphQLTyping

variable {s : Schema} {p q : Pass} {id : NodeId} {α : Type}

namespace Pass

/-- The pass after a step, be it taken or failed. -/
def after (x : Step α) (p : Pass) : Pass :=
  match x p with
  | .ok _ q => q
  | .error _ q => q

/-- How a step fails, if it does. -/
def failure? (x : Step α) (p : Pass) : Option TypingError :=
  match x p with
  | .ok _ _ => none
  | .error e _ => some e

/-- The pass enclosed in one more type. -/
def pushed (p : Pass) (t : TypeDef) : Pass :=
  { p with enclosing := some t :: p.enclosing, log := p.log ++ [.pushed t.name (p.depth + 1)] }

/-- The pass after its innermost type, which was around the others, was taken away. -/
def popped (p : Pass) (t : TypeDef) (outer : List (Option TypeDef)) : Pass :=
  { p with enclosing := outer, log := p.log ++ [.popped t.name outer.length] }

/-- The pass after a variable of an input object type was typed. -/
def typedShared (s : Schema) (p : Pass) (id : NodeId) (name : String) (shape : Shape)
    (bare : TypeDef) : Pass :=
  { p with
    typing := { p.typing with inputs := (InputLists.resolve s bare p.typing.inputs).2.inputs }
      |>.addVariable id { TypedField.ofVariable name shape bare with
        children := .shared (InputLists.resolve s bare p.typing.inputs).1 }
    log := p.log ++ (InputLists.resolve s bare p.typing.inputs).2.events.map .input }

/-- The typing with the root fields of an operation noted. -/
def notedFields (t : Typing) (id : NodeId) (fields : List RecordId) : Typing :=
  { t with operationFields := (id, fields) :: t.operationFields }

/-- The typing with the variables of an operation noted. -/
def notedVariables (t : Typing) (id : NodeId) (records : List RecordId) : Typing :=
  { t with operationVariables := (id, records) :: t.operationVariables }

end Pass

/-- Whether a move takes an enclosing type away, if it succeeds in finding its node to have one. -/
def Move.leaves : Move → Bool
  | .leaveOperation .. | .leaveField .. => true
  | _ => false

open Pass

/-- What a move **does** to a pass, and how it fails then. -/
inductive Move.Does (s : Schema) : Move → Pass → Option TypingError → Pass → Prop
  /-- It fails at once. -/
  | refused (m : Move) (p : Pass) (e : TypingError) : Does s m p (some e) p
  /-- It takes a missing type away. -/
  | missing {m : Move} {p : Pass} {outer : List (Option TypeDef)} (hm : m.leaves = true)
    (h : p.enclosing = none :: outer) :
    Does s m p (some .typeMissing) { p with enclosing := outer }
  /-- It fails after it has taken a type away. -/
  | broken {m : Move} {p : Pass} {t : TypeDef} {outer : List (Option TypeDef)} (hm : m.leaves = true)
    (h : p.enclosing = some t :: outer) (e : TypingError) : Does s m p (some e) (p.popped t outer)
  | operationEntered (id : NodeId) {o : Operation} {p : Pass} {root : TypeDef}
    (h : s.root? o.kind = some root) :
    Does s (.enterOperation id o) p none
      (pushed { p with log := p.log ++ [.started o.kind root.name] } root)
  /-- It fails after it has noted the root fields. -/
  | operationHalfLeft (id : NodeId) {o : Operation} {p : Pass} {t : TypeDef}
    {outer : List (Option TypeDef)} {fields : List RecordId} (h : p.enclosing = some t :: outer)
    (hfields : p.typing.RecordsOf ((selectedFields id o.selections).map (·.1)) fields)
    (e : TypingError) :
    Does s (.leaveOperation id o) p (some e)
      { p.popped t outer with typing := notedFields p.typing id fields }
  | operationLeft (id : NodeId) {o : Operation} {p : Pass} {t : TypeDef}
    {outer : List (Option TypeDef)} {fields records : List RecordId}
    (h : p.enclosing = some t :: outer)
    (hfields : p.typing.RecordsOf ((selectedFields id o.selections).map (·.1)) fields)
    (hvariables : p.typing.RecordsOf ((definedVariables id o.variableDefs).map (·.1)) records) :
    Does s (.leaveOperation id o) p none
      { p.popped t outer with
        typing := notedVariables (notedFields p.typing id fields) id records }
  | variableShared (id : NodeId) {v : VariableDef} {p : Pass} {shape : Shape} {bare : TypeDef}
    (hs : v.type.simpleShape = .ok shape) (hb : s.type? shape.name = some bare)
    (ho : bare.inputResolution = .object) :
    Does s (.enterVariable id v) p none (p.typedShared s id v.name shape bare)
  | variableUnclassified (id : NodeId) {v : VariableDef} {p : Pass} {shape : Shape} {bare : TypeDef}
    (hs : v.type.simpleShape = .ok shape) (hb : s.type? shape.name = some bare)
    (hu : bare.inputResolution = .unclassified) :
    Does s (.enterVariable id v) p none { p with
      typing := p.typing.addVariable id (TypedField.ofVariable v.name shape bare)
      log := p.log ++ [.unclassifiedVariable v.name bare.name] }
  | variableLeaf (id : NodeId) {v : VariableDef} {p : Pass} {shape : Shape} {bare : TypeDef}
    (hs : v.type.simpleShape = .ok shape) (hb : s.type? shape.name = some bare)
    (ho : bare.inputResolution ≠ .object) (hu : bare.inputResolution ≠ .unclassified) :
    Does s (.enterVariable id v) p none { p with
      typing := p.typing.addVariable id (TypedField.ofVariable v.name shape bare) }
  | fieldEntered (id : NodeId) {head : FieldHead} (selections : List Selection) {p : Pass}
    {f : TypedField} (hf : s.typedInside? p.enclosing head.name = some f)
    (ho : f.resolution = .object) :
    Does s (.enterField id head selections) p none
      (pushed { p with typing := p.typing.add id f } f.type)
  | fieldLeaf (id : NodeId) {head : FieldHead} (selections : List Selection) {p : Pass}
    {f : TypedField} (hf : s.typedInside? p.enclosing head.name = some f)
    (ho : f.resolution ≠ .object) (hu : f.resolution ≠ .unclassified) :
    Does s (.enterField id head selections) p none { p with typing := p.typing.add id f }
  | fieldOver (id : NodeId) {head : FieldHead} (selections : List Selection) {p : Pass}
    {f : TypedField} {t : TypeDef} {outer : List (Option TypeDef)}
    (h : p.enclosing = some t :: outer) (hf : s.typedInside? p.enclosing head.name = some f)
    (hu : f.resolution = .unclassified) :
    Does s (.enterField id head selections) p none { p with
      typing := p.typing.add id f
      log := p.log ++ [.unclassifiedField t.name head.name f.type.name] }
  /-- It fails after a missing type has been found to have a field of no resolution. -/
  | fieldNowhere (id : NodeId) {head : FieldHead} (selections : List Selection) {p : Pass}
    {f : TypedField} {outer : List (Option TypeDef)} (h : p.enclosing = none :: outer)
    (hf : s.typedInside? p.enclosing head.name = some f) (hu : f.resolution = .unclassified) :
    Does s (.enterField id head selections) p (some .typeMissing)
      { p with typing := p.typing.add id f }
  /-- It leaves a field that took no type in. -/
  | leafLeft (id : NodeId) (head : FieldHead) (selections : List Selection) {p : Pass} {r : RecordId}
    {f : TypedField} (hr : p.typing.record? id = some r) (hf : p.typing.field? r = some f)
    (ho : f.resolution ≠ .object) : Does s (.leaveField id head selections) p none p
  | fieldLeft (id : NodeId) (head : FieldHead) {selections : List Selection} {p : Pass}
    {r : RecordId} {f : TypedField} {outer : List (Option TypeDef)} {records : List RecordId}
    (hr : p.typing.record? id = some r) (hf : p.typing.field? r = some f)
    (ho : f.resolution = .object) (h : p.enclosing = some f.type :: outer)
    (hrecords : p.typing.RecordsOf ((selectedFields id selections).map (·.1)) records) :
    Does s (.leaveField id head selections) p none
      { p.popped f.type outer with typing := p.typing.setChildren r records }

namespace Pass

/-! ### Steps that fail -/

theorem after_of_ok {x : Step α} {a : α} (h : x p = .ok a q) : after x p = q := by
  rw [after, h]

theorem after_of_error {x : Step α} {e : TypingError} (h : x p = .error e q) : after x p = q := by
  rw [after, h]

theorem failure?_of_ok {x : Step α} {a : α} (h : x p = .ok a q) : failure? x p = none := by
  rw [failure?, h]

theorem failure?_of_error {x : Step α} {e : TypingError} (h : x p = .error e q) :
    failure? x p = some e := by
  rw [failure?, h]

theorem recordOr_of_none (h : p.typing.record? id = none) (e : TypingError) :
    recordOr e id p = .error e p := by
  simp only [recordOr, bind_apply, get_apply, h, throw_apply]

/-- Looking records up changes nothing. -/
theorem mapM_recordOr_cases (error : String → TypingError) (nodes : List (NodeId × String))
    (p : Pass) :
    (∃ records, (nodes.mapM fun (id, name) => recordOr (error name) id) p = .ok records p ∧
        p.typing.RecordsOf (nodes.map (·.1)) records) ∨
      ∃ e, (nodes.mapM fun (id, name) => recordOr (error name) id) p = .error e p := by
  induction nodes with
  | nil => exact .inl ⟨[], rfl, rfl⟩
  | cons node rest ih =>
    rw [List.mapM_cons]
    cases hr : p.typing.record? node.1 with
    | none => exact .inr ⟨_, bind_of_error (recordOr_of_none hr _) _⟩
    | some r =>
      rw [bind_of_ok (recordOr_of_some hr _)]
      rcases ih with ⟨records, hrecords, hof⟩ | ⟨e, he⟩
      · refine .inl ⟨r :: records, ?_, ?_⟩
        · rw [bind_of_ok hrecords, pure_apply]
        · rw [Typing.RecordsOf, List.map_cons, List.map_cons, List.map_cons, hof, hr]
      · exact .inr ⟨e, bind_of_error he _⟩

theorem discard_of_ok {x : Step α} {a : α} (h : x p = .ok a q) :
    (discard x : Step PUnit) p = .ok ⟨⟩ q := by
  rw [discard_apply, h]

theorem discard_of_error {x : Step α} {e : TypingError} (h : x p = .error e q) :
    (discard x : Step PUnit) p = .error e q := by
  rw [discard_apply, h]

theorem pop_of_nil (h : p.enclosing = []) : pop p = .error .nothingEnclosing p := by
  simp only [pop, bind_apply, get_apply, h, throw_apply]

theorem pop_of_missing {outer : List (Option TypeDef)} (h : p.enclosing = none :: outer) :
    pop p = .error .typeMissing { p with enclosing := outer } := by
  simp only [pop, bind_apply, get_apply, h, modify_apply, known, throw_apply]

theorem leaveType_of_object {r : RecordId} {f : TypedField} (hr : p.typing.record? id = some r)
    (hf : p.typing.field? r = some f) (ho : f.resolution = .object) (e : TypingError) :
    leaveType e id p = (pop >>= fun left =>
      if left = f.type then pure (some r)
      else throw (.wrongTypeLeft f.type.name f.name left.name) : Step (Option RecordId)) p := by
  rw [leaveType, bind_of_ok (recordOr_of_some hr e), bind_of_ok (get_apply p), hf]
  simp only [if_pos ho]
  refine bind_congr_apply rfl fun left q _ => ?_
  by_cases ht : left = f.type
  · simp only [if_pos ht]
  · simp only [if_neg ht, bind_apply, throw_apply]

end Pass

namespace Move

/-- What a step answers, and what a move does then. -/
theorem Does.of_ok {m : Move} (h : m.step s p = .ok ⟨⟩ q) (hdoes : m.Does s p none q) :
    m.Does s p (failure? (m.step s) p) (after (m.step s) p) := by
  rwa [failure?_of_ok h, after_of_ok h]

theorem Does.of_error {m : Move} {e : TypingError} (h : m.step s p = .error e q)
    (hdoes : m.Does s p (some e) q) : m.Does s p (failure? (m.step s) p) (after (m.step s) p) := by
  rwa [failure?_of_error h, after_of_error h]

theorem does_enterOperation (id : NodeId) (o : Operation) (p : Pass) :
    (enterOperation id o).Does s p (failure? ((enterOperation id o).step s) p)
      (after ((enterOperation id o).step s) p) := by
  cases hr : s.root? o.kind with
  | none => exact .of_error (enterOperation_missing hr p) (.refused ..)
  | some root => exact .of_ok (enterOperation_root hr p) (.operationEntered id hr)

theorem does_enterVariable (id : NodeId) (v : VariableDef) (p : Pass) :
    (enterVariable id v).Does s p (failure? ((enterVariable id v).step s) p)
      (after ((enterVariable id v).step s) p) := by
  cases hs : v.type.simpleShape with
  | error rest => exact .of_error (enterVariable_unsupported hs p) (.refused ..)
  | ok shape =>
    cases hb : s.type? shape.name with
    | none => exact .of_error (enterVariable_unknown hs hb p) (.refused ..)
    | some bare =>
      by_cases ho : bare.inputResolution = .object
      · exact .of_ok (enterVariable_object hs hb ho p) (.variableShared id hs hb ho)
      · by_cases hu : bare.inputResolution = .unclassified
        · exact .of_ok (enterVariable_unclassified hs hb hu p) (.variableUnclassified id hs hb hu)
        · exact .of_ok (enterVariable_leaf hs hb ho hu p) (.variableLeaf id hs hb ho hu)

theorem does_enterField (id : NodeId) (head : FieldHead) (selections : List Selection) (p : Pass) :
    (enterField id head selections).Does s p (failure? ((enterField id head selections).step s) p)
      (after ((enterField id head selections).step s) p) := by
  cases hp : p.enclosing with
  | nil => exact .of_error (step_enterField_of_error (enterField_of_nil hp)) (.refused ..)
  | cons parent outer =>
    cases hf : s.typedOutput? parent head.name with
    | none => exact .of_error (step_enterField_of_error (enterField_missing hp hf)) (.refused ..)
    | some f =>
      have hin : s.typedInside? p.enclosing head.name = some f := by
        rw [Schema.typedInside?, hp]
        exact hf
      by_cases ho : f.resolution = .object
      · exact .of_ok (step_enterField (enterField_object hp hf ho))
          (.fieldEntered id selections hin ho)
      · by_cases hu : f.resolution = .unclassified
        · cases parent with
          | none =>
            exact .of_error (step_enterField_of_error (enterField_nowhere hp hf hu))
              (.fieldNowhere id selections hp hin hu)
          | some t =>
            exact .of_ok (step_enterField (enterField_unclassified hp hf hu))
              (.fieldOver id selections hp hin hu)
        · exact .of_ok (step_enterField (enterField_leaf hp hf ho hu))
            (.fieldLeaf id selections hin ho hu)

theorem does_leaveOperation (id : NodeId) (o : Operation) (p : Pass) :
    (leaveOperation id o).Does s p (failure? ((leaveOperation id o).step s) p)
      (after ((leaveOperation id o).step s) p) := by
  cases hp : p.enclosing with
  | nil =>
    have hpop := discard_of_error (pop_of_nil hp)
    exact .of_error (bind_of_error hpop _) (.refused ..)
  | cons innermost outer =>
    cases innermost with
    | none =>
      have hpop := discard_of_error (pop_of_missing hp)
      exact .of_error (bind_of_error hpop _) (.missing rfl hp)
    | some t =>
      have hpop := discard_of_ok (pop_of_cons hp)
      rcases mapM_recordOr_cases .childNotTyped (selectedFields id o.selections)
        (p.popped t outer) with ⟨fields, hfields, hof⟩ | ⟨e, he⟩
      · have hnote : noteFields id (selectedFields id o.selections) (p.popped t outer) =
            .ok ⟨⟩ { p.popped t outer with typing := notedFields p.typing id fields } :=
          bind_of_ok hfields _
        rcases mapM_recordOr_cases .variableNotTyped (definedVariables id o.variableDefs)
          { p.popped t outer with typing := notedFields p.typing id fields } with
          ⟨records, hrecords, hof'⟩ | ⟨e, he⟩
        · refine .of_ok ?_ (.operationLeft id hp hof hof')
          exact (bind_of_ok hpop _).trans ((bind_of_ok hnote _).trans (bind_of_ok hrecords _))
        · refine .of_error ?_ (.operationHalfLeft id hp hof e)
          exact (bind_of_ok hpop _).trans ((bind_of_ok hnote _).trans (bind_of_error he _))
      · refine .of_error ?_ (.broken rfl hp e)
        exact (bind_of_ok hpop _).trans (bind_of_error (bind_of_error he _) _)

theorem does_leaveField (id : NodeId) (head : FieldHead) (selections : List Selection) (p : Pass) :
    (leaveField id head selections).Does s p (failure? ((leaveField id head selections).step s) p)
      (after ((leaveField id head selections).step s) p) := by
  cases hr : p.typing.record? id with
  | none =>
    exact .of_error (bind_of_error (bind_of_error (recordOr_of_none hr _) _) _) (.refused ..)
  | some r =>
    cases hf : p.typing.field? r with
    | none =>
      refine .of_error (e := .neverEntered head.name) ?_ (.refused ..)
      simp only [step, Pass.leaveField, leaveType, bind_apply, recordOr_of_some hr, get_apply, hf,
        throw_apply]
    | some f =>
      by_cases ho : f.resolution = .object
      · have hleave := leaveType_of_object hr hf ho (.neverEntered head.name)
        cases hp : p.enclosing with
        | nil =>
          have hnothing := hleave.trans (bind_of_error (pop_of_nil hp) _)
          exact .of_error (bind_of_error hnothing _) (.refused ..)
        | cons innermost outer =>
          cases innermost with
          | none =>
            refine .of_error (bind_of_error ?_ _) (.missing rfl hp)
            exact hleave.trans (bind_of_error (pop_of_missing hp) _)
          | some t =>
            have htaken := hleave.trans (bind_of_ok (pop_of_cons hp) _)
            by_cases ht : t = f.type
            · subst ht
              rw [if_pos rfl] at htaken
              rcases mapM_recordOr_cases .childNotTyped (selectedFields id selections)
                (p.popped f.type outer) with ⟨records, hrecords, hof⟩ | ⟨e, he⟩
              · refine .of_ok ?_ (.fieldLeft id head hr hf ho hp hof)
                exact (bind_of_ok htaken _).trans (bind_of_ok hrecords _)
              · refine .of_error ?_ (.broken rfl hp e)
                exact (bind_of_ok htaken _).trans (bind_of_error he _)
            · rw [if_neg ht] at htaken
              exact .of_error (bind_of_error htaken _) (.broken rfl hp _)
      · exact .of_ok (leaveField_of_leaf hr hf ho) (.leafLeft id head selections hr hf ho)

/-- **Whatever the pass, a move does one of the things a move can do.** -/
theorem does (m : Move) (p : Pass) : m.Does s p (failure? (m.step s) p) (after (m.step s) p) := by
  cases m with
  | enterOperation id o => exact does_enterOperation id o p
  | leaveOperation id o => exact does_leaveOperation id o p
  | enterVariable id v => exact does_enterVariable id v p
  | enterField id head selections => exact does_enterField id head selections p
  | leaveField id head selections => exact does_leaveField id head selections p

end Move

end GraphQLTyping
