import GraphQLTyping.Proofs.Pass.Log
import GraphQLTyping.Proofs.Pass.Resolved

/-!
# What a failing request leaves

A **request** is one thing that may be asked of a pass in a session (`Request`).  `Request.Fails`
lists how requests fail: for each failure the condition, the error, and the pass that is left.

* What is refused at once leaves the pass as it was: entering something, taking a type from nothing,
  leaving a field that was never entered, and typing with a pass that was used before.
* Leaving a field or an operation takes the innermost type away before it looks at anything below.
  If it fails then, nothing else has changed.  A field fails to be left where the innermost type is
  not the field's own, though it may be one of the same name.
* An operation has its root fields noted when one of its variables is found to have no record.

The list is complete: throughout a session, a request fails with an error and leaves a pass exactly
if the list says so (`Pass.Session.failures`).
-/

namespace GraphQLTyping

open Pass

variable {s : Schema} {documents : Nat → Document} {p q : Pass} {id : NodeId} {name : String}
  {e : TypingError} {t : TypeDef} {outer : List (Option TypeDef)} {f : TypedField} {o : Operation}
  {head : FieldHead} {selections : List Selection} {nodes children defined : List (NodeId × String)}

/-- The name of the first of some nodes that has no record. -/
def Typing.untyped? (t : Typing) (nodes : List (NodeId × String)) : Option String :=
  (nodes.find? fun node => (t.record? node.1).isNone).map (·.2)

theorem Typing.isSome_of_untyped? {t : Typing} (h : t.untyped? nodes = none) :
    ∀ node ∈ nodes, (t.record? node.1).isSome := by
  intro node hnode
  have hfound := List.find?_eq_none.mp (Option.map_eq_none_iff.mp h) node hnode
  rwa [Bool.not_eq_true, Option.isNone_eq_false_iff] at hfound

/-- A **request** to a pass. -/
inductive Request where
  | handle (id : NodeId) (node : Node) (handler : Handler)
  | push (t : TypeDef)
  | pop
  | current
  | typeDocument (number : Nat)
  | typeNode (id : NodeId) (node : Node)

namespace Request

/-- The step of a pass that a request asks for. -/
def step (s : Schema) (documents : Nat → Document) : Request → Step Unit
  | handle id node handler => discard (Pass.handle s id node handler)
  | push t => Pass.push t
  | pop => discard Pass.pop
  | current => discard Pass.current
  | typeDocument number => Pass.typeDocument s number (documents number)
  | typeNode id node => Pass.typeNode s id node

/-- A request **stands** in documents if its node is theirs, and of the sort that its handler is
meant for, and if its type is an object type, of whatever home. -/
def Stands (documents : Nat → Document) : Request → Prop
  | handle id node handler =>
    (documents id.document).node? id.path = some node ∧ handler.suits node = true
  | push t => t.isObject = true
  | typeNode id node => (documents id.document).node? id.path = some node
  | pop | current | typeDocument _ => True

/-- Whether a request is to type a document or a node. -/
def isTyping : Request → Bool
  | typeDocument _ | typeNode .. => true
  | _ => false

/-- How requests **fail**, and what they leave of a pass.  Typing with a new pass is left out. -/
inductive Fails (s : Schema) (p : Pass) : Request → TypingError → Pass → Prop
  -- what is refused at once: the pass is left as it was
  | missingRoot (id : NodeId) {o : Operation} (h : s.root? o.kind = none) :
    Fails s p (handle id (.operation o) .enterOperation) (.missingRoot o.kind) p
  | variableFault (id : NodeId) {v : VariableDef} {e : TypingError}
    (h : s.variableFault? v = some e) : Fails s p (handle id (.variable v) .enterVariable) e p
  | fieldFault (id : NodeId) {head : FieldHead} (selections : List Selection) {e : TypingError}
    (h : s.fieldFault? p.enclosing head.name = some e) :
    Fails s p (handle id (.field head selections) .enterField) e p
  | nothingToTake (h : p.enclosing = []) : Fails s p pop .nothingEnclosing p
  | outside (h : p.enclosing = []) : Fails s p current .outsideOperation p
  | neverEntered {id : NodeId} (head : FieldHead) (selections : List Selection)
    (h : p.typing.typedAt? id = none) :
    Fails s p (handle id (.field head selections) .leaveField) (.neverEntered head.name) p
  | fieldLeftNowhere {id : NodeId} (head : FieldHead) (selections : List Selection) {f : TypedField}
    (hf : p.typing.typedAt? id = some f) (ho : f.resolution = .object) (h : p.enclosing = []) :
    Fails s p (handle id (.field head selections) .leaveField) .nothingEnclosing p
  | operationLeftNowhere (id : NodeId) (o : Operation) (h : p.enclosing = []) :
    Fails s p (handle id (.operation o) .leaveOperation) .nothingEnclosing p
  | documentAgain (number : Nat) (h : p.used = true) :
    Fails s p (typeDocument number) .alreadyUsed p
  | nodeAgain (id : NodeId) (node : Node) (h : p.used = true) :
    Fails s p (typeNode id node) .alreadyUsed p
  -- what fails after the innermost type was taken away, here because it is not the field's own
  | wrongType {id : NodeId} (head : FieldHead) (selections : List Selection) {f : TypedField}
    {t : TypeDef} {outer : List (Option TypeDef)} (hf : p.typing.typedAt? id = some f)
    (ho : f.resolution = .object) (h : p.enclosing = some t :: outer) (ht : t ≠ f.type) :
    Fails s p (handle id (.field head selections) .leaveField)
      (.wrongTypeLeft f.type.name f.name t.name) (p.popped t outer)
  | childUntyped {id : NodeId} (head : FieldHead) {selections : List Selection} {f : TypedField}
    {outer : List (Option TypeDef)} {name : String} (hf : p.typing.typedAt? id = some f)
    (ho : f.resolution = .object) (h : p.enclosing = some f.type :: outer)
    (hchild : p.typing.untyped? (selectedFields id selections) = some name) :
    Fails s p (handle id (.field head selections) .leaveField) (.childNotTyped name)
      (p.popped f.type outer)
  | rootUntyped {id : NodeId} {o : Operation} {t : TypeDef} {outer : List (Option TypeDef)}
    {name : String} (h : p.enclosing = some t :: outer)
    (hchild : p.typing.untyped? (selectedFields id o.selections) = some name) :
    Fails s p (handle id (.operation o) .leaveOperation) (.childNotTyped name) (p.popped t outer)
  -- by then the root fields have been noted
  | variableUntyped {id : NodeId} {o : Operation} {t : TypeDef} {outer : List (Option TypeDef)}
    {name : String} (h : p.enclosing = some t :: outer)
    (hchildren : p.typing.untyped? (selectedFields id o.selections) = none)
    (hvariable : p.typing.untyped? (definedVariables id o.variableDefs) = some name) :
    Fails s p (handle id (.operation o) .leaveOperation) (.variableNotTyped name)
      { p.popped t outer with
        typing := notedFields p.typing id
          ((selectedFields id o.selections).filterMap fun child => p.typing.record? child.1) }

end Request

/-- No move uses a pass. -/
theorem Move.Does.used_eq {m : Move} {e : Option TypingError} (h : m.Does s p e q) :
    q.used = p.used := by
  cases h <;> rfl

namespace Pass

/-! ### Steps that fail -/

/-- Looking up the records of nodes fails at the first that has none. -/
theorem mapM_recordOr_of_untyped (h : p.typing.untyped? nodes = some name)
    (error : String → TypingError) :
    (nodes.mapM fun (id, name) => recordOr (error name) id) p = .error (error name) p := by
  induction nodes with
  | nil => cases h
  | cons node rest ih =>
    rw [List.mapM_cons]
    cases hr : p.typing.record? node.1 with
    | none =>
      rw [Typing.untyped?, List.find?_cons_of_pos (by rw [hr]; rfl)] at h
      cases h
      exact bind_of_error (recordOr_of_none hr _) _
    | some r =>
      rw [Typing.untyped?, List.find?_cons_of_neg (by rw [hr]; exact Bool.false_ne_true)] at h
      rw [bind_of_ok (recordOr_of_some hr _), bind_of_error (ih h)]

theorem current_of_nil (h : p.enclosing = []) : current p = .error .outsideOperation p :=
  bind_of_error (innermost_of_nil h) _

theorem current_of_cons (h : p.enclosing = some t :: outer) : current p = .ok t p :=
  bind_of_ok (innermost_of_cons h) _

/-- A field that no missing type encloses fails before it has changed anything. -/
theorem enterField_of_fault_known (hknown : ∀ outer, p.enclosing ≠ none :: outer)
    (h : s.fieldFault? p.enclosing name = some e) (id : NodeId) :
    enterField s id name p = .error e p := by
  cases hp : p.enclosing with
  | nil =>
    rw [hp] at h
    cases h
    exact enterField_of_nil hp
  | cons parent outer =>
    cases parent with
    | none => exact absurd hp (hknown outer)
    | some type =>
      rw [hp, Schema.fieldFault?] at h
      cases hf : s.typedOutput? (some type) name with
      | none =>
        rw [hf] at h
        cases h
        exact enterField_missing hp hf
      | some f =>
        simp [hf] at h

theorem leaveOperation_of_nil (h : p.enclosing = []) :
    leaveOperation id children defined p = .error .nothingEnclosing p :=
  bind_of_error (discard_of_error (pop_of_nil h)) _

theorem leaveOperation_of_untypedField (h : p.enclosing = some t :: outer)
    (hchild : p.typing.untyped? children = some name) :
    leaveOperation id children defined p = .error (.childNotTyped name) (p.popped t outer) := by
  rw [leaveOperation, bind_of_ok (discard_of_ok (pop_of_cons h))]
  exact bind_of_error (bind_of_error
    (mapM_recordOr_of_untyped (p := p.popped t outer) hchild .childNotTyped) _) _

theorem leaveOperation_of_untypedVariable (h : p.enclosing = some t :: outer)
    (hchildren : p.typing.untyped? children = none)
    (hvariable : p.typing.untyped? defined = some name) :
    leaveOperation id children defined p = .error (.variableNotTyped name)
      { p.popped t outer with
        typing := notedFields p.typing id
          (children.filterMap fun child => p.typing.record? child.1) } := by
  rw [leaveOperation, bind_of_ok (discard_of_ok (pop_of_cons h))]
  have hrecords := childRecords_of_isSome (p := p.popped t outer)
    (Typing.isSome_of_untyped? hchildren)
  have hfields := bind_of_ok hrecords fun fields =>
    note fun a => { a with operationFields := (id, fields) :: a.operationFields }
  have hvariables := mapM_recordOr_of_untyped (p := { p.popped t outer with
    typing := notedFields p.typing id
      (children.filterMap fun child => p.typing.record? child.1) }) hvariable .variableNotTyped
  exact (bind_of_ok hfields _).trans (bind_of_error hvariables _)

theorem leaveField_of_never (h : p.typing.typedAt? id = none) :
    leaveField id name children p = .error (.neverEntered name) p := by
  rw [Typing.typedAt?] at h
  cases hr : p.typing.record? id with
  | none => exact bind_of_error (bind_of_error (recordOr_of_none hr _) _) _
  | some r =>
    rw [hr, Option.bind_some] at h
    simp only [leaveField, leaveType, bind_apply, recordOr_of_some hr, get_apply, h, throw_apply]

/-- The records and the typed field of a node that was entered. -/
theorem exists_record_of_typedAt? {t : Typing} (h : t.typedAt? id = some f) :
    ∃ r, t.record? id = some r ∧ t.field? r = some f :=
  Option.bind_eq_some_iff.mp h

theorem leaveField_of_nil (hf : p.typing.typedAt? id = some f) (ho : f.resolution = .object)
    (h : p.enclosing = []) : leaveField id name children p = .error .nothingEnclosing p := by
  obtain ⟨r, hr, hf⟩ := exists_record_of_typedAt? hf
  refine bind_of_error ?_ _
  rw [leaveType_of_object hr hf ho]
  exact bind_of_error (pop_of_nil h) _

theorem leaveField_of_wrongType (hf : p.typing.typedAt? id = some f) (ho : f.resolution = .object)
    (h : p.enclosing = some t :: outer) (ht : t ≠ f.type) :
    leaveField id name children p =
      .error (.wrongTypeLeft f.type.name f.name t.name) (p.popped t outer) := by
  obtain ⟨r, hr, hf⟩ := exists_record_of_typedAt? hf
  refine bind_of_error ?_ _
  rw [leaveType_of_object hr hf ho, bind_of_ok (pop_of_cons h), if_neg ht]
  rfl

/-- A type that only looks like the field's does not go for it. -/
example : failure? (do
    discard (enterField Sample.schema ⟨0, .within 0 [0]⟩ "me")
    push Sample.stranger
    leaveField ⟨0, .within 0 [0]⟩ "me" []) { enclosing := [some Sample.query] } =
      some (.wrongTypeLeft "User" "me" "User") := by
  rfl

theorem leaveField_of_untyped {missing : String} (hf : p.typing.typedAt? id = some f)
    (ho : f.resolution = .object) (h : p.enclosing = some f.type :: outer)
    (hchild : p.typing.untyped? children = some missing) :
    leaveField id name children p = .error (.childNotTyped missing) (p.popped f.type outer) := by
  obtain ⟨r, hr, hf⟩ := exists_record_of_typedAt? hf
  have htype : leaveType (.neverEntered name) id p = .ok (some r) (p.popped f.type outer) := by
    rw [leaveType_of_object hr hf ho, bind_of_ok (pop_of_cons h), if_pos rfl]
    rfl
  exact (bind_of_ok htype _).trans (bind_of_error
    (mapM_recordOr_of_untyped (p := p.popped f.type outer) hchild .childNotTyped) _)

/-! ### Used passes -/

theorem keptByMoves_used (s : Schema) (documents : Nat → Document) :
    KeptByMoves s documents fun q => q.used = true :=
  fun m _ q hq => (Move.Does.used_eq (m.does q)).trans hq

/-- A pass that was used stays so. -/
theorem Next.used (h : Next s documents p q) (hp : p.used = true) : q.used = true := by
  cases h with
  | handle id hnode handler hsuits => exact (keptByMoves_used s documents).handle hnode hsuits p hp
  | push => exact hp
  | pop =>
    exact keeps_pop (P := fun q => q.used = true) (fun _ _ _ h => h) (fun _ _ _ _ h => h) p hp
  | typeDocument =>
    rw [Pass.typeDocument, after_of_error (complete_of_used hp _)]
    exact hp
  | typeNode =>
    rw [Pass.typeNode, after_of_error (complete_of_used hp _)]
    exact hp

theorem Later.used (h : Later s documents p q) (hp : p.used = true) : q.used = true := by
  induction h with
  | refl => exact hp
  | tail _ hnext ih => exact hnext.used ih

/-- A pass was used after a whole walk, however that ends. -/
theorem used_after_complete {walk : Step Unit} (h : Keeps (fun q => q.used = true) walk)
    (p : Pass) : (after (complete walk) p).used = true := by
  cases hu : p.used with
  | true =>
    rw [after_of_error (complete_of_used hu walk)]
    exact hu
  | false =>
    rw [after_complete hu]
    exact h _ rfl

end Pass

/-! ### Requests -/

namespace Request

theorem used_after_typing {request : Request} (hstands : request.Stands documents)
    (htyping : request.isTyping = true) (p : Pass) :
    (after (request.step s documents) p).used = true := by
  cases request with
  | handle | push | pop | current => cases htyping
  | typeDocument number =>
    refine used_after_complete ((keptByMoves_used s documents).walkDefinitions _ 0 ?_) p
    intro a definition hget
    rwa [Nat.zero_add]
  | typeNode id node =>
    exact used_after_complete ((keptByMoves_used s documents).walkNode hstands) p

/-- Typing with a pass that was used fails and changes nothing. -/
theorem step_typing_of_used {request : Request} (htyping : request.isTyping = true)
    (hused : p.used = true) : request.step s documents p = .error .alreadyUsed p := by
  cases request with
  | handle | push | pop | current => cases htyping
  | typeDocument | typeNode => exact complete_of_used hused _

theorem discard_bind_pure {α : Type} (x : Step PUnit) (a : α) :
    (discard (x >>= fun _ => pure a) : Step PUnit) = x := by
  funext p
  rw [discard_apply, bind_apply]
  cases x p <;> rfl

theorem step_enterOperation (id : NodeId) (o : Operation) :
    (handle id (.operation o) .enterOperation).step s documents = enterOperation s o.kind :=
  discard_bind_pure _ _

theorem step_leaveOperation (id : NodeId) (o : Operation) :
    (handle id (.operation o) .leaveOperation).step s documents =
      leaveOperation id (selectedFields id o.selections) (definedVariables id o.variableDefs) := by
  rw [step, handle_leaveOperation, discard_bind_pure]

theorem step_enterVariable (id : NodeId) (v : VariableDef) :
    (handle id (.variable v) .enterVariable).step s documents =
      enterVariable s id v.name v.type :=
  discard_bind_pure _ _

theorem step_enterField (id : NodeId) (head : FieldHead) (selections : List Selection) :
    (handle id (.field head selections) .enterField).step s documents =
      discard (enterField s id head.name) :=
  rfl

theorem step_leaveField (id : NodeId) (head : FieldHead) (selections : List Selection) :
    (handle id (.field head selections) .leaveField).step s documents =
      leaveField id head.name (selectedFields id selections) := by
  rw [step, handle_leaveField, discard_bind_pure]

/-- **A listed failure is one**: the request fails as listed. -/
theorem Fails.step_eq {request : Request} (h : request.Fails s p e q)
    (hknown : ∀ outer, p.enclosing ≠ none :: outer) :
    request.step s documents p = .error e q := by
  cases h with
  | missingRoot id hroot =>
    rw [step_enterOperation]
    exact enterOperation_missing hroot p
  | variableFault id hfault =>
    rw [step_enterVariable]
    exact enterVariable_of_fault hfault p
  | fieldFault id selections hfault =>
    rw [step_enterField]
    exact discard_of_error (enterField_of_fault_known hknown hfault id)
  | nothingToTake hp => exact discard_of_error (pop_of_nil hp)
  | outside hp => exact discard_of_error (current_of_nil hp)
  | neverEntered head selections hnone =>
    rw [step_leaveField]
    exact leaveField_of_never hnone
  | fieldLeftNowhere head selections hf ho hp =>
    rw [step_leaveField]
    exact leaveField_of_nil hf ho hp
  | operationLeftNowhere id o hp =>
    rw [step_leaveOperation]
    exact leaveOperation_of_nil hp
  | documentAgain number hused => exact complete_of_used hused _
  | nodeAgain id node hused => exact complete_of_used hused _
  | wrongType head selections hf ho hp ht =>
    rw [step_leaveField]
    exact leaveField_of_wrongType hf ho hp ht
  | childUntyped head hf ho hp hchild =>
    rw [step_leaveField]
    exact leaveField_of_untyped hf ho hp hchild
  | rootUntyped hp hchild =>
    rw [step_leaveOperation]
    exact leaveOperation_of_untypedField hp hchild
  | variableUntyped hp hchildren hvariable =>
    rw [step_leaveOperation]
    exact leaveOperation_of_untypedVariable hp hchildren hvariable

theorem fails_enterOperation
    (h : (handle id (.operation o) .enterOperation).step s documents p = .error e q) :
    (handle id (.operation o) .enterOperation).Fails s p e q := by
  rw [step_enterOperation] at h
  cases hroot : s.root? o.kind with
  | none =>
    rw [enterOperation_missing hroot] at h
    cases h
    exact .missingRoot id hroot
  | some root =>
    rw [enterOperation_root hroot] at h
    cases h

theorem fails_enterVariable {v : VariableDef}
    (h : (handle id (.variable v) .enterVariable).step s documents p = .error e q) :
    (handle id (.variable v) .enterVariable).Fails s p e q := by
  rw [step_enterVariable] at h
  cases hfault : s.variableFault? v with
  | some e' =>
    rw [enterVariable_of_fault hfault] at h
    cases h
    exact .variableFault id hfault
  | none =>
    obtain ⟨_, hok, _⟩ := enterVariable_of_sound hfault id p p.enclosing
    rw [hok] at h
    cases h

theorem fails_enterField (hknown : ∀ outer, p.enclosing ≠ none :: outer)
    (h : (handle id (.field head selections) .enterField).step s documents p = .error e q) :
    (handle id (.field head selections) .enterField).Fails s p e q := by
  rw [step_enterField] at h
  cases hf : s.fieldFault? p.enclosing head.name with
  | some e' =>
    rw [discard_of_error (enterField_of_fault_known hknown hf id)] at h
    cases h
    exact .fieldFault id selections hf
  | none =>
    cases hin : s.inside? p.enclosing head.name with
    | none =>
      obtain ⟨_, _, _, hok, _⟩ := enterField_of_over hin hf id
      rw [discard_of_ok hok] at h
      cases h
    | some inner =>
      obtain ⟨_, _, _, hok, _⟩ := enterField_of_into hin id
      rw [discard_of_ok hok] at h
      cases h

theorem fails_leaveOperation (hknown : ∀ outer, p.enclosing ≠ none :: outer)
    (h : (handle id (.operation o) .leaveOperation).step s documents p = .error e q) :
    (handle id (.operation o) .leaveOperation).Fails s p e q := by
  rw [step_leaveOperation] at h
  rcases hp : p.enclosing with _ | ⟨_ | type, outer⟩
  · rw [leaveOperation_of_nil hp] at h
    cases h
    exact .operationLeftNowhere id o hp
  · exact absurd hp (hknown outer)
  · cases hchildren : p.typing.untyped? (selectedFields id o.selections) with
    | some name =>
      rw [leaveOperation_of_untypedField hp hchildren] at h
      cases h
      exact .rootUntyped hp hchildren
    | none =>
      cases hvariables : p.typing.untyped? (definedVariables id o.variableDefs) with
      | some name =>
        rw [leaveOperation_of_untypedVariable hp hchildren hvariables] at h
        cases h
        exact .variableUntyped hp hchildren hvariables
      | none =>
        rw [leaveOperation_of_cons hp (Typing.isSome_of_untyped? hchildren)
          (Typing.isSome_of_untyped? hvariables)] at h
        cases h

theorem fails_leaveField (hknown : ∀ outer, p.enclosing ≠ none :: outer)
    (h : (handle id (.field head selections) .leaveField).step s documents p = .error e q) :
    (handle id (.field head selections) .leaveField).Fails s p e q := by
  rw [step_leaveField] at h
  cases hf : p.typing.typedAt? id with
  | none =>
    rw [leaveField_of_never hf] at h
    cases h
    exact .neverEntered head selections hf
  | some f =>
    obtain ⟨r, hr, hfield⟩ := exists_record_of_typedAt? hf
    by_cases ho : f.resolution = .object
    · rcases hp : p.enclosing with _ | ⟨_ | type, outer⟩
      · rw [leaveField_of_nil hf ho hp] at h
        cases h
        exact .fieldLeftNowhere head selections hf ho hp
      · exact absurd hp (hknown outer)
      · by_cases ht : type = f.type
        · subst ht
          cases hchildren : p.typing.untyped? (selectedFields id selections) with
          | some name =>
            rw [leaveField_of_untyped hf ho hp hchildren] at h
            cases h
            exact .childUntyped head hf ho hp hchildren
          | none =>
            rw [leaveField_of_object hr hfield ho hp (Typing.isSome_of_untyped? hchildren)] at h
            cases h
        · rw [leaveField_of_wrongType hf ho hp ht] at h
          cases h
          exact .wrongType head selections hf ho hp ht
    · rw [leaveField_of_leaf hr hfield ho] at h
      cases h

/-- **Every failure is listed.** -/
theorem fails_of_step {request : Request} (hstands : request.Stands documents)
    (htyping : request.isTyping = true → p.used = true)
    (hknown : ∀ outer, p.enclosing ≠ none :: outer)
    (h : request.step s documents p = .error e q) : request.Fails s p e q := by
  cases request with
  | handle id node handler =>
    obtain ⟨_, hsuits⟩ := hstands
    cases handler with
    | enterInlineFragment | enterFragment => cases h
    | enterOperation =>
      cases node <;> cases hsuits
      exact fails_enterOperation h
    | leaveOperation =>
      cases node <;> cases hsuits
      exact fails_leaveOperation hknown h
    | enterVariable =>
      cases node <;> cases hsuits
      exact fails_enterVariable h
    | enterField =>
      cases node <;> cases hsuits
      exact fails_enterField hknown h
    | leaveField =>
      cases node <;> cases hsuits
      exact fails_leaveField hknown h
  | push t => cases h
  | pop =>
    rcases hp : p.enclosing with _ | ⟨_ | type, outer⟩
    · rw [step, discard_of_error (pop_of_nil hp)] at h
      cases h
      exact .nothingToTake hp
    · exact absurd hp (hknown outer)
    · rw [step, discard_of_ok (pop_of_cons hp)] at h
      cases h
  | current =>
    rcases hp : p.enclosing with _ | ⟨_ | type, outer⟩
    · rw [step, discard_of_error (current_of_nil hp)] at h
      cases h
      exact .outside hp
    · exact absurd hp (hknown outer)
    · rw [step, discard_of_ok (current_of_cons hp)] at h
      cases h
  | typeDocument number =>
    rw [step_typing_of_used rfl (htyping rfl)] at h
    cases h
    exact .documentAgain number (htyping rfl)
  | typeNode id node =>
    rw [step_typing_of_used rfl (htyping rfl)] at h
    cases h
    exact .nodeAgain id node (htyping rfl)

end Request

/-- **What a failing request leaves.**  In a session, a request fails with an error and leaves a
pass exactly if that is listed, unless it is to type with a pass that was not used.  After one that
is, be it granted or failed, every later one to type fails and leaves the pass as it was. -/
theorem Pass.Session.failures (h : Session s documents p) :
    (∀ request : Request, request.Stands documents → (request.isTyping = true → p.used = true) →
      ∀ e q, request.step s documents p = .error e q ↔ request.Fails s p e q) ∧
    ∀ first again : Request, first.Stands documents → first.isTyping = true →
      again.isTyping = true → ∀ q, Later s documents (after (first.step s documents) p) q →
        again.step s documents q = .error .alreadyUsed q := by
  have hknown : ∀ outer, p.enclosing ≠ none :: outer := fun _ => h.nested.not_missing
  refine ⟨fun request hstands htyping e q =>
    ⟨Request.fails_of_step hstands htyping hknown, fun hfails => hfails.step_eq hknown⟩, ?_⟩
  intro first again hstands hfirst hagain q hlater
  exact Request.step_typing_of_used hagain
    (hlater.used (Request.used_after_typing hstands hfirst p))

/-- An operation that is left when the type of its field was taken away and its variable was never
entered: its root field has been noted, and its variables have not. -/
theorem Pass.Session.failures_of_half_left :
    ∃ (p : Pass) (o : Operation) (q : Pass),
      Session Sample.schema (fun _ => Sample.document "friend" "name") p ∧
        p.enclosing = [some Sample.query] ∧
        (Request.handle ⟨0, .within 0 []⟩ (.operation o) .leaveOperation).step Sample.schema
          (fun _ => Sample.document "friend" "name") p = .error (.variableNotTyped "by") q ∧
        q.enclosing = [] ∧ q.typing.operationFields = [(⟨0, .within 0 []⟩, [0])] ∧
        q.typing.operationVariables = [] := by
  have hentered : Session Sample.schema (fun _ => Sample.document "friend" "name") _ :=
    .handle .new ⟨0, .within 0 []⟩ rfl .enterOperation rfl
  have hfield := hentered.handle ⟨0, .within 0 [0]⟩ rfl .enterField rfl
  obtain ⟨hfails, _⟩ := Session.failures hfield.pop
  refine ⟨_, _, _, hfield.pop, rfl,
    (hfails (.handle ⟨0, .within 0 []⟩ (.operation _) .leaveOperation) ⟨rfl, rfl⟩ ?_ _ _).mpr
      (.variableUntyped rfl rfl rfl), rfl, rfl, rfl⟩
  intro htyping
  cases htyping

end GraphQLTyping
