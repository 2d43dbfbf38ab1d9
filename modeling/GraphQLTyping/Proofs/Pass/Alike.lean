import Mathlib.Data.List.Forall2
import Mathlib.Logic.Relator
import GraphQLTyping.Proofs.Pass.Run

/-!
# Passes side by side

Two passes stand **alike** if they are the same but for which nodes they have noted things about, and
the nodes of one are related to those of the other (`Pass.Alike`).  Two steps **go alike** if from
passes that stand alike they end alike, with the same answer or the same error
(`Pass.GoAlike`).  This is kept by taking steps in a row, and so it goes from the parts of a step to
the step, and from moves to walks (`Pass.goAlike_takeTurns`).

Moves are alike (`Move.Alike`) if they do the same thing on related nodes and agree on what a step
looks at: names, types and kinds, and the nodes right below.  A pass looks up a node by identity, so
the relation has to be one-to-one.
-/

namespace GraphQLTyping

variable {R : NodeId → NodeId → Prop} {s : Schema} {p q : Pass} {t t' : Typing} {id id' : NodeId}
  {α β : Type}

/-- Two entries about nodes **match** if they say the same of related nodes. -/
def Matched (R : NodeId → NodeId → Prop) (a b : NodeId × α) : Prop := R a.1 b.1 ∧ a.2 = b.2

/-- Typings that are **alike** have the same records for related nodes. -/
structure Typing.Alike (R : NodeId → NodeId → Prop) (t t' : Typing) : Prop where
  records : t.records = t'.records
  nodes : List.Forall₂ (Matched R) t.nodes t'.nodes
  variableRecords : t.variableRecords = t'.variableRecords
  operationFields : List.Forall₂ (Matched R) t.operationFields t'.operationFields
  operationVariables : List.Forall₂ (Matched R) t.operationVariables t'.operationVariables
  inputs : t.inputs = t'.inputs

/-- Passes that stand **alike** differ in the nodes of their typings at most. -/
structure Pass.Alike (R : NodeId → NodeId → Prop) (p q : Pass) : Prop where
  used : p.used = q.used
  enclosing : p.enclosing = q.enclosing
  typing : p.typing.Alike R q.typing
  log : p.log = q.log

/-- Moves that are **alike** do the same thing on related nodes. -/
inductive Move.Alike (R : NodeId → NodeId → Prop) : Move → Move → Prop
  | enterOperation {id id' : NodeId} {o o' : Operation} (hid : R id id') (hkind : o.kind = o'.kind) :
    Alike R (.enterOperation id o) (.enterOperation id' o')
  | leaveOperation {id id' : NodeId} {o o' : Operation} (hid : R id id')
    (hfields : List.Forall₂ (Matched R) (selectedFields id o.selections)
      (selectedFields id' o'.selections))
    (hvariables : List.Forall₂ (Matched R) (definedVariables id o.variableDefs)
      (definedVariables id' o'.variableDefs)) :
    Alike R (.leaveOperation id o) (.leaveOperation id' o')
  | enterVariable {id id' : NodeId} {v v' : VariableDef} (hid : R id id') (hname : v.name = v'.name)
    (htype : v.type = v'.type) : Alike R (.enterVariable id v) (.enterVariable id' v')
  | enterField {id id' : NodeId} {head head' : FieldHead} {selections selections' : List Selection}
    (hid : R id id') (hname : head.name = head'.name) :
    Alike R (.enterField id head selections) (.enterField id' head' selections')
  | leaveField {id id' : NodeId} {head head' : FieldHead} {selections selections' : List Selection}
    (hid : R id id') (hname : head.name = head'.name)
    (hchildren : List.Forall₂ (Matched R) (selectedFields id selections)
      (selectedFields id' selections')) :
    Alike R (.leaveField id head selections) (.leaveField id' head' selections')

/-! ### Look-ups -/

/-- Related nodes are found alike. -/
theorem lookup_eq_of_matched (hR : Relator.BiUnique R) {l l' : List (NodeId × α)}
    (h : List.Forall₂ (Matched R) l l') (hid : R id id') : l.lookup id = l'.lookup id' := by
  induction h with
  | nil => rfl
  | @cons a b _ _ hfirst _ ih =>
    have hkey : (id == a.1) = (id' == b.1) := by
      rw [Bool.eq_iff_iff, beq_iff_eq, beq_iff_eq]
      constructor
      · rintro rfl
        exact hR.2 hid hfirst.1
      · rintro rfl
        exact hR.1 hid hfirst.1
    rw [List.lookup_cons, List.lookup_cons, ih, hkey, hfirst.2]

theorem Typing.Alike.record?_eq (hR : Relator.BiUnique R) (h : t.Alike R t') (hid : R id id') :
    t.record? id = t'.record? id' :=
  lookup_eq_of_matched hR h.nodes hid

theorem Typing.Alike.field?_eq (h : t.Alike R t') (r : RecordId) : t.field? r = t'.field? r := by
  rw [field?, field?, h.records]

theorem Typing.Alike.refl_empty (R : NodeId → NodeId → Prop) : Typing.Alike R {} {} :=
  ⟨rfl, .nil, rfl, .nil, .nil, rfl⟩

theorem Typing.Alike.add (h : t.Alike R t') (hid : R id id') (f : TypedField) :
    (t.add id f).Alike R (t'.add id' f) :=
  { h with
    records := by rw [Typing.add, Typing.add, h.records]
    nodes := .cons ⟨hid, by rw [h.records]⟩ h.nodes }

theorem Typing.Alike.addVariable (h : t.Alike R t') (hid : R id id') (f : TypedField) :
    (t.addVariable id f).Alike R (t'.addVariable id' f) :=
  { h.add hid f with
    variableRecords := by
      rw [Typing.addVariable, Typing.addVariable, h.variableRecords, h.records] }

theorem Typing.Alike.setChildren (h : t.Alike R t') (record : RecordId)
    (children : List RecordId) :
    (t.setChildren record children).Alike R (t'.setChildren record children) :=
  { h with records := by rw [Typing.setChildren, Typing.setChildren, h.records] }

namespace Pass

/-! ### Steps that go alike -/

/-- Outcomes that **agree**: the same answer or the same error, and passes that stand alike. -/
inductive Agree (R : NodeId → NodeId → Prop) :
    EStateM.Result TypingError Pass α → EStateM.Result TypingError Pass α → Prop
  | ok (a : α) {p q : Pass} (h : p.Alike R q) : Agree R (.ok a p) (.ok a q)
  | error (e : TypingError) {p q : Pass} (h : p.Alike R q) : Agree R (.error e p) (.error e q)

/-- Steps **go alike** if their outcomes agree wherever passes stand alike. -/
def GoAlike (R : NodeId → NodeId → Prop) (x y : Step α) : Prop :=
  ∀ p q, p.Alike R q → Agree R (x p) (y q)

theorem GoAlike.bind {x y : Step α} {f g : α → Step β} (h : GoAlike R x y)
    (hf : ∀ a, GoAlike R (f a) (g a)) : GoAlike R (x >>= f) (y >>= g) := by
  intro p q hpq
  have hxy := h p q hpq
  rw [bind_apply, bind_apply]
  generalize x p = outcome at hxy
  generalize y q = outcome' at hxy
  cases hxy with
  | ok a h => exact hf a _ _ h
  | error e h => exact .error e h

theorem GoAlike.discard {x y : Step α} (h : GoAlike R x y) :
    GoAlike R (discard x : Step PUnit) (discard y) := by
  intro p q hpq
  have hxy := h p q hpq
  rw [discard_apply, discard_apply]
  generalize x p = outcome at hxy
  generalize y q = outcome' at hxy
  cases hxy with
  | ok a h => exact .ok _ h
  | error e h => exact .error e h

theorem goAlike_pure (a : α) : GoAlike R (pure a) (pure a) := fun _ _ h => .ok a h

theorem goAlike_throw (e : TypingError) : GoAlike R (throw e : Step α) (throw e) :=
  fun _ _ h => .error e h

theorem goAlike_note {change change' : Typing → Typing}
    (h : ∀ t t' : Typing, t.Alike R t' → (change t).Alike R (change' t')) :
    GoAlike R (note change) (note change') :=
  fun _ _ hpq => .ok _ { hpq with typing := h _ _ hpq.typing }

theorem Alike.depth_eq (h : p.Alike R q) : p.depth = q.depth := by
  rw [depth, depth, h.enclosing]

theorem goAlike_pop : GoAlike R pop pop := by
  intro p q h
  cases hp : p.enclosing with
  | nil =>
    have hq := h.enclosing.symm.trans hp
    simp only [pop, bind_apply, get_apply, hp, hq, throw_apply]
    exact .error _ h
  | cons innermost rest =>
    have hq := h.enclosing.symm.trans hp
    cases innermost with
    | none =>
      simp only [pop, bind_apply, get_apply, hp, hq, modify_apply, known, throw_apply]
      exact .error _ { h with enclosing := rfl }
    | some t =>
      rw [pop_of_cons hp, pop_of_cons hq]
      exact .ok _ { h with enclosing := rfl, log := by rw [h.log] }

section Nodes

variable (hR : Relator.BiUnique R)

include hR

theorem goAlike_recordOr (hid : R id id') (e : TypingError) :
    GoAlike R (recordOr e id) (recordOr e id') := by
  intro p q h
  have hsame := h.typing.record?_eq hR hid
  cases hr : p.typing.record? id with
  | some r =>
    rw [recordOr_of_some hr, recordOr_of_some (hsame.symm.trans hr)]
    exact .ok r h
  | none =>
    have hr' := hsame.symm.trans hr
    simp only [recordOr, bind_apply, get_apply, hr, hr', throw_apply]
    exact .error e h

theorem goAlike_mapM_recordOr (error : String → TypingError) {nodes nodes' : List (NodeId × String)}
    (h : List.Forall₂ (Matched R) nodes nodes') :
    GoAlike R (nodes.mapM fun (id, name) => recordOr (error name) id)
      (nodes'.mapM fun (id, name) => recordOr (error name) id) := by
  induction h with
  | nil =>
    rw [List.mapM_nil]
    exact goAlike_pure []
  | @cons a b _ _ hfirst _ ih =>
    obtain ⟨id, name⟩ := a
    obtain ⟨id', name'⟩ := b
    obtain ⟨hid, rfl⟩ := hfirst
    rw [List.mapM_cons, List.mapM_cons]
    exact (goAlike_recordOr hR hid _).bind fun r => ih.bind fun records => goAlike_pure _

/-! ### Moves -/

omit hR in
theorem goAlike_enterOperation (kind : OperationKind) :
    GoAlike R (enterOperation s kind) (enterOperation s kind) := by
  intro p q h
  cases hr : s.root? kind with
  | none =>
    rw [enterOperation_missing hr, enterOperation_missing hr]
    exact .error _ h
  | some root =>
    rw [enterOperation_root hr, enterOperation_root hr]
    exact .ok _ { h with enclosing := by rw [h.enclosing], log := by rw [h.log, h.depth_eq] }

theorem goAlike_leaveOperation (hid : R id id')
    {children children' defined defined' : List (NodeId × String)}
    (hc : List.Forall₂ (Matched R) children children')
    (hd : List.Forall₂ (Matched R) defined defined') :
    GoAlike R (leaveOperation id children defined) (leaveOperation id' children' defined') := by
  refine goAlike_pop.discard.bind fun _ => GoAlike.bind ?_ fun _ => ?_
  · refine (goAlike_mapM_recordOr hR _ hc).bind fun fields => goAlike_note fun t t' h => ?_
    exact { h with operationFields := .cons ⟨hid, rfl⟩ h.operationFields }
  · refine (goAlike_mapM_recordOr hR _ hd).bind fun records => goAlike_note fun t t' h => ?_
    exact { h with operationVariables := .cons ⟨hid, rfl⟩ h.operationVariables }

omit hR in
theorem goAlike_enterVariable (hid : R id id') (name : String) (type : TypeRef) :
    GoAlike R (enterVariable s id name type) (enterVariable s id' name type) := by
  intro p q h
  cases hs : type.simpleShape with
  | error rest =>
    rw [enterVariable_unsupported hs, enterVariable_unsupported hs]
    exact .error _ h
  | ok shape =>
    cases hb : s.type? shape.name with
    | none =>
      rw [enterVariable_unknown hs hb, enterVariable_unknown hs hb]
      exact .error _ h
    | some bare =>
      by_cases ho : bare.inputResolution = .object
      · rw [enterVariable_object hs hb ho, enterVariable_object hs hb ho, h.typing.inputs]
        refine .ok _ { h with typing := ?_, log := by rw [h.log] }
        have hinputs : Typing.Alike R
            { p.typing with inputs := (InputLists.resolve s bare q.typing.inputs).2.inputs }
            { q.typing with inputs := (InputLists.resolve s bare q.typing.inputs).2.inputs } :=
          ⟨h.typing.records, h.typing.nodes, h.typing.variableRecords, h.typing.operationFields,
            h.typing.operationVariables, rfl⟩
        exact hinputs.addVariable hid _
      · by_cases hu : bare.inputResolution = .unclassified
        · rw [enterVariable_unclassified hs hb hu, enterVariable_unclassified hs hb hu]
          exact .ok _ { h with typing := h.typing.addVariable hid _, log := by rw [h.log] }
        · rw [enterVariable_leaf hs hb ho hu, enterVariable_leaf hs hb ho hu]
          exact .ok _ { h with typing := h.typing.addVariable hid _ }

omit hR in
theorem goAlike_enterField (hid : R id id') (name : String) :
    GoAlike R (enterField s id name) (enterField s id' name) := by
  intro p q h
  cases hp : p.enclosing with
  | nil =>
    rw [enterField_of_nil hp, enterField_of_nil (h.enclosing.symm.trans hp)]
    exact .error _ h
  | cons parent outer =>
    have hq := h.enclosing.symm.trans hp
    cases hf : s.typedOutput? parent name with
    | none =>
      rw [enterField_missing hp hf, enterField_missing hq hf]
      exact .error _ h
    | some f =>
      have hadd := h.typing.add hid f
      by_cases ho : f.resolution = .object
      · rw [enterField_object hp hf ho, enterField_object hq hf ho]
        exact .ok _ { h with
          typing := hadd, enclosing := by rw [h.enclosing], log := by rw [h.log, h.depth_eq] }
      · by_cases hu : f.resolution = .unclassified
        · cases parent with
          | none =>
            rw [enterField_nowhere hp hf hu, enterField_nowhere hq hf hu]
            exact .error _ { h with typing := hadd }
          | some parent =>
            rw [enterField_unclassified hp hf hu, enterField_unclassified hq hf hu]
            exact .ok _ { h with typing := hadd, log := by rw [h.log] }
        · rw [enterField_leaf hp hf ho hu, enterField_leaf hq hf ho hu]
          exact .ok _ { h with typing := hadd }

theorem goAlike_leaveType (hid : R id id') (e : TypingError) :
    GoAlike R (leaveType e id) (leaveType e id') := by
  refine (goAlike_recordOr hR hid e).bind fun record => ?_
  intro p q h
  have hsame := h.typing.field?_eq record
  simp only [bind_apply, get_apply, hsame]
  cases q.typing.field? record with
  | none => exact .error e h
  | some f =>
    by_cases ho : f.resolution = .object
    · simp only [if_pos ho]
      refine (goAlike_pop.bind fun left => ?_) p q h
      by_cases ht : left = f.type
      · simp only [if_pos ht]
        exact goAlike_pure _
      · simp only [if_neg ht]
        exact (goAlike_throw _).bind fun _ => goAlike_pure _
    · simp only [if_neg ho]
      exact goAlike_pure none p q h

theorem goAlike_leaveField (hid : R id id') (name : String)
    {children children' : List (NodeId × String)}
    (hc : List.Forall₂ (Matched R) children children') :
    GoAlike R (leaveField id name children) (leaveField id' name children') := by
  refine (goAlike_leaveType hR hid _).bind fun left => ?_
  cases left with
  | none => exact goAlike_pure _
  | some record =>
    refine (goAlike_mapM_recordOr hR _ hc).bind fun records => goAlike_note fun t t' h => ?_
    exact h.setChildren record records

/-- **Moves that are alike go alike.** -/
theorem goAlike_step {m m' : Move} (h : m.Alike R m') : GoAlike R (m.step s) (m'.step s) := by
  cases h with
  | @enterOperation id id' o o' hid hkind =>
    rw [Move.step, Move.step, hkind]
    exact goAlike_enterOperation _
  | leaveOperation hid hfields hvariables => exact goAlike_leaveOperation hR hid hfields hvariables
  | enterVariable hid hname htype =>
    rw [Move.step, Move.step, hname, htype]
    exact goAlike_enterVariable hid _ _
  | enterField hid hname =>
    rw [Move.step, Move.step, hname]
    exact (goAlike_enterField hid _).discard
  | leaveField hid hname hchildren =>
    rw [Move.step, Move.step, hname]
    exact goAlike_leaveField hR hid _ hchildren

/-- **Walks with moves that are alike go alike.** -/
theorem goAlike_takeTurns {turns turns' : List Turn}
    (h : List.Forall₂ (fun a b => a.move.Alike R b.move) turns turns') :
    GoAlike R (takeTurns s turns) (takeTurns s turns') := by
  induction h with
  | nil => exact goAlike_pure _
  | cons hfirst _ ih =>
    rw [takeTurns, takeTurns]
    exact (goAlike_step hR hfirst).bind fun _ => ih

end Nodes

end Pass

end GraphQLTyping
