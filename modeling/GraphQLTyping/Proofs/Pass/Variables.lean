import GraphQLTyping.Proofs.Pass.Mirror
import GraphQLTyping.Proofs.Pass.Independence

/-!
# The variables of a typing

A typing tells of its variables twice.  The records of all variables are noted as a pass goes, and
those of an operation are looked up when it is left.  The two agree: the first are the second, one
operation after the other (`HasTyping.exists_variables`), with a record for each variable definition,
whatever names repeat.  The typed field of a record **tells** of the definition what is written there
(`TypedField.TellsVariable`).

An **input** of a typing (`Typing.HasInput`) is a typed field of a variable or one in a shared list
below another input.  Every input that resolves to an input object type shares the list of the name of
its type, and other inputs have nothing below them (`HasTyping.shares`).  So two inputs share one list
exactly if their types have one name, wherever they stand.
-/

namespace GraphQLTyping

open Pass

variable {s : Schema} {d : Document} {t : Typing} {n k i j : Nat} {id : NodeId} {r : RecordId}
  {turn : Turn} {enclosing : List (Option TypeDef)} {steps : List Nat} {f g : TypedField}
  {v : VariableDef} {o : Operation} {l l' : ListId}

/-! ### Variables that turns type -/

theorem definedVariablesFrom_getElem? (id : NodeId) (vs : List VariableDef) (i j : Nat) :
    (definedVariablesFrom id i vs)[j]? = vs[j]?.map fun v => (id.variableAt (i + j), v.name) := by
  induction vs generalizing i j with
  | nil => rfl
  | cons v rest ih =>
    cases j with
    | zero => rfl
    | succ j =>
      rw [definedVariablesFrom, List.getElem?_cons_succ, List.getElem?_cons_succ, ih]
      simp only [Nat.add_right_comm i 1 j, Nat.add_assoc]

theorem VariableDef.mem_turnsFrom (vs : List VariableDef) (i : Nat) (h : vs[j]? = some v) :
    ⟨.enterVariable (id.variableAt (i + j)) v, enclosing⟩ ∈ turnsFrom enclosing id i vs := by
  induction vs generalizing i j with
  | nil => cases h
  | cons w rest ih =>
    cases j with
    | zero =>
      cases h
      exact List.mem_cons_self
    | succ j =>
      refine List.mem_cons_of_mem _ ?_
      rw [show i + (j + 1) = i + 1 + j by omega]
      exact ih (i + 1) h

theorem VariableDef.typedVariables_turnsFrom (vs : List VariableDef) (i : Nat) :
    typedVariables (turnsFrom enclosing id i vs) = (definedVariablesFrom id i vs).map (·.1) := by
  induction vs generalizing i with
  | nil => rfl
  | cons v rest ih =>
    rw [definedVariablesFrom, List.map_cons, ← ih (i + 1)]
    rfl

/-- The variables that the turns of an operation type are those that it defines. -/
theorem Operation.typedVariables_turns {root : TypeDef} (h : s.root? o.kind = some root) :
    typedVariables (o.turns s enclosing ⟨n, .within k steps⟩) =
      variablesIn (⟨n, .within k steps⟩, o) := by
  have hvariables : typedVariables (VariableDef.turnsFrom (some root :: enclosing)
      ⟨n, .within k steps⟩ 0 o.variableDefs) = variablesIn (⟨n, .within k steps⟩, o) :=
    VariableDef.typedVariables_turnsFrom _ _
  have hselections : typedVariables
      (Selection.turnsFrom s (some root :: enclosing) ⟨n, .within k steps⟩ 0 o.selections) = [] := by
    refine List.filterMap_eq_nil_iff.mpr fun turn hturn => ?_
    obtain ⟨_, _, _, hmove | hmove⟩ := Selection.move_of_turn _ _ _ _ turn hturn <;>
    · rw [hmove]
      rfl
  rw [typedVariables] at hvariables hselections
  rw [turns_root h, turnsInside, typedVariables, List.filterMap_cons_none rfl, List.filterMap_append,
    List.filterMap_append, hvariables, hselections, List.append_nil, List.filterMap_cons_none rfl,
    List.filterMap_nil, List.append_nil]

theorem Document.mem_turns_of_variable {root : TypeDef}
    (hget : d.definitions[k]? = some (.operation o)) (hroot : s.root? o.kind = some root)
    (hv : o.variableDefs[i]? = some v) :
    ⟨.enterVariable ⟨n, .variable k i⟩ v, [some root]⟩ ∈ d.turns s n := by
  refine mem_turns_of_operation hget ?_
  have hmem : ⟨.enterVariable (NodeId.variableAt ⟨n, .within k []⟩ (0 + i)) v, [some root]⟩ ∈
      VariableDef.turnsFrom [some root] ⟨n, .within k []⟩ 0 o.variableDefs :=
    VariableDef.mem_turnsFrom _ 0 hv
  rw [Nat.zero_add] at hmem
  rw [Operation.turns_root hroot, Operation.turnsInside]
  exact List.mem_cons_of_mem _ (List.mem_append_left _ (List.mem_append_left _ hmem))

/-! ### The two records of variables -/

/-- A typed field **tells** of a variable definition: its name, the wrappers and the type that are
written there, and how that type resolves. -/
structure TypedField.TellsVariable (s : Schema) (v : VariableDef) (f : TypedField) : Prop where
  side : f.side = .input
  name : f.name = v.name
  parent : f.parent = none
  nonNull : f.nonNull = v.type.nonNull
  list : f.list = v.type.isList
  type : s.type? v.type.name = some f.type
  object : f.resolution = .object ↔ f.type.isInputObject = true
  scalar : f.resolution = .scalar ↔ f.type.isScalar = true
  enum : f.resolution = .enum ↔ f.type.isEnum = true
  unclassified : f.resolution = .unclassified ↔
    f.type.isInputObject = false ∧ f.type.isScalar = false ∧ f.type.isEnum = false

theorem TypedField.tellsVariable {shape : Shape} {bare : TypeDef} {children : Children}
    (hshape : v.type.simpleShape = .ok shape) (hb : s.type? shape.name = some bare) :
    { TypedField.ofVariable v.name shape bare with children }.TellsVariable s v := by
  have heq : shape = v.type.shape := by
    by_cases hdepth : v.type.listDepth < 2
    · rw [TypeRef.simpleShape_of_listDepth_lt hdepth] at hshape
      exact (Except.ok.inj hshape).symm
    · rw [TypeRef.simpleShape_of_le_listDepth (Nat.le_of_not_lt hdepth)] at hshape
      cases hshape
  subst heq
  rw [TypeRef.name_shape] at hb
  refine ⟨rfl, rfl, rfl, TypeRef.nonNull_shape _, TypeRef.list_shape _, hb, ?_, ?_, ?_, ?_⟩ <;>
  · simp only [ofVariable, TypeDef.inputResolution, TypeDef.isInputObject, TypeDef.isScalar,
      TypeDef.isEnum]
    cases bare.body <;> simp

namespace Typing

theorem RecordsOf.getElem? {nodes : List NodeId} {records : List RecordId}
    (h : t.RecordsOf nodes records) (hi : nodes[i]? = some id) :
    ∃ r, records[i]? = some r ∧ t.record? id = some r := by
  have heq : (records.map some)[i]? = (nodes.map t.record?)[i]? := congrArg (·[i]?) h
  rw [List.getElem?_map, List.getElem?_map, hi] at heq
  obtain ⟨r, hr, hrecord⟩ := Option.map_eq_some_iff.mp heq
  exact ⟨r, hr, hrecord.symm⟩

/-- The records of operations, one after the other, are those of all their nodes. -/
theorem exists_recordsOf_flatMap {ops : List (NodeId × Operation)}
    {answer : NodeId × Operation → Except LookupError (List RecordId)}
    {below : NodeId × Operation → List NodeId}
    (h : ∀ x ∈ ops, ∃ records, answer x = .ok records ∧ t.RecordsOf (below x) records) :
    ∃ lists, ops.mapM answer = .ok lists ∧ t.RecordsOf (ops.flatMap below) lists.flatten := by
  induction ops with
  | nil => exact ⟨[], rfl, rfl⟩
  | cons x rest ih =>
    obtain ⟨records, hanswer, hfirst⟩ := h x List.mem_cons_self
    obtain ⟨lists, hlists, hrest⟩ := ih fun y hy => h y (List.mem_cons_of_mem _ hy)
    refine ⟨records :: lists, ?_, hfirst.append hrest⟩
    rw [List.mapM_cons, hanswer, hlists]
    rfl

end Typing

namespace Document.HasTyping

theorem typedVariables_turns (h : d.HasTyping s n t) :
    typedVariables (d.turns s n) = (d.operationNodes n).flatMap variablesIn := by
  rw [turns_eq, typedVariables, List.filterMap_flatMap]
  refine List.flatMap_congr fun x hx => ?_
  obtain ⟨k, hget, hid⟩ := mem_operationNodes.mp hx
  obtain ⟨root, hroot⟩ := h.exists_root hget
  rw [hid, ← typedVariables, Operation.typedVariables_turns hroot, ← hid]

/-- **The variables in order are those of the operations**, one after the other. -/
theorem exists_variables (h : d.HasTyping s n t) :
    ∃ lists, (d.operationNodes n).mapM (fun x => t.variablesOf x.1 (.operation x.2)) = .ok lists ∧
      t.variableRecords = lists.flatten := by
  obtain ⟨lists, hlists, hrecords⟩ :=
    Typing.exists_recordsOf_flatMap fun x hx => h.exists_variablesOf (x := x) hx
  refine ⟨lists, hlists, ?_⟩
  rw [← h.typedVariables_turns] at hrecords
  exact hrecords.eq h.ledger.variableRecords

/-- A variable definition has a record, the typed field of which tells of it. -/
theorem exists_tellsVariable (h : d.HasTyping s n t)
    (hget : d.definitions[k]? = some (.operation o)) (hv : o.variableDefs[i]? = some v) :
    ∃ r f, t.record? ⟨n, .variable k i⟩ = some r ∧ t.field? r = some f ∧ f.TellsVariable s v := by
  obtain ⟨root, hroot⟩ := h.exists_root hget
  obtain ⟨shape, bare, children, hshape, hb, ⟨r, _, hrecord, hfield⟩, _⟩ :=
    h.recorded _ (mem_turns_of_variable hget hroot hv)
  exact ⟨r, _, hrecord, hfield, TypedField.tellsVariable hshape hb⟩

/-- An operation has one record for each of its variable definitions, in their order. -/
theorem exists_records (h : d.HasTyping s n t) (hget : d.definitions[k]? = some (.operation o)) :
    ∃ records, t.variablesOf ⟨n, .within k []⟩ (.operation o) = .ok records ∧
      records.length = o.variableDefs.length ∧
      ∀ i v, o.variableDefs[i]? = some v → ∃ r f, records[i]? = some r ∧
        t.record? ⟨n, .variable k i⟩ = some r ∧ t.field? r = some f ∧ f.TellsVariable s v := by
  have hx : (⟨n, .within k []⟩, o) ∈ d.operationNodes n := mem_operationNodes.mpr ⟨k, hget, rfl⟩
  obtain ⟨records, hanswer, hrecords⟩ := h.exists_variablesOf hx
  have hids : ∀ i, (variablesIn (⟨n, .within k []⟩, o))[i]? =
      o.variableDefs[i]?.map fun _ => (⟨n, .variable k i⟩ : NodeId) := by
    intro i
    rw [variablesIn, definedVariables, List.getElem?_map, definedVariablesFrom_getElem?,
      Option.map_map, Nat.zero_add]
    rfl
  refine ⟨records, hanswer, ?_, ?_⟩
  · rw [hrecords.length_eq, length_variablesIn]
  · intro i v hv
    obtain ⟨r, f, hrecord, hfield, htells⟩ := h.exists_tellsVariable hget hv
    obtain ⟨r', hr', hrecord'⟩ := hrecords.getElem? (by rw [hids, hv]; rfl)
    rw [hrecord] at hrecord'
    cases hrecord'
    exact ⟨r, f, hr', hrecord, hfield, htells⟩

end Document.HasTyping

/-! ### Inputs -/

/-- The **inputs** of a typing: the typed fields of its variables, and those in the shared lists below
inputs. -/
inductive Typing.HasInput (t : Typing) : TypedField → Prop
  | ofVariable {r : RecordId} {f : TypedField} (hr : r ∈ t.variableRecords)
    (hf : t.field? r = some f) : HasInput t f
  | inList {f g : TypedField} {list : ListId} (hf : HasInput t f) (hlist : f.children = .shared list)
    (hg : g ∈ t.inputs.fields list) : HasInput t g

/-- A typed field **shares** the list of the name of its type if it resolved to an input object type,
and has nothing below it otherwise. -/
structure TypedField.Shares (lists : InputLists) (f : TypedField) : Prop where
  shared : f.resolution = .object →
    ∃ list, f.children = .shared list ∧ lists.find? f.type.name = some list
  nothing : f.resolution ≠ .object → f.children = .none

theorem TypedField.Shares.find? {lists : InputLists} (h : f.Shares lists)
    (hl : f.children = .shared l) : lists.find? f.type.name = some l := by
  have ho : f.resolution = .object := by
    by_contra ho
    rw [h.nothing ho] at hl
    cases hl
  obtain ⟨list, hlist, hfind⟩ := h.shared ho
  rw [hl] at hlist
  cases hlist
  exact hfind

theorem TypedField.Shares.eq_iff {lists : InputLists} (hf : f.Shares lists) (hg : g.Shares lists)
    (hl : f.children = .shared l) (hl' : g.children = .shared l') :
    l = l' ↔ f.type.name = g.type.name := by
  have hfind := hf.find? hl
  have hfind' := hg.find? hl'
  constructor
  · rintro rfl
    have hname := InputLists.getElem?_names_of_find? hfind
    rw [InputLists.getElem?_names_of_find? hfind'] at hname
    exact (Option.some.inj hname).symm
  · intro hname
    rw [hname, hfind'] at hfind
    exact (Option.some.inj hfind).symm

theorem Typing.HasVariable.shares {first : Nat} (h : t.HasVariable s first id v)
    (hr : t.record? id = some r) (hf : t.field? r = some f) : f.Shares t.inputs := by
  obtain ⟨shape, bare, children, _, _, ⟨r', _, hrecord, hfield⟩, hobject, hother⟩ := h
  rw [hr] at hrecord
  cases hrecord
  rw [hf] at hfield
  cases hfield
  refine ⟨fun ho => ?_, hother⟩
  obtain ⟨list, hfind, hc⟩ := hobject ho
  exact ⟨list, hc, hfind⟩

namespace Document.HasTyping

theorem shares_variable (h : d.HasTyping s n t) (hr : r ∈ t.variableRecords)
    (hf : t.field? r = some f) : f.Shares t.inputs := by
  have hmem : some r ∈ (typedVariables (d.turns s n)).map t.record? := by
    rw [← h.ledger.variableRecords]
    exact List.mem_map_of_mem hr
  obtain ⟨id, hid, hrecord⟩ := List.mem_map.mp hmem
  obtain ⟨⟨move, enclosing⟩, hturn, htyped⟩ := List.mem_filterMap.mp hid
  have hrec := h.recorded _ hturn
  cases move with
  | enterVariable id v =>
    cases htyped
    exact Typing.HasVariable.shares hrec hrecord hf
  | enterOperation | leaveOperation | enterField | leaveField => cases htyped

/-- **Inputs share the lists of their types.** -/
theorem shares (h : d.HasTyping s n t) (hf : t.HasInput f) : f.Shares t.inputs := by
  induction hf with
  | ofVariable hr hfield => exact h.shares_variable hr hfield
  | @inList f g list _ hlist hg ih =>
    obtain ⟨type, fields, _, _, hlist?, hfields⟩ := h.ownedBy _ _ (ih.find? hlist)
    rw [InputLists.fields_eq hlist?] at hg
    obtain ⟨declared, _, hdesc⟩ := InputLists.exists_of_mem hfields hg
    refine ⟨fun ho => ?_, hdesc.nothing⟩
    obtain ⟨next, hfind, hc⟩ := hdesc.shared ho
    exact ⟨next, hc, hfind⟩

end Document.HasTyping

namespace Document

/-- **Both records of variables agree, and input types are shared.**  The variables of a typing are
those of its operations, one after the other; an operation has one for each of its variable
definitions, in order, which is the record of that node and tells what is written there.  Of all
inputs, those of an input object type share one list exactly if their types have the same name, and
the others have none. -/
theorem variables_agree (h : (d.typing s).1 = .ok t) :
    (∃ lists, (d.operationNodes 0).mapM (fun x => t.variablesOf x.1 (.operation x.2)) = .ok lists ∧
      t.variableRecords = lists.flatten) ∧
    (∀ k o, d.definitions[k]? = some (.operation o) →
      ∃ records, t.variablesOf ⟨0, .within k []⟩ (.operation o) = .ok records ∧
        records.length = o.variableDefs.length ∧
        ∀ i v, o.variableDefs[i]? = some v → ∃ r f, records[i]? = some r ∧
          t.record? ⟨0, .variable k i⟩ = some r ∧ t.field? r = some f ∧ f.TellsVariable s v) ∧
    (∀ f, t.HasInput f →
      (f.resolution = .object → ∃ l, f.children = .shared l) ∧
      (f.resolution ≠ .object → f.children = .none)) ∧
    ∀ f g l l', t.HasInput f → t.HasInput g → f.children = .shared l → g.children = .shared l' →
      (l = l' ↔ f.type.name = g.type.name) := by
  have ht := hasTyping_of_typing h
  refine ⟨ht.exists_variables, fun k o => ht.exists_records, fun f hf => ?_, ?_⟩
  · refine ⟨fun ho => ?_, (ht.shares hf).nothing⟩
    obtain ⟨l, hl, _⟩ := (ht.shares hf).shared ho
    exact ⟨l, hl⟩
  · intro f g l l' hf hg
    exact (ht.shares hf).eq_iff (ht.shares hg)

/-- Two operations have a variable each, of one name and of one type. -/
theorem variables_agree_of_two_filters :
    ∃ t f g l,
      (((Sample.document "friend" "name").append (Sample.document "name" "friend")).typing
        Sample.schema).1 = .ok t ∧
      t.variableRecords = [0, 4] ∧ t.field? 0 = some f ∧ t.field? 4 = some g ∧
      f.children = .shared l ∧ g.children = .shared l := by
  have hnone : (((Sample.document "friend" "name").append
      (Sample.document "name" "friend")).turns Sample.schema 0).findSome? (·.fault? Sample.schema) =
      none := rfl
  obtain ⟨t, ht⟩ := exists_typing_iff.mpr hnone
  have htyping := hasTyping_of_typing ht
  have hfirst : t.record? ⟨0, .variable 0 0⟩ = some 0 := htyping.record?_eq_some_iff.mpr rfl
  have hsecond : t.record? ⟨0, .variable 1 0⟩ = some 4 := htyping.record?_eq_some_iff.mpr rfl
  have hrecords : t.variableRecords = [0, 4] := by
    have hall : t.RecordsOf [⟨0, .variable 0 0⟩, ⟨0, .variable 1 0⟩] t.variableRecords :=
      htyping.ledger.variableRecords
    refine Typing.RecordsOf.eq ?_ hall
    simp [Typing.RecordsOf, hfirst, hsecond]
  obtain ⟨_, hoperation, hshared, hsame⟩ := variables_agree ht
  obtain ⟨_, _, _, hdefined⟩ := hoperation 0 _ rfl
  obtain ⟨_, f, _, hr, hf, htells⟩ := hdefined 0 _ rfl
  obtain ⟨_, _, _, hdefined'⟩ := hoperation 1 _ rfl
  obtain ⟨_, g, _, hr', hg, htells'⟩ := hdefined' 0 _ rfl
  obtain rfl := Option.some.inj (hfirst.symm.trans hr)
  obtain rfl := Option.some.inj (hsecond.symm.trans hr')
  have hinput : t.HasInput f := .ofVariable (by simp [hrecords]) hf
  have hinput' : t.HasInput g := .ofVariable (by simp [hrecords]) hg
  have htype : f.type = Sample.filter := (Option.some.inj htells.type).symm
  have htype' : g.type = Sample.filter := (Option.some.inj htells'.type).symm
  obtain ⟨l, hl⟩ := (hshared f hinput).1 (htells.object.mpr (by rw [htype]; rfl))
  obtain ⟨l', hl'⟩ := (hshared g hinput').1 (htells'.object.mpr (by rw [htype']; rfl))
  obtain rfl := (hsame f g l l' hinput hinput' hl hl').mpr (by rw [htype, htype'])
  exact ⟨t, f, g, l, ht, hrecords, hf, hg, hl, hl'⟩

end Document

end GraphQLTyping
