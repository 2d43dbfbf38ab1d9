import GraphQLTyping.Proofs.InputLists.Outlines
import GraphQLTyping.Proofs.Pass.Independence

/-!
# Typing by a schema that extends another one

A document that has a typing by a schema has one by every schema that extends it, and the two
**look alike** (`Typing.LookAlike`): the same nodes have the same records, and these have the same
outlines, the same records below them, and lists that look alike.

The passes need not be followed side by side.  The turns of the document by the second schema are the
**counterparts** of those by the first (`Document.turns_counterpart`), as long as these have no fault:
each object type that encloses a place has a counterpart there, on which fields are typed alike.  So
they have no fault either, and what the two typings say is known from their turns.
-/

namespace GraphQLTyping

open Pass

variable {s s' : Schema} {d : Document} {t t' : Typing} {n k i : Nat} {id : NodeId} {r : RecordId}
  {enclosing : List (Option TypeDef)} {steps : List Nat} {name : String} {f f' : TypedField}
  {turn : Turn} {o : Operation}

/-! ### Turns by another schema -/

/-- The counterparts of the types around a place. -/
def Schema.counterparts (s' : Schema) (enclosing : List (Option TypeDef)) : List (Option TypeDef) :=
  enclosing.map (Option.map s'.counterpart)

/-- The counterpart of a turn. -/
def Turn.counterpart (s' : Schema) (turn : Turn) : Turn :=
  { turn with enclosing := s'.counterparts turn.enclosing }

section Counterparts

variable (s' : Schema) (turns : List Turn)

theorem typedNodes_map_counterpart :
    typedNodes (turns.map (·.counterpart s')) = typedNodes turns := by
  rw [typedNodes, List.filterMap_map]
  rfl

theorem typedVariables_map_counterpart :
    typedVariables (turns.map (·.counterpart s')) = typedVariables turns := by
  rw [typedVariables, List.filterMap_map]
  rfl

theorem leftOperations_map_counterpart :
    leftOperations (turns.map (·.counterpart s')) = leftOperations turns := by
  rw [leftOperations, List.filterMap_map]
  rfl

end Counterparts

/-- The types around a place are object types of a schema. -/
abbrev Schema.Encloses (s : Schema) : List (Option TypeDef) → Prop :=
  Enclosed s.HasObject

namespace Schema.ExtendedBy

theorem typedInside?_eq (h : s.ExtendedBy s') (hmeta : s.HasMetaTypes) (he : s.Encloses enclosing)
    (hf : s.typedInside? enclosing name = some f) :
    s'.typedInside? (s'.counterparts enclosing) name = some (f.counterpart s') := by
  obtain ⟨parent, outer, rfl, hout⟩ := exists_cons_of_typedInside? hf
  obtain ⟨t, rfl, ht, ho⟩ := he parent List.mem_cons_self
  exact h.typedOutput?_eq hmeta ht ho hout

theorem inside?_eq (h : s.ExtendedBy s') (hmeta : s.HasMetaTypes) (he : s.Encloses enclosing)
    (hf : s.typedInside? enclosing name = some f) :
    s'.inside? (s'.counterparts enclosing) name =
      (s.inside? enclosing name).map s'.counterparts := by
  have hf' := h.typedInside?_eq hmeta he hf
  have hres : (f.counterpart s').resolution = f.resolution := rfl
  by_cases ho : f.resolution = .object
  · rw [inside?_of_object hf ho, inside?_of_object hf' (hres.trans ho)]
    rfl
  · by_cases hu : f.resolution = .unclassified
    · rw [inside?_of_unclassified hf hu, inside?_of_unclassified hf' (hres.trans hu)]
      rfl
    · rw [inside?_of_leaf hf ho hu, inside?_of_leaf hf' (hres ▸ ho) (hres ▸ hu)]
      rfl

end Schema.ExtendedBy

theorem Schema.exists_typedInside? (h : s.fieldFault? enclosing name = none) :
    ∃ f, s.typedInside? enclosing name = some f := by
  cases enclosing with
  | nil => cases h
  | cons parent outer =>
    cases hf : s.typedOutput? parent name with
    | none => simp [fieldFault?, hf] at h
    | some f => exact ⟨f, hf⟩

/-- The counterpart of a turn without a fault has none. -/
theorem Turn.fault?_counterpart (h : s.ExtendedBy s') (hmeta : s.HasMetaTypes)
    (he : s.Encloses turn.enclosing) (hnone : turn.fault? s = none) :
    (turn.counterpart s').fault? s' = none := by
  obtain ⟨move, enclosing⟩ := turn
  cases move with
  | leaveOperation | leaveField => rfl
  | enterOperation id o =>
    cases hr : s.root? o.kind with
    | none => simp [fault?, hr] at hnone
    | some root => simp [fault?, counterpart, h.root? hr]
  | enterVariable id v =>
    simp only [fault?, Schema.variableFault?] at hnone
    simp only [fault?, counterpart, Schema.variableFault?]
    cases hs : v.type.simpleShape with
    | error rest => simp [hs] at hnone
    | ok shape =>
      cases hb : s.type? shape.name with
      | none => simp [hs, hb] at hnone
      | some bare => simp [(h.exists_type? hb).1]
  | enterField id head selections =>
    obtain ⟨f, hf⟩ := Schema.exists_typedInside? hnone
    have hf' := h.typedInside?_eq hmeta he hf
    obtain ⟨parent, outer, rfl, _⟩ := Schema.exists_cons_of_typedInside? hf
    obtain ⟨t, rfl, _⟩ := he parent List.mem_cons_self
    have hout : s'.typedOutput? (some (s'.counterpart t)) head.name = some (f.counterpart s') := hf'
    simp [fault?, counterpart, Schema.counterparts, Schema.fieldFault?, hout]

theorem Selection.turnsFrom_counterpart (h : s.ExtendedBy s') (hmeta : s.HasMetaTypes)
    (hk : Kept s s.Encloses) (selections : List Selection) (enclosing : List (Option TypeDef))
    (steps : List Nat) (i : Nat) :
    s.Encloses enclosing →
    (∀ turn ∈ turnsFrom s enclosing ⟨n, .within k steps⟩ i selections, turn.fault? s = none) →
    turnsFrom s' (s'.counterparts enclosing) ⟨n, .within k steps⟩ i selections =
      (turnsFrom s enclosing ⟨n, .within k steps⟩ i selections).map (·.counterpart s') := by
  induction selections, enclosing, steps, i using turns_induct s with
  | nil =>
    intro _ _
    rw [turnsFrom_nil, turnsFrom_nil]
    rfl
  | passed head selections rest enclosing steps i hin ih =>
    intro he hnone
    rw [turnsFrom_over hin] at hnone ⊢
    obtain ⟨f, hf⟩ := Schema.exists_typedInside? (hnone _ List.mem_cons_self)
    have hin' := h.inside?_eq hmeta he hf
    rw [hin] at hin'
    rw [turnsFrom_over hin', ih he fun turn hturn => hnone turn (List.mem_cons_of_mem _ hturn)]
    rfl
  | into head selections rest enclosing inner steps i hin ihin ih =>
    intro he hnone
    rw [turnsFrom_into hin] at hnone ⊢
    obtain ⟨f, hf⟩ := Schema.exists_typedInside?
      (hnone _ (List.mem_append_left _ List.mem_cons_self))
    have hin' := h.inside?_eq hmeta he hf
    rw [hin] at hin'
    rw [turnsFrom_into hin', ihin (hk.inside _ _ _ he hin) fun turn hturn => hnone turn
        (List.mem_append_left _ (List.mem_cons_of_mem _ (List.mem_append_left _ hturn))),
      ih he fun turn hturn => hnone turn (List.mem_append_right _ hturn)]
    simp only [List.map_append, List.map_cons, List.map_nil]
    rfl
  | other selection rest enclosing steps i hfield ih =>
    rw [turnsFrom_other hfield, turnsFrom_other hfield]
    exact ih

theorem VariableDef.turnsFrom_counterpart (vs : List VariableDef) (i : Nat) :
    turnsFrom (s'.counterparts enclosing) id i vs =
      (turnsFrom enclosing id i vs).map (·.counterpart s') := by
  induction vs generalizing i with
  | nil => rfl
  | cons v rest ih =>
    rw [turnsFrom, turnsFrom, List.map_cons, ih]
    rfl

theorem Operation.turns_counterpart (h : s.ExtendedBy s') (hmeta : s.HasMetaTypes)
    (hk : Kept s s.Encloses) (he : s.Encloses enclosing)
    (hnone : ∀ turn ∈ o.turns s enclosing ⟨n, .within k steps⟩, turn.fault? s = none) :
    o.turns s' (s'.counterparts enclosing) ⟨n, .within k steps⟩ =
      (o.turns s enclosing ⟨n, .within k steps⟩).map (·.counterpart s') := by
  obtain ⟨root, hroot⟩ := exists_root hnone
  have hselections : ∀ turn ∈ Selection.turnsFrom s (some root :: enclosing)
      ⟨n, .within k steps⟩ 0 o.selections, turn.fault? s = none :=
    fun turn hturn => hnone turn (mem_turns_of_selections hroot hturn)
  have hinner : some (s'.counterpart root) :: s'.counterparts enclosing =
      s'.counterparts (some root :: enclosing) := rfl
  rw [turns_root hroot, turns_root (h.root? hroot), turnsInside, turnsInside, hinner,
    VariableDef.turnsFrom_counterpart, Selection.turnsFrom_counterpart h hmeta hk _ _ _ _
      (hk.root _ _ _ he hroot) hselections]
  simp only [List.map_append, List.map_cons, List.map_nil]
  rfl

/-- **The turns by a schema that extends another one are counterparts.** -/
theorem Document.turns_counterpart (h : s.ExtendedBy s') (hmeta : s.HasMetaTypes)
    (hk : Kept s s.Encloses) (hnone : ∀ turn ∈ d.turns s n, turn.fault? s = none) :
    d.turns s' n = (d.turns s n).map (·.counterpart s') := by
  rw [turns_eq, turns_eq, List.map_flatMap]
  refine List.flatMap_congr fun x hx => ?_
  obtain ⟨k, _, hid⟩ := mem_operationNodes.mp hx
  have hturns : ∀ turn ∈ x.2.turns s [] x.1, turn.fault? s = none :=
    fun turn hturn => hnone turn (mem_turns.mpr ⟨x, hx, hturn⟩)
  have hempty : s.Encloses [] := fun _ hmem => nomatch hmem
  rw [hid] at hturns ⊢
  exact Operation.turns_counterpart h hmeta hk hempty hturns

/-! ### Typings that look alike -/

/-- What stands below two typed fields **looks alike**: nothing, the same records, or lists that look
alike. -/
inductive Children.LookAlike (l l' : InputLists) : Children → Children → Prop
  | none : LookAlike l l' .none .none
  | selected (records : List RecordId) : LookAlike l l' (.selected records) (.selected records)
  | shared {list list' : ListId} (h : l.LookAlike l' list list') :
    LookAlike l l' (.shared list) (.shared list')

/-- Two typed fields **look alike**: they have one outline, and what stands below them looks alike. -/
structure TypedField.LookAlike (l l' : InputLists) (f f' : TypedField) : Prop where
  outline : f'.outline = f.outline
  children : f.children.LookAlike l l' f'.children

/-- A tree with outlines for typed fields. -/
inductive OutlineTree where
  | node (field : TypedField.Outline) (children : List OutlineTree)

mutual

/-- The outlines in a tree. -/
def FieldTree.outline : FieldTree → OutlineTree
  | node field children => .node field.outline (FieldTree.outlines children)

/-- The outlines in trees. -/
def FieldTree.outlines : List FieldTree → List OutlineTree
  | [] => []
  | t :: rest => t.outline :: FieldTree.outlines rest

end

/-- Two typings **look alike**: the same nodes, variables and operations have the same records, and
these have typed fields that look alike, and trees with the same outlines. -/
structure Typing.LookAlike (t t' : Typing) : Prop where
  record? : ∀ id, t'.record? id = t.record? id
  variableRecords : t'.variableRecords = t.variableRecords
  fieldsOf : ∀ id node, t'.fieldsOf id node = t.fieldsOf id node
  variablesOf : ∀ id node, t'.variablesOf id node = t.variablesOf id node
  field? : ∀ r f, t.field? r = some f →
    ∃ f', t'.field? r = some f' ∧ f.LookAlike t.inputs t'.inputs f'
  trees : ∀ records, FieldTree.outlines (t'.trees records) = FieldTree.outlines (t.trees records)

namespace Typing

theorem outlines_eq_map (trees : List FieldTree) :
    FieldTree.outlines trees = trees.map (·.outline) := by
  induction trees with
  | nil => rfl
  | cons tree rest ih => rw [FieldTree.outlines, ih, List.map_cons]

theorem outlines_filterMap {β : Type} {g g' : β → Option FieldTree} {as : List β}
    (h : ∀ a ∈ as, (g' a).map (·.outline) = (g a).map (·.outline)) :
    FieldTree.outlines (as.filterMap g') = FieldTree.outlines (as.filterMap g) := by
  rw [outlines_eq_map, outlines_eq_map, List.map_filterMap, List.map_filterMap]
  exact List.filterMap_congr h

/-- Records with the same outlines and the same records below them have trees with the same
outlines. -/
theorem outline_treeWithin (hsize : t'.records.size = t.records.size)
    (hfield : ∀ r f, t.field? r = some f → ∃ f', t'.field? r = some f' ∧ f'.outline = f.outline ∧
      f'.children.records = f.children.records) (depth : Nat) (r : RecordId) :
    (t'.treeWithin depth r).map (·.outline) = (t.treeWithin depth r).map (·.outline) := by
  induction depth generalizing r with
  | zero => rfl
  | succ depth ih =>
    cases hf : t.field? r with
    | none =>
      have hnone : t'.field? r = none := by
        rw [Typing.field?, Array.getElem?_eq_none_iff] at hf ⊢
        rwa [hsize]
      rw [treeWithin, treeWithin, hf, hnone]
      rfl
    | some f =>
      obtain ⟨f', hf', houtline, hrecords⟩ := hfield r f hf
      rw [treeWithin_succ depth hf, treeWithin_succ depth hf', Option.map_some, Option.map_some,
        FieldTree.outline, FieldTree.outline, houtline, hrecords,
        outlines_filterMap fun r _ => ih r]

theorem outlines_trees (hsize : t'.records.size = t.records.size)
    (hfield : ∀ r f, t.field? r = some f → ∃ f', t'.field? r = some f' ∧ f'.outline = f.outline ∧
      f'.children.records = f.children.records) (records : List RecordId) :
    FieldTree.outlines (t'.trees records) = FieldTree.outlines (t.trees records) := by
  refine outlines_filterMap fun r _ => ?_
  rw [Typing.tree, Typing.tree, hsize]
  exact outline_treeWithin hsize hfield _ r

/-- Entries that list the same in a typing and in one that keeps its records are the same. -/
theorem eq_of_lists {below : NodeId × Operation → List NodeId} {ops : List (NodeId × Operation)}
    {entries entries' : List (NodeId × List RecordId)} (hkeeps : t'.Keeps t)
    (h : List.Forall₂ (t.Lists below) ops entries)
    (h' : List.Forall₂ (t'.Lists below) ops entries') : entries' = entries := by
  induction h generalizing entries' with
  | nil =>
    cases h'
    rfl
  | cons hfirst _ ih =>
    cases h' with
    | cons hfirst' hrest' =>
      rw [ih hrest']
      congr 1
      exact Prod.ext (hfirst'.1.trans hfirst.1.symm) (hfirst.2.eq (hfirst'.2.mono hkeeps))

end Typing

theorem TypedField.LookAlike.records_eq {l l' : InputLists} (h : f.LookAlike l l' f') :
    f'.children.records = f.children.records := by
  have hc := h.children
  generalize f.children = c at hc
  generalize f'.children = c' at hc
  cases hc <;> rfl

namespace Document.HasTyping

/-- A variable is typed alike. -/
theorem lookAlike_variable {v : VariableDef} (hext : s.ExtendedBy s') (h : d.HasTyping s n t)
    (h' : d.HasTyping s' n t') (hv : t.HasVariable s 0 id v) (hv' : t'.HasVariable s' 0 id v)
    (hf : t.typedAt? id = some f) (hf' : t'.typedAt? id = some f') :
    f.LookAlike t.inputs t'.inputs f' := by
  obtain ⟨shape, bare, children, hshape, hbare, htyped, hobject, hother⟩ := hv
  obtain ⟨shape', bare', children', hshape', hbare', htyped', hobject', hother'⟩ := hv'
  obtain rfl : shape = shape' := Except.ok.inj (hshape.symm.trans hshape')
  obtain ⟨hcounter, hkind⟩ := hext.exists_type? hbare
  obtain rfl : bare' = s'.counterpart bare := Option.some.inj (hbare'.symm.trans hcounter)
  obtain rfl := Option.some.inj (hf.symm.trans htyped.typedAt?)
  obtain rfl := Option.some.inj (hf'.symm.trans htyped'.typedAt?)
  have hres := TypeDef.inputResolution_of_kind hkind.kind
  refine ⟨?_, ?_⟩
  · simp only [TypedField.outline, TypedField.ofVariable, hres, Schema.name_counterpart,
      Option.map_none]
  · by_cases ho : bare.inputResolution = .object
    · obtain ⟨list, hlist, rfl⟩ := hobject ho
      obtain ⟨list', hlist', rfl⟩ := hobject' (hres.trans ho)
      rw [Schema.name_counterpart] at hlist'
      exact .shared (h.ownedBy.lookAlike hext h'.ownedBy (Schema.mem_types_of_type? hbare)
        (TypeDef.inputResolution_eq_object_iff.mp ho) hlist hlist')
    · obtain rfl := hother ho
      obtain rfl := hother' fun ho' => ho (hres.symm.trans ho')
      exact .none

/-- A selected field is typed alike. -/
theorem lookAlike_field {head : FieldHead} {below : List Selection} (hext : s.ExtendedBy s')
    (hmeta : s.HasMetaTypes) (h : d.HasTyping s n t) (h' : d.HasTyping s' n t')
    (he : s.Encloses enclosing) (hv : t.HasField s 0 enclosing ⟨n, .within k steps⟩ head.name)
    (hv' : t'.HasField s' 0 (s'.counterparts enclosing) ⟨n, .within k steps⟩ head.name)
    (hnode : d.node? (.within k steps) = some (.field head below))
    (hkeeps : t'.Keeps t) (hr : t.record? ⟨n, .within k steps⟩ = some r)
    (hr' : t'.record? ⟨n, .within k steps⟩ = some r) (hf : t.field? r = some f)
    (hf' : t'.field? r = some f') : f.LookAlike t.inputs t'.inputs f' := by
  obtain ⟨f₀, children, hf₀, htyped, _⟩ := hv
  obtain ⟨f₀', children', hf₀', htyped', _⟩ := hv'
  obtain rfl : f₀' = f₀.counterpart s' :=
    Option.some.inj (hf₀'.symm.trans (hext.typedInside?_eq hmeta he hf₀))
  obtain ⟨hobject, hnone⟩ := h.children_eq hnode hr hf
  obtain ⟨hobject', hnone'⟩ := h'.children_eq hnode hr' hf'
  obtain rfl := Option.some.inj ((Typing.typedAt?_eq hr hf).symm.trans htyped.typedAt?)
  obtain rfl := Option.some.inj ((Typing.typedAt?_eq hr' hf').symm.trans htyped'.typedAt?)
  refine ⟨f₀.outline_counterpart s', ?_⟩
  by_cases ho : f₀.resolution = .object
  · obtain ⟨records, rfl, hrecords⟩ := hobject ho
    obtain ⟨records', rfl, hrecords'⟩ := hobject' ho
    obtain rfl := hrecords.eq (hrecords'.mono hkeeps)
    exact .selected records'
  · obtain rfl := hnone ho
    obtain rfl := hnone' ho
    exact .none

variable (hext : s.ExtendedBy s') (hmeta : s.HasMetaTypes) (hk : Kept s s.Encloses)

include hext hmeta hk

theorem record?_eq (h : d.HasTyping s n t) (h' : d.HasTyping s' n t') (id : NodeId) :
    t'.record? id = t.record? id := by
  refine Option.ext fun r => ?_
  rw [h'.record?_eq_some_iff, h.record?_eq_some_iff,
    turns_counterpart hext hmeta hk h.fault?_eq_none, typedNodes_map_counterpart]

theorem keeps (h : d.HasTyping s n t) (h' : d.HasTyping s' n t') : t'.Keeps t :=
  fun id _ hr => (h.record?_eq hext hmeta hk h' id).symm.trans hr

theorem lookAlike_of_field? (h : d.HasTyping s n t) (h' : d.HasTyping s' n t')
    (hf : t.field? r = some f) :
    ∃ f', t'.field? r = some f' ∧ f.LookAlike t.inputs t'.inputs f' := by
  obtain ⟨id, hr⟩ := h.exists_record?_of_lt (Typing.lt_size_of_field? hf)
  have hr' : t'.record? id = some r := (h.record?_eq hext hmeta hk h' id).trans hr
  obtain ⟨f', hf'⟩ := h'.exists_field? hr'
  obtain ⟨turn, hturn, hid⟩ := mem_typedNodes.mp (h.record?_isSome_iff.mp (by rw [hr]; rfl))
  have hturn' : turn.counterpart s' ∈ d.turns s' n := by
    rw [turns_counterpart hext hmeta hk h.fault?_eq_none]
    exact List.mem_map_of_mem hturn
  have hrec := h.recorded turn hturn
  have hrec' := h'.recorded _ hturn'
  have he := enclosed hk hturn
  refine ⟨f', hf', ?_⟩
  obtain ⟨move, enclosing⟩ := turn
  rcases move_of_typed hturn hid with ⟨v, rfl⟩ | ⟨k, steps, head, below, rfl, rfl, hnode⟩
  · exact h.lookAlike_variable hext h' hrec hrec' (Typing.typedAt?_eq hr hf)
      (Typing.typedAt?_eq hr' hf')
  · exact h.lookAlike_field hext hmeta h' he hrec hrec' hnode (h.keeps hext hmeta hk h') hr hr' hf
      hf'

/-- **Typings by a schema and by one that extends it look alike.** -/
theorem lookAlike (h : d.HasTyping s n t) (h' : d.HasTyping s' n t') : t.LookAlike t' := by
  have hkeeps := h.keeps hext hmeta hk h'
  have hturns := d.turns_counterpart hext hmeta hk h.fault?_eq_none
  have hfield := fun r f => h.lookAlike_of_field? (r := r) (f := f) hext hmeta hk h'
  refine ⟨h.record?_eq hext hmeta hk h', ?_, fun id node => ?_, fun id node => ?_, hfield, ?_⟩
  · have hrecords := h'.ledger.variableRecords
    rw [hturns, typedVariables_map_counterpart] at hrecords
    exact h.ledger.variableRecords.eq (hrecords.mono hkeeps)
  · have hentries := h'.ledger.operationFields
    rw [hturns, leftOperations_map_counterpart] at hentries
    rw [Typing.fieldsOf, Typing.fieldsOf,
      Typing.eq_of_lists hkeeps h.ledger.operationFields hentries]
  · have hentries := h'.ledger.operationVariables
    rw [hturns, leftOperations_map_counterpart] at hentries
    rw [Typing.variablesOf, Typing.variablesOf,
      Typing.eq_of_lists hkeeps h.ledger.operationVariables hentries]
  · have hsize : t'.records.size = t.records.size := by
      rw [h.ledger.size, h'.ledger.size, hturns, typedNodes_map_counterpart]
    refine Typing.outlines_trees hsize fun r f hf => ?_
    obtain ⟨f', hf', halike⟩ := hfield r f hf
    exact ⟨f', hf', halike.outline, halike.records_eq⟩

end Document.HasTyping

namespace Document

/-- **Adding to a schema changes no typing.**  A document that has a typing by a schema, the roots of
which are object types, has one by every schema that extends it, and the two look alike.  That the
schema has the types of the meta fields is so of every schema that is read
(`Schema.hasMetaTypes_of_parse`). -/
theorem typing_extended (hext : s.ExtendedBy s') (hmeta : s.HasMetaTypes)
    (hroots : ∀ kind root, s.root? kind = some root → root.isObject = true)
    (h : (d.typing s).1 = .ok t) : ∃ t', (d.typing s').1 = .ok t' ∧ t.LookAlike t' := by
  have hk : Kept s s.Encloses :=
    kept_enclosed (fun kind root hr => ⟨Schema.mem_types_of_root? hr, hroots kind root hr⟩)
      fun _ _ _ ht hf ho => Schema.hasObject_of_output ht.1 hf ho
  have ht := hasTyping_of_typing h
  obtain ⟨t', ht'⟩ : ∃ t', (d.typing s').1 = .ok t' := by
    refine exists_typing_iff.mpr (List.findSome?_eq_none_iff.mpr fun turn' hturn' => ?_)
    rw [d.turns_counterpart hext hmeta hk ht.fault?_eq_none] at hturn'
    obtain ⟨turn, hturn, rfl⟩ := List.mem_map.mp hturn'
    exact Turn.fault?_counterpart hext hmeta (enclosed hk hturn) (ht.fault?_eq_none turn hturn)
  exact ⟨t', ht', ht.lookAlike hext hmeta hk (hasTyping_of_typing ht')⟩

/-- A new field and a new input object type change nothing for a document that selects others. -/
theorem typing_extended_of_described :
    Sample.described.ExtendedBy Sample.extended ∧ Sample.described.HasMetaTypes ∧
      (∀ kind root, Sample.described.root? kind = some root → root.isObject = true) ∧
      ∃ t t', ((Sample.document "friend" "__typename").typing Sample.described).1 = .ok t ∧
        ((Sample.document "friend" "__typename").typing Sample.extended).1 = .ok t' ∧
        t.LookAlike t' := by
  have hmeta : Sample.described.HasMetaTypes := by
    unfold Schema.HasMetaTypes
    decide
  have hroots : ∀ kind root, Sample.described.root? kind = some root → root.isObject = true := by
    intro kind root h
    cases kind with
    | query =>
      cases h
      rfl
    | mutation | subscription => cases h
  have hnone : ((Sample.document "friend" "__typename").turns Sample.described 0).findSome?
      (·.fault? Sample.described) = none := rfl
  obtain ⟨t, ht⟩ := exists_typing_iff.mpr hnone
  obtain ⟨t', ht', halike⟩ := typing_extended Schema.described_extendedBy hmeta hroots ht
  exact ⟨Schema.described_extendedBy, hmeta, hroots, t, t', ht, ht', halike⟩

end Document

end GraphQLTyping
