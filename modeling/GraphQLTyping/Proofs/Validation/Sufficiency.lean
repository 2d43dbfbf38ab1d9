import GraphQLTyping.Proofs.Pass.Mirror
import GraphQLTyping.Proofs.Validation.Assumptions

/-!
# Validation is enough

A validator follows fragments, interfaces and unions, and knows at each **site** which type encloses a
selection; a pass keeps the types of fields that it went into.  On fields outside of fragments the two
agree (`Selection.admitted_turns`): a pass goes into a field of object type, which then is the type at
the sites below, and there is nothing below a leaf.  So no field of an admitted document is undefined
where the pass meets it.

* `Turn.Admitted`: a turn does not fail, and the field that it enters fits.
* `Schema.Admits.fault_cases`: what can still go wrong in an admitted document.
* `Document.FullyTyped`: what its typing is like if nothing does.
* `Schema.typeText_outcome`: both, for the document of a text.
-/

namespace GraphQLTyping

open Pass

variable {s : Schema} {d : Document} {t : Typing} {n k i : Nat} {id : NodeId} {r : RecordId}
  {parent : TypeDef} {name : String} {selections : List Selection} {head : FieldHead}
  {f : TypedField} {o : Operation} {turn : Turn} {steps : List Nat}

/-! ### Fields that fit -/

theorem TypeDef.isLeaf_of_outputResolution {b : TypeDef} (ho : b.outputResolution ≠ .object)
    (hu : b.outputResolution ≠ .unclassified) : b.isLeaf = true := by
  rw [outputResolution] at ho hu
  rw [isLeaf, isScalar, isEnum]
  cases hb : b.body <;> simp_all

theorem TypeDef.inputResolution_of_isInput {b : TypeDef} (h : b.isInput = true) :
    b.inputResolution ≠ .unclassified := by
  rw [isInput, isLeaf, isScalar, isEnum, isInputObject] at h
  rw [inputResolution]
  cases hb : b.body <;> simp_all

theorem TypeDef.lookup_map_eq (fields : List FieldDef) (name : String) :
    (fields.map fun field => (field.name, field.type)).lookup name =
      (fields.find? (·.name == name)).map (·.type) := by
  induction fields with
  | nil => rfl
  | cons field rest ih =>
    rw [List.map_cons, List.lookup_cons, List.find?_cons]
    by_cases h : name = field.name
    · simp [h]
    · rw [beq_eq_false_iff_ne.mpr h, beq_eq_false_iff_ne.mpr (Ne.symm h), ih]

namespace Schema

/-- On an object type, the definition of a field and its type are of one field. -/
theorem fieldType?_eq (h : parent.isObject = true) (name : String) :
    s.fieldType? (some parent) name = (s.fieldDef? parent name).map (·.type) := by
  have hown : parent.fieldType? name = (parent.field? name).map (·.type) := by
    rw [TypeDef.isObject] at h
    rw [TypeDef.fieldType?, TypeDef.field?, TypeDef.declared, TypeDef.fields]
    cases hb : parent.body with
    | object interfaces fields => exact TypeDef.lookup_map_eq fields name
    | interface | scalar | union | enum | input => simp [hb] at h
  rw [fieldType?, fieldDef?, Option.bind_some, hown, Option.map_or]

theorem composite?_of_isObject (h : (s.named name).isObject = true) :
    s.composite? name = some (s.named name) := by
  cases ht : s.type? name with
  | none =>
    rw [named, ht] at h
    cases h
  | some b =>
    rw [named_of_type? ht] at h ⊢
    have hcomposite : b.isComposite = true := by
      rw [TypeDef.isObject] at h
      rw [TypeDef.isComposite]
      cases hb : b.body <;> simp_all
    rw [composite?, ht, Option.filter_some, if_pos hcomposite]

/-- What a field that fits an object type of the schema is typed as. -/
theorem Fits.exists_typedOutput? (h : s.Fits parent name selections) (hp : s.HasObject parent) :
    ∃ f, s.typedOutput? (some parent) name = some f ∧ (f.isLeaf = true → selections = []) ∧
      (f.resolution = .object → s.HasObject f.type ∧
        s.below? (some parent) name = some f.type) := by
  obtain ⟨field, hfield, hleaf⟩ := h
  have htype : s.fieldType? (some parent) name = some field.type := by
    rw [fieldType?_eq hp.2, hfield, Option.map_some]
  obtain ⟨f, hf⟩ : ∃ f, s.typedOutput? (some parent) name = some f := by
    rw [typedOutput?, htype]
    exact ⟨_, rfl⟩
  refine ⟨f, hf, ?_⟩
  have hobject := hasObject_of_output hp.1 hf
  rw [typedOutput?, htype, Option.map_some] at hf
  cases hf
  simp only [namedAt_of_mem hp.1, TypeRef.name_shape] at hobject ⊢
  refine ⟨?_, fun ho => ⟨hobject ho, ?_⟩⟩
  · intro hf
    obtain ⟨ho, hu⟩ := TypedField.isLeaf_iff.mp hf
    refine hleaf ?_
    dsimp only at ho hu
    split at ho
    next hsupported =>
      rw [if_pos hsupported] at hu
      exact TypeDef.isLeaf_of_outputResolution ho hu
    next hsupported =>
      rw [if_neg hsupported] at hu
      exact absurd rfl hu
  · rw [below?, Option.bind_some, hfield, Option.bind_some, composite?_of_isObject (hobject ho).2]

end Schema

/-! ### Turns of admitted documents -/

/-- A turn is **admitted** if it does not fail, and the field that it enters, if it does, fits the
type that encloses it innermost. -/
def Turn.Admitted (s : Schema) (turn : Turn) : Prop :=
  turn.fault? s = none ∧ ∀ id head selections, turn.move = .enterField id head selections →
    ∃ parent, turn.enclosing.head? = some (some parent) ∧ s.HasObject parent ∧
      s.Fits parent head.name selections

theorem Turn.admitted_enterField {outer : List (Option TypeDef)} (hp : s.HasObject parent)
    (hfits : s.Fits parent head.name selections) :
    Turn.Admitted s ⟨.enterField id head selections, some parent :: outer⟩ := by
  obtain ⟨f, hf, _⟩ := hfits.exists_typedOutput? hp
  refine ⟨?_, ?_⟩
  · simp [fault?, Schema.fieldFault?, hf]
  · intro id' head' selections' hmove
    cases hmove
    exact ⟨parent, rfl, hp, hfits⟩

/-- **The two traversals agree.**  If the fields at the sites of selections fit, the types that
enclose the turns of the selections are those of the sites, and all turns are admitted. -/
theorem Selection.admitted_turns (selections : List Selection) (enclosing : List (Option TypeDef))
    (steps : List Nat) (i : Nat) :
    ∀ parent outer around, enclosing = some parent :: outer → s.HasObject parent →
      (∀ parent' head below, .field (some parent') head below ∈
        sitesOfAll s (some parent) around selections → s.Fits parent' head.name below) →
      ∀ turn ∈ turnsFrom s enclosing ⟨n, .within k steps⟩ i selections, turn.Admitted s := by
  induction selections, enclosing, steps, i using turns_induct s with
  | nil =>
    intro _ _ _ _ _ _ turn hturn
    rw [turnsFrom_nil] at hturn
    cases hturn
  | passed head selections rest enclosing steps i h ih =>
    intro parent outer around he hp hfits turn hturn
    rw [turnsFrom_over h] at hturn
    rcases List.mem_cons.mp hturn with rfl | hturn
    · rw [he]
      exact Turn.admitted_enterField hp (hfits _ _ _ (by simp [sitesOfAll, sites]))
    · exact ih parent outer around he hp
        (fun parent' head' below hsite => hfits _ _ _ (by simp [sitesOfAll, hsite])) turn hturn
  | into head selections rest enclosing inner steps i h ihin ih =>
    intro parent outer around he hp hfits turn hturn
    have hown : s.Fits parent head.name selections :=
      hfits _ _ _ (by simp [sitesOfAll, sites])
    rw [turnsFrom_into h, List.mem_append, List.mem_cons, List.mem_append,
      List.mem_singleton] at hturn
    rcases hturn with (rfl | hturn | rfl) | hturn
    · rw [he]
      exact Turn.admitted_enterField hp hown
    · obtain ⟨f, hf, hleaf, hobject⟩ := hown.exists_typedOutput? hp
      obtain ⟨f', hf', hr⟩ := Schema.typedInside?_of_inside? h
      rw [he, Schema.typedInside?, List.head?_cons, Option.bind_some, hf] at hf'
      cases hf'
      rcases hr with ⟨ho, hinner⟩ | ⟨ho, hu, _⟩
      · obtain ⟨htype, hbelow⟩ := hobject ho
        refine ihin f.type enclosing (s.fieldDef? parent head.name) hinner htype
          (fun parent' head' below hsite => hfits _ _ _ ?_) turn hturn
        rw [sitesOfAll, sites, hbelow]
        exact List.mem_append_left _ (List.mem_cons_of_mem _ hsite)
      · -- nothing is selected in a leaf
        rw [hleaf (TypedField.isLeaf_iff.mpr ⟨ho, hu⟩), turnsFrom_nil] at hturn
        cases hturn
    · exact ⟨rfl, fun _ _ _ hmove => by cases hmove⟩
    · exact ih parent outer around he hp
        (fun parent' head' below hsite => hfits _ _ _ (by simp [sitesOfAll, hsite])) turn hturn
  | other selection rest enclosing steps i h ih =>
    intro parent outer around he hp hfits
    rw [turnsFrom_other h]
    exact ih parent outer around he hp
      (fun parent' head' below hsite => hfits _ _ _ (by simp [sitesOfAll, hsite]))

/-! ### Faults of admitted documents -/

/-- A turn that enters an operation or one of its variables, or leaves it, or is inside it. -/
theorem Document.turn_cases (hturn : turn ∈ d.turns s n) :
    ∃ k o, d.definitions[k]? = some (.operation o) ∧
      (turn.move = .enterOperation ⟨n, .within k []⟩ o ∨
        turn.move = .leaveOperation ⟨n, .within k []⟩ o ∨
        (∃ id, ∃ v ∈ o.variableDefs, turn.move = .enterVariable id v) ∨
        ∃ root, s.root? o.kind = some root ∧
          turn ∈ Selection.turnsFrom s [some root] ⟨n, .within k []⟩ 0 o.selections) := by
  obtain ⟨⟨id, o⟩, hx, hturn⟩ := mem_turns.mp hturn
  obtain ⟨k, hget, hid⟩ := mem_operationNodes.mp hx
  cases hid
  refine ⟨k, o, hget, ?_⟩
  cases hroot : s.root? o.kind with
  | none =>
    rw [Operation.turns_missing hroot, List.mem_singleton] at hturn
    rw [hturn]
    exact Or.inl rfl
  | some root =>
    rw [Operation.turns_root hroot, Operation.turnsInside, List.mem_cons, List.mem_append,
      List.mem_append, List.mem_singleton] at hturn
    rcases hturn with rfl | (hturn | hturn) | rfl
    · exact Or.inl rfl
    · obtain ⟨id, v, hv, hmove⟩ := VariableDef.move_of_turn _ _ turn hturn
      exact Or.inr (Or.inr (Or.inl ⟨id, v, hv, hmove⟩))
    · exact Or.inr (Or.inr (Or.inr ⟨root, rfl, hturn⟩))
    · exact Or.inr (Or.inl rfl)

namespace Schema.Admits

/-- The turns of the selections of an operation are admitted. -/
theorem admitted_turns {root : TypeDef} (h : s.Admits d)
    (hget : d.definitions[k]? = some (.operation o)) (hroot : s.root? o.kind = some root)
    (hturn : turn ∈ Selection.turnsFrom s [some root] ⟨n, .within k []⟩ 0 o.selections) :
    turn.Admitted s := by
  refine Selection.admitted_turns o.selections [some root] [] 0 root [] none rfl
    ⟨mem_types_of_root? hroot, h.roots _ _ hroot⟩ (fun parent head below hsite => ?_) turn hturn
  refine h.fields (.operation o) (Document.mem_executables (List.mem_of_getElem? hget)) _ _ _ ?_
  rw [Executable.sites, Executable.parent?, hroot]
  exact hsite

/-- **What can still go wrong** in an admitted document: that an operation other than a query has no
root type, or that a variable is a list of lists. -/
theorem fault_cases {e : TypingError} (h : s.Admits d) (hturn : turn ∈ d.turns s n)
    (he : turn.fault? s = some e) :
    (∃ kind, e = .missingRoot kind ∧ kind ≠ .query ∧ s.root? kind = none ∧
      ∃ o ∈ d.operations, o.kind = kind) ∨
    ∃ o ∈ d.operations, ∃ v ∈ o.variableDefs, 2 ≤ v.type.listDepth ∧
      e = .unsupportedShape ⟨v.type, v.type.unwrapped⟩ := by
  obtain ⟨k, o, hget, hcases⟩ := Document.turn_cases hturn
  have ho : o ∈ d.operations := Document.mem_operations.mpr (List.mem_of_getElem? hget)
  obtain ⟨move, enclosing⟩ := turn
  rcases hcases with hmove | hmove | ⟨id, v, hv, hmove⟩ | ⟨root, hroot, hsel⟩
  · cases hmove
    cases hroot : s.root? o.kind with
    | some root => simp [Turn.fault?, hroot] at he
    | none =>
      simp only [Turn.fault?, hroot] at he
      cases he
      refine Or.inl ⟨o.kind, rfl, ?_, hroot, o, ho, rfl⟩
      intro hkind
      obtain ⟨root, hquery⟩ := h.queryRoot
      rw [hkind, hquery] at hroot
      cases hroot
  · cases hmove
    cases he
  · cases hmove
    refine Or.inr ⟨o, ho, v, hv, ?_⟩
    simp only [Turn.fault?, variableFault?] at he
    by_cases hdepth : v.type.listDepth < 2
    · obtain ⟨b, hb, _⟩ := h.inputs o ho v hv
      rw [TypeRef.simpleShape_of_listDepth_lt hdepth] at he
      simp [hb] at he
    · rw [TypeRef.simpleShape_of_le_listDepth (Nat.le_of_not_lt hdepth)] at he
      cases he
      exact ⟨Nat.le_of_not_lt hdepth, rfl⟩
  · rw [(h.admitted_turns hget hroot hsel).1] at he
    cases he

/-! ### Typings of admitted documents -/

/-- Nothing is selected in a leaf. -/
theorem selections_eq_nil (h : s.Admits d) (ht : d.HasTyping s n t)
    (hnode : d.node? (.within k steps) = some (.field head selections))
    (hf : t.typedAt? ⟨n, .within k steps⟩ = some f) (hleaf : f.isLeaf = true) :
    selections = [] := by
  obtain ⟨r, hr, _⟩ := Option.bind_eq_some_iff.mp hf
  obtain ⟨enclosing, hturn⟩ := ht.exists_turn hnode (by rw [hr]; rfl)
  obtain ⟨o, root, hget, hroot, hsel, _⟩ := Document.turn_of_typed hturn rfl
  obtain ⟨_, hadmitted⟩ := h.admitted_turns hget hroot hsel
  obtain ⟨parent, hparent, hp, hfits⟩ := hadmitted _ _ _ rfl
  obtain ⟨f₀, children, hf₀, htyped, _⟩ := ht.recorded _ hturn
  rw [htyped.typedAt?] at hf
  cases hf
  obtain ⟨f', hf', hnil, _⟩ := hfits.exists_typedOutput? hp
  rw [typedInside?, hparent, Option.bind_some, hf'] at hf₀
  cases hf₀
  exact hnil hleaf

/-- No field stands below a scalar or an enum. -/
theorem leafAbove_eq_false {path : NodePath} (h : s.Admits d) (ht : d.HasTyping s n t)
    (hnode : d.node? path = some (.field head selections)) : t.leafAbove n path = false := by
  obtain ⟨k, steps⟩ | ⟨k, i⟩ := path
  · rw [Typing.leafAbove, List.any_eq_false]
    intro length hlength hany
    cases hf : t.typedAt? ⟨n, .within k (steps.take length)⟩ with
    | none =>
      rw [hf] at hany
      cases hany
    | some f =>
      rw [hf] at hany
      -- the leaf is a field itself, below which the path could not go on
      obtain ⟨r, hr, _⟩ := Option.bind_eq_some_iff.mp hf
      obtain ⟨turn, hturn, hid⟩ :=
        mem_typedNodes.mp (ht.record?_isSome_iff.mp (by rw [hr]; rfl))
      obtain ⟨head', below, _, _, habove⟩ := Document.exists_path_of_typed hturn hid
      obtain rfl := h.selections_eq_nil ht habove hf hany
      obtain ⟨definition, hget, hend⟩ := Option.bind_eq_some_iff.mp hnode
      rw [Document.node?_within hget] at habove
      rw [← List.take_append_drop length steps, Node.descendant?_append, habove,
        Option.bind_some, List.drop_eq_getElem_cons (List.mem_range.mp hlength)] at hend
      cases hend
  · rfl

/-- Every field that was typed stands in the trees of the operations, and once. -/
theorem exists_flat (h : s.Admits d) (ht : d.HasTyping s n t) :
    ∃ lists flat, (d.operationNodes n).mapM (fun x => t.fieldsOf x.1 (.operation x.2)) = .ok lists ∧
      t.Unfolds lists.flatten flat ∧
      FieldTree.allFields (t.trees lists.flatten) = flat.filterMap t.field? ∧
      ∀ path head selections r, d.node? path = some (.field head selections) →
        t.record? ⟨n, path⟩ = some r → flat.count r = 1 := by
  obtain ⟨lists, flat, hlists, hmirrors⟩ := ht.exists_mirrors_nodes
  refine ⟨lists, flat, hlists, hmirrors.unfolds,
    Typing.allFields_trees hmirrors.unfolds (ht.length_le_of_mirrors hmirrors), ?_⟩
  intro path head selections r hnode hr
  refine List.count_eq_one_of_mem (ht.nodup_of_mirrors hmirrors) ?_
  exact (ht.mem_iff_of_mirrors hmirrors hnode hr).mpr (h.leafAbove_eq_false ht hnode)

/-- A variable that has a record has a resolution. -/
theorem resolved_of_variable (h : s.Admits d) (ht : d.HasTyping s n t)
    (hr : t.record? ⟨n, .variable k i⟩ = some r) :
    ∃ f, t.field? r = some f ∧ f.resolution ≠ .unclassified := by
  obtain ⟨turn, hturn, hid⟩ := mem_typedNodes.mp (ht.record?_isSome_iff.mp (by rw [hr]; rfl))
  obtain ⟨k', o, hget, hcases⟩ := Document.turn_cases hturn
  have hrec := ht.recorded turn hturn
  obtain ⟨move, enclosing⟩ := turn
  rcases hcases with hmove | hmove | ⟨id, v, hv, hmove⟩ | ⟨root, _, hsel⟩
  · cases hmove
    cases hid
  · cases hmove
    cases hid
  · cases hmove
    cases hid
    obtain ⟨shape, bare, children, hs, hb, ⟨r', _, hr', hf⟩, _⟩ := hrec
    rw [hr] at hr'
    cases hr'
    refine ⟨_, hf, ?_⟩
    obtain ⟨b, hb', hinput⟩ :=
      h.inputs o (Document.mem_operations.mpr (List.mem_of_getElem? hget)) v hv
    have hname : shape.name = v.type.name := by
      by_cases hdepth : v.type.listDepth < 2
      · rw [TypeRef.simpleShape_of_listDepth_lt hdepth] at hs
        cases hs
        exact TypeRef.name_shape _
      · rw [TypeRef.simpleShape_of_le_listDepth (Nat.le_of_not_lt hdepth)] at hs
        cases hs
    rw [hname, hb'] at hb
    cases hb
    exact TypeDef.inputResolution_of_isInput hinput
  · obtain ⟨path, _, _, _, hpath, _⟩ := Selection.fieldAt_of_turn _ _ _ _ _ hsel _ hid
    cases hpath

/-- All variables of an operation have a resolution. -/
theorem exists_resolved (h : s.Admits d) (ht : d.HasTyping s n t)
    (hget : d.definitions[k]? = some (.operation o)) :
    ∃ records, t.variablesOf ⟨n, .within k []⟩ (.operation o) = .ok records ∧
      records.length = o.variableDefs.length ∧
      ∀ r ∈ records, ∃ f, t.field? r = some f ∧ f.resolution ≠ .unclassified := by
  have hx : (⟨n, .within k []⟩, o) ∈ d.operationNodes n :=
    Document.mem_operationNodes.mpr ⟨k, hget, rfl⟩
  obtain ⟨records, hrecords, hof⟩ := ht.exists_variablesOf hx
  refine ⟨records, hrecords, ?_, fun r hr => ?_⟩
  · rw [hof.length_eq, length_variablesIn]
  · have hmem : some r ∈ records.map some := List.mem_map_of_mem hr
    rw [hof] at hmem
    obtain ⟨node, hnode, hr⟩ := List.mem_map.mp hmem
    obtain ⟨child, hchild, rfl⟩ := List.mem_map.mp hnode
    have htyped : child.1 ∈ typedNodes
        (VariableDef.turnsFrom [] ⟨n, .within k []⟩ 0 o.variableDefs) :=
      VariableDef.typed_of_mem_definedVariablesFrom _ _ child hchild
    obtain ⟨j, _, hid⟩ := VariableDef.path_of_typed _ _ _ htyped
    rw [hid] at hr
    exact h.resolved_of_variable ht hr

end Schema.Admits

/-! ### Typing texts -/

/-- A typing of a document is **full** if all variables have a resolution, and the trees of its
operations have every field that was typed once. -/
structure Document.FullyTyped (d : Document) (t : Typing) : Prop where
  inputs : ∀ k o, d.definitions[k]? = some (.operation o) →
    ∃ records, t.variablesOf ⟨0, .within k []⟩ (.operation o) = .ok records ∧
      records.length = o.variableDefs.length ∧
      ∀ r ∈ records, ∃ f, t.field? r = some f ∧ f.resolution ≠ .unclassified
  fields : ∃ lists flat,
    (d.operationNodes 0).mapM (fun x => t.fieldsOf x.1 (.operation x.2)) = .ok lists ∧
    t.Unfolds lists.flatten flat ∧
    FieldTree.allFields (t.trees lists.flatten) = flat.filterMap t.field? ∧
    ∀ path head selections r, d.node? path = some (.field head selections) →
      t.record? ⟨0, path⟩ = some r → flat.count r = 1

namespace Schema

/-- The document of a text that is not made sure of is typed as it is. -/
theorem typeText_unvalidated {text : String} (h : Document.parse text = .ok d) :
    (s.typeText text false).1 = match (d.typing s).1 with
      | .ok t => .ok ⟨d, t⟩
      | .error e => .error (.untyped e) := by
  simp only [typeText, h]
  cases d.typing s with
  | mk outcome log => cases outcome <;> rfl

/-- **Validation is enough.**  A text that was made sure of is typed as if it had not been, and its
document is admitted.  Typing an admitted document fails only if an operation other than a query has
no root type or a variable is a list of lists; otherwise its typing is full. -/
theorem typeText_outcome (s : Schema) (text : String) (d : Document)
    (hparse : Document.parse text = .ok d) :
    (s.checkValid d = .ok () → s.Admits d ∧ s.typeText text = s.typeText text false) ∧
    (s.Admits d →
      match (s.typeText text false).1 with
      | .ok typed => typed.document = d ∧ d.FullyTyped typed.typing
      | .error (.untyped (.missingRoot kind)) =>
        kind ≠ .query ∧ s.root? kind = none ∧ ∃ o ∈ d.operations, o.kind = kind
      | .error (.untyped (.unsupportedShape shape)) =>
        ∃ o ∈ d.operations, ∃ v ∈ o.variableDefs,
          2 ≤ v.type.listDepth ∧ shape = ⟨v.type, v.type.unwrapped⟩
      | .error _ => False) := by
  refine ⟨fun hvalid => ⟨admits_of_checkValid hvalid, ?_⟩, fun hadmits => ?_⟩
  · simp only [typeText, hparse, hvalid, if_true]
    rfl
  · rw [typeText_unvalidated hparse]
    have hout := (d.sound_turns s 0).inStep.outcome
    cases hfind : (d.turns s 0).findSome? (·.fault? s) with
    | some e =>
      rw [hfind] at hout
      obtain ⟨q, hq, _⟩ := hout
      obtain ⟨turn, hturn, he⟩ := List.exists_of_findSome?_eq_some hfind
      have htyping : (d.typing s).1 = .error e := by
        rw [d.typing_eq, hq]
      rw [htyping]
      rcases hadmits.fault_cases hturn he with
        ⟨kind, rfl, hkind, hroot, hop⟩ | ⟨o, ho, v, hv, hdepth, rfl⟩
      · exact ⟨hkind, hroot, hop⟩
      · exact ⟨o, ho, v, hv, hdepth, rfl⟩
    | none =>
      rw [hfind] at hout
      obtain ⟨q, hq⟩ := hout
      have htyping : (d.typing s).1 = .ok q.typing := by
        rw [d.typing_eq, hq]
      rw [htyping]
      have ht := Document.hasTyping_of_typing htyping
      exact ⟨rfl, fun k o hget => hadmits.exists_resolved ht hget, hadmits.exists_flat ht⟩

/-- A text that is made sure of and typed. -/
theorem typeText_outcome_of_me :
    ∃ d typed, Document.parse "{me{name friend{name}}count}" = .ok d ∧
      Sample.schema.Admits d ∧
      (Sample.schema.typeText "{me{name friend{name}}count}").1 = .ok typed ∧
      typed.document = d ∧ d.FullyTyped typed.typing := by
  -- the text is short enough for all rules to be looked at
  have hchecks : (match Document.parse "{me{name friend{name}}count}" with
      | .ok d => (Sample.schema.checkValid d).isOk &&
        (Sample.schema.typeText "{me{name friend{name}}count}").1.isOk
      | .error _ => false) = true := by
    decide +kernel
  cases hparse : Document.parse "{me{name friend{name}}count}" with
  | error => simp [hparse] at hchecks
  | ok d =>
    rw [hparse, Bool.and_eq_true] at hchecks
    obtain ⟨hvalid, hok⟩ := hchecks
    have hvalid : Sample.schema.checkValid d = .ok () := by
      cases hcheck : Sample.schema.checkValid d with
      | ok => rfl
      | error =>
        rw [hcheck] at hvalid
        cases hvalid
    obtain ⟨hboth, houtcome⟩ := typeText_outcome Sample.schema _ d hparse
    obtain ⟨hadmits, hsame⟩ := hboth hvalid
    have hright := houtcome hadmits
    rw [← hsame] at hright
    cases htyped : (Sample.schema.typeText "{me{name friend{name}}count}").1 with
    | error =>
      rw [htyped] at hok
      cases hok
    | ok typed =>
      rw [htyped] at hright
      exact ⟨d, typed, rfl, hadmits, rfl, hright⟩

end Schema

end GraphQLTyping
