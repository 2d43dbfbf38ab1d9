import GraphQLTyping.Proofs.InputLists.Paths
import GraphQLTyping.Proofs.Pass.FirstFault
import GraphQLTyping.Proofs.Pass.Session

/-!
# Typed fields are well formed

Whatever is done with a pass, and wherever that fails, all typed fields that can be reached from its
records are **well formed** (`Typing.WellFormed`), and each record is of a variable definition or of a
field of the documents (`Typing.IsOf`, `Pass.session_wellFormed`).

A typed field is made when its node is entered and completed when it is left, which may be long after
and in between its node may have been entered again.  So what stays true of a typing in between says
of each record which node it was made for, whatever is found for that node now, and of what stands
below it only that those records were made for the fields selected in the node (`Typing.Fits`,
`Typing.Coherent`).  Lists of input fields are complete whenever no resolution runs, and between the
steps of a session none does.
-/

namespace GraphQLTyping

open Pass

variable {s : Schema} {documents : Nat → Document} {t t' : Typing} {p q : Pass} {id : NodeId}
  {r : RecordId} {f g : TypedField} {head : FieldHead} {selections : List Selection}

/-- How a bare type resolves on a side. -/
def TypeDef.resolutionOn (t : TypeDef) : Side → Resolution
  | .input => t.inputResolution
  | .output => t.outputResolution

/-- A typed field is **classified** if it resolves to what its type resolves to on its side, or to
nothing. -/
def TypedField.Classified (f : TypedField) : Prop :=
  f.resolution = .unclassified ∨ f.resolution = f.type.resolutionOn f.side

/-! ### Fields selected in others -/

theorem mem_selectedFieldsFrom {parent : NodeId} {child : NodeId × String}
    (selections : List Selection) (i : Nat)
    (h : child ∈ selectedFieldsFrom parent i selections) :
    ∃ a head below, selections[a]? = some (.field head below) ∧
      child = (parent.child (i + a), head.name) := by
  induction selections generalizing i with
  | nil => cases h
  | cons y rest ih =>
    have hrest : child ∈ selectedFieldsFrom parent (i + 1) rest →
        ∃ a head below, (y :: rest)[a]? = some (.field head below) ∧
          child = (parent.child (i + a), head.name) := by
      intro h
      obtain ⟨a, head, below, hget, hchild⟩ := ih (i + 1) h
      exact ⟨a + 1, head, below, hget, by rw [hchild, Nat.add_assoc, Nat.add_comm 1]⟩
    cases y with
    | field head below =>
      rcases List.mem_cons.mp h with rfl | h
      · exact ⟨0, head, below, rfl, rfl⟩
      · exact hrest h
    | spread | inlineFragment => exact hrest h

theorem node?_of_mem_selectedFields {child : NodeId × String}
    (hnode : (documents id.document).node? id.path = some (.field head selections))
    (h : child ∈ selectedFields id selections) :
    ∃ head' below', (documents child.1.document).node? child.1.path = some (.field head' below') ∧
      head'.name = child.2 := by
  obtain ⟨a, head', below', hget, rfl⟩ := mem_selectedFieldsFrom selections 0 h
  obtain ⟨n, path⟩ := id
  obtain ⟨k, steps, rfl⟩ := Document.exists_within_of_node? hnode (by simp)
  rw [Nat.zero_add]
  exact ⟨head', below', Document.node?_child hnode hget, rfl⟩

namespace Typing

/-- The typed fields directly **below** a typed field. -/
def below (t : Typing) (f : TypedField) : List TypedField :=
  match f.children with
  | .none => []
  | .selected records => records.filterMap t.field?
  | .shared list => t.inputs.fields list

/-- A typed field can be **reached** from the records of a typing. -/
inductive Reaches (t : Typing) : TypedField → Prop
  | recorded {r : RecordId} {f : TypedField} (h : t.field? r = some f) : Reaches t f
  | step {f g : TypedField} (h : Reaches t f) (hg : g ∈ t.below f) : Reaches t g

/-- A typed field **fits** a variable definition. -/
structure FitsVariable (s : Schema) (t : Typing) (v : VariableDef) (f : TypedField) : Prop where
  side : f.side = .input
  name : f.name = v.name
  parent : f.parent = none
  type : f.type ∈ s.types
  resolution : f.resolution = f.type.inputResolution
  shared : f.resolution = .object →
    ∃ list, t.inputs.find? f.type.name = some list ∧ f.children = .shared list
  nothing : f.resolution ≠ .object → f.children = .none

/-- A typed field **fits** a field.  Nothing stands below it before it is left, and then a record of
each of the fields selected in it. -/
structure FitsField (t : Typing) (id : NodeId) (head : FieldHead) (selections : List Selection)
    (f : TypedField) : Prop where
  side : f.side = .output
  name : f.name = head.name
  parent : ∃ type, f.parent = some type ∧ type.isObject = true
  classified : f.Classified
  children : f.children = .none ∨ f.resolution = .object ∧ ∃ records,
    f.children = .selected records ∧
    List.Forall₂ (fun child r => (child.1, r) ∈ t.nodes) (selectedFields id selections) records

/-- A typed field **fits** a node of documents, which is a variable definition or a field. -/
def Fits (s : Schema) (documents : Nat → Document) (t : Typing) (id : NodeId) (f : TypedField) :
    Prop :=
  match (documents id.document).node? id.path with
  | some (.variable v) => t.FitsVariable s v f
  | some (.field head selections) => t.FitsField id head selections f
  | _ => False

/-- A typing is **coherent** if its lists are complete, each record is that of one node, and the typed
field of a record fits its node. -/
structure Coherent (s : Schema) (documents : Nat → Document) (t : Typing) : Prop where
  complete : ∀ list ∈ t.inputs.lists, InputLists.Complete s t.inputs list
  records : t.nodes.map (·.2) = (List.range t.records.size).reverse
  fits : ∀ id r f, (id, r) ∈ t.nodes → t.field? r = some f → t.Fits s documents id f

/-! ### Records of nodes -/

theorem forall₂_of_recordsOf {children : List (NodeId × String)} {records : List RecordId}
    (h : t.RecordsOf (children.map (·.1)) records) :
    List.Forall₂ (fun child r => (child.1, r) ∈ t.nodes) children records := by
  induction children generalizing records with
  | nil =>
    obtain rfl : records = [] := List.map_eq_nil_iff.mp h
    exact .nil
  | cons child rest ih =>
    rw [RecordsOf, List.map_cons, List.map_cons, List.map_eq_cons_iff] at h
    obtain ⟨r, more, rfl, hr, hmore⟩ := h
    exact .cons (mem_nodes_of_record? hr.symm) (ih hmore)

/-- What is found for each of a row, one of each. -/
theorem forall₂_filterMap {α β γ : Type} {R : α → β → Prop} {S : α → γ → Prop} {find : β → Option γ}
    {as : List α} {bs : List β} (h : List.Forall₂ R as bs)
    (hfind : ∀ a ∈ as, ∀ b, R a b → ∃ c, find b = some c ∧ S a c) :
    List.Forall₂ S as (bs.filterMap find) := by
  induction h with
  | nil => exact .nil
  | @cons a b _ _ hab _ ih =>
    obtain ⟨c, hc, hac⟩ := hfind a List.mem_cons_self b hab
    rw [List.filterMap_cons, hc]
    exact .cons hac (ih fun a' ha' => hfind a' (List.mem_cons_of_mem _ ha'))

/-! ### What keeps fitting -/

theorem Fits.mono (h : t.Fits s documents id f) (hnodes : t.nodes ⊆ t'.nodes)
    (hnames : t.inputs.names <+: t'.inputs.names) : t'.Fits s documents id f := by
  rw [Fits] at h ⊢
  split at h
  · refine { h with shared := fun ho => ?_ }
    obtain ⟨list, hlist, hchildren⟩ := h.shared ho
    exact ⟨list, InputLists.find?_of_names_prefix hnames hlist, hchildren⟩
  · refine { h with children := h.children.imp_right fun ⟨ho, records, hrecords, hall⟩ => ?_ }
    exact ⟨ho, records, hrecords, hall.imp fun _ _ hmem => hnodes hmem⟩
  · exact h

namespace Coherent

theorem lt_size (h : t.Coherent s documents) (hr : (id, r) ∈ t.nodes) : r < t.records.size := by
  have hmem : r ∈ t.nodes.map (·.2) := List.mem_map_of_mem hr
  rw [h.records] at hmem
  simpa using hmem

theorem exists_node (h : t.Coherent s documents) (hf : t.field? r = some f) :
    ∃ id, (id, r) ∈ t.nodes := by
  have hmem : r ∈ t.nodes.map (·.2) := by
    rw [h.records]
    simpa using lt_size_of_field? hf
  obtain ⟨⟨id, _⟩, hnode, heq⟩ := List.mem_map.mp hmem
  exact ⟨id, heq ▸ hnode⟩

/-- A record is that of one node. -/
theorem eq_of_mem (h : t.Coherent s documents) {id' : NodeId} (hr : (id, r) ∈ t.nodes)
    (hr' : (id', r) ∈ t.nodes) : id' = id := by
  have hnodup : (t.nodes.map (·.2)).Nodup := by
    rw [h.records, List.nodup_reverse]
    exact List.nodup_range
  exact congrArg (·.1) (List.inj_on_of_nodup_map hnodup hr' hr rfl)

theorem empty (s : Schema) (documents : Nat → Document) : Coherent s documents {} where
  complete := by
    intro list hlist
    cases hlist
  records := rfl
  fits := by
    intro id r f hr
    cases hr

/-- With complete lists added. -/
theorem of_adds (h : t.Coherent s documents) {inputs : InputLists}
    (ha : InputLists.Adds s t.inputs inputs) : Coherent s documents { t with inputs } where
  complete := ha.complete h.complete
  records := h.records
  fits := by
    intro id r f hr hf
    exact (h.fits id r f hr hf).mono (List.Subset.refl _) ha.names_prefix

/-- With a typed field that fits its node. -/
theorem add (h : t.Coherent s documents) (hf : t.Fits s documents id f) :
    (t.add id f).Coherent s documents where
  complete := h.complete
  records := by
    have hsize : (t.add id f).records.size = t.records.size + 1 := by simp [Typing.add]
    rw [hsize, List.range_succ, List.reverse_append, ← h.records]
    rfl
  fits := by
    have hmono : ∀ {id' f'}, t.Fits s documents id' f' → (t.add id f).Fits s documents id' f' :=
      fun h => h.mono (List.subset_cons_self _ _) (List.prefix_refl _)
    intro id' r f' hr hf'
    rcases List.mem_cons.mp hr with heq | hr
    · cases heq
      rw [field?_add_size] at hf'
      cases hf'
      exact hmono hf
    · rw [field?_add_of_lt (h.lt_size hr)] at hf'
      exact hmono (h.fits id' r f' hr hf')

/-- With records below that of a field, of the fields selected in it. -/
theorem setChildren (h : t.Coherent s documents)
    (hnode : (documents id.document).node? id.path = some (.field head selections))
    (hr : (id, r) ∈ t.nodes) (hf : t.field? r = some f) (ho : f.resolution = .object)
    {records : List RecordId}
    (hrecords : List.Forall₂ (fun child r => (child.1, r) ∈ t.nodes) (selectedFields id selections)
      records) : (t.setChildren r records).Coherent s documents where
  complete := h.complete
  records := by
    rw [size_setChildren]
    exact h.records
  fits := by
    have hmono : ∀ {id' f'}, t.Fits s documents id' f' →
        (t.setChildren r records).Fits s documents id' f' :=
      fun h => h.mono (List.Subset.refl _) (List.prefix_refl _)
    intro id' r' f' hr' hf'
    rw [field?_setChildren] at hf'
    split at hf'
    · next heq =>
      subst heq
      obtain rfl := h.eq_of_mem hr hr'
      rw [hf] at hf'
      cases hf'
      have hfits := h.fits id' r f hr hf
      rw [Fits, hnode] at hfits ⊢
      exact { hfits with children := .inr ⟨ho, records, rfl, hrecords⟩ }
    · exact hmono (h.fits id' r' f' hr' hf')

/-- What is noted about operations does not count. -/
theorem of_eq (h : t.Coherent s documents) (hrecords : t'.records = t.records)
    (hnodes : t'.nodes = t.nodes) (hinputs : t'.inputs = t.inputs) :
    t'.Coherent s documents where
  complete := by
    rw [hinputs]
    exact h.complete
  records := by
    rw [hnodes, hrecords]
    exact h.records
  fits := by
    intro id r f hr hf
    rw [hnodes] at hr
    rw [field?, hrecords] at hf
    have hsame : t.inputs.names <+: t'.inputs.names := ⟨[], by rw [hinputs, List.append_nil]⟩
    exact (h.fits id r f hr hf).mono (fun x hx => by rwa [hnodes]) hsame

theorem addVariable (h : t.Coherent s documents) (hf : t.Fits s documents id f) :
    (t.addVariable id f).Coherent s documents :=
  (h.add hf).of_eq rfl rfl rfl

end Coherent

end Typing

/-! ### What moves keep -/

/-- A field fits what it is typed as where object types enclose it. -/
theorem Typing.fits_field {enclosing : List (Option TypeDef)}
    (hnode : (documents id.document).node? id.path = some (.field head selections))
    (he : Enclosed (·.isObject = true) enclosing)
    (hf : s.typedInside? enclosing head.name = some f) : t.Fits s documents id f := by
  obtain ⟨parent, outer, rfl, hout⟩ := Schema.exists_cons_of_typedInside? hf
  obtain ⟨type, rfl, htype⟩ := he parent List.mem_cons_self
  obtain ⟨whole, _, rfl⟩ := Option.map_eq_some_iff.mp hout
  rw [Fits, hnode]
  refine ⟨rfl, rfl, ⟨type, rfl, htype⟩, ?_, .inl rfl⟩
  by_cases hshape : whole.shape.supported = true
  · exact .inr (if_pos hshape)
  · exact .inl (if_neg hshape)

/-- A variable definition fits what it is typed as. -/
theorem Typing.fits_variable {v : VariableDef} {shape : Shape} {bare : TypeDef}
    {children : Children}
    (hnode : (documents id.document).node? id.path = some (.variable v))
    (hb : s.type? shape.name = some bare)
    (hs : bare.inputResolution = .object →
      ∃ list, t.inputs.find? bare.name = some list ∧ children = .shared list)
    (hn : bare.inputResolution ≠ .object → children = .none) :
    t.Fits s documents id { TypedField.ofVariable v.name shape bare with children } := by
  rw [Fits, hnode]
  exact ⟨rfl, rfl, rfl, Schema.mem_types_of_type? hb, rfl, hs, hn⟩

namespace Pass

/-- A pass is **coherent** if object types enclose its place and its typing is. -/
structure Coherent (s : Schema) (documents : Nat → Document) (p : Pass) : Prop where
  enclosing : Enclosed (·.isObject = true) p.enclosing
  typing : p.typing.Coherent s documents

theorem Coherent.tail {innermost : Option TypeDef} {outer : List (Option TypeDef)}
    (h : p.Coherent s documents) (hp : p.enclosing = innermost :: outer) :
    Enclosed (·.isObject = true) outer :=
  fun t ht => h.enclosing t (hp ▸ List.mem_cons_of_mem _ ht)

/-- **A move keeps a pass coherent**, whatever it does. -/
theorem Coherent.of_does {m : Move} {e : Option TypingError} (h : p.Coherent s documents)
    (hroots : ∀ kind root, s.root? kind = some root → root.isObject = true)
    (hm : m.Stands documents) (hdoes : m.Does s p e q) : q.Coherent s documents := by
  cases hdoes with
  | refused => exact h
  | leafLeft => exact h
  | missing _ hp => exact ⟨h.tail hp, h.typing⟩
  | broken _ hp => exact ⟨h.tail hp, h.typing⟩
  | operationEntered _ hroot => exact ⟨h.enclosing.cons (hroots _ _ hroot), h.typing⟩
  | operationHalfLeft _ hp => exact ⟨h.tail hp, h.typing.of_eq rfl rfl rfl⟩
  | operationLeft _ hp => exact ⟨h.tail hp, h.typing.of_eq rfl rfl rfl⟩
  | variableShared _ _ hb ho =>
    obtain ⟨hadds, hfind⟩ := InputLists.resolve_adds (Schema.mem_types_of_type? hb)
      (TypeDef.inputResolution_eq_object_iff.mp ho) p.typing.inputs
    refine ⟨h.enclosing, (h.typing.of_adds hadds).addVariable ?_⟩
    exact Typing.fits_variable hm hb (fun _ => ⟨_, hfind, rfl⟩) fun hn => absurd ho hn
  | variableUnclassified _ _ hb hu =>
    have ho : _ ≠ Resolution.object := fun ho => by cases hu.symm.trans ho
    exact ⟨h.enclosing, h.typing.addVariable
      (Typing.fits_variable hm hb (fun h => absurd h ho) fun _ => rfl)⟩
  | variableLeaf _ _ hb ho =>
    exact ⟨h.enclosing, h.typing.addVariable
      (Typing.fits_variable hm hb (fun h => absurd h ho) fun _ => rfl)⟩
  | fieldEntered _ _ hf ho =>
    obtain ⟨_, _, _, hout⟩ := Schema.exists_cons_of_typedInside? hf
    have htype := Schema.isObject_of_output hout ho
    exact ⟨h.enclosing.cons htype, h.typing.add (Typing.fits_field hm h.enclosing hf)⟩
  | fieldLeaf _ _ hf | fieldOver _ _ _ hf | fieldNowhere _ _ _ hf =>
    exact ⟨h.enclosing, h.typing.add (Typing.fits_field hm h.enclosing hf)⟩
  | fieldLeft _ _ hr hf ho hp hrecords =>
    exact ⟨h.tail hp, h.typing.setChildren hm (Typing.mem_nodes_of_record? hr) hf ho
      (Typing.forall₂_of_recordsOf hrecords)⟩

/-- Taking types in and away keeps a pass coherent. -/
theorem Coherent.session (hroots : ∀ kind root, s.root? kind = some root → root.isObject = true)
    (h : Session s documents p) : p.Coherent s documents := by
  refine h.induct ⟨?_, .empty s documents⟩ ?_ ?_ ?_ ?_ ?_
  · intro t ht
    cases ht
  · intro m p e q hm hdoes hp
    exact hp.of_does hroots hm hdoes
  · intro p t ht hp
    exact ⟨hp.enclosing.cons ht, hp.typing⟩
  · intro p outer hcons hp
    exact ⟨hp.tail hcons, hp.typing⟩
  · intro p t outer hcons hp
    exact ⟨hp.tail hcons, hp.typing⟩
  · intro p hp
    exact ⟨hp.enclosing, hp.typing⟩

end Pass

/-! ### Well-formed typed fields -/

namespace TypedField

/-- Exactly one of the types of a field is set, unless it is unclassified. -/
theorem types_eq (f : TypedField) :
    [f.scalarType?, f.enumType?, f.objectType?].reduceOption =
      if f.resolution = .unclassified then [] else [f.type] := by
  rw [scalarType?, enumType?, objectType?]
  cases f.resolution <;> rfl

/-- What a classified field resolves to, its type is. -/
theorem Classified.type (h : f.Classified) :
    (f.resolution = .scalar → f.type.isScalar = true) ∧
      (f.resolution = .enum → f.type.isEnum = true) ∧
      (f.resolution = .object →
        match f.side with
        | .input => f.type.isInputObject = true
        | .output => f.type.isObject = true) := by
  rcases h with hu | h
  · simp [hu]
  · rw [h, TypeDef.isScalar, TypeDef.isEnum, TypeDef.isInputObject, TypeDef.isObject]
    cases f.side with
    | input =>
      rw [TypeDef.resolutionOn, TypeDef.inputResolution]
      cases f.type.body <;> simp
    | output =>
      rw [TypeDef.resolutionOn, TypeDef.outputResolution]
      cases f.type.body <;> simp

end TypedField

/-- A typed field is **well formed** in a typing: its types are what they say, only a field of object
type has typed fields below it, these are on its side, and its parent and theirs are of the sort of
the side. -/
structure Typing.WellFormed (t : Typing) (f : TypedField) : Prop where
  types : [f.scalarType?, f.enumType?, f.objectType?].reduceOption =
    if f.resolution = .unclassified then [] else [f.type]
  scalar : ∀ type, f.scalarType? = some type → type.isScalar = true
  enum : ∀ type, f.enumType? = some type → type.isEnum = true
  object : ∀ type, f.objectType? = some type →
    match f.side with
    | .input => type.isInputObject = true
    | .output => type.isObject = true
  populated : t.below f ≠ [] → f.resolution = .object
  sides : ∀ g ∈ t.below f, g.side = f.side
  parent : f.side = .output → ∃ type, f.parent = some type ∧ type.isObject = true
  parents : f.side = .input → ∀ g ∈ t.below f,
    g.parent = some f.type ∧ f.type.isInputObject = true

theorem Typing.WellFormed.of_classified (hclass : f.Classified)
    (hpopulated : ∀ g ∈ t.below f, f.resolution = .object) (hsides : ∀ g ∈ t.below f, g.side = f.side)
    (hparent : f.side = .output → ∃ type, f.parent = some type ∧ type.isObject = true)
    (hparents : f.side = .input → ∀ g ∈ t.below f,
      g.parent = some f.type ∧ f.type.isInputObject = true) : t.WellFormed f where
  types := f.types_eq
  scalar := by
    intro type htype
    obtain ⟨hs, heq⟩ := Option.ite_none_right_eq_some.mp htype
    cases heq
    exact hclass.type.1 hs
  enum := by
    intro type htype
    obtain ⟨hs, heq⟩ := Option.ite_none_right_eq_some.mp htype
    cases heq
    exact hclass.type.2.1 hs
  object := by
    intro type htype
    obtain ⟨hs, heq⟩ := Option.ite_none_right_eq_some.mp htype
    cases heq
    exact hclass.type.2.2 hs
  populated := by
    intro hne
    obtain ⟨g, hg⟩ := List.exists_mem_of_ne_nil _ hne
    exact hpopulated g hg
  sides := hsides
  parent := hparent
  parents := hparents

/-- A typed field **is of** a node: of a variable definition, and then it has no parent, or of a
field.  Below it is then nothing, or in order a typed field of each of the fields selected in it, by
its name and from a record of it. -/
inductive Typing.IsOf (documents : Nat → Document) (t : Typing) (id : NodeId) (f : TypedField) : Prop
  | ofVariable {v : VariableDef}
    (hnode : (documents id.document).node? id.path = some (.variable v)) (hside : f.side = .input)
    (hname : f.name = v.name) (hparent : f.parent = none) : IsOf documents t id f
  | ofField {head : FieldHead} {selections : List Selection}
    (hnode : (documents id.document).node? id.path = some (.field head selections))
    (hside : f.side = .output) (hname : f.name = head.name)
    (hbelow : t.below f = [] ∨ f.resolution = .object ∧
      List.Forall₂ (fun child g => g.side = .output ∧ g.name = child.2 ∧
        ∃ r, (child.1, r) ∈ t.nodes ∧ t.field? r = some g) (selectedFields id selections)
        (t.below f)) : IsOf documents t id f

/-- Complete lists are of one schema. -/
theorem InputLists.ownedBy_of_complete {l : InputLists}
    (h : ∀ list ∈ l.lists, Complete s l list) : OwnedBy s l := by
  intro name id hid
  have hname := getElem?_names_of_find? hid
  rw [names, List.getElem?_map, Option.map_eq_some_iff] at hname
  obtain ⟨list, hlist, rfl⟩ := hname
  have hcomplete := h list (List.mem_of_getElem? hlist)
  exact ⟨list.owner, list.fields, Schema.type?_name hcomplete.mem, hcomplete.isInputObject, hlist,
    hcomplete.fields⟩

namespace Typing

theorem exists_of_reaches (h : t.Reaches f) :
    (∃ r, t.field? r = some f) ∨ ∃ list ∈ t.inputs.lists, f ∈ list.fields := by
  induction h with
  | recorded h => exact .inl ⟨_, h⟩
  | @step f g _ hg _ =>
    rw [below] at hg
    split at hg
    · cases hg
    · obtain ⟨r, _, hr⟩ := List.mem_filterMap.mp hg
      exact .inl ⟨r, hr⟩
    · next id _ =>
      cases hlist : t.inputs.list? id with
      | none =>
        rw [InputLists.fields, hlist] at hg
        cases hg
      | some list =>
        rw [InputLists.fields_eq hlist] at hg
        exact .inr ⟨list, List.mem_of_getElem? hlist, hg⟩

namespace Coherent

variable (h : t.Coherent s documents)

include h

/-- A typed field of the input side, be it of a variable or in a list. -/
theorem wellFormed_input (hside : f.side = .input) (htype : s.type? f.type.name = some f.type)
    (hclass : f.Classified)
    (hshared : f.resolution = .object →
      ∃ list, t.inputs.find? f.type.name = some list ∧ f.children = .shared list)
    (hnothing : f.resolution ≠ .object → f.children = .none) : t.WellFormed f := by
  have hbelow : ∀ g ∈ t.below f, f.resolution = .object ∧ g.side = .input ∧
      g.parent = some f.type := by
    intro g hg
    by_cases ho : f.resolution = .object
    · obtain ⟨list, hlist, hchildren⟩ := hshared ho
      rw [below, hchildren] at hg
      have hfields := (InputLists.ownedBy_of_complete h.complete).fields htype hlist
      obtain ⟨declared, _, hdesc⟩ := InputLists.exists_of_mem hfields hg
      exact ⟨ho, hdesc.side, hdesc.parent⟩
    · rw [below, hnothing ho] at hg
      cases hg
  refine .of_classified hclass (fun g hg => (hbelow g hg).1) ?_ ?_ ?_
  · intro g hg
    rw [hside, (hbelow g hg).2.1]
  · intro ho
    rw [hside] at ho
    cases ho
  · intro _ g hg
    obtain ⟨ho, _, hparent⟩ := hbelow g hg
    have hobject := hclass.type.2.2 ho
    rw [hside] at hobject
    exact ⟨hparent, hobject⟩

/-- The typed fields below one that fits a field are those of the fields selected in it, or none. -/
theorem below_eq (hnode : (documents id.document).node? id.path = some (.field head selections))
    (hfits : t.FitsField id head selections f) :
    t.below f = [] ∨ f.resolution = .object ∧
      List.Forall₂ (fun child g => g.side = .output ∧ g.name = child.2 ∧
        ∃ r, (child.1, r) ∈ t.nodes ∧ t.field? r = some g) (selectedFields id selections)
        (t.below f) := by
  rcases hfits.children with hnone | ⟨ho, records, hchildren, hall⟩
  · rw [below, hnone]
    exact .inl rfl
  · rw [below, hchildren]
    refine .inr ⟨ho, forall₂_filterMap hall fun child hchild r hr => ?_⟩
    obtain ⟨g, hg⟩ : ∃ g, t.field? r = some g := by
      rw [field?]
      exact ⟨_, Array.getElem?_eq_getElem (h.lt_size hr)⟩
    obtain ⟨head', below', hbelow, hname⟩ := node?_of_mem_selectedFields hnode hchild
    have hfits' := h.fits _ _ _ hr hg
    rw [Fits, hbelow] at hfits'
    exact ⟨g, hg, hfits'.side, hfits'.name.trans hname, r, hr, hg⟩

/-- A typed field that fits a field. -/
theorem wellFormed_output
    (hnode : (documents id.document).node? id.path = some (.field head selections))
    (hfits : t.FitsField id head selections f) : t.WellFormed f := by
  have hbelow : ∀ g ∈ t.below f, f.resolution = .object ∧ g.side = .output := by
    intro g hg
    rcases h.below_eq hnode hfits with hnil | ⟨ho, hall⟩
    · rw [hnil] at hg
      cases hg
    · obtain ⟨child, _, hside, _⟩ := InputLists.exists_of_mem hall hg
      exact ⟨ho, hside⟩
  refine .of_classified hfits.classified (fun g hg => (hbelow g hg).1) ?_ (fun _ => hfits.parent) ?_
  · intro g hg
    rw [hfits.side, (hbelow g hg).2]
  · intro hi
    rw [hfits.side] at hi
    cases hi

/-- Every typed field that can be reached is well formed. -/
theorem wellFormed (hf : t.Reaches f) : t.WellFormed f := by
  rcases exists_of_reaches hf with ⟨r, hr⟩ | ⟨list, hlist, hmem⟩
  · obtain ⟨id, hid⟩ := h.exists_node hr
    have hfits := h.fits id r f hid hr
    rw [Fits] at hfits
    split at hfits
    · have hclass : f.Classified := by
        rw [TypedField.Classified, hfits.side]
        exact .inr hfits.resolution
      exact h.wellFormed_input hfits.side (Schema.type?_name hfits.type) hclass hfits.shared
        hfits.nothing
    · next hnode => exact h.wellFormed_output hnode hfits
    · exact hfits.elim
  · obtain ⟨declared, _, hdesc⟩ := InputLists.exists_of_mem (h.complete list hlist).fields hmem
    have hclass : f.Classified := by
      rw [TypedField.Classified, hdesc.side, hdesc.resolution]
      split
      · exact .inr rfl
      · exact .inl rfl
    have htype := hdesc.type
    exact h.wellFormed_input hdesc.side (by rw [Schema.name_of_type? htype, htype]) hclass
      hdesc.shared hdesc.nothing

/-- Every record is of a node, and so is its typed field. -/
theorem exists_isOf (hf : t.field? r = some f) :
    ∃ id, (id, r) ∈ t.nodes ∧ t.IsOf documents id f := by
  obtain ⟨id, hid⟩ := h.exists_node hf
  refine ⟨id, hid, ?_⟩
  have hfits := h.fits id r f hid hf
  rw [Fits] at hfits
  split at hfits
  · next v hnode => exact .ofVariable hnode hfits.side hfits.name hfits.parent
  · next hnode => exact .ofField hnode hfits.side hfits.name (h.below_eq hnode hfits)
  · exact hfits.elim

end Coherent

end Typing

namespace Pass

/-- **Typed fields are well formed throughout a session**, all that can be reached from the records,
and every record is of a variable definition or of a field. -/
theorem session_wellFormed
    (hroots : ∀ kind root, s.root? kind = some root → root.isObject = true)
    (h : Session s documents p) :
    (∀ f, p.typing.Reaches f → p.typing.WellFormed f) ∧
      ∀ r f, p.typing.field? r = some f →
        ∃ id, (id, r) ∈ p.typing.nodes ∧ p.typing.IsOf documents id f := by
  have hcoherent := (Coherent.session hroots h).typing
  exact ⟨fun f hf => hcoherent.wellFormed hf, fun r f hf => hcoherent.exists_isOf hf⟩

/-- A session that enters a field where it is not defined, then one below it, and leaves that. -/
theorem session_wellFormed_after_failure :
    ∃ p, Session Sample.schema (fun _ => Sample.document "friend" "name") p ∧
      ∃ f, p.typing.field? 0 = some f ∧ f.children = .selected [1] ∧ p.typing.WellFormed f := by
  have hnew : Session Sample.schema (fun _ => Sample.document "friend" "name") {} := .new
  have hpushed := hnew.push (t := Sample.user) rfl
  have hfailed := hpushed.handle ⟨0, .within 0 [0]⟩ rfl .enterField rfl
  have hentered := hfailed.handle ⟨0, .within 0 [0, 0]⟩ rfl .enterField rfl
  have hbelow := hentered.handle ⟨0, .within 0 [0, 0, 0]⟩ rfl .enterField rfl
  have hleft := hbelow.handle ⟨0, .within 0 [0, 0]⟩ rfl .leaveField rfl
  obtain ⟨p, hp, f, hf, hchildren⟩ : ∃ p,
      Session Sample.schema (fun _ => Sample.document "friend" "name") p ∧
      ∃ f, p.typing.field? 0 = some f ∧ f.children = .selected [1] := ⟨_, hleft, _, rfl, rfl⟩
  exact ⟨p, hp, f, hf, hchildren,
    (session_wellFormed Sample.isObject_of_root? hp).1 f (.recorded hf)⟩

end Pass

end GraphQLTyping
