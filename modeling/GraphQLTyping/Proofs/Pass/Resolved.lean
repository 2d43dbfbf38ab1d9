import GraphQLTyping.Proofs.InputLists.WhitePaths
import GraphQLTyping.Proofs.Pass.Account
import GraphQLTyping.Proofs.Pass.Variables

/-!
# What a resolution changes

A resolution of a type that has a list changes nothing.  Any other adds lists, and which these are is
told by paths past the lists that there were.  No list that is there when a resolution is called is
changed by it, nor by anything else that may be done with a pass **later** (`Pass.Later`): the lists of
a pass are a prefix of its later ones.  So a name that has a list keeps it.

After a document was typed by a new pass, the names with a list are those that the types of its
variables reach.
-/

namespace GraphQLTyping

variable {s : Schema} {documents : Nat → Document} {d : Document} {t : Typing} {p q : Pass}
  {n : Nat} {name : String} {l l' : InputLists} {id : ListId}

namespace InputLists

theorem list?_of_prefix {list : InputList} (h : l.lists <+: l'.lists) (hl : l.list? id = some list) :
    l'.list? id = some list := by
  obtain ⟨more, hm⟩ := h
  rw [list?, ← hm, List.getElem?_append_left (List.getElem?_eq_some_iff.mp hl).1]
  exact hl

theorem names_of_prefix (h : l.lists <+: l'.lists) : l.names <+: l'.names := h.map _

theorem Adds.lists_prefix (h : Adds s l l') : l.lists <+: l'.lists := by
  obtain ⟨more, hm, _⟩ := h
  exact ⟨more, hm.symm⟩

end InputLists

/-- A move adds lists at most. -/
theorem Move.Does.lists_prefix {m : Move} {e : Option TypingError} (h : m.Does s p e q) :
    p.typing.inputs.lists <+: q.typing.inputs.lists := by
  cases h with
  | variableShared id hs hb ho =>
    have hi := TypeDef.inputResolution_eq_object_iff.mp ho
    obtain ⟨hadds, _⟩ := InputLists.resolve_adds (Schema.mem_types_of_type? hb) hi p.typing.inputs
    exact hadds.lists_prefix
  | _ => exact List.prefix_rfl

namespace Pass

/-- What may be done **next** with a pass in a session. -/
inductive Next (s : Schema) (documents : Nat → Document) (p : Pass) : Pass → Prop
  | handle (id : NodeId) {node : Node}
    (hnode : (documents id.document).node? id.path = some node) (handler : Handler)
    (hsuits : handler.suits node = true) : Next s documents p (after (handle s id node handler) p)
  | push {t : TypeDef} (ht : t.isObject = true) : Next s documents p (after (push t) p)
  | pop : Next s documents p (after pop p)
  | typeDocument (number : Nat) :
    Next s documents p (after (typeDocument s number (documents number)) p)
  | typeNode (id : NodeId) {node : Node}
    (hnode : (documents id.document).node? id.path = some node) :
    Next s documents p (after (typeNode s id node) p)

/-- A pass **later** in a session. -/
abbrev Later (s : Schema) (documents : Nat → Document) : Pass → Pass → Prop :=
  Relation.ReflTransGen (Next s documents)

theorem Session.later (h : Session s documents p) (hlater : Later s documents p q) :
    Session s documents q := by
  induction hlater with
  | refl => exact h
  | tail _ hnext ih =>
    cases hnext with
    | handle id hnode handler hsuits => exact ih.handle id hnode handler hsuits
    | push ht => exact ih.push ht
    | pop => exact ih.pop
    | typeDocument number => exact ih.typeDocument number
    | typeNode id hnode => exact ih.typeNode id hnode

/-- **Lists are never changed**, whatever is done next. -/
theorem Next.lists_prefix (h : Next s documents p q) :
    p.typing.inputs.lists <+: q.typing.inputs.lists := by
  have hmoves : KeptByMoves s documents fun q => p.typing.inputs.lists <+: q.typing.inputs.lists :=
    fun m _ q hq => hq.trans (Move.Does.lists_prefix (m.does q))
  cases h with
  | handle id hnode handler hsuits => exact hmoves.handle hnode hsuits p List.prefix_rfl
  | push ht => exact List.prefix_rfl
  | pop =>
    exact keeps_pop (P := fun q => p.typing.inputs.lists <+: q.typing.inputs.lists)
      (fun _ _ _ h => h) (fun _ _ _ _ h => h) p List.prefix_rfl
  | typeDocument number =>
    refine Keeps.complete (hmoves.walkDefinitions _ 0 fun a definition hget => ?_) (fun _ h => h) p
      List.prefix_rfl
    rwa [Nat.zero_add]
  | typeNode id hnode =>
    exact (hmoves.walkNode hnode).complete (fun _ h => h) p List.prefix_rfl

theorem Later.lists_prefix (h : Later s documents p q) :
    p.typing.inputs.lists <+: q.typing.inputs.lists := by
  induction h with
  | refl => exact List.prefix_rfl
  | tail _ hnext ih => exact ih.trans hnext.lists_prefix

end Pass

open Pass

/-- The names with a list are those that the types of variables reach. -/
theorem Typing.Rooted.isResolved_iff (h : t.Rooted s) :
    t.inputs.isResolved name = true ↔
      ∃ root ∈ t.variableTypes, ∃ type, s.Reaches root type ∧ type.name = name := by
  rw [InputLists.isResolved_iff, InputLists.names_eq_map_owners, List.mem_map]
  simp only [h.mem_owners_iff]
  constructor
  · rintro ⟨type, ⟨root, hroot, hreaches⟩, hname⟩
    exact ⟨root, hroot, type, hreaches, hname⟩
  · rintro ⟨root, hroot, type, hreaches, hname⟩
    exact ⟨type, ⟨root, hroot, hreaches⟩, hname⟩

theorem Document.isResolved_of_typing (h : (d.typing s).1 = .ok t) :
    t.inputs.isResolved name = true ↔ ∃ k i f root type, t.typedAt? ⟨0, .variable k i⟩ = some f ∧
      f.objectType? = some root ∧ s.Reaches root type ∧ type.name = name := by
  have hsession : Session s (fun _ => d) (after (typeDocument s 0 d) {}) := .typeDocument .new 0
  have hrooted := hsession.told.rooted
  rw [((d.typing_eq_after s).2 t h).1] at hrooted
  simp only [hrooted.isResolved_iff, (hasTyping_of_typing h).mem_variableTypes_iff]
  constructor
  · rintro ⟨root, ⟨k, i, f, hat, hroot⟩, type, hreaches, hname⟩
    exact ⟨k, i, f, root, type, hat, hroot, hreaches, hname⟩
  · rintro ⟨k, i, f, root, type, hat, hroot, hreaches, hname⟩
    exact ⟨root, ⟨k, i, f, hat, hroot⟩, type, hreaches, hname⟩

namespace Document

/-- **What a resolution changes.**  If the type has a list, that is the answer and nothing changes.
Otherwise the names that get a list are those reached past the lists that there are.  These stay as
they are, in the resolution and in all that is done with a pass later.  When a new pass has typed a
document, the names with a list are those that the types of its variables reach. -/
theorem resolve_changes (s : Schema) :
    (∀ (l : InputLists) (t : TypeDef), t ∈ s.types → t.isInputObject = true →
      (∀ id, l.find? t.name = some id → InputLists.resolve s t l = (id, ⟨l, []⟩)) ∧
      (l.isResolved t.name = false → ∀ name,
        (InputLists.resolve s t l).2.inputs.isResolved name = true ↔
          l.isResolved name = true ∨ ∃ u, s.ReachesPast l t u ∧ u.name = name) ∧
      (InputLists.resolve s t l).2.inputs.find? t.name = some (InputLists.resolve s t l).1 ∧
      (∀ name id, l.find? name = some id →
        (InputLists.resolve s t l).2.inputs.find? name = some id) ∧
      ∀ id list, l.list? id = some list →
        (InputLists.resolve s t l).2.inputs.list? id = some list) ∧
    (∀ documents p q, Later s documents p q →
      (∀ id list, p.typing.inputs.list? id = some list → q.typing.inputs.list? id = some list) ∧
      (∀ name id, p.typing.inputs.find? name = some id → q.typing.inputs.find? name = some id) ∧
      ∀ name, p.typing.inputs.isResolved name = true → q.typing.inputs.isResolved name = true) ∧
    ∀ (d : Document) (t : Typing), (d.typing s).1 = .ok t → ∀ name,
      t.inputs.isResolved name = true ↔ ∃ k i f root type,
        t.typedAt? ⟨0, .variable k i⟩ = some f ∧ f.objectType? = some root ∧
          s.Reaches root type ∧ type.name = name := by
  refine ⟨fun l t ht hi => ?_, fun documents p q h => ?_, fun d t h name => isResolved_of_typing h⟩
  · obtain ⟨hadds, hanswer⟩ := InputLists.resolve_adds ht hi l
    refine ⟨fun id hid => InputLists.resolveWithin_of_find? hid,
      fun hmissed name => InputLists.isResolved_resolve_iff ht hi hmissed, hanswer, ?_, ?_⟩
    · exact fun name id => InputLists.find?_of_names_prefix hadds.names_prefix
    · exact fun id list => InputLists.list?_of_prefix hadds.lists_prefix
  · have hlists := h.lists_prefix
    have hnames := InputLists.names_of_prefix hlists
    refine ⟨fun id list => InputLists.list?_of_prefix hlists,
      fun name id => InputLists.find?_of_names_prefix hnames, fun name hname => ?_⟩
    exact InputLists.isResolved_iff.mpr (hnames.subset (InputLists.isResolved_iff.mp hname))

/-- A type that refers to another one: the first resolution adds the list of the other as well, and
then there is nothing left to add. -/
theorem resolve_changes_of_filter :
    (InputLists.resolve Sample.schema Sample.filter {}).2.inputs.isResolved "Range" = true ∧
      InputLists.resolve Sample.schema Sample.range
          (InputLists.resolve Sample.schema Sample.filter {}).2.inputs =
        (1, ⟨(InputLists.resolve Sample.schema Sample.filter {}).2.inputs, []⟩) ∧
      ∃ t, ((Sample.document "friend" "name").typing Sample.schema).1 = .ok t ∧
        t.inputs.isResolved "Range" = true := by
  have hfilter : Sample.filter ∈ Sample.schema.types := by simp [Sample.schema]
  have hrange : Sample.range ∈ Sample.schema.types := by simp [Sample.schema]
  have href : Sample.schema.Refers Sample.filter Sample.range :=
    ⟨("ranges", .list (.named "Range" true) true), by decide, by decide, rfl, rfl⟩
  obtain ⟨hresolve, _, htyping⟩ := resolve_changes Sample.schema
  refine ⟨?_, ?_, ?_⟩
  · obtain ⟨_, hadded, _⟩ := hresolve {} Sample.filter hfilter rfl
    exact (hadded rfl "Range").mpr (.inr ⟨Sample.range, .single ⟨href, rfl⟩, rfl⟩)
  · obtain ⟨hcached, _⟩ := hresolve (InputLists.resolve Sample.schema Sample.filter {}).2.inputs
      Sample.range hrange rfl
    exact hcached 1 (by decide)
  · have hnone : ((Sample.document "friend" "name").turns Sample.schema 0).findSome?
        (·.fault? Sample.schema) = none := rfl
    obtain ⟨t, ht⟩ := exists_typing_iff.mpr hnone
    obtain ⟨r, f, hr, hf, htells⟩ :=
      (hasTyping_of_typing ht).exists_tellsVariable (k := 0) (i := 0) rfl rfl
    have htype : f.type = Sample.filter := (Option.some.inj htells.type).symm
    have hobject : f.objectType? = some Sample.filter := by
      rw [TypedField.objectType?, if_pos (htells.object.mpr (by rw [htype]; rfl)), htype]
    exact ⟨t, ht, (htyping _ t ht "Range").mpr ⟨0, 0, f, Sample.filter, Sample.range,
      Typing.typedAt?_eq hr hf, hobject, .single href, rfl⟩⟩

end Document

end GraphQLTyping
