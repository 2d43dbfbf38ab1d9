import GraphQLTyping.Proofs.Document.Skeleton
import GraphQLTyping.Proofs.Pass.Alike
import GraphQLTyping.Proofs.Pass.Independence

/-!
# Only the skeleton is typed

Documents with the same field skeleton have the same outcome: the same error or the same records, and
the same events (`Document.typing_of_skeleton`).  Nodes of the two that stand at one place of the
skeleton **correspond** (`Document.Corresponds`), and have the same record.

The walk through a document and the walk through its skeleton take moves that are alike
(`Document.alike_skeleton`): as many, in the same order, each on a node and on the one at its place.
So do, by way of the skeleton, the walks through two documents that have the same one.
-/

namespace GraphQLTyping

open Pass

variable {s : Schema} {d d' : Document} {R : NodeId → NodeId → Prop} {n k k₀ i j : Nat}
  {steps places : List Nat} {enclosing inner : List (Option TypeDef)} {head : FieldHead}
  {selections rest below : List Selection} {turns turns' : List Turn}

/-! ### Selections and their skeletons -/

/-- Rows of turns are **alike** if their moves are, turn by turn. -/
abbrev Alike (R : NodeId → NodeId → Prop) (turns turns' : List Turn) : Prop :=
  List.Forall₂ (fun a b => a.move.Alike R b.move) turns turns'

namespace Selection

/-- A relation **follows** selections if it relates each field that stays in their skeletons to the
place where it stands there.  The selections are numbered from one number on, their skeletons from
another. -/
def Followed (R : NodeId → NodeId → Prop) (n k k₀ : Nat) (steps places : List Nat) (i j : Nat)
    (selections : List Selection) : Prop :=
  ∀ a more b more', place? selections (a :: more) = some (b :: more') →
    R ⟨n, .within k (steps ++ (i + a) :: more)⟩ ⟨n, .within k₀ (places ++ (j + b) :: more')⟩

/-- One element counts by itself. -/
theorem countP_cons_of {α : Type} {p : α → Bool} {x : α} {l : List α} {count : Nat}
    (h : [x].countP p = count) : (x :: l).countP p = count + l.countP p := by
  rw [← h, ← List.countP_append, List.singleton_append]

theorem Followed.first
    (h : Followed R n k k₀ steps places i j (.field head below :: rest)) :
    R ⟨n, .within k (steps ++ [i])⟩ ⟨n, .within k₀ (places ++ [j])⟩ :=
  h 0 [] 0 [] rfl

theorem Followed.inside
    (h : Followed R n k k₀ steps places i j (.field head below :: rest)) :
    Followed R n k k₀ (steps ++ [i]) (places ++ [j]) 0 0 below := by
  intro a more b more' hplace
  have hself := h 0 (a :: more) 0 (b :: more') (by
    rw [place?_cons_eq_some]
    exact ⟨head, below, b :: more', rfl, hplace, rfl⟩)
  simpa using hself

/-- Past a selection, which counts in the skeleton if it is a field. -/
theorem Followed.later {x : Selection} {count : Nat} (hcount : [x].countP (·.isField) = count)
    (h : Followed R n k k₀ steps places i j (x :: rest)) :
    Followed R n k k₀ steps places (i + 1) (j + count) rest := by
  intro a more b more' hplace
  obtain ⟨head, below, more₀, hget, hmore, heq⟩ := place?_cons_eq_some.mp hplace
  obtain ⟨rfl, rfl⟩ := List.cons.inj heq
  have hself := h (a + 1) more (count + (rest.take a).countP (·.isField)) more' (by
    rw [place?_cons_eq_some, List.take_succ_cons, countP_cons_of hcount]
    exact ⟨head, below, more', hget, hmore, rfl⟩)
  have hi : i + 1 + a = i + (a + 1) := by omega
  rw [hi, Nat.add_assoc]
  exact hself

/-- The fields among selections match those among their skeletons. -/
theorem matched_skeletons (selections : List Selection) (i j : Nat)
    (h : Followed R n k k₀ steps places i j selections) :
    List.Forall₂ (Matched R) (selectedFieldsFrom ⟨n, .within k steps⟩ i selections)
      (selectedFieldsFrom ⟨n, .within k₀ places⟩ j (skeletons s enclosing selections)) := by
  induction selections generalizing i j with
  | nil =>
    rw [skeletons_nil]
    exact .nil
  | cons x rest ih =>
    cases x with
    | field head below =>
      rw [skeletons, skeleton]
      exact .cons ⟨h.first, rfl⟩ (ih (i + 1) (j + 1) (h.later rfl))
    | spread | inlineFragment => exact ih (i + 1) j (h.later rfl)

/-- **The turns of selections and those of their skeletons are alike.** -/
theorem alike_skeletons (selections : List Selection) (enclosing : List (Option TypeDef))
    (steps : List Nat) (i : Nat) :
    ∀ places j, Followed R n k k₀ steps places i j selections →
      Alike R (turnsFrom s enclosing ⟨n, .within k steps⟩ i selections)
        (turnsFrom s enclosing ⟨n, .within k₀ places⟩ j (skeletons s enclosing selections)) := by
  induction selections, enclosing, steps, i using turns_induct s with
  | nil =>
    intro places j _
    rw [skeletons_nil, turnsFrom_nil, turnsFrom_nil]
    exact .nil
  | passed head below rest enclosing steps i hin ih =>
    intro places j h
    have hin₀ : s.inside? enclosing (FieldHead.ofName head.name).name = none := hin
    rw [skeletons_over hin, turnsFrom_over hin, turnsFrom_over hin₀]
    exact .cons (.enterField h.first rfl) (ih places (j + 1) (h.later rfl))
  | into head below rest enclosing inner steps i hin ihin ih =>
    intro places j h
    have hin₀ : s.inside? enclosing (FieldHead.ofName head.name).name = some inner := hin
    rw [skeletons_into hin, turnsFrom_into hin, turnsFrom_into hin₀]
    refine List.rel_append (.cons (.enterField h.first rfl) (List.rel_append ?_ (.cons ?_ .nil)))
      (ih places (j + 1) (h.later rfl))
    · exact ihin (places ++ [j]) 0 h.inside
    · exact .leaveField h.first rfl (matched_skeletons below 0 0 h.inside)
  | other x rest enclosing steps i hother ih =>
    intro places j h
    rw [skeletons_other hother, turnsFrom_other hother]
    have hlater : Followed R n k k₀ steps places (i + 1) (j + 0) rest := h.later (by simp [hother])
    exact ih places j hlater

end Selection

/-! ### Operations and their skeletons -/

theorem VariableDef.alike_skeletons {R : NodeId → NodeId → Prop}
    (enclosing : List (Option TypeDef)) (steps places : List Nat) (vs : List VariableDef) (i : Nat)
    (h : ∀ a < vs.length, R ⟨n, .variable k (i + a)⟩ ⟨n, .variable k₀ (i + a)⟩) :
    Alike R (turnsFrom enclosing ⟨n, .within k steps⟩ i vs)
        (turnsFrom enclosing ⟨n, .within k₀ places⟩ i (vs.map (·.skeleton))) ∧
      List.Forall₂ (Matched R) (definedVariablesFrom ⟨n, .within k steps⟩ i vs)
        (definedVariablesFrom ⟨n, .within k₀ places⟩ i (vs.map (·.skeleton))) := by
  induction vs generalizing i with
  | nil => exact ⟨.nil, .nil⟩
  | cons v rest ih =>
    have hfirst := h 0 (Nat.zero_lt_succ _)
    obtain ⟨hturns, hdefined⟩ := ih (i + 1) fun a ha => by
      have hnext := h (a + 1) (Nat.succ_lt_succ ha)
      rwa [Nat.add_comm a 1, ← Nat.add_assoc] at hnext
    exact ⟨.cons (.enterVariable hfirst rfl rfl) hturns, .cons ⟨hfirst, rfl⟩ hdefined⟩

/-- A relation **follows** an operation if it relates it, its variables, and the fields that stay in
its skeleton to the nodes where they stand there. -/
structure Operation.Followed (R : NodeId → NodeId → Prop) (n k k₀ : Nat) (o : Operation) : Prop where
  self : R ⟨n, .within k []⟩ ⟨n, .within k₀ []⟩
  defined : ∀ i < o.variableDefs.length, R ⟨n, .variable k i⟩ ⟨n, .variable k₀ i⟩
  selections : Selection.Followed R n k k₀ [] [] 0 0 o.selections

/-- **The turns of an operation and those of its skeleton are alike.** -/
theorem Operation.alike_skeleton {o : Operation} (h : o.Followed R n k k₀) :
    Alike R (o.turns s [] ⟨n, .within k []⟩) ((o.skeleton s).turns s [] ⟨n, .within k₀ []⟩) := by
  have hkind : (o.skeleton s).kind = o.kind := rfl
  cases hroot : s.root? o.kind with
  | none =>
    rw [turns_missing hroot, turns_missing (hkind ▸ hroot)]
    exact .cons (.enterOperation h.self rfl) .nil
  | some root =>
    have hvariables : ∀ a < o.variableDefs.length,
        R ⟨n, .variable k (0 + a)⟩ ⟨n, .variable k₀ (0 + a)⟩ := by
      intro a ha
      rw [Nat.zero_add]
      exact h.defined a ha
    obtain ⟨hturns, hdefined⟩ :=
      VariableDef.alike_skeletons [some root] [] [] o.variableDefs 0 hvariables
    have hsel : (o.skeleton s).selections = Selection.skeletons s [some root] o.selections := by
      rw [skeleton, hroot]
      rfl
    rw [turns_root hroot, turns_root (hkind ▸ hroot), turnsInside, turnsInside, hsel]
    refine .cons (.enterOperation h.self rfl)
      (List.rel_append (List.rel_append hturns ?_) (.cons (.leaveOperation h.self ?_ hdefined) .nil))
    · exact Selection.alike_skeletons o.selections _ [] 0 [] 0 h.selections
    · rw [hsel]
      exact Selection.matched_skeletons o.selections 0 0 h.selections

/-- The turns of definitions and those of the skeletons of the operations among them. -/
theorem Definition.alike_skeletons (ds : List Definition) (i j : Nat)
    (h : ∀ (a : Nat) (o : Operation), ds[a]? = some (.operation o) →
      o.Followed R n (i + a) (j + (ds.take a).countP (·.isOperation))) :
    Alike R (turnsFrom s [] n i ds) (turnsFrom s [] n j (skeletons s ds)) := by
  induction ds generalizing i j with
  | nil => exact .nil
  | cons d rest ih =>
    have hrest : ∀ count, [d].countP (·.isOperation) = count → ∀ (a : Nat) (o : Operation),
        rest[a]? = some (.operation o) →
        o.Followed R n (i + 1 + a) (j + count + (rest.take a).countP (·.isOperation)) := by
      intro count hcount a o hget
      have hnext := h (a + 1) o hget
      rw [List.take_succ_cons, Selection.countP_cons_of hcount] at hnext
      rwa [Nat.add_assoc j, Nat.add_assoc i, Nat.add_comm 1]
    cases d with
    | operation o =>
      exact List.rel_append (Operation.alike_skeleton (h 0 o rfl)) (ih (i + 1) (j + 1) (hrest 1 rfl))
    | fragment | typeSystem => exact ih (i + 1) j (hrest 0 rfl)

/-! ### Documents with one skeleton -/

namespace Document

/-- A node of a document **stands** at another one of its skeleton. -/
def Stands (d : Document) (n : Nat) (id id' : NodeId) : Prop :=
  id.document = n ∧ id'.document = n ∧ d.place? id.path = some id'.path

/-- **The turns of a document and those of its skeleton are alike.** -/
theorem alike_skeleton (s : Schema) (n : Nat) (d : Document) :
    Alike (d.Stands n) (d.turns s n) ((d.skeleton s).turns s n) := by
  refine Definition.alike_skeletons d.definitions 0 0 fun k o hget => ?_
  rw [Nat.zero_add, Nat.zero_add]
  refine ⟨⟨rfl, rfl, ?_⟩, fun i hi => ⟨rfl, rfl, ?_⟩, fun a more b more' hplace => ⟨rfl, rfl, ?_⟩⟩
  · exact place?_within_eq_some.mpr ⟨o, [], hget, rfl, rfl⟩
  · exact place?_variable_eq_some.mpr ⟨o, hget, hi, rfl⟩
  · rw [Nat.zero_add, Nat.zero_add]
    exact place?_within_eq_some.mpr ⟨o, b :: more', hget, hplace, rfl⟩

/-- Nodes of two documents **correspond** if they stand at one place of a skeleton. -/
def Corresponds (d d' : Document) (path path' : NodePath) : Prop :=
  ∃ place, d.place? path = some place ∧ d'.place? path' = some place

theorem biUnique_stands (d : Document) (n : Nat) : Relator.BiUnique (d.Stands n) := by
  constructor
  · rintro ⟨m, path⟩ ⟨m', path'⟩ place ⟨hm, _, h⟩ ⟨hm', _, h'⟩
    rw [NodeId.mk.injEq]
    exact ⟨hm.trans hm'.symm, eq_of_place? h h'⟩
  · rintro ⟨m, path⟩ ⟨m', place⟩ ⟨m'', place'⟩ ⟨_, hm, h⟩ ⟨_, hm', h'⟩
    rw [NodeId.mk.injEq]
    exact ⟨hm.trans hm'.symm, Option.some.inj (h.symm.trans h')⟩

/-- A pass through a document and one through its skeleton agree. -/
theorem agree_skeleton (s : Schema) (d : Document) :
    Agree (d.Stands 0) (takeTurns s (d.turns s 0) { used := true })
      (takeTurns s ((d.skeleton s).turns s 0) { used := true }) :=
  goAlike_takeTurns (d.biUnique_stands 0) (d.alike_skeleton s 0) _ _
    ⟨rfl, rfl, Typing.Alike.refl_empty _, rfl⟩

end Document

/-! ### What is noted on the way -/

variable {t t' u : Typing} {α : Type}

/-- Turns that are alike leave operations that are related. -/
theorem Alike.leftOperations (h : Alike R turns turns') :
    List.Forall₂ (fun x y => R x.1 y.1) (leftOperations turns) (leftOperations turns') := by
  refine List.rel_filterMap (fun a b hab => ?_) h
  obtain ⟨move, enclosing⟩ := a
  obtain ⟨move', enclosing'⟩ := b
  cases hab with
  | leaveOperation hid => exact .some hid
  | enterOperation | enterVariable | enterField | leaveField => exact .none

/-- Notes on related nodes are the same. -/
theorem Typing.noted_eq (hR : Relator.BiUnique R) {notes notes' : List (NodeId × α)}
    (h : List.Forall₂ (Matched R) notes notes') {id id' : NodeId} (hid : R id id') {node node' : Node}
    {found : α} (hok : noted notes' id' node' = .ok found) : noted notes id node = .ok found := by
  rw [noted, lookup_eq_of_matched hR h hid]
  rw [noted] at hok
  split at hok
  · exact hok
  · cases hok

theorem map_eq_map_of_forall₂ {β γ : Type} {S : α → β → Prop} {f : α → γ} {g : β → γ} {l : List α}
    {l' : List β} (h : List.Forall₂ S l l') (hfg : ∀ a, ∀ b ∈ l', S a b → f a = g b) :
    l.map f = l'.map g := by
  induction h with
  | nil => rfl
  | cons hab _ ih =>
    rw [List.map_cons, List.map_cons, hfg _ _ List.mem_cons_self hab,
      ih fun a b hb => hfg a b (List.mem_cons_of_mem _ hb)]

theorem Typing.Alike.treeWithin_eq (h : t.Alike R t') (depth : Nat) :
    t.treeWithin depth = t'.treeWithin depth := by
  induction depth with
  | zero => rfl
  | succ depth ih =>
    funext r
    rw [treeWithin, treeWithin, ih, h.field?_eq]

theorem Typing.Alike.tree_eq (h : t.Alike R t') : t.tree = t'.tree := by
  funext r
  rw [tree, tree, h.treeWithin_eq, h.records]

/-! ### Typings of documents with one skeleton -/

/-- Typings of two documents **tell the same**: the records are the same, those of nodes that
correspond, the variables, and the root fields and the variables of the operations, in order. -/
structure Typing.TellsSame (t t' : Typing) (d d' : Document) : Prop where
  records : t.records = t'.records
  inputs : t.inputs = t'.inputs
  variableRecords : t.variableRecords = t'.variableRecords
  tree : t.tree = t'.tree
  record? : ∀ path path', d.Corresponds d' path path' →
    t.record? ⟨0, path⟩ = t'.record? ⟨0, path'⟩
  corresponds : ∀ path r, t.record? ⟨0, path⟩ = some r → ∃ path', d.Corresponds d' path path'
  corresponds' : ∀ path' r, t'.record? ⟨0, path'⟩ = some r → ∃ path, d.Corresponds d' path path'
  fieldsOf : (d.operationNodes 0).map (fun x => t.fieldsOf x.1 (.operation x.2)) =
    (d'.operationNodes 0).map fun x => t'.fieldsOf x.1 (.operation x.2)
  variablesOf : (d.operationNodes 0).map (fun x => t.variablesOf x.1 (.operation x.2)) =
    (d'.operationNodes 0).map fun x => t'.variablesOf x.1 (.operation x.2)

namespace Typing.Alike

/-- A node with a record corresponds to one of every document with the skeleton. -/
theorem exists_corresponds {path : NodePath} {r : RecordId} (h : t.Alike (d.Stands 0) u)
    (h' : t'.Alike (d'.Stands 0) u) (hr : t.record? ⟨0, path⟩ = some r) :
    ∃ path', d.Corresponds d' path path' := by
  obtain ⟨x, hx, ⟨_, _, hplace⟩, _⟩ :=
    InputLists.exists_of_mem h.nodes.flip (mem_nodes_of_record? hr)
  obtain ⟨y, _, ⟨_, _, hplace'⟩, _⟩ := InputLists.exists_of_mem h'.nodes hx
  exact ⟨y.1.path, x.1.path, hplace, hplace'⟩

variable {d₀ : Document} (ht : d.HasTyping s 0 t) (hu : d₀.HasTyping s 0 u)
  (hturns : GraphQLTyping.Alike R (d.turns s 0) (d₀.turns s 0)) (hR : Relator.BiUnique R)

include ht hu hturns hR

/-- What is noted about the operations is the same, if they have notes. -/
theorem map_noted_eq {notes notes' : List (NodeId × List RecordId)}
    (h : List.Forall₂ (Matched R) notes notes')
    (hnoted : ∀ y ∈ d₀.operationNodes 0, ∃ records, noted notes' y.1 (.operation y.2) = .ok records) :
    (d.operationNodes 0).map (fun x => noted notes x.1 (.operation x.2)) =
      (d₀.operationNodes 0).map fun y => noted notes' y.1 (.operation y.2) := by
  have hleft := hturns.leftOperations
  rw [ht.leftOperations_eq, hu.leftOperations_eq] at hleft
  refine map_eq_map_of_forall₂ hleft fun x y hy hxy => ?_
  obtain ⟨records, hrecords⟩ := hnoted y hy
  rw [hrecords, noted_eq hR h hxy hrecords]

theorem map_fieldsOf_eq (h : t.Alike R u) :
    (d.operationNodes 0).map (fun x => t.fieldsOf x.1 (.operation x.2)) =
      (d₀.operationNodes 0).map fun y => u.fieldsOf y.1 (.operation y.2) :=
  map_noted_eq ht hu hturns hR h.operationFields fun _ hy =>
    (hu.exists_fieldsOf hy).imp fun _ h => h.1

theorem map_variablesOf_eq (h : t.Alike R u) :
    (d.operationNodes 0).map (fun x => t.variablesOf x.1 (.operation x.2)) =
      (d₀.operationNodes 0).map fun y => u.variablesOf y.1 (.operation y.2) :=
  map_noted_eq ht hu hturns hR h.operationVariables fun _ hy =>
    (hu.exists_variablesOf hy).imp fun _ h => h.1

end Typing.Alike

namespace Document

/-- The typings of two documents with one skeleton tell the same. -/
theorem HasTyping.tellsSame {d₀ : Document} (h : t.Alike (d.Stands 0) u)
    (h' : t'.Alike (d'.Stands 0) u) (ht : d.HasTyping s 0 t) (ht' : d'.HasTyping s 0 t')
    (hu : d₀.HasTyping s 0 u) (hd : Alike (d.Stands 0) (d.turns s 0) (d₀.turns s 0))
    (hd' : Alike (d'.Stands 0) (d'.turns s 0) (d₀.turns s 0)) : t.TellsSame t' d d' where
  records := h.records.trans h'.records.symm
  inputs := h.inputs.trans h'.inputs.symm
  variableRecords := h.variableRecords.trans h'.variableRecords.symm
  tree := h.tree_eq.trans h'.tree_eq.symm
  record? := by
    rintro path path' ⟨place, hplace, hplace'⟩
    have hleft : t.record? ⟨0, path⟩ = u.record? ⟨0, place⟩ :=
      h.record?_eq (d.biUnique_stands 0) ⟨rfl, rfl, hplace⟩
    have hright : t'.record? ⟨0, path'⟩ = u.record? ⟨0, place⟩ :=
      h'.record?_eq (d'.biUnique_stands 0) ⟨rfl, rfl, hplace'⟩
    exact hleft.trans hright.symm
  corresponds _ _ hr := h.exists_corresponds h' hr
  corresponds' _ _ hr := by
    obtain ⟨path, place, hplace', hplace⟩ := h'.exists_corresponds h hr
    exact ⟨path, place, hplace, hplace'⟩
  fieldsOf := (Typing.Alike.map_fieldsOf_eq ht hu hd (d.biUnique_stands 0) h).trans
    (Typing.Alike.map_fieldsOf_eq ht' hu hd' (d'.biUnique_stands 0) h').symm
  variablesOf := (Typing.Alike.map_variablesOf_eq ht hu hd (d.biUnique_stands 0) h).trans
    (Typing.Alike.map_variablesOf_eq ht' hu hd' (d'.biUnique_stands 0) h').symm

/-- The outcome for a document is that for its skeleton. -/
theorem typing_skeleton (s : Schema) (d : Document) :
    (d.typing s).2 = ((d.skeleton s).typing s).2 ∧
      (∀ e, (d.typing s).1 = .error e → ((d.skeleton s).typing s).1 = .error e) ∧
      ∀ t, (d.typing s).1 = .ok t →
        ∃ u, ((d.skeleton s).typing s).1 = .ok u ∧ t.Alike (d.Stands 0) u := by
  have hagree := agree_skeleton s d
  rw [d.typing_eq, (d.skeleton s).typing_eq]
  generalize takeTurns s (d.turns s 0) { used := true } = outcome at hagree
  generalize takeTurns s ((d.skeleton s).turns s 0) { used := true } = outcome' at hagree
  cases hagree with
  | ok _ h =>
    refine ⟨h.log, ?_, ?_⟩
    · intro e he
      cases he
    · intro t ht
      cases ht
      exact ⟨_, rfl, h.typing⟩
  | error e h =>
    refine ⟨h.log, fun _ he => he, ?_⟩
    intro t ht
    cases ht

/-- **Only the skeleton is typed.**  Documents with the same skeleton have the same events and the
same outcome: the same error, or typings that tell the same. -/
theorem typing_of_skeleton (h : d.skeleton s = d'.skeleton s) :
    (d.typing s).2 = (d'.typing s).2 ∧
      match (d.typing s).1, (d'.typing s).1 with
      | .error e, .error e' => e = e'
      | .ok t, .ok t' => t.TellsSame t' d d'
      | _, _ => False := by
  obtain ⟨hlog, herror, hok⟩ := typing_skeleton s d
  obtain ⟨hlog', herror', hok'⟩ := typing_skeleton s d'
  rw [← h] at hlog' herror' hok'
  refine ⟨hlog.trans hlog'.symm, ?_⟩
  cases ht : (d.typing s).1 with
  | error e =>
    have hskeleton := herror e ht
    cases ht' : (d'.typing s).1 with
    | error e' => exact Except.error.inj (hskeleton.symm.trans (herror' e' ht'))
    | ok t' =>
      obtain ⟨u, hu, _⟩ := hok' t' ht'
      cases hskeleton.symm.trans hu
  | ok t =>
    obtain ⟨u, hu, halike⟩ := hok t ht
    cases ht' : (d'.typing s).1 with
    | error e' => cases hu.symm.trans (herror' e' ht')
    | ok t' =>
      obtain ⟨u', hu', halike'⟩ := hok' t' ht'
      obtain rfl := Except.ok.inj (hu.symm.trans hu')
      have hturns' := d'.alike_skeleton s 0
      rw [← h] at hturns'
      exact HasTyping.tellsSame halike halike' (hasTyping_of_typing ht) (hasTyping_of_typing ht')
        (hasTyping_of_typing hu) (d.alike_skeleton s 0) hturns'

/-- What stands around and below the fields of a document does not count. -/
theorem typing_of_skeleton_dressed :
    ∃ t t', (Sample.bare.typing Sample.schema).1 = .ok t ∧
      (Sample.dressed.typing Sample.schema).1 = .ok t' ∧ t.TellsSame t' Sample.bare Sample.dressed ∧
      t'.record? ⟨0, .within 1 [1, 0]⟩ = some 1 := by
  have hskeleton : Sample.bare.skeleton Sample.schema = Sample.dressed.skeleton Sample.schema := rfl
  obtain ⟨_, hsame⟩ := typing_of_skeleton hskeleton
  obtain ⟨t, ht⟩ : ∃ t, (Sample.bare.typing Sample.schema).1 = .ok t := exists_typing_iff.mpr rfl
  obtain ⟨t', ht'⟩ : ∃ t, (Sample.dressed.typing Sample.schema).1 = .ok t :=
    exists_typing_iff.mpr rfl
  rw [ht, ht'] at hsame
  have hrecord : t.record? ⟨0, .within 0 [0, 0]⟩ = some 1 :=
    (hasTyping_of_typing ht).record?_eq_some_iff.mpr rfl
  refine ⟨t, t', ht, ht', hsame, ?_⟩
  rw [← hsame.record? (.within 0 [0, 0]) (.within 1 [1, 0]) ⟨.within 0 [0, 0], rfl, rfl⟩, hrecord]

end Document

end GraphQLTyping
