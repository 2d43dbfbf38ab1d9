import GraphQLTyping.Proofs.Pass.Discipline
import GraphQLTyping.Proofs.Pass.Effect
import GraphQLTyping.Proofs.Pass.Found
import GraphQLTyping.Typing.Handler

/-!
# Sessions with a pass

A **session** takes any steps with a pass, in any order, failing or not: handlers on nodes of
documents, each on a node of the sort it is meant for, object types put around the place and taken
away, be they of the schema or from elsewhere, and whole walks (`Pass.Session`).

A property that a new pass has, and that is kept by each move on a node of the documents and by taking
object types in and away, holds throughout every session (`Pass.Session.induct`).  Walks need no
argument of their own for that: they are moves in a row, and where one fails they end.
-/

namespace GraphQLTyping

variable {s : Schema} {documents : Nat → Document} {d : Document} {P : Pass → Prop} {p q : Pass}
  {id : NodeId} {n k : Nat} {steps : List Nat} {α β : Type}

/-- A move **stands** in documents if its node is theirs. -/
def Move.Stands (documents : Nat → Document) : Move → Prop
  | .enterOperation id o | .leaveOperation id o =>
    (documents id.document).node? id.path = some (.operation o)
  | .enterVariable id v => (documents id.document).node? id.path = some (.variable v)
  | .enterField id head selections | .leaveField id head selections =>
    (documents id.document).node? id.path = some (.field head selections)

namespace Document

theorem definition_of_operation {o : Operation}
    (h : d.node? (.within k steps) = some (.operation o)) :
    d.definitions[k]? = some (.operation o) ∧ steps = [] := by
  obtain ⟨definition, hget, hnode⟩ := Option.bind_eq_some_iff.mp h
  cases steps with
  | nil =>
    cases definition <;> cases hnode
    exact ⟨hget, rfl⟩
  | cons i steps =>
    rw [Node.descendant?] at hnode
    obtain ⟨y, _, hy⟩ := Option.bind_eq_some_iff.mp hnode
    exact absurd hy (Node.descendant?_ne_operation y steps)

end Document

namespace Pass

/-- A pass in a **session** with documents, each of which has a number. -/
inductive Session (s : Schema) (documents : Nat → Document) : Pass → Prop
  | new : Session s documents {}
  | handle {p : Pass} (h : Session s documents p) (id : NodeId) {node : Node}
    (hnode : (documents id.document).node? id.path = some node) (handler : Handler)
    (hsuits : handler.suits node = true) :
    Session s documents (after (handle s id node handler) p)
  | push {p : Pass} (h : Session s documents p) {t : TypeDef} (ht : t.isObject = true) :
    Session s documents (after (push t) p)
  | pop {p : Pass} (h : Session s documents p) : Session s documents (after pop p)
  | typeDocument {p : Pass} (h : Session s documents p) (number : Nat) :
    Session s documents (after (typeDocument s number (documents number)) p)
  | typeNode {p : Pass} (h : Session s documents p) (id : NodeId) {node : Node}
    (hnode : (documents id.document).node? id.path = some node) :
    Session s documents (after (typeNode s id node) p)

/-! ### What steps keep -/

/-- A property is **kept** by a step, be it taken or failed. -/
def Keeps (P : Pass → Prop) (x : Step α) : Prop := ∀ p, P p → P (after x p)

theorem keeps_pure (a : α) : Keeps P (pure a : Step α) := fun _ h => h

theorem keeps_throw (e : TypingError) : Keeps P (throw e : Step α) := fun _ h => h

theorem Keeps.bind {x : Step α} {f : α → Step β} (h : Keeps P x) (hf : ∀ a, Keeps P (f a)) :
    Keeps P (x >>= f) := by
  intro p hp
  have hx := h p hp
  rw [after] at hx
  rw [after, bind_apply]
  cases hq : x p with
  | ok a q =>
    rw [hq] at hx
    exact hf a q hx
  | error e q =>
    rw [hq] at hx
    exact hx

theorem keeps_pop
    (hmissing : ∀ p outer, p.enclosing = none :: outer → P p → P { p with enclosing := outer })
    (hpopped : ∀ p t outer, p.enclosing = some t :: outer → P p → P (p.popped t outer)) :
    Keeps P Pass.pop := by
  intro p hp
  cases hcons : p.enclosing with
  | nil =>
    rw [after_of_error (pop_of_nil hcons)]
    exact hp
  | cons innermost outer =>
    cases innermost with
    | none =>
      rw [after_of_error (pop_of_missing hcons)]
      exact hmissing p outer hcons hp
    | some t =>
      rw [after_of_ok (pop_of_cons hcons)]
      exact hpopped p t outer hcons hp

theorem after_discard (x : Step α) (p : Pass) :
    after (discard x : Step PUnit) p = after x p := by
  rw [after, after, discard_apply]
  cases x p <;> rfl

/-! ### Handlers -/

theorem handle_leaveOperation (id : NodeId) (o : Operation) :
    handle s id (.operation o) .leaveOperation =
      (leaveOperation id (selectedFields id o.selections)
        (definedVariables id o.variableDefs) >>= fun _ => pure .into) := by
  simp [handle, leaveOperation, needed, Node.selections?, Node.variableDefs?]

theorem handle_leaveField (id : NodeId) (head : FieldHead) (selections : List Selection) :
    handle s id (.field head selections) .leaveField =
      (leaveField id head.name (selectedFields id selections) >>= fun _ => pure .into) := by
  simp only [handle, leaveField, bind_assoc]
  refine bind_congr fun left => ?_
  cases left <;> simp [needed, Node.selections?]

/-- What is kept by every move that stands in the documents. -/
def KeptByMoves (s : Schema) (documents : Nat → Document) (P : Pass → Prop) : Prop :=
  ∀ m : Move, m.Stands documents → Keeps P (m.step s)

namespace KeptByMoves

variable (h : KeptByMoves s documents P)

include h

theorem enterOperation {o : Operation}
    (hnode : (documents id.document).node? id.path = some (.operation o)) :
    Keeps P (enterOperation s o.kind) :=
  h (.enterOperation id o) hnode

theorem leaveOperation {o : Operation}
    (hnode : (documents id.document).node? id.path = some (.operation o)) :
    Keeps P (leaveOperation id (selectedFields id o.selections)
      (definedVariables id o.variableDefs)) :=
  h (.leaveOperation id o) hnode

theorem enterVariable {v : VariableDef}
    (hnode : (documents id.document).node? id.path = some (.variable v)) :
    Keeps P (enterVariable s id v.name v.type) :=
  h (.enterVariable id v) hnode

section Field

variable {head : FieldHead} {selections : List Selection}
  (hnode : (documents id.document).node? id.path = some (.field head selections))

include hnode

theorem enterField : Keeps P (enterField s id head.name) := by
  intro p hp
  rw [← after_discard]
  exact h (.enterField id head selections) hnode p hp

theorem leaveField : Keeps P (leaveField id head.name (selectedFields id selections)) :=
  h (.leaveField id head selections) hnode

end Field

/-! ### Walks -/

theorem walkSelections (selections : List Selection) (steps : List Nat) (i : Nat) :
    (∀ a y, selections[a]? = some y →
      (documents n).node? (.within k (steps ++ [i + a])) = some (.ofSelection y)) →
    Keeps P (walkSelections s ⟨n, .within k steps⟩ i selections) := by
  induction selections, steps, i using Selection.nodes_induct with
  | nil =>
    intro _
    rw [Pass.walkSelections]
    exact keeps_pure _
  | cons y rest steps i ihbelow ihrest =>
    intro hnodes
    have hself := hnodes 0 y rfl
    have hbelow : ∀ a z, (Node.ofSelection y).selections[a]? = some z →
        (documents n).node? (.within k (steps ++ [i] ++ [0 + a])) = some (.ofSelection z) := by
      intro a z hz
      rw [Nat.zero_add]
      exact Document.node?_child hself hz
    have hrest : ∀ a z, rest[a]? = some z →
        (documents n).node? (.within k (steps ++ [i + 1 + a])) = some (.ofSelection z) := by
      intro a z hz
      rw [Nat.add_assoc, Nat.add_comm 1]
      exact hnodes (a + 1) z hz
    rw [Pass.walkSelections]
    refine Keeps.bind ?_ fun _ => ihrest hrest
    cases y with
    | field head below =>
      rw [walkSelection]
      have henter : Keeps P (Pass.enterField s ⟨n, .within k (steps ++ [i])⟩ head.name) :=
        h.enterField hself
      refine henter.bind fun descent => ?_
      cases descent with
      | «over» => exact keeps_pure _
      | into =>
        refine (ihbelow hbelow).bind fun _ => ?_
        exact h.leaveField hself
    | spread | inlineFragment =>
      rw [walkSelection]
      exact keeps_pure _

/-- The selections below a node of the documents. -/
theorem walkBelow {node : Node}
    (hnode : (documents n).node? (.within k steps) = some node) :
    Keeps P (Pass.walkSelections s ⟨n, .within k steps⟩ 0 node.selections) := by
  refine h.walkSelections node.selections steps 0 fun a y hy => ?_
  rw [Nat.zero_add]
  exact Document.node?_child hnode hy

theorem walkVariables (vs : List VariableDef) (i : Nat)
    (hnodes : ∀ a v, vs[a]? = some v →
      (documents n).node? (.variable k (i + a)) = some (.variable v)) :
    Keeps P (Pass.walkVariables s ⟨n, .within k steps⟩ i vs) := by
  induction vs generalizing i with
  | nil => exact keeps_pure _
  | cons v rest ih =>
    have henter : Keeps P (Pass.enterVariable s ⟨n, .variable k i⟩ v.name v.type) :=
      h.enterVariable (hnodes 0 v rfl)
    refine henter.bind fun _ => ?_
    refine ih (i + 1) fun a w hw => ?_
    rw [Nat.add_assoc, Nat.add_comm 1]
    exact hnodes (a + 1) w hw

theorem walkOperation {o : Operation}
    (hnode : (documents n).node? (.within k steps) = some (.operation o)) :
    Keeps P (Pass.walkOperation s ⟨n, .within k steps⟩ o) := by
  obtain ⟨hget, rfl⟩ := Document.definition_of_operation hnode
  have henter : Keeps P (Pass.enterOperation s o.kind) :=
    h (.enterOperation ⟨n, .within k []⟩ o) hnode
  refine henter.bind fun _ => ?_
  refine (h.walkVariables o.variableDefs 0 fun a v hv => ?_).bind fun _ => ?_
  · rw [Nat.zero_add]
    exact Document.node?_variable_eq_some_iff.mpr ⟨o, hget, hv⟩
  · exact (h.walkBelow hnode).bind fun _ => h.leaveOperation hnode

theorem walkDefinitions (ds : List Definition) (i : Nat)
    (hget : ∀ a definition, ds[a]? = some definition →
      (documents n).definitions[i + a]? = some definition) :
    Keeps P (Pass.walkDefinitions s n i ds) := by
  induction ds generalizing i with
  | nil => exact keeps_pure _
  | cons definition rest ih =>
    have hrest : Keeps P (Pass.walkDefinitions s n (i + 1) rest) := by
      refine ih (i + 1) fun a other ha => ?_
      rw [Nat.add_assoc, Nat.add_comm 1]
      exact hget (a + 1) other ha
    cases definition with
    | operation o =>
      refine Keeps.bind ?_ fun _ => hrest
      refine h.walkOperation ?_
      have hfirst : (documents n).definitions[i]? = some (.operation o) := hget 0 _ rfl
      rw [Document.node?_within hfirst]
      rfl
    | fragment | typeSystem => exact hrest

theorem walkNode {node : Node} (hnode : (documents id.document).node? id.path = some node) :
    Keeps P (Pass.walkNode s id node) := by
  obtain ⟨n, path⟩ := id
  cases node with
  | operation o =>
    obtain ⟨k, steps, rfl⟩ := Document.exists_within_of_node? hnode (by simp)
    exact h.walkOperation hnode
  | «variable» v =>
    have henter : Keeps P (Pass.enterVariable s ⟨n, path⟩ v.name v.type) := h.enterVariable hnode
    exact henter.bind fun _ => keeps_throw _
  | field head selections =>
    obtain ⟨k, steps, rfl⟩ := Document.exists_within_of_node? hnode (by simp)
    have henter : Keeps P (Pass.enterField s ⟨n, .within k steps⟩ head.name) := h.enterField hnode
    refine henter.bind fun descent => ?_
    cases descent with
    | «over» => exact keeps_throw _
    | into =>
      exact (h.walkBelow hnode).bind fun _ => h.leaveField hnode
  | fragment | inlineFragment => exact keeps_throw _
  | spread | typeSystem => exact keeps_pure _

/-- A handler on a node of the sort it is meant for is a move on it, or does nothing. -/
theorem handle {node : Node} (hnode : (documents id.document).node? id.path = some node)
    {handler : Handler} (hsuits : handler.suits node = true) :
    Keeps P (Pass.handle s id node handler) := by
  cases handler with
  | enterInlineFragment | enterFragment => exact keeps_pure _
  | enterOperation =>
    cases node <;> cases hsuits
    exact (h.enterOperation hnode).bind fun _ => keeps_pure _
  | leaveOperation =>
    cases node <;> cases hsuits
    rw [handle_leaveOperation]
    exact (h.leaveOperation hnode).bind fun _ => keeps_pure _
  | enterVariable =>
    cases node <;> cases hsuits
    exact (h.enterVariable hnode).bind fun _ => keeps_pure _
  | enterField =>
    cases node <;> cases hsuits
    exact h.enterField hnode
  | leaveField =>
    cases node <;> cases hsuits
    rw [handle_leaveField]
    exact (h.leaveField hnode).bind fun _ => keeps_pure _

end KeptByMoves

theorem complete_of_used (hu : p.used = true) (walk : Step Unit) :
    complete walk p = .error .alreadyUsed p := by
  simp only [complete, bind_apply, get_apply, hu, if_true, throw_apply]

/-- A whole walk of an unused pass leaves what the walk leaves. -/
theorem after_complete (hu : p.used = false) (walk : Step Unit) :
    after (complete walk) p = after walk { p with used := true } := by
  rw [after, after, complete_of_unused hu]
  cases walk { p with used := true } with
  | error e q => rfl
  | ok _ q => by_cases hnil : q.enclosing = [] <;> simp only [hnil, if_true, if_false]

/-- A whole walk. -/
theorem Keeps.complete {walk : Step Unit} (h : Keeps P walk)
    (hused : ∀ p, P p → P { p with used := true }) : Keeps P (complete walk) := by
  intro p hp
  cases hu : p.used with
  | true =>
    rw [after_of_error (complete_of_used hu walk)]
    exact hp
  | false =>
    rw [after_complete hu]
    exact h _ (hused p hp)

/-- **What moves keep holds throughout a session**, if a new pass has it and it is kept as object
types are taken in and away. -/
theorem Session.induct (h : Session s documents p) (hnew : P {})
    (hmove : ∀ m p e q, m.Stands documents → Move.Does s m p e q → P p → P q)
    (hpushed : ∀ p (type : TypeDef), type.isObject = true → P p → P (p.pushed type))
    (hmissing : ∀ p outer, p.enclosing = none :: outer → P p → P { p with enclosing := outer })
    (hpopped : ∀ p type outer, p.enclosing = some type :: outer → P p → P (p.popped type outer))
    (hused : ∀ p, P p → P { p with used := true }) : P p := by
  have hmoves : KeptByMoves s documents P := fun m hm p hp => hmove m p _ _ hm (m.does p) hp
  induction h with
  | new => exact hnew
  | handle _ id hnode handler hsuits ih => exact hmoves.handle hnode hsuits _ ih
  | push _ ht ih => exact hpushed _ _ ht ih
  | pop _ ih => exact keeps_pop hmissing hpopped _ ih
  | typeDocument _ number ih =>
    refine Keeps.complete (hmoves.walkDefinitions _ 0 fun a definition hget => ?_) hused _ ih
    rwa [Nat.zero_add]
  | typeNode _ id hnode ih => exact (hmoves.walkNode hnode).complete hused _ ih

end Pass

end GraphQLTyping
