import GraphQLTyping.Typing.Event
import GraphQLTyping.Typing.Field

/-!
# Shared lists of input fields

Every input object type has **one list** of typed fields in a pass, and each reference to the type
has that very list: a type that refers to itself, directly or through others, has a list that leads
back to itself.  Lists are known by the names of their types.

Resolving a type (`InputLists.resolve`) answers the list of its name.  If there is none yet, the
list is **reserved** first, empty.  Then the fields are typed in the order of their declaration,
which resolves the types they refer to, and each is added to the list once it is typed.  A reference
that leads back to a type in progress finds its list, filled so far or not; so no type is resolved
twice, and the nesting of resolutions is bounded by the number of types.

* `InputLists.isResolved`: whether a name has a list.
* `InputLists.mentionOrder`: the lists that can be reached, each in the order of its first mention.
-/

namespace GraphQLTyping

/-- The list of an input object type: the type, and a typed field for each of its fields. -/
structure InputList where
  owner : TypeDef
  fields : List TypedField
deriving Inhabited

/-- The lists of a pass, in the order in which they were reserved. -/
structure InputLists where
  lists : List InputList := []
deriving Inhabited

namespace InputLists

/-- The list of a type name. -/
def find? (s : InputLists) (name : String) : Option ListId :=
  s.lists.findIdx? (·.owner.name == name)

/-- Whether a type name has a list. -/
def isResolved (s : InputLists) (name : String) : Bool := (s.find? name).isSome

/-- The list of a number. -/
def list? (s : InputLists) (id : ListId) : Option InputList := s.lists[id]?

/-- The lists with an empty one for a type, which is the last. -/
def reserve (s : InputLists) (owner : TypeDef) : InputLists := ⟨s.lists ++ [⟨owner, []⟩]⟩

/-- The fields of the list of a number. -/
def fields (s : InputLists) (id : ListId) : List TypedField :=
  ((s.list? id).map (·.fields)).getD []

/-- The lists with a field added to one, as its last. -/
def addField (s : InputLists) (id : ListId) (field : TypedField) : InputLists :=
  ⟨s.lists.modify id fun list => { list with fields := list.fields ++ [field] }⟩

/-- The state of a resolution: the lists so far, and what was reported. -/
structure Resolving where
  inputs : InputLists
  events : List InputEvent
deriving Inhabited

/-- Reports an event. -/
def report (e : InputEvent) : StateM Resolving Unit :=
  modify fun r => { r with events := r.events ++ [e] }

/-- Reserves a list for a type. -/
def reserveList (owner : TypeDef) : StateM Resolving ListId :=
  modifyGet fun r => (r.inputs.lists.length, { r with inputs := r.inputs.reserve owner })

/-- Types a declared field, given how to resolve the type it refers to.  A type of unsupported shape
is reported and not resolved. -/
def typeField (s : Schema) (resolve : TypeDef → StateM Resolving ListId) (owner : TypeDef)
    (declared : String × TypeRef) : StateM Resolving TypedField := do
  let field := s.typedInput owner declared
  unless declared.2.shape.supported do
    report (.unsupported owner.name field.name declared.2)
  if field.resolution = .object then
    return { field with children := .shared (← resolve field.type) }
  else return field

/-- Types a declared field and adds it to a list. -/
def addTyped (s : Schema) (resolve : TypeDef → StateM Resolving ListId) (owner : TypeDef)
    (id : ListId) (declared : String × TypeRef) : StateM Resolving Unit := do
  let field ← typeField s resolve owner declared
  modify fun r => { r with inputs := r.inputs.addField id field }

/-- The list of a type, with at most the given number of resolutions in each other. -/
def resolveWithin (s : Schema) : Nat → TypeDef → StateM Resolving ListId
  | 0, t => do
    match (← get).inputs.find? t.name with
    | some id => return id
    | none => reserveList t
  | depth + 1, t => do
    match (← get).inputs.find? t.name with
    | some id => return id
    | none =>
      let id ← reserveList t
      t.declared.forM (addTyped s (resolveWithin s depth) t id)
      report (.resolved ((← get).inputs.fields id).length t.name)
      return id

/-- **Resolves** an input object type of a schema: its list, the lists there are then, and what was
reported. -/
def resolve (s : Schema) (t : TypeDef) (inputs : InputLists) : ListId × Resolving :=
  (resolveWithin s (s.types.length + 1) t).run ⟨inputs, []⟩

/-- Resolves the type of a name, of any sort.  A type without fields has no list to be filled: its
name is reserved the first time, without an answer, and what was reserved is the answer from then
on.  A name that is not the name of a type has no list. -/
def resolveNamed (s : Schema) (name : String) (inputs : InputLists) : Option ListId × Resolving :=
  match s.type? name with
  | none => (none, ⟨inputs, []⟩)
  | some t =>
    if t.hasFields || inputs.isResolved name then
      let (list, resolving) := resolve s t inputs
      (some list, resolving)
    else (none, ⟨inputs.reserve t, []⟩)

/-! ### Lists in the order of their mention -/

/-- An order with those of further lists that it has not yet. -/
def addMentions (order more : List ListId) : List ListId :=
  more.foldl (fun known id => if known.contains id then known else known ++ [id]) order

/-- The lists that the fields of a list mention. -/
def mentions (s : InputLists) (id : ListId) : List ListId :=
  (s.fields id).filterMap (·.children.list?)

/-- An order in which the mentions of all lists from a place on have been added, for at most the
given number of lists. -/
def addAllMentions (s : InputLists) : Nat → Nat → List ListId → List ListId
  | 0, _, order => order
  | rounds + 1, place, order =>
    match order[place]? with
    | some id => s.addAllMentions rounds (place + 1) (addMentions order (s.mentions id))
    | none => order

/-- An order with the lists that further ones lead to, breadth first.  What the order has already
is taken to have had its turn. -/
def mentionOrder (s : InputLists) (order more : List ListId) : List ListId :=
  s.addAllMentions s.lists.length order.length (addMentions order more)

end InputLists

end GraphQLTyping
