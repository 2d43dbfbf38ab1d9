import GraphQLTyping.Schema.Basic
import GraphQLTyping.Schema.Leaf

/-!
# Literals in documents

Which value literals a type accepts where a document gives them.  A value that is no list is
accepted where its item would be; a variable is accepted anywhere, its own type being looked at
elsewhere.

* `Schema.literalFaults`: what is at fault with a literal that is given for a type.
* `Schema.variableUses`: the variables in a literal, each with the type of its place.
-/

namespace GraphQLTyping

namespace Schema

/-- Whether the type of a name is a leaf that accepts a literal. -/
def leafAccepts (s : Schema) (name : String) (v : Value) : Bool :=
  (s.type? name).any (·.acceptsLeaf v)

/-- The values of an object name exactly one field, and what they say of it last is not null. -/
def namesExactlyOne (fields : List (String × Value)) : Bool :=
  (fields.map (·.1)).eraseDups.length == 1 && !fields.getLast?.any (·.2 matches .null)

mutual

/-- The faults of a literal given for a type.  An object has the fields that its type declares and
no others, and all that are required; one of exactly one field does not have null for it. -/
def literalFaults (s : Schema) (type : TypeRef) : Value → Nat
  | .variable _ => 0
  | .null => type.nonNull.toNat
  | .list items =>
    match type with
    | .list element _ => s.itemFaults element items
    | .named name _ => (!s.leafAccepts name (.list items)).toNat
  | .object fields =>
    match s.type? type.name with
    | some ⟨_, .input declared exactlyOne⟩ =>
      s.fieldFaults declared fields
        + declared.countP (fun input => input.isRequired && !fields.any (·.1 == input.name))
        + (exactlyOne && !namesExactlyOne fields).toNat
    | _ => (!s.leafAccepts type.name (.object fields)).toNat
  | v => (!s.leafAccepts type.name v).toNat

/-- The faults of the items of a list. -/
def itemFaults (s : Schema) (element : TypeRef) : List Value → Nat
  | [] => 0
  | v :: rest => s.literalFaults element v + s.itemFaults element rest

/-- The faults of the values of an object with the given declared fields. -/
def fieldFaults (s : Schema) (declared : List InputDef) : List (String × Value) → Nat
  | [] => 0
  | (name, v) :: rest =>
    (match declared.find? (·.name == name) with
      | some input => s.literalFaults input.type v
      | none => 1)
      + s.fieldFaults declared rest

end

end Schema

/-- A **use of a variable**: its name, the type of the place it stands at if that is known, whether
the place has a value of its own, and whether it stands in an object that has to have exactly one
field. -/
structure VariableUse where
  name : String
  type : Option TypeRef
  hasDefault : Bool
  isOnlyField : Bool
deriving Inhabited

namespace Schema

/-- Whether objects at a place have exactly one field.  Inside a list or under a non-null mark the
place itself does not say so. -/
def asksForOne (s : Schema) : TypeRef → Bool
  | .named name false => (s.type? name).any (·.body matches .input _ true)
  | _ => false

mutual

/-- The uses of variables in a literal at a place of the given type. -/
def variableUses (s : Schema) (type : Option TypeRef) (hasDefault isOnlyField : Bool) :
    Value → List VariableUse
  | .variable name => [⟨name, type, hasDefault, isOnlyField⟩]
  | .list items =>
    let element := type.map fun
      | .list element _ => element
      | t => t.nullable
    s.variableUsesInItems element items
  | .object fields =>
    let declared := ((type.bind fun t => s.type? t.name).map (·.inputFields)).getD []
    s.variableUsesInFields declared (type.any s.asksForOne) fields
  | _ => []

/-- The uses of variables in the items of a list. -/
def variableUsesInItems (s : Schema) (element : Option TypeRef) :
    List Value → List VariableUse
  | [] => []
  | v :: rest => s.variableUses element false false v ++ s.variableUsesInItems element rest

/-- The uses of variables in the values of an object with the given declared fields. -/
def variableUsesInFields (s : Schema) (declared : List InputDef) (isOnlyField : Bool) :
    List (String × Value) → List VariableUse
  | [] => []
  | (name, v) :: rest =>
    (match declared.find? (·.name == name) with
      | some input => s.variableUses (some input.type) input.default.isSome isOnlyField v
      | none => s.variableUses none false false v)
      ++ s.variableUsesInFields declared isOnlyField rest

end

end Schema

end GraphQLTyping
