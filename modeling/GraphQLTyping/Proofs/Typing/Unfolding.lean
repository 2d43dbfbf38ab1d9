import GraphQLTyping.Typing.Basic

/-!
# Flattened trees

A record **unfolds** to itself and all records below it, depth first (`Typing.Unfolds`), and so do
records to those of each in turn.  A tree is cut at a depth (`Typing.tree`), but nothing is lost by it
if the records unfold to no more than there are (`Typing.allFields_trees`): the tree flattened is what
they unfold to.
-/

namespace GraphQLTyping

variable {t : Typing} {r : RecordId} {records rest all more : List RecordId} {f : TypedField}

mutual

/-- The typed fields in a tree, depth first. -/
def FieldTree.fields : FieldTree → List TypedField
  | node field children => field :: FieldTree.allFields children

/-- The typed fields in trees, depth first. -/
def FieldTree.allFields : List FieldTree → List TypedField
  | [] => []
  | t :: rest => t.fields ++ FieldTree.allFields rest

end

namespace Typing

/-- Records **unfold** to themselves and all records below them, depth first. -/
inductive Unfolds (t : Typing) : List RecordId → List RecordId → Prop
  | nil : Unfolds t [] []
  | cons {r : RecordId} {f : TypedField} {rest below more : List RecordId}
    (hf : t.field? r = some f) (hbelow : Unfolds t f.children.records below)
    (hrest : Unfolds t rest more) : Unfolds t (r :: rest) (r :: (below ++ more))

theorem Unfolds.append (h : t.Unfolds records all) (h' : t.Unfolds rest more) :
    t.Unfolds (records ++ rest) (all ++ more) := by
  induction h with
  | nil => exact h'
  | @cons r f rest' below all hf hbelow _ _ ih =>
    rw [List.cons_append, List.cons_append, List.append_assoc]
    exact .cons hf hbelow ih

theorem Unfolds.exists_field? (h : t.Unfolds records all) : r ∈ all → ∃ f, t.field? r = some f := by
  induction h with
  | nil =>
    intro hr
    cases hr
  | cons hf _ _ ihbelow ihrest =>
    intro hr
    rw [List.mem_cons, List.mem_append] at hr
    rcases hr with rfl | hr | hr
    · exact ⟨_, hf⟩
    · exact ihbelow hr
    · exact ihrest hr

theorem treeWithin_succ (depth : Nat) (hf : t.field? r = some f) :
    t.treeWithin (depth + 1) r =
      some (.node f (f.children.records.filterMap (t.treeWithin depth))) := by
  rw [treeWithin, hf, Option.map_some]

/-- **Trees flattened** are what the records unfold to, if they are not cut too early. -/
theorem Unfolds.allFields_treeWithin (h : t.Unfolds records all) :
    ∀ depth, all.length ≤ depth →
      FieldTree.allFields (records.filterMap (t.treeWithin depth)) = all.filterMap t.field? := by
  induction h with
  | nil => exact fun _ _ => rfl
  | @cons r f rest below more hf _ _ ihbelow ihrest =>
    intro depth hdepth
    cases depth with
    | zero => cases hdepth
    | succ depth =>
      have hlengths : below.length + more.length ≤ depth := by
        simpa using hdepth
      rw [List.filterMap_cons, treeWithin_succ depth hf, List.filterMap_cons, hf,
        List.filterMap_append]
      simp only [FieldTree.allFields, FieldTree.fields]
      rw [ihbelow depth (by omega), ihrest (depth + 1) (by omega), List.cons_append]

theorem allFields_trees (h : t.Unfolds records all) (hsize : all.length ≤ t.records.size) :
    FieldTree.allFields (t.trees records) = all.filterMap t.field? :=
  h.allFields_treeWithin t.records.size hsize

end Typing

end GraphQLTyping
