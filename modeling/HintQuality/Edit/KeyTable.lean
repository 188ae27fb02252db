import HintQuality.Edit.Key
/-!
# Tables of keys

The keys of the goal nodes, made one after the other in pre-order. The key of a new node is made of the keys of its
parent and of the sibling before it, which have to be in the table by then.
-/

namespace HintQuality.Correspondence

variable {μ ν : Type} [DecidableEq μ] (c : Correspondence μ ν)

/-- The goal nodes whose keys the key of a goal node is made of. -/
def keyParts (goal : View μ) (m : μ) : List μ :=
  match c.partner? m with
  | some _ => []
  | none => (goal.parent m).toList ++ (goal.preceding? m).toList

/-- The key of a node that may be missing; fails if there is a node and the table does not have it. -/
def keyIn? (table : List (μ × Key)) : Option μ → Option (Option Key)
  | none => some none
  | some m => (table.lookup m).map some

/-- The key of a goal node from a table; fails if a key that it is made of is not there. -/
def keyFrom? (start : View ν) (goal : View μ) (table : List (μ × Key)) (m : μ) : Option Key :=
  match c.partner? m with
  | some n => some (start.key n)
  | none => do
    let parent ← keyIn? table (goal.parent m)
    let after ← keyIn? table (goal.preceding? m)
    return .fresh parent (goal.relation? m) (goal.label m).type (goal.label m).value after

/-- Every goal node with its key, made from those before it; fails if a key is asked for before it is there. -/
def keyTable? (start : View ν) (goal : View μ) : Option (List (μ × Key)) :=
  goal.nodes.foldlM (fun table m => (c.keyFrom? start goal table m).map fun k => table ++ [(m, k)]) []

end HintQuality.Correspondence
