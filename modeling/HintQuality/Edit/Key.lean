import HintQuality.Correspondence
/-!
# Node keys

Names of nodes that do not depend on the tree they are found in, so that edits of different trees can be compared. A
node of the start is named by its id if no other node has it, and by its way from the root if not; a node that
only the goal has is named by its parent's key, its label and the key of the sibling before it.
-/

namespace HintQuality

/-- The name of a node. -/
inductive Key where
  /-- A start node with an id of its own. -/
  | id (x : String)
  /-- A start node by the relation labels on the way to it. -/
  | path (relations : List String)
  /-- A new node: where it stands, what it is, and the sibling before it. -/
  | fresh (parent : Option Key) (relation : Option String) (type : String) (value : Option String)
      (after : Option Key)
  deriving Repr

namespace Key

mutual

/-- Decides equality of keys. -/
def decEq : (a b : Key) → Decidable (a = b)
  | id x, id y => if h : x = y then isTrue (by rw [h]) else isFalse fun e => h (Key.id.inj e)
  | path r, path s => if h : r = s then isTrue (by rw [h]) else isFalse fun e => h (Key.path.inj e)
  | fresh p r t v a, fresh p' r' t' v' a' =>
    if h : r = r' ∧ t = t' ∧ v = v' then
      match decEqOption p p', decEqOption a a' with
      | isTrue hp, isTrue ha => isTrue (by rw [hp, ha, h.1, h.2.1, h.2.2])
      | isFalse hp, _ => isFalse fun e => hp (Key.fresh.inj e).1
      | _, isFalse ha => isFalse fun e => ha (Key.fresh.inj e).2.2.2.2
    else isFalse fun e => h ⟨(Key.fresh.inj e).2.1, (Key.fresh.inj e).2.2.1, (Key.fresh.inj e).2.2.2.1⟩
  | id _, path _ | id _, fresh .. | path _, id _ | path _, fresh .. | fresh .., id _ | fresh .., path _ =>
    isFalse nofun

/-- Decides equality of optional keys. -/
def decEqOption : (a b : Option Key) → Decidable (a = b)
  | none, none => isTrue rfl
  | some a, some b =>
    match decEq a b with
    | isTrue h => isTrue (by rw [h])
    | isFalse h => isFalse fun e => h (Option.some.inj e)
  | none, some _ | some _, none => isFalse nofun

end

instance : DecidableEq Key := decEq

mutual

/-- A key as it reads in edits. -/
def text : Key → String
  | id x => "#" ++ x
  | path relations => "/" ++ "/".intercalate relations
  | fresh parent relation type value _ =>
    optionText parent ++ "/" ++ relation.getD "None" ++ ":" ++ Label.text { type := type, value := value }

/-- An optional key as it reads in edits. -/
def optionText : Option Key → String
  | none => "?"
  | some k => k.text

end

end Key

variable {μ ν : Type} [DecidableEq μ] [DecidableEq ν]

/-- The key of a start node. -/
def View.key (start : View ν) (n : ν) : Key :=
  match (start.label n).id with
  | some x => if (start.withId x).length = 1 then .id x else .path (start.path n)
  | none => .path (start.path n)

namespace Correspondence

/-- The key of a goal node, from the keys of its parent and of the sibling before it; `fuel` bounds the number of
such steps. -/
def goalKeyWithin (c : Correspondence μ ν) (start : View ν) (goal : View μ) : Nat → μ → Key
  | 0, m => .fresh none (goal.relation? m) (goal.label m).type (goal.label m).value none
  | fuel + 1, m =>
    match c.partner? m with
    | some n => start.key n
    | none =>
      .fresh ((goal.parent m).map (c.goalKeyWithin start goal fuel)) (goal.relation? m)
        (goal.label m).type (goal.label m).value ((goal.preceding? m).map (c.goalKeyWithin start goal fuel))

/-- The key of a goal node. -/
def goalKey (c : Correspondence μ ν) (start : View ν) (goal : View μ) (m : μ) : Key :=
  c.goalKeyWithin start goal goal.bound m

end Correspondence

end HintQuality
