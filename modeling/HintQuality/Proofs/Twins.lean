import HintQuality.Proofs.LongestBlocks
import HintQuality.Proofs.MinimalMoves
import Mathlib.Data.List.Forall2
import Mathlib.Data.List.Zip
/-!
# Children that are alike

Lists that agree element by element are aligned in one piece (`align_of_forall₂`). The children of a pair of nodes are
twins if they agree one by one in type and value and no id pairs any of them in another way (`Twins`). They are then
partners one by one, some by ids and the others by their places, and none of them moved (`Twins.mem_of`,
`Twins.not_moved`).
-/

namespace HintQuality

namespace Align

variable {α β : Type} {agree : α → β → Bool} {as : List α} {bs : List β}

theorem commonLength_of_forall₂ (h : List.Forall₂ (fun a b => agree a b = true) as bs) :
    commonLength agree as bs = as.length := by
  induction h with
  | nil => rfl
  | cons hab _ ih => rw [commonLength, if_pos hab, ih, List.length_cons]

/-- The first block of lists that agree throughout is all of them. -/
theorem longestBlock_of_forall₂ (h : List.Forall₂ (fun a b => agree a b = true) as bs) :
    longestBlock agree as bs = ⟨0, 0, as.length⟩ := by
  have hlength := h.length_eq
  have hsize : as.length ≤ (longestBlock agree as bs).size := by
    have hzero := sizeAt_le_longestBlock agree as bs 0 0
    rwa [sizeAt, List.drop_zero, List.drop_zero, commonLength_of_forall₂ h] at hzero
  obtain ⟨hleft, hright⟩ := longestBlock_within agree as bs
  -- There is no room on either side of a block of this size.
  generalize longestBlock agree as bs = block at hsize hleft hright
  obtain ⟨left, right, size⟩ := block
  simp only [Block.mk.injEq] at hsize hleft hright ⊢
  omega

end Align

/-- Lists that agree element by element are aligned in one piece. -/
theorem align_of_forall₂ {α β : Type} {agree : α → β → Bool} {as : List α} {bs : List β}
    (h : List.Forall₂ (fun a b => agree a b = true) as bs) :
    align agree as bs = if as = [] then [] else [.same (as.zip bs)] := by
  have hlength := h.length_eq
  cases as with
  | nil =>
    obtain rfl : bs = [] := List.eq_nil_of_length_eq_zero hlength.symm
    rfl
  | cons a as =>
    have hnil : align agree [] [] = [] := rfl
    rw [if_neg (List.cons_ne_nil a as), Align.align_eq, Align.longestBlock_of_forall₂ h]
    dsimp only
    rw [if_neg (by simp), List.take_zero, List.take_zero, List.drop_zero, List.drop_zero, Nat.zero_add,
      List.take_length, hlength, List.take_length, ← hlength, List.drop_length, hlength, List.drop_length, hnil,
      List.nil_append]

namespace Pairing

variable {κ μ ν : Type} {start : View ν} {goal : View μ}

/-- The children of a pair of nodes, named by `κ`, agree one by one, and no id pairs any of them in another way. -/
structure Twins (start : View ν) (goal : View μ) (m : μ) (n : ν) (names : List κ) (left : κ → μ) (right : κ → ν) :
    Prop where
  /-- The children of the goal node. -/
  goalChildren : goal.children m = names.map left
  /-- The children of the start node. -/
  startChildren : start.children n = names.map right
  /-- They have the same types and values. -/
  sameContent : ∀ k ∈ names, sameContent start goal (right k) (left k) = true
  /-- A child of the goal node shares its id with its twin or with none. -/
  identified_left : ∀ k ∈ names, ∀ n', Identified start goal (left k) n' → n' = right k
  /-- A child of the start node shares its id with its twin or with none. -/
  identified_right : ∀ k ∈ names, ∀ m', Identified start goal m' (right k) → m' = left k

namespace Twins

variable {m : μ} {n : ν} {names : List κ} {left : κ → μ} {right : κ → ν} (h : Twins start goal m n names left right)
include h

theorem left_mem {k : κ} (hk : k ∈ names) : left k ∈ goal.children m :=
  h.goalChildren ▸ List.mem_map_of_mem hk

theorem right_mem {k : κ} (hk : k ∈ names) : right k ∈ start.children n :=
  h.startChildren ▸ List.mem_map_of_mem hk

variable [DecidableEq μ] [DecidableEq ν] (hs : start.Lawful) (hg : goal.Lawful)
include hs hg

/-- Before the children are aligned, the alone ones are twins. -/
theorem alone_eq (hm : m ∈ goal.nodes) (hn : n ∈ start.nodes) {k : κ} (hk : k ∈ names) :
    (!(byId start goal).isTaken (right k)) = ((byId start goal).partner? (left k)).isNone := by
  have hl : left k ≠ goal.root := fun e => hg.root_not_mem (e ▸ hg.descendant_of_child hm (h.left_mem hk))
  have hr : right k ≠ start.root := fun e => hs.root_not_mem (e ▸ hs.descendant_of_child hn (h.right_mem hk))
  rw [Bool.eq_iff_iff, Option.isNone_iff_eq_none, partner?_eq_none_iff, Bool.not_eq_true', ← Bool.not_eq_true,
    isTaken_iff, not_exists]
  constructor
  · intro hfree n' hn'
    rcases (mem_byId hg).1 hn' with ⟨e, -⟩ | hid
    · exact hl e
    · exact hfree (left k) ((mem_byId hg).2 (.inr (h.identified_left k hk n' hid ▸ hid)))
  · intro halone m' hm'
    rcases (mem_byId hg).1 hm' with ⟨-, e⟩ | hid
    · exact hr e
    · exact halone (right k) ((mem_byId hg).2 (.inr (h.identified_right k hk m' hid ▸ hid)))

/-- Twins are aligned with each other. -/
theorem childPairs_eq (hm : m ∈ goal.nodes) (hn : n ∈ start.nodes) :
    childPairs start goal (byId start goal) m n =
      (names.filter fun k => ((byId start goal).partner? (left k)).isNone).map fun k => (left k, right k) := by
  let alone := names.filter fun k => ((byId start goal).partner? (left k)).isNone
  have hstart : (start.children n).filter (fun c => !(byId start goal).isTaken c) = alone.map right := by
    rw [h.startChildren, List.filter_map]
    exact congrArg (List.map right) (List.filter_congr fun k hk => h.alone_eq hs hg hm hn hk)
  have hgoal : (goal.children m).filter (fun c => ((byId start goal).partner? c).isNone) = alone.map left := by
    rw [h.goalChildren, List.filter_map]
    rfl
  have hagree : List.Forall₂ (fun d c => Pairing.sameContent start goal d c = true) (alone.map right)
      (alone.map left) := by
    rw [List.forall₂_map_left_iff, List.forall₂_map_right_iff, List.forall₂_same]
    exact fun k hk => h.sameContent k (List.mem_filter.1 hk).1
  unfold childPairs
  dsimp only
  rw [hstart, hgoal, align_of_forall₂ hagree]
  show _ = alone.map _
  by_cases hnil : alone = []
  · rw [hnil]
    rfl
  · rw [if_neg (by simpa using hnil), List.flatMap_singleton, List.zip_map', segmentPairs, List.map_map]
    rfl

/-- Twins are partners. -/
theorem mem_of (hmn : (m, n) ∈ of start goal) {k : κ} (hk : k ∈ names) : (left k, right k) ∈ of start goal := by
  have hnodes := mem_nodes_of hs hg hmn
  rw [mem_of_child_iff hs hg hnodes.1 (h.left_mem hk)]
  cases hp : (byId start goal).partner? (left k) with
  | none =>
    refine .inr ⟨n, hmn, ?_⟩
    rw [h.childPairs_eq hs hg hnodes.1 hnodes.2]
    exact List.mem_map.2 ⟨k, List.mem_filter.2 ⟨hk, by rw [hp]; rfl⟩, rfl⟩
  | some n' =>
    rcases (mem_byId hg).1 (mem_of_partner? hp) with ⟨e, -⟩ | hid
    · exact absurd (hg.descendant_of_child hnodes.1 (h.left_mem hk)) (e ▸ hg.root_not_mem)
    · exact .inl (h.identified_left k hk n' hid ▸ hid)

/-- The partners of twins are below the partner of their parent. -/
theorem mem_childrenFrom (hmn : (m, n) ∈ of start goal) {k : κ} (hk : k ∈ names) :
    left k ∈ (Correspondence.of start goal).childrenFrom start goal n m := by
  have hpartner := (Correspondence.partner?_eq_some_iff hs hg).2 (h.mem_of hs hg hmn hk)
  have hparent := hs.parent_of_child (mem_nodes_of hs hg hmn).2 (h.right_mem hk)
  exact Correspondence.mem_childrenFrom.2 ⟨h.left_mem hk, _, hpartner, hparent⟩

/-- Twins are in order. -/
theorem inOrder (hmn : (m, n) ∈ of start goal) :
    (Correspondence.of start goal).InOrder start n ((Correspondence.of start goal).childrenFrom start goal n m) := by
  have hn := (Correspondence.partner?_eq_some_iff hs hg).2 hmn
  have hplace : ∀ k ∈ names, ∃ i, start.lastSlot? n (right k) = some i ∧
      (Correspondence.of start goal).place? start n (left k) = some i := by
    intro k hk
    obtain ⟨d, i, hd, -, hslot, hi⟩ := Correspondence.exists_place hs hg hn (h.mem_childrenFrom hs hg hmn hk)
    have hpartner := (Correspondence.partner?_eq_some_iff hs hg).2 (h.mem_of hs hg hmn hk)
    obtain rfl : right k = d := Option.some.inj (hpartner.symm.trans hd)
    exact ⟨i, hslot, hi⟩
  refine List.Pairwise.filter _ ?_
  rw [h.goalChildren, List.pairwise_map]
  refine List.pairwise_iff_forall_sublist.2 fun {k k'} hkk => ?_
  obtain ⟨i, hi, hplacei⟩ := hplace k (hkk.subset List.mem_cons_self)
  obtain ⟨j, hj, hplacej⟩ := hplace k' (hkk.subset (by simp))
  have hpair : [right k, right k'].Sublist (start.children n) := h.startChildren ▸ hkk.map right
  exact ⟨i, j, hplacei, hplacej, hs.lastSlot?_lt_of_pair_sublist (mem_nodes_of hs hg hmn).2 hpair hi hj⟩

/-- Twins did not move, since none has to for the others to be in order. -/
theorem not_moved (hmn : (m, n) ∈ of start goal) {k : κ} (hk : k ∈ names) :
    (Correspondence.of start goal).hasMoved (left k) = false := by
  have hn := (Correspondence.partner?_eq_some_iff hs hg).2 hmn
  have hfew : _ ≤ ([] : List μ).length :=
    Correspondence.length_moved_le hs hg hn (by simpa using h.inOrder hs hg hmn)
  have hnone := List.eq_nil_of_length_eq_zero (Nat.le_zero.1 hfew)
  exact Bool.eq_false_iff.2 (List.filter_eq_nil_iff.1 hnone _ (h.mem_childrenFrom hs hg hmn hk))

end Twins

end Pairing

end HintQuality
