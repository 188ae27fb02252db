import HintQuality.Proofs.Accounting
import HintQuality.Proofs.Recovery
import HintQuality.Proofs.Twins
/-!
# Unchanged subtrees

Below a pair of nodes whose subtrees are the same but for their tops and relation labels, all nodes are partners one by
one and stay in place, wherever the pair itself went, and no edit is about any of them (`edits_unchanged`). By
induction on the way down from the pair: the children of two nodes that correspond are twins. Ids do not matter for
this, whether they are missing, repeated or found elsewhere, since corresponding nodes have the same one.
-/

namespace HintQuality

namespace Tree

/-! ## Nodes of a subtree -/

theorem children_append {t u : Tree} {p : Position} (h : t.subtree? p = some u) (r : Position) :
    t.view.children (p ++ r) = (u.view.children r).map (p ++ ·) := by
  show Slots.children (t.slotsAt (p ++ r)) = (Slots.children (u.slotsAt r)).map (p ++ ·)
  rw [slotsAt_append h, Slots.children, Slots.children, List.filterMap_map, List.map_filterMap]
  rfl

/-- Trees of the same nodes have the same children everywhere. -/
theorem children_of_positions {t u : Tree} (h : t.positions = u.positions) (r : Position) :
    t.view.children r = u.view.children r := by
  refine (t.pairwise_children_slotsAt r).eq_of_mem_iff (u.pairwise_children_slotsAt r) fun c => ?_
  refine mem_children_slotsAt.trans (Iff.trans ?_ mem_children_slotsAt.symm)
  rw [h]

/-! ## Subtrees that are the same below their tops -/

/-- The trees have the same nodes in the same order, and below the root the same types, values and ids. -/
structure SameBelow (t u : Tree) : Prop where
  /-- The same nodes in the same order. -/
  positions : t.positions = u.positions
  /-- The same types, values and ids below the root. -/
  label : ∀ r ∈ t.positions, r ≠ [] → t.labelAt r = u.labelAt r

/-- The goal node `p` is the start node `q`, stands where that stood, and needs no edit. -/
structure Unchanged (start goal : Tree) (p q : Position) : Prop where
  /-- The nodes belong together. -/
  partner : (Correspondence.of start.view goal.view).partner? p = some q
  /-- The goal node did not move. -/
  notMoved : (Correspondence.of start.view goal.view).hasMoved p = false
  /-- No deletion, insertion or renaming is about the node. -/
  noEdit : ∀ e ∈ start.edits goal, e.subject ≠ start.view.key q

namespace SameBelow

variable {start goal t u : Tree} {m n : Position} (h : t.SameBelow u) (ht : goal.subtree? m = some t)
  (hu : start.subtree? n = some u)
include h ht hu

/-- Corresponding nodes have the same label. -/
theorem labelAt_eq {r : Position} (hr : r ∈ t.positions) (hne : r ≠ []) :
    start.labelAt (n ++ r) = goal.labelAt (m ++ r) := by
  rw [labelAt_append ht, labelAt_append hu, h.label r hr hne]

/-- The children of corresponding nodes are twins. -/
theorem twins (r : Position) : Pairing.Twins start.view goal.view (m ++ r) (n ++ r) (t.view.children r) (m ++ ·)
    (n ++ ·) := by
  have hchild : ∀ k ∈ t.view.children r, k ∈ t.positions ∧ k ≠ [] := by
    intro k hk
    obtain ⟨i, rfl, hi⟩ := mem_children_slotsAt.1 hk
    exact ⟨hi, by simp⟩
  have hgoal : ∀ k ∈ t.view.children r, m ++ k ∈ goal.view.nodes := by
    intro k hk
    rw [view_nodes, append_mem_positions_iff ht]
    exact (hchild k hk).1
  have hstart : ∀ k ∈ t.view.children r, n ++ k ∈ start.view.nodes := by
    intro k hk
    rw [view_nodes, append_mem_positions_iff hu, ← h.positions]
    exact (hchild k hk).1
  have hlabel : ∀ k ∈ t.view.children r, start.view.label (n ++ k) = goal.view.label (m ++ k) :=
    fun k hk => h.labelAt_eq ht hu (hchild k hk).1 (hchild k hk).2
  refine ⟨children_append ht r, ?_, fun k hk => ?_, fun k hk n' hid => ?_, fun k hk m' hid => ?_⟩
  · rw [children_append hu r, children_of_positions h.positions]
  · simp [Pairing.sameContent, hlabel k hk]
  · exact hid.eq_right_of_id (hstart k hk) (congrArg Label.id (hlabel k hk))
  · exact hid.eq_left_of_id (hgoal k hk) (congrArg Label.id (hlabel k hk).symm)

variable (hmn : (m, n) ∈ Pairing.of start.view goal.view)
include hmn

/-- Corresponding nodes are partners. -/
theorem mem_of (r : Position) : r ∈ t.positions → (m ++ r, n ++ r) ∈ Pairing.of start.view goal.view := by
  induction r using List.reverseRecOn with
  | nil =>
    intro _
    rwa [List.append_nil, List.append_nil]
  | append_singleton r i ih =>
    intro hr
    have hparents := ih (mem_positions_of_snoc hr)
    exact (h.twins ht hu r).mem_of start.view_lawful goal.view_lawful hparents (mem_children_slotsAt.2 ⟨i, rfl, hr⟩)

/-- Corresponding nodes below the pair did not move. -/
theorem not_moved {r : Position} (hr : r ∈ t.positions) (hne : r ≠ []) :
    (Correspondence.of start.view goal.view).hasMoved (m ++ r) = false := by
  obtain ⟨q, i, rfl⟩ : ∃ q i, r = q ++ [i] := ⟨_, _, (List.dropLast_append_getLast hne).symm⟩
  have hparents := h.mem_of ht hu hmn q (mem_positions_of_snoc hr)
  exact (h.twins ht hu q).not_moved start.view_lawful goal.view_lawful hparents (mem_children_slotsAt.2 ⟨i, rfl, hr⟩)

/-- Corresponding nodes below the pair are unchanged. -/
theorem unchanged (hlabels : start.DistinctLabels) {r : Position} (hr : r ∈ t.positions) (hne : r ≠ []) :
    Unchanged start goal (m ++ r) (n ++ r) := by
  have hs := start.view_lawful
  have hg := goal.view_lawful
  have hpartner := (Correspondence.partner?_eq_some_iff hs hg).2 (h.mem_of ht hu hmn r hr)
  have hmoved := h.not_moved ht hu hmn hr hne
  refine ⟨hpartner, hmoved, fun e he => ?_⟩
  refine Correspondence.subject_ne hs hg hlabels.distinctPaths ?_ hpartner (h.labelAt_eq ht hu hr hne) he
  rw [Correspondence.inPlace, hpartner, hmoved]
  rfl

end SameBelow

/-! ## The whole tree -/

variable {start goal : Tree}

/-- Every node of a tree that is the start up to relation labels is in place, with its own place for a partner. -/
theorem inPlace_of_sameExcept (h : SameExcept (fun _ => True) goal start) {p : Position} (hp : p ∈ goal.positions) :
    (Correspondence.of start.view goal.view).partner? p = some p ∧
      (Correspondence.of start.view goal.view).inPlace p = true := by
  have hs := start.view_lawful
  have hg := goal.view_lawful
  have hbelow : goal.SameBelow start := ⟨h.positions, fun r hr _ => h.label r hr⟩
  have hroots := Pairing.roots_mem hs hg
  have hpartner := (Correspondence.partner?_eq_some_iff hs hg).2 (hbelow.mem_of rfl rfl hroots p hp)
  refine ⟨hpartner, Correspondence.inPlace_iff.2 ⟨⟨_, hpartner⟩, fun hm => ?_⟩⟩
  have hne := (mem_tail_positions.1 (Correspondence.mem_descendants_of_moved hg hm)).2
  have hnot : (Correspondence.of start.view goal.view).hasMoved p = false := hbelow.not_moved rfl rfl hroots hp hne
  rw [Correspondence.hasMoved_iff.2 hm] at hnot
  cases hnot

/-- A tree that is the start up to relation labels needs no edits. -/
theorem edits_eq_nil_of_sameExcept (h : SameExcept (fun _ => True) goal start) : start.edits goal = [] := by
  have hs := start.view_lawful
  have hg := goal.view_lawful
  refine List.eq_nil_iff_forall_not_mem.2 fun e he => ?_
  rcases (Correspondence.mem_edits_iff hs hg).1 he with ⟨n, hn, hk, -⟩ | ⟨m, hm, hin, -⟩ | ⟨m, hm, -, n, hn, hl, -⟩
  · rw [view_nodes, ← h.positions] at hn
    obtain ⟨hpartner, hin⟩ := inPlace_of_sameExcept h hn
    rw [(Correspondence.isKept_iff (Pairing.injective_of hs hg)).2 ⟨n, hpartner, hin⟩] at hk
    cases hk
  · rw [view_nodes] at hm
    rw [(inPlace_of_sameExcept h hm).2] at hin
    cases hin
  · rw [view_nodes] at hm
    obtain rfl : m = n := Option.some.inj ((inPlace_of_sameExcept h hm).1.symm.trans hn)
    exact hl (h.label m hm).symm

/-- Below a pair of nodes with the same subtrees up to their tops and relation labels all nodes are unchanged, and a
tree that is the start up to relation labels needs no edits at all. -/
theorem edits_unchanged {start : Tree} (hlabels : start.DistinctLabels) (goal : Tree) :
    (∀ (m n : Position) (t u : Tree), (Correspondence.of start.view goal.view).partner? m = some n →
      goal.subtree? m = some t → start.subtree? n = some u → t.SameBelow u →
        ∀ r ∈ t.positions, r ≠ [] → Unchanged start goal (m ++ r) (n ++ r)) ∧
      (SameExcept (fun _ => True) goal start → start.edits goal = []) := by
  refine ⟨fun m n t u hn ht hu h r hr hne => ?_, edits_eq_nil_of_sameExcept⟩
  have hmn := (Correspondence.partner?_eq_some_iff start.view_lawful goal.view_lawful).1 hn
  exact h.unchanged ht hu hmn hlabels hr hne

/-- A loop that got another value and a place below a new node, with children whose ids are missing or repeated, and a
start whose relation labels changed. -/
theorem edits_unchanged_of_moved :
    let kids (a b c : String) : List (Slot Tree) := [⟨a, some (leaf ⟨"move", some "10", none⟩)⟩,
      ⟨b, some (node ⟨"turn", none, some "d"⟩ [⟨"0", some (leaf ⟨"stop", none, some "d"⟩)⟩])⟩,
      ⟨c, some (leaf ⟨"move", some "10", none⟩)⟩]
    let start := node ⟨"script", none, some "s"⟩
      [⟨"0", some (leaf ⟨"wait", none, none⟩)⟩, ⟨"1", some (node ⟨"loop", some "2", some "l"⟩ (kids "0" "1" "2"))⟩]
    let goal := node ⟨"script", none, some "s"⟩
      [⟨"0", some (node ⟨"if", none, none⟩ [⟨"0", some (node ⟨"loop", some "3", some "l"⟩ (kids "0" "x" "y"))⟩])⟩]
    let relabelled := node ⟨"script", none, some "s"⟩
      [⟨"a", some (leaf ⟨"wait", none, none⟩)⟩, ⟨"b", some (node ⟨"loop", some "2", some "l"⟩ (kids "c" "d" "e"))⟩]
    start.DistinctLabels ∧ (Correspondence.of start.view goal.view).hasMoved [0, 0] = true ∧
      Unchanged start goal ([0, 0] ++ [1, 0]) ([1] ++ [1, 0]) ∧ start.edits relabelled = [] := by
  intro kids start goal relabelled
  have hlabels : start.DistinctLabels := by decide
  have hpartner : (Correspondence.of start.view goal.view).partner? [0, 0] = some [1] := by decide +kernel
  refine ⟨hlabels, by decide +kernel, ?_, ?_⟩
  · exact (edits_unchanged hlabels goal).1 _ _ _ _ hpartner rfl rfl ⟨by decide, by decide⟩ [1, 0] (by decide)
      (by decide)
  · exact (edits_unchanged hlabels relabelled).2 ⟨by decide, by decide, fun _ _ h => absurd trivial h⟩

end Tree

end HintQuality
