import HintQuality.Proofs.Moves
/-!
# As few moves as possible

A node moved if its parent is not the partner of its partner's parent. Of the others below a pair of nodes, the
children whose partners are children of the partner, as few as possible moved: those that did not are in the order
of their partners, and leaving out fewer children would not make it so (`length_moved_le`). Their places below the
partner are always found (`exists_place`). `moves_minimal` says so of any two trees.
-/

namespace HintQuality

/-- Leaving out some elements leaves at least the others. -/
theorem length_le_length_filter_add {α : Type} [DecidableEq α] {ks : List α} (hks : ks.Nodup) (out : List α) :
    ks.length ≤ (ks.filter (· ∉ out)).length + out.length := by
  have hout : (ks.filter (· ∈ out)).length ≤ out.length := by
    refine (List.subperm_of_subset (hks.filter _) fun k hk => ?_).length_le
    simpa using (List.mem_filter.1 hk).2
  have hsplit := List.length_eq_length_filter_add (l := ks) fun k => decide (k ∈ out)
  simp only [decide_not]
  omega

variable {μ ν : Type} [DecidableEq μ] [DecidableEq ν]

namespace Correspondence

/-! ## Places below a partner -/

section

variable (c : Correspondence μ ν) (start : View ν) (goal : View μ)

/-- The number of the slot below `n` that the partner of a goal node stands in. -/
def place? (n : ν) (k : μ) : Option Nat :=
  (c.partner? k).bind (start.lastSlot? n)

/-- The nodes stand in the order in which their partners stand below `n`. -/
def InOrder (n : ν) (ks : List μ) : Prop :=
  ks.Pairwise fun k k' => ∃ i i', c.place? start n k = some i ∧ c.place? start n k' = some i' ∧ i < i'

/-- The children of `m` whose partners have `n` as their parent. -/
def childrenFrom (n : ν) (m : μ) : List μ :=
  (goal.children m).filter fun k => (c.partner? k).bind start.parent = some n

end

variable {start : View ν} {goal : View μ}

theorem mem_childrenFrom {c : Correspondence μ ν} {n : ν} {m k : μ} : k ∈ c.childrenFrom start goal n m ↔
    k ∈ goal.children m ∧ ∃ d, c.partner? k = some d ∧ start.parent d = some n := by
  simp [childrenFrom, Option.bind_eq_some_iff]

/-- Below a pair of nodes, a child changed its parent if its partner has another one. -/
theorem changedParent_iff {c : Correspondence μ ν} (hg : goal.Lawful) {m k : μ} {n d : ν} (hm : m ∈ goal.nodes)
    (hk : k ∈ goal.children m) (hn : c.partner? m = some n) (hd : c.partner? k = some d) :
    c.pairs.changedParent start goal k = true ↔ start.parent d ≠ some n := by
  have hd' : c.pairs.partner? k = some d := hd
  have hn' : c.pairs.partner? m = some n := hn
  simp [Pairing.changedParent, hd', hg.parent_of_child hm hk, hn']

/-- A node moved if its parent is not the partner of its partner's parent. -/
theorem hasMoved_of_parents (hg : goal.Lawful) {m : μ} {n : ν} (hm : m ∈ goal.descendants)
    (hn : (of start goal).partner? m = some n)
    (hpar : (goal.parent m).bind (of start goal).partner? ≠ start.parent n) : (of start goal).hasMoved m = true := by
  have hn' : (Pairing.of start goal).partner? m = some n := hn
  refine hasMoved_iff.2 ?_
  show m ∈ Pairing.moves start goal (Pairing.of start goal)
  rw [Pairing.moves_eq hg]
  refine List.mem_append_left _ (List.mem_filter.2 ⟨hm, ?_⟩)
  unfold Pairing.changedParent
  rw [hn']
  dsimp only
  split
  · rfl
  · rename_i p hp
    exact decide_eq_true fun e => hpar (hp.trans e.symm)

/-- The children of a node that kept their parent, with the places of their partners below `n`. -/
abbrev kept (start : View ν) (goal : View μ) (m : μ) (n : ν) : List (μ × Nat) :=
  Pairing.keptChildren start goal (Pairing.of start goal) (Pairing.displaced start goal (Pairing.of start goal)) m n

/-- The kept children of a node that have to move for the others to be in order. -/
abbrev late (start : View ν) (goal : View μ) (m : μ) : List μ :=
  Pairing.outOfOrder start goal (Pairing.of start goal) (Pairing.displaced start goal (Pairing.of start goal)) m

variable (hs : start.Lawful) (hg : goal.Lawful) {m : μ} {n : ν} (hn : (of start goal).partner? m = some n)
include hs hg hn

/-- The place of a child is found as soon as its partner's parent is right. -/
theorem exists_place {k : μ} (hk : k ∈ (of start goal).childrenFrom start goal n m) :
    ∃ d i, (of start goal).partner? k = some d ∧ d ∈ start.children n ∧ start.lastSlot? n d = some i ∧
      (of start goal).place? start n k = some i := by
  obtain ⟨-, d, hd, hpar⟩ := mem_childrenFrom.1 hk
  have hnn := (mem_nodes_of_partner? hs hg hn).2
  have hdn := (mem_nodes_of_partner? hs hg hd).2
  have hchild := hs.child_of_parent hnn hdn hpar
  obtain ⟨before, r, after, -, -, -, -, hslot⟩ := hs.exists_slot hnn hchild
  exact ⟨d, _, hd, hchild, hslot, by rw [place?, hd, Option.bind_some, hslot]⟩

/-- Below a pair of nodes, a child is displaced if it has a partner with another parent. -/
theorem mem_displaced_iff {k : μ} {d : ν} (hk : k ∈ goal.children m) (hd : (of start goal).partner? k = some d) :
    k ∈ Pairing.displaced start goal (Pairing.of start goal) ↔ start.parent d ≠ some n := by
  have hm := (mem_nodes_of_partner? hs hg hn).1
  rw [← changedParent_iff hg hm hk hn hd, Pairing.displaced, List.mem_filter]
  exact and_iff_right (hg.descendant_of_child hm hk)

/-- The kept children are those from the partner, with their places. -/
theorem kept_eq : kept start goal m n = ((of start goal).childrenFrom start goal n m).filterMap fun k =>
    ((of start goal).place? start n k).map (k, ·) := by
  rw [kept, Pairing.keptChildren, childrenFrom, List.filterMap_filter]
  refine List.filterMap_congr fun k hk => ?_
  cases hd : (of start goal).partner? k with
  | none =>
    have hd' : (Pairing.of start goal).partner? k = none := hd
    simp [hd']
  | some d =>
    have hd' : (Pairing.of start goal).partner? k = some d := hd
    rw [if_congr (mem_displaced_iff hs hg hn hk hd) rfl rfl, place?, hd, hd']
    by_cases hpar : start.parent d = some n <;> simp [hpar]

theorem map_fst_kept : (kept start goal m n).map Prod.fst = (of start goal).childrenFrom start goal n m := by
  rw [kept_eq hs hg hn, List.map_filterMap]
  refine (List.filterMap_congr fun k hk => ?_).trans List.filterMap_some
  obtain ⟨d, i, -, -, -, hi⟩ := exists_place hs hg hn hk
  rw [hi]
  rfl

theorem map_snd_kept : (kept start goal m n).map Prod.snd =
    ((of start goal).childrenFrom start goal n m).filterMap ((of start goal).place? start n) := by
  rw [kept_eq hs hg hn, List.map_filterMap]
  refine List.filterMap_congr fun k hk => ?_
  rw [Option.map_map]
  exact Option.map_id'

/-! ## Counting what is out of order -/

omit hs hg in
/-- All kept children but a longest increasing selection are out of order. -/
theorem length_late : (late start goal m).length +
    (Increasing.longest ((kept start goal m n).map fun k => (k.2 : Int))).length = (kept start goal m n).length := by
  have hn' : (Pairing.of start goal).partner? m = some n := hn
  unfold late Pairing.outOfOrder
  rw [hn', List.length_map]
  exact Increasing.length_filter_longest (List.length_map _).symm

/-- Of the children from the partner, those that moved are those out of order. -/
theorem mem_late_iff {k : μ} (hk : k ∈ (of start goal).childrenFrom start goal n m) :
    k ∈ late start goal m ↔ (of start goal).hasMoved k = true := by
  obtain ⟨hchild, d, hd, hpar⟩ := mem_childrenFrom.1 hk
  have hm := (mem_nodes_of_partner? hs hg hn).1
  have hmoves : (of start goal).hasMoved k = true ↔ k ∈ Pairing.moves start goal (Pairing.of start goal) :=
    hasMoved_iff
  rw [hmoves, Pairing.moves_eq hg, List.mem_append, List.mem_flatMap]
  constructor
  · exact fun h => .inr ⟨m, hm, h⟩
  · rintro (h | ⟨p, hp, h⟩)
    · exact absurd hpar ((mem_displaced_iff hs hg hn hchild hd).1 h)
    · rwa [hg.parent_unique hp hm (Pairing.mem_children_of_outOfOrder h) hchild] at h

theorem nodup_childrenFrom : ((of start goal).childrenFrom start goal n m).Nodup := by
  have hm := (mem_nodes_of_partner? hs hg hn).1
  exact (hg.nodup_children hm).filter _

/-- As many of the children from the partner moved as are out of order. -/
theorem length_moved : (((of start goal).childrenFrom start goal n m).filter (of start goal).hasMoved).length =
    (late start goal m).length := by
  have hn' : (Pairing.of start goal).partner? m = some n := hn
  have hsub : (late start goal m).Sublist ((of start goal).childrenFrom start goal n m) := by
    rw [← map_fst_kept hs hg hn]
    exact Pairing.outOfOrder_sublist hn'
  have hnd := nodup_childrenFrom hs hg hn
  refine List.Perm.length_eq ((List.perm_ext_iff_of_nodup (hnd.filter _) (hnd.sublist hsub)).2 fun k => ?_)
  rw [List.mem_filter]
  constructor
  · rintro ⟨hk, hmoved⟩
    exact (mem_late_iff hs hg hn hk).2 hmoved
  · intro h
    have hk := hsub.subset h
    exact ⟨hk, (mem_late_iff hs hg hn hk).1 h⟩

/-- Children from the partner that are in order are no more than those that were selected to stay. -/
theorem length_le_of_inOrder {ks : List μ} (hks : ks.Sublist ((of start goal).childrenFrom start goal n m))
    (h : (of start goal).InOrder start n ks) :
    ks.length ≤ (Increasing.longest ((kept start goal m n).map fun k => (k.2 : Int))).length := by
  let slots := ks.filterMap ((of start goal).place? start n)
  have hlength : slots.length = ks.length := by
    refine List.filterMap_length_eq_length.2 fun k hk => ?_
    obtain ⟨d, i, -, -, -, hi⟩ := exists_place hs hg hn (hks.subset hk)
    rw [hi]
    rfl
  have hslots : slots.Pairwise (· < ·) := by
    refine List.pairwise_filterMap.2 (h.imp ?_)
    rintro k k' ⟨i, i', hi, hi', hlt⟩ j hj j' hj'
    rwa [← Option.some.inj (hi.symm.trans hj), ← Option.some.inj (hi'.symm.trans hj')]
  have hsub : (slots.map fun i : Nat => (i : Int)).Sublist ((kept start goal m n).map fun k => (k.2 : Int)) := by
    have hvalues := (hks.filterMap ((of start goal).place? start n)).map fun i : Nat => (i : Int)
    rwa [← map_snd_kept hs hg hn, List.map_map] at hvalues
  have hincreasing : (slots.map fun i : Nat => (i : Int)).Pairwise (· < ·) :=
    List.pairwise_map.2 (hslots.imp Int.ofNat_lt.2)
  have := Increasing.length_le_length_longest hsub hincreasing
  rwa [List.length_map, hlength] at this

/-- Leaving out fewer children than moved does not leave the others in order. -/
theorem length_moved_le {out : List μ} (h : (of start goal).InOrder start n
    (((of start goal).childrenFrom start goal n m).filter (· ∉ out))) :
      (((of start goal).childrenFrom start goal n m).filter (of start goal).hasMoved).length ≤ out.length := by
  have hstay := length_le_of_inOrder hs hg hn List.filter_sublist h
  have hkept := length_late hn
  have hleft := length_le_length_filter_add (nodup_childrenFrom hs hg hn) out
  rw [length_moved hs hg hn]
  rw [← map_fst_kept hs hg hn, List.length_map] at hleft
  rw [← map_fst_kept hs hg hn] at hstay
  omega

/-! ## What stays -/

/-- Children that did not move have their partners below the partner of their parent. -/
theorem mem_childrenFrom_of_inPlace {k : μ} (hk : k ∈ goal.children m) (hin : (of start goal).inPlace k = true) :
    k ∈ (of start goal).childrenFrom start goal n m := by
  have hmn := mem_nodes_of_partner? hs hg hn
  obtain ⟨⟨d, hd⟩, -⟩ := inPlace_iff.1 hin
  obtain ⟨n', hn', hdn⟩ := parents_of_inPlace hs hg hmn.1 hk hin hd
  obtain rfl : n = n' := Option.some.inj (hn.symm.trans hn')
  exact mem_childrenFrom.2 ⟨hk, d, hd, hs.parent_of_child hmn.2 hdn⟩

/-- Children that did not move are in order. -/
theorem inOrder_inPlace : (of start goal).InOrder start n ((goal.children m).filter (of start goal).inPlace) := by
  have hmn := mem_nodes_of_partner? hs hg hn
  refine List.pairwise_filter.2 (List.pairwise_iff_forall_sublist.2 fun {k k'} hkk hin hin' => ?_)
  have hk := mem_childrenFrom_of_inPlace hs hg hn (hkk.subset List.mem_cons_self) hin
  have hk' := mem_childrenFrom_of_inPlace hs hg hn (hkk.subset (by simp)) hin'
  obtain ⟨d, i, hd, -, hslot, hi⟩ := exists_place hs hg hn hk
  obtain ⟨d', i', hd', -, hslot', hi'⟩ := exists_place hs hg hn hk'
  have hdd := pair_sublist_of_inPlace hs hg hn hkk hin hin' hd hd'
  exact ⟨i, i', hi, hi', hs.lastSlot?_lt_of_pair_sublist hmn.2 hdd hslot hslot'⟩

end Correspondence

/-- Which nodes of a correspondence moved, and that as few as possible did. -/
structure Correspondence.MinimalMoves (start : View ν) (goal : View μ) (c : Correspondence μ ν) : Prop where
  /-- Only nodes below the root that have partners moved. -/
  paired : ∀ m, c.hasMoved m = true → m ∈ goal.descendants ∧ (c.partner? m).isSome = true
  /-- A node moved if its parent is not the partner of its partner's parent. -/
  parents : ∀ m ∈ goal.descendants, ∀ n, c.partner? m = some n →
    (goal.parent m).bind c.partner? ≠ start.parent n → c.hasMoved m = true
  /-- Below a pair of nodes, the children that did not move are in the order of their partners. -/
  inOrder : ∀ m n, c.partner? m = some n → c.InOrder start n ((goal.children m).filter c.inPlace)
  /-- No fewer of the children from the partner could be left out for the others to be in order than moved. -/
  minimal : ∀ m n, c.partner? m = some n → ∀ out : List μ,
    c.InOrder start n ((c.childrenFrom start goal n m).filter (· ∉ out)) →
      ((c.childrenFrom start goal n m).filter c.hasMoved).length ≤ out.length
  /-- Whenever the place of a child is looked up, with the nodes of changed parents and maybe more moved by then, it
  is found. -/
  found : ∀ moved : List μ, (∀ m ∈ goal.descendants, c.pairs.changedParent start goal m = true → m ∈ moved) →
    ∀ m n, c.partner? m = some n → ∀ k ∈ goal.children m, k ∉ moved → (c.partner? k).isSome = true →
      (c.place? start n k).isSome = true

/-- Between any two trees, the nodes of changed parents moved, and as few others as possible. -/
theorem moves_minimal (start goal : Tree) :
    (Correspondence.of start.view goal.view).MinimalMoves start.view goal.view := by
  have hs := start.view_lawful
  have hg := goal.view_lawful
  refine ⟨fun m hm => ?_, fun m hm n hn hpar => ?_, fun m n hn => ?_, fun m n hn out h => ?_,
    fun moved hmoved m n hn k hk hkm hd => ?_⟩
  · have hmoved := Correspondence.hasMoved_iff.1 hm
    obtain ⟨n, hn⟩ := Correspondence.exists_partner_of_moved hg hmoved
    exact ⟨Correspondence.mem_descendants_of_moved hg hmoved, by rw [hn]; rfl⟩
  · exact Correspondence.hasMoved_of_parents hg hm hn hpar
  · exact Correspondence.inOrder_inPlace hs hg hn
  · exact Correspondence.length_moved_le hs hg hn h
  · have hmn := (Pairing.mem_nodes_of hs hg ((Correspondence.partner?_eq_some_iff hs hg).1 hn)).1
    obtain ⟨d, hd⟩ := Option.isSome_iff_exists.1 hd
    have hpar : start.view.parent d = some n := by
      by_contra hne
      have hchanged := (Correspondence.changedParent_iff hg hmn hk hn hd).2 hne
      exact hkm (hmoved k (hg.descendant_of_child hmn hk) hchanged)
    have hfrom := Correspondence.mem_childrenFrom.2 ⟨hk, d, hd, hpar⟩
    obtain ⟨-, i, -, -, -, hi⟩ := Correspondence.exists_place hs hg hn hfrom
    rw [hi]
    rfl

end HintQuality
