import HintQuality.Proofs.EditSets
/-!
# Edits tell goals apart

Two goals with the same edits from one start have, at nodes of the same key, the same children keys in the same order
(`View.childKeys_eq`), the same label (`View.label_eq`) and, unless the nodes are in place, the same relation label
(`View.relation?_eq`).
-/

namespace HintQuality

namespace View

open Correspondence (deletionOf renameOf)

variable {μ μ' ν : Type} [DecidableEq μ] [DecidableEq μ'] [DecidableEq ν] {start : View ν} {a : View μ} {b : View μ'}
  (hs : start.Lawful) (ha : a.Lawful) (hb : b.Lawful) (hpath : start.DistinctPaths)
  (h : ∀ e, e ∈ start.edits a ↔ e ∈ start.edits b)
include hs ha hb hpath h

/-- The same start nodes are kept. -/
theorem isKept_eq {n : ν} (hn : n ∈ start.nodes) :
    (Correspondence.of start a).isKept n = (Correspondence.of start b).isKept n := by
  have hiff := h (deletionOf start n)
  rw [Correspondence.deletion_mem_edits_iff hs ha hpath hn,
    Correspondence.deletion_mem_edits_iff hs hb hpath hn] at hiff
  exact Bool.eq_iff_iff.2 (not_iff_not.1 (by simpa using hiff))

theorem isKeptKey_eq (k : Key) : start.isKeptKey a k = start.isKeptKey b k := by
  unfold isKeptKey
  rw [Bool.eq_iff_iff, List.any_eq_true, List.any_eq_true]
  refine exists_congr fun n => and_congr_right fun hn => ?_
  rw [isKept_eq hs ha hb hpath h hn]

variable {p : μ} {q : μ'} (hp : p ∈ a.nodes) (hq : q ∈ b.nodes) (hk : start.keyOf a p = start.keyOf b q)
include hp hq hk

/-- Nodes of the same key are both in place or both not. -/
theorem inPlace_eq : (Correspondence.of start a).inPlace p = (Correspondence.of start b).inPlace q := by
  rw [← isKeptKey_keyOf hs ha hpath hp, ← isKeptKey_keyOf hs hb hpath hq, hk, isKeptKey_eq hs ha hb hpath h]

omit h in
/-- Nodes of the same key have the same partner. -/
theorem partner?_eq : (Correspondence.of start a).partner? p = (Correspondence.of start b).partner? q := by
  refine Option.ext fun n => ?_
  constructor
  · intro hn
    have hnode := (Pairing.mem_nodes_of hs ha ((Correspondence.partner?_eq_some_iff hs ha).1 hn)).2
    refine (Correspondence.goalKey_eq_key_iff hs hb hpath hq hnode).1 (hk.symm.trans ?_)
    exact Correspondence.goalKey_of_partner ha hn
  · intro hn
    have hnode := (Pairing.mem_nodes_of hs hb ((Correspondence.partner?_eq_some_iff hs hb).1 hn)).2
    refine (Correspondence.goalKey_eq_key_iff hs ha hpath hp hnode).1 (hk.trans ?_)
    exact Correspondence.goalKey_of_partner hb hn

/-- Nodes of the same key have children of the same keys, in the same order. -/
theorem childKeys_eq : start.childKeys a p = start.childKeys b q := by
  refine eq_of_follows (start.isKeptKey a) (nodup_childKeys hs ha hpath hp) (nodup_childKeys hs hb hpath hq) ?_
    fun k after hkept => ?_
  · have hpart := partner?_eq hs ha hb hpath hp hq hk
    have hkeep : start.isKeptKey a = start.isKeptKey b := funext (isKeptKey_eq hs ha hb hpath h)
    cases hn : (Correspondence.of start a).partner? p with
    | none =>
      rw [filter_childKeys_of_new hs ha hpath hp hn, hkeep, filter_childKeys_of_new hs hb hpath hq (hpart ▸ hn)]
    | some n =>
      have hnode := (Pairing.mem_nodes_of hs ha ((Correspondence.partner?_eq_some_iff hs ha).1 hn)).2
      rw [filter_childKeys hs ha hpath hn, hkeep, filter_childKeys hs hb hpath (hpart ▸ hn)]
      congr 1
      exact List.filter_congr fun d hd => isKept_eq hs ha hb hpath h (hs.mem_nodes_of_child hnode hd)
  · rw [follows_childKeys_iff hs ha hpath hp hkept,
      follows_childKeys_iff hs hb hpath hq (by rw [← isKeptKey_eq hs ha hb hpath h]; exact hkept), hk]
    simp only [h]

/-- A new or moved node is inserted alike. -/
theorem insertionOf_eq (hin : (Correspondence.of start a).inPlace p = false) :
    (Correspondence.of start a).insertionOf start a p ((Correspondence.of start a).partner? p) =
      (Correspondence.of start b).insertionOf start b q ((Correspondence.of start b).partner? q) := by
  obtain ⟨q', hq', -, he⟩ := (Correspondence.insertion_mem_edits_iff hs hb).1
    ((h _).1 ((Correspondence.insertion_mem_edits_iff hs ha).2 ⟨p, hp, hin, rfl⟩))
  have hkey : start.keyOf b q' = start.keyOf b q := by
    rw [← hk, ← insertedKey_insertionOf hb hq' he]
    exact insertedKey_insertionOf ha hp rfl
  rw [← keyOf_injective hs hb hpath hq' hq hkey]
  exact he

/-- New and moved nodes of the same key have the same relation label. -/
theorem relation?_eq (hin : (Correspondence.of start a).inPlace p = false) : a.relation? p = b.relation? q :=
  (Edit.insertion.inj (insertionOf_eq hs ha hb hpath h hp hq hk hin)).2.1

/-- A renamed node is renamed alike. -/
theorem label_eq_of_renamed {n : ν} (hin : (Correspondence.of start a).inPlace p = true)
    (hn : (Correspondence.of start a).partner? p = some n) (hl : start.label n ≠ a.label p) :
    a.label p = b.label q := by
  obtain ⟨q', hq', -, n', hn', -, he⟩ := (Correspondence.renameOf_mem_edits_iff hs hb).1
    ((h _).1 ((Correspondence.renameOf_mem_edits_iff hs ha).2 ⟨p, hp, hin, n, hn, hl, rfl⟩))
  have hnode := (Pairing.mem_nodes_of hs ha ((Correspondence.partner?_eq_some_iff hs ha).1 hn)).2
  have hnode' := (Pairing.mem_nodes_of hs hb ((Correspondence.partner?_eq_some_iff hs hb).1 hn')).2
  obtain rfl := key_injective hpath hnode hnode' (Edit.rename.inj he).1
  have hkey : start.keyOf b q' = start.keyOf b q := by
    rw [← hk]
    exact (Correspondence.goalKey_of_partner hb hn').trans (Correspondence.goalKey_of_partner ha hn).symm
  rw [← keyOf_injective hs hb hpath hq' hq hkey]
  exact Correspondence.renameOf_injective he

/-- Nodes of the same key have the same label. -/
theorem label_eq : a.label p = b.label q := by
  have hsame := inPlace_eq hs ha hb hpath h hp hq hk
  have hpart := partner?_eq hs ha hb hpath hp hq hk
  cases hin : (Correspondence.of start a).inPlace p with
  | false => exact (Edit.insertion.inj (insertionOf_eq hs ha hb hpath h hp hq hk hin)).1
  | true =>
    obtain ⟨⟨n, hn⟩, -⟩ := Correspondence.inPlace_iff.1 hin
    by_cases hl : start.label n = a.label p
    · by_cases hl' : start.label n = b.label q
      · rw [← hl, hl']
      · have := label_eq_of_renamed hs hb ha hpath (fun e => (h e).symm) hq hp hk.symm (hsame ▸ hin) (hpart ▸ hn) hl'
        exact this.symm
    · exact label_eq_of_renamed hs ha hb hpath h hp hq hk hin hn hl

end View

/-! ## Goals with the same nodes -/

namespace View

/-- The views have the same nodes with the same labels, children and parents. -/
structure SameNodes {μ : Type} (a b : View μ) : Prop where
  /-- The same root. -/
  root : a.root = b.root
  /-- The same nodes below it, in the same order. -/
  descendants : a.descendants = b.descendants
  /-- The same labels. -/
  label : a.label = b.label
  /-- The same children, in the same order. -/
  children : a.children = b.children
  /-- The same parents. -/
  parent : a.parent = b.parent

variable {μ ν : Type} {a b : View μ} {start : View ν}

namespace SameNodes

variable (h : a.SameNodes b)
include h

theorem nodes : a.nodes = b.nodes := by
  rw [View.nodes, View.nodes, h.root, h.descendants]

variable [DecidableEq μ]

theorem preceding? (ha : a.Lawful) (hb : b.Lawful) {m : μ} (hm : m ∈ a.nodes) : a.preceding? m = b.preceding? m := by
  have hm' : m ∈ b.nodes := h.nodes ▸ hm
  rcases List.mem_cons.1 hm with rfl | hd
  · have hroot : b.parent a.root = none := by rw [h.root, hb.parent_root]
    simp [View.preceding?, ha.parent_root, hroot]
  · obtain ⟨p, hp, -, hc, -⟩ := ha.child_of_descendant hd
    have hp' : p ∈ b.nodes := h.nodes ▸ hp
    have hf := ha.follows_preceding? hp hc
    rw [h.children] at hf hc
    exact hf.eq (hb.nodup_children hp') (hb.follows_preceding? hp' hc)

omit [DecidableEq μ] in
theorem sameUpToIds : a.SameUpToIds b :=
  ⟨h.root, h.descendants, h.children, fun m => by rw [h.label], fun m => by rw [h.label]⟩

variable [DecidableEq ν]

theorem pairing : Pairing.of start a = Pairing.of start b := by
  refine h.sameUpToIds.pairing ?_
  funext ps m
  simp only [Pairing.pairById, View.withId, h.nodes, h.label]

/-- The correspondence depends on nodes, labels, children and parents only. -/
theorem correspondence : Correspondence.of start a = Correspondence.of start b := by
  have hchanged : Pairing.changedParent start a = Pairing.changedParent start b := by
    funext ps m
    simp only [Pairing.changedParent, h.parent]
  have hkept : Pairing.keptChildren start a = Pairing.keptChildren start b := by
    funext ps moved m n
    simp only [Pairing.keptChildren, h.children]
  have hout : Pairing.outOfOrder start a = Pairing.outOfOrder start b := by
    funext ps moved m
    simp only [Pairing.outOfOrder, hkept]
  rw [Correspondence.of, Correspondence.of, h.pairing]
  simp only [Pairing.moves, hchanged, hout, h.nodes, h.descendants]

variable (ha : a.Lawful) (hb : b.Lawful)
include ha hb

/-- If all nodes before a node have the same keys in both, so do its parent and preceding sibling. -/
theorem keys_before {m : μ} (hm : m ∈ a.nodes)
    (hkeys : ∀ k, [k, m].Sublist a.nodes → start.keyOf a k = start.keyOf b k) :
    (a.parent m).map (start.keyOf a) = (b.parent m).map (start.keyOf b) ∧
      (a.preceding? m).map (start.keyOf a) = (b.preceding? m).map (start.keyOf b) := by
  rw [← h.parent, ← h.preceding? ha hb hm]
  constructor
  · exact Option.map_congr fun p hp => hkeys p (ha.parent_before hm hp)
  · exact Option.map_congr fun k hk => hkeys k (ha.preceding?_before hm hk)

variable (hrel : ∀ m ∈ a.nodes, (Correspondence.of start a).inPlace m = false → a.relation? m = b.relation? m)
include hrel

/-- All nodes have the same keys in both. -/
theorem keyOf : ∀ m ∈ a.nodes, start.keyOf a m = start.keyOf b m := by
  refine ha.induct_before fun m hm ih => ?_
  have hm' : m ∈ b.nodes := h.nodes ▸ hm
  cases hp : (Correspondence.of start a).partner? m with
  | some n =>
    have hp' : (Correspondence.of start b).partner? m = some n := by rw [← h.correspondence, hp]
    rw [View.keyOf, View.keyOf, Correspondence.goalKey_of_partner ha hp, Correspondence.goalKey_of_partner hb hp']
  | none =>
    have hp' : (Correspondence.of start b).partner? m = none := by rw [← h.correspondence, hp]
    have hin : (Correspondence.of start a).inPlace m = false := by rw [Correspondence.inPlace, hp]; rfl
    obtain ⟨hparent, hafter⟩ := h.keys_before ha hb hm ih
    rw [View.keyOf, View.keyOf, Correspondence.goalKey_of_new ha hm hp, Correspondence.goalKey_of_new hb hm' hp',
      Key.fresh.injEq]
    exact ⟨hparent, hrel m hm hin, by rw [h.label], by rw [h.label], hafter⟩

/-- Goals that differ in relation labels of nodes in place only have the same edits. -/
theorem mem_edits_iff (hs : start.Lawful) {e : Edit} : e ∈ start.edits a ↔ e ∈ start.edits b := by
  have hplace : ∀ m, (Correspondence.of start a).inPlace m = (Correspondence.of start b).inPlace m := by
    intro m
    rw [h.correspondence]
  have hins : ∀ m ∈ a.nodes, (Correspondence.of start a).inPlace m = false →
      (Correspondence.of start a).insertionOf start a m ((Correspondence.of start a).partner? m) =
        (Correspondence.of start b).insertionOf start b m ((Correspondence.of start b).partner? m) := by
    intro m hm hin
    obtain ⟨hparent, hafter⟩ := h.keys_before ha hb hm
      fun k hk => h.keyOf ha hb hrel k (hk.subset List.mem_cons_self)
    rw [Correspondence.insertionOf, Correspondence.insertionOf, Edit.insertion.injEq]
    exact ⟨by rw [h.label], hrel m hm hin, hparent, hafter, by rw [h.correspondence]⟩
  have hren : Correspondence.renameOf start a = Correspondence.renameOf start b := by
    funext n m
    simp only [Correspondence.renameOf, h.label]
  rw [Correspondence.mem_edits_iff hs ha, Correspondence.mem_edits_iff hs hb]
  refine or_congr (by rw [h.correspondence]) (or_congr ?_ (by rw [h.correspondence, h.nodes, h.label, hren]))
  rw [← h.nodes]
  refine exists_congr fun m => and_congr_right fun hm => ?_
  constructor
  · rintro ⟨hin, rfl⟩
    exact ⟨hplace m ▸ hin, hins m hm hin⟩
  · rintro ⟨hin, rfl⟩
    rw [← hplace] at hin
    exact ⟨hin, (hins m hm hin).symm⟩

end SameNodes

end View

end HintQuality
