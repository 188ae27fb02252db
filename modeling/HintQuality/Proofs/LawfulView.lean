import HintQuality.Proofs.Lists
import HintQuality.Proofs.Position
/-!
# Lawful views

What comparing trees relies on: the nodes of a view are distinct, each node below the root has a parent that stands
before it in pre-order, and the children of a node are the nodes whose parent it is, in pre-order. The view of a tree
is lawful (`Tree.view_lawful`). In a lawful view a property spreads from parents to children (`Lawful.induct`) or from
all earlier nodes (`Lawful.induct_before`), and each child has one slot, from which its relation label and the sibling
before it are read off (`Lawful.exists_slot`).
-/

namespace HintQuality

namespace View

variable {ν : Type}

/-- A view as it is of a tree. -/
structure Lawful (v : View ν) : Prop where
  /-- The nodes are distinct. -/
  nodup : v.nodes.Nodup
  /-- The root has no parent. -/
  parent_root : v.parent v.root = none
  /-- The children of a node are the nodes below the root whose parent it is. -/
  mem_children : ∀ {p c : ν}, p ∈ v.nodes → (c ∈ v.children p ↔ c ∈ v.descendants ∧ v.parent c = some p)
  /-- The children of a node are in pre-order. -/
  children_sublist : ∀ {p : ν}, p ∈ v.nodes → (v.children p).Sublist v.nodes
  /-- A node below the root has a parent, which stands before it in pre-order. -/
  exists_parent : ∀ {c : ν}, c ∈ v.descendants → ∃ p, v.parent c = some p ∧ [p, c].Sublist v.nodes
  /-- The bound suffices for any way from node to node against pre-order. -/
  length_le_bound : v.nodes.length ≤ v.bound

namespace Lawful

variable {v : View ν} (hv : v.Lawful)

theorem root_mem (v : View ν) : v.root ∈ v.nodes :=
  List.mem_cons_self

theorem mem_nodes {c : ν} (h : c ∈ v.descendants) : c ∈ v.nodes :=
  List.mem_cons_of_mem _ h

include hv

theorem root_not_mem : v.root ∉ v.descendants :=
  (List.nodup_cons.1 hv.nodup).1

theorem nodup_descendants : v.descendants.Nodup :=
  (List.nodup_cons.1 hv.nodup).2

/-- The nodes below the root are those other than it. -/
theorem mem_descendants {c : ν} : c ∈ v.descendants ↔ c ∈ v.nodes ∧ c ≠ v.root := by
  constructor
  · intro h
    exact ⟨mem_nodes h, fun e => hv.root_not_mem (e ▸ h)⟩
  · rintro ⟨h, hne⟩
    exact (List.mem_cons.1 h).resolve_left hne

theorem nodup_children {p : ν} (hp : p ∈ v.nodes) : (v.children p).Nodup :=
  hv.nodup.sublist (hv.children_sublist hp)

theorem descendant_of_child {p c : ν} (hp : p ∈ v.nodes) (h : c ∈ v.children p) : c ∈ v.descendants :=
  ((hv.mem_children hp).1 h).1

theorem mem_nodes_of_child {p c : ν} (hp : p ∈ v.nodes) (h : c ∈ v.children p) : c ∈ v.nodes :=
  mem_nodes (hv.descendant_of_child hp h)

theorem parent_of_child {p c : ν} (hp : p ∈ v.nodes) (h : c ∈ v.children p) : v.parent c = some p :=
  ((hv.mem_children hp).1 h).2

/-- A node is a child of its parent. -/
theorem child_of_parent {p c : ν} (hp : p ∈ v.nodes) (hc : c ∈ v.nodes) (h : v.parent c = some p) :
    c ∈ v.children p := by
  have hne : c ≠ v.root := by
    rintro rfl
    rw [hv.parent_root] at h
    cases h
  exact (hv.mem_children hp).2 ⟨hv.mem_descendants.2 ⟨hc, hne⟩, h⟩

/-- A node below the root is a child of a node before it. -/
theorem child_of_descendant {c : ν} (h : c ∈ v.descendants) :
    ∃ p ∈ v.nodes, v.parent c = some p ∧ c ∈ v.children p ∧ [p, c].Sublist v.nodes := by
  obtain ⟨p, hp, hb⟩ := hv.exists_parent h
  have hm : p ∈ v.nodes := hb.subset (by simp)
  exact ⟨p, hm, hp, (hv.mem_children hm).2 ⟨h, hp⟩, hb⟩

/-- A node stands before its children. -/
theorem child_after {p c : ν} (hp : p ∈ v.nodes) (h : c ∈ v.children p) : [p, c].Sublist v.nodes := by
  obtain ⟨p', hp', hb⟩ := hv.exists_parent (hv.descendant_of_child hp h)
  rw [hv.parent_of_child hp h] at hp'
  rw [Option.some.inj hp']
  exact hb

/-- A node has one parent only. -/
theorem parent_unique {p p' c : ν} (hp : p ∈ v.nodes) (hp' : p' ∈ v.nodes) (h : c ∈ v.children p)
    (h' : c ∈ v.children p') : p = p' :=
  Option.some.inj ((hv.parent_of_child hp h).symm.trans (hv.parent_of_child hp' h'))

/-- A parent stands before its child. -/
theorem parent_before {p c : ν} (hc : c ∈ v.nodes) (h : v.parent c = some p) : [p, c].Sublist v.nodes := by
  have hne : c ≠ v.root := by
    rintro rfl
    rw [hv.parent_root] at h
    cases h
  obtain ⟨p', hp', hb⟩ := hv.exists_parent (hv.mem_descendants.2 ⟨hc, hne⟩)
  rwa [Option.some.inj (h.symm.trans hp')]

variable [DecidableEq ν]

/-- What holds of a node as soon as it holds of all nodes before it holds of all nodes. -/
theorem induct_before {P : ν → Prop} (h : ∀ n ∈ v.nodes, (∀ k, [k, n].Sublist v.nodes → P k) → P n) :
    ∀ n ∈ v.nodes, P n := by
  intro n
  induction hr : v.nodes.idxOf n using Nat.strongRecOn generalizing n with
  | _ r ih =>
    intro hn
    refine h n hn fun k hk => ih _ ?_ k rfl (hk.subset (by simp))
    rw [← hr]
    exact idxOf_lt_of_pair_sublist hv.nodup hk

/-- What holds of the root, and of the children of the nodes it holds of, holds of all nodes. -/
theorem induct {P : ν → Prop} (root : P v.root)
    (child : ∀ p ∈ v.nodes, ∀ c ∈ v.children p, P p → P c) : ∀ n ∈ v.nodes, P n := by
  refine hv.induct_before fun n hn ih => ?_
  rcases List.mem_cons.1 hn with rfl | hd
  · exact root
  · obtain ⟨p, hp, -, hc, hb⟩ := hv.child_of_descendant hd
    exact child p hp n hc (ih p hb)

/-- A child stands in one slot: what is before it there is its preceding sibling, and the label is its own. -/
theorem exists_slot {p c : ν} (hp : p ∈ v.nodes) (hc : c ∈ v.children p) :
    ∃ before r after, v.slots p = before ++ ⟨r, some c⟩ :: after ∧ v.relation? c = some r ∧
      v.preceding? c = (Slots.children before).getLast? ∧
      v.children p = Slots.children before ++ c :: Slots.children after ∧
      v.lastSlot? p c = some before.length := by
  have hnd := hv.nodup_children hp
  have hpar := hv.parent_of_child hp hc
  obtain ⟨s, hs, hsc⟩ := List.mem_filterMap.1 hc
  obtain ⟨before, after, hsplit⟩ := List.append_of_mem hs
  obtain ⟨r, sc⟩ := s
  obtain rfl : sc = some c := hsc
  have hch : v.children p = Slots.children before ++ c :: Slots.children after := by
    simp [View.children, Slots.children, hsplit]
  rw [hch] at hnd
  have hb : ∀ s ∈ before, s.child ≠ some c := by
    intro s hs' e
    exact (List.disjoint_of_nodup_append hnd) (List.mem_filterMap.2 ⟨s, hs', e⟩) (by simp)
  have ha : ∀ s ∈ after, s.child ≠ some c := by
    intro s hs' e
    have := (List.nodup_cons.1 (List.nodup_append.1 hnd).2.1).1
    exact this (List.mem_filterMap.2 ⟨s, hs', e⟩)
  have hidx : v.slotIndex? c = some before.length := by
    have hnone : before.findIdx? (fun s => decide (s.child = some c)) = none :=
      List.findIdx?_eq_none_iff.2 fun s hs' => by simpa using hb s hs'
    simp [View.slotIndex?, hpar, hsplit, List.findIdx?_append, hnone, List.findIdx?_cons]
  refine ⟨before, r, after, hsplit, ?_, ?_, hch, ?_⟩
  · simp [View.relation?, hpar, hidx, hsplit]
  · simp [View.preceding?, hpar, hidx, hsplit]
  · have hb' : (before.zipIdx.filter fun s => decide (s.1.child = some c)) = [] :=
      List.filter_eq_nil_iff.2 fun s hs' => by simpa using hb s.1 (List.fst_mem_of_mem_zipIdx hs')
    have ha' : ((after.zipIdx (before.length + 1)).filter fun s => decide (s.1.child = some c)) = [] :=
      List.filter_eq_nil_iff.2 fun s hs' => by simpa using ha s.1 (List.fst_mem_of_mem_zipIdx hs')
    simp [View.lastSlot?, hsplit, List.zipIdx_append, hb', ha']

/-- A child follows its preceding sibling. -/
theorem follows_preceding? {p c : ν} (hp : p ∈ v.nodes) (hc : c ∈ v.children p) :
    Follows (v.children p) (v.preceding? c) c := by
  obtain ⟨before, r, after, -, -, hprec, hch, -⟩ := hv.exists_slot hp hc
  exact ⟨Slots.children before, Slots.children after, hch, hprec.symm⟩

/-- A preceding sibling stands before the next one. -/
theorem preceding?_before {b c : ν} (hc : c ∈ v.nodes) (h : v.preceding? c = some b) : [b, c].Sublist v.nodes := by
  rcases List.mem_cons.1 hc with rfl | hd
  · simp [View.preceding?, hv.parent_root] at h
  · obtain ⟨p, hp, -, hcp, -⟩ := hv.child_of_descendant hd
    have hf := hv.follows_preceding? hp hcp
    rw [h] at hf
    exact hf.pair_sublist.trans (hv.children_sublist hp)

/-- Children stand in the order of their slots. -/
theorem pair_sublist_of_lastSlot? {p c d : ν} (hp : p ∈ v.nodes) (hc : c ∈ v.children p) (hd : d ∈ v.children p)
    {i j : Nat} (hi : v.lastSlot? p c = some i) (hj : v.lastSlot? p d = some j) (hij : i < j) :
    [c, d].Sublist (v.children p) := by
  obtain ⟨before, r, after, hs, -, -, -, hb⟩ := hv.exists_slot hp hc
  obtain ⟨before', r', after', hs', -, -, hch, hb'⟩ := hv.exists_slot hp hd
  have hi' : before.length = i := Option.some.inj (hb.symm.trans hi)
  have hj' : before'.length = j := Option.some.inj (hb'.symm.trans hj)
  have hget : (v.slots p)[before.length]? = some ⟨r, some c⟩ := by simp [hs]
  rw [hs', List.getElem?_append_left (by omega)] at hget
  have hmem : c ∈ Slots.children before' :=
    List.mem_filterMap.2 ⟨⟨r, some c⟩, List.mem_of_getElem? hget, rfl⟩
  rw [hch]
  exact (List.singleton_sublist.2 hmem).append (List.singleton_sublist.2 List.mem_cons_self)

/-- The slots of children are in their order. -/
theorem lastSlot?_lt_of_pair_sublist {p c d : ν} (hp : p ∈ v.nodes) (h : [c, d].Sublist (v.children p)) {i j : Nat}
    (hi : v.lastSlot? p c = some i) (hj : v.lastSlot? p d = some j) : i < j := by
  have hc : c ∈ v.children p := h.subset List.mem_cons_self
  have hd : d ∈ v.children p := h.subset (List.mem_cons_of_mem c List.mem_cons_self)
  have hnd := hv.nodup_children hp
  have hlt := idxOf_lt_of_pair_sublist hnd h
  rcases Nat.lt_trichotomy i j with hij | rfl | hji
  · exact hij
  · -- one slot holds one child
    obtain ⟨before, r, after, hs, -, -, -, hb⟩ := hv.exists_slot hp hc
    obtain ⟨before', r', after', hs', -, -, -, hb'⟩ := hv.exists_slot hp hd
    have hlen : before.length = before'.length :=
      Option.some.inj ((hb.symm.trans hi).trans (hb'.symm.trans hj).symm)
    have hslot := (List.append_inj (hs.symm.trans hs') hlen).2
    obtain rfl : c = d := Option.some.inj (Slot.mk.inj (List.cons.inj hslot).1).2
    exact absurd hlt (Nat.lt_irrefl _)
  · have hlt' := idxOf_lt_of_pair_sublist hnd (hv.pair_sublist_of_lastSlot? hp hd hc hj hi hji)
    omega

end Lawful

end View

namespace Tree

@[simp] theorem view_nodes (t : Tree) : t.view.nodes = t.positions :=
  t.positions_eq_cons.symm

/-- The view of a tree is lawful. -/
theorem view_lawful (t : Tree) : t.view.Lawful := by
  have hmem : ∀ {p c : Position}, c ∈ t.view.children p ↔ c ∈ t.positions.tail ∧ parentOf c = some p := by
    intro p c
    rw [mem_tail_positions]
    constructor
    · intro h
      obtain ⟨i, rfl, hc⟩ := mem_children_slotsAt.1 h
      exact ⟨⟨hc, by simp⟩, by simp [parentOf]⟩
    · rintro ⟨⟨hc, hne⟩, hp⟩
      refine mem_children_slotsAt.2 ⟨c.getLast hne, ?_, hc⟩
      have hp' : c.dropLast = p := by simpa [parentOf, hne] using hp
      rw [← hp', List.dropLast_append_getLast]
  have hsub : ∀ {l : List Position}, l.Pairwise (· < ·) → l ⊆ t.positions → l.Sublist t.view.nodes := by
    intro l hl hm
    rw [view_nodes]
    exact List.sublist_of_subperm_of_pairwise (List.subperm_of_subset hl.nodup hm) hl t.pairwise_positions
  refine ⟨by rw [view_nodes]; exact t.nodup_positions, rfl, fun _ => hmem, fun {p} _ => ?_, fun {c} hc => ?_, ?_⟩
  · refine hsub (t.pairwise_children_slotsAt p) fun c hc => ?_
    exact (mem_tail_positions.1 (hmem.1 hc).1).1
  · obtain ⟨hc, hne⟩ := mem_tail_positions.1 hc
    obtain ⟨p, i, rfl⟩ : ∃ p i, c = p ++ [i] := ⟨_, _, (List.dropLast_append_getLast hne).symm⟩
    refine ⟨p, by simp [view, parentOf], hsub ?_ ?_⟩
    · have : p ++ [] < p ++ [i] := List.append_left_lt (List.nil_lt_cons _ _)
      simpa using this
    · simp [mem_positions_of_snoc hc, hc]
  · rw [view_nodes]
    exact Nat.le_refl _

end Tree

end HintQuality
