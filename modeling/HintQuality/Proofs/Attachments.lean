import HintQuality.Proofs.Leftovers
import HintQuality.Proofs.Moves
import HintQuality.Proofs.PruningInPlace
/-!
# Attachments

What the editor attaches to a new node carries no intent. One more childless node below a node without a partner is not
paired itself, and all others keep their partners, their moves, and whether they count as added
(`View.Extends.mem_added_iff`). The first pass of pruning takes it out or leaves it below the node that it was attached
to (`pruneLeftovers_insertSlot_left`), the second one takes it out with the other attachments
(`detachFrom_insertSlot`), so the pruned tree does not have it (`prune_attachment`).
-/

namespace HintQuality

open HintQuality.Tree

/-! ## One more node below an unpaired one -/

variable {μ κ ν : Type}

namespace View.Extends

section Places

variable {goal : View μ} {goal' : View κ} {f : μ → κ} {x : κ} {p : μ} (h : goal.Extends goal' f x p)
  (hg : goal.Lawful) (hg' : goal'.Lawful)
include h hg'

/-- The new node stands below `p`. -/
theorem new_mem_children : x ∈ goal'.children (f p) := by
  have hx : x ∈ goal'.descendants := by
    refine hg'.mem_descendants.2 ⟨(h.mem_nodes x).2 (.inl rfl), ?_⟩
    rw [h.root]
    exact fun he => h.new _ he.symm
  obtain ⟨k, hk, -, hchild, hbefore⟩ := hg'.child_of_descendant hx
  rcases (h.mem_nodes k).1 hk with rfl | ⟨m, -, rfl⟩
  · exact absurd (hg'.nodup.sublist hbefore) (by simp)
  · by_cases hm : m = p
    · rwa [← hm]
    · rw [h.children m hm] at hchild
      obtain ⟨c, -, hc⟩ := List.mem_map.1 hchild
      exact absurd hc (h.new c)

include hg

theorem mem_descendants_iff {m : μ} : f m ∈ goal'.descendants ↔ m ∈ goal.descendants := by
  rw [hg.mem_descendants, hg'.mem_descendants, h.mem_nodes_iff, h.ne_root_iff]

/-- The old nodes keep their parents. -/
theorem parent_eq {m : μ} (hm : m ∈ goal.descendants) : goal'.parent (f m) = (goal.parent m).map f := by
  obtain ⟨k, hk, hparent, hchild, -⟩ := hg.child_of_descendant hm
  rw [hparent, hg'.parent_of_child (h.mem_nodes_iff.2 hk) (h.mem_children_iff.2 hchild)]
  rfl

end Places

variable [DecidableEq μ] [DecidableEq κ] [DecidableEq ν] {start : View ν} {goal : View μ} {goal' : View κ} {f : μ → κ}
  {x : κ} {p : μ} (h : goal.Extends goal' f x p) (hs : start.Lawful) (hg : goal.Lawful) (hg' : goal'.Lawful)
  (hp : p ∈ goal.nodes) (halone : (Correspondence.of start goal).partner? p = none)
include h hs hg hg' hp halone

/-- Without a partner for `p`, all other nodes keep their partners. -/
theorem partner?_eq (m : μ) :
    (Correspondence.of start goal').partner? (f m) = (Correspondence.of start goal).partner? m := by
  have hundisturbed : Pairing.Undisturbed start goal goal' f p := by
    intro n hn
    rw [← Correspondence.partner?_eq_some_iff hs hg, halone] at hn
    cases hn
  have hsame := (h.mem_of_iff_undisturbed hs hg hg' hp).2 hundisturbed
  refine Option.ext fun n => ?_
  rw [Correspondence.partner?_eq_some_iff hs hg, Correspondence.partner?_eq_some_iff hs hg']
  constructor
  · intro hn
    exact (hsame m (h.mem_nodes_iff.1 (Pairing.mem_nodes_of hs hg' hn).1) n).1 hn
  · intro hn
    exact (hsame m (Pairing.mem_nodes_of hs hg hn).1 n).2 hn

theorem not_mem_of (n : ν) : (f p, n) ∉ Pairing.of start goal' := by
  rw [← Correspondence.partner?_eq_some_iff hs hg', h.partner?_eq hs hg hg' hp halone, halone]
  exact fun hn => nomatch hn

/-- The new node has no partner either. -/
theorem partner?_new : (Correspondence.of start goal').partner? x = none := by
  refine Option.eq_none_iff_forall_ne_some.2 fun n hn => ?_
  rw [Correspondence.partner?_eq_some_iff hs hg',
    Pairing.mem_of_child_iff hs hg' (h.mem_nodes_iff.2 hp) (h.new_mem_children hg')] at hn
  rcases hn with hid | ⟨n', hn', -⟩
  · exact h.not_identified hid
  · exact h.not_mem_of hs hg hg' hp halone n' hn'

theorem changedParent_eq {m : μ} (hm : m ∈ goal.descendants) :
    Pairing.changedParent start goal' (Pairing.of start goal') (f m) =
      Pairing.changedParent start goal (Pairing.of start goal) m := by
  have hpartner : ∀ m, (Pairing.of start goal').partner? (f m) = (Pairing.of start goal).partner? m :=
    h.partner?_eq hs hg hg' hp halone
  unfold Pairing.changedParent
  rw [hpartner, h.parent_eq hg hg' hm, Option.bind_map]
  simp only [Function.comp_def, hpartner]

/-- The same nodes changed their parents. -/
theorem mem_displaced_iff (m : μ) : f m ∈ Pairing.displaced start goal' (Pairing.of start goal') ↔
    m ∈ Pairing.displaced start goal (Pairing.of start goal) := by
  rw [Pairing.displaced, Pairing.displaced, List.mem_filter, List.mem_filter, h.mem_descendants_iff hg hg']
  exact and_congr_right fun hm => by rw [h.changedParent_eq hs hg hg' hp halone hm]

/-- The same nodes are out of order below every node. -/
theorem outOfOrder_eq (m : μ) :
    Pairing.outOfOrder start goal' (Pairing.of start goal') (Pairing.displaced start goal' (Pairing.of start goal'))
      (f m) = (Pairing.outOfOrder start goal (Pairing.of start goal)
        (Pairing.displaced start goal (Pairing.of start goal)) m).map f := by
  have hpartner : ∀ m, (Pairing.of start goal').partner? (f m) = (Pairing.of start goal).partner? m :=
    h.partner?_eq hs hg hg' hp halone
  by_cases hm : m = p
  · -- the order of the children of an unpaired node does not matter
    subst hm
    have hnone : (Pairing.of start goal).partner? m = none := halone
    unfold Pairing.outOfOrder
    rw [hpartner, hnone]
    rfl
  · refine Pairing.outOfOrder_map (k := id) (h.children m hm) (fun n c _ => by rw [hpartner]; rfl)
      (fun c _ => h.mem_displaced_iff hs hg hg' hp halone c) ?_
    rw [hpartner, Option.map_id_fun, id]

/-- The same nodes moved. -/
theorem mem_moved_iff (m : μ) :
    f m ∈ (Correspondence.of start goal').moved ↔ m ∈ (Correspondence.of start goal).moved := by
  show f m ∈ Pairing.moves start goal' (Pairing.of start goal') ↔ m ∈ Pairing.moves start goal (Pairing.of start goal)
  rw [Pairing.moves_eq hg, Pairing.moves_eq hg', List.mem_append, List.mem_append,
    h.mem_displaced_iff hs hg hg' hp halone, List.mem_flatMap, List.mem_flatMap]
  refine or_congr_right ?_
  constructor
  · rintro ⟨k, hk, hm⟩
    rcases (h.mem_nodes k).1 hk with rfl | ⟨c, hc, rfl⟩
    · have hnone : (Pairing.of start goal').partner? k = none := h.partner?_new hs hg hg' hp halone
      unfold Pairing.outOfOrder at hm
      rw [hnone] at hm
      cases hm
    · rw [h.outOfOrder_eq hs hg hg' hp halone, List.mem_map_of_injective h.injective] at hm
      exact ⟨c, hc, hm⟩
  · rintro ⟨k, hk, hm⟩
    refine ⟨f k, h.mem_nodes_iff.2 hk, ?_⟩
    rw [h.outOfOrder_eq hs hg hg' hp halone]
    exact List.mem_map_of_mem hm

/-- The same nodes count as added. -/
theorem mem_added_iff (m : μ) : f m ∈ (Correspondence.of start goal').added start goal' ↔
    m ∈ (Correspondence.of start goal).added start goal := by
  have hmoved : (Correspondence.of start goal').hasMoved (f m) = (Correspondence.of start goal).hasMoved m :=
    decide_eq_decide.2 (h.mem_moved_iff hs hg hg' hp halone m)
  have hadded : (Correspondence.of start goal').isAdded start goal' (f m) =
      (Correspondence.of start goal).isAdded start goal m := by
    unfold Correspondence.isAdded
    rw [h.partner?_eq hs hg hg' hp halone, hmoved, h.label]
  rw [Correspondence.added, Correspondence.added, List.mem_filter, List.mem_filter, h.mem_nodes_iff, hadded]

end View.Extends

/-! ## The first pass -/

section FirstPass

variable {policy : Policy} {l : Label} {r : String}

/-- A child that is left by the first pass was one that is no leftover. -/
theorem exists_of_pruneSlots {s : List (Slot Tree)} {j : Nat} {v : Tree}
    (h : (pruneSlots policy s)[j]?.bind Slot.child = some v) : ∃ a r u b, s = a ++ ⟨r, some u⟩ :: b ∧
      (pruneSlots policy a).length = j ∧ isLeftover policy (pruneLeftovers policy u) = false ∧
        pruneLeftovers policy u = v := by
  induction s generalizing j with
  | nil => cases h
  | cons c s ih =>
    obtain ⟨r₀, _ | t⟩ := c
    · cases j with
      | zero => cases h
      | succ j =>
        obtain ⟨a, r, u, b, rfl, hlen, hsays, hv⟩ := ih h
        exact ⟨⟨r₀, none⟩ :: a, r, u, b, rfl, congrArg (· + 1) hlen, hsays, hv⟩
    · rw [pruneSlots] at h
      by_cases hleft : isLeftover policy (pruneLeftovers policy t) = true
      · rw [if_pos hleft] at h
        obtain ⟨a, r, u, b, rfl, hlen, hsays, hv⟩ := ih h
        refine ⟨⟨r₀, some t⟩ :: a, r, u, b, rfl, ?_, hsays, hv⟩
        rw [pruneSlots, if_pos hleft, hlen]
      · rw [if_neg hleft] at h
        cases j with
        | zero => exact ⟨[], r₀, t, s, rfl, rfl, Bool.eq_false_of_not_eq_true hleft, Option.some.inj h⟩
        | succ j =>
          obtain ⟨a, r, u, b, rfl, hlen, hsays, hv⟩ := ih h
          refine ⟨⟨r₀, some t⟩ :: a, r, u, b, rfl, ?_, hsays, hv⟩
          rw [pruneSlots, if_neg hleft, List.length_cons, hlen]

section Child

variable {a b : List (Slot Tree)} {u : Tree} (hu : isLeftover policy (pruneLeftovers policy u) = false)
include hu

theorem pruneSlots_append_cons :
    pruneSlots policy (a ++ ⟨r, some u⟩ :: b) =
      pruneSlots policy a ++ ⟨r, some (pruneLeftovers policy u)⟩ :: pruneSlots policy b := by
  rw [pruneSlots_append, pruneSlots, if_neg (by simp [hu])]

/-- Where a child that is left stood. -/
theorem origin_of_pruneSlots {t : Tree} (ht : t.slots = a ++ ⟨r, some u⟩ :: b) (q : Position) :
    t.origin (saysSomething policy t) ((pruneSlots policy a).length :: q) =
      a.length :: u.origin (saysSomething policy u) q := by
  have hchild : t.subtree? [a.length] = some u := by simp [subtree?, ht]
  have hsays : ∀ q, saysSomething policy t ([a.length] ++ q) = saysSomething policy u q := by
    intro q
    rw [saysSomething, subtree?_append, hchild]
    rfl
  -- the slots before it that are left are those of the pruned tree
  have hbefore : pruneSlots policy a = restrictSlots (saysSomething policy t) [] 0 a := by
    refine pruneSlots_eq_restrictSlots fun i w hw => ?_
    have hi : t.subtree? ([] ++ [0 + i]) = some w := by
      obtain ⟨c, hc, hw⟩ := Option.bind_eq_some_iff.1 hw
      obtain ⟨hlt, -⟩ := List.getElem?_eq_some_iff.1 hc
      simp [subtree?, ht, List.getElem?_append_left hlt, hc, hw]
    exact ⟨by rw [saysSomething, hi]; rfl, pruneLeftovers_of_subtree? w hi⟩
  have hlen : (pruneSlots policy a).length = (leftSlots (saysSomething policy t) [] 0 a).length := by
    rw [hbefore, restrictSlots_eq, List.length_map]
  have hkeep : saysSomething policy t [a.length] = true := by
    rw [saysSomething, hchild, Option.any_some, hu]
    rfl
  have hslot : (leftSlots (saysSomething policy t) [] 0 t.slots)[(pruneSlots policy a).length]? =
      some (⟨r, some u⟩, a.length) := by
    rw [ht, leftSlots, List.zipIdx_append, List.filter_append, List.zipIdx_cons,
      List.filter_cons_of_pos (by simp [hkeep]), hlen, leftSlots, List.getElem?_append_right le_rfl,
      Nat.sub_self, List.getElem?_cons_zero, Nat.zero_add]
  refine origin_append (q := [(pruneSlots policy a).length]) hchild hsays ?_ q
  exact leftChild_eq (p := []) rfl hslot rfl

end Child

/-- With one more slot, a tree still says something. -/
theorem isLeftover_insertSlot {s : Slot Tree} {i : Nat} {v : Tree} (hv : isLeftover policy v = false) (q : Position) :
    isLeftover policy (v.insertSlot s i q) = false := by
  have hlabel : (v.insertSlot s i q).label = v.label := by
    cases v
    cases q <;> rfl
  have hempty : (v.insertSlot s i q).slots.isEmpty = true → v.slots.isEmpty = true := by
    cases v
    cases q <;> simp [insertSlot, slots]
  rw [isLeftover, Bool.or_eq_false_iff] at hv ⊢
  rw [hlabel]
  refine ⟨hv.1, ?_⟩
  cases he : (v.insertSlot s i q).slots.isEmpty with
  | false => rfl
  | true => rw [← hempty he, hv.2]

/-- What says something is left by the first pass below a node that is left. -/
theorem pruneLeftovers_insertSlot_left {i : Nat} (hleaf : isLeftover policy (.leaf l) = false) (q : Position) :
    ∀ {t : Tree}, q ∈ (pruneLeftovers policy t).positions → t.HasRoom (t.origin (saysSomething policy t) q) i →
      ∃ j, (pruneLeftovers policy t).HasRoom q j ∧
        pruneLeftovers policy (t.insertSlot ⟨r, some (.leaf l)⟩ i (t.origin (saysSomething policy t) q)) =
          (pruneLeftovers policy t).insertSlot ⟨r, some (.leaf l)⟩ j q := by
  have hpruned : pruneLeftovers policy (.leaf l) = .leaf l := rfl
  -- the way to the node in the pruned tree is followed; it tells the way in the tree as it was
  induction q with
  | nil =>
    intro t _ _
    obtain ⟨l₀, s⟩ := t
    have hslots : pruneSlots policy s = pruneSlots policy (s.take i) ++ pruneSlots policy (s.drop i) := by
      rw [← pruneSlots_append, List.take_append_drop]
    refine ⟨(pruneSlots policy (s.take i)).length, ⟨_, rfl, ?_⟩, ?_⟩
    · show _ ≤ (pruneSlots policy s).length
      rw [hslots, List.length_append]
      exact Nat.le_add_right _ _
    · show Tree.node l₀ (pruneSlots policy (s.take i ++ ⟨r, some (.leaf l)⟩ :: s.drop i)) = _
      rw [pruneSlots_append_cons (by rwa [hpruned]), hpruned, pruneLeftovers, insertSlot, hslots, List.take_left,
        List.drop_left]
  | cons j q ih =>
    intro t hq hroom
    obtain ⟨l₀, s⟩ := t
    obtain ⟨v, hv⟩ := Option.isSome_iff_exists.1 (mem_positions.1 hq)
    obtain ⟨w, hw, hv⟩ := Option.bind_eq_some_iff.1 hv
    have hslot : (pruneSlots policy s)[j]?.bind Slot.child = some w := hw
    obtain ⟨a, r₀, u, b, rfl, rfl, hsays, rfl⟩ := exists_of_pruneSlots hslot
    rw [origin_of_pruneSlots hsays rfl] at hroom ⊢
    obtain ⟨u', hu', hroom⟩ := hroom.exists_child
    obtain rfl : u = u' := by simpa [slots] using hu'
    have hq : q ∈ (pruneLeftovers policy u).positions := by
      rw [mem_positions, hv]
      rfl
    obtain ⟨j, ⟨v', hv', hj⟩, hinsert⟩ := ih hq hroom
    refine ⟨j, ⟨v', ?_, hj⟩, ?_⟩
    · rw [subtree?, hw]
      exact hv'
    · rw [insertSlot, modify_length_append, pruneLeftovers, pruneLeftovers, insertSlot, pruneSlots_append_cons hsays,
        modify_length_append]
      have hsays' : isLeftover policy (pruneLeftovers policy (u.insertSlot ⟨r, some (.leaf l)⟩ i
          (u.origin (saysSomething policy u) q))) = false := by
        rw [hinsert]
        exact isLeftover_insertSlot hsays q
      show Tree.node l₀ (pruneSlots policy (a ++ ⟨r₀, some (u.insertSlot _ i _)⟩ :: b)) = _
      rw [pruneSlots_append_cons hsays', hinsert]
      rfl

end FirstPass

/-! ## The second pass -/

/-- Whether the node at a position loses its attachments. -/
def losesAttached (isAdded : Position → Bool) (p : Position) : Bool :=
  !p.isEmpty && isAdded p

section SecondPass

variable {policy : Policy} {isAdded isAdded' : Position → Bool}

theorem detachSlots_append (here : Position) : ∀ (n : Nat) (a b : List (Slot Tree)),
    detachSlots policy isAdded here n (a ++ b) =
      detachSlots policy isAdded here n a ++ detachSlots policy isAdded here (n + a.length) b
  | _, [], _ => rfl
  | n, ⟨r, none⟩ :: a, b => by
    rw [List.cons_append, detachSlots, detachSlots, detachSlots_append here (n + 1) a b, List.cons_append,
      List.length_cons, Nat.add_assoc, Nat.add_comm 1]
  | n, ⟨r, some t⟩ :: a, b => by
    rw [List.cons_append, detachSlots, detachSlots, detachSlots_append here (n + 1) a b, List.cons_append,
      List.length_cons, Nat.add_assoc, Nat.add_comm 1]

theorem detachFrom_leaf (here : Position) (l : Label) : detachFrom policy isAdded here (.leaf l) = .leaf l := by
  rw [leaf, detachFrom, detachSlots, List.filter_nil, ite_self]

theorem exists_append_of_child {s : List (Slot Tree)} {k : Nat} {u : Tree} (h : s[k]?.bind Slot.child = some u) :
    ∃ a r b, s = a ++ ⟨r, some u⟩ :: b ∧ a.length = k := by
  obtain ⟨⟨r, c⟩, hc, hu⟩ := Option.bind_eq_some_iff.1 h
  obtain rfl : c = some u := hu
  obtain ⟨hlt, hget⟩ := List.getElem?_eq_some_iff.1 hc
  refine ⟨s.take k, r, s.drop (k + 1), ?_, List.length_take_of_le hlt.le⟩
  rw [← hget, List.getElem_cons_drop, List.take_append_drop]

mutual

/-- What is detached depends only on which nodes lose attachments. -/
theorem detachFrom_congr (here here' : Position) : ∀ t : Tree,
    (∀ q, losesAttached isAdded' (here' ++ q) = losesAttached isAdded (here ++ q)) →
    detachFrom policy isAdded' here' t = detachFrom policy isAdded here t
  | .node l s, h => by
    have hhere : losesAttached isAdded' here' = losesAttached isAdded here := by
      have hnil := h []
      rwa [List.append_nil, List.append_nil] at hnil
    have hslots := detachSlots_congr here here' 0 0 s fun m _ q => h ((0 + m) :: q)
    rw [losesAttached, losesAttached] at hhere
    rw [detachFrom, detachFrom, hslots, hhere]

theorem detachSlots_congr (here here' : Position) (n n' : Nat) : ∀ s : List (Slot Tree),
    (∀ m < s.length, ∀ q, losesAttached isAdded' (here' ++ (n' + m) :: q) =
      losesAttached isAdded (here ++ (n + m) :: q)) →
    detachSlots policy isAdded' here' n' s = detachSlots policy isAdded here n s
  | [], _ => rfl
  | ⟨r, none⟩ :: s, h => by
    rw [detachSlots, detachSlots, detachSlots_congr here here' (n + 1) (n' + 1) s fun m hm q => ?_]
    rw [Nat.add_assoc, Nat.add_assoc, Nat.add_comm 1]
    exact h (m + 1) (Nat.add_lt_add_right hm 1) q
  | ⟨r, some t⟩ :: s, h => by
    have hchild := detachFrom_congr (here ++ [n]) (here' ++ [n']) t fun q => by
      rw [List.append_assoc, List.append_assoc]
      exact h 0 (Nat.zero_lt_succ _) q
    rw [detachSlots, detachSlots, hchild, detachSlots_congr here here' (n + 1) (n' + 1) s fun m hm q => ?_]
    rw [Nat.add_assoc, Nat.add_assoc, Nat.add_comm 1]
    exact h (m + 1) (Nat.add_lt_add_right hm 1) q

end

/-- The second pass takes a new attachment out with the others. -/
theorem detachFrom_insertSlot {r : String} {l : Label} {j : Nat} (htype : policy.trimIfParentIsAdded l.type = true)
    (q : Position) : ∀ {t : Tree} {here : Position}, t.HasRoom q j → losesAttached isAdded (here ++ q) = true →
      (∀ k, losesAttached isAdded' (here ++ shifted j q k) = losesAttached isAdded (here ++ k)) →
      detachFrom policy isAdded' here (t.insertSlot ⟨r, some (.leaf l)⟩ j q) = detachFrom policy isAdded here t := by
  -- on the way to the node only the slot that leads there differs, at the node those behind the new slot are shifted
  induction q with
  | nil =>
    intro t here hroom hloses hsame
    obtain ⟨l₀, s⟩ := t
    obtain ⟨u, hu, hj⟩ := hroom
    obtain rfl : node l₀ s = u := Option.some.inj hu
    rw [List.append_nil] at hloses
    have hloses' : losesAttached isAdded' here = true := by
      have hnil := hsame []
      rwa [shifted_nil, List.append_nil, hloses] at hnil
    have hleaf : isAttached policy ⟨r, some (.leaf l)⟩ = true := by
      simp [isAttached, leaf, label, slots, htype]
    have hslots : detachSlots policy isAdded here 0 s = detachSlots policy isAdded here 0 (s.take j) ++
        detachSlots policy isAdded here (0 + (s.take j).length) (s.drop j) := by
      rw [← detachSlots_append, List.take_append_drop]
    have hlen : (s.take j).length = j := List.length_take_of_le (show j ≤ s.length from hj)
    have hbefore : detachSlots policy isAdded' here 0 (s.take j) = detachSlots policy isAdded here 0 (s.take j) := by
      refine detachSlots_congr _ _ _ _ _ fun m hm k => ?_
      rw [← hsame, shifted, if_pos (by omega)]
    have hbehind : detachSlots policy isAdded' here (0 + (s.take j).length + 1) (s.drop j) =
        detachSlots policy isAdded here (0 + (s.take j).length) (s.drop j) := by
      refine detachSlots_congr _ _ _ _ _ fun m hm k => ?_
      rw [← hsame, shifted, if_neg (by omega), Nat.add_right_comm]
    rw [losesAttached] at hloses hloses'
    rw [insertSlot, detachFrom, detachFrom, hloses, hloses', hslots, detachSlots_append, detachSlots, detachFrom_leaf,
      hbefore, hbehind]
    rw [if_pos rfl, if_pos rfl, List.filter_append, List.filter_append,
      List.filter_cons_of_neg (by simp [hleaf])]
  | cons k q ih =>
    intro t here hroom hloses hsame
    obtain ⟨l₀, s⟩ := t
    obtain ⟨u, hu, hroom'⟩ := hroom.exists_child
    obtain ⟨a, r₀, b, rfl, rfl⟩ := exists_append_of_child hu
    have hhere : losesAttached isAdded' here = losesAttached isAdded here := by
      have hnil := hsame []
      rwa [shifted_nil, List.append_nil] at hnil
    have hchild : detachFrom policy isAdded' (here ++ [a.length]) (u.insertSlot ⟨r, some (.leaf l)⟩ j q) =
        detachFrom policy isAdded (here ++ [a.length]) u := by
      refine ih hroom' (by rwa [List.append_assoc]) fun m => ?_
      have hm := hsame (a.length :: m)
      rw [shifted, if_pos rfl] at hm
      rwa [List.append_assoc, List.append_assoc]
    have hbefore : detachSlots policy isAdded' here 0 a = detachSlots policy isAdded here 0 a := by
      refine detachSlots_congr _ _ _ _ _ fun m hm k => ?_
      rw [← hsame, shifted, if_neg (by omega)]
    have hbehind : detachSlots policy isAdded' here (a.length + 1) b =
        detachSlots policy isAdded here (a.length + 1) b := by
      refine detachSlots_congr _ _ _ _ _ fun m hm k => ?_
      rw [← hsame, shifted, if_neg (by omega)]
    rw [losesAttached, losesAttached] at hhere
    rw [insertSlot, modify_length_append, Slot.map, Option.map_some, detachFrom, detachFrom, detachSlots_append,
      detachSlots_append, detachSlots, detachSlots, Nat.zero_add, hchild, hbefore, hbehind, hhere]

end SecondPass

/-! ## Both passes -/

section Prune

variable {policy : Policy} {start goal t : Tree} {p q : Position} {i j : Nat} {r : String} {l : Label}

/-- An attachment below a node without a partner leaves no trace after the second pass. -/
theorem detach_insertSlot (halone : (Correspondence.of start.view t.view).partner? q = none) (hroom : t.HasRoom q j)
    (hid : l.id = none) (htype : policy.trimIfParentIsAdded l.type = true) :
    detach start.view policy (t.insertSlot ⟨r, some (.leaf l)⟩ j q) = detach start.view policy t := by
  have hs := start.view_lawful
  have hq : q ∈ t.view.nodes := by
    rw [view_nodes]
    exact hroom.mem_positions
  have hsame := (extends_insertSlot (r := r) hroom hid).mem_added_iff hs t.view_lawful (view_lawful _) hq halone
  have hbelow : q ≠ [] := by
    rintro rfl
    have hroots := (Correspondence.partner?_eq_some_iff hs t.view_lawful).2 (Pairing.roots_mem hs t.view_lawful)
    rw [show t.view.root = [] from rfl, halone] at hroots
    cases hroots
  have hadded : q ∈ (Correspondence.of start.view t.view).added start.view t.view := by
    refine List.mem_filter.2 ⟨hq, ?_⟩
    rw [Correspondence.isAdded, halone]
  refine detachFrom_insertSlot htype q hroom ?_ fun k => ?_
  · simp [losesAttached, hbelow, hadded]
  · have hempty : (shifted j q k).isEmpty = k.isEmpty := by
      rw [Bool.eq_iff_iff, List.isEmpty_iff, List.isEmpty_iff, shifted_eq_nil_iff]
    rw [List.nil_append, List.nil_append, losesAttached, losesAttached, hempty, decide_eq_decide.2 (hsame k)]

/-- A childless node without an id of a type that the editor attaches leaves no trace in the pruned tree, wherever it
stands below a node that is left by the first pass without a partner. -/
theorem prune_attachment (hq : q ∈ (pruneLeftovers policy goal).positions)
    (hp : goal.origin (saysSomething policy goal) q = p)
    (halone : (Correspondence.of start.view (pruneLeftovers policy goal).view).partner? q = none)
    (hroom : goal.HasRoom p i) (hid : l.id = none) (htype : policy.trimIfParentIsAdded l.type = true) :
    let goal' := goal.insertSlot ⟨r, some (.leaf l)⟩ i p
    prune policy start goal' = prune policy start goal ∧
    (let (g, n, m) := Grove.side start goal'
      ∃ g', g.prune policy n m = .ok g' ∧ g'.tree m = prune policy start goal ∧ g'.tree n = start) := by
  intro goal'
  have hsame : prune policy start goal' = prune policy start goal := by
    cases hleaf : isLeftover policy (.leaf l) with
    | true =>
      -- the first pass takes it out
      rw [prune, pruneAgainst, pruneLeftovers_insertSlot (isLeftover_leaf rfl hleaf)]
      rfl
    | false =>
      subst hp
      obtain ⟨j, hroom', hpruned⟩ := pruneLeftovers_insertSlot_left hleaf q hq hroom
      rw [prune, pruneAgainst, hpruned, detach_insertSlot halone hroom' hid htype]
      rfl
  refine ⟨hsame, ?_⟩
  rw [← hsame]
  exact Grove.prune_side policy start goal'

/-- A literal in front of a block that moved into a new loop leaves no trace, nor does an empty script before that. -/
theorem prune_attachment_of_loop :
    let policy : Policy := { trimIfChildlessTypes := ["script"], trimIfParentIsAddedTypes := ["literal"] }
    let start : Tree := .node ⟨"script", none, some "s"⟩ [⟨"0", some (.leaf ⟨"move", none, some "m"⟩)⟩]
    let goal : Tree := .node ⟨"script", none, some "s"⟩ [⟨"0", some (.leaf ⟨"script", none, none⟩)⟩,
      ⟨"1", some (.node ⟨"loop", none, none⟩ [⟨"0", some (.leaf ⟨"move", none, some "m"⟩)⟩])⟩]
    let goal' : Tree := .node ⟨"script", none, some "s"⟩ [⟨"0", some (.leaf ⟨"script", none, none⟩)⟩,
      ⟨"1", some (.node ⟨"loop", none, none⟩
        [⟨"count", some (.leaf ⟨"literal", some "3", none⟩)⟩, ⟨"0", some (.leaf ⟨"move", none, some "m"⟩)⟩])⟩]
    prune policy start goal' = prune policy start goal ∧
    (let (g, n, m) := Grove.side start goal'
      ∃ g', g.prune policy n m = .ok g' ∧ g'.tree m = .node ⟨"script", none, some "s"⟩
        [⟨"1", some (.node ⟨"loop", none, none⟩ [⟨"0", some (.leaf ⟨"move", none, some "m"⟩)⟩])⟩]) := by
  intro policy start goal goal'
  have hroom : goal.HasRoom [1] 0 := ⟨_, rfl, by decide⟩
  have hq : [0] ∈ (pruneLeftovers policy goal).positions := by decide +kernel
  have hp : goal.origin (saysSomething policy goal) [0] = [1] := by decide +kernel
  have halone : (Correspondence.of start.view (pruneLeftovers policy goal).view).partner? [0] = none := by
    decide +kernel
  have hpruned : prune policy start goal = .node ⟨"script", none, some "s"⟩
      [⟨"1", some (.node ⟨"loop", none, none⟩ [⟨"0", some (.leaf ⟨"move", none, some "m"⟩)⟩])⟩] := by
    decide +kernel
  obtain ⟨hsame, g', hg', htree, -⟩ := prune_attachment (r := "count") (l := ⟨"literal", some "3", none⟩) hq hp halone
    hroom rfl (by decide)
  exact ⟨hsame, g', hg', htree.trans hpruned⟩

end Prune

end HintQuality
