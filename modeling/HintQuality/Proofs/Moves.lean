import HintQuality.Proofs.Increasing
import HintQuality.Proofs.Pairing
/-!
# What stays in place

A goal node is in place if it has a partner and did not move, and a start node is kept if its partner is in place.
Children in place are partners of children of their parent's partner (`parents_of_inPlace`), and below a pair of
nodes they are all the kept children, in the order of the start (`partners_inPlace`).
-/

namespace HintQuality

variable {μ ν : Type} [DecidableEq μ] [DecidableEq ν] {start : View ν} {goal : View μ}

namespace Pairing

variable {ps : Pairing μ ν} {moved : List μ} {m c : μ} {n d : ν}

/-! ## Moves below one node -/

/-- The nodes below the root whose parent changed. -/
def displaced (start : View ν) (goal : View μ) (ps : Pairing μ ν) : List μ :=
  goal.descendants.filter (changedParent start goal ps)

theorem mem_keptChildren {i : Nat} : (c, i) ∈ keptChildren start goal ps moved m n ↔
    c ∈ goal.children m ∧ c ∉ moved ∧ (ps.partner? c).bind (start.lastSlot? n) = some i := by
  unfold keptChildren
  rw [List.mem_filterMap]
  constructor
  · rintro ⟨k, hk, h⟩
    split at h
    · cases h
    · rename_i hmoved
      obtain ⟨j, hj, e⟩ := Option.map_eq_some_iff.1 h
      obtain ⟨rfl, rfl⟩ := Prod.mk.inj e
      exact ⟨hk, hmoved, hj⟩
  · rintro ⟨hc, hmoved, hi⟩
    exact ⟨c, hc, by rw [if_neg hmoved, hi]; rfl⟩

/-- Only children are found out of order below a node. -/
theorem mem_children_of_outOfOrder (h : c ∈ outOfOrder start goal ps moved m) : c ∈ goal.children m := by
  unfold outOfOrder at h
  split at h
  · cases h
  · rename_i n hn
    obtain ⟨⟨⟨k, i⟩, j⟩, hk, rfl⟩ := List.mem_map.1 h
    have hmem := List.fst_mem_of_mem_zipIdx (List.mem_filter.1 hk).1
    exact (mem_keptChildren.1 hmem).1

/-- Only nodes that have a partner are found out of order. -/
theorem exists_partner_of_outOfOrder (h : c ∈ outOfOrder start goal ps moved m) : ∃ d, ps.partner? c = some d := by
  unfold outOfOrder at h
  split at h
  · cases h
  · obtain ⟨⟨⟨k, i⟩, j⟩, hk, rfl⟩ := List.mem_map.1 h
    have hmem := List.fst_mem_of_mem_zipIdx (List.mem_filter.1 hk).1
    obtain ⟨d, hd, -⟩ := Option.bind_eq_some_iff.1 (mem_keptChildren.1 hmem).2.2
    exact ⟨d, hd⟩

/-- Nodes are found out of order among the kept children. -/
theorem outOfOrder_sublist (hn : ps.partner? m = some n) : (outOfOrder start goal ps moved m).Sublist
    ((keptChildren start goal ps moved m n).map Prod.fst) := by
  have hfst := congrArg (List.map Prod.fst) (List.zipIdx_map_fst 0 (keptChildren start goal ps moved m n))
  rw [List.map_map] at hfst
  unfold outOfOrder
  rw [hn, ← hfst]
  exact List.filter_sublist.map _

/-- What is out of order below a node depends only on which of its children moved before. -/
theorem outOfOrder_congr {moved' : List μ} (h : ∀ c ∈ goal.children m, c ∈ moved ↔ c ∈ moved') :
    outOfOrder start goal ps moved m = outOfOrder start goal ps moved' m := by
  unfold outOfOrder keptChildren
  split
  · rfl
  · rw [List.filterMap_congr fun c hc => by rw [if_congr (h c hc) rfl rfl]]

/-- The nodes that moved are those whose parent changed and those out of order, each by what is out of order among
its siblings alone. -/
theorem moves_eq (hg : goal.Lawful) : moves start goal ps =
    displaced start goal ps ++ goal.nodes.flatMap (outOfOrder start goal ps (displaced start goal ps)) := by
  refine foldl_prefix_invariant (P := fun pre moved => moved =
    displaced start goal ps ++ pre.flatMap (outOfOrder start goal ps (displaced start goal ps))) ?_ ?_
  · simp [displaced]
  · rintro pre m post moved hl rfl
    have hm : m ∈ goal.nodes := by rw [hl]; simp
    have hpre : m ∉ pre := fun hp => by
      have hnd := hg.nodup
      rw [hl] at hnd
      exact (List.disjoint_of_nodup_append hnd) hp (by simp)
    rw [List.flatMap_append, List.append_assoc, List.flatMap_singleton]
    congr 2
    refine outOfOrder_congr fun c hc => ⟨fun h => ?_, fun h => List.mem_append_left _ h⟩
    refine (List.mem_append.1 h).resolve_right fun h => ?_
    -- only below its parent can a node be out of order
    obtain ⟨k, hk, hck⟩ := List.mem_flatMap.1 h
    have hkn : k ∈ goal.nodes := by rw [hl]; exact List.mem_append_left _ hk
    rw [hg.parent_unique hkn hm (mem_children_of_outOfOrder hck) hc] at hk
    exact hpre hk

/-- Children with a slot of their own partner's are kept in order. -/
theorem pair_sublist_keptChildren {c' : μ} {d' : ν} {i i' : Nat} (hcc : [c, c'].Sublist (goal.children m))
    (hc : c ∉ moved) (hc' : c' ∉ moved) (hd : ps.partner? c = some d) (hd' : ps.partner? c' = some d')
    (hi : start.lastSlot? n d = some i) (hi' : start.lastSlot? n d' = some i') :
    [(c, i), (c', i')].Sublist (keptChildren start goal ps moved m n) := by
  have h := hcc.filterMap fun c => if c ∈ moved then none else ((ps.partner? c).bind (start.lastSlot? n)).map (c, ·)
  rwa [List.filterMap_cons_some (by rw [if_neg hc, hd, Option.bind_some, hi]; rfl),
    List.filterMap_cons_some (by rw [if_neg hc', hd', Option.bind_some, hi']; rfl), List.filterMap_nil] at h

/-- Kept children that are not out of order stand in the order of their partners' slots. -/
theorem lastSlot_lt_of_inOrder (hn : ps.partner? m = some n) {c' : μ} {i i' : Nat}
    (hpair : [(c, i), (c', i')].Sublist (keptChildren start goal ps moved m n))
    (hc : c ∉ outOfOrder start goal ps moved m) (hc' : c' ∉ outOfOrder start goal ps moved m) : i < i' := by
  have hstay : ∀ {k : μ} {i j : Nat}, (keptChildren start goal ps moved m n)[j]? = some (k, i) →
      k ∉ outOfOrder start goal ps moved m →
        j ∈ Increasing.longest ((keptChildren start goal ps moved m n).map fun k => (k.2 : Int)) := by
    intro k i j hj hk
    by_contra hout
    refine hk ?_
    unfold outOfOrder
    rw [hn]
    refine List.mem_map.2 ⟨((k, i), j), List.mem_filter.2 ⟨?_, by simpa using hout⟩, rfl⟩
    exact List.mk_mem_zipIdx_iff_getElem?.2 hj
  obtain ⟨j, j', hjj, hj, hj'⟩ := exists_getElem?_of_pair_sublist hpair
  have := Increasing.lt_of_mem_longest (hstay hj hc) (hstay hj' hc') hjj (x := (i : Int)) (y := (i' : Int))
    (by rw [List.getElem?_map, hj]; rfl) (by rw [List.getElem?_map, hj']; rfl)
  omega

end Pairing

/-! ## Nodes in place -/

namespace Correspondence

/-- Whether a goal node has a partner and did not move. -/
def inPlace (c : Correspondence μ ν) (m : μ) : Bool :=
  (c.partner? m).isSome && !c.hasMoved m

/-- Whether a start node has a partner that did not move. -/
def isKept (c : Correspondence μ ν) (n : ν) : Bool :=
  c.pairs.any fun p => p.2 = n && !c.hasMoved p.1

omit [DecidableEq ν] in
theorem hasMoved_iff {c : Correspondence μ ν} {m : μ} : c.hasMoved m = true ↔ m ∈ c.moved :=
  decide_eq_true_iff

omit [DecidableEq ν] in
theorem inPlace_iff {c : Correspondence μ ν} {m : μ} :
    c.inPlace m = true ↔ (∃ n, c.partner? m = some n) ∧ m ∉ c.moved := by
  simp [inPlace, hasMoved, Option.isSome_iff_exists]

theorem isKept_iff {c : Correspondence μ ν} (hinj : c.pairs.Injective) {n : ν} :
    c.isKept n = true ↔ ∃ m, c.partner? m = some n ∧ c.inPlace m = true := by
  unfold isKept
  rw [List.any_eq_true]
  constructor
  · rintro ⟨⟨m, n'⟩, hmem, h⟩
    simp only [Bool.and_eq_true, decide_eq_true_eq, Bool.not_eq_true', hasMoved, decide_eq_false_iff_not] at h
    obtain ⟨rfl, hm⟩ := h
    have hp : c.partner? m = some n' := hinj.partner?_eq_some_iff.2 hmem
    exact ⟨m, hp, inPlace_iff.2 ⟨⟨n', hp⟩, hm⟩⟩
  · rintro ⟨m, hp, hm⟩
    refine ⟨(m, n), hinj.partner?_eq_some_iff.1 hp, ?_⟩
    simpa [hasMoved] using (inPlace_iff.1 hm).2

/-- Only nodes below the root move. -/
theorem mem_descendants_of_moved (hg : goal.Lawful) {m : μ} (h : m ∈ (of start goal).moved) :
    m ∈ goal.descendants := by
  have h' : m ∈ Pairing.moves start goal (Pairing.of start goal) := h
  rw [Pairing.moves_eq hg] at h'
  rcases List.mem_append.1 h' with h' | h'
  · exact (List.mem_filter.1 h').1
  · obtain ⟨k, hk, hm⟩ := List.mem_flatMap.1 h'
    exact hg.descendant_of_child hk (Pairing.mem_children_of_outOfOrder hm)

/-- Only nodes that have a partner move. -/
theorem exists_partner_of_moved (hg : goal.Lawful) {m : μ} (h : m ∈ (of start goal).moved) :
    ∃ n, (of start goal).partner? m = some n := by
  have h' : m ∈ Pairing.moves start goal (Pairing.of start goal) := h
  rw [Pairing.moves_eq hg] at h'
  rcases List.mem_append.1 h' with h' | h'
  · have hchanged := (List.mem_filter.1 h').2
    cases hp : (of start goal).partner? m with
    | none =>
      have hp' : (Pairing.of start goal).partner? m = none := hp
      simp [Pairing.changedParent, hp'] at hchanged
    | some n => exact ⟨n, rfl⟩
  · obtain ⟨k, -, hm⟩ := List.mem_flatMap.1 h'
    exact Pairing.exists_partner_of_outOfOrder hm

variable (hs : start.Lawful) (hg : goal.Lawful)
include hs hg

theorem partner?_eq_some_iff {m : μ} {n : ν} :
    (of start goal).partner? m = some n ↔ (m, n) ∈ Pairing.of start goal :=
  (Pairing.injective_of hs hg).partner?_eq_some_iff

theorem mem_nodes_of_partner? {m : μ} {n : ν} (h : (of start goal).partner? m = some n) :
    m ∈ goal.nodes ∧ n ∈ start.nodes :=
  Pairing.mem_nodes_of hs hg ((partner?_eq_some_iff hs hg).1 h)

/-- A child whose partner's parent is the partner of its own stands there. -/
theorem parents_of_not_changedParent {m c : μ} {d : ν} (hm : m ∈ goal.nodes) (hc : c ∈ goal.children m)
    (hsame : Pairing.changedParent start goal (Pairing.of start goal) c = false)
    (hd : (of start goal).partner? c = some d) : ∃ n, (of start goal).partner? m = some n ∧ d ∈ start.children n := by
  have hd' : (Pairing.of start goal).partner? c = some d := hd
  simp only [Pairing.changedParent, hd', hg.parent_of_child hm hc, Option.bind_some] at hsame
  cases hn : (Pairing.of start goal).partner? m with
  | none => simp [hn] at hsame
  | some n =>
    have hpar : start.parent d = some n := by simpa [hn] using hsame
    have hdn := (mem_nodes_of_partner? hs hg hd).2
    have hnn := (mem_nodes_of_partner? hs hg hn).2
    exact ⟨n, hn, hs.child_of_parent hnn hdn hpar⟩

/-- A node in place is a partner of a child of its parent's partner. -/
theorem parents_of_inPlace {m c : μ} {d : ν} (hm : m ∈ goal.nodes) (hc : c ∈ goal.children m)
    (hin : (of start goal).inPlace c = true) (hd : (of start goal).partner? c = some d) :
    ∃ n, (of start goal).partner? m = some n ∧ d ∈ start.children n := by
  have hmoved : c ∉ Pairing.moves start goal (Pairing.of start goal) := (inPlace_iff.1 hin).2
  rw [Pairing.moves_eq hg, List.mem_append, not_or] at hmoved
  refine parents_of_not_changedParent hs hg hm hc ?_ hd
  by_contra hch
  refine hmoved.1 (List.mem_filter.2 ⟨hg.descendant_of_child hm hc, ?_⟩)
  exact Bool.eq_true_of_not_eq_false hch

/-- Nodes in place keep the order of their partners. -/
theorem pair_sublist_of_inPlace {m c c' : μ} {n d d' : ν} (hn : (of start goal).partner? m = some n)
    (hcc : [c, c'].Sublist (goal.children m)) (hin : (of start goal).inPlace c = true)
    (hin' : (of start goal).inPlace c' = true) (hd : (of start goal).partner? c = some d)
    (hd' : (of start goal).partner? c' = some d') : [d, d'].Sublist (start.children n) := by
  have hmn := mem_nodes_of_partner? hs hg hn
  -- the slot of the partner of a child in place, and why the child is not out of order
  have hkept : ∀ {c d}, c ∈ goal.children m → (of start goal).inPlace c = true →
      (of start goal).partner? c = some d → d ∈ start.children n ∧
        (∃ i, start.lastSlot? n d = some i) ∧
        c ∉ Pairing.displaced start goal (Pairing.of start goal) ∧
        c ∉ Pairing.outOfOrder start goal (Pairing.of start goal)
          (Pairing.displaced start goal (Pairing.of start goal)) m := by
    intro c d hc hin hd
    obtain ⟨n', hn', hdn⟩ := parents_of_inPlace hs hg hmn.1 hc hin hd
    rw [hn] at hn'
    obtain rfl := Option.some.inj hn'
    obtain ⟨before, r, after, -, -, -, -, hslot⟩ := hs.exists_slot hmn.2 hdn
    have hmoved : c ∉ Pairing.moves start goal (Pairing.of start goal) := (inPlace_iff.1 hin).2
    rw [Pairing.moves_eq hg, List.mem_append, not_or] at hmoved
    exact ⟨hdn, ⟨_, hslot⟩, hmoved.1, fun h => hmoved.2 (List.mem_flatMap.2 ⟨m, hmn.1, h⟩)⟩
  obtain ⟨hdn, ⟨i, hi⟩, hdisp, hout⟩ := hkept (hcc.subset (by simp)) hin hd
  obtain ⟨hdn', ⟨i', hi'⟩, hdisp', hout'⟩ := hkept (hcc.subset (by simp)) hin' hd'
  refine hs.pair_sublist_of_lastSlot? hmn.2 hdn hdn' hi hi' ?_
  have hkeep := Pairing.pair_sublist_keptChildren hcc hdisp hdisp' hd hd' hi hi'
  exact Pairing.lastSlot_lt_of_inOrder hn hkeep hout hout'

/-- A kept child of a node has its partner in place below the node's partner. -/
theorem exists_inPlace_iff {m : μ} {n d : ν} (hn : (of start goal).partner? m = some n) :
    (∃ c ∈ goal.children m, (of start goal).inPlace c = true ∧ (of start goal).partner? c = some d) ↔
      d ∈ start.children n ∧ (of start goal).isKept d = true := by
  have hmn := mem_nodes_of_partner? hs hg hn
  have hinj : (of start goal).pairs.Injective := Pairing.injective_of hs hg
  constructor
  · rintro ⟨c, hc, hin, hd⟩
    obtain ⟨n', hn', hdn⟩ := parents_of_inPlace hs hg hmn.1 hc hin hd
    rw [hn] at hn'
    rw [Option.some.inj hn']
    exact ⟨hdn, (isKept_iff hinj).2 ⟨c, hd, hin⟩⟩
  · rintro ⟨hdn, hk⟩
    obtain ⟨c, hd, hin⟩ := (isKept_iff hinj).1 hk
    have hcd := (partner?_eq_some_iff hs hg).1 hd
    -- the partner of a child is no root, so it has a parent, whose partner is `n`
    have hcroot : c ≠ goal.root := fun e => by
      have hroot := (Pairing.root_iff hs hg hcd).1 e
      exact hs.root_not_mem (hroot ▸ hs.descendant_of_child hmn.2 hdn)
    have hcdesc := hg.mem_descendants.2 ⟨(Pairing.mem_nodes_of hs hg hcd).1, hcroot⟩
    obtain ⟨m', hm', -, hc, -⟩ := hg.child_of_descendant hcdesc
    obtain ⟨n', hn', hdn'⟩ := parents_of_inPlace hs hg hm' hc hin hd
    have hnn := (mem_nodes_of_partner? hs hg hn').2
    rw [hs.parent_unique hnn hmn.2 hdn' hdn] at hn'
    have hmm := hinj.eq_left ((partner?_eq_some_iff hs hg).1 hn') ((partner?_eq_some_iff hs hg).1 hn)
    rw [hmm] at hc
    exact ⟨c, hc, hin, hd⟩

/-- The partners of the children in place below a node are the kept children of its partner, in order. -/
theorem partners_inPlace {m : μ} {n : ν} (hn : (of start goal).partner? m = some n) :
    ((goal.children m).filter (of start goal).inPlace).filterMap (of start goal).partner? =
      (start.children n).filter (of start goal).isKept := by
  have hnode := (mem_nodes_of_partner? hs hg hn).2
  let kept := ((goal.children m).filter (of start goal).inPlace).filterMap (of start goal).partner?
  have hmem : ∀ d, d ∈ kept ↔ d ∈ start.children n ∧ (of start goal).isKept d = true := by
    intro d
    rw [← exists_inPlace_iff hs hg hn, List.mem_filterMap]
    refine exists_congr fun c => ?_
    rw [List.mem_filter, and_assoc]
  have hpairs : kept.Pairwise fun d d' => [d, d'].Sublist (start.children n) := by
    refine List.pairwise_filterMap.2 (List.pairwise_filter.2 (List.pairwise_iff_forall_sublist.2 ?_))
    intro c c' hcc hin hin' d hd d' hd'
    exact pair_sublist_of_inPlace hs hg hn hcc hin hin' hd hd'
  have hsub : kept.Sublist (start.children n) :=
    sublist_of_pairs (hs.nodup_children hnode) (fun d hd => ((hmem d).1 hd).1) hpairs
  calc kept = (start.children n).filter (· ∈ kept) := (filter_mem_of_sublist hsub (hs.nodup_children hnode)).symm
    _ = (start.children n).filter (of start goal).isKept := by
      refine List.filter_congr fun d hd => ?_
      rw [Bool.eq_iff_iff, decide_eq_true_iff, hmem]
      exact and_iff_right hd

end Correspondence

end HintQuality
