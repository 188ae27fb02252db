import HintQuality.Normalize
import HintQuality.Proofs.Moves
/-!
# Stability of normal values

Normalizing a tree gives each node the id of its start node, or none, and so changes what a second normalization pairs
by ids: every pair with a start node whose id is its own is now found by the id, and only the other children are
aligned again. The second normalization finds the same pairs, and so the same tree, exactly if aligning these fewer
children finds their pairs again below every pair of nodes (`normalizeValues_stable_iff`). It need not, as reordered
children without ids show (`not_stable_reordered`).
-/

namespace HintQuality

variable {μ ν : Type}

namespace Pairing

/-! ## Pairs of a goal that has its start nodes' ids -/

/-- A start node below the root whose id no other start node and not the root of the goal has. -/
def Settled (start : View ν) (goal : View μ) (n : ν) : Prop :=
  n ≠ start.root ∧ ∃ x ∈ (start.label n).id, start.withId x = [n] ∧ (goal.label goal.root).id ≠ some x

instance [DecidableEq ν] (start : View ν) (goal : View μ) (n : ν) : Decidable (Settled start goal n) :=
  inferInstanceAs (Decidable (_ ∧ ∃ x ∈ (start.label n).id, _))

variable {start : View ν} {goal adopted : View μ}

/-- A node that shares its id has a settled start node. -/
theorem Identified.settled {m : μ} {n : ν} (h : Identified start goal m n) : Settled start goal n := by
  obtain ⟨hm, hn, x, hmx, hnx⟩ := h
  refine ⟨hn, x, (id_of_withId hnx).2, hnx, fun hroot => hm ?_⟩
  have hmem : goal.root ∈ goal.withId x := mem_withId.2 ⟨View.Lawful.root_mem goal, hroot⟩
  rw [hmx, List.mem_singleton] at hmem
  exact hmem.symm

variable [DecidableEq μ] [DecidableEq ν]

/-- The pairs with settled start nodes. -/
def settledPairs (start : View ν) (goal : View μ) : Pairing μ ν :=
  (of start goal).filter fun p => Settled start goal p.2

theorem mem_settledPairs {m : μ} {n : ν} :
    (m, n) ∈ settledPairs start goal ↔ (m, n) ∈ of start goal ∧ Settled start goal n := by
  rw [settledPairs, List.mem_filter, decide_eq_true_iff]

/-- Below every pair of nodes, aligning only the children that are in no settled pair finds their pairs again. -/
def Realigns (start : View ν) (goal : View μ) : Prop :=
  ∀ m' n', (m', n') ∈ of start goal → ∀ m n, (m, n) ∈ childPairs start goal (settledPairs start goal) m' n' ↔
    (m, n) ∈ of start goal ∧ m ∈ goal.children m' ∧ ¬Settled start goal n

/-- The goal is the other one with the nodes below the root having the ids of their start nodes. -/
structure Adopted (start : View ν) (goal adopted : View μ) : Prop where
  /-- The same root. -/
  root : adopted.root = goal.root
  /-- The same nodes below it. -/
  descendants : adopted.descendants = goal.descendants
  /-- The same children. -/
  children : adopted.children = goal.children
  /-- The same types. -/
  type : ∀ m, (adopted.label m).type = (goal.label m).type
  /-- The same values. -/
  value : ∀ m, (adopted.label m).value = (goal.label m).value
  /-- The same id at the root. -/
  rootId : (adopted.label goal.root).id = (goal.label goal.root).id
  /-- The ids of the start nodes below the root. -/
  id : ∀ m ∈ goal.descendants, (adopted.label m).id = ((of start goal).partner? m).bind fun n => (start.label n).id

namespace Adopted

variable (h : Adopted start goal adopted)
include h

theorem nodes : adopted.nodes = goal.nodes := by
  rw [View.nodes, View.nodes, h.root, h.descendants]

theorem sameUpToIds : adopted.SameUpToIds goal :=
  ⟨h.root, h.descendants, h.children, h.type, h.value⟩

variable (hs : start.Lawful) (hg : goal.Lawful)
include hs hg

/-- An id of its own leads to a start node exactly from its partner. -/
theorem id_eq_some_iff {m : μ} {n : ν} {x : String} (hm : m ∈ goal.descendants) (hx : start.withId x = [n]) :
    (adopted.label m).id = some x ↔ (m, n) ∈ of start goal := by
  rw [h.id m hm, Option.bind_eq_some_iff]
  constructor
  · rintro ⟨n', hp, hid⟩
    have hpair := mem_of_partner? hp
    have hn' : n' ∈ start.withId x := mem_withId.2 ⟨(mem_nodes_of hs hg hpair).2, hid⟩
    rw [hx, List.mem_singleton] at hn'
    rwa [hn'] at hpair
  · intro hpair
    exact ⟨n, (injective_of hs hg).partner?_eq_some_iff.2 hpair, (id_of_withId hx).2⟩

/-- The nodes that share an id with a start node are now the settled pairs. -/
theorem identified_iff {m : μ} {n : ν} : Identified start adopted m n ↔ (m, n) ∈ settledPairs start goal := by
  rw [mem_settledPairs]
  constructor
  · rintro ⟨hm, hn, x, hmx, hnx⟩
    rw [h.root] at hm
    obtain ⟨hmem, hid⟩ := id_of_withId hmx
    rw [h.nodes] at hmem
    refine ⟨(h.id_eq_some_iff hs hg (hg.mem_descendants.2 ⟨hmem, hm⟩) hnx).1 hid, hn, x, (id_of_withId hnx).2, hnx,
      fun hroot => hm ?_⟩
    have hmem : goal.root ∈ adopted.withId x := by
      rw [mem_withId, h.nodes, h.rootId]
      exact ⟨View.Lawful.root_mem goal, hroot⟩
    rw [hmx, List.mem_singleton] at hmem
    exact hmem.symm
  · rintro ⟨hpair, hn, x, -, hnx, hroot⟩
    have hm : m ≠ goal.root := fun e => hn ((root_iff hs hg hpair).1 e)
    refine ⟨by rw [h.root]; exact hm, hn, x, ?_, hnx⟩
    have hmem : ∀ k, k ∈ adopted.withId x ↔ k ∈ [m] := by
      intro k
      rw [mem_withId, h.nodes, List.mem_singleton]
      constructor
      · rintro ⟨hk, hid⟩
        rcases List.mem_cons.1 hk with rfl | hkd
        · rw [h.rootId] at hid
          exact absurd hid hroot
        · exact (injective_of hs hg).eq_left ((h.id_eq_some_iff hs hg hkd hnx).1 hid) hpair
      · rintro rfl
        have hk := (mem_nodes_of hs hg hpair).1
        exact ⟨hk, (h.id_eq_some_iff hs hg (hg.mem_descendants.2 ⟨hk, hm⟩) hnx).2 hpair⟩
    have hnd : (adopted.withId x).Nodup := by
      unfold View.withId
      rw [h.nodes]
      exact hg.nodup.filter _
    exact List.perm_singleton.1 ((List.perm_ext_iff_of_nodup hnd (List.nodup_singleton m)).2 hmem)

variable (ha : adopted.Lawful)
include ha

/-- By ids, the roots and the settled pairs are paired. -/
theorem mem_byId_iff {m : μ} {n : ν} : (m, n) ∈ byId start adopted ↔
    (m = goal.root ∧ n = start.root) ∨ (m, n) ∈ settledPairs start goal := by
  rw [mem_byId ha, h.identified_iff hs hg, h.root]

/-- Only children in no settled pair are aligned. -/
theorem childPairs_byId {m : μ} {n : ν} (hm : m ∈ goal.nodes) (hn : n ∈ start.nodes) :
    Pairing.childPairs start adopted (byId start adopted) m n =
      Pairing.childPairs start goal (settledPairs start goal) m n := by
  rw [h.sameUpToIds.childPairs]
  exact childPairs_eq_of_roots hs hg hm hn fun _ _ => h.mem_byId_iff hs hg ha

/-- A child is paired again by its id, if its start node is settled, or else by the alignment of the children that
are in no settled pair. -/
theorem mem_of_child_iff_of_same {m m' : μ} {n : ν} (hm' : m' ∈ goal.nodes) (hm : m ∈ goal.children m')
    (hsame : ∀ n', (m', n') ∈ of start adopted ↔ (m', n') ∈ of start goal) :
    (m, n) ∈ of start adopted ↔ (m, n) ∈ settledPairs start goal ∨ ∃ n', (m', n') ∈ of start goal ∧
      (m, n) ∈ Pairing.childPairs start goal (settledPairs start goal) m' n' := by
  rw [mem_of_child_iff hs ha (by rw [h.nodes]; exact hm') (by rw [h.children]; exact hm), h.identified_iff hs hg]
  refine or_congr_right (exists_congr fun n' => ?_)
  rw [hsame]
  refine and_congr_right fun hp => ?_
  rw [h.childPairs_byId hs hg ha hm' (mem_nodes_of hs hg hp).2]

/-- If realigning finds the pairs again, they are the pairs of the goal with the start nodes' ids. -/
theorem mem_of_iff_of_realigns (hre : Realigns start goal) : ∀ m ∈ goal.nodes, ∀ n,
    (m, n) ∈ of start adopted ↔ (m, n) ∈ of start goal := by
  refine hg.induct (fun n => ?_) fun m' hm' m hm ih n => ?_
  · -- the root has one partner
    constructor
    · intro hp
      rw [(root_iff hs ha hp).1 h.root.symm]
      exact roots_mem hs hg
    · intro hp
      rw [(root_iff hs hg hp).1 rfl, ← h.root]
      exact roots_mem hs ha
  · rw [h.mem_of_child_iff_of_same hs hg ha hm' hm ih, mem_settledPairs]
    constructor
    · rintro (hp | ⟨n', hp', hc⟩)
      · exact hp.1
      · exact ((hre m' n' hp' m n).1 hc).1
    · intro hp
      by_cases hset : Settled start goal n
      · exact .inl ⟨hp, hset⟩
      · rcases (mem_of_child_iff hs hg hm' hm).1 hp with hid | ⟨n', hp', -⟩
        · exact absurd hid.settled hset
        · exact .inr ⟨n', hp', (hre m' n' hp' m n).2 ⟨hp, hm, hset⟩⟩

/-- The goal with the start nodes' ids has the same pairs exactly if realigning finds them again. -/
theorem mem_of_iff_realigns :
    (∀ m ∈ goal.nodes, ∀ n, (m, n) ∈ of start adopted ↔ (m, n) ∈ of start goal) ↔ Realigns start goal := by
  constructor
  · intro hsame m' n' hp m n
    have hm' := (mem_nodes_of hs hg hp).1
    have hp' := (hsame m' hm' n').2 hp
    rw [← h.childPairs_byId hs hg ha hm' (mem_nodes_of hs hg hp).2, mem_childPairs_iff hs ha hp',
      h.identified_iff hs hg, mem_settledPairs, h.children]
    constructor
    · rintro ⟨hmn, hm, hset⟩
      have hpair := (hsame m (hg.mem_nodes_of_child hm' hm) n).1 hmn
      exact ⟨hpair, hm, fun hs => hset ⟨hpair, hs⟩⟩
    · rintro ⟨hmn, hm, hset⟩
      exact ⟨(hsame m (hg.mem_nodes_of_child hm' hm) n).2 hmn, hm, fun hs => hset hs.2⟩
  · exact h.mem_of_iff_of_realigns hs hg ha

end Adopted

end Pairing

/-! ## Normalized trees -/

/-- Positions are looked up alike, however they are compared. -/
theorem lookup_eq_partner? (ps : Pairing Position ν) (p : Position) : ps.lookup p = ps.partner? p := by
  unfold Pairing.partner?
  congr 1
  exact lawful_beq_subsingleton _ _

variable [DecidableEq ν]

/-- Trees adopt the ids of their start nodes. -/
theorem adopted_adoptIds (start : View ν) (goal : Tree) :
    Pairing.Adopted start goal.view (adoptIds start goal).view := by
  have hlabel : ∀ {p}, p ∈ goal.positions →
      (adoptIds start goal).labelAt p = adoptId start (Correspondence.of start goal.view) p (goal.labelAt p) :=
    fun hp => Tree.labelAt_mapLabels _ hp
  have hsame : ∀ p, ((adoptIds start goal).labelAt p).type = (goal.labelAt p).type ∧
      ((adoptIds start goal).labelAt p).value = (goal.labelAt p).value := by
    intro p
    by_cases hp : p ∈ goal.positions
    · rw [hlabel hp, adoptId]
      split <;> exact ⟨rfl, rfl⟩
    · have hp' : p ∉ (adoptIds start goal).positions := by rwa [adoptIds, Tree.positions_mapLabels]
      rw [Tree.labelAt_of_not_mem hp, Tree.labelAt_of_not_mem hp']
      exact ⟨rfl, rfl⟩
  refine ⟨rfl, ?_, ?_, fun p => (hsame p).1, fun p => (hsame p).2, ?_, ?_⟩
  · exact congrArg List.tail (Tree.positions_mapLabels _ _)
  · funext p
    exact congrArg Slots.children (Tree.slotsAt_mapLabels _ _ _)
  · exact congrArg Label.id (hlabel goal.nil_mem_positions)
  · intro p hp
    obtain ⟨hp, hne⟩ := Tree.mem_tail_positions.1 hp
    have h := congrArg Label.id (hlabel hp)
    rw [adoptId, if_neg (by simpa using hne), lookup_eq_partner?] at h
    exact h

/-- No value is left to forget after ids are adopted. -/
theorem forgetValues_adoptIds (policy : Policy) (known : List String) (start : View ν) (goal : Tree) :
    forgetValues policy known (adoptIds start (forgetValues policy known goal)) =
      adoptIds start (forgetValues policy known goal) := by
  refine Tree.mapLabels_eq_self fun p hp => ?_
  rw [adoptIds, Tree.positions_mapLabels] at hp
  rw [adoptIds, Tree.labelAt_mapLabels _ hp]
  rw [forgetValues, Tree.positions_mapLabels] at hp
  rw [forgetValues, Tree.labelAt_mapLabels _ hp]
  unfold forgetValue adoptId
  by_cases he : p.isEmpty
  · simp [he]
  · simp [he]

/-- Adopting ids again changes nothing if the start nodes are the same. -/
theorem adoptIds_adoptIds {start : View ν} {goal : Tree}
    (h : ∀ p ∈ goal.positions, (Correspondence.of start (adoptIds start goal).view).partner? p =
      (Correspondence.of start goal.view).partner? p) : adoptIds start (adoptIds start goal) = adoptIds start goal := by
  refine Tree.mapLabels_eq_self fun p hp => ?_
  rw [adoptIds, Tree.positions_mapLabels] at hp
  have hlabel : (adoptIds start goal).labelAt p =
      adoptId start (Correspondence.of start goal.view) p (goal.labelAt p) :=
    Tree.labelAt_mapLabels _ hp
  have hlookup : (Correspondence.of start (adoptIds start goal).view).pairs.lookup p =
      (Correspondence.of start goal.view).pairs.lookup p := by
    rw [lookup_eq_partner?, lookup_eq_partner?]
    exact h p hp
  rw [hlabel]
  unfold adoptId
  by_cases he : p.isEmpty
  · rw [if_pos he, if_pos he]
  · rw [if_neg he, if_neg he, hlookup]

/-- Normalizing again gives the same tree and finds the same start nodes exactly if aligning, below every pair of
nodes, only the children whose start nodes are not settled finds their pairs again. -/
theorem normalizeValues_stable_iff (policy : Policy) (start goal : Tree) :
    (normalizeValues policy start (normalizeValues policy start goal) = normalizeValues policy start goal ∧
      ∀ p ∈ goal.positions,
        (Correspondence.of start.view (normalizeValues policy start goal).view).partner? p =
          (Correspondence.of start.view (forgetValues policy start.view.values goal).view).partner? p) ↔
      Pairing.Realigns start.view (forgetValues policy start.view.values goal).view := by
  let known := forgetValues policy start.view.values goal
  have hs := start.view_lawful
  have hg := known.view_lawful
  have ha := (adoptIds start.view known).view_lawful
  have hpos : known.positions = goal.positions := Tree.positions_mapLabels _ _
  have hpartner : (∀ p ∈ goal.positions,
      (Correspondence.of start.view (adoptIds start.view known).view).partner? p =
        (Correspondence.of start.view known.view).partner? p) ↔ Pairing.Realigns start.view known.view := by
    rw [← (adopted_adoptIds start.view known).mem_of_iff_realigns hs hg ha, Tree.view_nodes, hpos]
    refine forall_congr' fun p => imp_congr_right fun _ => ?_
    rw [Option.ext_iff]
    simp only [Correspondence.partner?_eq_some_iff hs ha, Correspondence.partner?_eq_some_iff hs hg]
  have htwice : normalizeValues policy start (normalizeValues policy start goal) =
      adoptIds start.view (adoptIds start.view known) :=
    congrArg (adoptIds start.view) (forgetValues_adoptIds policy _ start.view goal)
  rw [htwice, ← hpartner]
  refine and_iff_right_of_imp fun hsame => adoptIds_adoptIds fun p hp => hsame p ?_
  rwa [hpos] at hp

/-- Children in another order and without ids lose or gain start nodes when they are normalized again. -/
theorem not_stable_reordered :
    let start : Tree := .node ⟨"script", none, some "s"⟩
      [⟨"0", some (.leaf ⟨"move", none, some "m"⟩)⟩, ⟨"1", some (.leaf ⟨"turn", none, some "t"⟩)⟩]
    let goal : Tree := .node ⟨"script", none, some "s"⟩
      [⟨"0", some (.leaf ⟨"turn", none, none⟩)⟩, ⟨"1", some (.leaf ⟨"move", none, none⟩)⟩]
    normalizeValues {} start (normalizeValues {} start goal) ≠ normalizeValues {} start goal := by
  decide +kernel

end HintQuality
