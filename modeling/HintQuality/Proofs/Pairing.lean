import HintQuality.Proofs.IdPairing
import Mathlib.Data.List.Flatten
/-!
# Which nodes belong together

What the last phase of pairing adds. Siblings are aligned below every pair of parents, each node at most once
(`injective_of`), and the pairs found there join children of the two in the order of both (`childPairs_left`,
`childPairs_right`). Which children are aligned depends on the ids alone and not on what is paired elsewhere, so that
all pairs are those by ids and, below each pair, those by alignment (`mem_of_iff`). Together, the pairs are a
correspondence of the two trees (`Coherent`), whatever ids are missing, repeated or swapped
(`correspondence_coherent`).
-/

namespace HintQuality

variable {μ ν : Type}

/-! ## The pairs of an alignment -/

namespace Pairing

variable {start : View ν} {goal : View μ}

/-- The pairs of a segment take their goal nodes from its second list, in order. -/
theorem segmentPairs_left (s : Segment ν μ) : ((segmentPairs start goal s).map Prod.fst).Sublist s.right := by
  cases s with
  | same pairs => simp [segmentPairs, Segment.right, Function.comp_def]
  | changed old new =>
    simp only [segmentPairs, Segment.right, List.map_map]
    exact (List.filter_sublist.map Prod.snd).trans (map_snd_zip_sublist old new)

/-- The pairs of a segment take their start nodes from its first list, in order. -/
theorem segmentPairs_right (s : Segment ν μ) : ((segmentPairs start goal s).map Prod.snd).Sublist s.left := by
  cases s with
  | same pairs => simp [segmentPairs, Segment.left, Function.comp_def]
  | changed old new =>
    simp only [segmentPairs, Segment.left, List.map_map]
    exact (List.filter_sublist.map Prod.fst).trans (map_fst_zip_sublist old new)

section ChildPairs

variable [DecidableEq μ] [DecidableEq ν] {ps ps' : Pairing μ ν} {m : μ} {n : ν}

/-- Aligned siblings are children that were still alone, in the order of the goal. -/
theorem childPairs_left : ((childPairs start goal ps m n).map Prod.fst).Sublist
    ((goal.children m).filter fun c => (ps.partner? c).isNone) := by
  unfold childPairs
  rw [List.map_flatMap]
  refine (List.Sublist.flatMap_right _ fun s _ => segmentPairs_left s).trans ?_
  rw [right_align]

/-- Aligned siblings are children that were still alone, in the order of the start. -/
theorem childPairs_right : ((childPairs start goal ps m n).map Prod.snd).Sublist
    ((start.children n).filter fun c => !ps.isTaken c) := by
  unfold childPairs
  rw [List.map_flatMap]
  refine (List.Sublist.flatMap_right _ fun s _ => segmentPairs_right s).trans ?_
  rw [left_align]

theorem of_mem_childPairs {c : μ} {d : ν} (h : (c, d) ∈ childPairs start goal ps m n) :
    (c ∈ goal.children m ∧ ps.partner? c = none) ∧ d ∈ start.children n ∧ ps.isTaken d = false := by
  have hc := childPairs_left.subset (List.mem_map_of_mem (f := Prod.fst) h)
  have hd := childPairs_right.subset (List.mem_map_of_mem (f := Prod.snd) h)
  simpa using And.intro (List.mem_filter.1 hc) (List.mem_filter.1 hd)

/-- The alignment of two nodes' children depends only on which of the children are alone. -/
theorem childPairs_congr (hd : ∀ d ∈ start.children n, ps.isTaken d = ps'.isTaken d)
    (hc : ∀ c ∈ goal.children m, (ps.partner? c).isNone = (ps'.partner? c).isNone) :
    childPairs start goal ps m n = childPairs start goal ps' m n := by
  unfold childPairs
  rw [List.filter_congr hc, List.filter_congr fun d hd' => congrArg (!·) (hd d hd')]

/-- Children are no roots, so the pair of the roots does not matter when they are aligned. -/
theorem childPairs_eq_of_roots (hs : start.Lawful) (hg : goal.Lawful) (hm : m ∈ goal.nodes) (hn : n ∈ start.nodes)
    (h : ∀ c d, (c, d) ∈ ps ↔ (c = goal.root ∧ d = start.root) ∨ (c, d) ∈ ps') :
    childPairs start goal ps m n = childPairs start goal ps' m n := by
  refine childPairs_congr (fun d hd => ?_) fun c hc => ?_
  · rw [Bool.eq_iff_iff, isTaken_iff, isTaken_iff]
    refine exists_congr fun c => ?_
    rw [h]
    refine or_iff_right fun hroot => hs.root_not_mem ?_
    rw [← hroot.2]
    exact hs.descendant_of_child hn hd
  · rw [Bool.eq_iff_iff, Option.isNone_iff_eq_none, Option.isNone_iff_eq_none, partner?_eq_none_iff,
      partner?_eq_none_iff]
    refine forall_congr' fun d => not_congr ?_
    rw [h]
    refine or_iff_right fun hroot => hg.root_not_mem ?_
    rw [← hroot.1]
    exact hg.descendant_of_child hm hc

end ChildPairs

end Pairing

/-! ## What pairing looks at -/

/-- The same tree up to ids. -/
structure View.SameUpToIds (a b : View μ) : Prop where
  /-- The same root. -/
  root : a.root = b.root
  /-- The same nodes below it, in the same order. -/
  descendants : a.descendants = b.descendants
  /-- The same children, in the same order. -/
  children : a.children = b.children
  /-- The same types. -/
  type : ∀ m, (a.label m).type = (b.label m).type
  /-- The same values. -/
  value : ∀ m, (a.label m).value = (b.label m).value

namespace View.SameUpToIds

variable [DecidableEq μ] [DecidableEq ν] {start : View ν} {a b : View μ} (h : a.SameUpToIds b)
include h

omit [DecidableEq μ] in
theorem nodes : a.nodes = b.nodes := by
  rw [View.nodes, View.nodes, h.root, h.descendants]

/-- Siblings are aligned without their ids. -/
theorem childPairs : Pairing.childPairs start a = Pairing.childPairs start b := by
  have hsame : Pairing.sameContent start a = Pairing.sameContent start b := by
    funext n m
    simp only [Pairing.sameContent, h.type, h.value]
  have hseg : Pairing.segmentPairs start a = Pairing.segmentPairs start b := by
    funext s
    cases s <;> simp only [Pairing.segmentPairs, h.type]
  funext ps m n
  simp only [Pairing.childPairs, hsame, hseg, h.children]

/-- The pairs are the same as soon as those by ids are. -/
theorem pairing (hids : Pairing.pairById start a = Pairing.pairById start b) :
    Pairing.of start a = Pairing.of start b := by
  have hkids : Pairing.pairChildren start a = Pairing.pairChildren start b := by
    funext ps m
    simp only [Pairing.pairChildren, h.childPairs]
  rw [Pairing.of, Pairing.of, Pairing.addStructure, Pairing.addStructure, Pairing.addIds, Pairing.addIds,
    Pairing.ofRoots, Pairing.ofRoots, hids, hkids, h.nodes, h.descendants, h.root]

end View.SameUpToIds

namespace Pairing

variable {start : View ν} {goal : View μ}

/-! ## Aligning siblings below all pairs -/

variable [DecidableEq μ] [DecidableEq ν]

/-- What the pairs are after the children of the nodes of `pre` have been aligned. -/
structure AlignedUpTo (start : View ν) (goal : View μ) (pre : List μ) (ps : Pairing μ ν) : Prop where
  /-- No node is paired twice. -/
  injective : ps.Injective
  /-- Nodes are paired with nodes. -/
  mem_nodes : ∀ m n, (m, n) ∈ ps → m ∈ goal.nodes ∧ n ∈ start.nodes
  /-- The pairs are those by ids and, below each pair with a node of `pre`, those by alignment. -/
  mem_iff : ∀ m n, (m, n) ∈ ps ↔ (m, n) ∈ byId start goal ∨
    ∃ m' ∈ pre, ∃ n', (m', n') ∈ ps ∧ (m, n) ∈ childPairs start goal (byId start goal) m' n'

namespace AlignedUpTo

variable {pre : List μ} {a : μ} {ps : Pairing μ ν} (h : AlignedUpTo start goal pre ps)
include h

/-- A node without a partner adds no pair. -/
theorem skip (ha : ∀ n, (a, n) ∉ ps) : AlignedUpTo start goal (pre ++ [a]) ps := by
  refine ⟨h.injective, h.mem_nodes, fun m n => ?_⟩
  rw [h.mem_iff]
  refine or_congr_right ?_
  constructor
  · rintro ⟨m', hm', n', hp, hc⟩
    exact ⟨m', List.mem_append_left _ hm', n', hp, hc⟩
  · rintro ⟨m', hm', n', hp, hc⟩
    rcases List.mem_append.1 hm' with hm' | hm'
    · exact ⟨m', hm', n', hp, hc⟩
    · rw [List.mem_singleton.1 hm'] at hp
      exact absurd hp (ha n')

variable (hs : start.Lawful) (hg : goal.Lawful) (ha : a ∈ goal.nodes) (hpre : a ∉ pre) {n : ν} (hn : (a, n) ∈ ps)
include hs hg ha hpre hn

/-- Only ids pair a child before the children of its parent are aligned. -/
theorem childPairs_eq (hsub : ∀ m' ∈ pre, m' ∈ goal.nodes) :
    childPairs start goal ps a n = childPairs start goal (byId start goal) a n := by
  refine childPairs_congr (fun d hd => ?_) fun c hc => ?_
  · rw [Bool.eq_iff_iff, isTaken_iff, isTaken_iff]
    refine exists_congr fun m => ⟨fun hm => ?_, fun hm => (h.mem_iff _ _).2 (.inl hm)⟩
    rcases (h.mem_iff _ _).1 hm with hm | ⟨m', hm', n', hp, hc⟩
    · exact hm
    · have hn' := (h.mem_nodes _ _ hp).2
      have hnn : n' = n := hs.parent_unique hn' (h.mem_nodes _ _ hn).2 (of_mem_childPairs hc).2.1 hd
      rw [hnn] at hp
      exact absurd (h.injective.eq_left hp hn ▸ hm') hpre
  · rw [Bool.eq_iff_iff, Option.isNone_iff_eq_none, Option.isNone_iff_eq_none, partner?_eq_none_iff,
      partner?_eq_none_iff]
    refine forall_congr' fun d => not_congr ⟨fun hm => ?_, fun hm => (h.mem_iff _ _).2 (.inl hm)⟩
    rcases (h.mem_iff _ _).1 hm with hm | ⟨m', hm', n', hp, hc'⟩
    · exact hm
    · have hmm : m' = a := hg.parent_unique (hsub m' hm') ha (of_mem_childPairs hc').1.1 hc
      exact absurd (hmm ▸ hm') hpre

omit hpre in
/-- Aligned children are alone, so no node is paired twice after they are added. -/
theorem injective_add : Injective ((childPairs start goal ps a n).reverse ++ ps) := by
  have hnode := (h.mem_nodes _ _ hn).2
  constructor
  · rw [List.map_append, List.map_reverse, List.nodup_append']
    refine ⟨List.nodup_reverse.2 (((hg.nodup_children ha).filter _).sublist childPairs_left), h.injective.left, ?_⟩
    intro c hc hc'
    obtain ⟨⟨c, d⟩, hcd, rfl⟩ := List.mem_map.1 (List.mem_reverse.1 hc)
    obtain ⟨⟨c', d'⟩, hcd', rfl⟩ := List.mem_map.1 hc'
    exact partner?_eq_none_iff.1 (of_mem_childPairs hcd).1.2 d' hcd'
  · rw [List.map_append, List.map_reverse, List.nodup_append']
    refine ⟨List.nodup_reverse.2 (((hs.nodup_children hnode).filter _).sublist childPairs_right),
      h.injective.right, ?_⟩
    intro d hd hd'
    obtain ⟨⟨c, d⟩, hcd, rfl⟩ := List.mem_map.1 (List.mem_reverse.1 hd)
    obtain ⟨⟨c', d'⟩, hcd', rfl⟩ := List.mem_map.1 hd'
    have := (of_mem_childPairs hcd).2.2
    rw [isTaken_iff.2 ⟨c', hcd'⟩] at this
    cases this

/-- A node with a partner adds the pairs of their children. -/
theorem add (hsub : ∀ m' ∈ pre, m' ∈ goal.nodes) (hlate : ∀ m' ∈ pre, m' ∉ goal.children a) :
    AlignedUpTo start goal (pre ++ [a]) ((childPairs start goal ps a n).reverse ++ ps) := by
  have hmem : ∀ m n', (m, n') ∈ (childPairs start goal ps a n).reverse ++ ps ↔
      (m, n') ∈ childPairs start goal (byId start goal) a n ∨ (m, n') ∈ ps := by
    intro m n'
    rw [List.mem_append, List.mem_reverse, h.childPairs_eq hs hg ha hpre hn hsub]
  have hnodes := h.mem_nodes _ _ hn
  have hinj := h.injective_add hs hg ha hn
  refine ⟨hinj, fun m n' hm => ?_, fun m n' => ?_⟩
  · rcases (hmem m n').1 hm with hm | hm
    · obtain ⟨⟨hc, -⟩, hd, -⟩ := of_mem_childPairs hm
      exact ⟨hg.mem_nodes_of_child ha hc, hs.mem_nodes_of_child hnodes.2 hd⟩
    · exact h.mem_nodes _ _ hm
  · rw [hmem]
    constructor
    · rintro (hm | hm)
      · exact .inr ⟨a, by simp, n, (hmem _ _).2 (.inr hn), hm⟩
      · rcases (h.mem_iff _ _).1 hm with hm | ⟨m', hm', n'', hp, hc⟩
        · exact .inl hm
        · exact .inr ⟨m', List.mem_append_left _ hm', n'', (hmem _ _).2 (.inr hp), hc⟩
    · rintro (hm | ⟨m', hm', n'', hp, hc⟩)
      · exact .inr ((h.mem_iff _ _).2 (.inl hm))
      · rcases List.mem_append.1 hm' with hm' | hm'
        · -- the pair of `m'` is old, since children stand after their parents
          rcases (hmem _ _).1 hp with hp | hp
          · exact absurd (of_mem_childPairs hp).1.1 (hlate m' hm')
          · exact .inr ((h.mem_iff _ _).2 (.inr ⟨m', hm', n'', hp, hc⟩))
        · obtain rfl := List.mem_singleton.1 hm'
          rw [hinj.eq_right hp ((hmem _ _).2 (.inr hn))] at hc
          exact .inl hc

end AlignedUpTo

theorem alignedUpTo_of (hs : start.Lawful) (hg : goal.Lawful) :
    AlignedUpTo start goal goal.nodes (Pairing.of start goal) := by
  refine foldl_prefix_invariant (P := AlignedUpTo start goal) ?_ fun pre a post ps hl h => ?_
  · refine ⟨injective_byId hg, fun m n hm => ?_, fun m n => by simp; rfl⟩
    rcases (mem_byId hg).1 hm with ⟨rfl, rfl⟩ | hm
    · exact ⟨View.Lawful.root_mem _, View.Lawful.root_mem _⟩
    · exact ⟨hm.mem_left, hm.mem_right⟩
  · have hnd := hg.nodup
    have hsub : ∀ m' ∈ pre, m' ∈ goal.nodes := fun m' hm' => by rw [hl]; exact List.mem_append_left _ hm'
    have ha : a ∈ goal.nodes := by rw [hl]; simp
    rw [hl] at hnd
    have hpre : a ∉ pre := fun hp => (List.disjoint_of_nodup_append hnd) hp (by simp)
    unfold pairChildren
    cases hp : ps.partner? a with
    | none => exact h.skip (partner?_eq_none_iff.1 hp)
    | some n =>
      refine h.add hs hg ha hpre (mem_of_partner? hp) hsub fun m' hm' hc => ?_
      have hafter := hg.child_after ha hc
      obtain ⟨before, after, rfl⟩ := List.append_of_mem hm'
      rw [List.append_assoc, List.cons_append] at hl hnd
      rw [hl] at hafter
      exact hpre (List.mem_append_left _ (mem_of_pair_sublist hnd hafter))

/-- No node is paired twice. -/
theorem injective_of (hs : start.Lawful) (hg : goal.Lawful) : (Pairing.of start goal).Injective :=
  (alignedUpTo_of hs hg).injective

/-- Nodes are paired with nodes. -/
theorem mem_nodes_of (hs : start.Lawful) (hg : goal.Lawful) {m : μ} {n : ν} (h : (m, n) ∈ Pairing.of start goal) :
    m ∈ goal.nodes ∧ n ∈ start.nodes :=
  (alignedUpTo_of hs hg).mem_nodes m n h

/-- The pairs are those by ids and, below each pair, those that aligning the children gives. -/
theorem mem_of_iff (hs : start.Lawful) (hg : goal.Lawful) {m : μ} {n : ν} :
    (m, n) ∈ Pairing.of start goal ↔ (m, n) ∈ byId start goal ∨
      ∃ m' n', (m', n') ∈ Pairing.of start goal ∧ (m, n) ∈ childPairs start goal (byId start goal) m' n' := by
  rw [(alignedUpTo_of hs hg).mem_iff]
  refine or_congr_right ?_
  constructor
  · rintro ⟨m', -, n', hp, hc⟩
    exact ⟨m', n', hp, hc⟩
  · rintro ⟨m', n', hp, hc⟩
    exact ⟨m', (mem_nodes_of hs hg hp).1, n', hp, hc⟩

/-- The roots belong together. -/
theorem roots_mem (hs : start.Lawful) (hg : goal.Lawful) : (goal.root, start.root) ∈ Pairing.of start goal :=
  (mem_of_iff hs hg).2 (.inl ((mem_byId hg).2 (.inl ⟨rfl, rfl⟩)))

/-- The root is paired with the root, and with nothing else. -/
theorem root_iff (hs : start.Lawful) (hg : goal.Lawful) {m : μ} {n : ν} (h : (m, n) ∈ Pairing.of start goal) :
    m = goal.root ↔ n = start.root := by
  constructor
  · rintro rfl
    exact (injective_of hs hg).eq_right h (roots_mem hs hg)
  · rintro rfl
    exact (injective_of hs hg).eq_left h (roots_mem hs hg)

/-- A node below the root is paired by its id, or by the alignment below its parent. -/
theorem mem_of_child_iff (hs : start.Lawful) (hg : goal.Lawful) {m m' : μ} {n : ν} (hm' : m' ∈ goal.nodes)
    (hm : m ∈ goal.children m') : (m, n) ∈ Pairing.of start goal ↔ Identified start goal m n ∨
      ∃ n', (m', n') ∈ Pairing.of start goal ∧ (m, n) ∈ childPairs start goal (byId start goal) m' n' := by
  have hroot : m ≠ goal.root := fun e => hg.root_not_mem (e ▸ hg.descendant_of_child hm' hm)
  rw [mem_of_iff hs hg, mem_byId hg, or_iff_right fun h : m = goal.root ∧ n = start.root => hroot h.1]
  refine or_congr_right ⟨?_, fun ⟨n', hp, hc⟩ => ⟨m', n', hp, hc⟩⟩
  rintro ⟨m'', n', hp, hc⟩
  obtain rfl := hg.parent_unique (mem_nodes_of hs hg hp).1 hm' (of_mem_childPairs hc).1.1 hm
  exact ⟨n', hp, hc⟩

/-- A pair of children of a pair of nodes, other than by ids, comes from the alignment below that pair. -/
theorem mem_childPairs_iff (hs : start.Lawful) (hg : goal.Lawful) {m m' : μ} {n n' : ν}
    (hp : (m', n') ∈ Pairing.of start goal) :
    (m, n) ∈ childPairs start goal (byId start goal) m' n' ↔
      (m, n) ∈ Pairing.of start goal ∧ m ∈ goal.children m' ∧ ¬Identified start goal m n := by
  have hm' := (mem_nodes_of hs hg hp).1
  constructor
  · intro h
    obtain ⟨⟨hc, hnone⟩, -, -⟩ := of_mem_childPairs h
    refine ⟨(mem_of_iff hs hg).2 (.inr ⟨m', n', hp, h⟩), hc, fun hid => ?_⟩
    exact partner?_eq_none_iff.1 hnone n ((mem_byId hg).2 (.inr hid))
  · rintro ⟨h, hc, hid⟩
    rcases (mem_of_child_iff hs hg hm' hc).1 h with h | ⟨n'', hp', h⟩
    · exact absurd h hid
    · rwa [(injective_of hs hg).eq_right hp' hp] at h

/-- What makes a pairing of the nodes of two trees a correspondence of the trees. -/
structure Coherent (start : View ν) (goal : View μ) (ps : Pairing μ ν) : Prop where
  /-- No node is paired twice. -/
  injective : ps.Injective
  /-- Goal nodes are paired with start nodes. -/
  nodes : ∀ m n, (m, n) ∈ ps → m ∈ goal.nodes ∧ n ∈ start.nodes
  /-- The roots are paired. -/
  roots : (goal.root, start.root) ∈ ps
  /-- No other pair involves a root. -/
  root_iff : ∀ m n, (m, n) ∈ ps → (m = goal.root ↔ n = start.root)
  /-- Nodes below the roots that share an id found once in either tree are paired. -/
  ids : ∀ m n, Identified start goal m n → (m, n) ∈ ps
  /-- Every other pair joins children of a pair. -/
  siblings : ∀ m n, (m, n) ∈ ps → m ≠ goal.root → ¬Identified start goal m n →
    ∃ m' n', (m', n') ∈ ps ∧ m ∈ goal.children m' ∧ n ∈ start.children n'
  /-- The pairs of this kind below one node are in the same order in both trees. -/
  order : ∀ m' n', (m', n') ∈ ps → ∃ l : Pairing μ ν,
    (∀ m n, (m, n) ∈ l ↔ (m, n) ∈ ps ∧ m ∈ goal.children m' ∧ ¬Identified start goal m n) ∧
      (l.map Prod.fst).Sublist (goal.children m') ∧ (l.map Prod.snd).Sublist (start.children n')
  /-- The start nodes that are taken are the partners of goal nodes. -/
  taken : ∀ n, ps.isTaken n = true ↔ ∃ m, ps.partner? m = some n

end Pairing

/-- Pairing the nodes of any two trees gives a correspondence, whatever ids are missing, repeated or swapped. -/
theorem correspondence_coherent (start goal : Tree) :
    Pairing.Coherent start.view goal.view (Correspondence.of start.view goal.view).pairs := by
  have hs := start.view_lawful
  have hg := goal.view_lawful
  have hinj := Pairing.injective_of hs hg
  refine ⟨hinj, fun _ _ => Pairing.mem_nodes_of hs hg, Pairing.roots_mem hs hg, fun _ _ => Pairing.root_iff hs hg,
    fun m n hid => ?_, fun m n h hroot hid => ?_, fun m' n' hp => ?_, fun n => ?_⟩
  · exact (Pairing.mem_of_iff hs hg).2 (.inl ((Pairing.mem_byId hg).2 (.inr hid)))
  · rcases (Pairing.mem_of_iff hs hg).1 h with h | ⟨m', n', hp, h⟩
    · rcases (Pairing.mem_byId hg).1 h with ⟨e, -⟩ | h
      · exact absurd e hroot
      · exact absurd h hid
    · obtain ⟨⟨hc, -⟩, hd, -⟩ := Pairing.of_mem_childPairs h
      exact ⟨m', n', hp, hc, hd⟩
  · refine ⟨Pairing.childPairs start.view goal.view (Pairing.byId start.view goal.view) m' n', fun m n => ?_, ?_, ?_⟩
    · exact Pairing.mem_childPairs_iff hs hg hp
    · exact Pairing.childPairs_left.trans List.filter_sublist
    · exact Pairing.childPairs_right.trans List.filter_sublist
  · rw [Pairing.isTaken_iff]
    exact exists_congr fun m => hinj.partner?_eq_some_iff.symm

end HintQuality
