import HintQuality.Proofs.EditSets
import HintQuality.Proofs.WellFormed
/-!
# Accounting for nodes in edits

Every node that is gone, new, moved or changed has its own edits and no other node has any, so that the edits can be
counted (`Accounts`). An edit names the node that it is about (`Edit.subject`), whose name no other node has; which
goal nodes were added can therefore be read off the edits alone (`isAdded_iff`).
-/

namespace HintQuality

namespace Edit

/-- The key of the node that an edit is about. -/
def subject : Edit → Key
  | insertion label relation parent after source => insertedKey label relation parent after source
  | deletion key _ _ => key
  | rename key _ _ _ _ _ => key

/-- Whether an edit leaves a node that was not there with its type and value. -/
def adds : Edit → Bool
  | insertion .. => true
  | deletion .. => false
  | rename _ oldType oldValue newType newValue _ => oldType ≠ newType || oldValue ≠ newValue

end Edit

variable {μ ν : Type} [DecidableEq μ] [DecidableEq ν] {start : View ν} {goal : View μ}

namespace Correspondence

section Classes

variable (c : Correspondence μ ν) (start : View ν) (goal : View μ)

/-- The start nodes that have no partner. -/
def goneNodes : List ν :=
  start.nodes.filter fun n => !c.pairs.isTaken n

/-- The goal nodes that have no partner. -/
def newNodes : List μ :=
  goal.nodes.filter fun m => (c.partner? m).isNone

/-- The goal nodes that moved. -/
def movedNodes : List μ :=
  goal.nodes.filter c.hasMoved

/-- The goal nodes that did not move, but changed their label. -/
def changedNodes : List μ :=
  goal.nodes.filter fun m => !c.hasMoved m && (c.partner? m).any fun n => start.label n ≠ goal.label m

/-- The deletions of the start nodes that have no partner and of the partners of the nodes that moved. -/
def deletions : List Edit :=
  (c.goneNodes start ++ (c.movedNodes goal).filterMap c.partner?).map (deletionOf start)

/-- The insertions of the new nodes, without a source, and of those that moved, each from its partner. -/
def insertions : List Edit :=
  (c.newNodes goal).map (fun m => c.insertionOf start goal m none) ++
    (c.movedNodes goal).map fun m => c.insertionOf start goal m (c.partner? m)

/-- The renamings of the nodes that changed. -/
def renames : List Edit :=
  (c.changedNodes start goal).filterMap fun m => (c.partner? m).map fun n => renameOf start goal n m

/-- The edits of all nodes: one deletion for each node that is gone or moved, one insertion for each node that is new
or moved, and one renaming for each node that changed. -/
def account : List Edit :=
  c.deletions start goal ++ c.insertions start goal ++ c.renames start goal

end Classes

/-- How edits account for the nodes of two trees. -/
structure Accounts (start : View ν) (goal : View μ) (c : Correspondence μ ν) (edits : List Edit) : Prop where
  /-- Edits are listed once. -/
  nodup : edits.Nodup
  /-- They are those of all nodes. -/
  perm : edits.Perm (c.account start goal)
  /-- Every node that is gone, new or changed counts once, and every node that moved twice. -/
  length : edits.length = (c.goneNodes start).length + (c.newNodes goal).length + 2 * (c.movedNodes goal).length +
    (c.changedNodes start goal).length
  /-- The nodes that were added are those that an insertion or a change of type or value is about. -/
  added : c.added start goal = goal.nodes.filter fun m => edits.any fun e =>
    e.adds && e.subject = c.goalKey start goal m

/-! ## The nodes of each class -/

omit [DecidableEq μ] in
theorem mem_goneNodes {c : Correspondence μ ν} {n : ν} :
    n ∈ c.goneNodes start ↔ n ∈ start.nodes ∧ c.pairs.isTaken n = false := by
  simp [goneNodes]

omit [DecidableEq ν] in
theorem mem_newNodes {c : Correspondence μ ν} {m : μ} :
    m ∈ c.newNodes goal ↔ m ∈ goal.nodes ∧ c.partner? m = none := by
  simp [newNodes]

omit [DecidableEq ν] in
theorem mem_movedNodes {c : Correspondence μ ν} {m : μ} :
    m ∈ c.movedNodes goal ↔ m ∈ goal.nodes ∧ c.hasMoved m = true :=
  List.mem_filter

omit [DecidableEq ν] in
theorem mem_changedNodes {c : Correspondence μ ν} {m : μ} : m ∈ c.changedNodes start goal ↔
    m ∈ goal.nodes ∧ c.inPlace m = true ∧ ∃ n, c.partner? m = some n ∧ start.label n ≠ goal.label m := by
  unfold changedNodes inPlace
  rw [List.mem_filter]
  cases c.partner? m <;> simp

omit [DecidableEq ν] in
/-- The goal nodes that are not in place are the new ones and those that moved. -/
theorem mem_arrived_iff {c : Correspondence μ ν} {m : μ} : m ∈ c.newNodes goal ++ c.movedNodes goal ↔
    m ∈ goal.nodes ∧ c.inPlace m = false := by
  rw [List.mem_append, mem_newNodes, mem_movedNodes, ← and_or_left]
  refine and_congr_right fun _ => ?_
  unfold inPlace
  cases c.partner? m <;> simp

omit [DecidableEq ν] in
/-- The insertions, each by the partner that its node may have. -/
theorem insertions_eq {c : Correspondence μ ν} : c.insertions start goal =
    (c.newNodes goal ++ c.movedNodes goal).map fun m => c.insertionOf start goal m (c.partner? m) := by
  rw [insertions, List.map_append]
  congr 1
  refine List.map_congr_left fun m hm => ?_
  rw [(mem_newNodes.1 hm).2]

omit [DecidableEq ν] in
/-- What makes a node added, by whether it is in place. -/
theorem isAdded_eq_true_iff {c : Correspondence μ ν} {m : μ} : c.isAdded start goal m = true ↔
    c.inPlace m = false ∨ ∃ n, c.partner? m = some n ∧
      ((start.label n).type ≠ (goal.label m).type ∨ (start.label n).value ≠ (goal.label m).value) := by
  unfold isAdded inPlace
  cases c.partner? m with
  | none => simp
  | some n => simp [or_assoc]

variable (hs : start.Lawful) (hg : goal.Lawful)
include hs hg

/-- The start nodes that are not kept are those that are gone and the partners of those that moved. -/
theorem mem_lost_iff {n : ν} :
    n ∈ (of start goal).goneNodes start ++ ((of start goal).movedNodes goal).filterMap (of start goal).partner? ↔
      n ∈ start.nodes ∧ (of start goal).isKept n = false := by
  rw [isKept_eq_false_iff hs hg, List.mem_append, mem_goneNodes, List.mem_filterMap]
  constructor
  · rintro (⟨hn, ht⟩ | ⟨m, hm, hmn⟩)
    · exact ⟨hn, .inl ht⟩
    · obtain ⟨hmg, hmoved⟩ := mem_movedNodes.1 hm
      have hn := (mem_nodes_of_partner? hs hg hmn).2
      refine ⟨hn, .inr ⟨m, hmg, hmn, ?_⟩⟩
      simp [inPlace, hmoved]
  · rintro ⟨hn, ht | ⟨m, hmg, hmn, hin⟩⟩
    · exact .inl ⟨hn, ht⟩
    · refine .inr ⟨m, mem_movedNodes.2 ⟨hmg, ?_⟩, hmn⟩
      simpa [inPlace, hmn] using hin

theorem nodup_lost : ((of start goal).goneNodes start ++
    ((of start goal).movedNodes goal).filterMap (of start goal).partner?).Nodup := by
  have hinj := Pairing.injective_of hs hg
  refine List.Nodup.append (hs.nodup.filter _) ((hg.nodup.filter _).filterMap ?_) ?_
  · intro m m' n hm hm'
    exact hinj.eq_left ((partner?_eq_some_iff hs hg).1 hm) ((partner?_eq_some_iff hs hg).1 hm')
  · intro n hn hn'
    obtain ⟨m, -, hm⟩ := List.mem_filterMap.1 hn'
    have htaken : (of start goal).pairs.isTaken n = true :=
      Pairing.isTaken_iff.2 ⟨m, (partner?_eq_some_iff hs hg).1 hm⟩
    rw [(mem_goneNodes.1 hn).2] at htaken
    cases htaken

omit hs in
theorem disjoint_new_moved : ((of start goal).newNodes goal).Disjoint ((of start goal).movedNodes goal) := by
  intro m hm hm'
  obtain ⟨n, hn⟩ := exists_partner_of_moved hg (hasMoved_iff.1 (mem_movedNodes.1 hm').2)
  rw [(mem_newNodes.1 hm).2] at hn
  cases hn

/-! ## Each edit once -/

/-- The edits of all nodes are the edits. -/
theorem mem_account_iff {e : Edit} : e ∈ (of start goal).account start goal ↔ e ∈ start.edits goal := by
  rw [mem_edits_iff hs hg, account, List.mem_append, List.mem_append, or_assoc]
  refine or_congr ?_ (or_congr ?_ ?_)
  · rw [deletions, List.mem_map]
    refine exists_congr fun n => ?_
    rw [mem_lost_iff hs hg, and_assoc, @eq_comm _ (deletionOf start n)]
  · rw [insertions_eq, List.mem_map]
    refine exists_congr fun m => ?_
    rw [mem_arrived_iff, and_assoc, @eq_comm _ ((of start goal).insertionOf start goal m _)]
  · rw [renames, List.mem_filterMap]
    refine exists_congr fun m => ?_
    rw [mem_changedNodes, and_assoc, and_assoc]
    refine and_congr_right fun _ => and_congr_right fun _ => ?_
    constructor
    · rintro ⟨⟨n, hn, hl⟩, he⟩
      rw [hn, Option.map_some] at he
      exact ⟨n, hn, hl, (Option.some.inj he).symm⟩
    · rintro ⟨n, hn, hl, rfl⟩
      exact ⟨⟨n, hn, hl⟩, by rw [hn]; rfl⟩

variable (hpath : start.DistinctPaths)
include hpath

theorem nodup_deletions : ((of start goal).deletions start goal).Nodup := by
  refine List.Nodup.map_on (fun n hn n' hn' h => ?_) (nodup_lost hs hg)
  exact View.key_injective hpath ((mem_lost_iff hs hg).1 hn).1 ((mem_lost_iff hs hg).1 hn').1 (Edit.deletion.inj h).1

theorem nodup_insertions : ((of start goal).insertions start goal).Nodup := by
  rw [insertions_eq]
  refine List.Nodup.map_on (fun m hm m' hm' h => ?_)
    ((hg.nodup.filter _).append (hg.nodup.filter _) (disjoint_new_moved hg))
  have hmg := (mem_arrived_iff.1 hm).1
  have hmg' := (mem_arrived_iff.1 hm').1
  -- an insertion names the node that it inserts
  refine View.keyOf_injective hs hg hpath hmg hmg' ?_
  rw [← View.insertedKey_insertionOf hg hmg rfl]
  exact View.insertedKey_insertionOf hg hmg' h

theorem nodup_renames : ((of start goal).renames start goal).Nodup := by
  have hinj := Pairing.injective_of hs hg
  refine (List.Nodup.filter _ hg.nodup).filterMap fun m m' e he he' => ?_
  obtain ⟨n, hn, rfl⟩ := Option.map_eq_some_iff.1 he
  obtain ⟨n', hn', h⟩ := Option.map_eq_some_iff.1 he'
  have hmn := (partner?_eq_some_iff hs hg).1 hn
  have hmn' := (partner?_eq_some_iff hs hg).1 hn'
  obtain rfl := View.key_injective hpath (Pairing.mem_nodes_of hs hg hmn').2 (Pairing.mem_nodes_of hs hg hmn).2
    (Edit.rename.inj h).1
  exact hinj.eq_left hmn hmn'

/-- The edits of distinct nodes and of distinct kinds are distinct. -/
theorem nodup_account : ((of start goal).account start goal).Nodup := by
  refine ((nodup_deletions hs hg hpath).append (nodup_insertions hs hg hpath) ?_).append
    (nodup_renames hs hg hpath) ?_
  · intro e hd hi
    obtain ⟨n, -, rfl⟩ := List.mem_map.1 hd
    rw [insertions_eq] at hi
    obtain ⟨m, -, h⟩ := List.mem_map.1 hi
    cases h
  · intro e hdi hr
    obtain ⟨m, -, h⟩ := List.mem_filterMap.1 hr
    obtain ⟨n, -, rfl⟩ := Option.map_eq_some_iff.1 h
    rcases List.mem_append.1 hdi with hd | hi
    · obtain ⟨n', -, h⟩ := List.mem_map.1 hd
      cases h
    · rw [insertions_eq] at hi
      obtain ⟨m', -, h⟩ := List.mem_map.1 hi
      cases h

theorem edits_perm : (start.edits goal).Perm ((of start goal).account start goal) :=
  (List.perm_ext_iff_of_nodup (nodup_eraseDups _) (nodup_account hs hg hpath)).2 fun _ => (mem_account_iff hs hg).symm

omit hs hpath in
theorem length_account : ((of start goal).account start goal).length = ((of start goal).goneNodes start).length +
    ((of start goal).newNodes goal).length + 2 * ((of start goal).movedNodes goal).length +
      ((of start goal).changedNodes start goal).length := by
  have hmoved : (((of start goal).movedNodes goal).filterMap (of start goal).partner?).length =
      ((of start goal).movedNodes goal).length := by
    refine List.filterMap_length_eq_length.2 fun m hm => ?_
    obtain ⟨n, hn⟩ := exists_partner_of_moved hg (hasMoved_iff.1 (mem_movedNodes.1 hm).2)
    rw [hn]
    rfl
  have hrenames : ((of start goal).renames start goal).length = ((of start goal).changedNodes start goal).length := by
    refine List.filterMap_length_eq_length.2 fun m hm => ?_
    obtain ⟨-, -, n, hn, -⟩ := mem_changedNodes.1 hm
    rw [hn]
    rfl
  rw [account, List.length_append, List.length_append, hrenames, deletions, insertions, List.length_map,
    List.length_append, List.length_append, List.length_map, List.length_map, hmoved]
  omega

/-! ## What edits are about -/

omit hpath in
/-- An edit is about a start node that is not kept, a goal node that is not in place, or one in place that changed. -/
theorem subject_cases {e : Edit} (he : e ∈ start.edits goal) :
    (∃ n ∈ start.nodes, (of start goal).isKept n = false ∧ e.subject = start.key n ∧ e.adds = false) ∨
    (∃ m ∈ goal.nodes, (of start goal).inPlace m = false ∧ e.subject = start.keyOf goal m) ∨
    (∃ m ∈ goal.nodes, ∃ n, (of start goal).inPlace m = true ∧ (of start goal).partner? m = some n ∧
      start.label n ≠ goal.label m ∧ e = renameOf start goal n m) := by
  rcases (mem_edits_iff hs hg).1 he with ⟨n, hn, hk, rfl⟩ | ⟨m, hm, hin, rfl⟩ | ⟨m, hm, hin, n, hn, hl, rfl⟩
  · exact .inl ⟨n, hn, hk, rfl, rfl⟩
  · exact .inr (.inl ⟨m, hm, hin, View.insertedKey_insertionOf hg hm rfl⟩)
  · exact .inr (.inr ⟨m, hm, n, hin, hn, hl, rfl⟩)

/-- No edit is about a node in place that kept its label. -/
theorem subject_ne {m : μ} {n : ν} (hin : (of start goal).inPlace m = true)
    (hn : (of start goal).partner? m = some n) (hl : start.label n = goal.label m) {e : Edit}
    (he : e ∈ start.edits goal) : e.subject ≠ start.key n := by
  have hinj : (of start goal).pairs.Injective := Pairing.injective_of hs hg
  have hmn := mem_nodes_of_partner? hs hg hn
  intro hsub
  rcases subject_cases hs hg he with ⟨n', hn', hk, h, -⟩ | ⟨m', hm', hin', h⟩ | ⟨m', hm', n', -, hn', hl', rfl⟩
  · obtain rfl := View.key_injective hpath hn' hmn.2 (h.symm.trans hsub)
    rw [(isKept_iff hinj).2 ⟨m, hn, hin⟩] at hk
    cases hk
  · have hkey : start.keyOf goal m' = start.keyOf goal m :=
      (h.symm.trans hsub).trans (goalKey_of_partner hg hn).symm
    rw [View.keyOf_injective hs hg hpath hm' hmn.1 hkey, hin] at hin'
    cases hin'
  · have hmn' := (partner?_eq_some_iff hs hg).1 hn'
    obtain rfl := View.key_injective hpath (Pairing.mem_nodes_of hs hg hmn').2 hmn.2 hsub
    rw [hinj.eq_left hmn' ((partner?_eq_some_iff hs hg).1 hn)] at hl'
    exact hl' hl

/-- A goal node was added if an insertion or a change of type or value is about it. -/
theorem isAdded_iff {m : μ} (hm : m ∈ goal.nodes) : (of start goal).isAdded start goal m = true ↔
    ∃ e ∈ start.edits goal, e.adds = true ∧ e.subject = start.keyOf goal m := by
  rw [isAdded_eq_true_iff]
  constructor
  · intro h
    cases hin : (of start goal).inPlace m with
    | false =>
      refine ⟨_, (mem_edits_iff hs hg).2 (.inr (.inl ⟨m, hm, hin, rfl⟩)), rfl, ?_⟩
      exact View.insertedKey_insertionOf hg hm rfl
    | true =>
      obtain ⟨n, hn, hl⟩ := h.resolve_left (by rw [hin]; exact Bool.noConfusion)
      have hne : start.label n ≠ goal.label m := by
        intro he
        rw [he] at hl
        exact hl.elim (· rfl) (· rfl)
      refine ⟨_, (mem_edits_iff hs hg).2 (.inr (.inr ⟨m, hm, hin, n, hn, hne, rfl⟩)), ?_, ?_⟩
      · simpa [renameOf, Edit.adds] using hl
      · exact (goalKey_of_partner hg hn).symm
  · rintro ⟨e, he, hadds, hsub⟩
    rcases subject_cases hs hg he with ⟨n, -, -, -, h⟩ | ⟨m', hm', hin, h⟩ | ⟨m', hm', n, -, hn, -, rfl⟩
    · rw [h] at hadds
      cases hadds
    · obtain rfl := View.keyOf_injective hs hg hpath hm' hm (h.symm.trans hsub)
      exact .inl hin
    · have hkey : start.keyOf goal m' = start.keyOf goal m := (goalKey_of_partner hg hn).trans hsub
      obtain rfl := View.keyOf_injective hs hg hpath hm' hm hkey
      refine .inr ⟨n, hn, ?_⟩
      simpa [renameOf, Edit.adds] using hadds

theorem added_eq : (of start goal).added start goal = goal.nodes.filter fun m => (start.edits goal).any fun e =>
    e.adds && e.subject = (of start goal).goalKey start goal m := by
  refine List.filter_congr fun m hm => ?_
  rw [Bool.eq_iff_iff, isAdded_iff hs hg hpath hm, List.any_eq_true]
  simp [View.keyOf]

/-- The edits account for the nodes of both trees. -/
theorem accounts : (of start goal).Accounts start goal (start.edits goal) :=
  ⟨nodup_eraseDups _, edits_perm hs hg hpath,
    (edits_perm hs hg hpath).length_eq.trans (length_account hg), added_eq hs hg hpath⟩

end Correspondence

namespace Tree

/-- The edits between two trees account for the nodes of both. -/
theorem edits_account {start : Tree} (hlabels : start.DistinctLabels) (goal : Tree) :
    (Correspondence.of start.view goal.view).Accounts start.view goal.view (start.edits goal) :=
  Correspondence.accounts start.view_lawful goal.view_lawful hlabels.distinctPaths

/-- Two equal new siblings, a node that moved below another one and was renamed there, and one that is gone. -/
theorem edits_account_of_siblings :
    let start := node ⟨"script", none, some "s"⟩
      [⟨"0", some (leaf ⟨"move", some "10", some "m"⟩)⟩, ⟨"1", some (leaf ⟨"loop", none, some "l"⟩)⟩,
        ⟨"2", some (leaf ⟨"stop", none, none⟩)⟩]
    let goal := node ⟨"script", none, some "s"⟩
      [⟨"0", some (node ⟨"loop", some "2", some "l"⟩ [⟨"0", some (leaf ⟨"move", some "20", some "m"⟩)⟩])⟩,
        ⟨"1", some (leaf ⟨"turn", none, none⟩)⟩, ⟨"2", some (leaf ⟨"turn", none, none⟩)⟩]
    start.DistinctLabels ∧
      (Correspondence.of start.view goal.view).Accounts start.view goal.view (start.edits goal) :=
  ⟨by decide, edits_account (by decide) _⟩

end Tree

end HintQuality
