import HintQuality.Edit.Basic
import HintQuality.Proofs.Keys
/-!
# What the edits say

The edits are the deletions of the start nodes that are not kept, the insertions of the goal nodes that are not in
place, and the renamings of those in place whose label changed (`mem_edits_iff`). An insertion names the node that it
inserts (`Edit.insertedKey`), so the set of edits tells below each key which new and moved nodes stand there and what
each of them follows (`follows_childKeys_iff`), and which children are kept (`filter_childKeys`).
-/

namespace HintQuality

variable {μ ν : Type} {start : View ν} {goal : View μ}

namespace Correspondence

/-! ## The edits of a node -/

variable [DecidableEq μ]

/-- What a goal node calls for, by whether it is in place. -/
theorem mem_nodeEdits_iff {c : Correspondence μ ν} {m : μ} {e : Edit} : e ∈ c.nodeEdits start goal m ↔
    (c.inPlace m = false ∧
      (e = c.insertionOf start goal m (c.partner? m) ∨ ∃ n, c.partner? m = some n ∧ e = deletionOf start n)) ∨
    (c.inPlace m = true ∧
      ∃ n, c.partner? m = some n ∧ start.label n ≠ goal.label m ∧ e = renameOf start goal n m) := by
  unfold nodeEdits inPlace
  cases c.partner? m with
  | none => simp
  | some n =>
    cases c.hasMoved m with
    | true => simp [or_comm]
    | false =>
      by_cases hl : start.label n = goal.label m
      · simp [hl]
      · simp [hl]

variable [DecidableEq ν] (hs : start.Lawful) (hg : goal.Lawful)
include hs hg

/-- A start node is not kept if no node is its partner, or one that moved. -/
theorem isKept_eq_false_iff {n : ν} : (of start goal).isKept n = false ↔
    (of start goal).pairs.isTaken n = false ∨
      ∃ m ∈ goal.nodes, (of start goal).partner? m = some n ∧ (of start goal).inPlace m = false := by
  have hinj : (of start goal).pairs.Injective := Pairing.injective_of hs hg
  constructor
  · intro h
    cases ht : (of start goal).pairs.isTaken n with
    | false => exact .inl rfl
    | true =>
      obtain ⟨m, hm⟩ := Pairing.isTaken_iff.1 ht
      refine .inr ⟨m, (Pairing.mem_nodes_of hs hg hm).1, hinj.partner?_eq_some_iff.2 hm, ?_⟩
      refine Bool.eq_false_iff.2 fun hin => ?_
      rw [(isKept_iff hinj).2 ⟨m, hinj.partner?_eq_some_iff.2 hm, hin⟩] at h
      cases h
  · intro h
    refine Bool.eq_false_iff.2 fun hk => ?_
    obtain ⟨m, hm, hin⟩ := (isKept_iff hinj).1 hk
    rcases h with h | ⟨m', -, hm', hin'⟩
    · rw [Pairing.isTaken_iff.2 ⟨m, hinj.partner?_eq_some_iff.1 hm⟩] at h
      cases h
    · rw [hinj.eq_left (hinj.partner?_eq_some_iff.1 hm) (hinj.partner?_eq_some_iff.1 hm'), hin'] at hin
      cases hin

/-- Nodes that are not kept are deleted, nodes that are not in place inserted, and nodes in place whose label changed
renamed. -/
theorem mem_edits_iff {e : Edit} : e ∈ start.edits goal ↔
    (∃ n ∈ start.nodes, (of start goal).isKept n = false ∧ e = deletionOf start n) ∨
    (∃ m ∈ goal.nodes, (of start goal).inPlace m = false ∧
      e = (of start goal).insertionOf start goal m ((of start goal).partner? m)) ∨
    (∃ m ∈ goal.nodes, (of start goal).inPlace m = true ∧ ∃ n, (of start goal).partner? m = some n ∧
      start.label n ≠ goal.label m ∧ e = renameOf start goal n m) := by
  unfold View.edits edits
  rw [List.mem_eraseDups, List.mem_append, List.mem_map, List.mem_flatMap]
  constructor
  · rintro (⟨n, hn, rfl⟩ | ⟨m, hm, he⟩)
    · obtain ⟨hn, ht⟩ := List.mem_filter.1 hn
      exact .inl ⟨n, hn, (isKept_eq_false_iff hs hg).2 (.inl (by simpa using ht)), rfl⟩
    · rcases mem_nodeEdits_iff.1 he with ⟨hin, rfl | ⟨n, hn, rfl⟩⟩ | ⟨hin, n, hn, hl, rfl⟩
      · exact .inr (.inl ⟨m, hm, hin, rfl⟩)
      · have hnode := (mem_nodes_of_partner? hs hg hn).2
        exact .inl ⟨n, hnode, (isKept_eq_false_iff hs hg).2 (.inr ⟨m, hm, hn, hin⟩), rfl⟩
      · exact .inr (.inr ⟨m, hm, hin, n, hn, hl, rfl⟩)
  · rintro (⟨n, hn, hk, rfl⟩ | ⟨m, hm, hin, rfl⟩ | ⟨m, hm, hin, n, hn, hl, rfl⟩)
    · rcases (isKept_eq_false_iff hs hg).1 hk with ht | ⟨m, hm, hmn, hin⟩
      · exact .inl ⟨n, List.mem_filter.2 ⟨hn, by simp [ht]⟩, rfl⟩
      · exact .inr ⟨m, hm, mem_nodeEdits_iff.2 (.inl ⟨hin, .inr ⟨n, hmn, rfl⟩⟩)⟩
    · exact .inr ⟨m, hm, mem_nodeEdits_iff.2 (.inl ⟨hin, .inl rfl⟩)⟩
    · exact .inr ⟨m, hm, mem_nodeEdits_iff.2 (.inr ⟨hin, n, hn, hl, rfl⟩)⟩

/-! ## The edits of one kind -/

theorem deletion_mem_edits_iff (hpath : start.DistinctPaths) {n : ν} (hn : n ∈ start.nodes) :
    deletionOf start n ∈ start.edits goal ↔ (of start goal).isKept n = false := by
  rw [mem_edits_iff hs hg]
  constructor
  · rintro (⟨n', hn', hk, he⟩ | ⟨m, -, -, he⟩ | ⟨m, -, -, n', -, -, he⟩)
    · rwa [View.key_injective hpath hn hn' (Edit.deletion.inj he).1]
    · cases he
    · cases he
  · intro hk
    exact .inl ⟨n, hn, hk, rfl⟩

theorem insertion_mem_edits_iff {label : Label} {relation : Option String} {parent after source : Option Key} :
    .insertion label relation parent after source ∈ start.edits goal ↔
      ∃ m ∈ goal.nodes, (of start goal).inPlace m = false ∧
        .insertion label relation parent after source =
          (of start goal).insertionOf start goal m ((of start goal).partner? m) := by
  rw [mem_edits_iff hs hg]
  constructor
  · rintro (⟨n, -, -, he⟩ | h | ⟨m, -, -, n, -, -, he⟩)
    · cases he
    · exact h
    · cases he
  · exact fun h => .inr (.inl h)

theorem renameOf_mem_edits_iff {μ' : Type} {other : View μ'} {m' : μ'} {n : ν} :
    renameOf start other n m' ∈ start.edits goal ↔
      ∃ m ∈ goal.nodes, (of start goal).inPlace m = true ∧ ∃ n', (of start goal).partner? m = some n' ∧
        start.label n' ≠ goal.label m ∧ renameOf start other n m' = renameOf start goal n' m := by
  rw [mem_edits_iff hs hg]
  constructor
  · rintro (⟨n, -, -, he⟩ | ⟨m, -, -, he⟩ | h)
    · cases he
    · cases he
    · exact h
  · exact fun h => .inr (.inr h)

end Correspondence

attribute [ext] Label

/-- The renaming of a node tells its new label. -/
theorem Correspondence.renameOf_injective {μ' : Type} {other : View μ'} {n : ν} {m : μ} {m' : μ'}
    (h : renameOf start goal n m = renameOf start other n m') : goal.label m = other.label m' := by
  obtain ⟨-, -, -, ht, hv, hid⟩ := Edit.rename.inj h
  have hids : (goal.label m).id = (other.label m').id := by
    split at hid
    · split at hid
      · exact (Prod.mk.inj (Option.some.inj hid)).2
      · cases hid
    · rename_i hm
      split at hid
      · cases hid
      · rename_i hm'
        rw [← not_not.1 hm, ← not_not.1 hm']
  exact Label.ext ht hv hids

/-! ## Keys in edits -/

/-- The key of the node that an insertion with these fields inserts. -/
def Edit.insertedKey (label : Label) (relation : Option String) (parent after source : Option Key) : Key :=
  source.getD (.fresh parent relation label.type label.value after)

namespace View

variable [DecidableEq μ] [DecidableEq ν] (start goal)

/-- The key of a goal node. -/
def keyOf (m : μ) : Key :=
  (Correspondence.of start goal).goalKey start goal m

/-- The keys of the children of a goal node, in order. -/
def childKeys (m : μ) : List Key :=
  (goal.children m).map (start.keyOf goal)

/-- Whether a key is that of a kept start node. -/
def isKeptKey (k : Key) : Bool :=
  start.nodes.any fun n => start.key n = k && (Correspondence.of start goal).isKept n

variable {start goal}

/-- An insertion names the node that it inserts. -/
theorem insertedKey_insertionOf (hg : goal.Lawful) {m : μ} (hm : m ∈ goal.nodes) {label : Label}
    {relation : Option String} {parent after source : Option Key} (h : Edit.insertion label relation parent after source =
      (Correspondence.of start goal).insertionOf start goal m ((Correspondence.of start goal).partner? m)) :
    Edit.insertedKey label relation parent after source = start.keyOf goal m := by
  obtain ⟨rfl, rfl, rfl, rfl, rfl⟩ := Edit.insertion.inj h
  unfold Edit.insertedKey keyOf
  cases hp : (Correspondence.of start goal).partner? m with
  | none => rw [Correspondence.goalKey_of_new hg hm hp]; rfl
  | some n => rw [Correspondence.goalKey_of_partner hg hp]; rfl

variable (hs : start.Lawful) (hg : goal.Lawful) (hpath : start.DistinctPaths)
include hs hg hpath

theorem keyOf_injective {m m' : μ} (hm : m ∈ goal.nodes) (hm' : m' ∈ goal.nodes)
    (h : start.keyOf goal m = start.keyOf goal m') : m = m' :=
  Correspondence.goalKey_injective hs hg hpath m hm m' hm' h

/-- The kept keys are those of the goal nodes in place. -/
theorem isKeptKey_keyOf {m : μ} (hm : m ∈ goal.nodes) :
    start.isKeptKey goal (start.keyOf goal m) = (Correspondence.of start goal).inPlace m := by
  have hinj : (Correspondence.of start goal).pairs.Injective := Pairing.injective_of hs hg
  unfold isKeptKey keyOf
  rw [Bool.eq_iff_iff, List.any_eq_true]
  constructor
  · rintro ⟨n, hn, h⟩
    obtain ⟨hkey, hk⟩ := Bool.and_eq_true_iff.1 h
    have hp := (Correspondence.goalKey_eq_key_iff hs hg hpath hm hn).1 (of_decide_eq_true hkey).symm
    obtain ⟨m', hp', hin⟩ := (Correspondence.isKept_iff hinj).1 hk
    rwa [hinj.eq_left (hinj.partner?_eq_some_iff.1 hp) (hinj.partner?_eq_some_iff.1 hp')]
  · intro hin
    obtain ⟨⟨n, hp⟩, -⟩ := Correspondence.inPlace_iff.1 hin
    have hn := (Correspondence.mem_nodes_of_partner? hs hg hp).2
    refine ⟨n, hn, Bool.and_eq_true_iff.2 ⟨decide_eq_true ?_, (Correspondence.isKept_iff hinj).2 ⟨m, hp, hin⟩⟩⟩
    exact (Correspondence.goalKey_of_partner hg hp).symm

theorem nodup_childKeys {m : μ} (hm : m ∈ goal.nodes) : (start.childKeys goal m).Nodup := by
  refine List.Nodup.map_on (fun c hc c' hc' h => ?_) (hg.nodup_children hm)
  exact keyOf_injective hs hg hpath (hg.mem_nodes_of_child hm hc) (hg.mem_nodes_of_child hm hc') h

/-- Below a node that has a partner, the kept keys are those of the partner's kept children, in order. -/
theorem filter_childKeys {m : μ} {n : ν} (hp : (Correspondence.of start goal).partner? m = some n) :
    (start.childKeys goal m).filter (start.isKeptKey goal) =
      ((start.children n).filter (Correspondence.of start goal).isKept).map start.key := by
  have hm := (Correspondence.mem_nodes_of_partner? hs hg hp).1
  have hkeys : ∀ l : List μ, (l.filter (Correspondence.of start goal).inPlace).map (start.keyOf goal) =
      ((l.filter (Correspondence.of start goal).inPlace).filterMap
        (Correspondence.of start goal).partner?).map start.key := by
    intro l
    rw [List.map_filterMap, ← List.filterMap_eq_map]
    refine List.filterMap_congr fun c hc => ?_
    obtain ⟨⟨d, hd⟩, -⟩ := Correspondence.inPlace_iff.1 (List.mem_filter.1 hc).2
    rw [hd, Option.map_some, Function.comp_apply, keyOf, Correspondence.goalKey_of_partner hg hd]
  have hkept : (goal.children m).filter (start.isKeptKey goal ∘ start.keyOf goal) =
      (goal.children m).filter (Correspondence.of start goal).inPlace :=
    List.filter_congr fun c hc => isKeptKey_keyOf hs hg hpath (hg.mem_nodes_of_child hm hc)
  unfold childKeys
  rw [List.filter_map, hkept, hkeys, Correspondence.partners_inPlace hs hg hp]

/-- Below a new node nothing is kept. -/
theorem filter_childKeys_of_new {m : μ} (hm : m ∈ goal.nodes)
    (hp : (Correspondence.of start goal).partner? m = none) : (start.childKeys goal m).filter (start.isKeptKey goal) = [] := by
  refine List.filter_eq_nil_iff.2 fun k hk hkept => ?_
  obtain ⟨c, hc, rfl⟩ := List.mem_map.1 hk
  rw [isKeptKey_keyOf hs hg hpath (hg.mem_nodes_of_child hm hc)] at hkept
  obtain ⟨⟨d, hd⟩, -⟩ := Correspondence.inPlace_iff.1 hkept
  obtain ⟨n, hn, -⟩ := Correspondence.parents_of_inPlace hs hg hm hc hkept hd
  rw [hp] at hn
  cases hn

/-- The insertions below a key are the children that are not kept, each after what it follows. -/
theorem follows_childKeys_iff {m : μ} (hm : m ∈ goal.nodes) {k : Key} {after : Option Key}
    (hk : start.isKeptKey goal k = false) : Follows (start.childKeys goal m) after k ↔
      ∃ label relation source, .insertion label relation (some (start.keyOf goal m)) after source ∈ start.edits goal ∧
        Edit.insertedKey label relation (some (start.keyOf goal m)) after source = k := by
  constructor
  · intro h
    obtain ⟨o, c, hf, rfl, rfl⟩ := h.of_map
    have hc := hf.mem
    have hcn := hg.mem_nodes_of_child hm hc
    rw [isKeptKey_keyOf hs hg hpath hcn] at hk
    obtain rfl := hf.eq (hg.nodup_children hm) (hg.follows_preceding? hm hc)
    have hins : Edit.insertion (goal.label c) (goal.relation? c) (some (start.keyOf goal m))
        ((goal.preceding? c).map (start.keyOf goal)) (((Correspondence.of start goal).partner? c).map start.key) =
          (Correspondence.of start goal).insertionOf start goal c ((Correspondence.of start goal).partner? c) := by
      rw [Correspondence.insertionOf, hg.parent_of_child hm hc]
      rfl
    exact ⟨_, _, _, (Correspondence.insertion_mem_edits_iff hs hg).2 ⟨c, hcn, hk, hins⟩,
      insertedKey_insertionOf hg hcn hins⟩
  · rintro ⟨label, relation, source, he, rfl⟩
    obtain ⟨c, hcn, hin, he⟩ := (Correspondence.insertion_mem_edits_iff hs hg).1 he
    rw [insertedKey_insertionOf hg hcn he]
    obtain ⟨-, -, hparent, rfl, -⟩ := Edit.insertion.inj he
    -- the parent of the inserted node has the key of `m`, so it is `m`
    obtain ⟨p, hp, hpkey⟩ := Option.map_eq_some_iff.1 hparent.symm
    have hpn : p ∈ goal.nodes := (hg.parent_before hcn hp).subset List.mem_cons_self
    obtain rfl := keyOf_injective hs hg hpath hpn hm hpkey
    have hcroot : c ≠ goal.root := by
      rintro rfl
      rw [hg.parent_root] at hp
      cases hp
    have hc := (hg.mem_children hpn).2 ⟨hg.mem_descendants.2 ⟨hcn, hcroot⟩, hp⟩
    exact (hg.follows_preceding? hpn hc).map (start.keyOf goal)

end View

end HintQuality
