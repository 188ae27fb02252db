import HintQuality.Edit.KeyTable
import HintQuality.Proofs.Keys
import HintQuality.Proofs.WellFormed
/-!
# Keys made in pre-order

The keys that a key is made of are those of nodes before it (`pair_sublist_of_mem_keyParts`), so making keys from keys
ends (`acc_keyParts`), and whoever makes them in pre-order finds what is asked for in the table (`keyTable?_eq`).
`keys_identify` says so of any two trees, and that keys tell the nodes apart.
-/

namespace HintQuality

variable {μ ν : Type} [DecidableEq μ] {start : View ν} {goal : View μ} {c : Correspondence μ ν} (hg : goal.Lawful)

namespace Correspondence

include hg

/-- A key is made of keys of nodes before it. -/
theorem pair_sublist_of_mem_keyParts {m k : μ} (hm : m ∈ goal.nodes) (hk : k ∈ c.keyParts goal m) :
    [k, m].Sublist goal.nodes := by
  unfold keyParts at hk
  split at hk
  · cases hk
  · rcases List.mem_append.1 hk with hk | hk
    · exact hg.parent_before hm (Option.mem_toList.1 hk)
    · exact hg.preceding?_before hm (Option.mem_toList.1 hk)

/-- Going from a node to those that its key is made of, and on from these, ends. -/
theorem acc_keyParts : ∀ m ∈ goal.nodes, Acc (fun k m => k ∈ c.keyParts goal m) m :=
  hg.induct_before fun m hm ih => Acc.intro m fun k hk => ih k (pair_sublist_of_mem_keyParts hg hm hk)

/-- A table of all nodes before a node has the keys that its key is made of. -/
theorem keyFrom?_eq {before after : List μ} {m : μ} (hnodes : goal.nodes = before ++ m :: after) :
    c.keyFrom? start goal (before.map fun k => (k, c.goalKey start goal k)) m = some (c.goalKey start goal m) := by
  have hm : m ∈ goal.nodes := by simp [hnodes]
  have hbefore : ∀ k, [k, m].Sublist goal.nodes → k ∈ before := by
    intro k hk
    have hnodup := hg.nodup
    rw [hnodes] at hk hnodup
    exact mem_of_pair_sublist hnodup hk
  have hfound : ∀ o : Option μ, (∀ k, o = some k → [k, m].Sublist goal.nodes) →
      keyIn? (before.map fun k => (k, c.goalKey start goal k)) o = some (o.map (c.goalKey start goal)) := by
    intro o ho
    cases o with
    | none => rfl
    | some k =>
      rw [keyIn?, List.lookup_graph (c.goalKey start goal) (hbefore k (ho k rfl))]
      rfl
  unfold keyFrom?
  cases hp : c.partner? m with
  | some n => rw [goalKey_of_partner hg hp]
  | none =>
    rw [goalKey_of_new hg hm hp, hfound _ fun k hk => hg.parent_before hm hk,
      hfound _ fun k hk => hg.preceding?_before hm hk]
    rfl

theorem foldlM_keyFrom? (after before : List μ) (hnodes : goal.nodes = before ++ after) :
    after.foldlM (fun table m => (c.keyFrom? start goal table m).map fun k => table ++ [(m, k)])
      (before.map fun m => (m, c.goalKey start goal m)) =
        some (goal.nodes.map fun m => (m, c.goalKey start goal m)) := by
  induction after generalizing before with
  | nil =>
    rw [hnodes, List.append_nil]
    rfl
  | cons m after ih =>
    have hnext := ih (before ++ [m]) (by simp [hnodes])
    rw [List.map_append] at hnext
    rw [List.foldlM_cons, keyFrom?_eq hg hnodes]
    exact hnext

/-- In pre-order every key is made, of keys that are there. -/
theorem keyTable?_eq : c.keyTable? start goal = some (goal.nodes.map fun m => (m, c.goalKey start goal m)) :=
  foldlM_keyFrom? hg goal.nodes [] rfl

end Correspondence

/-- What keys are good for, and how they are made. -/
structure KeysIdentify [DecidableEq ν] (start : View ν) (goal : View μ) (c : Correspondence μ ν) : Prop where
  /-- Start nodes have distinct keys. -/
  starts : ∀ n ∈ start.nodes, ∀ n' ∈ start.nodes, start.key n = start.key n' → n = n'
  /-- Goal nodes have distinct keys. -/
  goals : ∀ m ∈ goal.nodes, ∀ m' ∈ goal.nodes, c.goalKey start goal m = c.goalKey start goal m' → m = m'
  /-- A goal node and a start node have one key exactly if they are partners. -/
  partners : ∀ m ∈ goal.nodes, ∀ n ∈ start.nodes, c.goalKey start goal m = start.key n ↔ c.partner? m = some n
  /-- The key of a goal node is made of keys of nodes before it. -/
  before : ∀ m ∈ goal.nodes, ∀ k ∈ c.keyParts goal m, [k, m].Sublist goal.nodes
  /-- Making keys of keys ends. -/
  ends : ∀ m ∈ goal.nodes, Acc (fun k m => k ∈ c.keyParts goal m) m
  /-- In pre-order no key is asked for before it is there. -/
  table : c.keyTable? start goal = some (goal.nodes.map fun m => (m, c.goalKey start goal m))

/-- Between a start with distinct sibling labels and any goal, keys tell the nodes apart, and they are made in
pre-order. -/
theorem keys_identify {start : Tree} (hd : start.DistinctLabels) (goal : Tree) :
    KeysIdentify start.view goal.view (Correspondence.of start.view goal.view) := by
  have hs := start.view_lawful
  have hg := goal.view_lawful
  have hpath := hd.distinctPaths
  refine ⟨fun n hn n' hn' h => ?_, Correspondence.goalKey_injective hs hg hpath, fun m hm n hn => ?_,
    fun m hm k hk => ?_, Correspondence.acc_keyParts hg, Correspondence.keyTable?_eq hg⟩
  · exact View.key_injective hpath hn hn' h
  · exact Correspondence.goalKey_eq_key_iff hs hg hpath hm hn
  · exact Correspondence.pair_sublist_of_mem_keyParts hg hm hk

/-- A start with an id that stands twice, and a goal with a new node, one below it and one after it. -/
theorem keys_identify_nested :
    let start := Tree.node ⟨"script", none, some "s"⟩ [⟨"0", some (.leaf ⟨"move", some "10", some "m"⟩)⟩,
      ⟨"1", some (.leaf ⟨"move", some "10", some "m"⟩)⟩]
    let goal := Tree.node ⟨"script", none, some "s"⟩ [⟨"0", some (.leaf ⟨"move", some "10", some "m"⟩)⟩,
      ⟨"1", some (.node ⟨"loop", none, none⟩ [⟨"0", some (.leaf ⟨"move", some "10", some "m"⟩)⟩])⟩,
      ⟨"2", some (.leaf ⟨"loop", none, none⟩)⟩]
    let c := Correspondence.of start.view goal.view
    start.DistinctLabels ∧ (start.view.nodes.map start.view.key).Nodup ∧
      c.keyTable? start.view goal.view = some (goal.view.nodes.map fun m => (m, c.goalKey start.view goal.view m)) ∧
      c.goalKey start.view goal.view [2] =
        .fresh (some (.id "s")) (some "2") "loop" none (some (.fresh (some (.id "s")) (some "1") "loop" none
          (some (.path ["0"])))) := by
  intro start goal c
  have hlabels : start.DistinctLabels := by decide
  have h := keys_identify hlabels goal
  exact ⟨hlabels, start.view_lawful.nodup.map_on h.starts, h.table, by decide +kernel⟩

end HintQuality
