import HintQuality.Edit.Key
import HintQuality.Proofs.Moves
/-!
# Keys tell nodes apart

If no two nodes of the start are reached by the same relation labels, their keys are distinct
(`View.key_injective`), and so are the keys of the goal nodes (`Correspondence.goalKey_injective`): a new node is the
one that follows its preceding sibling below its parent, and both of these come earlier. The key of a goal node is
that of a start node exactly if the two are partners (`goalKey_eq_key_iff`).
-/

namespace HintQuality

variable {μ ν : Type} {start : View ν} {goal : View μ}

/-! ## Start nodes -/

namespace View

/-- No two nodes are reached by the same relation labels. -/
def DistinctPaths (v : View ν) : Prop :=
  ∀ n ∈ v.nodes, ∀ n' ∈ v.nodes, v.path n = v.path n' → n = n'

/-- The key of a start node is its id, which no other node has, or its way from the root. -/
theorem key_cases (start : View ν) (n : ν) :
    (∃ x, start.key n = .id x ∧ (start.label n).id = some x ∧ (start.withId x).length = 1) ∨
      start.key n = .path (start.path n) := by
  unfold key
  cases hx : (start.label n).id with
  | none => exact .inr rfl
  | some x =>
    by_cases h1 : (start.withId x).length = 1
    · exact .inl ⟨x, if_pos h1, rfl, h1⟩
    · exact .inr (if_neg h1)

/-- Start nodes have distinct keys. -/
theorem key_injective (hpath : start.DistinctPaths) {n n' : ν} (hn : n ∈ start.nodes) (hn' : n' ∈ start.nodes)
    (h : start.key n = start.key n') : n = n' := by
  rcases start.key_cases n with ⟨x, hk, hx, h1⟩ | hk <;> rcases start.key_cases n' with ⟨x', hk', hx', -⟩ | hk' <;>
    rw [hk, hk'] at h
  · obtain rfl := Key.id.inj h
    obtain ⟨k, hone⟩ := List.length_eq_one_iff.1 h1
    have hm : n ∈ start.withId x := Pairing.mem_withId.2 ⟨hn, hx⟩
    have hm' : n' ∈ start.withId x := Pairing.mem_withId.2 ⟨hn', hx'⟩
    rw [hone, List.mem_singleton] at hm hm'
    rw [hm, hm']
  · cases h
  · cases h
  · exact hpath n hn n' hn' (Key.path.inj h)

/-- No start node has the key of a new node. -/
theorem key_ne_fresh (start : View ν) (n : ν) {parent after : Option Key} {relation value : Option String}
    {type : String} : start.key n ≠ .fresh parent relation type value after := by
  intro h
  rcases start.key_cases n with ⟨x, hk, -⟩ | hk <;> rw [hk] at h <;> cases h

end View

/-! ## Goal nodes -/

namespace Correspondence

variable [DecidableEq μ]

/-- Enough fuel gives the same key. -/
theorem goalKeyWithin_eq (c : Correspondence μ ν) (hg : goal.Lawful) : ∀ m ∈ goal.nodes, ∀ fuel fuel',
    goal.nodes.idxOf m < fuel → goal.nodes.idxOf m < fuel' →
      c.goalKeyWithin start goal fuel m = c.goalKeyWithin start goal fuel' m := by
  refine hg.induct_before fun m hm ih fuel fuel' hf hf' => ?_
  obtain ⟨fuel, rfl⟩ := Nat.exists_eq_add_one_of_ne_zero (Nat.ne_zero_of_lt hf)
  obtain ⟨fuel', rfl⟩ := Nat.exists_eq_add_one_of_ne_zero (Nat.ne_zero_of_lt hf')
  unfold goalKeyWithin
  cases c.partner? m with
  | some n => rfl
  | none =>
    have hbefore : ∀ k, [k, m].Sublist goal.nodes →
        c.goalKeyWithin start goal fuel k = c.goalKeyWithin start goal fuel' k := by
      intro k hk
      have := idxOf_lt_of_pair_sublist hg.nodup hk
      exact ih k hk fuel fuel' (by omega) (by omega)
    dsimp only
    congr 1
    · cases hp : goal.parent m with
      | none => rfl
      | some p => rw [Option.map_some, Option.map_some, hbefore p (hg.parent_before hm hp)]
    · cases hb : goal.preceding? m with
      | none => rfl
      | some b => rw [Option.map_some, Option.map_some, hbefore b (hg.preceding?_before hm hb)]

/-- The key of a node that has a partner is its partner's. -/
theorem goalKey_of_partner {c : Correspondence μ ν} (hg : goal.Lawful) {m : μ} {n : ν}
    (hn : c.partner? m = some n) : c.goalKey start goal m = start.key n := by
  have hpos : goal.bound ≠ 0 := by
    have := hg.length_le_bound
    rw [View.nodes, List.length_cons] at this
    omega
  obtain ⟨fuel, hfuel⟩ := Nat.exists_eq_add_one_of_ne_zero hpos
  unfold goalKey
  rw [hfuel, goalKeyWithin, hn]

/-- The key of a new node says where it stands and what it is. -/
theorem goalKey_of_new {c : Correspondence μ ν} (hg : goal.Lawful) {m : μ} (hm : m ∈ goal.nodes)
    (hn : c.partner? m = none) : c.goalKey start goal m =
      .fresh ((goal.parent m).map (c.goalKey start goal)) (goal.relation? m) (goal.label m).type (goal.label m).value
        ((goal.preceding? m).map (c.goalKey start goal)) := by
  have hidx := List.idxOf_lt_length_of_mem hm
  have hbound := hg.length_le_bound
  have hmore : c.goalKey start goal m = c.goalKeyWithin start goal (goal.bound + 1) m :=
    c.goalKeyWithin_eq hg m hm _ _ (by omega) (by omega)
  rw [hmore, goalKeyWithin, hn]
  rfl

variable [DecidableEq ν] (hs : start.Lawful) (hg : goal.Lawful) (hpath : start.DistinctPaths)
include hs hg hpath

/-- A goal node has the key of a start node exactly if they are partners. -/
theorem goalKey_eq_key_iff {m : μ} {n : ν} (hm : m ∈ goal.nodes) (hn : n ∈ start.nodes) :
    (of start goal).goalKey start goal m = start.key n ↔ (of start goal).partner? m = some n := by
  constructor
  · intro h
    cases hp : (of start goal).partner? m with
    | none =>
      rw [goalKey_of_new hg hm hp] at h
      exact absurd h.symm (start.key_ne_fresh n)
    | some n' =>
      rw [goalKey_of_partner hg hp] at h
      have hn' := (mem_nodes_of_partner? hs hg hp).2
      rw [View.key_injective hpath hn' hn h]
  · exact goalKey_of_partner hg

omit hpath in
/-- New nodes of one key are the same, if the keys of earlier nodes are distinct from those of others. -/
theorem eq_of_goalKey_of_new {m m' : μ} (hm : m ∈ goal.nodes) (hm' : m' ∈ goal.nodes)
    (hp : (of start goal).partner? m = none) (hp' : (of start goal).partner? m' = none)
    (hbefore : ∀ k, [k, m].Sublist goal.nodes → ∀ k' ∈ goal.nodes,
      (of start goal).goalKey start goal k = (of start goal).goalKey start goal k' → k = k')
    (h : (of start goal).goalKey start goal m = (of start goal).goalKey start goal m') : m = m' := by
  have hdesc : ∀ {k}, k ∈ goal.nodes → (of start goal).partner? k = none → k ∈ goal.descendants := by
    intro k hk hnone
    refine hg.mem_descendants.2 ⟨hk, ?_⟩
    rintro rfl
    rw [(partner?_eq_some_iff hs hg).2 (Pairing.roots_mem hs hg)] at hnone
    cases hnone
  obtain ⟨p, hpn, hpar, hmp, hpm⟩ := hg.child_of_descendant (hdesc hm hp)
  obtain ⟨p', hpn', hpar', hmp', -⟩ := hg.child_of_descendant (hdesc hm' hp')
  rw [goalKey_of_new hg hm hp, goalKey_of_new hg hm' hp', hpar, hpar'] at h
  obtain ⟨hkey, -, -, -, hafter⟩ := Key.fresh.inj h
  obtain rfl := hbefore p hpm p' hpn' (Option.some.inj hkey)
  have hf := hg.follows_preceding? hpn hmp
  have hf' := hg.follows_preceding? hpn hmp'
  -- the nodes they follow have the same key, and come before `m`
  have hsame : goal.preceding? m = goal.preceding? m' := by
    cases hb : goal.preceding? m with
    | none =>
      rw [hb, Option.map_none] at hafter
      exact (Option.map_eq_none_iff.1 hafter.symm).symm
    | some b =>
      rw [hb, Option.map_some] at hafter
      obtain ⟨b', hb', hbkey⟩ := Option.map_eq_some_iff.1 hafter.symm
      have hbn' : b' ∈ goal.nodes := (hg.preceding?_before hm' hb').subset List.mem_cons_self
      rw [hbefore b (hg.preceding?_before hm hb) b' hbn' hbkey.symm, hb']
  rw [hsame] at hf
  exact hf.unique (hg.nodup_children hpn) hf'

/-- Goal nodes have distinct keys. -/
theorem goalKey_injective : ∀ m ∈ goal.nodes, ∀ m' ∈ goal.nodes,
    (of start goal).goalKey start goal m = (of start goal).goalKey start goal m' → m = m' := by
  refine hg.induct_before fun m hm ih m' hm' h => ?_
  cases hp : (of start goal).partner? m with
  | some n =>
    have hmn := (partner?_eq_some_iff hs hg).1 hp
    rw [goalKey_of_partner hg hp] at h
    have hp' := (goalKey_eq_key_iff hs hg hpath hm' (Pairing.mem_nodes_of hs hg hmn).2).1 h.symm
    exact (Pairing.injective_of hs hg).eq_left hmn ((partner?_eq_some_iff hs hg).1 hp')
  | none =>
    cases hp' : (of start goal).partner? m' with
    | none => exact eq_of_goalKey_of_new hs hg hm hm' hp hp' ih h
    | some n =>
      rw [goalKey_of_partner hg hp', goalKey_of_new hg hm hp] at h
      exact absurd h.symm (start.key_ne_fresh n)

end Correspondence

end HintQuality
