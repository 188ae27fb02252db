import HintQuality.Proofs.Renaming
/-!
# One more node

What one more node below a node `p` of the goal does to the pairs. A node without an id and without children is paired
by no id, and it takes part in the alignment of its siblings only (`View.Extends.childPairs_eq`). So all other nodes
keep their partners exactly if that one alignment still pairs the siblings as before
(`View.Extends.mem_of_iff_undisturbed`), which it does if the start has nothing left to align there
(`View.Extends.undisturbed_of_taken`).
-/

namespace HintQuality

/-! ## One more node -/

variable {μ κ ν : Type}

/-- The second tree has the nodes of the first one under other names, and one more node without an id. No children
change but those of `p`. -/
structure View.Extends (a : View μ) (b : View κ) (f : μ → κ) (x : κ) (p : μ) : Prop where
  /-- Nodes keep apart. -/
  injective : Function.Injective f
  /-- The new node is none of the old ones. -/
  new : ∀ m, f m ≠ x
  /-- The root stays the root. -/
  root : b.root = f a.root
  /-- There are no other nodes. -/
  mem_nodes : ∀ k, k ∈ b.nodes ↔ k = x ∨ ∃ m ∈ a.nodes, f m = k
  /-- The old nodes keep their labels. -/
  label : ∀ m, b.label (f m) = a.label m
  /-- They keep their children, in order, except for one of them, -/
  children : ∀ m, m ≠ p → b.children (f m) = (a.children m).map f
  /-- which keeps them too, but may have the new node among them. -/
  mem_children : ∀ m, f m ∈ b.children (f p) ↔ m ∈ a.children p
  /-- The new node has no id. -/
  newId : (b.label x).id = none

/-- Below each partner of `p`, the children of `p` are paired as they are without the new node. -/
def Pairing.Undisturbed [DecidableEq μ] [DecidableEq κ] [DecidableEq ν] (start : View ν) (goal : View μ)
    (goal' : View κ) (f : μ → κ) (p : μ) : Prop :=
  ∀ n, (p, n) ∈ Pairing.of start goal → ∀ m d, (f m, d) ∈ childPairs start goal' (byId start goal') (f p) n ↔
    (m, d) ∈ childPairs start goal (byId start goal) p n

namespace View.Extends

variable {start : View ν} {goal : View μ} {goal' : View κ} {f : μ → κ} {x : κ} {p : μ} (h : goal.Extends goal' f x p)
include h

theorem mem_nodes_iff {m : μ} : f m ∈ goal'.nodes ↔ m ∈ goal.nodes := by
  rw [h.mem_nodes]
  constructor
  · rintro (he | ⟨m', hm', he⟩)
    · exact absurd he (h.new m)
    · rwa [← h.injective he]
  · exact fun hm => .inr ⟨m, hm, rfl⟩

theorem ne_root_iff {m : μ} : f m ≠ goal'.root ↔ m ≠ goal.root := by
  rw [h.root, h.injective.ne_iff]

/-- The new node is not found by an id. -/
theorem withId_eq_iff (hg : goal.Lawful) (hg' : goal'.Lawful) {y : String} {m : μ} :
    goal'.withId y = [f m] ↔ goal.withId y = [m] := by
  have hone : ∀ {ρ : Type} {v : View ρ}, v.Lawful → ∀ k, v.withId y = [k] ↔ ∀ k', k' ∈ v.withId y ↔ k' = k := by
    intro ρ v hv k
    have hnd : (v.withId y).Nodup := hv.nodup.filter _
    rw [← List.perm_singleton, List.perm_ext_iff_of_nodup hnd (List.nodup_singleton k)]
    simp only [List.mem_singleton]
  have hx : x ∉ goal'.withId y := by
    rw [Pairing.mem_withId, h.newId]
    exact fun hx => nomatch hx.2
  have hold : ∀ m, f m ∈ goal'.withId y ↔ m ∈ goal.withId y := by
    intro m
    rw [Pairing.mem_withId, Pairing.mem_withId, h.mem_nodes_iff, h.label]
  rw [hone hg, hone hg']
  constructor
  · intro hk m'
    rw [← hold, hk, h.injective.eq_iff]
  · intro hk k
    constructor
    · intro hmem
      rcases (h.mem_nodes k).1 (Pairing.mem_withId.1 hmem).1 with rfl | ⟨m', -, rfl⟩
      · exact absurd hmem hx
      · rw [(hk m').1 ((hold m').1 hmem)]
    · rintro rfl
      exact (hold m).2 ((hk m).2 rfl)

theorem identified_iff (hg : goal.Lawful) (hg' : goal'.Lawful) {m : μ} {n : ν} :
    Pairing.Identified start goal' (f m) n ↔ Pairing.Identified start goal m n := by
  unfold Pairing.Identified
  rw [h.ne_root_iff]
  simp only [h.withId_eq_iff hg hg']

theorem not_identified {n : ν} : ¬Pairing.Identified start goal' x n := by
  rintro ⟨-, -, y, hx, -⟩
  have hid := (Pairing.id_of_withId hx).2
  rw [h.newId] at hid
  cases hid

variable [DecidableEq μ] [DecidableEq κ] [DecidableEq ν] (hs : start.Lawful) (hg : goal.Lawful) (hg' : goal'.Lawful)
include hs hg hg'

omit [DecidableEq μ] [DecidableEq κ] hs in
/-- By ids, the same nodes are paired. -/
theorem mem_byId_iff {k : κ} {n : ν} : (k, n) ∈ Pairing.byId start goal' ↔
    ∃ m, f m = k ∧ (m, n) ∈ Pairing.byId start goal := by
  rw [Pairing.mem_byId hg']
  constructor
  · rintro (⟨rfl, rfl⟩ | hid)
    · exact ⟨goal.root, h.root.symm, (Pairing.mem_byId hg).2 (.inl ⟨rfl, rfl⟩)⟩
    · rcases (h.mem_nodes k).1 hid.mem_left with rfl | ⟨m, -, rfl⟩
      · exact absurd hid h.not_identified
      · exact ⟨m, rfl, (Pairing.mem_byId hg).2 (.inr ((h.identified_iff hg hg').1 hid))⟩
  · rintro ⟨m, rfl, hm⟩
    rcases (Pairing.mem_byId hg).1 hm with ⟨rfl, rfl⟩ | hid
    · exact .inl ⟨h.root.symm, rfl⟩
    · exact .inr ((h.identified_iff hg hg').2 hid)

omit hs in
/-- Siblings are aligned as before, except where the new node is among them. -/
theorem childPairs_eq {m : μ} (hm : m ≠ p) (n : ν) :
    Pairing.childPairs start goal' (Pairing.byId start goal') (f m) n =
      (Pairing.childPairs start goal (Pairing.byId start goal) m n).map (Prod.map f id) := by
  refine Pairing.childPairs_map (k := id) (fun _ => rfl) h.label (List.map_id _).symm (h.children m hm) (fun d _ => ?_)
    fun c _ => ?_
  · rw [id, Bool.eq_iff_iff, Pairing.isTaken_iff, Pairing.isTaken_iff]
    simp only [h.mem_byId_iff hg hg']
    exact ⟨fun ⟨_, m, _, hm⟩ => ⟨m, hm⟩, fun ⟨m, hm⟩ => ⟨f m, m, rfl, hm⟩⟩
  · rw [Bool.eq_iff_iff, Option.isNone_iff_eq_none, Option.isNone_iff_eq_none, Pairing.partner?_eq_none_iff,
      Pairing.partner?_eq_none_iff]
    refine forall_congr' fun d => not_congr ?_
    rw [h.mem_byId_iff hg hg']
    exact ⟨fun ⟨m, he, hm⟩ => h.injective he ▸ hm, fun hm => ⟨c, rfl, hm⟩⟩

omit hs in
theorem mem_childPairs_iff {m : μ} (hm : m ≠ p) {c : μ} {d n : ν} :
    (f c, d) ∈ Pairing.childPairs start goal' (Pairing.byId start goal') (f m) n ↔
      (c, d) ∈ Pairing.childPairs start goal (Pairing.byId start goal) m n := by
  rw [h.childPairs_eq hg hg' hm, List.mem_map]
  constructor
  · rintro ⟨⟨c', d'⟩, hc, he⟩
    obtain ⟨hc', rfl⟩ := Prod.mk.inj he
    rwa [← h.injective hc']
  · exact fun hc => ⟨(c, d), hc, rfl⟩

omit hs [DecidableEq μ] [DecidableEq κ] [DecidableEq ν] hg hg' in
theorem mem_children_iff {m c : μ} : f c ∈ goal'.children (f m) ↔ c ∈ goal.children m := by
  by_cases hm : m = p
  · rw [hm, h.mem_children]
  · rw [h.children m hm, List.mem_map_of_injective h.injective]

/-- The other nodes keep their partners exactly if the new node does not disturb the alignment of its siblings. -/
theorem mem_of_iff_undisturbed (hp : p ∈ goal.nodes) :
    (∀ m ∈ goal.nodes, ∀ n, (f m, n) ∈ Pairing.of start goal' ↔ (m, n) ∈ Pairing.of start goal) ↔
      Pairing.Undisturbed start goal goal' f p := by
  constructor
  · intro hsame n hn m d
    have hn' := (hsame p hp n).2 hn
    rw [Pairing.mem_childPairs_iff hs hg' hn', Pairing.mem_childPairs_iff hs hg hn, h.mem_children_iff,
      h.identified_iff hg hg']
    constructor
    · rintro ⟨hmd, hm, hid⟩
      exact ⟨(hsame m (hg.mem_nodes_of_child hp hm) d).1 hmd, hm, hid⟩
    · rintro ⟨hmd, hm, hid⟩
      exact ⟨(hsame m (hg.mem_nodes_of_child hp hm) d).2 hmd, hm, hid⟩
  · intro hundisturbed
    refine hg.induct (fun n => ?_) fun m' hm' m hm ih n => ?_
    · rw [← h.root]
      -- both roots are paired with the root of the start, and with nothing else
      constructor
      · intro hn
        rw [(Pairing.root_iff hs hg' hn).1 rfl]
        exact Pairing.roots_mem hs hg
      · intro hn
        rw [(Pairing.root_iff hs hg hn).1 rfl]
        exact Pairing.roots_mem hs hg'
    · rw [Pairing.mem_of_child_iff hs hg hm' hm,
        Pairing.mem_of_child_iff hs hg' (h.mem_nodes_iff.2 hm') (h.mem_children_iff.2 hm), h.identified_iff hg hg']
      refine or_congr_right (exists_congr fun n' => ?_)
      rw [ih]
      refine and_congr_right fun hn' => ?_
      by_cases hmp : m' = p
      · subst hmp
        exact hundisturbed n' hn' m n
      · exact h.mem_childPairs_iff hg hg' hmp

/-- Nothing is disturbed where all children of the partner are paired by their ids. -/
theorem undisturbed_of_taken {n : ν} (hn : (p, n) ∈ Pairing.of start goal)
    (htaken : ∀ d ∈ start.children n, (Pairing.byId start goal).isTaken d = true) :
    Pairing.Undisturbed start goal goal' f p := by
  intro n' hn' m d
  obtain rfl := (Pairing.injective_of hs hg).eq_right hn hn'
  constructor
  · intro hmd
    obtain ⟨-, hd, hfree⟩ := Pairing.of_mem_childPairs hmd
    obtain ⟨m', hm'⟩ := Pairing.isTaken_iff.1 (htaken d hd)
    rw [Pairing.isTaken_iff.2 ⟨f m', (h.mem_byId_iff hg hg').2 ⟨m', rfl, hm'⟩⟩] at hfree
    cases hfree
  · intro hmd
    obtain ⟨-, hd, hfree⟩ := Pairing.of_mem_childPairs hmd
    rw [htaken d hd] at hfree
    cases hfree

end View.Extends

end HintQuality
