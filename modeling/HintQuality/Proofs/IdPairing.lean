import HintQuality.Correspondence
import HintQuality.Proofs.LawfulView
/-!
# Pairs by ids

Pairings as partial injections, and what the first two phases of pairing add up to: the roots are paired, and with
them exactly the nodes below the roots that share an id found once in either tree (`mem_byId`). No node is paired
twice (`injective_byId`).
-/

namespace HintQuality

variable {μ ν : Type}

namespace Pairing

/-! ## Partial injections -/

/-- No node of either tree is paired twice. -/
structure Injective (ps : Pairing μ ν) : Prop where
  /-- No goal node is paired twice. -/
  left : (ps.map Prod.fst).Nodup
  /-- No start node is paired twice. -/
  right : (ps.map Prod.snd).Nodup

theorem isTaken_iff [DecidableEq ν] {ps : Pairing μ ν} {n : ν} : ps.isTaken n = true ↔ ∃ m, (m, n) ∈ ps := by
  simp [isTaken]

theorem partner?_eq_none_iff [DecidableEq μ] {ps : Pairing μ ν} {m : μ} :
    ps.partner? m = none ↔ ∀ n, (m, n) ∉ ps := by
  rw [partner?, List.lookup_eq_none_iff]
  constructor
  · intro h n hn
    simpa using h (m, n) hn
  · rintro h ⟨k, n⟩ hk
    rw [bne_iff_ne]
    rintro rfl
    exact h n hk

theorem mem_of_partner? [DecidableEq μ] {ps : Pairing μ ν} {m : μ} {n : ν} (h : ps.partner? m = some n) :
    (m, n) ∈ ps := by
  obtain ⟨l, r, rfl, -⟩ := List.lookup_eq_some_iff.1 h
  simp

namespace Injective

variable {ps : Pairing μ ν} (h : ps.Injective)
include h

theorem eq_right {m : μ} {n n' : ν} (hn : (m, n) ∈ ps) (hn' : (m, n') ∈ ps) : n = n' := by
  have := List.inj_on_of_nodup_map h.left hn hn' rfl
  exact (Prod.mk.inj this).2

theorem eq_left {m m' : μ} {n : ν} (hm : (m, n) ∈ ps) (hm' : (m', n) ∈ ps) : m = m' := by
  have := List.inj_on_of_nodup_map h.right hm hm' rfl
  exact (Prod.mk.inj this).1

/-- The partner of a node is the one it is paired with. -/
theorem partner?_eq_some_iff [DecidableEq μ] {m : μ} {n : ν} : ps.partner? m = some n ↔ (m, n) ∈ ps := by
  refine ⟨mem_of_partner?, fun hm => ?_⟩
  cases hp : ps.partner? m with
  | none => exact absurd hm (partner?_eq_none_iff.1 hp n)
  | some n' => rw [h.eq_right hm (mem_of_partner? hp)]

theorem cons {m : μ} {n : ν} (hm : ∀ n', (m, n') ∉ ps) (hn : ∀ m', (m', n) ∉ ps) : Injective ((m, n) :: ps) := by
  constructor
  · rw [List.map_cons, List.nodup_cons]
    refine ⟨fun hmem => ?_, h.left⟩
    obtain ⟨⟨k, n'⟩, hk, rfl⟩ := List.mem_map.1 hmem
    exact hm n' hk
  · rw [List.map_cons, List.nodup_cons]
    refine ⟨fun hmem => ?_, h.right⟩
    obtain ⟨⟨m', k⟩, hk, rfl⟩ := List.mem_map.1 hmem
    exact hn m' hk

end Injective

/-! ## Pairs by ids -/

theorem mem_withId {v : View ν} {x : String} {n : ν} : n ∈ v.withId x ↔ n ∈ v.nodes ∧ (v.label n).id = some x := by
  simp [View.withId]

theorem id_of_withId {v : View ν} {x : String} {n : ν} (h : v.withId x = [n]) :
    n ∈ v.nodes ∧ (v.label n).id = some x :=
  mem_withId.1 (by simp [h])

/-- Two nodes below the roots that have the same id, which no other node of either tree has. -/
def Identified (start : View ν) (goal : View μ) (m : μ) (n : ν) : Prop :=
  m ≠ goal.root ∧ n ≠ start.root ∧ ∃ x, goal.withId x = [m] ∧ start.withId x = [n]

variable {start : View ν} {goal : View μ}

namespace Identified

theorem mem_left {m : μ} {n : ν} (h : Identified start goal m n) : m ∈ goal.nodes := by
  obtain ⟨-, -, x, hm, -⟩ := h
  exact (id_of_withId hm).1

theorem mem_right {m : μ} {n : ν} (h : Identified start goal m n) : n ∈ start.nodes := by
  obtain ⟨-, -, x, -, hn⟩ := h
  exact (id_of_withId hn).1

/-- The id that identifies a node is its own. -/
theorem withId {m : μ} {n : ν} (h : Identified start goal m n) {x : String} (hx : (goal.label m).id = some x) :
    goal.withId x = [m] ∧ start.withId x = [n] := by
  obtain ⟨-, -, y, hm, hn⟩ := h
  have hy : x = y := Option.some.inj (hx.symm.trans (id_of_withId hm).2)
  rw [hy]
  exact ⟨hm, hn⟩

theorem eq_right {m : μ} {n n' : ν} (h : Identified start goal m n) (h' : Identified start goal m n') : n = n' := by
  obtain ⟨-, -, x, hm, hn⟩ := h
  have := (h'.withId (id_of_withId hm).2).2
  rw [hn] at this
  exact List.singleton_inj.1 this

theorem eq_left {m m' : μ} {n : ν} (h : Identified start goal m n) (h' : Identified start goal m' n) : m = m' := by
  obtain ⟨-, -, x, hm, hn⟩ := h
  obtain ⟨-, -, x', hm', hn'⟩ := h'
  have hx : x = x' := Option.some.inj ((id_of_withId hn).2.symm.trans (id_of_withId hn').2)
  rw [hx, hm'] at hm
  exact (List.singleton_inj.1 hm).symm

/-- A start node of the same id as a node that shares its id is the one it shares it with. -/
theorem eq_right_of_id {m : μ} {n n' : ν} (h : Identified start goal m n) (hn' : n' ∈ start.nodes)
    (hid : (start.label n').id = (goal.label m).id) : n = n' := by
  obtain ⟨-, -, x, hm, hn⟩ := h
  have hmem : n' ∈ start.withId x := mem_withId.2 ⟨hn', hid.trans (id_of_withId hm).2⟩
  rw [hn, List.mem_singleton] at hmem
  exact hmem.symm

/-- A goal node of the same id as a node that shares its id is the one it shares it with. -/
theorem eq_left_of_id {m m' : μ} {n : ν} (h : Identified start goal m n) (hm' : m' ∈ goal.nodes)
    (hid : (goal.label m').id = (start.label n).id) : m = m' := by
  obtain ⟨-, -, x, hm, hn⟩ := h
  have hmem : m' ∈ goal.withId x := mem_withId.2 ⟨hm', hid.trans (id_of_withId hn).2⟩
  rw [hm, List.mem_singleton] at hmem
  exact hmem.symm

end Identified

/-- What the pairs are after the nodes of `pre` have been looked up by their ids. -/
structure ByIdUpTo (start : View ν) (goal : View μ) (pre : List μ) (ps : Pairing μ ν) : Prop where
  /-- No node is paired twice. -/
  injective : ps.Injective
  /-- The pairs are the roots and what shares its id with a node of `pre`. -/
  mem_iff : ∀ m n, (m, n) ∈ ps ↔ (m = goal.root ∧ n = start.root) ∨ (m ∈ pre ∧ Identified start goal m n)

namespace ByIdUpTo

variable {pre : List μ} {a : μ} {ps : Pairing μ ν} (h : ByIdUpTo start goal pre ps)
include h

/-- A node that shares its id with none adds no pair. -/
theorem skip (ha : ∀ n, ¬Identified start goal a n) : ByIdUpTo start goal (pre ++ [a]) ps := by
  refine ⟨h.injective, fun m n => ?_⟩
  rw [h.mem_iff]
  refine or_congr_right ⟨fun hm => ⟨List.mem_append_left _ hm.1, hm.2⟩, fun hm => ⟨?_, hm.2⟩⟩
  rcases List.mem_append.1 hm.1 with hp | hp
  · exact hp
  · rw [List.mem_singleton.1 hp] at hm
    exact absurd hm.2 (ha n)

/-- A node that shares its id adds a pair. -/
theorem add (hpre : a ∉ pre) {n : ν} (hfree : ∀ m, (m, n) ∉ ps) (hn : Identified start goal a n) :
    ByIdUpTo start goal (pre ++ [a]) ((a, n) :: ps) := by
  refine ⟨h.injective.cons (fun n' hn' => ?_) hfree, fun m n' => ?_⟩
  · rcases (h.mem_iff _ _).1 hn' with ⟨e, -⟩ | ⟨hp, -⟩
    · exact hn.1 e
    · exact hpre hp
  · rw [List.mem_cons, h.mem_iff, Prod.mk.injEq, List.mem_append, List.mem_singleton]
    constructor
    · rintro (⟨rfl, rfl⟩ | hr | hp)
      · exact .inr ⟨.inr rfl, hn⟩
      · exact .inl hr
      · exact .inr ⟨.inl hp.1, hp.2⟩
    · rintro (hr | ⟨hp | rfl, hm⟩)
      · exact .inr (.inl hr)
      · exact .inr (.inr ⟨hp, hm⟩)
      · exact .inl ⟨rfl, hm.eq_right hn⟩

/-- Looking up one more node by its id. -/
theorem pairById [DecidableEq ν] (ha : a ∈ goal.nodes) (hroot : a ≠ goal.root) (hpre : a ∉ pre) :
    ByIdUpTo start goal (pre ++ [a]) (Pairing.pairById start goal ps a) := by
  unfold Pairing.pairById
  cases hx : (goal.label a).id with
  | none =>
    refine h.skip fun n hn => ?_
    obtain ⟨-, -, x, hm, -⟩ := hn
    have := (id_of_withId hm).2
    rw [hx] at this
    cases this
  | some x =>
    dsimp only
    split
    · rename_i k n hk hn
      have hka : a = k := by
        have : a ∈ goal.withId x := mem_withId.2 ⟨ha, hx⟩
        rw [hk] at this
        exact List.mem_singleton.1 this
      subst hka
      split
      · -- the start node with the id is taken, and only the root can have taken it
        rename_i htaken
        refine h.skip fun n' hn' => ?_
        have hnn : n = n' := by
          have := (hn'.withId hx).2
          rw [hn] at this
          exact List.singleton_inj.1 this
        subst hnn
        obtain ⟨m, hm⟩ := isTaken_iff.1 htaken
        rcases (h.mem_iff m n).1 hm with ⟨-, e⟩ | ⟨hp, hm'⟩
        · exact hn'.2.1 e
        · exact hpre (hm'.eq_left hn' ▸ hp)
      · rename_i htaken
        have hfree : ∀ m, (m, n) ∉ ps := fun m hm => htaken (isTaken_iff.2 ⟨m, hm⟩)
        have hne : n ≠ start.root := by
          rintro rfl
          exact hfree goal.root ((h.mem_iff _ _).2 (.inl ⟨rfl, rfl⟩))
        exact h.add hpre hfree ⟨hroot, hne, x, hk, hn⟩
    · rename_i hno
      refine h.skip fun n hn => ?_
      obtain ⟨h1, h2⟩ := hn.withId hx
      exact hno a n h1 h2

end ByIdUpTo

variable [DecidableEq ν]

/-- The pairs before siblings are aligned. -/
def byId (start : View ν) (goal : View μ) : Pairing μ ν :=
  addIds start goal (ofRoots start goal)

theorem byIdUpTo_byId (hg : goal.Lawful) : ByIdUpTo start goal goal.descendants (byId start goal) := by
  refine foldl_prefix_invariant (P := ByIdUpTo start goal) ?_ fun pre a post ps hl h => ?_
  · exact ⟨⟨by simp [ofRoots], by simp [ofRoots]⟩, fun m n => by simp [ofRoots]⟩
  · have ha : a ∈ goal.descendants := by rw [hl]; simp
    have hd := hg.nodup_descendants
    rw [hl] at hd
    refine h.pairById (hg.mem_descendants.1 ha).1 (hg.mem_descendants.1 ha).2 fun hp => ?_
    exact (List.disjoint_of_nodup_append hd) hp (by simp)

theorem injective_byId (hg : goal.Lawful) : (byId start goal).Injective :=
  (byIdUpTo_byId hg).injective

/-- Before siblings are aligned, the roots are paired, and the nodes that share an id found once in either tree. -/
theorem mem_byId (hg : goal.Lawful) {m : μ} {n : ν} :
    (m, n) ∈ byId start goal ↔ (m = goal.root ∧ n = start.root) ∨ Identified start goal m n := by
  rw [(byIdUpTo_byId hg).mem_iff]
  refine or_congr_right ⟨And.right, fun h => ⟨?_, h⟩⟩
  exact hg.mem_descendants.2 ⟨h.mem_left, h.1⟩

end Pairing

end HintQuality
