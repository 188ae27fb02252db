import HintQuality.Proofs.NormalValues
import HintQuality.Proofs.Unchanged
/-!
# Lost ids

A result in which nothing happened but that nodes lost their ids, or got new ones, is the start again when it is
normalized (`lostIds_normal`). Whatever ids are lost, kept or repeated, an id that is found leads to the node's own
place (`LosesIds.eq_of_identified`), so the children of a node are twins of themselves and all nodes are their own start
nodes (`LosesIds.mem_of`).
-/

namespace HintQuality

/-- The goal is the start, except that nodes below the root may have lost their ids or have ids that are found nowhere
in the start. -/
structure LosesIds (start goal : Tree) : Prop where
  /-- The slots have the same relation labels, and the same ones are taken. -/
  slots : ∀ p ∈ start.positions, goal.slotsAt p = start.slotsAt p
  /-- The roots have the same type, value and id. -/
  root : goal.label = start.label
  /-- The types are the same. -/
  type : ∀ p ∈ start.positions, (goal.labelAt p).type = (start.labelAt p).type
  /-- The values are the same. -/
  value : ∀ p ∈ start.positions, (goal.labelAt p).value = (start.labelAt p).value
  /-- The ids are the same, or gone, or new. -/
  id : ∀ p ∈ start.positions, p ≠ [] → (goal.labelAt p).id = (start.labelAt p).id ∨
    FreshId start.view (goal.labelAt p).id

namespace LosesIds

variable {policy : Policy} {start goal : Tree}

theorem refl (t : Tree) : LosesIds t t :=
  ⟨fun _ _ => rfl, rfl, fun _ _ => rfl, fun _ _ => rfl, fun _ _ _ => .inl rfl⟩

variable (h : LosesIds start goal)
include h

theorem positions : goal.positions = start.positions :=
  (Tree.positions_eq_of_slotsAt fun p hp => (h.slots p hp).symm).symm

/-- A node that shares its id with a node of the start is that node. -/
theorem eq_of_identified {p q : Position} (hid : Pairing.Identified start.view goal.view p q) : p = q := by
  obtain ⟨hne, -, x, hp, hq⟩ := hid
  obtain ⟨hnode, hx⟩ := Pairing.id_of_withId hp
  obtain ⟨hstart, hqx⟩ := Pairing.id_of_withId hq
  rw [Tree.view_nodes, h.positions] at hnode
  rcases h.id p hnode hne with hsame | hfresh
  · have hmem : p ∈ start.view.withId x :=
      Pairing.mem_withId.2 ⟨by rwa [Tree.view_nodes], hsame.symm.trans hx⟩
    rwa [hq, List.mem_singleton] at hmem
  · exact absurd hqx (hfresh x hx q hstart)

/-- The children of a node are twins of themselves. -/
theorem twins (p : Position) :
    Pairing.Twins start.view goal.view p p (start.view.children p) (fun c => c) (fun c => c) := by
  have hnode : ∀ c ∈ start.view.children p, c ∈ start.positions := by
    intro c hc
    obtain ⟨i, rfl, hi⟩ := Tree.mem_children_slotsAt.1 hc
    exact hi
  refine ⟨?_, (List.map_id' _).symm, fun c hc => ?_, fun c _ q hid => (h.eq_of_identified hid).symm,
    fun c _ q hid => h.eq_of_identified hid⟩
  · rw [List.map_id', Tree.children_of_positions h.positions]
  · have htype : (start.view.label c).type = (goal.view.label c).type := (h.type c (hnode c hc)).symm
    have hvalue : (start.view.label c).value = (goal.view.label c).value := (h.value c (hnode c hc)).symm
    simp [Pairing.sameContent, htype, hvalue]

/-- Every node is its own start node. -/
theorem mem_of (p : Position) : p ∈ start.positions → (p, p) ∈ Pairing.of start.view goal.view := by
  induction p using List.reverseRecOn with
  | nil => exact fun _ => Pairing.roots_mem start.view_lawful goal.view_lawful
  | append_singleton p i ih =>
    intro hp
    have hparents := ih (Tree.mem_positions_of_snoc hp)
    exact (h.twins p).mem_of start.view_lawful goal.view_lawful hparents (Tree.mem_children_slotsAt.2 ⟨i, rfl, hp⟩)

/-- The start knows all values. -/
theorem filter_value {p : Position} (hp : p ∈ start.positions) :
    (goal.labelAt p).value.filter (keepsValue policy start.view.values) = (goal.labelAt p).value := by
  refine Option.ext fun v => ?_
  rw [Option.filter_eq_some_iff]
  refine and_iff_left_of_imp fun hv => keepsValue_iff.2 (.inl ⟨p, hp, ?_⟩)
  rw [← h.value p hp, hv]

/-- No value is forgotten. -/
theorem forgetValues_eq : forgetValues policy start.view.values goal = goal := by
  refine Tree.mapLabels_eq_self fun p hp => ?_
  rw [h.positions] at hp
  unfold forgetValue
  split
  · rfl
  · rw [h.filter_value hp]

/-- Every node gets its id back. -/
theorem normalizeValues_eq : normalizeValues policy start goal = start := by
  refine Tree.ext_of_slotsAt (fun p hp => ?_) fun p hp => ?_ <;>
    rw [positions_normalizeValues, h.positions] at hp
  · rw [normalizeValues, normalizeValuesAgainst, adoptIds, Tree.slotsAt_mapLabels, slotsAt_forgetValues, h.slots p hp]
  · by_cases hne : p = []
    · subst hne
      exact (label_normalizeValues policy start goal).trans h.root
    · have hown : startNode? policy start goal p = some p := by
        rw [startNode?, h.forgetValues_eq]
        exact (Correspondence.partner?_eq_some_iff start.view_lawful goal.view_lawful).2 (h.mem_of p hp)
      rw [labelAt_normalizeValues (h.positions ▸ hp) hne, hown, h.filter_value hp, h.type p hp, h.value p hp]
      rfl

end LosesIds

/-- A result in which nodes only lost their ids, or got new ones, is the start again when it is normalized. So no edits
are left, and its normal form is that of the start itself. -/
theorem lostIds_normal {start goal : Tree} (h : LosesIds start goal) (policy : Policy) :
    normalizeValues policy start goal = start ∧ start.edits (normalizeValues policy start goal) = [] ∧
      normalForm policy start goal = normalForm policy start start := by
  have hgoal : normalizeValues policy start goal = start := h.normalizeValues_eq
  have hstart : normalizeValues policy start start = start := (LosesIds.refl start).normalizeValues_eq
  refine ⟨hgoal, ?_, ?_⟩
  · rw [hgoal]
    exact Tree.edits_eq_nil_of_sameExcept ⟨rfl, fun _ _ => rfl, fun _ _ _ => rfl⟩
  · rw [normalForm, normalForm, hgoal, hstart]

/-- Siblings of the same content of which one lost its id, and a loop that got a new id which its child has too. -/
theorem lostIds_normal_of_siblings :
    let start : Tree := .node ⟨"script", none, some "s"⟩
      [⟨"0", some (.leaf ⟨"move", some "10", some "a"⟩)⟩, ⟨"1", some (.leaf ⟨"move", some "10", some "b"⟩)⟩,
        ⟨"2", some (.node ⟨"loop", none, some "c"⟩ [⟨"0", some (.leaf ⟨"move", some "10", some "d"⟩)⟩])⟩]
    let goal : Tree := .node ⟨"script", none, some "s"⟩
      [⟨"0", some (.leaf ⟨"move", some "10", none⟩)⟩, ⟨"1", some (.leaf ⟨"move", some "10", some "b"⟩)⟩,
        ⟨"2", some (.node ⟨"loop", none, some "x"⟩ [⟨"0", some (.leaf ⟨"move", some "10", some "x"⟩)⟩])⟩]
    start ≠ goal ∧ normalizeValues {} start goal = start ∧ start.edits (normalizeValues {} start goal) = [] ∧
      normalForm {} start goal = normalForm {} start start := by
  intro start goal
  have h : LosesIds start goal := by
    refine ⟨?_, rfl, ?_, ?_, ?_⟩ <;> decide +kernel
  exact ⟨by decide +kernel, lostIds_normal h {}⟩

end HintQuality
