import HintQuality.Proofs.FreshNames
import HintQuality.Proofs.Stability
/-!
# What normal values are

Normalizing leaves the root alone and changes nothing below it but values and ids (`bare_normalizeValues`). A value is
kept if the start knows it or if it is a number where numbers matter (`labelAt_normalizeValues`, `keepsValue_iff`), and
an id is that of the node's start node, which is below the root too and the start node of no other node
(`startNode?_spec`).
-/

namespace HintQuality

/-! ## Labels -/

/-- The tree with nothing but its types and relation labels. -/
def Tree.bare (t : Tree) : Tree :=
  t.mapLabels fun _ l => { type := l.type }

/-- Changing labels twice is changing them once. -/
theorem Tree.mapLabels_mapLabels (f g : Position → Label → Label) (t : Tree) :
    (t.mapLabels f).mapLabels g = t.mapLabels fun p l => g p (f p l) := by
  refine ext_of_slotsAt (fun p _ => by simp only [slotsAt_mapLabels]) fun p hp => ?_
  rw [positions_mapLabels] at hp
  rw [labelAt_mapLabels g hp]
  rw [positions_mapLabels] at hp
  rw [labelAt_mapLabels _ hp, labelAt_mapLabels _ hp]

variable {policy : Policy} {start goal : Tree}

/-- Normalizing changes nothing but values and ids. -/
theorem bare_normalizeValues (policy : Policy) (start goal : Tree) :
    (normalizeValues policy start goal).bare = goal.bare := by
  rw [normalizeValues, normalizeValuesAgainst, adoptIds, forgetValues, Tree.bare, Tree.bare, Tree.mapLabels_mapLabels,
    Tree.mapLabels_mapLabels]
  congr 1
  funext p l
  simp only [adoptId, forgetValue]
  split <;> rfl

/-- The root is left alone. -/
theorem label_normalizeValues (policy : Policy) (start goal : Tree) :
    (normalizeValues policy start goal).label = goal.label := by
  cases goal
  rfl

theorem positions_normalizeValues (policy : Policy) (start goal : Tree) :
    (normalizeValues policy start goal).positions = goal.positions := by
  rw [normalizeValues, normalizeValuesAgainst, adoptIds, forgetValues, Tree.positions_mapLabels,
    Tree.positions_mapLabels]

/-- The start node that a node of the goal belongs to when it is normalized. -/
def startNode? (policy : Policy) (start goal : Tree) (p : Position) : Option Position :=
  (Correspondence.of start.view (forgetValues policy start.view.values goal).view).partner? p

/-- Below the root, the label of a normalized node. -/
theorem labelAt_normalizeValues {p : Position} (hp : p ∈ goal.positions) (hne : p ≠ []) :
    (normalizeValues policy start goal).labelAt p =
      ⟨(goal.labelAt p).type, (goal.labelAt p).value.filter (keepsValue policy start.view.values),
        (startNode? policy start goal p).bind fun q => (start.labelAt q).id⟩ := by
  have hforget : p ∈ (forgetValues policy start.view.values goal).positions := by
    rwa [forgetValues, Tree.positions_mapLabels]
  rw [normalizeValues, normalizeValuesAgainst, adoptIds, Tree.labelAt_mapLabels _ hforget, labelAt_forgetValues,
    adoptId, forgetValue, if_neg (by simpa using hne), if_neg (by simpa using hne), lookup_eq_partner?]
  rfl

/-- A value is kept if a node of the start has it, or if it is a number where numbers matter. -/
theorem keepsValue_iff {v : String} : keepsValue policy start.view.values v = true ↔
    (∃ q ∈ start.positions, (start.labelAt q).value = some v) ∨
      (policy.specificNumericLiterals = true ∧ isNumeral v = true) := by
  rw [keepsValue, Bool.or_eq_true, Bool.and_eq_true, decide_eq_true_iff, View.values, List.mem_filterMap,
    Tree.view_nodes]
  rfl

/-! ## Start nodes -/

/-- Below the roots, start nodes are nodes of the start, and no two nodes have the same one. -/
theorem startNode?_spec {p q : Position} (h : startNode? policy start goal p = some q) :
    q ∈ start.positions ∧ (p ≠ [] → q ≠ []) ∧
      ∀ {p'}, startNode? policy start goal p' = some q → p' = p := by
  have hs := start.view_lawful
  have hg := (forgetValues policy start.view.values goal).view_lawful
  have hpair := (Correspondence.partner?_eq_some_iff hs hg).1 h
  refine ⟨?_, fun hne hq => hne ((Pairing.root_iff hs hg hpair).2 hq), fun h' => ?_⟩
  · have hnode := (Pairing.mem_nodes_of hs hg hpair).2
    rwa [Tree.view_nodes] at hnode
  · exact (Pairing.injective_of hs hg).eq_left ((Correspondence.partner?_eq_some_iff hs hg).1 h') hpair

/-- The id of a normalized node is that of its start node. -/
theorem exists_startNode_of_id {p : Position} {x : String} (hp : p ∈ goal.positions) (hne : p ≠ [])
    (hx : ((normalizeValues policy start goal).labelAt p).id = some x) :
    ∃ q, startNode? policy start goal p = some q ∧ (start.labelAt q).id = some x := by
  rw [labelAt_normalizeValues hp hne] at hx
  exact Option.bind_eq_some_iff.1 hx

end HintQuality
