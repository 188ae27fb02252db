import HintQuality.Proofs.NormalizingInPlace
import HintQuality.Proofs.PruningInPlace
/-!
# Nodes that pruning empties

Leftovers are taken out before attachments, and not looked for again. So a node of a type that needs children can lose
the last of them as attachments and stay, and there is no other way in which a childless one stays
(`normalForm_childless_iff`). Such nodes are new, moved or changed, and all their slots hold attachments that are
childless or are emptied themselves (`EndsChildless`). A script with nothing but a literal is one
(`normalForm_keeps_emptied`). In place, a copy is normalized and then pruned (`Grove.normalForm_side`).
-/

namespace HintQuality

open HintQuality.Tree

/-- A node has no slots, or it was added and all its slots hold attachments that lose theirs. -/
inductive EndsChildless (policy : Policy) (added : List Position) (t : Tree) : Position → Prop where
  /-- It has no slots. -/
  | childless {p : Position} : t.slotsAt p = [] → EndsChildless policy added t p
  /-- It loses all that it has. -/
  | emptied {p : Position} : p ≠ [] → p ∈ added → (∀ s ∈ t.slotsAt p, s.child.isSome) →
      (∀ c ∈ t.view.children p, policy.trimIfParentIsAdded (t.labelAt c).type = true) →
      (∀ c ∈ t.view.children p, EndsChildless policy added t c) → EndsChildless policy added t p

variable {policy : Policy} {added : List Position} {t : Tree}

/-- Nothing is left in the slots of a node exactly if they all hold children and none of these stays. -/
theorem Tree.slots_restrictFrom_eq_nil_iff {keep : Position → Bool} {u : Tree} {p : Position}
    (hu : t.subtree? p = some u) : (u.restrictFrom keep p).slots = [] ↔
      (∀ s ∈ t.slotsAt p, s.child.isSome) ∧ ∀ c ∈ t.view.children p, keep c = false := by
  rw [slots_restrictFrom_eq_nil hu, List.filter_eq_nil_iff]
  constructor
  · intro h
    refine ⟨fun s hs => ?_, fun c hc => ?_⟩
    · have := h s hs
      rw [isLeft] at this
      cases hchild : s.child with
      | none => simp [hchild] at this
      | some c => rfl
    · obtain ⟨s, hs, hchild⟩ := List.mem_filterMap.1 hc
      have := h s hs
      rw [isLeft, hchild] at this
      simpa using this
  · rintro ⟨hfull, hkeep⟩ s hs
    obtain ⟨c, hc⟩ := Option.isSome_iff_exists.1 (hfull s hs)
    rw [isLeft, hc, Option.all_some, hkeep c (List.mem_filterMap.2 ⟨s, hs, hc⟩)]
    exact Bool.false_ne_true

/-- A node loses all its slots exactly if it was added and they hold attachments that lose theirs, if it has any. -/
theorem slots_detachFrom_eq_nil_iff (u : Tree) : ∀ {p : Position}, t.subtree? p = some u →
    ((detachFrom policy (· ∈ added) p u).slots = [] ↔ EndsChildless policy added t p) := by
  induction u using Tree.induct with
  | h l s ih =>
    intro p hu
    have hchild : ∀ c ∈ t.view.children p, staysAttached policy (· ∈ added) t c = false ↔ p ≠ [] ∧ p ∈ added ∧
        policy.trimIfParentIsAdded (t.labelAt c).type = true ∧ EndsChildless policy added t c := by
      intro c hc
      obtain ⟨i, rfl, hi⟩ := mem_children_slotsAt.1 hc
      obtain ⟨w, hw⟩ := Option.isSome_iff_exists.1 (mem_positions.1 hi)
      have hslot := hw
      rw [subtree?_snoc, hu, Option.bind_some] at hslot
      obtain ⟨⟨r, c⟩, hs, hc⟩ := Option.bind_eq_some_iff.1 hslot
      obtain rfl : c = some w := hc
      rw [staysAttached_eq_false_iff hw, decide_eq_true_iff, ih r w (List.mem_of_getElem? hs) hw]
    rw [detachFrom_of_subtree? _ hu, slots_restrictFrom_eq_nil_iff hu]
    constructor
    · rintro ⟨hfull, hgone⟩
      cases hslots : t.slotsAt p with
      | nil => exact .childless hslots
      | cons s rest =>
        have hs : s ∈ t.slotsAt p := by
          rw [hslots]
          exact List.mem_cons_self
        obtain ⟨c, hc⟩ := Option.isSome_iff_exists.1 (hfull s hs)
        have hmem : c ∈ t.view.children p := List.mem_filterMap.2 ⟨s, hs, hc⟩
        obtain ⟨hne, hadded, -⟩ := (hchild c hmem).1 (hgone c hmem)
        exact .emptied hne hadded hfull (fun c hc => ((hchild c hc).1 (hgone c hc)).2.2.1)
          fun c hc => ((hchild c hc).1 (hgone c hc)).2.2.2
    · rintro (hslots | ⟨hne, hadded, hfull, hattached, hends⟩)
      · have hnone : t.view.children p = [] := congrArg Slots.children hslots
        rw [hslots, hnone]
        simp
      · exact ⟨hfull, fun c hc => (hchild c hc).2 ⟨hne, hadded, hattached c hc, hends c hc⟩⟩

/-- Normalizing one of two trees that stand side by side and pruning the copy gives its normal form, and both stay as
they are. -/
theorem Grove.normalForm_side (policy : Policy) (start : Tree) {goal : Tree} (hd : goal.DistinctLabels) :
    let (g, n, m) := side start goal
    ∃ g₁ k g₂, g.normalizeValues policy n m = .ok (g₁, k) ∧ g₁.prune policy n k = .ok g₂ ∧
      g₂.tree k = normalForm policy start goal ∧ g₂.tree n = start ∧ g₂.tree m = goal := by
  obtain ⟨g, name', name, hside, hs, h, -⟩ := exists_stands_side start goal
  rw [hside]
  obtain ⟨g₁, copy, hg₁, hnew⟩ := hs.normalizeValues policy (m := name []) (by rwa [h.tree])
  rw [h.tree] at hnew
  have hapart : ∀ {t : Tree} {old : Position → Nat}, g.Stands t old → ∀ p ∈ t.positions,
      old p ∉ (HintQuality.normalizeValues policy start goal).positions.map copy := by
    intro t old ht p hp hmem
    obtain ⟨q, hq, he⟩ := List.mem_map.1 hmem
    exact hnew.apart ht hp hq he.symm
  have hs₁ : g₁.Stands start name' := hs.of_keeps hnew.keeps
  have h₁ : g₁.Stands goal name := h.of_keeps hnew.keeps
  obtain ⟨g₂, way, hg₂, hpart, hform, hsame⟩ := hs₁.prune policy hnew.stands (hapart hs)
  have hs₂ : g₂.Stands start name' := hs₁.of_sameBut hsame (hapart hs)
  have h₂ : g₂.Stands goal name := h₁.of_sameBut hsame (hapart h)
  refine ⟨g₁, copy [], g₂, hg₁, hg₂, ?_, hs₂.tree, h₂.tree⟩
  have htree := hform.tree
  rwa [Function.comp_apply, hpart.root] at htree

/-- The normal form is what normalizing and pruning in place give. Below the root, it has a childless node of a type
that needs children exactly where a node of such a type, which had some when leftovers were taken out, was added and
loses them all as attachments. -/
theorem normalForm_childless_iff (policy : Policy) (start goal : Tree) :
    let trimmed := pruneLeftovers policy (normalizeValues policy start goal)
    let form := normalForm policy start goal
    let added := (Correspondence.of start.view trimmed.view).added start.view trimmed.view
    (goal.DistinctLabels → let (g, n, m) := Grove.side start goal
      ∃ g₁ k g₂, g.normalizeValues policy n m = .ok (g₁, k) ∧ g₁.prune policy n k = .ok g₂ ∧
        g₂.tree k = form ∧ g₂.tree n = start ∧ g₂.tree m = goal) ∧
    ∃ way : Position → Position, form.IsPart trimmed way ∧ ∀ r ∈ form.positions, r ≠ [] →
      (form.slotsAt r = [] ∧ policy.trimIfChildless (form.labelAt r).type = true ↔
        policy.trimIfChildless (trimmed.labelAt (way r)).type = true ∧ trimmed.slotsAt (way r) ≠ [] ∧
          EndsChildless policy added trimmed (way r)) := by
  intro trimmed form added
  have hpart : form.IsPart trimmed (trimmed.origin (staysAttached policy (· ∈ added) trimmed)) :=
    detachFrom_isPart policy _ trimmed
  refine ⟨Grove.normalForm_side policy start, _, hpart, fun r hr hne => ?_⟩
  obtain ⟨v, hv⟩ := Option.isSome_iff_exists.1 (mem_positions.1 hr)
  obtain ⟨u, hu, rfl⟩ := exists_of_detachFrom hv
  rw [slotsAt_eq_nil_iff hv, slots_detachFrom_eq_nil_iff u hu, hpart.label r hr, and_comm]
  refine and_congr_right fun hchildless => (and_iff_right ?_).symm
  -- leftovers are gone, so it has slots before it loses them
  have hsays := not_isLeftover_of_pruneLeftovers hu (mt (hpart.way_eq_nil_iff hr).1 hne)
  rw [labelAt_of_subtree? hu] at hchildless
  rw [ne_eq, slotsAt_eq_nil_iff hu]
  intro hslots
  simp [isLeftover, hslots, hchildless] at hsays

/-- In place, a new script is left without the literal that it has. -/
theorem normalForm_childless_iff_of_script :
    let policy : Policy := { trimIfChildlessTypes := ["script"], trimIfParentIsAddedTypes := ["literal"] }
    let start : Tree := .leaf ⟨"stage", none, some "s"⟩
    let goal : Tree := .node ⟨"stage", none, some "s"⟩
      [⟨"0", some (.node ⟨"script", none, none⟩ [⟨"0", some (.leaf ⟨"literal", none, none⟩)⟩])⟩]
    goal.DistinctLabels ∧ (let (g, n, m) := Grove.side start goal
      ∃ g₁ k g₂, g.normalizeValues policy n m = .ok (g₁, k) ∧ g₁.prune policy n k = .ok g₂ ∧
        g₂.tree k = .node ⟨"stage", none, some "s"⟩ [⟨"0", some (.leaf ⟨"script", none, none⟩)⟩]) := by
  intro policy start goal
  have hlabels : goal.DistinctLabels := by decide
  obtain ⟨g₁, k, g₂, hg₁, hg₂, hform, -⟩ := (normalForm_childless_iff policy start goal).1 hlabels
  have hempty : normalForm policy start goal =
      .node ⟨"stage", none, some "s"⟩ [⟨"0", some (.leaf ⟨"script", none, none⟩)⟩] := by decide +kernel
  exact ⟨hlabels, g₁, k, g₂, hg₁, hg₂, hform.trans hempty⟩

/-- A new script with nothing but a literal, which is attached to it, stays behind empty. -/
theorem normalForm_keeps_emptied :
    let policy : Policy := { trimIfChildlessTypes := ["script"], trimIfParentIsAddedTypes := ["literal"] }
    let start : Tree := .leaf ⟨"stage", none, some "s"⟩
    let goal : Tree := .node ⟨"stage", none, some "s"⟩
      [⟨"0", some (.node ⟨"script", none, none⟩ [⟨"0", some (.leaf ⟨"literal", none, none⟩)⟩])⟩]
    ∃ r ∈ (normalForm policy start goal).positions, r ≠ [] ∧ (normalForm policy start goal).slotsAt r = [] ∧
      policy.trimIfChildless ((normalForm policy start goal).labelAt r).type = true := by
  exact ⟨[0], by decide +kernel, by decide, by decide +kernel, by decide +kernel⟩

end HintQuality
