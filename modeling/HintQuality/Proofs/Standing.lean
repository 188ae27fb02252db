import HintQuality.Proofs.GroveSteps
import HintQuality.Proofs.Part
import HintQuality.Proofs.Renaming
import Mathlib.Logic.Encodable.Basic
import Mathlib.Logic.Equiv.List
/-!
# Trees that stand in groves

A tree stands in a grove if the nodes of the grove that go by the names of its positions have its labels and are linked
as it is (`Grove.Holds`). Then the grove gives back the tree, its nodes in pre-order and their depths
(`Grove.Stands.tree`, `Grove.Stands.nodes`, `Grove.Stands.depth`), and what is compared is the tree itself
(`Grove.Stands.renamed`). Nodes may have been taken out of their parents; what is left of the tree then stands there as
well (`Grove.Holds.restrict`).
-/

namespace HintQuality

namespace Tree

/-- The way to a node is shorter than the list of all nodes. -/
theorem length_lt_length_positions {t : Tree} {p : Position} (hp : p ∈ t.positions) :
    p.length < t.positions.length := by
  have hnodup : ((List.range (p.length + 1)).map p.take).Nodup := by
    refine List.nodup_range.map_on fun i hi j hj he => ?_
    have hlen := congrArg List.length he
    rw [List.mem_range] at hi hj
    rw [List.length_take, List.length_take] at hlen
    omega
  have hsub : (List.range (p.length + 1)).map p.take ⊆ t.positions := by
    intro q hq
    obtain ⟨i, -, rfl⟩ := List.mem_map.1 hq
    exact mem_positions_of_append (q := p.drop i) (by rwa [List.take_append_drop])
  have := (List.subperm_of_subset hnodup hsub).length_le
  rwa [List.length_map, List.length_range] at this

/-- The slots of a node depend on the names of its children only. -/
theorem map_slotsAt_congr {α : Type} {t : Tree} {p : Position} {f f' : Position → α}
    (h : ∀ c ∈ t.view.children p, f c = f' c) : (t.slotsAt p).map (Slot.map f) = (t.slotsAt p).map (Slot.map f') := by
  refine List.map_congr_left fun s hs => ?_
  rw [Slot.map, Slot.map, Option.map_congr fun c hc => h c (List.mem_filterMap.2 ⟨s, hs, hc⟩)]

/-- The nodes below the slots, slot by slot. -/
theorem slotPositions_eq (here : Position) : ∀ (n : Nat) (s : List (Slot Tree)), slotPositions here n s =
    (s.zipIdx n).flatMap fun c => (c.1.child.map (positionsFrom (here ++ [c.2]))).getD []
  | _, [] => rfl
  | n, ⟨_, none⟩ :: s => by
    rw [slotPositions, slotPositions_eq here (n + 1) s]
    rfl
  | n, ⟨_, some t⟩ :: s => by
    rw [slotPositions, slotPositions_eq here (n + 1) s]
    rfl

end Tree

/-- A node without the slots of some children if it is node `n`, and without a parent if it is one of these. -/
def Plant.without (n : Nat) (gone : List Nat) (m : Nat) (p : Plant) : Plant :=
  { p with
    slots := if m = n then p.slots.filter fun s => s.child.all (· ∉ gone) else p.slots
    parent := if m ∈ gone then none else p.parent }

namespace Grove

/-- A node of a tree as it stands in a grove, where nodes are named and those that are not kept were taken out of the
slots of their parents. -/
def plantAt (t : Tree) (keep : Position → Bool) (name : Position → Nat) (p : Position) : Plant where
  label := t.labelAt p
  slots := ((t.slotsAt p).filter (Tree.isLeft keep)).map (Slot.map name)
  parent := if keep p then (Tree.parentOf p).map name else none

/-- The node of a tree at `p` is the node `name p` of the grove, but nodes that are not kept were taken out. -/
structure Holds (g : Grove) (t : Tree) (keep : Position → Bool) (name : Position → Nat) : Prop where
  /-- No two nodes have one name. -/
  injective : ∀ p ∈ t.positions, ∀ q ∈ t.positions, name p = name q → p = q
  /-- The nodes of the tree are nodes of the grove. -/
  plant : ∀ p ∈ t.positions, g.plants[name p]? = some (plantAt t keep name p)

namespace Holds

variable {g : Grove} {t : Tree} {keep : Position → Bool} {name : Position → Nat} (h : g.Holds t keep name)
  {p : Position} (hp : p ∈ t.positions)
include h hp

theorem lt_size : name p < g.size :=
  (List.getElem?_eq_some_iff.1 (h.plant p hp)).1

theorem label : g.label (name p) = t.labelAt p := by
  rw [Grove.label, h.plant p hp]
  rfl

theorem slots : g.slots (name p) = ((t.slotsAt p).filter (Tree.isLeft keep)).map (Slot.map name) := by
  rw [Grove.slots, h.plant p hp]
  rfl

theorem parent : g.parent? (name p) = if keep p then (Tree.parentOf p).map name else none := by
  rw [Grove.parent?, h.plant p hp]
  rfl

omit hp in
theorem parent_nil : g.parent? (name []) = none := by
  rw [h.parent t.nil_mem_positions]
  simp [Tree.parentOf]

omit hp in
theorem parent_snoc {i : Nat} (hc : p ++ [i] ∈ t.positions) (hkeep : keep (p ++ [i]) = true) :
    g.parent? (name (p ++ [i])) = some (name p) := by
  rw [h.parent hc, if_pos hkeep]
  simp [Tree.parentOf]

omit hp in
/-- Names keep children apart. -/
theorem name_mem_children {s : List (Slot Position)} (hs : ∀ d ∈ Slots.children s, d ∈ t.positions) {c : Position}
    (hc : c ∈ t.positions) : name c ∈ Slots.children (s.map (Slot.map name)) ↔ c ∈ Slots.children s := by
  rw [Slots.children_map]
  refine ⟨fun hmem => ?_, List.mem_map_of_mem⟩
  obtain ⟨d, hd, he⟩ := List.mem_map.1 hmem
  rwa [← h.injective d (hs d hd) c hc he]

omit hp in
/-- A child that is kept stands in one slot of its parent. -/
theorem exists_slot {i : Nat} (hc : p ++ [i] ∈ t.positions) (hkeep : keep (p ++ [i]) = true) :
    ∃ before after r, (t.slotsAt p).filter (Tree.isLeft keep) = before ++ ⟨r, some (p ++ [i])⟩ :: after ∧
      p ++ [i] ∉ Slots.children before ∧ p ++ [i] ∉ Slots.children after ∧
      name (p ++ [i]) ∉ Slots.children (before.map (Slot.map name)) ∧
      name (p ++ [i]) ∉ Slots.children (after.map (Slot.map name)) := by
  have hv := t.view_lawful
  have hp : p ∈ t.view.nodes := t.view_nodes ▸ Tree.mem_positions_of_snoc hc
  obtain ⟨before, r, after, hsplit, -, -, hchildren, -⟩ :=
    hv.exists_slot hp (Tree.mem_children_slotsAt.2 ⟨i, rfl, hc⟩)
  have hnodup : (Slots.children before ++ (p ++ [i]) :: Slots.children after).Nodup := hchildren ▸ hv.nodup_children hp
  have hnode : ∀ d ∈ Slots.children before ++ (p ++ [i]) :: Slots.children after, d ∈ t.positions := by
    intro d hd
    rw [← hchildren] at hd
    exact t.view_nodes ▸ hv.mem_nodes_of_child hp hd
  have hbefore : p ++ [i] ∉ Slots.children before := fun hmem =>
    List.disjoint_of_nodup_append hnodup hmem List.mem_cons_self
  have hafter : p ++ [i] ∉ Slots.children after := (List.nodup_cons.1 (List.nodup_append.1 hnodup).2.1).1
  -- what is kept of the slots is among them
  have hsub : ∀ s : List (Slot Position), Slots.children (s.filter (Tree.isLeft keep)) ⊆ Slots.children s := fun s =>
    (List.filter_sublist.filterMap Slot.child).subset
  have hbefore' : p ++ [i] ∉ Slots.children (before.filter (Tree.isLeft keep)) := fun hmem => hbefore (hsub _ hmem)
  have hafter' : p ++ [i] ∉ Slots.children (after.filter (Tree.isLeft keep)) := fun hmem => hafter (hsub _ hmem)
  refine ⟨before.filter (Tree.isLeft keep), after.filter (Tree.isLeft keep), r, ?_, hbefore', hafter', ?_, ?_⟩
  · show (t.view.slots p).filter _ = _
    rw [hsplit, List.filter_append, List.filter_cons_of_pos (by simpa [Tree.isLeft] using hkeep)]
  · rwa [h.name_mem_children (fun d hd => hnode d (List.mem_append_left _ (hsub _ hd))) hc]
  · rwa [h.name_mem_children (fun d hd => hnode d (List.mem_append_right _ (List.mem_cons_of_mem _ (hsub _ hd)))) hc]

end Holds

/-- The root is always kept, and what is kept elsewhere does not matter. -/
theorem Holds.congr {g : Grove} {t : Tree} {keep keep' : Position → Bool} {name : Position → Nat}
    (h : g.Holds t keep name) (hkeep : ∀ p ∈ t.positions, p ≠ [] → keep p = keep' p) : g.Holds t keep' name := by
  refine ⟨h.injective, fun p hp => ?_⟩
  have hslots : (t.slotsAt p).filter (Tree.isLeft keep) = (t.slotsAt p).filter (Tree.isLeft keep') := by
    refine List.filter_congr fun s hs => ?_
    rw [Tree.isLeft, Tree.isLeft]
    cases hchild : s.child with
    | none => rfl
    | some c =>
      obtain ⟨i, rfl, hc⟩ := Tree.mem_children_slotsAt.1 (List.mem_filterMap.2 ⟨s, hs, hchild⟩)
      exact hkeep _ hc (by simp)
  have hparent : (if keep p then (Tree.parentOf p).map name else none) =
      if keep' p then (Tree.parentOf p).map name else none := by
    by_cases hne : p = []
    · subst hne
      simp [Tree.parentOf]
    · rw [hkeep p hp hne]
  rw [h.plant p hp, plantAt, plantAt, hslots, hparent]

/-- All nodes of the tree are in their places. -/
abbrev Stands (g : Grove) (t : Tree) (name : Position → Nat) : Prop :=
  g.Holds t (fun _ => true) name

theorem filter_isLeft_true (s : List (Slot Position)) : s.filter (Tree.isLeft fun _ => true) = s :=
  List.filter_eq_self.2 fun s _ => by simp [Tree.isLeft]

theorem plantAt_true (t : Tree) (name : Position → Nat) (p : Position) : plantAt t (fun _ => true) name p =
    ⟨t.labelAt p, (t.slotsAt p).map (Slot.map name), (Tree.parentOf p).map name⟩ := by
  rw [plantAt, filter_isLeft_true, if_pos rfl]

namespace Stands

variable {g : Grove} {t : Tree} {name : Position → Nat} (h : g.Stands t name)
include h

theorem slots {p : Position} (hp : p ∈ t.positions) : g.slots (name p) = (t.slotsAt p).map (Slot.map name) := by
  rw [Holds.slots h hp, filter_isLeft_true]

theorem parent {p : Position} (hp : p ∈ t.positions) : g.parent? (name p) = (Tree.parentOf p).map name :=
  Holds.parent h hp

/-- What stands below a node are its children. -/
theorem exists_child {p : Position} (hp : p ∈ t.positions) {n : Nat} (hn : n ∈ Slots.children (g.slots (name p))) :
    ∃ c ∈ t.view.children p, name c = n := by
  rw [h.slots hp, Slots.children_map] at hn
  exact List.mem_map.1 hn

theorem name_mem_children_slots {p c : Position} (hp : p ∈ t.positions) (hc : c ∈ t.positions) :
    name c ∈ Slots.children (g.slots (name p)) ↔ Tree.parentOf c = some p := by
  have hnodes := t.view_nodes
  rw [h.slots hp, h.name_mem_children (fun d hd => (Tree.mem_children_slotsAt.1 hd).choose_spec.2) hc]
  exact ⟨t.view_lawful.parent_of_child (hnodes ▸ hp), t.view_lawful.child_of_parent (hnodes ▸ hp) (hnodes ▸ hc)⟩

theorem length_positions_le : t.positions.length ≤ g.size := by
  have hnodup : (t.positions.map name).Nodup := t.nodup_positions.map_on fun p hp q hq => h.injective p hp q hq
  have hsub : t.positions.map name ⊆ List.range g.size := by
    intro n hn
    obtain ⟨p, hp, rfl⟩ := List.mem_map.1 hn
    exact List.mem_range.2 (h.lt_size hp)
  have := (List.subperm_of_subset hnodup hsub).length_le
  rwa [List.length_map, List.length_range] at this

/-- Ways are shorter than the number of nodes, which bounds all walks. -/
theorem length_lt {p : Position} (hp : p ∈ t.positions) : p.length < g.size :=
  Nat.lt_of_lt_of_le (Tree.length_lt_length_positions hp) h.length_positions_le

theorem treeWithin {fuel : Nat} : ∀ {p : Position} {u : Tree}, t.subtree? p = some u → g.size ≤ p.length + fuel →
    g.treeWithin fuel (name p) = u := by
  induction fuel with
  | zero =>
    intro p u hu hfuel
    have hp : p ∈ t.positions := by rw [Tree.mem_positions, hu]; rfl
    exact absurd (h.length_lt hp) (Nat.not_lt.2 hfuel)
  | succ fuel ih =>
    intro p u hu hfuel
    have hp : p ∈ t.positions := by rw [Tree.mem_positions, hu]; rfl
    have hslots : ∀ c ∈ u.slots.zipIdx, (⟨c.1.relation, c.1.child.map fun _ => g.treeWithin fuel (name (p ++ [c.2]))⟩ :
        Slot Tree) = c.1 := by
      rintro ⟨⟨r, c⟩, i⟩ hc
      cases c with
      | none => rfl
      | some w =>
        have hw : t.subtree? (p ++ [i]) = some w := by
          rw [Tree.subtree?_snoc, hu, Option.bind_some, List.mk_mem_zipIdx_iff_getElem?.1 hc]
          rfl
        rw [Option.map_some, ih hw (by rw [List.length_append, List.length_singleton]; omega)]
    rw [Grove.treeWithin, h.label hp, h.slots hp, Tree.slotsAt, Tree.labelAt, hu]
    obtain ⟨l, s⟩ := u
    refine congrArg (Tree.node l) ?_
    rw [List.map_map, Option.map_some, Option.getD_some, List.map_map]
    refine (List.map_congr_left fun c hc => ?_).trans (List.zipIdx_map_fst 0 s)
    refine Eq.trans ?_ (hslots c hc)
    simp [Slot.map, Function.comp_def]

/-- The grove gives back the tree. -/
theorem tree : g.tree (name []) = t :=
  h.treeWithin rfl (by simp)

theorem walkWithin {fuel : Nat} : ∀ {p : Position} {u : Tree} {way : List String}, t.subtree? p = some u →
    g.size ≤ p.length + fuel → (g.walkWithin fuel way (name p)).map Prod.fst = (u.positionsFrom p).map name := by
  induction fuel with
  | zero =>
    intro p u way hu hfuel
    have hp : p ∈ t.positions := by rw [Tree.mem_positions, hu]; rfl
    exact absurd (h.length_lt hp) (Nat.not_lt.2 hfuel)
  | succ fuel ih =>
    intro p u way hu hfuel
    have hp : p ∈ t.positions := by rw [Tree.mem_positions, hu]; rfl
    rw [Grove.walkWithin, h.slots hp, Tree.slotsAt, hu, Option.map_some, Option.getD_some]
    obtain ⟨l, s⟩ := u
    rw [Tree.positionsFrom, Tree.slotPositions_eq, List.map_cons, List.map_cons, List.map_flatMap, List.map_flatMap,
      List.map_map, List.flatMap_map]
    refine congrArg (name p :: ·) (List.flatMap_congr fun c hc => ?_)
    obtain ⟨⟨r, c⟩, i⟩ := c
    cases c with
    | none => rfl
    | some w =>
      have hw : t.subtree? (p ++ [i]) = some w := by
        rw [Tree.subtree?_snoc, hu, Option.bind_some]
        exact congrArg (Option.bind · Slot.child) (List.mk_mem_zipIdx_iff_getElem?.1 hc)
      exact ih hw (by rw [List.length_append, List.length_singleton]; omega)

/-- The nodes below the root of the tree are those of the tree, in pre-order. -/
theorem nodes : g.nodes (name []) = t.positions.map name :=
  h.walkWithin rfl (by simp)

theorem length_ancestorsWithin {fuel : Nat} : ∀ {p : Position}, p ∈ t.positions → p.length ≤ fuel →
    (g.ancestorsWithin fuel (name p)).length = p.length := by
  induction fuel with
  | zero =>
    intro p _ hfuel
    rw [List.eq_nil_of_length_eq_zero (Nat.le_zero.1 hfuel)]
    rfl
  | succ fuel ih =>
    intro p hp hfuel
    rcases List.eq_nil_or_concat' p with rfl | ⟨q, i, rfl⟩
    · rw [Grove.ancestorsWithin, h.parent_nil]
    · rw [List.length_append, List.length_singleton] at hfuel ⊢
      rw [Grove.ancestorsWithin, h.parent_snoc hp rfl]
      simp only [List.length_cons]
      rw [ih (Tree.mem_positions_of_snoc hp) (by omega)]

/-- The depth of a node is the length of the way to it. -/
theorem depth {p : Position} (hp : p ∈ t.positions) : g.depth (name p) = p.length :=
  h.length_ancestorsWithin hp (Nat.le_of_lt (h.length_lt hp))

/-- What is compared is the tree itself, with its nodes renamed. -/
theorem renamed : ∃ name', (∀ p ∈ t.positions, name' p = name p) ∧ t.view.Renamed (g.view (name [])) name' := by
  -- names that keep apart everywhere, not on the tree only
  let name' (p : Position) : Nat := if p ∈ t.positions then name p else g.size + Encodable.encode p
  have hname : ∀ p ∈ t.positions, name' p = name p := fun p hp => if_pos hp
  have hother : ∀ p ∉ t.positions, name' p = g.size + Encodable.encode p := fun p hp => if_neg hp
  have hgone : ∀ p ∉ t.positions, g.plants[name' p]? = none := by
    intro p hp
    rw [hother p hp, List.getElem?_eq_none_iff]
    exact Nat.le_add_right _ _
  refine ⟨name', hname, ?_, ?_, ?_, fun p => ?_, fun p => ?_, fun p hp => ?_⟩
  · intro p q he
    by_cases hp : p ∈ t.positions <;> by_cases hq : q ∈ t.positions
    · rw [hname p hp, hname q hq] at he
      exact h.injective p hp q hq he
    · rw [hname p hp, hother q hq] at he
      have := h.lt_size hp
      omega
    · rw [hother p hp, hname q hq] at he
      have := h.lt_size hq
      omega
    · rw [hother p hp, hother q hq, Nat.add_left_cancel_iff] at he
      exact Encodable.encode_injective he
  · exact (hname [] t.nil_mem_positions).symm
  · show (g.nodes (name [])).tail = t.positions.tail.map name'
    rw [h.nodes, ← List.map_tail]
    exact List.map_congr_left fun p hp => (hname p (List.mem_of_mem_tail hp)).symm
  · show g.label (name' p) = t.labelAt p
    by_cases hp : p ∈ t.positions
    · rw [hname p hp, h.label hp]
    · rw [Tree.labelAt_of_not_mem hp, Grove.label, hgone p hp]
      rfl
  · show g.slots (name' p) = (t.slotsAt p).map (Slot.map name')
    by_cases hp : p ∈ t.positions
    · rw [hname p hp, h.slots hp]
      refine Tree.map_slotsAt_congr fun c hc => ?_
      obtain ⟨i, -, hc⟩ := Tree.mem_children_slotsAt.1 hc
      exact (hname c hc).symm
    · rw [Tree.slotsAt_of_not_mem hp, Grove.slots, hgone p hp]
      rfl
  · show g.parent? (name' p) = (Tree.parentOf p).map name'
    rw [Tree.view_nodes] at hp
    rw [hname p hp, h.parent hp]
    rcases List.eq_nil_or_concat' p with rfl | ⟨q, i, rfl⟩
    · rfl
    · simp [Tree.parentOf, hname q (Tree.mem_positions_of_snoc hp)]

end Stands

/-- What is left of a tree stands where its nodes stood. -/
theorem Holds.restrict {g : Grove} {t : Tree} {keep : Position → Bool} {name : Position → Nat}
    (h : g.Holds t keep name) : g.Stands (t.restrict keep) (name ∘ t.origin keep) := by
  have hpart := Tree.restrict_isPart keep t
  refine ⟨fun q hq r hr he => ?_, fun q hq => ?_⟩
  · exact hpart.injective q hq hr (h.injective _ (hpart.way_mem hq) _ (hpart.way_mem hr) he)
  · have hslots : ((t.slotsAt (t.origin keep q)).filter (Tree.isLeft keep)).map (Slot.map name) =
        ((t.restrict keep).slotsAt q).map (Slot.map (name ∘ t.origin keep)) := by
      rw [← Tree.slotsAt_restrict hq, List.map_map]
      exact List.map_congr_left fun s _ => by simp [Slot.map]
    have hparent : (if keep (t.origin keep q) then (Tree.parentOf (t.origin keep q)).map name else none) =
        (Tree.parentOf q).map (name ∘ t.origin keep) := by
      rcases List.eq_nil_or_concat' q with rfl | ⟨q, i, rfl⟩
      · rw [hpart.root]
        simp [Tree.parentOf]
      · obtain ⟨j, hj, -⟩ := hpart.exists_snoc hq
        rw [if_pos (Tree.keep_origin hq (by simp)), hj]
        simp [Tree.parentOf]
    rw [Function.comp_apply, h.plant _ (hpart.way_mem hq), plantAt, plantAt, hpart.label q hq, hslots, hparent,
      filter_isLeft_true, if_pos rfl]

/-! ## Changes -/

/-- No nodes changed but those that are named. -/
def SameBut (g g' : Grove) (names : List Nat) : Prop :=
  ∀ n ∉ names, g'.plants[n]? = g.plants[n]?

theorem SameBut.trans {g g' g'' : Grove} {names : List Nat} (h : g.SameBut g' names) (h' : g'.SameBut g'' names) :
    g.SameBut g'' names :=
  fun n hn => (h' n hn).trans (h n hn)

theorem SameBut.mono {g g' : Grove} {names names' : List Nat} (h : g.SameBut g' names) (hsub : names ⊆ names') :
    g.SameBut g' names' :=
  fun n hn => h n fun hmem => hn (hsub hmem)

/-- The nodes that were there are as they were. -/
def Keeps (g g' : Grove) : Prop :=
  ∀ n < g.size, g'.plants[n]? = g.plants[n]?

theorem Keeps.size_le {g g' : Grove} (h : g.Keeps g') : g.size ≤ g'.size := by
  by_contra hlt
  have hn := Nat.lt_of_not_le hlt
  have hnone : g'.plants[g'.size]? = none := List.getElem?_eq_none (Nat.le_refl _)
  rw [h g'.size hn, List.getElem?_eq_none_iff] at hnone
  exact absurd hn (Nat.not_lt.2 hnone)

theorem Keeps.slots {g g' : Grove} (h : g.Keeps g') {n : Nat} (hn : n < g.size) : g'.slots n = g.slots n := by
  rw [Grove.slots, h n hn]
  rfl

theorem Keeps.parent {g g' : Grove} (h : g.Keeps g') {n : Nat} (hn : n < g.size) : g'.parent? n = g.parent? n := by
  rw [Grove.parent?, h n hn]
  rfl

theorem Keeps.trans {g g' g'' : Grove} (h : g.Keeps g') (h' : g'.Keeps g'') : g.Keeps g'' :=
  fun n hn => (h' n (Nat.lt_of_lt_of_le hn h.size_le)).trans (h n hn)

/-- A tree that stands at new nodes, where the nodes that were there are as they were. -/
structure StandsNew (g g' : Grove) (t : Tree) (name : Position → Nat) : Prop where
  /-- All nodes are in their places. -/
  stands : g'.Stands t name
  /-- They were not there before. -/
  new : ∀ p ∈ t.positions, g.size ≤ name p
  /-- Nothing else changed. -/
  keeps : g.Keeps g'

theorem Holds.of_keeps {g g' : Grove} {t : Tree} {keep : Position → Bool} {name : Position → Nat}
    (h : g.Holds t keep name) (hkeeps : g.Keeps g') : g'.Holds t keep name :=
  ⟨h.injective, fun p hp => (hkeeps _ (h.lt_size hp)).trans (h.plant p hp)⟩

namespace StandsNew

variable {g g' : Grove} {t : Tree} {name : Position → Nat} (h : g.StandsNew g' t name)
include h

/-- Trees that were there have no node in common with it. -/
theorem apart {s : Tree} {name' : Position → Nat} (hs : g.Stands s name') {p q : Position} (hp : p ∈ s.positions)
    (hq : q ∈ t.positions) : name' p ≠ name q :=
  (Nat.lt_of_lt_of_le (hs.lt_size hp) (h.new q hq)).ne

end StandsNew

/-- A tree stands where it stood if its nodes did not change. -/
theorem Holds.of_sameBut {g g' : Grove} {t : Tree} {keep : Position → Bool} {name : Position → Nat}
    (h : g.Holds t keep name) {names : List Nat} (hsame : g.SameBut g' names)
    (hnames : ∀ p ∈ t.positions, name p ∉ names) :
    g'.Holds t keep name :=
  ⟨h.injective, fun p hp => (hsame _ (hnames p hp)).trans (h.plant p hp)⟩

/-- The second grove is the first one with some children taken out of node `n`. -/
def TakesOut (g g' : Grove) (n : Nat) (gone : List Nat) : Prop :=
  g.Maps g' (Plant.without n gone)

theorem TakesOut.sameBut {g g' : Grove} {n : Nat} {gone names : List Nat} (h : g.TakesOut g' n gone) (hn : n ∈ names)
    (hgone : gone ⊆ names) : g.SameBut g' names := by
  intro m hm
  rw [h m]
  cases hp : g.plants[m]? with
  | none => rfl
  | some p =>
    have hne : m ≠ n := fun e => hm (e ▸ hn)
    rw [Option.map_some, Plant.without, if_neg hne, if_neg fun hg => hm (hgone hg)]

/-- Children that are taken out of a node are not kept, and nothing else changes. -/
theorem Holds.takeOut {g g' : Grove} {t : Tree} {keep : Position → Bool} {name : Position → Nat}
    (h : g.Holds t keep name) {p : Position} (hp : p ∈ t.positions) {gone : List Position}
    (hgone : ∀ c ∈ gone, c ∈ t.view.children p) (hout : g.TakesOut g' (name p) (gone.map name)) :
    g'.Holds t (fun q => keep q && q ∉ gone) name := by
  have hnode : ∀ {q c}, c ∈ t.view.children q → c ∈ t.positions := by
    intro q c hc
    obtain ⟨i, -, hc⟩ := Tree.mem_children_slotsAt.1 hc
    exact hc
  have hmem : ∀ {c}, c ∈ t.positions → (name c ∈ gone.map name ↔ c ∈ gone) := by
    intro c hc
    refine ⟨fun hg => ?_, fun hg => List.mem_map_of_mem hg⟩
    obtain ⟨d, hd, he⟩ := List.mem_map.1 hg
    rwa [← h.injective d (hnode (hgone d hd)) c hc he]
  refine ⟨h.injective, fun q hq => ?_⟩
  have hleft : ∀ s ∈ t.slotsAt q, Tree.isLeft (fun c => keep c && c ∉ gone) s =
      (Tree.isLeft keep s && (!decide (q = p) || (Slot.map name s).child.all (· ∉ gone.map name))) := by
    rintro ⟨r, c⟩ hs
    cases c with
    | none => simp [Tree.isLeft, Slot.map]
    | some c =>
      have hc : c ∈ t.view.children q := List.mem_filterMap.2 ⟨_, hs, rfl⟩
      have hne : q ≠ p → c ∉ gone := by
        intro hqp hg
        obtain ⟨i, rfl, -⟩ := Tree.mem_children_slotsAt.1 hc
        obtain ⟨j, he, -⟩ := Tree.mem_children_slotsAt.1 (hgone _ hg)
        exact hqp (List.append_inj' he rfl).1
      by_cases hqp : q = p <;> simp [Tree.isLeft, Slot.map, hmem (hnode hc), hqp, hne, -List.mem_map]
  have hslots : (if name q = name p then
        (((t.slotsAt q).filter (Tree.isLeft keep)).map (Slot.map name)).filter fun s => s.child.all (· ∉ gone.map name)
      else ((t.slotsAt q).filter (Tree.isLeft keep)).map (Slot.map name)) =
      ((t.slotsAt q).filter (Tree.isLeft fun c => keep c && c ∉ gone)).map (Slot.map name) := by
    rw [List.filter_congr hleft]
    by_cases hqp : q = p
    · rw [if_pos (congrArg name hqp), List.filter_map, List.filter_filter]
      refine congrArg _ (List.filter_congr fun s _ => ?_)
      simp [hqp, Bool.and_comm]
    · rw [if_neg (mt (h.injective q hq p hp) hqp)]
      simp [hqp]
  have hparent : (if name q ∈ gone.map name then none else if keep q then (Tree.parentOf q).map name else none) =
      if keep q && q ∉ gone then (Tree.parentOf q).map name else none := by
    by_cases hg : q ∈ gone <;> simp [hmem hq, hg]
  rw [hout, h.plant q hq, Option.map_some, Plant.without, plantAt, plantAt]
  exact congrArg some (congrArg₂ (Plant.mk (t.labelAt q)) hslots hparent)

end Grove

end HintQuality
