import HintQuality.View
import Mathlib.Data.List.Sort
/-!
# Positions

The positions of a tree are those that lead to a subtree (`mem_positions`), and pre-order is their lexicographic order
(`pairwise_positions`): a node stands before all nodes below it, and below a node the children stand in the order of
their slots (`mem_children_slotsAt`, `pairwise_children_slotsAt`). Changing labels changes no position
(`subtree?_mapLabels`, `positions_mapLabels`). A tree is determined by its positions together with the labels and
slots found there (`ext_of_skeleton`).
-/

namespace HintQuality

/-- Positions compare as lists do; all lookups of positions share this fact. -/
instance : LawfulBEq Position :=
  inferInstance

theorem Slots.mem_children_iff {α : Type} {s : List (Slot α)} {x : α} :
    x ∈ children s ↔ ∃ i : Nat, s[i]?.bind Slot.child = some x := by
  rw [children, List.mem_filterMap]
  constructor
  · rintro ⟨c, hc, hx⟩
    obtain ⟨i, hi⟩ := List.mem_iff_getElem?.1 hc
    exact ⟨i, by rw [hi]; exact hx⟩
  · rintro ⟨i, h⟩
    obtain ⟨c, hi, hx⟩ := Option.bind_eq_some_iff.1 h
    exact ⟨c, List.mem_of_getElem? hi, hx⟩

namespace Tree

/-! ## Membership and order -/

mutual

theorem mem_positionsFrom {here p : Position} : ∀ t : Tree,
    p ∈ t.positionsFrom here ↔ ∃ q, p = here ++ q ∧ (t.subtree? q).isSome
  | node l s => by
    rw [positionsFrom, List.mem_cons, mem_slotPositions s]
    constructor
    · rintro (rfl | ⟨i, u, q, hi, rfl, hq⟩)
      · exact ⟨[], by simp, rfl⟩
      · exact ⟨i :: q, by simp, by simpa [subtree?, slots, hi] using hq⟩
    · rintro ⟨q, rfl, hq⟩
      cases q with
      | nil => exact .inl (by simp)
      | cons i q =>
        cases hu : s[i]?.bind Slot.child with
        | none => simp [subtree?, slots, hu] at hq
        | some u => exact .inr ⟨i, u, q, hu, by simp, by simpa [subtree?, slots, hu] using hq⟩

theorem mem_slotPositions {here p : Position} {n : Nat} : ∀ s : List (Slot Tree),
    p ∈ slotPositions here n s ↔
      ∃ i u q, s[i]?.bind Slot.child = some u ∧ p = here ++ (n + i) :: q ∧ (u.subtree? q).isSome
  | [] => by simp [slotPositions]
  | ⟨r, none⟩ :: s => by
    rw [slotPositions, mem_slotPositions s]
    constructor
    · rintro ⟨i, u, q, hi, rfl, hq⟩
      exact ⟨i + 1, u, q, by simpa using hi, by rw [Nat.add_assoc, Nat.add_comm 1 i], hq⟩
    · rintro ⟨i, u, q, hi, rfl, hq⟩
      cases i with
      | zero => simp at hi
      | succ i => exact ⟨i, u, q, by simpa using hi, by rw [Nat.add_assoc, Nat.add_comm 1 i], hq⟩
  | ⟨r, some t⟩ :: s => by
    rw [slotPositions, List.mem_append, mem_positionsFrom t, mem_slotPositions s]
    constructor
    · rintro (⟨q, rfl, hq⟩ | ⟨i, u, q, hi, rfl, hq⟩)
      · exact ⟨0, t, q, by simp, by simp, hq⟩
      · exact ⟨i + 1, u, q, by simpa using hi, by rw [Nat.add_assoc, Nat.add_comm 1 i], hq⟩
    · rintro ⟨i, u, q, hi, rfl, hq⟩
      cases i with
      | zero =>
        obtain rfl : t = u := by simpa using hi
        exact .inl ⟨q, by simp, hq⟩
      | succ i => exact .inr ⟨i, u, q, by simpa using hi, by rw [Nat.add_assoc, Nat.add_comm 1 i], hq⟩

end

/-- The positions of a tree are those that lead to a subtree. -/
theorem mem_positions {t : Tree} {p : Position} : p ∈ t.positions ↔ (t.subtree? p).isSome := by
  simp [positions, mem_positionsFrom]

mutual

theorem pairwise_positionsFrom {here : Position} : ∀ t : Tree, (t.positionsFrom here).Pairwise (· < ·)
  | node l s => by
    rw [positionsFrom, List.pairwise_cons]
    refine ⟨fun p hp => ?_, pairwise_slotPositions s⟩
    obtain ⟨i, u, q, -, rfl, -⟩ := (mem_slotPositions s).1 hp
    have : here ++ [] < here ++ (0 + i) :: q := List.append_left_lt (List.nil_lt_cons _ _)
    rwa [List.append_nil] at this

theorem pairwise_slotPositions {here : Position} {n : Nat} : ∀ s : List (Slot Tree),
    (slotPositions here n s).Pairwise (· < ·)
  | [] => .nil
  | ⟨_, none⟩ :: s => pairwise_slotPositions s
  | ⟨_, some t⟩ :: s => by
    rw [slotPositions, List.pairwise_append]
    refine ⟨pairwise_positionsFrom t, pairwise_slotPositions s, fun p hp p' hp' => ?_⟩
    obtain ⟨q, rfl, -⟩ := (mem_positionsFrom t).1 hp
    obtain ⟨i, u, q', -, rfl, -⟩ := (mem_slotPositions s).1 hp'
    rw [List.append_assoc]
    exact List.append_left_lt (List.cons_lt_cons_iff.2 (.inl (by omega)))

end

/-- Pre-order is the lexicographic order of positions. -/
theorem pairwise_positions (t : Tree) : t.positions.Pairwise (· < ·) :=
  pairwise_positionsFrom t

theorem nodup_positions (t : Tree) : t.positions.Nodup :=
  t.pairwise_positions.nodup

/-- A label where there is no node says nothing. -/
theorem labelAt_of_not_mem {t : Tree} {p : Position} (hp : p ∉ t.positions) :
    t.labelAt p = ⟨emptyType, none, none⟩ := by
  rw [mem_positions, Option.not_isSome_iff_eq_none] at hp
  rw [labelAt, hp]
  rfl

/-- There are no slots where there is no node. -/
theorem slotsAt_of_not_mem {t : Tree} {p : Position} (hp : p ∉ t.positions) : t.slotsAt p = [] := by
  rw [mem_positions, Option.not_isSome_iff_eq_none] at hp
  rw [slotsAt, hp]
  rfl

/-- What is above a node is a node. -/
theorem mem_positions_of_append {t : Tree} {p q : Position} (h : p ++ q ∈ t.positions) : p ∈ t.positions := by
  rw [mem_positions, subtree?_append] at h
  rw [mem_positions]
  exact Option.isSome_of_isSome_bind h

theorem positions_eq_cons (t : Tree) : t.positions = [] :: t.positions.tail := by
  cases t; rfl

theorem nil_mem_positions (t : Tree) : [] ∈ t.positions := by
  simp [mem_positions, subtree?]

theorem mem_tail_positions {t : Tree} {p : Position} : p ∈ t.positions.tail ↔ p ∈ t.positions ∧ p ≠ [] := by
  have hd := t.nodup_positions
  rw [positions_eq_cons, List.nodup_cons] at hd
  constructor
  · intro h
    refine ⟨List.mem_of_mem_tail h, ?_⟩
    rintro rfl
    exact hd.1 h
  · rintro ⟨h, hp⟩
    rw [positions_eq_cons] at h
    exact (List.mem_cons.1 h).resolve_left hp

/-! ## Slots and children -/

theorem subtree?_snoc (t : Tree) (p : Position) (i : Nat) :
    t.subtree? (p ++ [i]) = (t.subtree? p).bind fun u => u.slots[i]?.bind Slot.child := by
  simp [subtree?_append, subtree?]

/-- The node above a node is a node. -/
theorem mem_positions_of_snoc {t : Tree} {p : Position} {i : Nat} (h : p ++ [i] ∈ t.positions) : p ∈ t.positions :=
  mem_positions_of_append h

theorem slotsAt_getElem? (t : Tree) (p : Position) (i : Nat) :
    (t.slotsAt p)[i]? =
      ((t.subtree? p).bind (·.slots[i]?)).map fun s => ⟨s.relation, s.child.map fun _ => p ++ [i]⟩ := by
  simp only [slotsAt, List.getElem?_map, List.getElem?_zipIdx, Option.map_map, Function.comp_def, Nat.zero_add]
  cases t.subtree? p <;> rfl

theorem slotsAt_child (t : Tree) (p : Position) (i : Nat) :
    (t.slotsAt p)[i]?.bind Slot.child = (t.subtree? (p ++ [i])).map fun _ => p ++ [i] := by
  rw [slotsAt_getElem?, subtree?_snoc]
  cases t.subtree? p with
  | none => rfl
  | some u => cases h : u.slots[i]? <;> simp [h]

/-- The children of a node are the nodes one step below it. -/
theorem mem_children_slotsAt {t : Tree} {p c : Position} :
    c ∈ Slots.children (t.slotsAt p) ↔ ∃ i, c = p ++ [i] ∧ c ∈ t.positions := by
  simp only [Slots.mem_children_iff, slotsAt_child, mem_positions]
  constructor
  · rintro ⟨i, h⟩
    obtain ⟨u, hu, rfl⟩ := Option.map_eq_some_iff.1 h
    exact ⟨i, rfl, by simp [hu]⟩
  · rintro ⟨i, rfl, h⟩
    obtain ⟨u, hu⟩ := Option.isSome_iff_exists.1 h
    exact ⟨i, by simp [hu]⟩

/-- The children of a node stand in the order of their slots. -/
theorem pairwise_children_slotsAt (t : Tree) (p : Position) :
    (Slots.children (t.slotsAt p)).Pairwise (· < ·) := by
  simp only [slotsAt, Slots.children, List.filterMap_map, List.pairwise_filterMap]
  have hi : (((t.subtree? p).map slots).getD []).zipIdx.Pairwise fun a b => a.2 < b.2 := by
    rw [← List.pairwise_map, List.zipIdx_map_snd]
    exact List.pairwise_lt_range'
  refine hi.imp fun {a b} hab c hc d hd => ?_
  simp only [Function.comp_apply, Option.map_eq_some_iff] at hc hd
  obtain ⟨-, -, rfl⟩ := hc
  obtain ⟨-, -, rfl⟩ := hd
  exact List.append_left_lt (List.cons_lt_cons_iff.2 (.inl hab))

/-! ## Nodes of a subtree -/

section Subtree

variable {t u : Tree} {p : Position} (h : t.subtree? p = some u)
include h

theorem append_mem_positions_iff {r : Position} : p ++ r ∈ t.positions ↔ r ∈ u.positions := by
  rw [mem_positions, mem_positions, subtree?_append, h, Option.bind_some]

theorem labelAt_append (r : Position) : t.labelAt (p ++ r) = u.labelAt r := by
  rw [labelAt, labelAt, subtree?_append, h, Option.bind_some]

theorem slotsAt_append (r : Position) :
    t.slotsAt (p ++ r) = (u.slotsAt r).map fun s => ⟨s.relation, s.child.map (p ++ ·)⟩ := by
  rw [slotsAt, slotsAt, subtree?_append, h, Option.bind_some, List.map_map]
  refine List.map_congr_left fun s _ => ?_
  simp [Function.comp_def]

end Subtree

/-! ## Changing labels -/

section MapLabels

variable (f : Position → Label → Label)

theorem mapSlotLabels_getElem? {here : Position} : ∀ (s : List (Slot Tree)) (n i : Nat),
    (mapSlotLabels f here n s)[i]? =
      s[i]?.map fun c => ⟨c.relation, c.child.map (mapLabelsFrom f (here ++ [n + i]))⟩
  | [], _, _ => rfl
  | ⟨_, none⟩ :: _, _, 0 => rfl
  | ⟨_, some _⟩ :: _, _, 0 => rfl
  | ⟨_, none⟩ :: s, n, i + 1 => by
    rw [mapSlotLabels, List.getElem?_cons_succ, mapSlotLabels_getElem? s, List.getElem?_cons_succ, Nat.add_assoc,
      Nat.add_comm 1 i]
  | ⟨_, some _⟩ :: s, n, i + 1 => by
    rw [mapSlotLabels, List.getElem?_cons_succ, mapSlotLabels_getElem? s, List.getElem?_cons_succ, Nat.add_assoc,
      Nat.add_comm 1 i]

theorem subtree?_mapLabelsFrom {p : Position} : ∀ {here : Position} {t : Tree},
    (t.mapLabelsFrom f here).subtree? p = (t.subtree? p).map (mapLabelsFrom f (here ++ p)) := by
  induction p with
  | nil => simp [subtree?]
  | cons i p ih =>
    intro here t
    obtain ⟨l, s⟩ := t
    simp only [subtree?, mapLabelsFrom, slots, mapSlotLabels_getElem?, Nat.zero_add]
    cases s[i]? with
    | none => rfl
    | some c =>
      cases hc : c.child with
      | none => simp [hc]
      | some u => simp [hc, ih]

/-- The subtrees of a relabelled tree are relabelled subtrees. -/
theorem subtree?_mapLabels (t : Tree) (p : Position) :
    (t.mapLabels f).subtree? p = (t.subtree? p).map (mapLabelsFrom f p) :=
  subtree?_mapLabelsFrom f

@[simp] theorem positions_mapLabels (t : Tree) : (t.mapLabels f).positions = t.positions := by
  refine (pairwise_positions _).eq_of_mem_iff (pairwise_positions _) fun p => ?_
  rw [mem_positions, mem_positions, subtree?_mapLabels, Option.isSome_map]

theorem labelAt_mapLabels {t : Tree} {p : Position} (hp : p ∈ t.positions) :
    (t.mapLabels f).labelAt p = f p (t.labelAt p) := by
  obtain ⟨⟨l, s⟩, hu⟩ := Option.isSome_iff_exists.1 (mem_positions.1 hp)
  simp [labelAt, subtree?_mapLabels, hu, mapLabelsFrom, label]

@[simp] theorem slotsAt_mapLabels (t : Tree) (p : Position) : (t.mapLabels f).slotsAt p = t.slotsAt p := by
  refine List.ext_getElem? fun i => ?_
  rw [slotsAt_getElem?, slotsAt_getElem?, subtree?_mapLabels]
  cases t.subtree? p with
  | none => rfl
  | some u =>
    obtain ⟨l, s⟩ := u
    simp only [Option.map_some, Option.bind_some, mapLabelsFrom, slots, mapSlotLabels_getElem?, Option.map_map]
    congr 1
    funext c
    simp [Function.comp_def]

end MapLabels

/-! ## What determines a tree -/

/-- A node without what is below it: its label, the relations of its slots, and which of them are taken. -/
def skeleton (t : Tree) : Label × List (String × Bool) :=
  (t.label, t.slots.map fun s => (s.relation, s.child.isSome))

/-- A tree is determined by its nodes at all positions. -/
theorem ext_of_skeleton {a : Tree} : ∀ {b : Tree},
    (∀ p, (a.subtree? p).map skeleton = (b.subtree? p).map skeleton) → a = b := by
  induction a using induct with
  | h l s ih =>
    rintro ⟨l', s'⟩ h
    have hroot := h []
    simp only [subtree?, Option.map_some, Option.some.injEq, skeleton, label, slots, Prod.mk.injEq] at hroot
    obtain ⟨rfl, hs⟩ := hroot
    congr 1
    refine List.ext_getElem? fun i => ?_
    have hi := congrArg (·[i]?) hs
    simp only [List.getElem?_map] at hi
    cases hc : s[i]? with
    | none => cases hc' : s'[i]? <;> simp_all
    | some c =>
      cases hc' : s'[i]? with
      | none => simp_all
      | some c' =>
        obtain ⟨r, t⟩ := c
        obtain ⟨r', t'⟩ := c'
        simp only [hc, hc', Option.map_some, Option.some.injEq, Prod.mk.injEq] at hi
        obtain ⟨rfl, ht⟩ := hi
        cases t with
        | none => cases t' <;> simp_all
        | some t =>
          cases t' with
          | none => simp_all
          | some t' =>
            have ht : t = t' := ih r t (List.mem_of_getElem? hc) fun p => by
              have := h (i :: p)
              simpa [subtree?, slots, hc, hc'] using this
            rw [ht]

/-- Relabelling a node changes its label only. -/
theorem skeleton_mapLabelsFrom (f : Position → Label → Label) (p : Position) (t : Tree) :
    (t.mapLabelsFrom f p).skeleton = (f p t.label, t.skeleton.2) := by
  obtain ⟨l, s⟩ := t
  refine Prod.ext rfl (List.ext_getElem? fun i => ?_)
  simp [skeleton, mapLabelsFrom, slots, mapSlotLabels_getElem?, Function.comp_def]

/-- A relabelling that changes nothing on the nodes of a tree gives the tree back. -/
theorem mapLabels_eq_self {t : Tree} {f : Position → Label → Label}
    (h : ∀ p ∈ t.positions, f p (t.labelAt p) = t.labelAt p) : t.mapLabels f = t := by
  refine ext_of_skeleton fun p => ?_
  rw [subtree?_mapLabels]
  cases hu : t.subtree? p with
  | none => rfl
  | some u =>
    have hp := h p (by rw [mem_positions, hu]; rfl)
    have hl : t.labelAt p = u.label := by simp [labelAt, hu]
    rw [hl] at hp
    rw [Option.map_some, Option.map_some, Option.map_some, skeleton_mapLabelsFrom, hp]
    rfl

end Tree

end HintQuality
