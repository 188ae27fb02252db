import HintQuality.Proofs.LawfulView
/-!
# A new slot in a tree

Putting a slot into a tree moves the nodes behind it to other positions (`shifted`). They keep their labels, and no
slots change except at the node that gets the new one (`map_skeleton_insertSlot`), where the new child stands
(`subtree?_insertSlot_new`). Relabelling and inserting commute (`mapLabels_insertSlot`).
-/

namespace HintQuality

/-! ## Positions after an insertion -/

/-- Where a node stands after a slot has been inserted at index `i` of the node at `p`. -/
def shifted (i : Nat) : Position → Position → Position
  | _, [] => []
  | [], j :: q => (if j < i then j else j + 1) :: q
  | k :: p, j :: q => if j = k then j :: shifted i p q else j :: q

@[simp] theorem shifted_nil (i : Nat) (p : Position) : shifted i p [] = [] := by
  cases p <;> rfl

theorem shifted_eq_nil_iff {i : Nat} {p q : Position} : shifted i p q = [] ↔ q = [] := by
  cases q with
  | nil => simp
  | cons j q =>
    cases p with
    | nil => simp [shifted]
    | cons k p =>
      rw [shifted]
      split <;> simp

theorem shifted_injective (i : Nat) (p : Position) : Function.Injective (shifted i p) := by
  induction p with
  | nil =>
    intro q q' h
    cases q <;> cases q' <;> simp [shifted] at h ⊢
    refine ⟨?_, h.2⟩
    have := h.1
    split at this <;> split at this <;> omega
  | cons k p ih =>
    intro q q' h
    cases q with
    | nil => cases q' <;> simp [shifted] at h ⊢; split at h <;> simp at h
    | cons j q =>
      cases q' with
      | nil => simp [shifted] at h; split at h <;> simp at h
      | cons j' q' =>
        simp only [shifted] at h
        split at h <;> split at h <;> simp_all
        exact ih h

/-- The place of the new child is free, and so is what is below it. -/
theorem shifted_ne (i : Nat) (p q r : Position) : shifted i p q ≠ p ++ i :: r := by
  induction p generalizing q with
  | nil =>
    cases q with
    | nil => simp
    | cons j q =>
      simp only [shifted, List.nil_append, ne_eq, List.cons.injEq, not_and]
      split <;> omega
  | cons k p ih =>
    cases q with
    | nil => simp
    | cons j q =>
      simp only [shifted, List.cons_append]
      split
      · simpa using fun _ => ih q
      · simp_all

/-- Every position is that of an old node, or of the new child, or of one below it. -/
theorem exists_shifted (i : Nat) (p k : Position) : (∃ q, shifted i p q = k) ∨ ∃ r, k = p ++ i :: r := by
  induction p generalizing k with
  | nil =>
    cases k with
    | nil => exact .inl ⟨[], rfl⟩
    | cons j k =>
      rcases Nat.lt_trichotomy j i with h | rfl | h
      · exact .inl ⟨j :: k, by simp [shifted, h]⟩
      · exact .inr ⟨k, rfl⟩
      · refine .inl ⟨(j - 1) :: k, ?_⟩
        have hj : ¬j - 1 < i := by omega
        simp only [shifted, if_neg hj]
        congr 1
        omega
  | cons n p ih =>
    cases k with
    | nil => exact .inl ⟨[], rfl⟩
    | cons j k =>
      by_cases h : j = n
      · subst h
        rcases ih k with ⟨q, rfl⟩ | ⟨r, rfl⟩
        · exact .inl ⟨j :: q, by simp [shifted]⟩
        · exact .inr ⟨r, rfl⟩
      · exact .inl ⟨j :: k, by simp [shifted, h]⟩

theorem shifted_snoc (i : Nat) (p q : Position) (j : Nat) :
    shifted i p (q ++ [j]) = shifted i p q ++ [if q = p ∧ i ≤ j then j + 1 else j] := by
  induction p generalizing q with
  | nil =>
    cases q with
    | nil =>
      simp only [List.nil_append, shifted, true_and]
      split <;> split <;> first | rfl | omega
    | cons n q => simp [shifted]
  | cons k p ih =>
    cases q with
    | nil => simp [shifted]
    | cons n q =>
      by_cases h : n = k
      · subst h
        simp [shifted, ih]
      · simp [shifted, h]

theorem append_left_lt_iff {q a b : Position} : q ++ a < q ++ b ↔ a < b := by
  induction q with
  | nil => rfl
  | cons j q ih => simpa using ih

/-- The node that gets the slot stays where it is. -/
theorem shifted_self (i : Nat) (p : Position) : shifted i p p = p := by
  induction p with
  | nil => rfl
  | cons k p ih => rw [shifted, if_pos rfl, ih]

/-- Children stay children. -/
theorem exists_snoc_of_shifted {i : Nat} {p m q : Position} {j : Nat} (h : shifted i p m = shifted i p q ++ [j]) :
    ∃ j', m = q ++ [j'] := by
  rcases List.eq_nil_or_concat' m with rfl | ⟨q', j', rfl⟩
  · simp at h
  · rw [shifted_snoc] at h
    have hq := (List.append_inj' h rfl).1
    exact ⟨j', by rw [shifted_injective i p hq]⟩

namespace Tree

/-! ## Inserting a slot -/

/-- The tree with a slot inserted at index `i` of the node at a position. -/
def insertSlot (s : Slot Tree) (i : Nat) : Position → Tree → Tree
  | [], node l ss => node l (ss.take i ++ s :: ss.drop i)
  | j :: p, node l ss => node l (ss.modify j fun c => c.map (insertSlot s i p))

/-- Whether a slot can be inserted there: there is a node with as many slots. -/
def HasRoom (t : Tree) (p : Position) (i : Nat) : Prop :=
  ∃ u, t.subtree? p = some u ∧ i ≤ u.slots.length

variable {s : Slot Tree} {i : Nat} {p : Position} {t : Tree}

theorem HasRoom.mem_positions (h : t.HasRoom p i) : p ∈ t.positions := by
  obtain ⟨u, hu, -⟩ := h
  rw [Tree.mem_positions, hu]
  rfl

theorem HasRoom.mapLabels (h : t.HasRoom p i) (f : Position → Label → Label) : (t.mapLabels f).HasRoom p i := by
  obtain ⟨u, hu, hi⟩ := h
  refine ⟨u.mapLabelsFrom f p, by rw [subtree?_mapLabels, hu, Option.map_some], ?_⟩
  have hlen := congrArg List.length (congrArg Prod.snd (skeleton_mapLabelsFrom f p u))
  simp only [skeleton, List.length_map] at hlen
  rwa [hlen]

/-- There is room at a node below a child as there is in the child. -/
theorem HasRoom.exists_child {k : Nat} (h : t.HasRoom (k :: p) i) :
    ∃ u, t.slots[k]?.bind Slot.child = some u ∧ u.HasRoom p i := by
  obtain ⟨v, hv, hi⟩ := h
  rw [subtree?] at hv
  obtain ⟨u, hu, hv⟩ := Option.bind_eq_some_iff.1 hv
  exact ⟨u, hu, v, hv, hi⟩

/-- An old element after an insertion. -/
theorem getElem?_insert {α : Type} {l : List α} {i : Nat} (hi : i ≤ l.length) (x : α) (j : Nat) :
    (l.take i ++ x :: l.drop i)[if j < i then j else j + 1]? = l[j]? := by
  have hlen : (l.take i).length = i := by rw [List.length_take]; omega
  split
  · rw [List.getElem?_append_left (by omega), List.getElem?_take_of_lt ‹_›]
  · rw [List.getElem?_append_right (by omega), hlen, show j + 1 - i = (j - i) + 1 by omega, List.getElem?_cons_succ,
      List.getElem?_drop]
    congr 1
    omega

/-- Below the node that leads to the insertion, the slot is inserted; nothing else changes. -/
theorem subtree?_insertSlot_cons (k j : Nat) (p q : Position) : (t.insertSlot s i (k :: p)).subtree? (j :: q) =
    if j = k then (t.slots[j]?.bind Slot.child).bind fun u => (u.insertSlot s i p).subtree? q
    else t.subtree? (j :: q) := by
  obtain ⟨l, ss⟩ := t
  simp only [subtree?, insertSlot, slots, List.getElem?_modify]
  cases hc : ss[j]? with
  | none => simp
  | some c =>
    by_cases hj : j = k
    · subst hj
      cases hu : c.child <;> simp [Slot.map, hu]
    · simp [hj, Ne.symm hj]

/-- The old nodes keep their labels and slots, but for the one that has the new slot. -/
theorem map_skeleton_insertSlot (h : t.HasRoom p i) (q : Position) :
    ((t.insertSlot s i p).subtree? (shifted i p q)).map skeleton = (t.subtree? q).map fun u =>
      (u.label, if q = p then u.skeleton.2.take i ++ (s.relation, s.child.isSome) :: u.skeleton.2.drop i
        else u.skeleton.2) := by
  induction p generalizing t q with
  | nil =>
    obtain ⟨l, ss⟩ := t
    cases q with
    | nil => simp [subtree?, insertSlot, skeleton, label, slots]
    | cons j q =>
      obtain ⟨u, hu, hi⟩ := h
      have hi : i ≤ ss.length := by rwa [← Option.some.inj hu] at hi
      simp only [shifted, insertSlot, subtree?, slots, getElem?_insert hi]
      rfl
  | cons k p ih =>
    cases q with
    | nil =>
      obtain ⟨l, ss⟩ := t
      have hslots : ((ss.modify k fun c => c.map (insertSlot s i p)).map fun c => (c.relation, c.child.isSome)) =
          ss.map fun c => (c.relation, c.child.isSome) := by
        refine List.ext_getElem? fun j => ?_
        rw [List.getElem?_map, List.getElem?_map, List.getElem?_modify]
        cases ss[j]? with
        | none => rfl
        | some c => by_cases hj : k = j <;> simp [hj, Slot.map]
      simp [subtree?, insertSlot, skeleton, label, slots, hslots]
    | cons j q =>
      by_cases hj : j = k
      · subst hj
        obtain ⟨u, hu, hroom⟩ := h.exists_child
        rw [shifted, if_pos rfl, subtree?_insertSlot_cons, if_pos rfl, subtree?, hu]
        simpa using ih hroom q
      · have hne : j :: q ≠ k :: p := fun e => hj (List.cons.inj e).1
        rw [shifted, if_neg hj, subtree?_insertSlot_cons, if_neg hj]
        simp only [if_neg hne]
        rfl

/-- At its own place, and nowhere else among the new positions, stands the new child. -/
theorem subtree?_insertSlot_new (h : t.HasRoom p i) (r : Position) :
    (t.insertSlot s i p).subtree? (p ++ i :: r) = s.child.bind (·.subtree? r) := by
  induction p generalizing t with
  | nil =>
    obtain ⟨u, hu, hi⟩ := h
    obtain rfl : t = u := Option.some.inj hu
    obtain ⟨l, ss⟩ := t
    have hi : i ≤ ss.length := hi
    have hget : (ss.take i ++ s :: ss.drop i)[i]? = some s := by
      rw [List.getElem?_append_right (by simp), List.length_take, Nat.min_eq_left hi, Nat.sub_self]
      rfl
    rw [List.nil_append, subtree?, insertSlot, slots, hget]
    rfl
  | cons k p ih =>
    obtain ⟨u, hu, hroom⟩ := h.exists_child
    rw [List.cons_append, subtree?_insertSlot_cons, if_pos rfl, hu]
    exact ih hroom

/-! ## Inserting a leaf -/

section Leaf

variable {r : String} {l : Label} (h : t.HasRoom p i)
include h

/-- An old node is a node after the insertion exactly if it was one before. -/
theorem shifted_mem_positions {q : Position} :
    shifted i p q ∈ (t.insertSlot s i p).positions ↔ q ∈ t.positions := by
  have hskel := congrArg Option.isSome (map_skeleton_insertSlot (s := s) h q)
  rw [Option.isSome_map, Option.isSome_map] at hskel
  rw [mem_positions, mem_positions, hskel]

/-- The nodes are the old ones and the new leaf. -/
theorem mem_positions_insertSlot {k : Position} : k ∈ (t.insertSlot ⟨r, some (leaf l)⟩ i p).positions ↔
    k = p ++ [i] ∨ ∃ q ∈ t.positions, shifted i p q = k := by
  rcases exists_shifted i p k with ⟨q, rfl⟩ | ⟨rest, rfl⟩
  · rw [shifted_mem_positions h]
    constructor
    · exact fun hq => .inr ⟨q, hq, rfl⟩
    · rintro (he | ⟨q', hq', he⟩)
      · exact absurd he (shifted_ne i p q [])
      · rwa [← shifted_injective i p he]
  · rw [mem_positions, subtree?_insertSlot_new h]
    cases rest with
    | nil => exact iff_of_true rfl (.inl rfl)
    | cons j rest =>
      refine iff_of_false (by simp [subtree?, leaf, slots]) ?_
      rintro (he | ⟨q, -, he⟩)
      · simp at he
      · exact shifted_ne i p q _ he

/-- The old nodes keep their labels. -/
theorem labelAt_insertSlot (q : Position) : (t.insertSlot s i p).labelAt (shifted i p q) = t.labelAt q := by
  have hskel := congrArg (Option.map Prod.fst) (map_skeleton_insertSlot (s := s) h q)
  rw [Option.map_map, Option.map_map] at hskel
  exact congrArg (·.getD { type := emptyType }) hskel

theorem labelAt_insertSlot_new : (t.insertSlot ⟨r, some (leaf l)⟩ i p).labelAt (p ++ [i]) = l := by
  rw [labelAt, subtree?_insertSlot_new h]
  rfl

/-- The children of an old node among the old nodes are what they were. -/
theorem shifted_mem_children {m q : Position} :
    shifted i p m ∈ Slots.children ((t.insertSlot s i p).slotsAt (shifted i p q)) ↔
      m ∈ Slots.children (t.slotsAt q) := by
  rw [mem_children_slotsAt, mem_children_slotsAt]
  simp only [shifted_mem_positions h]
  constructor
  · rintro ⟨j, he, hm⟩
    obtain ⟨j', rfl⟩ := exists_snoc_of_shifted he
    exact ⟨j', rfl, hm⟩
  · rintro ⟨j, rfl, hm⟩
    exact ⟨_, shifted_snoc i p q j, hm⟩

/-- A node other than the one with the new slot keeps its children, in order. -/
theorem children_insertSlot {q : Position} (hq : q ≠ p) :
    Slots.children ((t.insertSlot ⟨r, some (leaf l)⟩ i p).slotsAt (shifted i p q)) =
      (Slots.children (t.slotsAt q)).map (shifted i p) := by
  have hsnoc : ∀ j, shifted i p (q ++ [j]) = shifted i p q ++ [j] := by
    intro j
    rw [shifted_snoc, if_neg fun h => hq h.1]
  refine (pairwise_children_slotsAt _ _).eq_of_mem_iff ?_ fun c => ?_
  · refine List.pairwise_map.2 ((pairwise_children_slotsAt t q).imp_of_mem fun {a b} ha hb hab => ?_)
    obtain ⟨j, rfl, -⟩ := mem_children_slotsAt.1 ha
    obtain ⟨j', rfl, -⟩ := mem_children_slotsAt.1 hb
    rw [hsnoc, hsnoc]
    exact List.append_left_lt (append_left_lt_iff.1 hab)
  · rw [List.mem_map]
    constructor
    · intro hc
      obtain ⟨j, rfl, hmem⟩ := mem_children_slotsAt.1 hc
      rcases (mem_positions_insertSlot h).1 hmem with he | ⟨m, -, he⟩
      · have hqp := (List.append_inj' he rfl).1
        exact absurd (shifted_injective i p (hqp.trans (shifted_self i p).symm)) hq
      · rw [← he, shifted_mem_children h] at hc
        exact ⟨m, hc, he⟩
    · rintro ⟨m, hm, rfl⟩
      exact (shifted_mem_children h).2 hm

/-- Relabelling and inserting commute, where the labels agree. -/
theorem mapLabels_insertSlot {f g : Position → Label → Label}
    (hlabel : ∀ q ∈ t.positions, f (shifted i p q) (t.labelAt q) = g q (t.labelAt q)) :
    (t.insertSlot ⟨r, some (leaf l)⟩ i p).mapLabels f =
      (t.mapLabels g).insertSlot ⟨r, some (leaf (f (p ++ [i]) l))⟩ i p := by
  refine ext_of_skeleton fun k => ?_
  rcases exists_shifted i p k with ⟨q, rfl⟩ | ⟨rest, rfl⟩
  · have hmap : skeleton ∘ mapLabelsFrom f (shifted i p q) =
        (fun k : Label × List (String × Bool) => (f (shifted i p q) k.1, k.2)) ∘ skeleton := by
      funext u
      exact skeleton_mapLabelsFrom f (shifted i p q) u
    rw [map_skeleton_insertSlot (h.mapLabels g), subtree?_mapLabels, subtree?_mapLabels, Option.map_map,
      Option.map_map, hmap, ← Option.map_map, map_skeleton_insertSlot h, Option.map_map]
    cases hu : t.subtree? q with
    | none => rfl
    | some u =>
      have hq := hlabel q (by rw [mem_positions, hu]; rfl)
      have hl : t.labelAt q = u.label := by simp [labelAt, hu]
      have hskel := skeleton_mapLabelsFrom g q u
      rw [hl] at hq
      simp only [Option.map_some, Function.comp_apply, hskel, hq]
      exact congrArg some (Prod.ext (congrArg Prod.fst hskel).symm rfl)
  · rw [subtree?_mapLabels, subtree?_insertSlot_new h, subtree?_insertSlot_new (h.mapLabels g)]
    cases rest with
    | nil => rfl
    | cons j rest => rfl

end Leaf

end Tree

end HintQuality
