import HintQuality.Proofs.LawfulView
import Mathlib.Data.List.Induction
/-!
# Parts of trees

What is left of a tree when nodes are taken out of it with all that is below them (`Tree.restrict`) is a part of it
(`Tree.restrict_isPart`): its nodes are nodes of the tree, with the same labels, and their slots are some of the slots
that they had, in the same order and under the same relation labels (`Tree.IsPart`). The slots that are left are known
exactly (`Tree.slotsAt_restrict`), and so are the nodes: those that are kept together with all nodes above them
(`Tree.mem_range_origin`).
-/

namespace HintQuality

theorem Slots.children_map {α β : Type} (f : α → β) (s : List (Slot α)) :
    children (s.map (Slot.map f)) = (children s).map f := by
  rw [children, children, List.filterMap_map, List.map_filterMap]
  rfl

/-- Filtering slots by their children filters the children. -/
theorem Slots.children_filter {α : Type} {s : List (Slot α)} {f : Slot α → Bool} {keep : α → Bool}
    (h : ∀ c ∈ s, ∀ x, c.child = some x → f c = keep x) : children (s.filter f) = (children s).filter keep := by
  rw [children, children, List.filter_filterMap, List.filterMap_filter]
  refine List.filterMap_congr fun c hc => ?_
  cases hx : c.child with
  | none => simp
  | some x =>
    rw [h c hc x hx, Option.filter_some]

namespace Tree

/-! ## Parts -/

/-- The nodes of `new` are nodes of `old`; the one at `q` stood at `way q`. The roots are the same, labels are kept, and
the slots of a node are some of those that it had, in order and under their relation labels. -/
structure IsPart (new old : Tree) (way : Position → Position) : Prop where
  /-- The root is the root. -/
  root : way [] = []
  /-- Nodes keep their types, values and ids. -/
  label : ∀ q ∈ new.positions, new.labelAt q = old.labelAt (way q)
  /-- Nodes keep the order and the relation labels of the slots that they keep. -/
  slots : ∀ q ∈ new.positions, ((new.slotsAt q).map (Slot.map way)).Sublist (old.slotsAt (way q))

namespace IsPart

variable {new old older : Tree} {way way' : Position → Position}

variable (h : new.IsPart old way)
include h

/-- Nodes keep the order of the children that they keep. -/
theorem children {q : Position} (hq : q ∈ new.positions) :
    ((new.view.children q).map way).Sublist (old.view.children (way q)) := by
  have hsub := (h.slots q hq).filterMap Slot.child
  exact Slots.children_map way (new.slotsAt q) ▸ hsub

/-- Children stay children. -/
theorem exists_snoc {q : Position} {j : Nat} (hq : q ++ [j] ∈ new.positions) :
    ∃ i, way (q ++ [j]) = way q ++ [i] ∧ way (q ++ [j]) ∈ old.positions := by
  have hchild : way (q ++ [j]) ∈ old.view.children (way q) :=
    (h.children (mem_positions_of_snoc hq)).subset (List.mem_map_of_mem (mem_children_slotsAt.2 ⟨j, rfl, hq⟩))
  exact mem_children_slotsAt.1 hchild

theorem way_mem {q : Position} (hq : q ∈ new.positions) : way q ∈ old.positions := by
  rcases List.eq_nil_or_concat' q with rfl | ⟨q, j, rfl⟩
  · rw [h.root]
    exact old.nil_mem_positions
  · obtain ⟨i, -, hi⟩ := h.exists_snoc hq
    exact hi

/-- A part of a part is a part. -/
theorem trans (h' : old.IsPart older way') : new.IsPart older (way' ∘ way) := by
  refine ⟨by rw [Function.comp_apply, h.root, h'.root], fun q hq => ?_, fun q hq => ?_⟩
  · rw [h.label q hq, h'.label _ (h.way_mem hq), Function.comp_apply]
  · have hmap : (new.slotsAt q).map (Slot.map (way' ∘ way)) =
        ((new.slotsAt q).map (Slot.map way)).map (Slot.map way') := by
      rw [List.map_map]
      exact List.map_congr_left fun s _ => by simp [Slot.map]
    rw [hmap]
    exact ((h.slots q hq).map _).trans (h'.slots _ (h.way_mem hq))

/-- Nodes stay on their level. -/
theorem length_way (q : Position) : q ∈ new.positions → (way q).length = q.length := by
  induction q using List.reverseRecOn with
  | nil => simp [h.root]
  | append_singleton q j ih =>
    intro hq
    obtain ⟨i, hi, -⟩ := h.exists_snoc hq
    rw [hi, List.length_append, List.length_append, ih (mem_positions_of_snoc hq), List.length_singleton,
      List.length_singleton]

theorem way_eq_nil_iff {q : Position} (hq : q ∈ new.positions) : way q = [] ↔ q = [] := by
  rw [← List.length_eq_zero_iff, h.length_way q hq, List.length_eq_zero_iff]

/-- What is above a node that is left is left too. -/
theorem exists_above {p : Position} (q : Position) : q ∈ new.positions → p <+: way q →
    ∃ r ∈ new.positions, way r = p := by
  induction q using List.reverseRecOn with
  | nil =>
    intro hq hp
    rw [h.root] at hp
    exact ⟨[], hq, by rw [h.root, List.prefix_nil.1 hp]⟩
  | append_singleton q j ih =>
    intro hq hp
    obtain ⟨i, hi, -⟩ := h.exists_snoc hq
    rw [hi, List.prefix_concat_iff] at hp
    rcases hp with rfl | hp
    · exact ⟨q ++ [j], hq, hi⟩
    · exact ih (mem_positions_of_snoc hq) hp

/-- No node of the tree is met twice. -/
theorem injective (q : Position) : ∀ {r : Position}, q ∈ new.positions → r ∈ new.positions → way q = way r → q = r := by
  induction q using List.reverseRecOn with
  | nil =>
    intro r _ hr he
    have hlen := congrArg List.length he
    rw [h.root, h.length_way r hr] at hlen
    exact (List.eq_nil_of_length_eq_zero hlen.symm).symm
  | append_singleton q j ih =>
    intro r hq hr he
    obtain ⟨i, hi, -⟩ := h.exists_snoc hq
    rcases List.eq_nil_or_concat' r with rfl | ⟨r, j', rfl⟩
    · rw [hi, h.root] at he
      simp at he
    · obtain ⟨i', hi', -⟩ := h.exists_snoc hr
      obtain rfl : q = r := by
        rw [hi, hi'] at he
        exact ih (mem_positions_of_snoc hq) (mem_positions_of_snoc hr) (List.append_inj' he rfl).1
      have hnd : ((new.view.children q).map way).Nodup :=
        ((old.pairwise_children_slotsAt (way q)).nodup).sublist (h.children (mem_positions_of_snoc hq))
      exact List.inj_on_of_nodup_map hnd (mem_children_slotsAt.2 ⟨j, rfl, hq⟩) (mem_children_slotsAt.2 ⟨j', rfl, hr⟩) he

end IsPart

/-! ## Taking nodes out -/

section Restrict

variable (keep : Position → Bool)

/-- Whether a slot is left: an empty one is, and one whose child is kept. -/
def isLeft (s : Slot Position) : Bool :=
  s.child.all keep

mutual

/-- The tree, standing at `here`, without the nodes below it that are not kept and all that is below these. -/
def restrictFrom (here : Position) : Tree → Tree
  | node l s => node l (restrictSlots here 0 s)

/-- `restrictFrom` on the slots from number `i` on of the node at `here`. -/
def restrictSlots (here : Position) (i : Nat) : List (Slot Tree) → List (Slot Tree)
  | [] => []
  | ⟨r, none⟩ :: s => ⟨r, none⟩ :: restrictSlots here (i + 1) s
  | ⟨r, some t⟩ :: s =>
    if keep (here ++ [i]) then ⟨r, some (t.restrictFrom (here ++ [i]))⟩ :: restrictSlots here (i + 1) s
    else restrictSlots here (i + 1) s

end

/-- The tree without the nodes below the root that are not kept and all that is below these. -/
def restrict (t : Tree) : Tree :=
  t.restrictFrom keep []

/-- Where the child in slot `j` of what is left of the node at `p` stood. -/
def leftChild (t : Tree) (p : Position) (j : Nat) : Position :=
  (((t.slotsAt p).filter (isLeft keep))[j]?.bind Slot.child).getD p

/-- Where a node of what is left of a tree stood in it. -/
def origin (t : Tree) (q : Position) : Position :=
  q.foldl (t.leftChild keep) []

theorem origin_snoc (t : Tree) (q : Position) (j : Nat) :
    t.origin keep (q ++ [j]) = t.leftChild keep (t.origin keep q) j := by
  rw [origin, List.foldl_append]
  rfl

/-- The slots with their numbers, from `i` on, without those whose children at `here` are not kept. -/
def leftSlots (here : Position) (i : Nat) (s : List (Slot Tree)) : List (Slot Tree × Nat) :=
  (s.zipIdx i).filter fun c => c.1.child.isNone || keep (here ++ [c.2])

theorem restrictSlots_eq (here : Position) : ∀ (i : Nat) (s : List (Slot Tree)), restrictSlots keep here i s =
    (leftSlots keep here i s).map fun c => c.1.map (restrictFrom keep (here ++ [c.2]))
  | _, [] => rfl
  | i, ⟨r, none⟩ :: s => by
    rw [restrictSlots, restrictSlots_eq here (i + 1) s]
    rfl
  | i, ⟨r, some t⟩ :: s => by
    rw [restrictSlots, restrictSlots_eq here (i + 1) s, leftSlots, leftSlots, List.zipIdx_cons, List.filter_cons]
    simp only [Option.isNone_some, Bool.false_or]
    split <;> rfl

theorem slots_restrictFrom (here : Position) (t : Tree) : (t.restrictFrom keep here).slots =
    (leftSlots keep here 0 t.slots).map fun c => c.1.map (restrictFrom keep (here ++ [c.2])) := by
  obtain ⟨l, s⟩ := t
  exact restrictSlots_eq keep here 0 s

theorem filter_slotsAt {t u : Tree} {p : Position} (hu : t.subtree? p = some u) :
    (t.slotsAt p).filter (isLeft keep) =
      (leftSlots keep p 0 u.slots).map fun c => ⟨c.1.relation, c.1.child.map fun _ => p ++ [c.2]⟩ := by
  rw [slotsAt, hu, Option.map_some, Option.getD_some, List.filter_map]
  congr 1
  refine List.filter_congr fun c _ => ?_
  rw [Function.comp_apply, isLeft]
  cases c.1.child <;> simp

variable {keep} {t : Tree}

/-- A node with a child that is kept has slots left. -/
theorem slots_restrictFrom_ne_nil {u w : Tree} {here : Position} {i : Nat} (hw : u.slots[i]?.bind Slot.child = some w)
    (hkeep : keep (here ++ [i]) = true) : (u.restrictFrom keep here).slots ≠ [] := by
  obtain ⟨c, hc, -⟩ := Option.bind_eq_some_iff.1 hw
  have hmem : (c, i) ∈ leftSlots keep here 0 u.slots :=
    List.mem_filter.2 ⟨List.mk_mem_zipIdx_iff_getElem?.2 hc, by simp [hkeep]⟩
  rw [slots_restrictFrom, ne_eq, List.map_eq_nil_iff]
  exact List.ne_nil_of_mem hmem

theorem slots_restrictFrom_eq_nil {u : Tree} {p : Position} (hu : t.subtree? p = some u) :
    (u.restrictFrom keep p).slots = [] ↔ (t.slotsAt p).filter (isLeft keep) = [] := by
  rw [slots_restrictFrom, filter_slotsAt keep hu, List.map_eq_nil_iff, List.map_eq_nil_iff]

/-- A slot that is left stands under its number among all slots. -/
theorem getElem?_of_leftSlots {here : Position} {s : List (Slot Tree)} {j : Nat} {c : Slot Tree × Nat}
    (h : (leftSlots keep here 0 s)[j]? = some c) : s[c.2]? = some c.1 :=
  List.mk_mem_zipIdx_iff_getElem?.1 (List.mem_filter.1 (List.mem_of_getElem? h)).1

theorem leftChild_eq {u w : Tree} {p : Position} (hu : t.subtree? p = some u) {j : Nat} {c : Slot Tree × Nat}
    (h : (leftSlots keep p 0 u.slots)[j]? = some c) (hw : c.1.child = some w) : t.leftChild keep p j = p ++ [c.2] := by
  rw [leftChild, filter_slotsAt keep hu, List.getElem?_map, h, Option.map_some, Option.bind_some, hw]
  rfl

/-- What is below a node that is left is what is left of what was below it. -/
theorem subtree?_restrict (q : Position) : q ∈ (t.restrict keep).positions →
    ∃ u, t.subtree? (t.origin keep q) = some u ∧
      (t.restrict keep).subtree? q = some (u.restrictFrom keep (t.origin keep q)) := by
  induction q using List.reverseRecOn with
  | nil => exact fun _ => ⟨t, rfl, rfl⟩
  | append_singleton q j ih =>
    intro hq
    obtain ⟨u, hu, hv⟩ := ih (mem_positions_of_snoc hq)
    rw [mem_positions, subtree?_snoc, hv, Option.bind_some, slots_restrictFrom, List.getElem?_map] at hq
    rw [subtree?_snoc, hv, Option.bind_some, slots_restrictFrom, List.getElem?_map, origin_snoc]
    cases hc : (leftSlots keep (t.origin keep q) 0 u.slots)[j]? with
    | none =>
      rw [hc] at hq
      cases hq
    | some c =>
      rw [hc] at hq
      cases hw : c.1.child with
      | none =>
        rw [Option.map_some, Option.bind_some, Slot.map, hw] at hq
        cases hq
      | some w =>
        refine ⟨w, ?_, ?_⟩
        · rw [leftChild_eq hu hc hw, subtree?_snoc, hu, Option.bind_some, getElem?_of_leftSlots hc, Option.bind_some,
            hw]
        · rw [leftChild_eq hu hc hw, Option.map_some, Option.bind_some, Slot.map, hw, Option.map_some]

/-- The slots of a node that is left are those that it had, without those whose children are not kept. -/
theorem slotsAt_restrict {q : Position} (hq : q ∈ (t.restrict keep).positions) :
    ((t.restrict keep).slotsAt q).map (Slot.map (t.origin keep)) =
      (t.slotsAt (t.origin keep q)).filter (isLeft keep) := by
  obtain ⟨u, hu, hv⟩ := subtree?_restrict q hq
  refine List.ext_getElem? fun j => ?_
  rw [filter_slotsAt keep hu, List.getElem?_map, List.getElem?_map, slotsAt_getElem?, hv, Option.bind_some,
    slots_restrictFrom, List.getElem?_map, Option.map_map, Option.map_map]
  cases hc : (leftSlots keep (t.origin keep q) 0 u.slots)[j]? with
  | none => rfl
  | some c =>
    cases hw : c.1.child with
    | none => simp [Slot.map, hw]
    | some w => simp [Slot.map, hw, origin_snoc, leftChild_eq hu hc hw]

/-- What is left of a tree is a part of it. -/
theorem restrict_isPart (keep : Position → Bool) (t : Tree) : (t.restrict keep).IsPart t (t.origin keep) := by
  refine ⟨rfl, fun q hq => ?_, fun q hq => ?_⟩
  · obtain ⟨u, hu, hv⟩ := subtree?_restrict q hq
    rw [labelAt, labelAt, hu, hv]
    obtain ⟨l, s⟩ := u
    rfl
  · rw [slotsAt_restrict hq]
    exact List.filter_sublist

/-- The children of a node that is left are those that it had and that are kept. -/
theorem children_restrict {q : Position} (hq : q ∈ (t.restrict keep).positions) :
    ((t.restrict keep).view.children q).map (t.origin keep) =
      (t.view.children (t.origin keep q)).filter keep := by
  have hchildren := congrArg Slots.children (slotsAt_restrict hq)
  rw [Slots.children_map] at hchildren
  refine hchildren.trans (Slots.children_filter fun s _ c hc => ?_)
  rw [isLeft, hc, Option.all_some]

/-- A node below the root is left only if it is kept. -/
theorem keep_origin {q : Position} (hq : q ∈ (t.restrict keep).positions) (hne : q ≠ []) :
    keep (t.origin keep q) = true := by
  obtain ⟨r, j, rfl⟩ : ∃ r j, q = r ++ [j] := ⟨_, _, (List.dropLast_append_getLast hne).symm⟩
  have hmem : t.origin keep (r ++ [j]) ∈ ((t.restrict keep).view.children r).map (t.origin keep) :=
    List.mem_map_of_mem (mem_children_slotsAt.2 ⟨j, rfl, hq⟩)
  rw [children_restrict (mem_positions_of_snoc hq)] at hmem
  exact (List.mem_filter.1 hmem).2

/-- The nodes that are left are those that are kept together with all nodes above them. -/
theorem mem_range_origin {p : Position} (hp : p ∈ t.positions) :
    (∃ q ∈ (t.restrict keep).positions, t.origin keep q = p) ↔ ∀ r, r <+: p → r ≠ [] → keep r = true := by
  constructor
  · rintro ⟨q, hq, rfl⟩ r hr hne
    obtain ⟨q', hq', rfl⟩ := (restrict_isPart keep t).exists_above q hq hr
    refine keep_origin hq' ?_
    rintro rfl
    exact hne rfl
  · induction p using List.reverseRecOn with
    | nil => exact fun _ => ⟨[], nil_mem_positions _, rfl⟩
    | append_singleton p i ih =>
      intro hkeep
      have hparent := mem_positions_of_snoc hp
      obtain ⟨q, hq, rfl⟩ := ih hparent fun r hr => hkeep r (hr.trans (List.prefix_append _ _))
      have hmem : t.origin keep q ++ [i] ∈ (t.view.children (t.origin keep q)).filter keep :=
        List.mem_filter.2 ⟨mem_children_slotsAt.2 ⟨i, rfl, hp⟩, hkeep _ List.prefix_rfl (by simp)⟩
      rw [← children_restrict hq] at hmem
      obtain ⟨c, hc, he⟩ := List.mem_map.1 hmem
      obtain ⟨j, rfl, hj⟩ := mem_children_slotsAt.1 hc
      exact ⟨_, hj, he⟩

end Restrict

section Below

variable {keep keep' : Position → Bool} {t u : Tree} {p : Position} (hu : t.subtree? p = some u)
  (hkeep : ∀ r, keep (p ++ r) = keep' r)
include hu hkeep

theorem leftChild_append (q : Position) (j : Nat) : t.leftChild keep (p ++ q) j = p ++ u.leftChild keep' q j := by
  have hleft : isLeft keep ∘ (fun s : Slot Position => (⟨s.relation, s.child.map (p ++ ·)⟩ : Slot Position)) =
      isLeft keep' := by
    funext s
    cases hs : s.child <;> simp [isLeft, hs, hkeep]
  rw [leftChild, leftChild, slotsAt_append hu, List.filter_map, hleft, List.getElem?_map]
  cases ((u.slotsAt q).filter (isLeft keep'))[j]? with
  | none => rfl
  | some s => cases hs : s.child <;> simp [hs]

/-- Below a node that is left, what is left stood where it stands in the tree below that node. -/
theorem origin_append {q : Position} (hq : t.origin keep q = p) (r : Position) :
    t.origin keep (q ++ r) = p ++ u.origin keep' r := by
  induction r using List.reverseRecOn with
  | nil =>
    rw [List.append_nil, hq]
    exact (List.append_nil p).symm
  | append_singleton r j ih =>
    rw [← List.append_assoc, origin_snoc, origin_snoc, ih, leftChild_append hu hkeep]

end Below

end Tree

end HintQuality
