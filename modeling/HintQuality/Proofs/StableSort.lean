import HintQuality.Sorting
import Mathlib.Data.List.Forall2
import Mathlib.Order.Lattice
/-!
# Sorting is stable

Elements that precede each other keep the order that they had (`pairwise_sortBy`), so that the elements of one class
come out as they went in (`filter_sortBy`). Where precedence means a smaller or equal key, sorting is stable by the key
(`pairwise_sortBy_of_key`, `IsStableSort`). Lists that are alike element by element are still so after sorting, if
precedence does not tell the elements apart (`forall₂_sortBy`).
-/

namespace HintQuality

variable {α β : Type} {le : α → α → Bool}

/-! ## Order -/

theorem pairwise_insertBy {r : α → α → Prop} (trans : ∀ a b c, le a b → le b c → le a c)
    (total : ∀ a b, le a b || le b a) {x : α} {ys : List α} (hx : ∀ y ∈ ys, r x y)
    (h : ys.Pairwise fun a b => le a b ∧ (le b a → r a b)) :
    (insertBy le x ys).Pairwise fun a b => le a b ∧ (le b a → r a b) := by
  induction ys with
  | nil => exact List.pairwise_singleton _ _
  | cons y ys ih =>
    rw [List.pairwise_cons] at h
    unfold insertBy
    split
    · rename_i hxy
      refine List.pairwise_cons.2 ⟨fun z hz => ⟨?_, fun _ => hx z hz⟩, List.pairwise_cons.2 h⟩
      rcases List.mem_cons.1 hz with rfl | hz
      · exact hxy
      · exact trans _ _ _ hxy (h.1 z hz).1
    · rename_i hxy
      refine List.pairwise_cons.2 ⟨fun z hz => ?_, ih (fun z hz => hx z (List.mem_cons_of_mem _ hz)) h.2⟩
      rcases List.mem_cons.1 ((insertBy_perm le x ys).mem_iff.1 hz) with rfl | hz
      · have hyx : le y z := by
          have := total z y
          simp_all
        exact ⟨hyx, fun hzy => absurd hzy hxy⟩
      · exact h.1 z hz

/-- Sorting puts elements in order, and elements that precede each other are in the relation that they were in. -/
theorem pairwise_sortBy {r : α → α → Prop} (trans : ∀ a b c, le a b → le b c → le a c)
    (total : ∀ a b, le a b || le b a) {xs : List α} (h : xs.Pairwise r) :
    (sortBy le xs).Pairwise fun a b => le a b ∧ (le b a → r a b) := by
  induction xs with
  | nil => exact .nil
  | cons x xs ih =>
    rw [List.pairwise_cons] at h
    refine pairwise_insertBy trans total (fun y hy => h.1 y ?_) (ih h.2)
    exact mem_sortBy.1 hy

theorem filter_insertBy {p : α → Bool} (hp : ∀ a b, p a → p b → le a b) (x : α) (ys : List α) :
    (insertBy le x ys).filter p = (x :: ys).filter p := by
  induction ys with
  | nil => rfl
  | cons y ys ih =>
    unfold insertBy
    split
    · rfl
    · rename_i hxy
      rw [List.filter_cons, ih]
      by_cases hx : p x
      · have hy : ¬p y := fun hy => hxy (hp x y hx hy)
        simp [hx, hy]
      · simp [hx, List.filter_cons]

/-- Elements of a class all of which precede each other keep their order. -/
theorem filter_sortBy {p : α → Bool} (hp : ∀ a b, p a → p b → le a b) (xs : List α) :
    (sortBy le xs).filter p = xs.filter p := by
  induction xs with
  | nil => rfl
  | cons x xs ih =>
    rw [sortBy, filter_insertBy hp, List.filter_cons, List.filter_cons, ih]

/-! ## Sorting by a key -/

/-- The list `ys` has the elements of `xs` in the order of their keys, and those of one key as in `xs`. -/
structure IsStableSort {κ : Type} [LE κ] [DecidableEq κ] (key : α → κ) (xs ys : List α) : Prop where
  /-- Nothing is lost or added. -/
  perm : ys.Perm xs
  /-- The keys do not decrease. -/
  sorted : ys.Pairwise fun a b => key a ≤ key b
  /-- Elements of one key are in the order of `xs`. -/
  stable : ∀ k, (ys.filter fun a => key a = k) = xs.filter fun a => key a = k

/-- Lists that have the same elements of every key have the same elements. -/
theorem perm_of_filter_key {κ : Type} [DecidableEq κ] {key : α → κ} {xs ys : List α}
    (h : ∀ k, (ys.filter fun a => key a = k) = xs.filter fun a => key a = k) : ys.Perm xs := by
  classical
  rw [List.perm_iff_count]
  intro a
  have hcount : ∀ zs : List α, (zs.filter fun b => key b = key a).count a = zs.count a := fun zs =>
    List.count_filter (decide_eq_true rfl)
  rw [← hcount ys, h, hcount]

/-- Where precedence means a smaller or equal key, elements are sorted by it, and those of one key are in the relation
that they were in. -/
theorem pairwise_sortBy_of_key {κ : Type} [LinearOrder κ] {key : α → κ} (hle : ∀ a b, le a b = true ↔ key a ≤ key b)
    {r : α → α → Prop} {xs : List α} (h : xs.Pairwise r) :
    (sortBy le xs).Pairwise fun a b => key a < key b ∨ key a = key b ∧ r a b := by
  have trans : ∀ a b c, le a b = true → le b c = true → le a c = true := by
    intro a b c
    simpa only [hle] using le_trans
  have total : ∀ a b, (le a b || le b a) = true := by
    intro a b
    simpa only [Bool.or_eq_true, hle] using le_total _ _
  refine (pairwise_sortBy trans total h).imp fun {a b} hab => ?_
  have hkey : key a ≤ key b := (hle a b).1 hab.1
  rcases lt_or_eq_of_le hkey with hlt | heq
  · exact .inl hlt
  · exact .inr ⟨heq, hab.2 ((hle b a).2 (le_of_eq heq.symm))⟩

/-- The first element of a list in the strict order of a key that has a property has the least key of all that do. -/
theorem find?_eq_some_iff_of_pairwise_lt {κ : Type} [LinearOrder κ] {key : α → κ} {p : α → Bool} {xs : List α}
    (h : xs.Pairwise fun a b => key a < key b) {x : α} :
    xs.find? p = some x ↔ x ∈ xs ∧ p x ∧ ∀ y ∈ xs, p y → key x ≤ key y := by
  induction xs with
  | nil => simp
  | cons y ys ih =>
    rw [List.pairwise_cons] at h
    by_cases hy : p y
    · rw [List.find?_cons_of_pos hy, Option.some.injEq]
      constructor
      · rintro rfl
        refine ⟨List.mem_cons_self, hy, fun z hz _ => ?_⟩
        rcases List.mem_cons.1 hz with rfl | hz
        · exact le_refl _
        · exact le_of_lt (h.1 z hz)
      · rintro ⟨hx, -, hleast⟩
        rcases List.mem_cons.1 hx with rfl | hx
        · rfl
        · exact absurd (hleast y List.mem_cons_self hy) (not_le_of_gt (h.1 x hx))
    · rw [List.find?_cons_of_neg hy, ih h.2]
      constructor
      · rintro ⟨hx, hpx, hleast⟩
        refine ⟨List.mem_cons_of_mem _ hx, hpx, fun z hz hpz => ?_⟩
        rcases List.mem_cons.1 hz with rfl | hz
        · exact absurd hpz hy
        · exact hleast z hz hpz
      · rintro ⟨hx, hpx, hleast⟩
        rcases List.mem_cons.1 hx with rfl | hx
        · exact absurd hpx hy
        · exact ⟨hx, hpx, fun z hz => hleast z (List.mem_cons_of_mem _ hz)⟩

/-! ## Sorting lists that are alike -/

section Alike

variable {R : α → β → Prop} {le' : β → β → Bool}
  (hle : ∀ a b a' b', R a b → R a' b' → le a a' = le' b b')
include hle

theorem forall₂_insertBy {a : α} {b : β} {as : List α} {bs : List β} (hab : R a b) (h : List.Forall₂ R as bs) :
    List.Forall₂ R (insertBy le a as) (insertBy le' b bs) := by
  induction h with
  | nil => exact .cons hab .nil
  | @cons x y xs ys hxy hxs ih =>
    unfold insertBy
    rw [hle a b x y hab hxy]
    split
    · exact .cons hab (.cons hxy hxs)
    · exact .cons hxy ih

/-- Sorting keeps lists alike. -/
theorem forall₂_sortBy {as : List α} {bs : List β} (h : List.Forall₂ R as bs) :
    List.Forall₂ R (sortBy le as) (sortBy le' bs) := by
  induction h with
  | nil => exact .nil
  | cons hab _ ih => exact forall₂_insertBy hle hab ih

end Alike

end HintQuality
