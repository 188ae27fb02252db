import Mathlib.Data.List.Nodup
import Mathlib.Data.List.Sort
/-!
# Lists

Facts about lists that several parts of the theory share: an invariant of a fold that may speak of what has been
folded so far (`foldl_prefix_invariant`), and order in lists without repetitions. There `[a, b]` being a sublist says
that `a` stands before `b`, and `Follows` that there is nothing between. A list without repetitions can be put together
from the order of some of its elements and from what the others follow (`eq_of_follows`).
-/

namespace HintQuality

/-- An invariant of a fold that may speak of what has been folded so far. -/
theorem foldl_prefix_invariant {α β : Type} {f : β → α → β} {P : List α → β → Prop} {l : List α} {b : β} (h : P [] b)
    (step : ∀ pre a post b, l = pre ++ a :: post → P pre b → P (pre ++ [a]) (f b a)) : P l (l.foldl f b) := by
  have main : ∀ post pre b, l = pre ++ post → P pre b → P l (post.foldl f b) := by
    intro post
    induction post with
    | nil =>
      intro pre b hl hp
      rw [List.append_nil] at hl
      rw [hl]
      exact hp
    | cons a post ih =>
      intro pre b hl hp
      exact ih (pre ++ [a]) (f b a) (by rw [hl, List.append_assoc]; rfl) (step pre a post b hl hp)
  exact main l [] b rfl h

theorem map_fst_zip_sublist {α β : Type} : ∀ (as : List α) (bs : List β), ((as.zip bs).map Prod.fst).Sublist as
  | [], _ => by simp
  | _ :: _, [] => by simp
  | a :: as, _ :: bs => (map_fst_zip_sublist as bs).cons_cons a

theorem map_snd_zip_sublist {α β : Type} : ∀ (as : List α) (bs : List β), ((as.zip bs).map Prod.snd).Sublist bs
  | [], _ => by simp
  | _ :: _, [] => by simp
  | _ :: as, b :: bs => (map_snd_zip_sublist as bs).cons_cons b

/-- Where a partial function is defined on all elements, it keeps their positions. -/
theorem getElem?_filterMap {α β : Type} {f : α → Option β} {l : List α} (h : ∀ x ∈ l, (f x).isSome) (i : Nat) :
    (l.filterMap f)[i]? = l[i]?.bind f := by
  induction l generalizing i with
  | nil => rfl
  | cons x l ih =>
    obtain ⟨y, hy⟩ := Option.isSome_iff_exists.1 (h x List.mem_cons_self)
    rw [List.filterMap_cons_some hy]
    cases i with
    | zero => simp [hy]
    | succ i => exact ih (fun x hx => h x (List.mem_cons_of_mem _ hx)) i

theorem modify_length_append {α : Type} (f : α → α) (x : α) (b : List α) : ∀ a : List α,
    (a ++ x :: b).modify a.length f = a ++ f x :: b
  | [] => rfl
  | y :: a => congrArg (y :: ·) (modify_length_append f x b a)

/-- Among distinct keys, looking a key up finds its own value. -/
theorem lookup_eq_of_nodup {α : Type} {xs : List (String × α)} (hnd : (xs.map Prod.fst).Nodup) {x : String × α}
    (hx : x ∈ xs) : xs.lookup x.1 = some x.2 := by
  induction xs with
  | nil => cases hx
  | cons y ys ih =>
    rw [List.map_cons, List.nodup_cons] at hnd
    rcases List.mem_cons.1 hx with rfl | hx
    · exact List.lookup_cons_self
    · have hne : x.1 ≠ y.1 := fun e => hnd.1 (e ▸ List.mem_map_of_mem hx)
      rw [List.lookup_cons, beq_false_of_ne hne]
      exact ih hnd.2 hx

/-- What is left of a list after its repetitions are removed does not repeat. -/
theorem nodup_eraseDups {α : Type} [BEq α] [LawfulBEq α] : ∀ xs : List α, xs.eraseDups.Nodup
  | [] => by simp
  | x :: xs => by
    rw [List.eraseDups_cons, List.nodup_cons]
    refine ⟨by simp, nodup_eraseDups (xs.filter fun y => !y == x)⟩
termination_by xs => xs.length
decreasing_by
  have := List.length_filter_le (fun y => !y == x) xs
  simp only [List.length_cons]
  omega

variable {α : Type}

/-- Of two elements that stand in order, the one before has the smaller position. -/
theorem exists_getElem?_of_pair_sublist {l : List α} {a b : α} (h : [a, b].Sublist l) :
    ∃ i j : Nat, i < j ∧ l[i]? = some a ∧ l[j]? = some b := by
  induction l with
  | nil => cases h
  | cons x l ih =>
    cases h with
    | cons _ h =>
      obtain ⟨i, j, hij, hi, hj⟩ := ih h
      exact ⟨i + 1, j + 1, Nat.succ_lt_succ hij, by simpa using hi, by simpa using hj⟩
    | cons_cons _ h =>
      obtain ⟨j, hj⟩ := List.mem_iff_getElem?.1 (h.subset List.mem_cons_self)
      exact ⟨0, j + 1, Nat.succ_pos j, by simp, by simpa using hj⟩

/-- `x` stands in `l` right after `o`, or in front of all others if that is `none`. -/
def Follows (l : List α) (o : Option α) (x : α) : Prop :=
  ∃ pre post, l = pre ++ x :: post ∧ pre.getLast? = o

/-- What follows an element of a list without repetitions is the head of what is left of the list after it. -/
theorem Follows.head? {pre post : List α} {x : α} (hl : (pre ++ post).Nodup)
    (h : Follows (pre ++ post) pre.getLast? x) : post.head? = some x := by
  obtain ⟨pre', post', hsplit, hlast⟩ := h
  rcases List.eq_nil_or_concat' pre with rfl | ⟨u, z, rfl⟩
  · have hnil : pre' = [] := List.getLast?_eq_none_iff.1 hlast
    rw [hnil, List.nil_append, List.nil_append] at hsplit
    rw [hsplit, List.head?_cons]
  · rw [List.getLast?_append_cons, List.getLast?_singleton] at hlast
    obtain ⟨u', rfl⟩ := List.getLast?_eq_some_iff.1 hlast
    rw [List.append_assoc, List.append_assoc, List.singleton_append, List.singleton_append] at hsplit
    rw [List.append_assoc, List.singleton_append] at hl
    have hz := List.nodup_middle.1 hl
    rw [List.nodup_cons, List.mem_append, not_or] at hz
    have := (List.append_cons_inj_of_notMem hz.1.1 hz.1.2).1 hsplit
    rw [this.2.2, List.head?_cons]

/-- In a list without repetitions, two elements do not follow the same one. -/
theorem Follows.unique {l : List α} (hl : l.Nodup) {o : Option α} {x y : α} (hx : Follows l o x)
    (hy : Follows l o y) : x = y := by
  obtain ⟨pre, post, rfl, rfl⟩ := hx
  exact Option.some.inj (Follows.head? hl hy)

/-- In a list without repetitions, an element follows one thing only. -/
theorem Follows.eq {l : List α} (hl : l.Nodup) {o o' : Option α} {x : α} (h : Follows l o x) (h' : Follows l o' x) :
    o = o' := by
  obtain ⟨pre, post, rfl, rfl⟩ := h
  obtain ⟨pre', post', hsplit, rfl⟩ := h'
  have hx := List.nodup_middle.1 hl
  rw [List.nodup_cons, List.mem_append, not_or] at hx
  have := (List.append_cons_inj_of_notMem hx.1.1 hx.1.2).1 hsplit
  rw [this.1]

/-- What an element follows stands before it. -/
theorem Follows.pair_sublist {l : List α} {x y : α} (h : Follows l (some y) x) : [y, x].Sublist l := by
  obtain ⟨pre, post, rfl, hy⟩ := h
  obtain ⟨u, rfl⟩ := List.getLast?_eq_some_iff.1 hy
  refine (List.singleton_sublist.2 (List.mem_append_right u (List.mem_singleton_self y))).append ?_
  exact List.singleton_sublist.2 List.mem_cons_self

theorem Follows.mem {l : List α} {o : Option α} {x : α} (h : Follows l o x) : x ∈ l := by
  obtain ⟨pre, post, rfl, -⟩ := h
  exact List.mem_append_right _ List.mem_cons_self

theorem Follows.map {β : Type} (f : α → β) {l : List α} {o : Option α} {x : α} (h : Follows l o x) :
    Follows (l.map f) (o.map f) (f x) := by
  obtain ⟨pre, post, rfl, rfl⟩ := h
  exact ⟨pre.map f, post.map f, by rw [List.map_append, List.map_cons], List.getLast?_map⟩

theorem Follows.of_map {β : Type} {f : α → β} {l : List α} {o : Option β} {y : β} (h : Follows (l.map f) o y) :
    ∃ o' x, Follows l o' x ∧ o'.map f = o ∧ f x = y := by
  obtain ⟨pre, post, hl, rfl⟩ := h
  obtain ⟨pre', rest, rfl, rfl, hrest⟩ := List.map_eq_append_iff.1 hl
  obtain ⟨x, post', rfl, hx, rfl⟩ := List.map_eq_cons_iff.1 hrest
  exact ⟨pre'.getLast?, x, ⟨pre', post', rfl, rfl⟩, List.getLast?_map.symm, hx⟩

/-- Of two lists without repetitions that keep the same elements of one kind in the same order, and where each element
of the other kind follows the same element, what is left after a common prefix has the same head. -/
theorem head?_of_follows {keep : α → Bool} {pre rest rest' : List α} (hl : (pre ++ rest).Nodup)
    (hl' : (pre ++ rest').Nodup) (hkeep : (pre ++ rest).filter keep = (pre ++ rest').filter keep)
    (hfollows : ∀ x o, keep x = false → (Follows (pre ++ rest) o x ↔ Follows (pre ++ rest') o x)) {x : α}
    (hx : rest.head? = some x) : rest'.head? = some x := by
  obtain ⟨tail, rfl⟩ := List.head?_eq_some_iff.1 hx
  cases hkx : keep x with
  | false => exact Follows.head? hl' ((hfollows x _ hkx).1 ⟨pre, tail, rfl, rfl⟩)
  | true =>
    rw [List.filter_append, List.filter_append, List.append_cancel_left_eq, List.filter_cons_of_pos hkx] at hkeep
    cases rest' with
    | nil => cases hkeep
    | cons y tail' =>
      cases hky : keep y with
      | false =>
        have := Follows.head? hl ((hfollows y _ hky).2 ⟨pre, tail', rfl, rfl⟩)
        rw [List.head?_cons, Option.some.injEq] at this
        rw [this, hky] at hkx
        cases hkx
      | true =>
        rw [List.filter_cons_of_pos hky, List.cons.injEq] at hkeep
        rw [hkeep.1, List.head?_cons]

/-- Two lists without repetitions are the same if they keep the same elements of one kind in the same order, and each
element of the other kind follows the same element in both. -/
theorem eq_of_follows (keep : α → Bool) {l l' : List α} (hl : l.Nodup) (hl' : l'.Nodup)
    (hkeep : l.filter keep = l'.filter keep)
    (hfollows : ∀ x o, keep x = false → (Follows l o x ↔ Follows l' o x)) : l = l' := by
  have main : ∀ rest pre rest', l = pre ++ rest → l' = pre ++ rest' → rest = rest' := by
    intro rest
    induction rest with
    | nil =>
      rintro pre rest' rfl rfl
      cases rest' with
      | nil => rfl
      | cons y tail' =>
        have := head?_of_follows hl' hl hkeep.symm (fun x o hx => (hfollows x o hx).symm) (x := y) rfl
        cases this
    | cons x tail ih =>
      rintro pre rest' rfl rfl
      obtain ⟨tail', rfl⟩ := List.head?_eq_some_iff.1 (head?_of_follows hl hl' hkeep hfollows (x := x) rfl)
      rw [ih (pre ++ [x]) tail' (by rw [List.append_assoc]; rfl) (by rw [List.append_assoc]; rfl)]
  exact main l [] l' rfl rfl

variable [DecidableEq α]

/-- In a list without repetitions, an element stands before another one in position if it does in order. -/
theorem idxOf_lt_of_pair_sublist {l : List α} (hl : l.Nodup) {a b : α} (h : [a, b].Sublist l) :
    l.idxOf a < l.idxOf b := by
  induction l with
  | nil => cases h
  | cons x l ih =>
    rw [List.nodup_cons] at hl
    cases h with
    | cons _ h =>
      have ha : a ∈ l := h.subset (by simp)
      have hb : b ∈ l := h.subset (by simp)
      rw [List.idxOf_cons_ne _ (by rintro rfl; exact hl.1 ha), List.idxOf_cons_ne _ (by rintro rfl; exact hl.1 hb)]
      exact Nat.succ_lt_succ (ih hl.2 h)
    | cons_cons _ h =>
      have hb : b ∈ l := h.subset (by simp)
      rw [List.idxOf_cons_self, List.idxOf_cons_ne _ (by rintro rfl; exact hl.1 hb)]
      exact Nat.succ_pos _

/-- What stands before the head of a suffix stands in front of the suffix. -/
theorem mem_of_pair_sublist {pre post : List α} {a b : α} (hl : (pre ++ b :: post).Nodup)
    (h : [a, b].Sublist (pre ++ b :: post)) : a ∈ pre := by
  have hlt := idxOf_lt_of_pair_sublist hl h
  have hb : b ∉ pre := fun hb => (List.disjoint_of_nodup_append hl) hb (by simp)
  rw [List.idxOf_append_of_notMem hb, List.idxOf_cons_self] at hlt
  by_contra ha
  rw [List.idxOf_append_of_notMem ha] at hlt
  omega

/-- Elements of a list without repetitions that stand in its order make up a sublist. -/
theorem sublist_of_pairs {s l : List α} (hl : l.Nodup) (hsub : s ⊆ l)
    (hs : s.Pairwise fun a b => [a, b].Sublist l) : s.Sublist l := by
  let r : α → α → Prop := fun a b => l.idxOf a < l.idxOf b
  have hanti : Std.Antisymm r := ⟨fun a b hab hba => absurd hab (by unfold r at *; omega)⟩
  have hsr : s.Pairwise r := hs.imp fun h => idxOf_lt_of_pair_sublist hl h
  have hlr : l.Pairwise r := List.pairwise_iff_forall_sublist.2 fun h => idxOf_lt_of_pair_sublist hl h
  have hnd : s.Nodup := hsr.imp fun {a b} hab e => by
    rw [e] at hab
    exact Nat.lt_irrefl _ hab
  exact List.sublist_of_subperm_of_pairwise (List.subperm_of_subset hnd hsub) hsr hlr

/-- A sublist of a list without repetitions is what filtering for its elements leaves. -/
theorem filter_mem_of_sublist {s l : List α} (h : s.Sublist l) (hl : l.Nodup) : l.filter (· ∈ s) = s := by
  induction h with
  | slnil => rfl
  | @cons s l a h ih =>
    rw [List.nodup_cons] at hl
    rw [List.filter_cons_of_neg (by simpa using fun ha => hl.1 (h.subset ha))]
    exact ih hl.2
  | @cons_cons s l a h ih =>
    rw [List.nodup_cons] at hl
    rw [List.filter_cons_of_pos (by simp)]
    congr 1
    rw [← ih hl.2]
    refine List.filter_congr fun b hb => ?_
    have hne : b ≠ a := by rintro rfl; exact hl.1 hb
    simp [hne, List.mem_filter, hb]

end HintQuality
