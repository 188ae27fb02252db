import HintQuality.Increasing
import HintQuality.Proofs.Lists
import Mathlib.Data.Finset.Dedup
import Mathlib.Data.Finset.Order
/-!
# Increasing selections

The cards of a chain increase in value and position from its end to its top, whatever has been dealt
(`sound_piles`); hence the positions that `longest` selects ascend, and so do the elements there (`pairwise_longest`,
`lt_of_mem_longest`). The last pile is as high as there are piles (`length_longest`), and of the cards of an increasing
selection each needs a pile more than the one before it (`length_le_countP_piles`), so that no selection is longer
(`length_le_length_longest`).
-/

namespace HintQuality.Increasing

/-- A chain of cards of a list that decrease in position and value from the top on. -/
structure Chain.Sound (xs : List Int) (c : Chain) : Prop where
  /-- The cards decrease. -/
  descending : c.Pairwise fun a b => b.1 < a.1 ∧ b.2 < a.2
  /-- The cards are elements of the list at their positions. -/
  mem : ∀ card ∈ c, xs[card.1]? = some card.2

variable {card : Card} {c : Chain} {x : Int}

/-- A top below a value is below any value that is not smaller. -/
theorem topBelow_mono {y : Int} (hxy : x ≤ y) (h : topBelow c x = true) : topBelow c y = true := by
  cases c with
  | nil => rfl
  | cons top rest =>
    simp only [topBelow, decide_eq_true_eq] at h ⊢
    omega

/-- The top of a chain is below the next value. -/
theorem topBelow_self (card : Card) (c : Chain) : topBelow (card :: c) (card.2 + 1) = true := by
  simp only [topBelow, decide_eq_true_eq]
  omega

/-- What a dealt pile is: an old one, or the card on a chain whose top is smaller. -/
theorem mem_deal : ∀ {before : Chain} {piles : List Chain}, topBelow before card.2 = true →
    c ∈ deal card before piles →
      c ∈ piles ∨ ∃ b, (b = before ∨ b ∈ piles) ∧ topBelow b card.2 = true ∧ c = card :: b
  | before, [], hb, h => .inr ⟨before, .inl rfl, hb, List.mem_singleton.1 h⟩
  | before, p :: piles, hb, h => by
    unfold deal at h
    split at h
    · rename_i hp
      rcases List.mem_cons.1 h with rfl | h
      · exact .inl List.mem_cons_self
      · rcases mem_deal hp h with h | ⟨b, hb, hbelow, rfl⟩
        · exact .inl (List.mem_cons_of_mem _ h)
        · exact .inr ⟨b, .inr (List.mem_cons.2 hb), hbelow, rfl⟩
    · rcases List.mem_cons.1 h with rfl | h
      · exact .inr ⟨before, .inl rfl, hb, rfl⟩
      · exact .inl (List.mem_cons_of_mem _ h)

/-- A chain stays sound under a card that comes later and exceeds its top. -/
theorem Chain.Sound.push {xs : List Int} (h : c.Sound xs) (hx : xs[card.1]? = some card.2)
    (hlate : ∀ k ∈ c, k.1 < card.1) (htop : topBelow c card.2 = true) : Chain.Sound xs (card :: c) := by
  refine ⟨List.pairwise_cons.2 ⟨fun k hk => ⟨hlate k hk, ?_⟩, h.descending⟩, ?_⟩
  · cases c with
    | nil => cases hk
    | cons top rest =>
      have htop' : top.2 < card.2 := by simpa [topBelow] using htop
      rcases List.mem_cons.1 hk with rfl | hk
      · exact htop'
      · have := ((List.pairwise_cons.1 h.descending).1 k hk).2
        omega
  · intro k hk
    rcases List.mem_cons.1 hk with rfl | hk
    · exact hx
    · exact h.mem k hk

/-- All piles are sound when all cards of a list have been dealt in order. -/
theorem sound_piles (xs : List Int) : ∀ c ∈ piles (xs.zipIdx.map fun p => (p.2, p.1)), c.Sound xs := by
  have main := foldl_prefix_invariant (f := fun ps card => deal card [] ps) (b := [])
    (l := xs.zipIdx.map fun p => (p.2, p.1))
    (P := fun pre ps => ∀ c ∈ ps, Chain.Sound xs c ∧ ∀ k ∈ c, k.1 < pre.length) (by simp) ?_
  · exact fun c hc => (main c hc).1
  · intro pre card post ps hl h c hc
    have hcard : card.1 = pre.length ∧ xs[card.1]? = some card.2 := by
      have hget : (xs.zipIdx.map fun p => (p.2, p.1))[pre.length]? = some card := by simp [hl]
      simp only [List.getElem?_map, List.getElem?_zipIdx, Option.map_map, Option.map_eq_some_iff] at hget
      obtain ⟨x, hx, rfl⟩ := hget
      simpa using hx
    rw [List.length_append, List.length_singleton]
    rcases mem_deal rfl hc with hc | ⟨b, hb, htop, rfl⟩
    · exact ⟨(h c hc).1, fun k hk => by have := (h c hc).2 k hk; omega⟩
    · have hold : Chain.Sound xs b ∧ ∀ k ∈ b, k.1 < pre.length := by
        rcases hb with rfl | hb
        · exact ⟨⟨.nil, by simp⟩, by simp⟩
        · exact h b hb
      refine ⟨hold.1.push hcard.2 (fun k hk => by rw [hcard.1]; exact hold.2 k hk) htop, fun k hk => ?_⟩
      rcases List.mem_cons.1 hk with rfl | hk
      · omega
      · have := hold.2 k hk
        omega

/-- The chain of the last pile is sound. -/
theorem sound_last (xs : List Int) : Chain.Sound xs ((piles (xs.zipIdx.map fun p => (p.2, p.1))).getLastD []) := by
  rw [List.getLastD_eq_getLast?]
  cases h : (piles (xs.zipIdx.map fun p => (p.2, p.1))).getLast? with
  | none => exact ⟨.nil, by simp⟩
  | some c => exact sound_piles xs c (List.mem_of_getLast? h)

/-- The selected positions ascend, and so do the elements there. -/
theorem pairwise_longest (xs : List Int) :
    (longest xs).Pairwise fun i j => i < j ∧ ∃ x y, xs[i]? = some x ∧ xs[j]? = some y ∧ x < y := by
  unfold longest
  rw [List.pairwise_reverse, List.pairwise_map]
  refine (sound_last xs).descending.imp_of_mem fun {a b} ha hb hab => ?_
  exact ⟨hab.1, b.2, a.2, (sound_last xs).mem b hb, (sound_last xs).mem a ha, hab.2⟩

/-- Positions of the list are selected. -/
theorem lt_length_of_mem_longest {xs : List Int} {i : Nat} (h : i ∈ longest xs) : i < xs.length := by
  obtain ⟨card, hcard, rfl⟩ := List.mem_map.1 (List.mem_reverse.1 h)
  exact (List.getElem?_eq_some_iff.1 ((sound_last xs).mem card hcard)).1

/-- The selected positions are some of all positions, in order. -/
theorem longest_sublist_range (xs : List Int) : (longest xs).Sublist (List.range xs.length) := by
  have hlt : (longest xs).Pairwise (· < ·) := (pairwise_longest xs).imp And.left
  have hmem : longest xs ⊆ List.range xs.length := fun i hi => List.mem_range.2 (lt_length_of_mem_longest hi)
  exact List.sublist_of_subperm_of_pairwise (List.subperm_of_subset hlt.nodup hmem) hlt List.pairwise_lt_range

/-- Selected elements increase with their positions. -/
theorem lt_of_mem_longest {xs : List Int} {i j : Nat} (hi : i ∈ longest xs) (hj : j ∈ longest xs) (hij : i < j)
    {x y : Int} (hx : xs[i]? = some x) (hy : xs[j]? = some y) : x < y := by
  let r : Nat → Nat → Prop := fun i j => i < j → ∀ x y, xs[i]? = some x → xs[j]? = some y → x < y
  have hforth : (longest xs).Pairwise r := by
    refine (pairwise_longest xs).imp fun ⟨_, x, y, hx, hy, hxy⟩ _ x' y' hx' hy' => ?_
    rw [Option.some.inj (hx'.symm.trans hx), Option.some.inj (hy'.symm.trans hy)]
    exact hxy
  have hback : (longest xs).Pairwise (flip r) :=
    (pairwise_longest xs).imp fun h hji => absurd h.1 (Nat.lt_asymm hji)
  have hself : ∀ i ∈ longest xs, r i i := fun i _ h => absurd h (Nat.lt_irrefl i)
  exact hforth.forall_of_forall_of_flip hself hback hi hj hij x y hx hy

/-! ## No selection is longer -/

/-- Each pile is one card higher than the one before it. -/
theorem map_length_deal : ∀ (before : Chain) {piles : List Chain},
    piles.map List.length = List.range' (before.length + 1) piles.length →
      (deal card before piles).map List.length = List.range' (before.length + 1) (deal card before piles).length
  | before, [], _ => rfl
  | before, p :: piles, h => by
    rw [List.map_cons, List.length_cons, List.range'_succ, List.cons.injEq] at h
    unfold deal
    split
    · have ih : (deal card p piles).map List.length = List.range' (p.length + 1) (deal card p piles).length :=
        map_length_deal p (by rw [h.1]; exact h.2)
      rw [List.map_cons, List.length_cons, List.range'_succ, ih, h.1]
    · rw [List.map_cons, List.length_cons, List.length_cons, List.range'_succ, h.2]

theorem map_length_piles (cards : List Card) :
    (piles cards).map List.length = List.range' 1 (piles cards).length :=
  List.foldlRecOn cards (motive := fun ps : List Chain => ps.map List.length = List.range' 1 ps.length) _ rfl
    fun _ h _ _ => map_length_deal [] h

/-- As many elements are selected as there are piles. -/
theorem length_longest (xs : List Int) :
    (longest xs).length = (piles (xs.zipIdx.map fun p => (p.2, p.1))).length := by
  have hlast := congrArg List.getLast? (map_length_piles (xs.zipIdx.map fun p => (p.2, p.1)))
  unfold longest
  rw [List.length_reverse, List.length_map, List.getLastD_eq_getLast?]
  rw [List.getLast?_map, List.getLast?_range'] at hlast
  cases hp : (piles (xs.zipIdx.map fun p => (p.2, p.1))).getLast? with
  | none => rw [List.getLast?_eq_none_iff.1 hp]; rfl
  | some c =>
    have hne : (piles (xs.zipIdx.map fun p => (p.2, p.1))).length ≠ 0 := fun h => by
      rw [List.eq_nil_of_length_eq_zero h] at hp
      cases hp
    rw [hp, Option.map_some, if_neg hne, Option.some.injEq] at hlast
    rw [Option.getD_some, hlast]
    omega

/-- Dealing a card leaves at least as many tops below any value. -/
theorem countP_le_countP_deal : ∀ {before : Chain} {piles : List Chain},
    piles.countP (topBelow · x) ≤ (deal card before piles).countP (topBelow · x)
  | before, [] => Nat.zero_le _
  | before, p :: piles => by
    unfold deal
    split
    · rw [List.countP_cons, List.countP_cons]
      exact Nat.add_le_add_right countP_le_countP_deal _
    · rename_i hp
      rw [List.countP_cons, List.countP_cons]
      refine Nat.add_le_add_left ?_ _
      -- the card replaces a top that is not smaller
      cases p with
      | nil => exact absurd rfl hp
      | cons top rest =>
        have hle : card.2 ≤ top.2 := by simpa [topBelow] using hp
        simp only [topBelow, decide_eq_true_eq]
        split <;> split <;> omega

/-- Where a card comes to lie, one top more is at most its value than tops were below it. -/
theorem countP_lt_countP_deal : ∀ {before : Chain} {piles : List Chain},
    piles.countP (topBelow · card.2) < (deal card before piles).countP (topBelow · (card.2 + 1))
  | before, [] => by
    rw [deal, List.countP_singleton, if_pos (topBelow_self card before)]
    exact Nat.one_pos
  | before, p :: piles => by
    have hmono : ∀ c : Chain, topBelow c card.2 = true → topBelow c (card.2 + 1) = true :=
      fun c => topBelow_mono (by omega)
    unfold deal
    split
    · rename_i hp
      rw [List.countP_cons_of_pos (p := (topBelow · _)) hp,
        List.countP_cons_of_pos (p := (topBelow · _)) (hmono p hp)]
      exact Nat.succ_lt_succ countP_lt_countP_deal
    · rename_i hp
      rw [List.countP_cons_of_neg (p := (topBelow · _)) hp,
        List.countP_cons_of_pos (p := (topBelow · _)) (topBelow_self card before)]
      exact Nat.lt_succ_of_le (List.countP_mono_left fun c _ => hmono c)

/-- An increasing selection of values below `x` has at most as many elements as there are tops below `x`. -/
theorem length_le_countP_piles (cards : List Card) : ∀ s : List Int, s.Sublist (cards.map Prod.snd) →
    s.Pairwise (· < ·) → ∀ x, (∀ y ∈ s, y < x) → s.length ≤ (piles cards).countP (topBelow · x) := by
  refine foldl_prefix_invariant (f := fun ps card => deal card [] ps) (b := []) (l := cards)
    (P := fun pre ps => ∀ s : List Int, s.Sublist (pre.map Prod.snd) → s.Pairwise (· < ·) →
      ∀ x, (∀ y ∈ s, y < x) → s.length ≤ ps.countP (topBelow · x)) ?_ ?_
  · intro s hs _ x _
    rw [List.eq_nil_of_sublist_nil hs]
    exact Nat.zero_le _
  · intro pre card post ps _ h s hs hinc x hx
    rw [List.map_append, List.map_singleton, List.sublist_append_iff] at hs
    obtain ⟨s, last, rfl, hs, hlast⟩ := hs
    obtain ⟨hs_inc, -, hcross⟩ := List.pairwise_append.1 hinc
    rcases List.sublist_singleton.1 hlast with rfl | rfl
    · rw [List.append_nil] at hx ⊢
      exact (h s hs hs_inc x hx).trans countP_le_countP_deal
    · -- the selection ends with the card, so what is before it was below the card
      have hbelow := h s hs hs_inc card.2 fun y hy => hcross y hy card.2 List.mem_cons_self
      have hcard : card.2 < x := hx card.2 (by simp)
      calc (s ++ [card.2]).length = s.length + 1 := by simp
        _ ≤ (deal card [] ps).countP (topBelow · (card.2 + 1)) :=
          Nat.succ_le_of_lt (hbelow.trans_lt countP_lt_countP_deal)
        _ ≤ (deal card [] ps).countP (topBelow · x) := List.countP_mono_left fun c _ => topBelow_mono hcard

/-- No increasing selection of a list is longer. -/
theorem length_le_length_longest {xs s : List Int} (hs : s.Sublist xs) (hinc : s.Pairwise (· < ·)) :
    s.length ≤ (longest xs).length := by
  obtain ⟨b, hb⟩ := s.toFinset.exists_le
  have hvalues : (xs.zipIdx.map fun p => (p.2, p.1)).map Prod.snd = xs := by
    rw [List.map_map]
    exact List.zipIdx_map_fst 0 xs
  rw [length_longest]
  refine (length_le_countP_piles _ s (by rwa [hvalues]) hinc (b + 1) fun y hy => ?_).trans List.countP_le_length
  exact Int.lt_add_one_of_le (hb y (List.mem_toFinset.2 hy))

/-- What is not selected and what is make up the list. -/
theorem length_filter_longest {α : Type} {l : List α} {xs : List Int} (h : l.length = xs.length) :
    (l.zipIdx.filter fun k => k.2 ∉ longest xs).length + (longest xs).length = l.length := by
  have hout : (l.zipIdx.filter fun k => k.2 ∉ longest xs).length =
      ((List.range l.length).filter fun j => !decide (j ∈ longest xs)).length := by
    rw [List.range_eq_range', ← List.zipIdx_map_snd 0 l, List.filter_map, List.length_map]
    simp only [Function.comp_def, decide_not]
  have hselected : ((List.range l.length).filter (· ∈ longest xs)) = longest xs := by
    rw [h]
    exact filter_mem_of_sublist (longest_sublist_range xs) List.nodup_range
  have hsplit := List.length_eq_length_filter_add (l := List.range l.length) fun j => decide (j ∈ longest xs)
  rw [hselected, List.length_range] at hsplit
  omega

end HintQuality.Increasing
