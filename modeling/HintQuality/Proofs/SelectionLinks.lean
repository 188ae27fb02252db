import HintQuality.Increasing.Links
import HintQuality.Proofs.Increasing
/-!
# Selections read from links

The tables know the tops of the piles, and the links lead down each pile (`Links.Shows`). Dealing a card keeps it so
(`Links.Shows.deal`): halving finds the pile that the card goes on (`isPlace_place`), and only the link of the new card
is set. What is linked below the last top is therefore the last pile, and the way back ends within as many steps as
there are elements (`selection?_of`). `longest_selected` puts together what is selected.
-/

namespace HintQuality.Increasing

/-! ## Places -/

/-- A place in a list: what is before it is below `x`, and nothing from it on is. -/
structure IsPlace (tails : List Int) (x : Int) (j : Nat) : Prop where
  le : j ≤ tails.length
  below : ∀ i < j, ∀ y, tails[i]? = some y → y < x
  above : ∀ i, j ≤ i → ∀ y, tails[i]? = some y → x ≤ y

variable {tails : List Int} {x : Int}

/-- Of increasing values, those at later places are greater. -/
theorem lt_of_pairwise (h : tails.Pairwise (· < ·)) {i j : Nat} (hij : i < j) {y z : Int} (hy : tails[i]? = some y)
    (hz : tails[j]? = some z) : y < z := by
  obtain ⟨hi, rfl⟩ := List.getElem?_eq_some_iff.1 hy
  obtain ⟨hj, rfl⟩ := List.getElem?_eq_some_iff.1 hz
  exact List.pairwise_iff_getElem.1 h i j hi hj hij

/-- Halving closes in on the place. -/
theorem isPlace_placeBetween (h : tails.Pairwise (· < ·)) {lo hi : Nat} (hle : lo ≤ hi) (hhi : hi ≤ tails.length)
    (hbelow : ∀ i < lo, ∀ y, tails[i]? = some y → y < x) (habove : ∀ i, hi ≤ i → ∀ y, tails[i]? = some y → x ≤ y) :
    IsPlace tails x (placeBetween tails x lo hi) := by
  fun_induction placeBetween tails x lo hi with
  | case1 lo hi hlt hmid ih =>
    obtain ⟨y, hy⟩ : ∃ y, tails[(lo + hi) / 2]? = some y := ⟨_, List.getElem?_eq_getElem (by omega)⟩
    have hyx : y < x := by simpa [hy] using hmid
    refine ih (by omega) hhi (fun i hi z hz => ?_) habove
    rcases Nat.lt_or_eq_of_le (Nat.le_of_lt_succ hi) with hi | rfl
    · exact (lt_of_pairwise h hi hz hy).trans hyx
    · rwa [← Option.some.inj (hy.symm.trans hz)]
  | case2 lo hi hlt hmid ih =>
    obtain ⟨y, hy⟩ : ∃ y, tails[(lo + hi) / 2]? = some y := ⟨_, List.getElem?_eq_getElem (by omega)⟩
    have hxy : x ≤ y := by simpa [hy] using hmid
    refine ih (by omega) (by omega) hbelow fun i hi z hz => ?_
    rcases Nat.lt_or_eq_of_le hi with hi | rfl
    · exact hxy.trans (lt_of_pairwise h hi hy hz).le
    · rwa [← Option.some.inj (hy.symm.trans hz)]
  | case3 lo hi hlt =>
    obtain rfl : lo = hi := by omega
    exact ⟨hhi, hbelow, habove⟩

/-- In increasing values the place of any value is found. -/
theorem isPlace_place (h : tails.Pairwise (· < ·)) (x : Int) : IsPlace tails x (place tails x) :=
  isPlace_placeBetween h (Nat.zero_le _) (Nat.le_refl _) (fun _ hi => absurd hi (Nat.not_lt_zero _))
    fun _ hi _ hy => absurd (List.getElem?_eq_some_iff.1 hy).1 (Nat.not_lt.2 hi)

theorem Links.putAt_eq {α : Type} {l : List α} {i : Nat} (h : i ≤ l.length) (x : α) :
    putAt l i x = l.take i ++ x :: l.drop (i + 1) := by
  unfold putAt
  split_ifs with hi
  · rw [hi, List.take_length, List.drop_eq_nil_of_le (Nat.le_succ _)]
  · rw [List.set_eq_take_append_cons_drop, if_pos (by omega)]

/-- A value that is put at its place leaves the values increasing. -/
theorem IsPlace.pairwise_putAt (h : tails.Pairwise (· < ·)) {j : Nat} (hj : IsPlace tails x j) :
    (Links.putAt tails j x).Pairwise (· < ·) := by
  have hbefore : ∀ y ∈ tails.take j, y < x := by
    intro y hy
    obtain ⟨i, hi, hget⟩ := List.mem_take_iff_getElem.1 hy
    exact hj.below i (by omega) y (List.getElem?_eq_some_iff.2 ⟨by omega, hget⟩)
  have hafter : ∀ y ∈ tails.drop (j + 1), x < y := by
    intro y hy
    obtain ⟨i, hi, hget⟩ := List.mem_drop_iff_getElem.1 hy
    have hlen : j < tails.length := by omega
    calc x ≤ tails[j] := hj.above j (Nat.le_refl j) _ (List.getElem?_eq_getElem hlen)
      _ < y := lt_of_pairwise h (i := j) (j := j + 1 + i) (by omega) (List.getElem?_eq_getElem hlen)
        (List.getElem?_eq_some_iff.2 ⟨by omega, by rw [← hget]⟩)
  rw [Links.putAt_eq hj.le]
  refine List.pairwise_append.2 ⟨h.sublist (List.take_sublist _ _), List.pairwise_cons.2
    ⟨hafter, h.sublist (List.drop_sublist _ _)⟩, fun y hy z hz => ?_⟩
  rcases List.mem_cons.1 hz with rfl | hz
  · exact hbefore y hy
  · exact (hbefore y hy).trans (hafter z hz)

/-! ## Dealing -/

/-- A card goes on the first pile whose top is not below it. -/
theorem deal_eq {card : Card} : ∀ {before : Chain} {piles : List Chain} {j : Nat},
    (∀ c ∈ piles.take j, topBelow c card.2 = true) → (∀ c, piles[j]? = some c → topBelow c card.2 = false) →
      j ≤ piles.length →
        deal card before piles = piles.take j ++ (card :: (before :: piles).getD j []) :: piles.drop (j + 1)
  | before, [], 0, _, _, _ => rfl
  | before, c :: piles, 0, _, h, _ => by
    rw [deal, h c rfl]
    rfl
  | before, c :: piles, j + 1, hbelow, h, hj => by
    have hc : topBelow c card.2 = true := hbelow c List.mem_cons_self
    have ih : deal card c piles = _ := deal_eq (j := j) (fun d hd => hbelow d (List.mem_cons_of_mem _ hd)) h
      (Nat.le_of_succ_le_succ hj)
    rw [deal, if_pos hc, ih]
    rfl

/-- The value of the top of a chain. -/
def Chain.value? (c : Chain) : Option Int :=
  c.head?.map Prod.snd

/-- The position of the top of a chain. -/
def Chain.position? (c : Chain) : Option Nat :=
  c.head?.map Prod.fst

theorem topBelow_eq {c : Chain} {y : Int} (h : c.value? = some y) : topBelow c x = decide (y < x) := by
  cases c with
  | nil => cases h
  | cons card c =>
    obtain rfl : card.2 = y := Option.some.inj h
    rfl

namespace Links

/-- Every card of a chain is linked to the one below it. -/
def Linked (prev : List (Option Nat)) : Chain → Prop
  | [] => True
  | card :: c => prev[card.1]? = some (Chain.position? c) ∧ Linked prev c

/-- Links of other positions do not matter. -/
theorem Linked.set {prev : List (Option Nat)} {i : Nat} (link : Option Nat) : ∀ {c : Chain}, Linked prev c →
    (∀ k ∈ c, k.1 < i) → Linked (prev.set i link) c
  | [], _, _ => trivial
  | card :: c, h, hc => by
    have hne : i ≠ card.1 := (hc card List.mem_cons_self).ne'
    exact ⟨by rw [List.getElem?_set_ne hne, h.1], h.2.set link fun k hk => hc k (List.mem_cons_of_mem _ hk)⟩

/-- The tables of the piles of the cards up to a position. -/
structure Shows (t : Links) (piles : List Chain) (i : Nat) : Prop where
  /-- The values on top are known. -/
  values : piles.map Chain.value? = t.tails.map some
  /-- So are their positions. -/
  positions : piles.map Chain.position? = t.tops.map some
  /-- The values on top increase. -/
  increasing : t.tails.Pairwise (· < ·)
  /-- The links lead down the piles. -/
  linked : ∀ c ∈ piles, Linked t.prev c
  /-- The cards come from positions before. -/
  before : ∀ c ∈ piles, ∀ k ∈ c, k.1 < i

namespace Shows

variable {t : Links} {piles : List Chain} {i : Nat} (h : t.Shows piles i)
include h

theorem length_tails : t.tails.length = piles.length := by
  simpa using (congrArg List.length h.values).symm

theorem length_tops : t.tops.length = piles.length := by
  simpa using (congrArg List.length h.positions).symm

theorem value?_eq {c : Chain} {j : Nat} (hc : piles[j]? = some c) : c.value? = t.tails[j]? := by
  have hget := congrArg (·[j]?) h.values
  simp only [List.getElem?_map, hc, Option.map_some] at hget
  cases hy : t.tails[j]? with
  | none => simp [hy] at hget
  | some y => simpa [hy] using hget

theorem position?_eq {c : Chain} {j : Nat} (hc : piles[j]? = some c) : c.position? = t.tops[j]? := by
  have hget := congrArg (·[j]?) h.positions
  simp only [List.getElem?_map, hc, Option.map_some] at hget
  cases hy : t.tops[j]? with
  | none => simp [hy] at hget
  | some y => simpa [hy] using hget

/-- The place that is found is the number of the pile that the card goes on. -/
theorem deal_eq (x : Int) : Increasing.deal (i, x) [] piles = piles.take (place t.tails x) ++
    ((i, x) :: ([] :: piles).getD (place t.tails x) []) :: piles.drop (place t.tails x + 1) := by
  have hplace := isPlace_place h.increasing x
  refine Increasing.deal_eq (fun c hc => ?_) (fun c hc => ?_) (h.length_tails ▸ hplace.le)
  · obtain ⟨j, hj, hget⟩ := List.mem_take_iff_getElem.1 hc
    have hc : piles[j]? = some c := List.getElem?_eq_some_iff.2 ⟨by omega, hget⟩
    obtain ⟨y, hy⟩ : ∃ y, t.tails[j]? = some y := ⟨_, List.getElem?_eq_getElem (by rw [h.length_tails]; omega)⟩
    rw [topBelow_eq ((h.value?_eq hc).trans hy)]
    exact decide_eq_true (hplace.below j (by omega) y hy)
  · obtain ⟨hlt, -⟩ := List.getElem?_eq_some_iff.1 hc
    obtain ⟨y, hy⟩ : ∃ y, t.tails[place t.tails x]? = some y :=
      ⟨_, List.getElem?_eq_getElem (by rw [h.length_tails]; omega)⟩
    rw [topBelow_eq ((h.value?_eq hc).trans hy)]
    exact decide_eq_false (Int.not_lt.2 (hplace.above _ (Nat.le_refl _) y hy))

/-- The new card is linked to the top of the pile before its own. -/
theorem link_eq (x : Int) : (if place t.tails x = 0 then none
    else (putAt t.tops (place t.tails x) i)[place t.tails x - 1]?) =
      Chain.position? (([] :: piles).getD (place t.tails x) []) := by
  have hle : place t.tails x ≤ t.tops.length := by
    rw [h.length_tops, ← h.length_tails]
    exact (isPlace_place h.increasing x).le
  cases hj : place t.tails x with
  | zero => rfl
  | succ j =>
    have hlt : j < piles.length := by rw [← h.length_tops]; omega
    have hpile : piles[j]? = some piles[j] := List.getElem?_eq_getElem hlt
    rw [if_neg (Nat.succ_ne_zero j), putAt_eq (hj ▸ hle), Nat.add_sub_cancel,
      List.getElem?_append_left (by rw [List.length_take]; omega), List.getElem?_take_of_lt (Nat.lt_succ_self j),
      ← h.position?_eq hpile, List.getD_cons_succ, List.getD_eq_getElem?_getD, hpile, Option.getD_some]

/-- Dealing a card keeps the tables right. -/
theorem deal (hi : i < t.prev.length) (x : Int) : (t.deal i x).Shows (Increasing.deal (i, x) [] piles) (i + 1) := by
  have hplace := isPlace_place h.increasing x
  have hle : place t.tails x ≤ t.tails.length := hplace.le
  have hle' : place t.tails x ≤ t.tops.length := by rwa [h.length_tops, ← h.length_tails]
  have hold : ∀ c ∈ Increasing.deal (i, x) [] piles, c ∈ piles ∨
      c = (i, x) :: ([] :: piles).getD (place t.tails x) [] := by
    intro c hc
    rw [h.deal_eq x, List.mem_append, List.mem_cons] at hc
    rcases hc with hc | rfl | hc
    · exact .inl (List.mem_of_mem_take hc)
    · exact .inr rfl
    · exact .inl (List.mem_of_mem_drop hc)
  -- below the new card is a pile, or nothing
  have hbelow : ([] :: piles).getD (place t.tails x) [] = [] ∨ ([] :: piles).getD (place t.tails x) [] ∈ piles := by
    cases hj : place t.tails x with
    | zero => exact .inl rfl
    | succ j =>
      have hlt : j < piles.length := by rw [← h.length_tails]; omega
      rw [List.getD_cons_succ, List.getD_eq_getElem?_getD, List.getElem?_eq_getElem hlt, Option.getD_some]
      exact .inr (List.getElem_mem hlt)
  have hbefore : ∀ k ∈ ([] :: piles).getD (place t.tails x) [], k.1 < i := by
    rcases hbelow with hnil | hmem
    · rw [hnil]
      exact fun k hk => by cases hk
    · exact h.before _ hmem
  refine ⟨?_, ?_, hplace.pairwise_putAt h.increasing, fun c hc => ?_, fun c hc k hk => ?_⟩
  · show _ = (putAt t.tails (place t.tails x) x).map some
    rw [h.deal_eq x, putAt_eq hle, List.map_append, List.map_cons, List.map_take, List.map_drop, h.values,
      List.map_append, List.map_cons, List.map_take, List.map_drop]
    rfl
  · show _ = (putAt t.tops (place t.tails x) i).map some
    rw [h.deal_eq x, putAt_eq hle', List.map_append, List.map_cons, List.map_take, List.map_drop, h.positions,
      List.map_append, List.map_cons, List.map_take, List.map_drop]
    rfl
  · show Linked (t.prev.set i _) c
    rcases hold c hc with hc | rfl
    · exact (h.linked c hc).set _ (h.before c hc)
    · refine ⟨?_, ?_⟩
      · rw [h.link_eq x]
        exact List.getElem?_set_self hi
      · rcases hbelow with hnil | hmem
        · rw [hnil]
          trivial
        · exact (h.linked _ hmem).set _ (h.before _ hmem)
  · rcases hold c hc with hc | rfl
    · exact Nat.lt_succ_of_lt (h.before c hc k hk)
    · rcases List.mem_cons.1 hk with rfl | hk
      · exact Nat.lt_succ_self i
      · exact Nat.lt_succ_of_lt (hbefore k hk)

end Shows

theorem length_prev_deal (t : Links) (i : Nat) (x : Int) : (t.deal i x).prev.length = t.prev.length :=
  List.length_set

/-- The tables are right from one element to the next. -/
theorem Shows.foldl (xs : List Int) {t : Links} {piles : List Chain} {i : Nat} (h : t.Shows piles i)
    (hlen : i + xs.length ≤ t.prev.length) :
    ((xs.zipIdx i).foldl (fun t p => t.deal p.2 p.1) t).Shows
      (((xs.zipIdx i).map fun p => (p.2, p.1)).foldl (fun ps card => Increasing.deal card [] ps) piles)
        (i + xs.length) := by
  induction xs generalizing t piles i with
  | nil => exact h
  | cons x xs ih =>
    rw [List.length_cons] at hlen ⊢
    have hnext := ih (h.deal (by omega) x) (by rw [length_prev_deal]; omega)
    rw [Nat.add_right_comm, Nat.add_assoc] at hnext
    exact hnext

/-- The tables when all elements have been dealt. -/
theorem shows_of (xs : List Int) : (of xs).Shows (piles (xs.zipIdx.map fun p => (p.2, p.1))) xs.length := by
  have hstart : (⟨[], [], List.replicate xs.length none⟩ : Links).Shows [] 0 :=
    ⟨rfl, rfl, .nil, fun _ hc => absurd hc List.not_mem_nil, fun _ hc => absurd hc List.not_mem_nil⟩
  have hall := hstart.foldl xs (by simp)
  rwa [Nat.zero_add] at hall

/-! ## The way back -/

/-- Below a card the way back leads down its chain. -/
theorem wayBack?_eq (t : Links) : ∀ {c : Chain} {steps : Nat}, Linked t.prev c → c.length ≤ steps →
    t.wayBack? steps (Chain.position? c) = some (c.map Prod.fst)
  | [], _, _, _ => by
    rw [Chain.position?, List.head?_nil, Option.map_none, wayBack?]
    rfl
  | card :: c, steps + 1, h, hsteps => by
    have ih := t.wayBack?_eq h.2 (Nat.le_of_succ_le_succ hsteps)
    rw [Chain.position?, List.head?_cons, Option.map_some, wayBack?, h.1]
    simp [ih]

/-- The way back from the last top ends, and the selection is what it leads along. -/
theorem selection?_of {xs : List Int} {steps : Nat} (h : xs.length ≤ steps) :
    (of xs).selection? steps = some (longest xs).reverse := by
  have hshows := shows_of xs
  have hlen := (longest_sublist_range xs).length_le
  have htop : (of xs).tops.getLast? =
      Chain.position? ((piles (xs.zipIdx.map fun p => (p.2, p.1))).getLastD []) := by
    have hlast := congrArg List.getLast? hshows.positions
    rw [List.getLast?_map, List.getLast?_map] at hlast
    rw [List.getLastD_eq_getLast?]
    cases hp : (piles (xs.zipIdx.map fun p => (p.2, p.1))).getLast? <;> cases ht : (of xs).tops.getLast? <;>
      simp_all [Chain.position?]
  have hlinked : Linked (of xs).prev ((piles (xs.zipIdx.map fun p => (p.2, p.1))).getLastD []) := by
    rw [List.getLastD_eq_getLast?]
    cases hp : (piles (xs.zipIdx.map fun p => (p.2, p.1))).getLast? with
    | none => trivial
    | some c => exact hshows.linked c (List.mem_of_getLast? hp)
  rw [longest, List.length_reverse, List.length_map, List.length_range] at hlen
  rw [selection?, htop, wayBack?_eq _ hlinked (hlen.trans h), longest, List.reverse_reverse]

end Links

/-- Positions of a list at which the values increase, as many as possible. -/
structure LongestSelection (xs : List Int) (positions : List Nat) : Prop where
  /-- The positions ascend, so none is selected twice. -/
  ascending : positions.Pairwise (· < ·)
  /-- They are positions of the list. -/
  valid : ∀ i ∈ positions, i < xs.length
  /-- The values there increase. -/
  increasing : ∀ i ∈ positions, ∀ j ∈ positions, i < j → ∀ x y, xs[i]? = some x → xs[j]? = some y → x < y
  /-- No increasing selection is longer. -/
  longest : ∀ s : List Int, s.Sublist xs → s.Pairwise (· < ·) → s.length ≤ positions.length

/-- Of any list a longest increasing selection is selected, and reading it from links, from the last top back, ends
with it. -/
theorem longest_selected (xs : List Int) : LongestSelection xs (longest xs) ∧
    ∀ steps, xs.length ≤ steps → (Links.of xs).selection? steps = some (longest xs).reverse := by
  refine ⟨⟨(pairwise_longest xs).imp And.left, fun i hi => lt_length_of_mem_longest hi, ?_, ?_⟩, fun steps h => ?_⟩
  · intro i hi j hj hij x y hx hy
    exact lt_of_mem_longest hi hj hij hx hy
  · intro s hs hinc
    exact length_le_length_longest hs hinc
  · exact Links.selection?_of h

/-- The second two and the one overwrite tops that are on no way back from the last one. -/
example : longest [3, 5, 2, 6, 2, 1] = [0, 1, 3] ∧
    Links.of [3, 5, 2, 6, 2, 1] = ⟨[1, 5, 6], [5, 1, 3], [none, some 0, none, some 1, none, none]⟩ := by
  decide +kernel

end HintQuality.Increasing
