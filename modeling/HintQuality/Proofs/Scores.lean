import HintQuality.Proofs.ExactWeights
import HintQuality.Rating.Score
import Mathlib.Algebra.BigOperators.Ring.List
import Mathlib.Data.List.Forall2
import Mathlib.Tactic.NormNum
/-!
# Proper scores

With exact weights every score is a fraction of the total weight to which each rating adds by itself: a share adds the
weight of the ratings that count for it (`RequestRating.credit`), the points add up to three times the weight of a
rating (`RequestRating.earned`). So scores keep their bounds and their order, and means over requests keep them too
(`scores_proper`). More weight that earns nothing lowers all scores, and more weight that earns all it can raises them.
-/

namespace HintQuality

variable {ω ω' : Type}

/-! ## Other weights -/

/-- An outcome with another weight. -/
def Outcome.withWeight (o : Outcome ω) (w : ω') : Outcome ω' :=
  { result := o.result
    assignmentId := o.assignmentId
    requestId := o.requestId
    weight := w
    id := o.id
    properties := o.properties }

/-- The same verdict on an outcome with another weight. -/
abbrev Rating.withWeight (x : Rating ω) (w : ω') : Rating ω' :=
  { outcome := x.outcome.withWeight w, candidate := x.candidate, matchType := x.matchType }

/-- The same verdicts, with each outcome weighing what `w` says for its rating. -/
def RequestRating.weighed (r : RequestRating ω) (w : Rating ω → ω') : RequestRating ω' :=
  { requestId := r.requestId
    assignmentId := r.assignmentId
    requestTree := r.requestTree
    policy := r.policy
    ratings := r.ratings.map fun x => x.withWeight (w x) }

/-- The same verdicts, with each outcome weighing what `w` says for its rating. -/
def RatingSet.weighed (s : RatingSet ω) (w : Rating ω → ω') : RatingSet ω' :=
  { name := s.name, requests := s.requests.map fun r => r.weighed w }

/-! ## What a rating adds to a score -/

theorem Validity.isAtLeast_iff {v w : Validity} : v.isAtLeast w = true ↔ w.toNat ≤ v.toNat :=
  decide_eq_true_iff

theorem MatchType.isAtLeast_iff {m n : MatchType} : m.isAtLeast n = true ↔ n.toNat ≤ m.toNat :=
  decide_eq_true_iff

namespace RequestRating

/-- The weight that a rating adds to a share. -/
def credit (m : MatchType) (v : Validity) (x : Rating ℚ) : ℚ :=
  if counts m v x then x.outcome.weight else 0

/-- The points that a rating adds to the score. -/
def earned (countPartial : Bool) (x : Rating ℚ) : ℚ :=
  (points? countPartial x).getD 0

/-- No outcome has a negative weight. -/
def NonNegative (r : RequestRating ℚ) : Prop :=
  ∀ x ∈ r.ratings, 0 ≤ x.outcome.weight

theorem counts_iff {m : MatchType} {v : Validity} {x : Rating ω} : counts m v x = true ↔
    m.toNat ≤ x.matchType.toNat ∧ v.toNat ≤ x.validity.toNat ∧ x.isTooSoon = false := by
  simp [counts, MatchType.isAtLeast_iff, Validity.isAtLeast_iff, and_assoc]

section Sums

variable (r : RequestRating ℚ)

theorem totalWeight_eq : r.totalWeight = (r.ratings.map fun x => x.outcome.weight).sum :=
  Weight.sum_eq _

theorem validityWeight_eq (m : MatchType) (v : Validity) :
    r.validityWeight m v = (r.ratings.map (credit m v)).sum := by
  have hsplit := List.sum_map_ite (fun x => counts m v x = true) (fun x : Rating ℚ => x.outcome.weight) (fun _ => 0)
    r.ratings
  simp only [Bool.decide_eq_true, List.map_const', List.sum_replicate, nsmul_zero, add_zero] at hsplit
  rw [validityWeight, Weight.sum_eq]
  exact hsplit.symm

theorem validityShare_eq (m : MatchType) (v : Validity) :
    r.validityShare m v = (r.ratings.map (credit m v)).sum / r.totalWeight := by
  rw [validityShare, Weight.share_eq, validityWeight_eq]

theorem sum_points (countPartial : Bool) (xs : List (Rating ℚ)) :
    Weight.sum (xs.filterMap (points? countPartial)) = (xs.map (earned countPartial)).sum := by
  rw [Weight.sum_eq]
  induction xs with
  | nil => rfl
  | cons x xs ih =>
    rw [List.map_cons, List.sum_cons, earned, ← ih, List.filterMap_cons]
    cases points? countPartial x with
    | none => rw [Option.getD_none, zero_add]
    | some p => rw [Option.getD_some, List.sum_cons]

theorem priorityScore_eq (countPartial : Bool) :
    r.priorityScore countPartial = (r.ratings.map (earned countPartial)).sum / r.totalWeight := by
  rw [priorityScore, Weight.share_eq, sum_points]

end Sums

section Single

variable {x : Rating ℚ} (hx : 0 ≤ x.outcome.weight) {m m' : MatchType} {v v' : Validity} {countPartial : Bool}

theorem earned_of_priority {p : Priority} (hp : x.priority = some p) : earned countPartial x =
    if countPartial || x.matchType = .fullMatch then x.outcome.weight * p.points else 0 := by
  rw [earned, points?, hp]
  dsimp only
  split <;> rfl

theorem earned_of_no_priority (hp : x.priority = none) : earned countPartial x = 0 := by
  rw [earned, points?, hp]
  rfl

include hx

theorem credit_nonneg : 0 ≤ credit m v x := by
  rw [credit]
  split
  · exact hx
  · exact le_rfl

theorem credit_le : credit m v x ≤ x.outcome.weight := by
  rw [credit]
  split
  · exact le_rfl
  · exact hx

theorem credit_mono (hm : m'.toNat ≤ m.toNat) (hv : v'.toNat ≤ v.toNat) : credit m v x ≤ credit m' v' x := by
  by_cases h : counts m v x = true
  · have h' : counts m' v' x = true := by
      rw [counts_iff] at h ⊢
      exact ⟨hm.trans h.1, hv.trans h.2.1, h.2.2⟩
    rw [credit, credit, if_pos h, if_pos h']
  · rw [credit, if_neg h]
    exact credit_nonneg hx

theorem earned_nonneg : 0 ≤ earned countPartial x := by
  cases hp : x.priority with
  | none => exact (earned_of_no_priority hp).ge
  | some p =>
    rw [earned_of_priority hp]
    split
    · exact mul_nonneg hx (Nat.cast_nonneg _)
    · exact le_rfl

theorem earned_le : earned countPartial x ≤ 3 * x.outcome.weight := by
  cases hp : x.priority with
  | none =>
    rw [earned_of_no_priority hp]
    linarith
  | some p =>
    rw [earned_of_priority hp]
    split
    · have hpoints : (p.points : ℚ) ≤ 3 := by
        cases p <;> norm_num [Priority.points]
      rw [mul_comm]
      exact mul_le_mul_of_nonneg_right hpoints hx
    · linarith

theorem earned_false_le_true : earned false x ≤ earned true x := by
  cases hp : x.priority with
  | none => rw [earned_of_no_priority hp, earned_of_no_priority hp]
  | some p =>
    rw [earned_of_priority hp, earned_of_priority hp]
    split
    · exact le_rfl
    · exact mul_nonneg hx (Nat.cast_nonneg _)

end Single

/-! ## Bounds and order -/

section Bounds

variable {r : RequestRating ℚ} (h : r.NonNegative)
include h

theorem totalWeight_nonneg : 0 ≤ r.totalWeight := by
  rw [totalWeight_eq]
  refine List.sum_nonneg fun w hw => ?_
  obtain ⟨x, hx, rfl⟩ := List.mem_map.1 hw
  exact h x hx

theorem sum_credit_nonneg (m : MatchType) (v : Validity) : 0 ≤ (r.ratings.map (credit m v)).sum := by
  refine List.sum_nonneg fun w hw => ?_
  obtain ⟨x, hx, rfl⟩ := List.mem_map.1 hw
  exact credit_nonneg (h x hx)

theorem sum_credit_le (m : MatchType) (v : Validity) : (r.ratings.map (credit m v)).sum ≤ r.totalWeight := by
  rw [totalWeight_eq]
  exact List.sum_le_sum fun x hx => credit_le (h x hx)

theorem sum_earned_nonneg (countPartial : Bool) : 0 ≤ (r.ratings.map (earned countPartial)).sum := by
  refine List.sum_nonneg fun w hw => ?_
  obtain ⟨x, hx, rfl⟩ := List.mem_map.1 hw
  exact earned_nonneg (h x hx)

theorem sum_earned_le (countPartial : Bool) : (r.ratings.map (earned countPartial)).sum ≤ 3 * r.totalWeight := by
  rw [totalWeight_eq, ← List.sum_map_mul_left]
  exact List.sum_le_sum fun x hx => earned_le (h x hx)

theorem validityShare_nonneg (m : MatchType) (v : Validity) : 0 ≤ r.validityShare m v := by
  rw [validityShare_eq]
  exact div_nonneg (sum_credit_nonneg h m v) (totalWeight_nonneg h)

theorem validityShare_le_one (m : MatchType) (v : Validity) : r.validityShare m v ≤ 1 := by
  rw [validityShare_eq]
  exact div_le_one_of_le₀ (sum_credit_le h m v) (totalWeight_nonneg h)

/-- Asking for less counts more. -/
theorem validityShare_mono {m m' : MatchType} {v v' : Validity} (hm : m'.toNat ≤ m.toNat) (hv : v'.toNat ≤ v.toNat) :
    r.validityShare m v ≤ r.validityShare m' v' := by
  rw [validityShare_eq, validityShare_eq]
  exact div_le_div_of_nonneg_right (List.sum_le_sum fun x hx => credit_mono (h x hx) hm hv) (totalWeight_nonneg h)

theorem priorityScore_nonneg (countPartial : Bool) : 0 ≤ r.priorityScore countPartial := by
  rw [priorityScore_eq]
  exact div_nonneg (sum_earned_nonneg h countPartial) (totalWeight_nonneg h)

theorem priorityScore_le (countPartial : Bool) : r.priorityScore countPartial ≤ 3 := by
  rw [priorityScore_eq]
  exact div_le_of_le_mul₀ (totalWeight_nonneg h) (by norm_num) (sum_earned_le h countPartial)

theorem priorityScore_false_le_true : r.priorityScore false ≤ r.priorityScore true := by
  rw [priorityScore_eq, priorityScore_eq]
  exact div_le_div_of_nonneg_right (List.sum_le_sum fun x hx => earned_false_le_true (h x hx)) (totalWeight_nonneg h)

end Bounds

end RequestRating

/-- A table of shares by validity and closeness of match, and points without and with partial matches, as they should
be. -/
structure ProperScores (table : List (List ℚ)) (full all : ℚ) : Prop where
  /-- There is a row for each validity and a share for each closeness of match. -/
  size : table.map List.length = Validity.scored.map fun _ => MatchType.scored.length
  /-- Shares are parts of a whole. -/
  shares : ∀ row ∈ table, ∀ x ∈ row, 0 ≤ x ∧ x ≤ 1
  /-- Asking for more tutors counts no more. -/
  validities : table.Pairwise (List.Forall₂ (· ≥ ·))
  /-- Partial matches add to the full ones. -/
  matchTypes : ∀ row ∈ table, row.Pairwise (· ≤ ·)
  /-- Points are not negative. -/
  nonneg : 0 ≤ full
  /-- Partial matches add to the full ones. -/
  full_le : full ≤ all
  /-- No hint is worth more than three points. -/
  all_le : all ≤ 3

theorem properScores_of (share : MatchType → Validity → ℚ) (score : Bool → ℚ)
    (hshare : ∀ m v, 0 ≤ share m v ∧ share m v ≤ 1)
    (hmono : ∀ m m' v v', m'.toNat ≤ m.toNat → v'.toNat ≤ v.toNat → share m v ≤ share m' v')
    (hnonneg : 0 ≤ score false) (hle : score false ≤ score true) (hthree : score true ≤ 3) :
    ProperScores (Validity.scored.map fun v => MatchType.scored.map fun m => share m v) (score false) (score true) := by
  refine ⟨rfl, fun row hrow x hx => ?_, ?_, fun row hrow => ?_, hnonneg, hle, hthree⟩
  · obtain ⟨v, -, rfl⟩ := List.mem_map.1 hrow
    obtain ⟨m, -, rfl⟩ := List.mem_map.1 hx
    exact hshare m v
  · have hscored : Validity.scored.Pairwise fun v w => v.toNat ≤ w.toNat := by decide
    refine List.pairwise_map.2 (hscored.imp fun {v w} hvw => ?_)
    exact List.forall₂_map_left_iff.2 (List.forall₂_map_right_iff.2
      (List.forall₂_same.2 fun m _ => hmono m m w v le_rfl hvw))
  · obtain ⟨v, -, rfl⟩ := List.mem_map.1 hrow
    have hscored : MatchType.scored.Pairwise fun m n => n.toNat ≤ m.toNat := by decide
    exact List.pairwise_map.2 (hscored.imp fun {m n} hmn => hmono m n v v hmn le_rfl)

namespace RequestRating

theorem properScores {r : RequestRating ℚ} (h : r.NonNegative) :
    ProperScores r.validityTable (r.priorityScore false) (r.priorityScore true) :=
  properScores_of _ r.priorityScore (fun m v => ⟨validityShare_nonneg h m v, validityShare_le_one h m v⟩)
    (fun _ _ _ _ hm hv => validityShare_mono h hm hv) (priorityScore_nonneg h false) (priorityScore_false_le_true h)
    (priorityScore_le h true)

end RequestRating

namespace RatingSet

open RequestRating

theorem priorityMean_eq (s : RatingSet ℚ) (countPartial : Bool) (assignmentId : String) :
    s.priorityMean countPartial assignmentId =
      Weight.mean ((s.forAssignment assignmentId).map fun r => r.priorityScore countPartial) :=
  Weight.arrayMean_eq_mean _

/-- Means of proper scores are proper. -/
theorem properScores {s : RatingSet ℚ} (h : ∀ r ∈ s.requests, r.NonNegative) (assignmentId : String) :
    ProperScores (s.validityMeans assignmentId) (s.priorityMean false assignmentId)
      (s.priorityMean true assignmentId) := by
  have hr : ∀ r ∈ s.forAssignment assignmentId, r.NonNegative := fun r hr => h r (List.mem_filter.1 hr).1
  rw [priorityMean_eq, priorityMean_eq]
  refine properScores_of
    (fun m v => Weight.mean ((s.forAssignment assignmentId).map fun r => r.validityShare m v))
    (fun countPartial => Weight.mean ((s.forAssignment assignmentId).map fun r => r.priorityScore countPartial))
    (fun m v => ⟨?_, ?_⟩) (fun m m' v v' hm hv => ?_) ?_ ?_ ?_
  · exact Weight.mean_nonneg fun r hmem => validityShare_nonneg (hr r hmem) m v
  · exact Weight.mean_le zero_le_one fun r hmem => validityShare_le_one (hr r hmem) m v
  · exact Weight.mean_mono fun r hmem => validityShare_mono (hr r hmem) hm hv
  · exact Weight.mean_nonneg fun r hmem => priorityScore_nonneg (hr r hmem) false
  · exact Weight.mean_mono fun r hmem => priorityScore_false_le_true (hr r hmem)
  · exact Weight.mean_le (by norm_num) fun r hmem => priorityScore_le (hr r hmem) true

end RatingSet

/-! ## Nothing is divided by zero -/

section Checked

open Weight.Checked

namespace RequestRating

/-- The same ratings in an arithmetic that notices division by zero. -/
def checked (r : RequestRating ℚ) : RequestRating Weight.Checked :=
  r.weighed fun x => of x.outcome.weight

variable (r : RequestRating ℚ)

theorem totalWeight_checked : r.checked.totalWeight = of r.totalWeight := by
  rw [totalWeight, totalWeight, ← Weight.sum_checked, checked, weighed, List.map_map, List.map_map]
  rfl

theorem validityWeight_checked (m : MatchType) (v : Validity) :
    r.checked.validityWeight m v = of (r.validityWeight m v) := by
  rw [validityWeight, validityWeight, ← Weight.sum_checked, checked, weighed, List.filter_map, List.map_map,
    List.map_map]
  rfl

theorem validityShare_checked (m : MatchType) (v : Validity) :
    r.checked.validityShare m v = of (r.validityShare m v) := by
  rw [validityShare, validityWeight_checked, totalWeight_checked, Weight.share_checked, validityShare]

theorem points?_checked (countPartial : Bool) (x : Rating ℚ) :
    points? countPartial (x.withWeight (of x.outcome.weight)) = (points? countPartial x).map of := by
  have hsame : (x.withWeight (of x.outcome.weight)).priority = x.priority := rfl
  rw [points?, points?, hsame]
  cases x.priority with
  | none => rfl
  | some p =>
    dsimp only
    split
    · exact congrArg some (of_mul _ _)
    · rfl

theorem priorityScore_checked (countPartial : Bool) :
    r.checked.priorityScore countPartial = of (r.priorityScore countPartial) := by
  have hpoints : r.checked.ratings.filterMap (points? countPartial) =
      (r.ratings.filterMap (points? countPartial)).map of := by
    rw [checked, weighed, List.filterMap_map, List.map_filterMap]
    refine List.filterMap_congr fun x _ => ?_
    exact points?_checked countPartial x
  rw [priorityScore, hpoints, Weight.sum_checked, totalWeight_checked, Weight.share_checked, priorityScore]

end RequestRating

namespace RatingSet

/-- The same ratings in an arithmetic that notices division by zero. -/
def checked (s : RatingSet ℚ) : RatingSet Weight.Checked :=
  s.weighed fun x => of x.outcome.weight

theorem forAssignment_checked (s : RatingSet ℚ) (assignmentId : String) :
    s.checked.forAssignment assignmentId = (s.forAssignment assignmentId).map RequestRating.checked :=
  List.filter_map

/-- Scores of the requests of an assignment are defined together. -/
theorem map_checked (s : RatingSet ℚ) (assignmentId : String) {f : RequestRating ℚ → ℚ}
    {f' : RequestRating Weight.Checked → Weight.Checked} (h : ∀ r, f' (RequestRating.checked r) = of (f r)) :
    (s.checked.forAssignment assignmentId).map f' = ((s.forAssignment assignmentId).map f).map of := by
  rw [forAssignment_checked, List.map_map, List.map_map]
  exact List.map_congr_left fun r _ => h r

end RatingSet

end Checked

/-! ## One more rating -/

namespace RequestRating

/-- No score of the first request is higher than that of the second one. -/
structure ScoresNoHigher (r r' : RequestRating ℚ) : Prop where
  /-- No share is higher. -/
  shares : List.Forall₂ (List.Forall₂ (· ≤ ·)) r.validityTable r'.validityTable
  /-- No points are higher. -/
  points : ∀ countPartial, r.priorityScore countPartial ≤ r'.priorityScore countPartial

theorem scoresNoHigher_of {r r' : RequestRating ℚ}
    (hshare : ∀ m ∈ MatchType.scored, ∀ v ∈ Validity.scored, r.validityShare m v ≤ r'.validityShare m v)
    (hscore : ∀ countPartial, r.priorityScore countPartial ≤ r'.priorityScore countPartial) :
    r.ScoresNoHigher r' := by
  refine ⟨?_, hscore⟩
  rw [validityTable, validityTable, List.forall₂_map_left_iff, List.forall₂_map_right_iff, List.forall₂_same]
  intro v hv
  rw [List.forall₂_map_left_iff, List.forall₂_map_right_iff, List.forall₂_same]
  exact fun m hm => hshare m hm v hv

section Add

variable {r r' : RequestRating ℚ} {x : Rating ℚ} (hperm : r'.ratings.Perm (x :: r.ratings))
include hperm

theorem sum_of_perm (f : Rating ℚ → ℚ) : (r'.ratings.map f).sum = f x + (r.ratings.map f).sum := by
  rw [(hperm.map f).sum_eq, List.map_cons, List.sum_cons]

variable (h : r.NonNegative) (hx : 0 ≤ x.outcome.weight)
include h hx

/-- A rating that earns nothing lowers the scores. -/
theorem scoresNoHigher_of_worthless (hcredit : ∀ m, ∀ v ∈ Validity.scored, credit m v x = 0)
    (hearned : ∀ countPartial, earned countPartial x = 0) : r'.ScoresNoHigher r := by
  refine scoresNoHigher_of (fun m _ v hv => ?_) fun countPartial => ?_
  · rw [validityShare_eq, validityShare_eq, totalWeight_eq r', sum_of_perm hperm, sum_of_perm hperm, hcredit m v hv,
      zero_add, ← totalWeight_eq]
    exact Weight.div_add_le (c := 1) (totalWeight_nonneg h) (by rw [one_mul]; exact sum_credit_le h m v)
      (sum_credit_nonneg h m v) hx
  · rw [priorityScore_eq, priorityScore_eq, totalWeight_eq r', sum_of_perm hperm, sum_of_perm hperm,
      hearned countPartial, zero_add, ← totalWeight_eq]
    exact Weight.div_add_le (totalWeight_nonneg h) (sum_earned_le h countPartial) (sum_earned_nonneg h countPartial) hx

/-- A rating that earns all it can raises the scores. -/
theorem scoresNoHigher_of_perfect (hcredit : ∀ m v, credit m v x = x.outcome.weight)
    (hearned : ∀ countPartial, earned countPartial x = 3 * x.outcome.weight) : r.ScoresNoHigher r' := by
  refine scoresNoHigher_of (fun m _ v _ => ?_) fun countPartial => ?_
  · have hle := Weight.le_div_add (c := 1) (totalWeight_nonneg h) (by rw [one_mul]; exact sum_credit_le h m v)
      zero_le_one (sum_credit_nonneg h m v) hx
    rw [one_mul] at hle
    rwa [validityShare_eq, validityShare_eq, totalWeight_eq r', sum_of_perm hperm, sum_of_perm hperm, hcredit m v,
      ← totalWeight_eq]
  · rw [priorityScore_eq, priorityScore_eq, totalWeight_eq r', sum_of_perm hperm, sum_of_perm hperm,
      hearned countPartial, ← totalWeight_eq]
    exact Weight.le_div_add (totalWeight_nonneg h) (sum_earned_le h countPartial) (by norm_num)
      (sum_earned_nonneg h countPartial) hx

end Add

section Extremes

variable {x : Rating ℚ}

/-- An unmatched outcome and one that matches a hint that comes too soon count for nothing. -/
theorem credit_of_worthless (hworthless : x.hint? = none ∨ x.isTooSoon = true) (m : MatchType) {v : Validity}
    (hv : v ∈ Validity.scored) : credit m v x = 0 := by
  have hpos : ∀ v ∈ Validity.scored, 0 < v.toNat := by decide
  refine if_neg fun hcounts => ?_
  obtain ⟨-, hvalidity, hsoon⟩ := counts_iff.1 hcounts
  rcases hworthless with hnone | hsoon'
  · rw [Rating.validity, hnone] at hvalidity
    exact absurd hvalidity (Nat.not_le.2 (hpos v hv))
  · rw [hsoon'] at hsoon
    cases hsoon

theorem earned_of_worthless (hworthless : x.hint? = none ∨ x.isTooSoon = true) (countPartial : Bool) :
    earned countPartial x = 0 := by
  rcases hworthless with hnone | hsoon
  · exact earned_of_no_priority (by rw [Rating.priority, hnone]; rfl)
  · have hp : x.priority = some .tooSoon := by
      rw [Rating.isTooSoon] at hsoon
      rw [Rating.priority]
      cases hh : x.hint? with
      | none => simp [hh] at hsoon
      | some g => simpa [hh, TutorHint.isTooSoon] using hsoon
    rw [earned_of_priority hp]
    split
    · exact mul_zero _
    · rfl

variable (hfull : x.matchType = .fullMatch) (hvalidity : x.validity = .consensus)
  (hpriority : x.priority = some .highest)

include hfull hvalidity hpriority in
/-- A full match with a hint that all tutors agree on and find most urgent counts for everything. -/
theorem credit_of_perfect (m : MatchType) (v : Validity) : credit m v x = x.outcome.weight := by
  refine if_pos (counts_iff.2 ⟨?_, ?_, ?_⟩)
  · rw [hfull]
    cases m <;> decide
  · rw [hvalidity]
    cases v <;> decide
  · rw [Rating.isTooSoon]
    rw [Rating.priority] at hpriority
    cases hh : x.hint? with
    | none => rfl
    | some g =>
      rw [hh, Option.bind_some] at hpriority
      simp [TutorHint.isTooSoon, hpriority]

include hfull hpriority in
theorem earned_of_perfect (countPartial : Bool) : earned countPartial x = 3 * x.outcome.weight := by
  rw [earned_of_priority hpriority, hfull, decide_eq_true rfl, Bool.or_true, if_pos rfl, mul_comm]
  rfl

end Extremes

end RequestRating

/-- Scores are proper, and so are their means over requests. They are defined where a division by zero would leave them
undefined. An outcome that is unmatched or matches a hint too soon raises none of them, and an outcome that fully
matches a hint of the highest validity and priority lowers none. -/
theorem scores_proper :
    (∀ r : RequestRating ℚ, r.NonNegative →
      ProperScores r.validityTable (r.priorityScore false) (r.priorityScore true)) ∧
    (∀ s : RatingSet ℚ, (∀ r ∈ s.requests, r.NonNegative) → ∀ assignmentId, ProperScores
      (s.validityMeans assignmentId) (s.priorityMean false assignmentId) (s.priorityMean true assignmentId)) ∧
    (∀ r : RequestRating ℚ, r.checked.validityTable = r.validityTable.map (List.map Weight.Checked.of) ∧
      ∀ countPartial, r.checked.priorityScore countPartial = Weight.Checked.of (r.priorityScore countPartial)) ∧
    (∀ (s : RatingSet ℚ) (assignmentId : String),
      s.checked.validityMeans assignmentId = (s.validityMeans assignmentId).map (List.map Weight.Checked.of) ∧
      ∀ countPartial, s.checked.priorityMean countPartial assignmentId =
        Weight.Checked.of (s.priorityMean countPartial assignmentId)) ∧
    ∀ (r r' : RequestRating ℚ) (x : Rating ℚ), r.NonNegative → 0 ≤ x.outcome.weight →
      r'.ratings.Perm (x :: r.ratings) →
        (x.hint? = none ∨ x.isTooSoon = true → r'.ScoresNoHigher r) ∧
        (x.matchType = .fullMatch → x.validity = .consensus → x.priority = some .highest → r.ScoresNoHigher r') := by
  refine ⟨fun r h => RequestRating.properScores h, fun s h => RatingSet.properScores h, fun r => ⟨?_, ?_⟩,
    fun s assignmentId => ⟨?_, ?_⟩,
    fun r r' x h hx hperm => ⟨fun hworthless => ?_, fun hfull hvalidity hpriority => ?_⟩⟩
  · simp only [RequestRating.validityTable, List.map_map, Function.comp_def, RequestRating.validityShare_checked]
  · exact RequestRating.priorityScore_checked r
  · simp only [RatingSet.validityMeans, List.map_map, Function.comp_def]
    refine List.map_congr_left fun v _ => List.map_congr_left fun m _ => ?_
    rw [s.map_checked assignmentId fun r => r.validityShare_checked m v, Weight.mean_checked]
  · intro countPartial
    rw [RatingSet.priorityMean, s.map_checked assignmentId fun r => r.priorityScore_checked countPartial,
      Weight.arrayMean_checked]
    rfl
  · exact RequestRating.scoresNoHigher_of_worthless hperm h hx
      (fun m v hv => RequestRating.credit_of_worthless hworthless m hv) (RequestRating.earned_of_worthless hworthless)
  · exact RequestRating.scoresNoHigher_of_perfect hperm h hx
      (RequestRating.credit_of_perfect hfull hvalidity hpriority) (RequestRating.earned_of_perfect hfull hpriority)

/-- A full match with a normal hint, a partial one with an urgent hint of one tutor, and two unmatched outcomes, one of
no weight; then one more of each kind. -/
theorem scores_proper_of_three :
    let hint (validity : Validity) (priority : Priority) : Option Candidate :=
      some ⟨0, { hintId := 1, requestId := "r", assignmentId := "a", year := "y", requestTree := none, result := none,
                 validity := validity, priority := some priority }⟩
    let outcome (w : ℚ) : Outcome ℚ :=
      { result := none, assignmentId := "a", requestId := "r", weight := w, id := .int 1 }
    let ratings : List (Rating ℚ) :=
      [{ outcome := outcome 2, candidate := hint .consensus .normal, matchType := .fullMatch },
       { outcome := outcome 1, candidate := hint .oneTutor .highest, matchType := .partialMatch },
       { outcome := outcome 1 }, { outcome := outcome 0 }]
    let r (ratings : List (Rating ℚ)) : RequestRating ℚ :=
      { requestId := "r", assignmentId := "a", requestTree := none, policy := {}, ratings := ratings }
    let soon : Rating ℚ :=
      { outcome := outcome 2, candidate := hint .consensus .tooSoon, matchType := .fullMatch }
    let perfect : Rating ℚ :=
      { outcome := outcome 4, candidate := hint .consensus .highest, matchType := .fullMatch }
    (r ratings).validityTable = [[1 / 2, 3 / 4], [1 / 2, 1 / 2], [1 / 2, 1 / 2]] ∧
      (r ratings).priorityScore false = 1 / 2 ∧ (r ratings).priorityScore true = 5 / 4 ∧
      ProperScores [[1 / 2, 3 / 4], [1 / 2, 1 / 2], [1 / 2, 1 / 2]] (1 / 2) (5 / 4) ∧
      (r (ratings ++ [soon])).ScoresNoHigher (r ratings) ∧ (r ratings).ScoresNoHigher (r (ratings ++ [perfect])) ∧
      (RatingSet.mk "s" [r ratings, r []]).validityMeans "a" = [[1 / 4, 3 / 8], [1 / 4, 1 / 4], [1 / 4, 1 / 4]] ∧
      ProperScores [[1 / 4, 3 / 8], [1 / 4, 1 / 4], [1 / 4, 1 / 4]] (1 / 4) (5 / 8) := by
  intro hint outcome ratings r soon perfect
  have htable : (r ratings).validityTable = [[1 / 2, 3 / 4], [1 / 2, 1 / 2], [1 / 2, 1 / 2]] := by decide +kernel
  have hfull : (r ratings).priorityScore false = 1 / 2 := by decide +kernel
  have hall : (r ratings).priorityScore true = 5 / 4 := by decide +kernel
  have hmeans : (RatingSet.mk "s" [r ratings, r []]).validityMeans "a" =
      [[1 / 4, 3 / 8], [1 / 4, 1 / 4], [1 / 4, 1 / 4]] := by decide +kernel
  have hmean₁ : (RatingSet.mk "s" [r ratings, r []]).priorityMean false "a" = 1 / 4 := by decide +kernel
  have hmean₂ : (RatingSet.mk "s" [r ratings, r []]).priorityMean true "a" = 5 / 8 := by decide +kernel
  have h : ∀ x ∈ ratings, 0 ≤ x.outcome.weight := by decide +kernel
  have h₀ : (r []).NonNegative := fun x hx => absurd hx List.not_mem_nil
  have hset : ∀ q ∈ [r ratings, r []], q.NonNegative := by
    intro q hq
    rcases List.mem_cons.1 hq with rfl | hq
    · exact h
    · exact List.mem_singleton.1 hq ▸ h₀
  have hproper := scores_proper.1 (r ratings) h
  rw [htable, hfull, hall] at hproper
  have hmean := scores_proper.2.1 ⟨"s", [r ratings, r []]⟩ hset "a"
  rw [hmeans, hmean₁, hmean₂] at hmean
  have hadd := fun x hx => scores_proper.2.2.2.2 (r ratings) (r (ratings ++ [x])) x h hx List.perm_append_comm
  exact ⟨htable, hfull, hall, hproper, (hadd soon (by decide +kernel)).1 (.inr rfl),
    (hadd perfect (by decide +kernel)).2 rfl rfl rfl, hmeans, hmean⟩

end HintQuality
