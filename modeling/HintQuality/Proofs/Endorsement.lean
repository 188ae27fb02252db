import HintQuality.Proofs.MoreHints
import HintQuality.Proofs.Scores
/-!
# Points and endorsement

Shares count matches with hints that some tutor endorsed, points look at priorities only. What endorsed matches earn is
at most three times the share that some tutor endorsed, but a match with a hint that no tutor endorsed can earn points
without adding to any share (`unendorsed_match_scores`). So the points of a rated request are bounded by the share,
whatever its outcomes weigh, exactly if no such match earns any (`priorityScore_le_iff_endorsed`).
-/

namespace HintQuality

variable {ω : Type}

/-- How close a match has to be for its priority to count. -/
def MatchType.scoredWith (countPartial : Bool) : MatchType :=
  if countPartial then partialMatch else fullMatch

/-- Whether some tutor endorsed the hint that is matched. -/
def Rating.isEndorsed (x : Rating ω) : Bool :=
  x.validity.isAtLeast .oneTutor

theorem Rating.isEndorsed_iff {x : Rating ω} : x.isEndorsed = true ↔ 1 ≤ x.validity.toNat :=
  Validity.isAtLeast_iff

namespace RequestRating

/-- The points per weight that the ratings of some kind earn. -/
def priorityScoreOf (kind : Rating ℚ → Bool) (countPartial : Bool) (r : RequestRating ℚ) : ℚ :=
  Weight.share (Weight.sum ((r.ratings.filter kind).filterMap (points? countPartial))) r.totalWeight

theorem priorityScoreOf_eq (kind : Rating ℚ → Bool) (countPartial : Bool) (r : RequestRating ℚ) :
    r.priorityScoreOf kind countPartial = ((r.ratings.filter kind).map (earned countPartial)).sum / r.totalWeight := by
  rw [priorityScoreOf, Weight.share_eq, sum_points]

/-- The ratings of a kind and the others earn all points together. -/
theorem priorityScore_eq_add (kind : Rating ℚ → Bool) (countPartial : Bool) (r : RequestRating ℚ) :
    r.priorityScore countPartial = r.priorityScoreOf kind countPartial + r.priorityScoreOf (!kind ·) countPartial := by
  have hperm := (List.filter_append_perm kind r.ratings).map (earned countPartial)
  rw [priorityScore_eq, priorityScoreOf_eq, priorityScoreOf_eq, ← add_div, ← hperm.sum_eq, List.map_append,
    List.sum_append]

theorem priorityScoreOf_nonneg {r : RequestRating ℚ} (h : r.NonNegative) (kind : Rating ℚ → Bool)
    (countPartial : Bool) : 0 ≤ r.priorityScoreOf kind countPartial := by
  rw [priorityScoreOf_eq]
  refine div_nonneg (List.sum_nonneg fun w hw => ?_) (totalWeight_nonneg h)
  obtain ⟨x, hx, rfl⟩ := List.mem_map.1 hw
  exact earned_nonneg (h x (List.mem_filter.1 hx).1)

/-! ## What matches earn -/

/-- Outcomes that name a hint are matched. -/
def Matched (r : RequestRating ω) : Prop :=
  ∀ x ∈ r.ratings, x.matchType = .unmatched → x.hint? = none

section Single

variable {x : Rating ℚ} (hmatched : x.matchType = .unmatched → x.hint? = none) {countPartial : Bool}
include hmatched

/-- A rating earns points only by a match that is close enough. -/
theorem toNat_scoredWith_le {p : Priority} (hp : x.priority = some p)
    (hclose : (countPartial || x.matchType = .fullMatch) = true) :
    (MatchType.scoredWith countPartial).toNat ≤ x.matchType.toNat := by
  have hnamed : x.matchType ≠ .unmatched := by
    intro hun
    rw [Rating.priority, hmatched hun] at hp
    cases hp
  cases countPartial <;> cases hm : x.matchType <;> simp_all [MatchType.scoredWith, MatchType.toNat]

/-- An endorsed match earns no more than three points for the weight that it adds to the share. -/
theorem earned_le_credit (hx : 0 ≤ x.outcome.weight) (hend : x.isEndorsed = true) :
    earned countPartial x ≤ 3 * credit (MatchType.scoredWith countPartial) .oneTutor x := by
  have hcredit : 0 ≤ 3 * credit (MatchType.scoredWith countPartial) .oneTutor x :=
    mul_nonneg (by norm_num) (credit_nonneg hx)
  cases hp : x.priority with
  | none => rwa [earned_of_no_priority hp]
  | some p =>
    by_cases hclose : (countPartial || x.matchType = .fullMatch) = true
    · by_cases hsoon : x.isTooSoon = true
      · rwa [earned_of_worthless (.inr hsoon)]
      · have hcounts : counts (MatchType.scoredWith countPartial) .oneTutor x = true :=
          counts_iff.2 ⟨toNat_scoredWith_le hmatched hp hclose, Rating.isEndorsed_iff.1 hend,
            Bool.eq_false_of_not_eq_true hsoon⟩
        rw [credit, if_pos hcounts]
        exact earned_le hx
    · rwa [earned_of_priority hp, if_neg hclose]

end Single

section Endorsed

variable {r : RequestRating ℚ} (h : r.NonNegative) (hmatched : r.Matched) (countPartial : Bool)
include h hmatched

/-- What endorsed matches earn is at most three times their share. -/
theorem priorityScoreOf_endorsed_le : r.priorityScoreOf Rating.isEndorsed countPartial ≤
    3 * r.validityShare (MatchType.scoredWith countPartial) .oneTutor := by
  have hsub : ((r.ratings.filter Rating.isEndorsed).map (credit (MatchType.scoredWith countPartial) .oneTutor)).sum ≤
      (r.ratings.map (credit (MatchType.scoredWith countPartial) .oneTutor)).sum := by
    refine (List.filter_sublist.map _).sum_le_sum fun w hw => ?_
    obtain ⟨x, hx, rfl⟩ := List.mem_map.1 hw
    exact credit_nonneg (h x hx)
  rw [priorityScoreOf_eq, validityShare_eq, ← mul_div_assoc]
  refine div_le_div_of_nonneg_right ?_ (totalWeight_nonneg h)
  refine le_trans ?_ (mul_le_mul_of_nonneg_left hsub (by norm_num))
  rw [← List.sum_map_mul_left]
  refine List.sum_le_sum fun x hx => ?_
  obtain ⟨hx, hend⟩ := List.mem_filter.1 hx
  exact earned_le_credit (hmatched x hx) (h x hx) hend

end Endorsed

/-- Whether no match that is close enough earns points unless some tutor endorsed it. -/
def PointsEndorsed (r : RequestRating ω) (countPartial : Bool) : Prop :=
  ∀ x ∈ r.ratings, x.isEndorsed = false → x.matchType.isAtLeast (MatchType.scoredWith countPartial) = true →
    ∀ p, x.priority = some p → p.points = 0

/-- Without points for matches that no tutor endorsed, all points are earned by endorsed ones. -/
theorem priorityScoreOf_not_endorsed_eq_zero {r : RequestRating ℚ} {countPartial : Bool} (hmatched : r.Matched)
    (hpoints : r.PointsEndorsed countPartial) : r.priorityScoreOf (!Rating.isEndorsed ·) countPartial = 0 := by
  have hzero : (r.ratings.filter (!Rating.isEndorsed ·)).map (earned countPartial) =
      (r.ratings.filter (!Rating.isEndorsed ·)).map fun _ => 0 := by
    refine List.map_congr_left fun x hx => ?_
    obtain ⟨hx, hend⟩ := List.mem_filter.1 hx
    cases hp : x.priority with
    | none => exact earned_of_no_priority hp
    | some p =>
      rw [earned_of_priority hp]
      split
      · rename_i hclose
        have hm := MatchType.isAtLeast_iff.2 (toNat_scoredWith_le (hmatched x hx) hp hclose)
        rw [hpoints x hx (by simpa using hend) hm p hp, Nat.cast_zero, mul_zero]
      · rfl
  rw [priorityScoreOf_eq, hzero, List.map_const', List.sum_replicate, nsmul_zero, zero_div]

theorem nonNegative_weighed (r : RequestRating ω) {w : Rating ω → ℚ} (hw : ∀ x, 0 ≤ w x) :
    (r.weighed w).NonNegative := by
  intro y hy
  obtain ⟨x, -, rfl⟩ := List.mem_map.1 hy
  exact hw x

open Classical in
/-- If a match that no tutor endorsed earns points, the points exceed the share where it has all the weight. -/
theorem exists_weights_of_not_pointsEndorsed {r : RequestRating ℚ} {countPartial : Bool}
    (h : ¬r.PointsEndorsed countPartial) : ∃ w : Rating ℚ → ℚ, (∀ x, 0 ≤ w x) ∧
      3 * (r.weighed w).validityShare (MatchType.scoredWith countPartial) .oneTutor <
        (r.weighed w).priorityScore countPartial := by
  unfold PointsEndorsed at h
  push Not at h
  obtain ⟨x, hx, hend, hclose, p, hp, hpoints⟩ := h
  let w : Rating ℚ → ℚ := fun y => if y = x then 1 else 0
  have hw : ∀ y, 0 ≤ w y := by
    intro y
    by_cases hy : y = x <;> simp [w, hy]
  have hnonneg := r.nonNegative_weighed hw
  -- no other rating has any weight, and this one does not count
  have hshare : (r.weighed w).validityShare (MatchType.scoredWith countPartial) .oneTutor = 0 := by
    have hzero : ∀ c ∈ (r.weighed w).ratings.map (credit (MatchType.scoredWith countPartial) .oneTutor), c = 0 := by
      intro c hc
      obtain ⟨y', hy', rfl⟩ := List.mem_map.1 hc
      obtain ⟨y, -, rfl⟩ := List.mem_map.1 hy'
      rw [credit]
      split
      · rename_i hcounts
        have hy : y ≠ x := by
          rintro rfl
          have hyend : y.isEndorsed = true := Rating.isEndorsed_iff.2 (counts_iff.1 hcounts).2.1
          rw [hyend] at hend
          cases hend
        exact if_neg hy
      · rfl
    rw [validityShare_eq, List.sum_eq_zero hzero, zero_div]
  have hone : w x = 1 := if_pos rfl
  have hmem : x.withWeight (w x) ∈ (r.weighed w).ratings := List.mem_map_of_mem hx
  have htotal : 0 < (r.weighed w).totalWeight := by
    rw [totalWeight_eq]
    refine Weight.sum_pos_of_mem hnonneg hmem ?_
    show 0 < w x
    rw [hone]
    exact one_pos
  have hscore : 0 < ((r.weighed w).ratings.map (earned countPartial)).sum := by
    refine Weight.sum_pos_of_mem (fun y hy => earned_nonneg (hnonneg y hy)) hmem ?_
    have hfull : (countPartial || x.matchType = .fullMatch) = true := by
      cases countPartial <;> cases hm : x.matchType <;>
        simp_all [MatchType.scoredWith, MatchType.isAtLeast, MatchType.toNat]
    have hearned : earned countPartial (x.withWeight (w x)) = w x * p.points :=
      (earned_of_priority (x := x.withWeight (w x)) hp).trans (if_pos hfull)
    rw [hearned, hone, one_mul]
    exact Nat.cast_pos.2 (Nat.pos_of_ne_zero hpoints)
  refine ⟨w, hw, ?_⟩
  rw [hshare, mul_zero, priorityScore_eq]
  exact div_pos hscore htotal

end RequestRating

/-! ## Rated requests -/

section

variable {policy : Policy} {hints : List TutorHint} {outcomes : List (Outcome ω)} {assignmentId requestId : String}
  {rating : RequestRating ω}

/-- In a rated request only matches name a hint. -/
theorem matched_of_rateRequest
    (h : (rateRequest assignmentId requestId hints outcomes policy).result = .ok (some rating)) : rating.Matched := by
  have hratable : isRatable policy hints = true := by
    by_contra hno
    rw [rateRequest, if_pos (by simpa using hno)] at h
    cases Except.ok.inj h
  obtain ⟨_, hsome, hcovers⟩ := covers_of_result_rateRequest hratable h
  obtain rfl := Option.some.inj hsome
  intro x hx hun
  obtain ⟨_, _, -, -, hjust⟩ := Matching.justified_of_verdict (ne_nil_of_isRatable hratable) (hcovers.verdicts x hx)
  rw [Rating.hint?, hjust.no_hint hun]
  rfl

end

section

open RequestRating

variable {policy : Policy} {hints : List TutorHint} {outcomes : List (Outcome ℚ)} {assignmentId requestId : String}
  {rating : RequestRating ℚ}

/-- The points of a rated request are what endorsed matches earn, at most three times the share that some tutor
endorsed, and what the others earn. They are bounded by the share, whatever the outcomes weigh, exactly if the others
earn none. -/
theorem priorityScore_le_iff_endorsed
    (h : (rateRequest assignmentId requestId hints outcomes policy).result = .ok (some rating))
    (countPartial : Bool) :
    (rating.NonNegative →
      rating.priorityScore countPartial = rating.priorityScoreOf Rating.isEndorsed countPartial +
        rating.priorityScoreOf (!Rating.isEndorsed ·) countPartial ∧
      rating.priorityScoreOf Rating.isEndorsed countPartial ≤
        3 * rating.validityShare (MatchType.scoredWith countPartial) .oneTutor ∧
      0 ≤ rating.priorityScoreOf (!Rating.isEndorsed ·) countPartial) ∧
    ((∀ w : Rating ℚ → ℚ, (∀ x, 0 ≤ w x) → (rating.weighed w).priorityScore countPartial ≤
        3 * (rating.weighed w).validityShare (MatchType.scoredWith countPartial) .oneTutor) ↔
      rating.PointsEndorsed countPartial) := by
  have hmatched := matched_of_rateRequest h
  refine ⟨fun hnonneg => ⟨priorityScore_eq_add _ _ _, priorityScoreOf_endorsed_le hnonneg hmatched countPartial,
    priorityScoreOf_nonneg hnonneg _ countPartial⟩, fun hle => ?_, fun hpoints w hw => ?_⟩
  · by_contra hno
    obtain ⟨w, hw, hlt⟩ := exists_weights_of_not_pointsEndorsed hno
    exact absurd (hle w hw) (not_le.2 hlt)
  · have hnonneg := rating.nonNegative_weighed hw
    have hmatched' : (rating.weighed w).Matched := by
      intro y hy hun
      obtain ⟨x, hx, rfl⟩ := List.mem_map.1 hy
      exact hmatched x hx hun
    have hpoints' : (rating.weighed w).PointsEndorsed countPartial := by
      intro y hy
      obtain ⟨x, hx, rfl⟩ := List.mem_map.1 hy
      exact hpoints x hx
    rw [priorityScore_eq_add Rating.isEndorsed, priorityScoreOf_not_endorsed_eq_zero hmatched' hpoints', add_zero]
    exact priorityScoreOf_endorsed_le hnonneg hmatched' countPartial

/-- Of two full matches, one with an urgent hint that no tutor endorsed and a heavier one with a normal hint that all
agree on, the first one earns more than half of the points. With other weights the points exceed the share. -/
theorem priorityScore_le_iff_endorsed_of_two :
    let start : Tree := .leaf ⟨"script", none, some "s"⟩
    let result (type : String) : Tree := .node ⟨"script", none, some "s"⟩ [⟨"0", some (.leaf ⟨type, none, none⟩)⟩]
    let hint (type : String) (validity : Validity) (priority : Priority) : TutorHint :=
      { hintId := 1, requestId := "r", assignmentId := "a", year := "y", requestTree := some start,
        result := some (result type), validity := validity, priority := some priority }
    let outcome (type : String) (w : ℚ) : Outcome ℚ :=
      { result := some (result type), assignmentId := "a", requestId := "r", weight := w, id := .int 1 }
    ∃ rating, (rateRequest "a" "r" [hint "turn" .noTutors .highest, hint "move" .consensus .normal]
        [outcome "turn" 1, outcome "move" 2] {}).result = .ok (some rating) ∧
      rating.priorityScore false = 5 / 3 ∧ rating.validityShare .fullMatch .oneTutor = 2 / 3 ∧
      rating.priorityScoreOf Rating.isEndorsed false = 2 / 3 ∧
      rating.priorityScoreOf (!Rating.isEndorsed ·) false = 1 ∧
      ∃ w : Rating ℚ → ℚ, (∀ x, 0 ≤ w x) ∧
        3 * (rating.weighed w).validityShare .fullMatch .oneTutor < (rating.weighed w).priorityScore false := by
  intro start result hint outcome
  have hscores : ((rateRequest "a" "r" [hint "turn" .noTutors .highest, hint "move" .consensus .normal]
      [outcome "turn" 1, outcome "move" 2] {}).result.toOption.map fun res => res.map fun rating =>
        [rating.priorityScore false, rating.validityShare .fullMatch .oneTutor,
          rating.priorityScoreOf Rating.isEndorsed false]) = some (some [5 / 3, 2 / 3, 2 / 3]) := by
    decide +kernel
  have hratings : ((rateRequest "a" "r" [hint "turn" .noTutors .highest, hint "move" .consensus .normal]
      [outcome "turn" 1, outcome "move" 2] {}).result.toOption.map fun res => res.map fun rating =>
        (rating.ratings.all fun x => 0 ≤ x.outcome.weight) && rating.ratings.any fun x =>
          !x.isEndorsed && x.matchType = .fullMatch && x.priority = some .highest) = some (some true) := by
    decide +kernel
  obtain ⟨res, hres, hscores⟩ := Option.map_eq_some_iff.1 hscores
  rw [hres] at hratings
  obtain ⟨rating, rfl, hscores⟩ := Option.map_eq_some_iff.1 hscores
  obtain ⟨hweights, hunendorsed⟩ := Bool.and_eq_true_iff.1 (Option.some.inj (Option.some.inj hratings))
  simp only [Option.map_some, Option.some.injEq, List.cons.injEq, and_true] at hscores
  obtain ⟨hscore, hshare, hend⟩ := hscores
  have hok := eq_ok_of_toOption hres
  have hnonneg : rating.NonNegative := fun x hx => of_decide_eq_true (List.all_eq_true.1 hweights x hx)
  have hpoints : ¬rating.PointsEndorsed false := by
    intro hpoints
    obtain ⟨x, hx, hkind⟩ := List.any_eq_true.1 hunendorsed
    simp only [Bool.and_eq_true, Bool.not_eq_true', decide_eq_true_eq] at hkind
    obtain ⟨⟨hnot, hfull⟩, hhighest⟩ := hkind
    have hclose : x.matchType.isAtLeast (MatchType.scoredWith false) = true := by
      rw [hfull]
      rfl
    exact absurd (hpoints x hx hnot hclose _ hhighest) (by decide)
  obtain ⟨hadd, -, -⟩ := (priorityScore_le_iff_endorsed hok false).1 hnonneg
  have hbound := mt (priorityScore_le_iff_endorsed hok false).2.1 hpoints
  push Not at hbound
  refine ⟨rating, hok, hscore, hshare, hend, ?_, hbound⟩
  rw [hscore, hend] at hadd
  linarith

/-- An outcome that fully matches the most urgent hint, which no tutor endorsed, next to a hint that makes the request
worth rating, has all the points and no share. -/
theorem unendorsed_match_scores :
    let start : Tree := .leaf ⟨"script", none, some "s"⟩
    let result (type : String) : Tree := .node ⟨"script", none, some "s"⟩ [⟨"0", some (.leaf ⟨type, none, none⟩)⟩]
    let hint (type : String) (validity : Validity) (priority : Priority) : TutorHint :=
      { hintId := 1, requestId := "r", assignmentId := "a", year := "y", requestTree := some start,
        result := some (result type), validity := validity, priority := some priority }
    let outcome : Outcome ℚ :=
      { result := some (result "turn"), assignmentId := "a", requestId := "r", weight := 1, id := .int 1 }
    ∃ rating, (rateRequest "a" "r" [hint "turn" .noTutors .highest, hint "move" .consensus .normal] [outcome]
        {}).result = .ok (some rating) ∧ rating.NonNegative ∧
      rating.priorityScore false = 3 ∧ rating.validityShare .fullMatch .oneTutor = 0 ∧
      rating.priorityScore true = 3 ∧ rating.validityShare .partialMatch .oneTutor = 0 := by
  intro start result hint outcome
  have hscores : ((rateRequest "a" "r" [hint "turn" .noTutors .highest, hint "move" .consensus .normal] [outcome]
      {}).result.toOption.map fun res => res.map fun rating =>
        [rating.priorityScore false, rating.validityShare .fullMatch .oneTutor, rating.priorityScore true,
          rating.validityShare .partialMatch .oneTutor]) = some (some [3, 0, 3, 0]) := by
    decide +kernel
  have hweights : ((rateRequest "a" "r" [hint "turn" .noTutors .highest, hint "move" .consensus .normal] [outcome]
      {}).result.toOption.map fun res => res.map fun rating =>
        rating.ratings.all fun x => 0 ≤ x.outcome.weight) = some (some true) := by
    decide +kernel
  obtain ⟨res, hres, hscores⟩ := Option.map_eq_some_iff.1 hscores
  rw [hres] at hweights
  obtain ⟨rating, rfl, hscores⟩ := Option.map_eq_some_iff.1 hscores
  have hweights := Option.some.inj (Option.some.inj hweights)
  simp only [Option.map_some, Option.some.injEq, List.cons.injEq, and_true] at hscores
  obtain ⟨hfull, hnone, hpartial, hnone'⟩ := hscores
  have hnonneg : rating.NonNegative := fun x hx => of_decide_eq_true (List.all_eq_true.1 hweights x hx)
  exact ⟨rating, eq_ok_of_toOption hres, hnonneg, hfull, hnone, hpartial, hnone'⟩

end

end HintQuality
