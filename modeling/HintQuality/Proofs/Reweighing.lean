import HintQuality.Proofs.Independence
import HintQuality.Proofs.Scores
/-!
# Scores depend on the distribution of weights

Outcomes may be permuted, may all be scaled, and one of them may be split into two with the same result (`Reweighs`).
Each of these keeps the weights of the results in proportion (`sameDistribution_of_reweighs`), and scores see nothing
else: a verdict depends on the result of the outcome alone (`Matching.verdict_of_result`), so what the ratings add to
a score is a sum over results, each taken as often as it weighs (`sum_eq_sum_weightOf`). Outcomes with proportional
weights are rated alike (`scores_of_sameDistribution`), and so are those that come out of any number of these steps
(`rateRequest_reweighed`).
-/

namespace HintQuality

/-! ## Other weights -/

/-- Outcomes become others that put the same weight, or the same multiple of it, on every result. -/
inductive Reweighs : List (Outcome ℚ) → List (Outcome ℚ) → Prop
  /-- The order changes. -/
  | permute {os os' : List (Outcome ℚ)} (h : os.Perm os') : Reweighs os os'
  /-- All weights are multiplied. -/
  | scale {os : List (Outcome ℚ)} {c : ℚ} (hc : 0 < c) : Reweighs os (os.map fun o => o.withWeight (c * o.weight))
  /-- An outcome becomes two with its result, which share its weight. -/
  | split {before after : List (Outcome ℚ)} {o o₁ o₂ : Outcome ℚ} (h₁ : o₁.result = o.result)
    (h₂ : o₂.result = o.result) (hweight : o₁.weight + o₂.weight = o.weight) :
    Reweighs (before ++ o :: after) (before ++ o₁ :: o₂ :: after)

/-- The weight of all outcomes with a result. -/
def weightOf (os : List (Outcome ℚ)) (t : Option Tree) : ℚ :=
  ((os.filter fun o => o.result = t).map Outcome.weight).sum

/-- The outcomes `os'` have results of `os`, with proportional weights. -/
structure SameDistribution (os os' : List (Outcome ℚ)) : Prop where
  /-- The results are known. -/
  results : ∀ o' ∈ os', ∃ o ∈ os, o'.result = o.result
  /-- The weights are proportional. -/
  weights : ∃ c : ℚ, 0 < c ∧ ∀ t, weightOf os' t = c * weightOf os t

section Distribution

variable {os os' os'' : List (Outcome ℚ)}

@[simp] theorem weightOf_nil (t : Option Tree) : weightOf [] t = 0 := rfl

@[simp] theorem weightOf_cons (o : Outcome ℚ) (os : List (Outcome ℚ)) (t : Option Tree) :
    weightOf (o :: os) t = (if o.result = t then o.weight else 0) + weightOf os t := by
  by_cases h : o.result = t <;> simp [weightOf, h]

@[simp] theorem weightOf_append (os os' : List (Outcome ℚ)) (t : Option Tree) :
    weightOf (os ++ os') t = weightOf os t + weightOf os' t := by
  simp [weightOf]

theorem weightOf_scale (c : ℚ) (os : List (Outcome ℚ)) (t : Option Tree) :
    weightOf (os.map fun o => o.withWeight (c * o.weight)) t = c * weightOf os t := by
  induction os with
  | nil => simp
  | cons o os ih =>
    rw [List.map_cons, weightOf_cons, weightOf_cons, ih, mul_add, mul_ite, mul_zero]
    rfl

/-- Reweighing keeps the results and the proportions of their weights. -/
theorem sameDistribution_of_reweighs (h : Reweighs os os') : SameDistribution os os' := by
  cases h with
  | permute h =>
    refine ⟨fun o' ho' => ⟨o', h.mem_iff.2 ho', rfl⟩, 1, one_pos, fun t => ?_⟩
    rw [one_mul]
    exact (((h.filter _).map _).sum_eq).symm
  | @scale _ c hc =>
    refine ⟨fun o' ho' => ?_, c, hc, weightOf_scale c os⟩
    obtain ⟨o, ho, rfl⟩ := List.mem_map.1 ho'
    exact ⟨o, ho, rfl⟩
  | @split before after o o₁ o₂ h₁ h₂ hweight =>
    refine ⟨fun o' ho' => ?_, 1, one_pos, fun t => ?_⟩
    · simp only [List.mem_append, List.mem_cons] at ho' ⊢
      rcases ho' with ho' | rfl | rfl | ho'
      · exact ⟨o', .inl ho', rfl⟩
      · exact ⟨o, .inr (.inl rfl), h₁⟩
      · exact ⟨o, .inr (.inl rfl), h₂⟩
      · exact ⟨o', .inr (.inr ho'), rfl⟩
    · rw [one_mul]
      simp only [weightOf_append, weightOf_cons, h₁, h₂, ← hweight]
      split_ifs
      · ring
      · ring

theorem SameDistribution.refl (os : List (Outcome ℚ)) : SameDistribution os os :=
  ⟨fun o ho => ⟨o, ho, rfl⟩, 1, one_pos, fun _ => (one_mul _).symm⟩

theorem SameDistribution.trans (h : SameDistribution os os') (h' : SameDistribution os' os'') :
    SameDistribution os os'' := by
  obtain ⟨c, hc, hweights⟩ := h.weights
  obtain ⟨c', hc', hweights'⟩ := h'.weights
  refine ⟨fun o'' ho'' => ?_, c' * c, mul_pos hc' hc, fun t => ?_⟩
  · obtain ⟨o', ho', hresult'⟩ := h'.results o'' ho''
    obtain ⟨o, ho, hresult⟩ := h.results o' ho'
    exact ⟨o, ho, hresult'.trans hresult⟩
  · rw [hweights', hweights, mul_assoc]

/-- So does reweighing again and again. -/
theorem sameDistribution_of_steps (h : Relation.ReflTransGen Reweighs os os') : SameDistribution os os' := by
  induction h with
  | refl => exact .refl os
  | tail _ hstep ih => exact ih.trans (sameDistribution_of_reweighs hstep)

/-- What outcomes add in proportion to their weights is a sum over their results. -/
theorem sum_eq_sum_weightOf (φ : Option Tree → ℚ) {S : Finset (Option Tree)} (hS : ∀ o ∈ os, o.result ∈ S) :
    (os.map fun o => o.weight * φ o.result).sum = ∑ t ∈ S, weightOf os t * φ t := by
  induction os with
  | nil => simp
  | cons o os ih =>
    have hrest := ih fun o ho => hS o (List.mem_cons_of_mem _ ho)
    have hone : ∑ t ∈ S, (if o.result = t then o.weight else 0) * φ t = o.weight * φ o.result := by
      simp only [ite_mul, zero_mul]
      rw [Finset.sum_ite_eq, if_pos (hS o List.mem_cons_self)]
    simp only [List.map_cons, List.sum_cons, weightOf_cons, add_mul, Finset.sum_add_distrib, hone, hrest]

theorem SameDistribution.exists_sum_eq (h : SameDistribution os os') : ∃ c : ℚ, 0 < c ∧ ∀ φ : Option Tree → ℚ,
    (os'.map fun o => o.weight * φ o.result).sum = c * (os.map fun o => o.weight * φ o.result).sum := by
  obtain ⟨c, hc, hweights⟩ := h.weights
  refine ⟨c, hc, fun φ => ?_⟩
  have hS : ∀ o ∈ os, o.result ∈ (os.map Outcome.result).toFinset := fun o ho =>
    List.mem_toFinset.2 (List.mem_map_of_mem ho)
  have hS' : ∀ o' ∈ os', o'.result ∈ (os.map Outcome.result).toFinset := by
    intro o' ho'
    obtain ⟨o, ho, hresult⟩ := h.results o' ho'
    rw [hresult]
    exact hS o ho
  rw [sum_eq_sum_weightOf φ hS, sum_eq_sum_weightOf φ hS', Finset.mul_sum]
  refine Finset.sum_congr rfl fun t _ => ?_
  rw [hweights, mul_assoc]

end Distribution

/-! ## Verdicts on results -/

namespace Matching

variable {ω : Type} {policy : Policy} {style : ColorStyle} {hints : List TutorHint} {o o' : Outcome ω} {v : Rating ω}

/-- Full matches depend on the result alone. -/
theorem full_of_result (h : o'.result = o.result) :
    full policy hints o' = (full policy hints o).map (Option.map fun v => { v with outcome := o' }) := by
  cases hints with
  | nil => rfl
  | cons first rest =>
    rw [full, full, h]
    cases o.result with
    | none => rfl
    | some t =>
      cases first.requestTree with
      | none => rfl
      | some start =>
        simp only [need_some, pure_bind]
        cases firstEqual policy .none start t (sortCandidates (first :: rest)) with
        | error e => rfl
        | ok found => cases found <;> rfl

/-- Partial matches depend on the result alone. -/
theorem partialMatch_of_result (h : o'.result = o.result) : partialMatch policy style hints o' =
    (partialMatch policy style hints o).map fun v => { v with outcome := o' } := by
  have hoverlap : overlap policy style hints o' = overlap policy style hints o := by
    unfold overlap
    rw [h]
  rw [partialMatch, partialMatch, hoverlap]
  cases overlap policy style hints o with
  | error e => rfl
  | ok found => cases found <;> rfl

/-- The verdict on an outcome is that on any outcome with its result. -/
theorem verdict_of_result (h : o'.result = o.result) (hv : verdict policy style hints o = .ok v) :
    verdict policy style hints o' = .ok { v with outcome := o' } := by
  rw [verdict, full_of_result h]
  rw [verdict] at hv
  cases hfull : full policy hints o with
  | error e =>
    rw [hfull] at hv
    cases hv
  | ok found =>
    rw [hfull] at hv
    cases found with
    | none => exact (partialMatch_of_result h).trans (congrArg _ hv)
    | some w =>
      obtain rfl : w = v := Except.ok.inj hv
      rfl

end Matching

/-! ## Scores -/

/-- Any outcome with a result, of weight one. -/
def unitOutcome (t : Option Tree) : Outcome ℚ where
  result := t
  assignmentId := ""
  requestId := ""
  weight := 1
  id := .null

/-- Something that a rating adds to a score is as often what the same verdict adds for an outcome of weight one as the
outcome weighs. -/
def Proportional (f : Rating ℚ → ℚ) : Prop :=
  ∀ x : Rating ℚ, f x = x.outcome.weight * f { x with outcome := unitOutcome x.outcome.result }

namespace RequestRating

theorem proportional_weight : Proportional fun x => x.outcome.weight :=
  fun _ => (mul_one _).symm

theorem proportional_credit (m : MatchType) (v : Validity) : Proportional (credit m v) := by
  intro x
  have hcounts : counts m v { x with outcome := unitOutcome x.outcome.result } = counts m v x := rfl
  rw [credit, credit, hcounts]
  split_ifs
  · exact (mul_one _).symm
  · exact (mul_zero _).symm

theorem proportional_earned (countPartial : Bool) : Proportional (earned countPartial) := by
  intro x
  have hpriority : Rating.priority { x with outcome := unitOutcome x.outcome.result } = x.priority := rfl
  cases hp : x.priority with
  | none => rw [earned_of_no_priority hp, earned_of_no_priority (hpriority.trans hp), mul_zero]
  | some p =>
    rw [earned_of_priority hp, earned_of_priority (hpriority.trans hp)]
    split_ifs
    · rw [unitOutcome, one_mul]
    · exact (mul_zero _).symm

end RequestRating

section

variable {policy : Policy} {hints : List TutorHint} {assignmentId requestId : String} {os os' : List (Outcome ℚ)}
  {rating rating' : RequestRating ℚ} {f : Rating ℚ → ℚ}

/-- What the verdict on an outcome adds in proportion to the weight depends on the result alone, apart from it. -/
theorem Proportional.exists_value (hf : Proportional f) (policy : Policy) (hints : List TutorHint) :
    ∃ φ : Option Tree → ℚ, ∀ v : Rating ℚ, Matching.verdict policy .none hints v.outcome = .ok v →
      f v = v.outcome.weight * φ v.outcome.result := by
  -- The outcome of weight one stands for all outcomes with its result, whatever else they say.
  refine ⟨fun t => ((Matching.verdict policy .none hints (unitOutcome t)).toOption.map f).getD 0, fun v hv => ?_⟩
  have hresult : (unitOutcome v.outcome.result).result = v.outcome.result := rfl
  dsimp only
  rw [Matching.verdict_of_result hresult hv]
  exact hf v

/-- What ratings add to a score is what their outcomes add by their weights and results. -/
theorem RequestRating.Covers.sum_eq (hrating : rating.Covers policy hints assignmentId requestId os)
    {φ : Option Tree → ℚ} (hφ : ∀ v : Rating ℚ, Matching.verdict policy .none hints v.outcome = .ok v →
      f v = v.outcome.weight * φ v.outcome.result) :
    (rating.ratings.map f).sum = (os.map fun o => o.weight * φ o.result).sum := by
  have hvalues : rating.ratings.map f = (rating.ratings.map Rating.outcome).map fun o => o.weight * φ o.result := by
    rw [List.map_map]
    exact List.map_congr_left fun v hv => hφ v (hrating.verdicts v hv)
  rw [hvalues]
  exact (hrating.outcomes.map _).sum_eq

/-- What ratings of outcomes add in proportion to the weights grows as the weights do. -/
theorem exists_sum_ratings_eq (h : SameDistribution os os')
    (hrating : rating.Covers policy hints assignmentId requestId os)
    (hrating' : rating'.Covers policy hints assignmentId requestId os') :
    ∃ c : ℚ, c ≠ 0 ∧ ∀ f, Proportional f → (rating'.ratings.map f).sum = c * (rating.ratings.map f).sum := by
  obtain ⟨c, hc, hsum⟩ := h.exists_sum_eq
  refine ⟨c, hc.ne', fun f hf => ?_⟩
  obtain ⟨φ, hφ⟩ := hf.exists_value policy hints
  rw [hrating.sum_eq hφ, hrating'.sum_eq hφ, hsum]

/-- Outcomes with results that are rated are rated, too. -/
theorem exists_rating_of_results (h : ∀ o' ∈ os', ∃ o ∈ os, o'.result = o.result)
    (hratable : isRatable policy hints = true) (hrating : rating.Covers policy hints assignmentId requestId os) :
    ∃ rating', (rateRequest assignmentId requestId hints os' policy).result = .ok (some rating') ∧
      rating'.Covers policy hints assignmentId requestId os' := by
  cases hvs : os'.mapM (Matching.verdict policy .none hints) with
  | error e =>
    obtain ⟨o', ho', he⟩ := exists_of_mapM_error hvs
    obtain ⟨o, ho, hresult⟩ := h o' ho'
    obtain ⟨v, hv, rfl⟩ := List.mem_map.1 (hrating.outcomes.mem_iff.2 ho)
    rw [Matching.verdict_of_result hresult (hrating.verdicts v hv)] at he
    cases he
  | ok vs =>
    have hok : (rateRequest assignmentId requestId hints os' policy).result = .ok _ :=
      (result_rateRequest_eq_ok_iff hratable).2 ⟨vs, mapM_eq_ok_iff.1 hvs, rfl⟩
    obtain ⟨rating', hsome, hrating'⟩ := covers_of_result_rateRequest hratable hok
    exact ⟨rating', hok.trans (congrArg _ hsome), hrating'⟩

/-- Two ratings have the same scores. -/
structure RequestRating.SameScores (r r' : RequestRating ℚ) : Prop where
  /-- The shares are the same. -/
  table : r'.validityTable = r.validityTable
  /-- The points are the same, without and with partial matches. -/
  points : ∀ countPartial, r'.priorityScore countPartial = r.priorityScore countPartial

/-- Outcomes with proportional weights are rated alike. -/
theorem scores_of_sameDistribution (hratable : isRatable policy hints = true)
    (hok : (rateRequest assignmentId requestId hints os policy).result = .ok (some rating))
    (h : SameDistribution os os') :
    ∃ rating', (rateRequest assignmentId requestId hints os' policy).result = .ok (some rating') ∧
      rating.SameScores rating' := by
  obtain ⟨_, hsome, hrating⟩ := covers_of_result_rateRequest hratable hok
  obtain rfl := Option.some.inj hsome
  obtain ⟨rating', hok', hrating'⟩ := exists_rating_of_results h.results hratable hrating
  refine ⟨rating', hok', ?_⟩
  obtain ⟨c, hc, hsum⟩ := exists_sum_ratings_eq h hrating hrating'
  have htotal : rating'.totalWeight = c * rating.totalWeight := by
    rw [RequestRating.totalWeight_eq, RequestRating.totalWeight_eq]
    exact hsum _ RequestRating.proportional_weight
  have hshare : ∀ m v, rating'.validityShare m v = rating.validityShare m v := by
    intro m v
    rw [RequestRating.validityShare_eq, RequestRating.validityShare_eq, htotal,
      hsum _ (RequestRating.proportional_credit m v), mul_div_mul_left _ _ hc]
  refine ⟨?_, fun countPartial => ?_⟩
  · simp only [RequestRating.validityTable, hshare]
  · rw [RequestRating.priorityScore_eq, RequestRating.priorityScore_eq, htotal,
      hsum _ (RequestRating.proportional_earned countPartial), mul_div_mul_left _ _ hc]

/-- Scores depend only on how the weight is distributed over results: permuting outcomes, multiplying all weights and
splitting outcomes, any number of times, leaves them as they are. -/
theorem rateRequest_reweighed (hratable : isRatable policy hints = true)
    (hok : (rateRequest assignmentId requestId hints os policy).result = .ok (some rating))
    (h : Relation.ReflTransGen Reweighs os os') :
    ∃ rating', (rateRequest assignmentId requestId hints os' policy).result = .ok (some rating') ∧
      rating.SameScores rating' :=
  scores_of_sameDistribution hratable hok (sameDistribution_of_steps h)

end

/-- A full match that weighs two thirds and a partial one that weighs a third, before and after all weights are doubled,
the order is turned around, and the partial match is shared by two outcomes. -/
theorem rateRequest_reweighed_of_two :
    let start : Tree := .node ⟨"script", none, some "s"⟩ [⟨"0", some (.leaf ⟨"move", none, some "m"⟩)⟩]
    let part : Tree := .node ⟨"script", none, some "s"⟩
      [⟨"0", some (.leaf ⟨"move", none, some "m"⟩)⟩, ⟨"1", some (.leaf ⟨"turn", none, none⟩)⟩]
    let tutor : Tree := .node ⟨"script", none, some "s"⟩
      [⟨"0", some (.leaf ⟨"move", none, some "m"⟩)⟩, ⟨"1", some (.leaf ⟨"turn", none, none⟩)⟩,
        ⟨"2", some (.leaf ⟨"say", none, none⟩)⟩]
    let hint : TutorHint :=
      { hintId := 1, requestId := "r", assignmentId := "a", year := "y", requestTree := some start,
        result := some tutor, validity := .multipleTutors, priority := some .highest }
    let first : Outcome ℚ := { result := some part, assignmentId := "a", requestId := "r", weight := 1, id := .int 1 }
    let second : Outcome ℚ := { first with result := some tutor, weight := 2, id := .int 2 }
    let os' : List (Outcome ℚ) :=
      [second.withWeight (2 * 2), first.withWeight (1 / 2), { first with weight := 3 / 2, id := .int 3 }]
    ∃ rating', (rateRequest "a" "r" [hint] os' {}).result = .ok (some rating') ∧
      rating'.validityTable = [[2 / 3, 1], [2 / 3, 1], [0, 0]] ∧
        rating'.priorityScore false = 2 ∧ rating'.priorityScore true = 3 := by
  intro start part tutor hint first second os'
  have hsteps : Relation.ReflTransGen Reweighs [first, second] os' := by
    have hscale : Reweighs [first, second] [first.withWeight (2 * 1), second.withWeight (2 * 2)] := .scale two_pos
    have hpermute : Reweighs [first.withWeight (2 * 1), second.withWeight (2 * 2)]
        [second.withWeight (2 * 2), first.withWeight (2 * 1)] := .permute (.swap _ _ _)
    have hsplit : Reweighs ([second.withWeight (2 * 2)] ++ [first.withWeight (2 * 1)]) os' :=
      .split rfl rfl (by norm_num [Outcome.withWeight])
    exact ((Relation.ReflTransGen.single hscale).tail hpermute).tail hsplit
  have hscores : ((rateRequest "a" "r" [hint] [first, second] {}).result.toOption.map fun res =>
      res.map fun rating => (rating.validityTable, rating.priorityScore false, rating.priorityScore true)) =
        some (some ([[2 / 3, 1], [2 / 3, 1], [0, 0]], 2, 3)) := by
    decide +kernel
  obtain ⟨res, hres, hrating⟩ := Option.map_eq_some_iff.1 hscores
  cases res with
  | none => cases hrating
  | some rating =>
    obtain ⟨htable, hpoints⟩ := Prod.mk.inj (Option.some.inj hrating)
    obtain ⟨hfull, hall⟩ := Prod.mk.inj hpoints
    obtain ⟨rating', hok', hsame⟩ := rateRequest_reweighed (by decide) (eq_ok_of_toOption hres) hsteps
    exact ⟨rating', hok', hsame.table.trans htable, (hsame.points false).trans hfull, (hsame.points true).trans hall⟩

end HintQuality
