import HintQuality.Proofs.Verdict
/-!
# Outcomes are rated by themselves

Rating a request settles full matches before partial ones and sorts what it finds (`settle_iff`). Still every outcome
gets the verdict that it would get alone, and the ratings are these verdicts in the order of the hints that they name,
unmatched ones last, full matches in front of partial ones, and else in the order of the outcomes
(`rateRequest_independent`).
-/

namespace HintQuality

variable {ω : Type}

/-! ## The order in which ratings are listed -/

namespace Rating

/-- The key of the hint that is matched; unmatched outcomes come last. -/
def trialKey (r : Rating ω) : WithTop (ℕ ×ₗ ℤ) :=
  match r.hint? with
  | some h => h.trialKey
  | none => ⊤

/-- Whether the match is full. -/
def isFull (r : Rating ω) : Bool :=
  r.matchType = .fullMatch

/-- The key of the hint that is matched, and then whether the match is less than full. -/
def listingKey (r : Rating ω) : WithTop (ℕ ×ₗ ℤ) ×ₗ Bool :=
  toLex (r.trialKey, !r.isFull)

theorem precedes_iff {r s : Rating ω} : r.precedes s = true ↔ r.trialKey ≤ s.trialKey := by
  unfold precedes trialKey
  cases r.hint? <;> cases s.hint? <;> simp [TutorHint.precedes_iff]

theorem listingKey_eq_iff {r : Rating ω} {x : WithTop (ℕ ×ₗ ℤ)} {b : Bool} :
    r.listingKey = toLex (x, b) ↔ r.trialKey = x ∧ r.isFull = !b := by
  rw [listingKey, toLex_inj, Prod.mk.injEq]
  cases b <;> simp

/-- Full matches in front, the others behind, and each of them in the order that they had. -/
def fullFirst (vs : List (Rating ω)) : List (Rating ω) :=
  vs.filter isFull ++ vs.filter (!isFull ·)

theorem fullFirst_perm (vs : List (Rating ω)) : (fullFirst vs).Perm vs :=
  List.filter_append_perm _ _

theorem pairwise_fullFirst (vs : List (Rating ω)) : (fullFirst vs).Pairwise fun a b => (!a.isFull) ≤ !b.isFull := by
  have hfull : ∀ a ∈ vs.filter isFull, a.isFull = true := fun a ha => (List.mem_filter.1 ha).2
  have hother : ∀ a ∈ vs.filter (!isFull ·), (!a.isFull) = true := fun a ha => (List.mem_filter.1 ha).2
  refine List.pairwise_append.2 ⟨?_, ?_, ?_⟩
  · exact List.pairwise_of_forall_mem_list fun a ha b _ => by simp [hfull a ha]
  · exact List.pairwise_of_forall_mem_list fun a _ b hb => by simp [hother b hb]
  · exact fun a ha b _ => by simp [hfull a ha]

/-- Ratings of one listing key are all full matches or none is, so that their order is kept. -/
theorem filter_fullFirst (vs : List (Rating ω)) (k : WithTop (ℕ ×ₗ ℤ) ×ₗ Bool) :
    ((fullFirst vs).filter fun a => a.listingKey = k) = vs.filter fun a => a.listingKey = k := by
  obtain ⟨⟨x, b⟩, rfl⟩ := toLex.surjective k
  rw [fullFirst, List.filter_append, List.filter_filter, List.filter_filter]
  cases b with
  | false =>
    have hnone : ∀ a ∈ vs, ¬(decide (a.listingKey = toLex (x, false)) && !a.isFull) = true := by
      intro a _
      simp [listingKey_eq_iff]
    rw [List.filter_eq_nil_iff.2 hnone, List.append_nil]
    refine List.filter_congr fun a _ => ?_
    simp [listingKey_eq_iff]
  | true =>
    have hnone : ∀ a ∈ vs, ¬(decide (a.listingKey = toLex (x, true)) && a.isFull) = true := by
      intro a _
      simp [listingKey_eq_iff]
    rw [List.filter_eq_nil_iff.2 hnone, List.nil_append]
    refine List.filter_congr fun a _ => ?_
    simp [listingKey_eq_iff]

/-- Sorting ratings with the full matches in front sorts them by their listing keys. -/
theorem isStableSort_fullFirst (vs : List (Rating ω)) :
    IsStableSort listingKey vs (sortBy precedes (fullFirst vs)) := by
  refine ⟨(sortBy_perm _ _).trans (fullFirst_perm vs), ?_, fun k => ?_⟩
  · have hle : ∀ a b : Rating ω, a.precedes b = true ↔ a.trialKey ≤ b.trialKey := fun _ _ => precedes_iff
    refine (pairwise_sortBy_of_key hle (pairwise_fullFirst vs)).imp fun {a b} hab => ?_
    rwa [listingKey, listingKey, Prod.Lex.toLex_le_toLex]
  · have hclass : ∀ a b : Rating ω, decide (a.listingKey = k) = true → decide (b.listingKey = k) = true →
        a.precedes b = true := by
      intro a b ha hb
      have hab : a.listingKey = b.listingKey := (of_decide_eq_true ha).trans (of_decide_eq_true hb).symm
      exact precedes_iff.2 (congrArg (fun k => (ofLex k).1) hab).le
    rw [filter_sortBy hclass, filter_fullFirst]

end Rating

/-! ## Verdicts in two passes -/

namespace Matching

variable {policy : Policy} {style : ColorStyle} {hints : List TutorHint} {o : Outcome ω} {v : Rating ω}

theorem isFull_of_full (hne : hints ≠ []) (h : full policy hints o = .ok (some v)) :
    v.outcome = o ∧ v.isFull = true := by
  cases hints with
  | nil => exact absurd rfl hne
  | cons first rest =>
    obtain ⟨t, -, h⟩ := bind_eq_ok_iff.1 h
    obtain ⟨start, -, h⟩ := bind_eq_ok_iff.1 h
    obtain ⟨found, -, h⟩ := bind_eq_ok_iff.1 h
    cases found with
    | none => cases h
    | some c =>
      rw [← Option.some.inj (Except.ok.inj h)]
      exact ⟨rfl, rfl⟩

theorem isFull_of_partialMatch (h : partialMatch policy style hints o = .ok v) : v.outcome = o ∧ v.isFull = false := by
  obtain ⟨overlap, -, rfl⟩ := map_eq_ok_iff.1 h
  cases overlap <;> exact ⟨rfl, rfl⟩

theorem verdict_eq_ok_iff : verdict policy style hints o = .ok v ↔
    full policy hints o = .ok (some v) ∨ full policy hints o = .ok none ∧ partialMatch policy style hints o = .ok v := by
  rw [verdict]
  cases full policy hints o with
  | error e =>
    constructor
    · intro h
      cases h
    · rintro (h | ⟨h, -⟩) <;> cases h
  | ok found =>
    cases found with
    | none =>
      constructor
      · exact fun h => .inr ⟨rfl, h⟩
      · rintro (h | ⟨-, h⟩)
        · cases h
        · exact h
    | some r =>
      show Except.ok r = .ok v ↔ _
      simp

theorem outcome_of_verdict (hne : hints ≠ []) (h : verdict policy style hints o = .ok v) : v.outcome = o := by
  rcases verdict_eq_ok_iff.1 h with hfull | ⟨-, hpartial⟩
  · exact (isFull_of_full hne hfull).1
  · exact (isFull_of_partialMatch hpartial).1

end Matching

section

variable {policy : Policy} {hints : List TutorHint} {assignmentId requestId : String}

theorem settleFull_cons_eq_ok_iff {o : Outcome ω} {os rest : List (Outcome ω)} {fulls : List (Rating ω)} :
    settleFull policy hints (o :: os) = .ok (fulls, rest) ↔
      (∃ v fulls', Matching.full policy hints o = .ok (some v) ∧ settleFull policy hints os = .ok (fulls', rest) ∧
        fulls = v :: fulls') ∨
      ∃ rest', Matching.full policy hints o = .ok none ∧ settleFull policy hints os = .ok (fulls, rest') ∧
        rest = o :: rest' := by
  rw [settleFull]
  cases Matching.full policy hints o with
  | error e =>
    constructor
    · intro h
      cases h
    · rintro (⟨_, _, h, -⟩ | ⟨_, h, -⟩) <;> cases h
  | ok found =>
    cases settleFull policy hints os with
    | error e =>
      constructor
      · intro h
        cases found <;> cases h
      · rintro (⟨_, _, -, h, -⟩ | ⟨_, -, h, -⟩) <;> cases h
    | ok settled =>
      obtain ⟨fulls', rest'⟩ := settled
      cases found with
      | none =>
        show Except.ok (fulls', o :: rest') = .ok (fulls, rest) ↔ _
        simp [eq_comm, and_assoc]
      | some v =>
        show Except.ok (v :: fulls', rest') = .ok (fulls, rest) ↔ _
        simp [eq_comm, and_comm]

/-- Settling the full matches first and the others then gives the verdicts on all outcomes, in two parts. -/
theorem settle_iff (hne : hints ≠ []) {os : List (Outcome ω)} {fulls others : List (Rating ω)} :
    (∃ rest, settleFull policy hints os = .ok (fulls, rest) ∧
      rest.mapM (Matching.partialMatch policy .none hints) = .ok others) ↔
        ∃ vs, os.mapM (Matching.verdict policy .none hints) = .ok vs ∧
          fulls = vs.filter Rating.isFull ∧ others = vs.filter (!Rating.isFull ·) := by
  induction os generalizing fulls others with
  | nil =>
    constructor
    · rintro ⟨rest, hfull, hrest⟩
      obtain ⟨rfl, rfl⟩ := Prod.mk.inj (Except.ok.inj hfull)
      exact ⟨[], rfl, rfl, (Except.ok.inj hrest).symm⟩
    · rintro ⟨vs, hvs, rfl, rfl⟩
      rw [← Except.ok.inj hvs]
      exact ⟨[], rfl, rfl⟩
  | cons o os ih =>
    simp only [mapM_eq_ok_iff] at ih ⊢
    constructor
    · rintro ⟨rest, hfull, hrest⟩
      rcases settleFull_cons_eq_ok_iff.1 hfull with ⟨v, fulls, hv, hos, rfl⟩ | ⟨rest, hnone, hos, rfl⟩
      · obtain ⟨vs, hvs, rfl, rfl⟩ := ih.1 ⟨rest, hos, hrest⟩
        have hisFull := (Matching.isFull_of_full hne hv).2
        refine ⟨v :: vs, .cons (Matching.verdict_eq_ok_iff.2 (.inl hv)) hvs, ?_, ?_⟩
        · rw [List.filter_cons_of_pos hisFull]
        · rw [List.filter_cons_of_neg (by simp [hisFull])]
      · obtain ⟨v, others, hv, hothers, rfl⟩ := List.forall₂_cons_left_iff.1 hrest
        obtain ⟨vs, hvs, rfl, rfl⟩ := ih.1 ⟨rest, hos, hothers⟩
        have hisFull := (Matching.isFull_of_partialMatch hv).2
        refine ⟨v :: vs, .cons (Matching.verdict_eq_ok_iff.2 (.inr ⟨hnone, hv⟩)) hvs, ?_, ?_⟩
        · rw [List.filter_cons_of_neg (by simp [hisFull])]
        · rw [List.filter_cons_of_pos (by simp [hisFull])]
    · rintro ⟨_, hall, rfl, rfl⟩
      obtain ⟨v, vs, hv, hvs, rfl⟩ := List.forall₂_cons_left_iff.1 hall
      obtain ⟨rest, hos, hrest⟩ := ih.2 ⟨vs, hvs, rfl, rfl⟩
      rcases Matching.verdict_eq_ok_iff.1 hv with hfull | ⟨hnone, hpartial⟩
      · have hisFull := (Matching.isFull_of_full hne hfull).2
        refine ⟨rest, settleFull_cons_eq_ok_iff.2 (.inl ⟨v, _, hfull, hos, ?_⟩), ?_⟩
        · rw [List.filter_cons_of_pos hisFull]
        · rwa [List.filter_cons_of_neg (by simp [hisFull])]
      · have hisFull := (Matching.isFull_of_partialMatch hpartial).2
        refine ⟨o :: rest, settleFull_cons_eq_ok_iff.2 (.inr ⟨rest, hnone, ?_, rfl⟩), ?_⟩
        · rwa [List.filter_cons_of_neg (by simp [hisFull])]
        · rw [List.filter_cons_of_pos (by simp [hisFull])]
          exact .cons hpartial hrest

/-- Rating a request sorts the verdicts on all outcomes, if there is one on each. -/
theorem result_rateRequest_eq_ok_iff (hratable : isRatable policy hints = true) {outcomes : List (Outcome ω)}
    {res : Option (RequestRating ω)} : (rateRequest assignmentId requestId hints outcomes policy).result = .ok res ↔
      ∃ vs, List.Forall₂ (fun o v => Matching.verdict policy .none hints o = .ok v) outcomes vs ∧
        res = some (RequestRating.sorted
          { requestId := requestId
            assignmentId := assignmentId
            requestTree := hints.head?.bind TutorHint.requestTree
            policy := policy
            ratings := Rating.fullFirst vs }) := by
  have hne := ne_nil_of_isRatable hratable
  rw [result_rateRequest_eq hratable]
  constructor
  · intro h
    obtain ⟨⟨fulls, rest⟩, hfull, h⟩ := bind_eq_ok_iff.1 h
    obtain ⟨others, hothers, rfl⟩ := map_eq_ok_iff.1 h
    obtain ⟨vs, hvs, rfl, rfl⟩ := (settle_iff hne).1 ⟨rest, hfull, hothers⟩
    exact ⟨vs, mapM_eq_ok_iff.1 hvs, rfl⟩
  · rintro ⟨vs, hvs, rfl⟩
    obtain ⟨rest, hfull, hothers⟩ := (settle_iff hne).2 ⟨vs, mapM_eq_ok_iff.2 hvs, rfl, rfl⟩
    exact bind_eq_ok_iff.2 ⟨_, hfull, map_eq_ok_iff.2 ⟨_, hothers, rfl⟩⟩

/-- The rating is about the given request, and has one verdict on each of the outcomes. -/
structure RequestRating.Covers (policy : Policy) (hints : List TutorHint) (assignmentId requestId : String)
    (outcomes : List (Outcome ω)) (rating : RequestRating ω) : Prop where
  /-- It is about the assignment. -/
  assignmentId : rating.assignmentId = assignmentId
  /-- It is about the request. -/
  requestId : rating.requestId = requestId
  /-- Every outcome is rated once. -/
  outcomes : (rating.ratings.map Rating.outcome).Perm outcomes
  /-- Ratings are verdicts. -/
  verdicts : ∀ v ∈ rating.ratings, Matching.verdict policy .none hints v.outcome = .ok v

theorem covers_of_result_rateRequest (hratable : isRatable policy hints = true) {outcomes : List (Outcome ω)}
    {res : Option (RequestRating ω)} (h : (rateRequest assignmentId requestId hints outcomes policy).result = .ok res) :
    ∃ rating, res = some rating ∧ rating.Covers policy hints assignmentId requestId outcomes := by
  obtain ⟨vs, hvs, rfl⟩ := (result_rateRequest_eq_ok_iff hratable).1 h
  have hne := ne_nil_of_isRatable hratable
  have hall : vs.map Rating.outcome = outcomes ∧ ∀ v ∈ vs, Matching.verdict policy .none hints v.outcome = .ok v := by
    clear h
    induction hvs with
    | nil => exact ⟨rfl, fun v hv => by cases hv⟩
    | @cons o v os vs hv _ ih =>
      have ho := Matching.outcome_of_verdict hne hv
      refine ⟨by rw [List.map_cons, ho, ih.1], fun w hw => ?_⟩
      rcases List.mem_cons.1 hw with rfl | hw
      · rwa [ho]
      · exact ih.2 w hw
  have hperm : (sortBy Rating.precedes (Rating.fullFirst vs)).Perm vs :=
    (sortBy_perm _ _).trans (Rating.fullFirst_perm vs)
  exact ⟨_, rfl, rfl, rfl, hall.1 ▸ hperm.map Rating.outcome, fun v hv => hall.2 v (hperm.mem_iff.1 hv)⟩

/-- The rating `v` is about the outcome `o`, and is the only one when `o` alone is rated. -/
structure RatedAlone (policy : Policy) (hints : List TutorHint) (assignmentId requestId : String) (o : Outcome ω)
    (v : Rating ω) : Prop where
  /-- It is about the outcome. -/
  outcome : v.outcome = o
  /-- It is the only one. -/
  alone : ∃ rating, (rateRequest assignmentId requestId hints [o] policy).result = .ok (some rating) ∧
    rating.ratings = [v]

theorem ratedAlone_of_verdict (hratable : isRatable policy hints = true) {o : Outcome ω} {v : Rating ω}
    (h : Matching.verdict policy .none hints o = .ok v) : RatedAlone policy hints assignmentId requestId o v := by
  have hone : (rateRequest assignmentId requestId hints [o] policy).result = .ok _ :=
    (result_rateRequest_eq_ok_iff hratable).2 ⟨[v], .cons h .nil, rfl⟩
  refine ⟨Matching.outcome_of_verdict (ne_nil_of_isRatable hratable) h, _, hone, ?_⟩
  show sortBy Rating.precedes (Rating.fullFirst [v]) = [v]
  exact List.perm_singleton.1 ((sortBy_perm _ _).trans (Rating.fullFirst_perm [v]))

/-- What a request's outcomes are rated is what each of them is rated alone, in the order of the hints that are named;
unmatched outcomes come last, and full matches in front of partial ones with the same key. Parts of the outcomes are
rated the same by themselves. -/
theorem rateRequest_independent {outcomes : List (Outcome ω)} {res : Option (RequestRating ω)}
    (hratable : isRatable policy hints = true)
    (hok : (rateRequest assignmentId requestId hints outcomes policy).result = .ok res) :
    ∃ rating verdicts, res = some rating ∧
      List.Forall₂ (RatedAlone policy hints assignmentId requestId) outcomes verdicts ∧
        IsStableSort Rating.listingKey verdicts rating.ratings ∧
          ∀ os₁ os₂, outcomes = os₁ ++ os₂ → ∃ rating₁ rating₂,
            (rateRequest assignmentId requestId hints os₁ policy).result = .ok (some rating₁) ∧
            (rateRequest assignmentId requestId hints os₂ policy).result = .ok (some rating₂) ∧
            IsStableSort Rating.listingKey (verdicts.take os₁.length) rating₁.ratings ∧
            IsStableSort Rating.listingKey (verdicts.drop os₁.length) rating₂.ratings := by
  obtain ⟨vs, hvs, rfl⟩ := (result_rateRequest_eq_ok_iff hratable).1 hok
  refine ⟨_, vs, rfl, hvs.imp fun _ _ => ratedAlone_of_verdict hratable, Rating.isStableSort_fullFirst vs, ?_⟩
  rintro os₁ os₂ rfl
  have hvs₁ := List.forall₂_take os₁.length hvs
  have hvs₂ := List.forall₂_drop os₁.length hvs
  rw [List.take_left] at hvs₁
  rw [List.drop_left] at hvs₂
  exact ⟨_, _, (result_rateRequest_eq_ok_iff hratable).2 ⟨_, hvs₁, rfl⟩,
    (result_rateRequest_eq_ok_iff hratable).2 ⟨_, hvs₂, rfl⟩, Rating.isStableSort_fullFirst _,
    Rating.isStableSort_fullFirst _⟩

end

/-- An outcome that does all that a hint says is listed before one that does a part of it, though it comes later. -/
theorem rateRequest_independent_of_two :
    let start : Tree := .node ⟨"script", none, some "s"⟩ [⟨"0", some (.leaf ⟨"move", none, some "m"⟩)⟩]
    let part : Tree := .node ⟨"script", none, some "s"⟩
      [⟨"0", some (.leaf ⟨"move", none, some "m"⟩)⟩, ⟨"1", some (.leaf ⟨"turn", none, none⟩)⟩]
    let tutor : Tree := .node ⟨"script", none, some "s"⟩
      [⟨"0", some (.leaf ⟨"move", none, some "m"⟩)⟩, ⟨"1", some (.leaf ⟨"turn", none, none⟩)⟩,
        ⟨"2", some (.leaf ⟨"say", none, none⟩)⟩]
    let hint : TutorHint :=
      { hintId := 1, requestId := "r", assignmentId := "a", year := "y", requestTree := some start,
        result := some tutor, validity := .multipleTutors }
    let first : Outcome Nat := { result := some part, assignmentId := "a", requestId := "r", weight := 1, id := .int 1 }
    let second : Outcome Nat := { first with result := some tutor, weight := 2, id := .int 2 }
    ∃ rating verdicts, (rateRequest "a" "r" [hint] [first, second] {}).result = .ok (some rating) ∧
      rating.ratings.map (fun v => (v.outcome.weight, v.matchType)) = [(2, .fullMatch), (1, .partialMatch)] ∧
        List.Forall₂ (RatedAlone {} [hint] "a" "r") [first, second] verdicts ∧
          IsStableSort Rating.listingKey verdicts rating.ratings := by
  intro start part tutor hint first second
  have hlisting : ((rateRequest "a" "r" [hint] [first, second] {}).result.toOption.map fun res =>
      res.map fun rating => rating.ratings.map fun v => (v.outcome.weight, v.matchType)) =
        some (some [(2, .fullMatch), (1, .partialMatch)]) := by
    decide +kernel
  obtain ⟨res, hres, hratings⟩ := Option.map_eq_some_iff.1 hlisting
  have hok := eq_ok_of_toOption hres
  obtain ⟨rating, verdicts, rfl, halone, hsorted, -⟩ := rateRequest_independent (by decide) hok
  exact ⟨rating, verdicts, hok, Option.some.inj hratings, halone, hsorted⟩

end HintQuality
