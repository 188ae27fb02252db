import HintQuality.Proofs.Grouping
import HintQuality.Proofs.Independence
import HintQuality.Rating.Run
import Mathlib.Data.List.Perm.Basic
/-!
# Which outcomes a run rates

A run rates the requests that some hint is valid enough for, in their order, and each against all outcomes with its
name (`ratesRequests_of_rate`). Outcomes are looked up by request alone, so one assignment can have the outcomes of
another rated (`rates_other_assignment`), and an outcome is rated once for every assignment that its request is rated
in. `rate_outcomes` says when all outcomes are rated for their own assignments, and that none is rated twice then.
-/

namespace HintQuality

/-! ## Counting by two sides -/

section Counting

variable {α β : Type}

theorem filter_append_flatMap_perm (q : β → Bool) (f : β → List β) : ∀ ys : List β,
    (ys.filter q ++ ys.flatMap f).Perm (ys.flatMap fun y => if q y then y :: f y else f y)
  | [] => .refl _
  | y :: ys => by
    have ih := filter_append_flatMap_perm q f ys
    rw [List.flatMap_cons, List.flatMap_cons]
    cases hq : q y with
    | true =>
      rw [List.filter_cons_of_pos hq, if_pos rfl, List.cons_append, List.cons_append]
      exact ((List.perm_append_comm_assoc _ _ _).trans (ih.append_left _)).cons y
    | false =>
      rw [List.filter_cons_of_neg (by simp [hq]), if_neg (by simp)]
      exact (List.perm_append_comm_assoc _ _ _).trans (ih.append_left _)

/-- Going through one list and collecting what fits in another gives each element of the other as often as something
fits it. -/
theorem flatMap_filter_perm (p : α → β → Bool) (ys : List β) : ∀ xs : List α,
    (xs.flatMap fun x => ys.filter (p x)).Perm (ys.flatMap fun y => List.replicate (xs.countP fun x => p x y) y)
  | [] => by simp
  | x :: xs => by
    rw [List.flatMap_cons]
    refine ((flatMap_filter_perm p ys xs).append_left _).trans ((filter_append_flatMap_perm _ _ _).trans ?_)
    refine List.Perm.of_eq (congrArg (ys.flatMap ·) (funext fun y => ?_))
    rw [List.countP_cons]
    by_cases hp : p x y
    · rw [if_pos hp, if_pos hp, List.replicate_succ]
    · rw [if_neg hp, if_neg hp, Nat.add_zero]

end Counting

/-! ## Requests that are rated -/

namespace GoldStandard

/-- The requests with some hint that is valid enough, in order. -/
def ratedRequests (g : GoldStandard) (policy : Policy) : List (String × String) :=
  g.requests.filter fun r => isRatable policy (g.validHints r.1 r.2)

/-- The number of assignments that have a request of the given name rated. -/
def timesRated (g : GoldStandard) (policy : Policy) (requestId : String) : Nat :=
  (g.ratedRequests policy).countP fun r => r.2 = requestId

/-- A request that is rated for one assignment alone is rated once at most. -/
theorem timesRated_le_one {g : GoldStandard} {policy : Policy} {a r : String}
    (hown : ∀ b, (b, r) ∈ g.ratedRequests policy → a = b) : g.timesRated policy r ≤ 1 := by
  have hnd : (g.ratedRequests policy).Nodup := (nodup_requests g).filter _
  have hsub : (g.ratedRequests policy).filter (fun p => p.2 = r) ⊆ [(a, r)] := by
    intro p hp
    rw [List.mem_filter, decide_eq_true_eq] at hp
    obtain ⟨b, r'⟩ := p
    obtain ⟨hmem, rfl⟩ := hp
    rw [hown b hmem]
    exact List.mem_singleton_self _
  rw [timesRated, List.countP_eq_length_filter]
  exact (List.subperm_of_subset (hnd.filter _) hsub).length_le

end GoldStandard

/-- The rating is of a request, against all outcomes with its name. -/
structure RatesRequest {ω : Type} (set : HintSet ω) (request : String × String) (rating : RequestRating ω) : Prop where
  /-- The assignment of the request. -/
  assignmentId : rating.assignmentId = request.1
  /-- The name of the request. -/
  requestId : rating.requestId = request.2
  /-- The outcomes with that name, whatever their assignment is. -/
  outcomes : (rating.ratings.map Rating.outcome).Perm (set.forRequest request.2)

theorem mem_forRequest {ω : Type} {set : HintSet ω} {r : String} {o : Outcome ω} :
    o ∈ set.forRequest r ↔ o ∈ set.outcomes ∧ o.requestId = r := by
  simp [HintSet.forRequest]

section

variable {ω : Type} {set : HintSet ω} {requests : List (String × String)} {ratings : List (RequestRating ω)}

theorem RatesRequest.mem_outcomes {r : String × String} {R : RequestRating ω} (h : RatesRequest set r R)
    {v : Rating ω} (hv : v ∈ R.ratings) : v.outcome ∈ set.forRequest r.2 :=
  h.outcomes.mem_iff.1 (List.mem_map_of_mem hv)

theorem keys_of_ratesRequests (h : List.Forall₂ (RatesRequest set) requests ratings) :
    ratings.map (fun R => (R.assignmentId, R.requestId)) = requests := by
  induction h with
  | nil => rfl
  | cons hr _ ih => rw [List.map_cons, ih, hr.assignmentId, hr.requestId]

theorem exists_request_of_ratesRequests (h : List.Forall₂ (RatesRequest set) requests ratings) {R : RequestRating ω}
    (hR : R ∈ ratings) : ∃ r ∈ requests, RatesRequest set r R := by
  induction h with
  | nil => cases hR
  | cons hr _ ih =>
    rcases List.mem_cons.1 hR with rfl | hR
    · exact ⟨_, List.mem_cons_self, hr⟩
    · obtain ⟨r, hmem, hr⟩ := ih hR
      exact ⟨r, List.mem_cons_of_mem _ hmem, hr⟩

theorem exists_rating_of_ratesRequests (h : List.Forall₂ (RatesRequest set) requests ratings) {r : String × String}
    (hr : r ∈ requests) : ∃ R ∈ ratings, RatesRequest set r R := by
  induction h with
  | nil => cases hr
  | cons hR _ ih =>
    rcases List.mem_cons.1 hr with rfl | hr
    · exact ⟨_, List.mem_cons_self, hR⟩
    · obtain ⟨R, hmem, hR⟩ := ih hr
      exact ⟨R, List.mem_cons_of_mem _ hmem, hR⟩

/-- An outcome is rated as often as its request is. -/
theorem outcomes_of_ratesRequests (h : List.Forall₂ (RatesRequest set) requests ratings) :
    (ratings.flatMap fun R => R.ratings.map Rating.outcome).Perm
      (set.outcomes.flatMap fun o => List.replicate (requests.countP fun r => r.2 = o.requestId) o) := by
  have hlookup : (ratings.flatMap fun R => R.ratings.map Rating.outcome).Perm
      (requests.flatMap fun r => set.outcomes.filter fun o => r.2 = o.requestId) := by
    induction h with
    | nil => exact .refl _
    | cons hr _ ih =>
      rw [List.flatMap_cons, List.flatMap_cons]
      refine List.Perm.append (hr.outcomes.trans (.of_eq ?_)) ih
      simp [HintSet.forRequest, eq_comm]
  exact hlookup.trans (flatMap_filter_perm (fun (r : String × String) (o : Outcome ω) => r.2 = o.requestId) _ _)

/-- Outcomes are rated for their own assignments alone if no other assignment has their requests rated. -/
theorem forOwn_iff (h : List.Forall₂ (RatesRequest set) requests ratings) :
    (∀ R ∈ ratings, ∀ v ∈ R.ratings, v.outcome.assignmentId = R.assignmentId) ↔
      ∀ o ∈ set.outcomes, ∀ a, (a, o.requestId) ∈ requests → o.assignmentId = a := by
  constructor
  · intro hall o ho a ha
    obtain ⟨R, hR, hrate⟩ := exists_rating_of_ratesRequests h ha
    have hmem : o ∈ R.ratings.map Rating.outcome := hrate.outcomes.mem_iff.2 (mem_forRequest.2 ⟨ho, rfl⟩)
    obtain ⟨v, hv, rfl⟩ := List.mem_map.1 hmem
    rw [hall R hR v hv, hrate.assignmentId]
  · intro hown R hR v hv
    obtain ⟨⟨a, r⟩, hr, hrate⟩ := exists_request_of_ratesRequests h hR
    obtain ⟨ho, rfl⟩ := mem_forRequest.1 (hrate.mem_outcomes hv)
    rw [hown v.outcome ho a hr, hrate.assignmentId]

end

section

variable {recording : Recording} {standard : GoldStandard} {set : HintSet Float} {policy : Policy}

theorem result_rateRequest_of_not_isRatable {ω : Type} {hints : List TutorHint} {outcomes : List (Outcome ω)}
    {a r : String} (h : isRatable policy hints = false) :
    (rateRequest a r hints outcomes policy).result = .ok none := by
  rw [rateRequest, h]
  rfl

/-- Rating the requests of an assignment rates those that some hint is valid enough for. -/
theorem ratesRequests_of_rateRequests {a : String} : ∀ {rs : List String} {ratings : List (RequestRating Float)},
    (rateRequests recording standard set policy a rs).result = .ok ratings →
      List.Forall₂ (RatesRequest set)
        ((rs.map (a, ·)).filter fun r => isRatable policy (standard.validHints r.1 r.2)) ratings
  | [], ratings, h => by
    rw [← Except.ok.inj h]
    exact .nil
  | r :: rs, ratings, h => by
    rw [rateRequests, Traced.result_bind] at h
    obtain ⟨res, hres, h⟩ := bind_eq_ok_iff.1 h
    rw [List.map_cons]
    cases hratable : isRatable policy (standard.validHints a r) with
    | false =>
      rw [result_rateRequest_of_not_isRatable hratable] at hres
      obtain rfl := Except.ok.inj hres
      rw [List.filter_cons_of_neg (by simp [hratable])]
      rw [Traced.result_bind] at h
      obtain ⟨-, -, h⟩ := bind_eq_ok_iff.1 h
      exact ratesRequests_of_rateRequests h
    | true =>
      obtain ⟨rating, rfl, hcov⟩ := covers_of_result_rateRequest hratable hres
      rw [List.filter_cons_of_pos (by exact hratable)]
      rw [Traced.result_bind] at h
      obtain ⟨-, -, h⟩ := bind_eq_ok_iff.1 h
      rw [Traced.result_bind] at h
      obtain ⟨rest, hrest, h⟩ := bind_eq_ok_iff.1 h
      rw [← Except.ok.inj h]
      exact .cons ⟨hcov.assignmentId, hcov.requestId, hcov.outcomes⟩ (ratesRequests_of_rateRequests hrest)

/-- Rating assignments adds to what is rated before the requests of each of them. -/
theorem ratesRequests_of_rateAssignments : ∀ {as : List String} {before all : List (RequestRating Float)},
    (rateAssignments recording standard set policy before as).result = .ok all →
      ∃ ratings, all = before ++ ratings ∧ List.Forall₂ (RatesRequest set)
        ((as.flatMap fun a => (standard.requestIds a).map (a, ·)).filter
          fun r => isRatable policy (standard.validHints r.1 r.2)) ratings
  | [], before, all, h => ⟨[], by rw [← Except.ok.inj h, List.append_nil], .nil⟩
  | a :: as, before, all, h => by
    rw [rateAssignments, Traced.result_bind] at h
    obtain ⟨-, -, h⟩ := bind_eq_ok_iff.1 h
    rw [Traced.result_bind] at h
    obtain ⟨-, -, h⟩ := bind_eq_ok_iff.1 h
    rw [Traced.result_bind] at h
    obtain ⟨ratings, hratings, h⟩ := bind_eq_ok_iff.1 h
    rw [Traced.result_bind] at h
    obtain ⟨-, -, h⟩ := bind_eq_ok_iff.1 h
    obtain ⟨rest, rfl, hrest⟩ := ratesRequests_of_rateAssignments h
    refine ⟨ratings ++ rest, List.append_assoc _ _ _, ?_⟩
    rw [List.flatMap_cons, List.filter_append]
    exact List.rel_append (ratesRequests_of_rateRequests hratings) hrest

/-- A run rates the requests that some hint is valid enough for, in their order. -/
theorem ratesRequests_of_rate {s : RatingSet Float} (h : (rate recording standard set policy).result = .ok s) :
    List.Forall₂ (RatesRequest set) (standard.ratedRequests policy) s.requests := by
  rw [rate, Traced.result_bind] at h
  obtain ⟨all, hall, h⟩ := bind_eq_ok_iff.1 h
  obtain ⟨ratings, rfl, hratings⟩ := ratesRequests_of_rateAssignments hall
  rw [← Except.ok.inj h]
  exact hratings

/-- All outcomes with the name of a request are rated for it, so that each is rated once for every assignment that has
its request rated. They are rated for their own assignments alone exactly if no other assignment has a request of
theirs rated, and then no outcome is rated twice. -/
theorem rate_outcomes {s : RatingSet Float} (h : (rate recording standard set policy).result = .ok s) :
    s.requests.map (fun R => (R.assignmentId, R.requestId)) = standard.ratedRequests policy ∧
      (∀ R ∈ s.requests, ∀ v ∈ R.ratings, v.outcome ∈ set.outcomes ∧ v.outcome.requestId = R.requestId) ∧
      (s.requests.flatMap fun R => R.ratings.map Rating.outcome).Perm
        (set.outcomes.flatMap fun o => List.replicate (standard.timesRated policy o.requestId) o) ∧
      ((∀ R ∈ s.requests, ∀ v ∈ R.ratings, v.outcome.assignmentId = R.assignmentId) ↔
        ∀ o ∈ set.outcomes, ∀ a, (a, o.requestId) ∈ standard.ratedRequests policy → o.assignmentId = a) ∧
      ((∀ R ∈ s.requests, ∀ v ∈ R.ratings, v.outcome.assignmentId = R.assignmentId) →
        ∀ o ∈ set.outcomes, standard.timesRated policy o.requestId ≤ 1) := by
  have hrates := ratesRequests_of_rate h
  have hown := forOwn_iff hrates
  refine ⟨keys_of_ratesRequests hrates, fun R hR v hv => ?_, outcomes_of_ratesRequests hrates, hown,
    fun hall o ho => GoldStandard.timesRated_le_one (hown.1 hall o ho)⟩
  obtain ⟨r, -, hrate⟩ := exists_request_of_ratesRequests hrates hR
  obtain ⟨ho, hreq⟩ := mem_forRequest.1 (hrate.mem_outcomes hv)
  exact ⟨ho, hreq.trans hrate.requestId.symm⟩

end

/-- Two assignments with requests of their own have their outcomes rated once each. -/
theorem rate_outcomes_of_two :
    let start : Tree := .leaf ⟨"script", none, some "s"⟩
    let first : TutorHint :=
      { hintId := 1, requestId := "r1", assignmentId := "a1", year := "y", requestTree := some start,
        result := some start, validity := .consensus }
    let second : TutorHint := { first with hintId := 2, requestId := "r2", assignmentId := "a2" }
    let o₁ : Outcome Float :=
      { result := some start, assignmentId := "a1", requestId := "r1", weight := 1.0, id := .int 1 }
    let o₂ : Outcome Float := { o₁ with requestId := "r2", assignmentId := "a2", id := .int 2 }
    ∃ s, (rate {} ⟨[first, second]⟩ ⟨"alg", [o₂, o₁]⟩ {}).result = .ok s ∧
      s.requests.map (fun R => (R.assignmentId, R.requestId)) = [("a1", "r1"), ("a2", "r2")] ∧
        (s.requests.flatMap fun R => R.ratings.map Rating.outcome).Perm [o₂, o₁] ∧
          ∀ R ∈ s.requests, ∀ v ∈ R.ratings, v.outcome.assignmentId = R.assignmentId := by
  intro start first second o₁ o₂
  have hsome : (rate {} ⟨[first, second]⟩ ⟨"alg", [o₂, o₁]⟩ {}).result.toOption.isSome = true := by
    decide +kernel
  obtain ⟨s, hs⟩ := Option.isSome_iff_exists.1 hsome
  have hok := eq_ok_of_toOption hs
  have hrated : GoldStandard.ratedRequests ⟨[first, second]⟩ {} = [("a1", "r1"), ("a2", "r2")] := by
    decide +kernel
  obtain ⟨hkeys, -, hperm, hown, -⟩ := rate_outcomes hok
  refine ⟨s, hok, hkeys.trans hrated, ?_, hown.2 ?_⟩
  · simpa [GoldStandard.timesRated, hrated, o₁, o₂] using hperm
  · rw [hrated]
    simp [o₁, o₂]

/-- Where two assignments have requests of one name, an outcome for the first is rated for the second as well. -/
theorem rates_other_assignment :
    let start : Tree := .leaf ⟨"script", none, some "s"⟩
    let first : TutorHint :=
      { hintId := 1, requestId := "r", assignmentId := "a1", year := "y", requestTree := some start,
        result := some start, validity := .consensus }
    let second : TutorHint := { first with hintId := 2, assignmentId := "a2" }
    let o : Outcome Float :=
      { result := some start, assignmentId := "a1", requestId := "r", weight := 1.0, id := .int 1 }
    ∃ s, (rate {} ⟨[first, second]⟩ ⟨"alg", [o]⟩ {}).result = .ok s ∧
      ¬(∀ R ∈ s.requests, ∀ v ∈ R.ratings,
        v.outcome.assignmentId = R.assignmentId ∧ v.outcome.requestId = R.requestId) ∧
      (s.requests.flatMap fun R => R.ratings.map Rating.outcome).length = 2 := by
  intro start first second o
  have hrated : (rate {} ⟨[first, second]⟩ ⟨"alg", [o]⟩ {}).result.toOption.map (fun s =>
      s.requests.map fun R => (R.assignmentId, R.ratings.map fun v => v.outcome.assignmentId)) =
        some [("a1", ["a1"]), ("a2", ["a1"])] := by
    decide +kernel
  obtain ⟨s, hs, hmap⟩ := Option.map_eq_some_iff.1 hrated
  obtain ⟨R₁, rest, hreq, hR₁, hrest⟩ := List.map_eq_cons_iff.1 hmap
  obtain ⟨R₂, rest, rfl, hR₂, hrest⟩ := List.map_eq_cons_iff.1 hrest
  obtain rfl := List.map_eq_nil_iff.1 hrest
  obtain ⟨-, hv₁⟩ := Prod.mk.inj hR₁
  obtain ⟨ha₂, hv₂⟩ := Prod.mk.inj hR₂
  obtain ⟨v₁, hr₁, -⟩ := List.map_eq_singleton_iff.1 hv₁
  obtain ⟨v₂, hr₂, ho₂⟩ := List.map_eq_singleton_iff.1 hv₂
  refine ⟨s, eq_ok_of_toOption hs, fun hall => ?_, by simp [hreq, hr₁, hr₂]⟩
  have hsame := (hall R₂ (by simp [hreq]) v₂ (by simp [hr₂])).1
  rw [ho₂, ha₂] at hsame
  exact absurd hsame (by decide)

end HintQuality
