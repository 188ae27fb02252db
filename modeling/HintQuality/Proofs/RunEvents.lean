import HintQuality.Dataset.Run
import HintQuality.Proofs.Attribution
/-!
# What a run records

A run records each assignment when it starts, each of its requests as skipped or rated, and the means of the assignment
if any request was rated (`assignmentEvents`). Every request is rated as it would be by itself (`ratingOf`), so that the
ratings of the run are those of the requests in order. The means are recorded before later assignments are rated, which
changes nothing, since later requests belong to other assignments; they are the means that the run gives in the end
(`rate_events`).
-/

namespace HintQuality

/-! ## Events -/

namespace RunLog

/-- An event that carries a context along with its own data. -/
def eventOf (context : Json.Fields) (type : String) (data : Json.Fields) : Event :=
  { type := type, data := context.putAll data }

/-- The fields that name a request. -/
def requestFields (assignmentId requestId : String) : Json.Fields :=
  [("assignment_id", .str assignmentId), ("request_id", .str requestId)]

/-- The fields of a rated request: its name, the number of outcomes, and its scores. -/
def ratedFields (r : RequestRating Float) : Json.Fields :=
  requestFields r.assignmentId r.requestId ++ ("outcomes", .int r.ratings.length) ::
    scoreFields r.validityTable (r.priorityScore false) (r.priorityScore true)

/-- The mean scores of an assignment. -/
def meanFields (s : RatingSet Float) (assignmentId : String) : Json.Fields :=
  scoreFields (s.validityMeans assignmentId) (s.priorityMean false assignmentId) (s.priorityMean true assignmentId)

/-- The record of a rated request. -/
def ratedEvent (context : Json.Fields) (r : RequestRating Float) : Event :=
  eventOf context "RequestRated" (ratedFields r)

/-- The record of the mean scores of an assignment. -/
def summaryEvent (context : Json.Fields) (s : RatingSet Float) (assignmentId : String) : Event :=
  eventOf context "AssignmentSummary" (("assignment_id", .str assignmentId) :: meanFields s assignmentId)

section

variable (context : Json.Fields) (standard : GoldStandard) (set : HintSet Float) (policy : Policy)

/-- The rating of a request by itself, if it is rated. -/
def ratingOf (request : String × String) : Option (RequestRating Float) :=
  (rateRequest request.1 request.2 (standard.validHints request.1 request.2) (set.forRequest request.2)
    policy).result.toOption.join

/-- What is recorded for a request: that it is skipped, or that it is rated, after a note if it has no outcomes. -/
def requestEvents (assignmentId requestId : String) : List Event :=
  match ratingOf standard set policy (assignmentId, requestId) with
  | none => [eventOf context "RequestSkipped" (requestFields assignmentId requestId)]
  | some r =>
    (if (set.forRequest requestId).isEmpty then
      [eventOf context "NoHintsGenerated" (requestFields assignmentId requestId)]
    else []) ++ [ratedEvent context r]

/-- What is recorded for an assignment: its start, its requests in order, and its means in `s` if it is rated there. -/
def assignmentEvents (s : RatingSet Float) (assignmentId : String) : List Event :=
  eventOf context "AssignmentStarted" [("assignment_id", .str assignmentId)] ::
    ((standard.requestIds assignmentId).flatMap (requestEvents context standard set policy assignmentId) ++
      if (s.forAssignment assignmentId).isEmpty then [] else [summaryEvent context s assignmentId])

end

end RunLog

/-- What a run that gives ratings records, where every event carries a context. -/
structure RunLog (context : Json.Fields) (standard : GoldStandard) (set : HintSet Float) (policy : Policy)
    (s : RatingSet Float) (log : List Event) : Prop where
  /-- Assignments, and the requests of each, are sorted, each listed once. -/
  sorted : standard.assignmentIds.Pairwise (· < ·) ∧ ∀ a, (standard.requestIds a).Pairwise (· < ·)
  /-- The requests that are rated are those with a hint that is valid enough. -/
  rated : ∀ p ∈ standard.requests, (RunLog.ratingOf standard set policy p).isSome =
    isRatable policy (standard.validHints p.1 p.2)
  /-- The ratings are those of the requests by themselves, in order. -/
  requests : s.requests = standard.requests.filterMap (RunLog.ratingOf standard set policy)
  /-- The events are those of the assignments, in order, with the means that all ratings give. -/
  events : log = standard.assignmentIds.flatMap (RunLog.assignmentEvents context standard set policy s)
  /-- Every rating has its record, in order. -/
  ratedEvents : log.filter (·.type = "RequestRated") = s.requests.map (RunLog.ratedEvent context)
  /-- Every assignment that is rated has its record, in order. -/
  summaryEvents : log.filter (·.type = "AssignmentSummary") = s.assignmentIds.map (RunLog.summaryEvent context s)
  /-- The means that are recorded are those that the run gives. -/
  scores : Dataset.algorithmScores s = .obj (s.assignmentIds.map fun a => (a, .obj (RunLog.meanFields s a)))

/-! ## One request -/

section

variable {ω : Type} {policy : Policy} {hints : List TutorHint}

theorem events_settlePartial : ∀ os : List (Outcome ω), Traced.events (settlePartial policy hints os).effects = []
  | [] => rfl
  | o :: os => by
    rw [settlePartial]
    refine Traced.events_bind_eq_nil rfl fun overlap => Traced.events_bind_eq_nil ?_ fun _ => ?_
    · cases overlap.remark o <;> rfl
    · exact Traced.events_bind_eq_nil (events_settlePartial os) fun _ => rfl

/-- Rating a request records nothing by itself. -/
theorem events_rateRequest (a r : String) (outcomes : List (Outcome ω)) :
    Traced.events (rateRequest a r hints outcomes policy).effects = [] := by
  rw [rateRequest]
  split
  · rfl
  · split
    · refine Traced.events_bind_eq_nil rfl fun _ => Traced.events_bind_eq_nil rfl fun x => ?_
      exact Traced.events_bind_eq_nil (events_settlePartial x.2) fun _ => rfl
    · refine Traced.events_bind_eq_nil rfl fun x => ?_
      exact Traced.events_bind_eq_nil (events_settlePartial x.2) fun _ => rfl

end

namespace RunLog

variable {debug : Bool} {context : Json.Fields} {standard : GoldStandard} {set : HintSet Float} {policy : Policy}

/-- The recording of a run whose events carry a context. -/
def recording (debug : Bool) (context : Json.Fields) : Recording :=
  { debug := debug, context := some context }

/-- A rated request is recorded after a note, if nothing was rated, and a report for the log, if it is wanted. -/
theorem recordRequest_eq (hints : List TutorHint) (r : RequestRating Float) :
    recordRequest (recording debug context) hints r =
      ((if r.ratings.isEmpty then
          Traced.event (eventOf context "NoHintsGenerated" (requestFields r.assignmentId r.requestId))
        else pure ()) >>= fun _ =>
        (if debug then Traced.lift (r.report hints) >>= fun text => Traced.log .info ("\n" ++ text)
        else pure ()) >>= fun _ =>
          Traced.log .info r.summary >>= fun _ => Traced.event (ratedEvent context r)) := by
  unfold recordRequest
  cases r.ratings.isEmpty <;> cases debug <;> cases r.report hints <;> rfl

theorem events_recordRequest {hints : List TutorHint} {r : RequestRating Float}
    (h : (recordRequest (recording debug context) hints r).result = .ok ()) :
    Traced.events (recordRequest (recording debug context) hints r).effects =
      (if r.ratings.isEmpty then [eventOf context "NoHintsGenerated" (requestFields r.assignmentId r.requestId)]
      else []) ++ [ratedEvent context r] := by
  rw [recordRequest_eq] at h ⊢
  obtain ⟨-, -, h, hnote⟩ := Traced.exists_of_bind h
  obtain ⟨-, -, -, hreport⟩ := Traced.exists_of_bind h
  have hquiet : Traced.events (if debug then Traced.lift (r.report hints) >>= fun text =>
      Traced.log .info ("\n" ++ text) else pure ()).effects = [] := by
    split
    · exact Traced.events_bind_eq_nil rfl fun _ => rfl
    · rfl
  rw [hnote, hreport, hquiet, List.nil_append]
  congr 1
  split <;> rfl

theorem events_recordAssignment (s : RatingSet Float) (a : String) :
    Traced.events (recordAssignment (recording debug context) s a).effects =
      if (s.forAssignment a).isEmpty then [] else [summaryEvent context s a] := by
  unfold recordAssignment RatingSet.summary?
  cases (s.forAssignment a).isEmpty <;> rfl

/-! ## The requests of an assignment -/

theorem ratingOf_eq {a r : String} {res : Option (RequestRating Float)}
    (h : (rateRequest a r (standard.validHints a r) (set.forRequest r) policy).result = .ok res) :
    ratingOf standard set policy (a, r) = res := by
  rw [ratingOf, h]
  rfl

/-- A request is skipped if no hint is valid enough, and rated against its outcomes if one is. -/
theorem ratingOf_cases {a r : String} {res : Option (RequestRating Float)}
    (h : (rateRequest a r (standard.validHints a r) (set.forRequest r) policy).result = .ok res) :
    (res = none ∧ isRatable policy (standard.validHints a r) = false) ∨
      ∃ R, res = some R ∧ isRatable policy (standard.validHints a r) = true ∧ RatesRequest set (a, r) R := by
  cases hratable : isRatable policy (standard.validHints a r) with
  | false =>
    rw [result_rateRequest_of_not_isRatable hratable] at h
    exact .inl ⟨(Except.ok.inj h).symm, rfl⟩
  | true =>
    obtain ⟨R, rfl, hcov⟩ := covers_of_result_rateRequest hratable h
    exact .inr ⟨R, rfl, rfl, ⟨hcov.assignmentId, hcov.requestId, hcov.outcomes⟩⟩

theorem ratesRequest_of_ratingOf {p : String × String} {R : RequestRating Float}
    (h : ratingOf standard set policy p = some R) : RatesRequest set p R := by
  obtain ⟨a, r⟩ := p
  have hres := eq_ok_of_toOption (Option.join_eq_some_iff.1 h)
  rcases ratingOf_cases hres with ⟨hnone, -⟩ | ⟨R', hsome, -, hrates⟩
  · cases hnone
  · rwa [Option.some.inj hsome]

theorem isEmpty_of_ratesRequest {p : String × String} {R : RequestRating Float} (h : RatesRequest set p R) :
    R.ratings.isEmpty = (set.forRequest p.2).isEmpty := by
  have hlength := h.outcomes.length_eq
  rw [List.length_map] at hlength
  rw [Bool.eq_iff_iff, List.isEmpty_iff_length_eq_zero, List.isEmpty_iff_length_eq_zero, hlength]

/-- Rating the requests of an assignment rates each as by itself and records it. -/
theorem events_rateRequests {a : String} : ∀ {rs : List String} {ratings : List (RequestRating Float)},
    (rateRequests (recording debug context) standard set policy a rs).result = .ok ratings →
      ratings = rs.filterMap (fun r => ratingOf standard set policy (a, r)) ∧
      (∀ r ∈ rs, (ratingOf standard set policy (a, r)).isSome = isRatable policy (standard.validHints a r)) ∧
      Traced.events (rateRequests (recording debug context) standard set policy a rs).effects =
        rs.flatMap (requestEvents context standard set policy a)
  | [], ratings, h => ⟨(Except.ok.inj h).symm, by simp, rfl⟩
  | r :: rs, ratings, h => by
    rw [rateRequests] at h ⊢
    obtain ⟨res, hres, h, hevents⟩ := Traced.exists_of_bind h
    rw [hevents, events_rateRequest, List.nil_append, List.filterMap_cons, List.flatMap_cons, List.forall_mem_cons,
      requestEvents, ratingOf_eq hres]
    rcases ratingOf_cases hres with ⟨rfl, hratable⟩ | ⟨R, rfl, hratable, hrates⟩
    · obtain ⟨-, -, h, hskip⟩ := Traced.exists_of_bind h
      obtain ⟨hratings, hsome, hrest⟩ := events_rateRequests h
      exact ⟨hratings, ⟨hratable.symm, hsome⟩, hskip.trans (congrArg (_ ++ ·) hrest)⟩
    · obtain ⟨⟨⟩, hrecord, h, hrated⟩ := Traced.exists_of_bind h
      obtain ⟨rest, hrest, h, hlater⟩ := Traced.exists_of_bind h
      obtain ⟨hratings, hsome, hevents⟩ := events_rateRequests hrest
      refine ⟨?_, ⟨hratable.symm, hsome⟩, ?_⟩
      · rw [← Except.ok.inj h, ← hratings]
      · refine hrated.trans ?_
        rw [events_recordRequest hrecord, isEmpty_of_ratesRequest hrates, hrates.assignmentId, hrates.requestId]
        exact congrArg (_ ++ ·) (hlater.trans ((List.append_nil _).trans hevents))

/-! ## The assignments of a run -/

/-- What is recorded for an assignment depends only on the ratings of its own requests. -/
theorem assignmentEvents_congr {s s' : RatingSet Float} {a : String} (h : s.forAssignment a = s'.forAssignment a) :
    assignmentEvents context standard set policy s a = assignmentEvents context standard set policy s' a := by
  have hmeans : meanFields s a = meanFields s' a := by
    simp only [meanFields, RatingSet.validityMeans, RatingSet.priorityMean, h]
  simp only [assignmentEvents, summaryEvent, h, hmeans]

/-- Ratings of other assignments are none of an assignment. -/
theorem forAssignment_append {name : String} {ratings later : List (RequestRating Float)} {a : String}
    (h : ∀ R ∈ later, R.assignmentId ≠ a) :
    RatingSet.forAssignment ⟨name, ratings⟩ a = RatingSet.forAssignment ⟨name, ratings ++ later⟩ a := by
  have hnone : later.filter (fun R => decide (R.assignmentId = a)) = [] :=
    List.filter_eq_nil_iff.2 fun R hR => by simpa using h R hR
  rw [RatingSet.forAssignment, RatingSet.forAssignment, List.filter_append, hnone, List.append_nil]

/-- The ratings of the requests of some assignments, in order. -/
def ratingsOf (standard : GoldStandard) (set : HintSet Float) (policy : Policy) (as : List String) :
    List (RequestRating Float) :=
  as.flatMap fun a => (standard.requestIds a).filterMap fun r => ratingOf standard set policy (a, r)

theorem mem_of_mem_ratingsOf {as : List String} {R : RequestRating Float}
    (h : R ∈ ratingsOf standard set policy as) : R.assignmentId ∈ as := by
  obtain ⟨a, ha, hR⟩ := List.mem_flatMap.1 h
  obtain ⟨r, -, hr⟩ := List.mem_filterMap.1 hR
  rwa [(ratesRequest_of_ratingOf hr).assignmentId]

theorem ratingsOf_eq : ratingsOf standard set policy standard.assignmentIds =
    standard.requests.filterMap (ratingOf standard set policy) := by
  rw [ratingsOf, GoldStandard.requests, List.filterMap_flatMap]
  refine congrArg (List.flatMap · _) (funext fun a => ?_)
  rw [List.filterMap_map]
  rfl

/-- Rating assignments adds the ratings of their requests to those before, and records every assignment with the means
that all ratings give, since the assignments after it add none to it. -/
theorem events_rateAssignments : ∀ {as : List String} {before all : List (RequestRating Float)}, as.Nodup →
    (rateAssignments (recording debug context) standard set policy before as).result = .ok all →
      all = before ++ ratingsOf standard set policy as ∧
      (∀ a ∈ as, ∀ r ∈ standard.requestIds a,
        (ratingOf standard set policy (a, r)).isSome = isRatable policy (standard.validHints a r)) ∧
      Traced.events (rateAssignments (recording debug context) standard set policy before as).effects =
        as.flatMap (assignmentEvents context standard set policy ⟨set.name, all⟩)
  | [], before, all, _, h => ⟨(Except.ok.inj h).symm.trans (List.append_nil _).symm, by simp, rfl⟩
  | a :: as, before, all, hnd, h => by
    rw [rateAssignments] at h ⊢
    obtain ⟨ha, hnd⟩ := List.nodup_cons.1 hnd
    obtain ⟨⟨⟩, -, h, hline⟩ := Traced.exists_of_bind h
    obtain ⟨⟨⟩, -, h, hstarted⟩ := Traced.exists_of_bind h
    obtain ⟨ratings, hrequests, h, hrated⟩ := Traced.exists_of_bind h
    obtain ⟨⟨⟩, -, h, hmeans⟩ := Traced.exists_of_bind h
    obtain ⟨rfl, hsome, hrequests⟩ := events_rateRequests hrequests
    obtain ⟨rfl, hsomes, hlater⟩ := events_rateAssignments hnd h
    refine ⟨List.append_assoc _ _ _, List.forall_mem_cons.2 ⟨hsome, hsomes⟩, ?_⟩
    -- what the later assignments add does not change the means of this one
    have hown : ∀ R ∈ ratingsOf standard set policy as, R.assignmentId ≠ a := by
      rintro R hR rfl
      exact ha (mem_of_mem_ratingsOf hR)
    rw [List.flatMap_cons, ← assignmentEvents_congr (forAssignment_append hown), hline, hstarted, hrated, hmeans,
      hrequests, hlater, events_recordAssignment]
    simp only [assignmentEvents, List.cons_append, List.append_assoc]
    rfl

/-! ## Whole runs -/

/-- Of the records of an assignment, those of its ratings. -/
theorem filter_ratedEvents (s : RatingSet Float) (a : String) :
    (assignmentEvents context standard set policy s a).filter (·.type = "RequestRated") =
      ((standard.requestIds a).filterMap fun r => ratingOf standard set policy (a, r)).map (ratedEvent context) := by
  have hrequest : ∀ r, (requestEvents context standard set policy a r).filter (·.type = "RequestRated") =
      ((ratingOf standard set policy (a, r)).map (ratedEvent context)).toList := by
    intro r
    unfold requestEvents
    cases ratingOf standard set policy (a, r) with
    | none => rfl
    | some R => cases (set.forRequest r).isEmpty <;> rfl
  have hmeans : (if (s.forAssignment a).isEmpty then [] else [summaryEvent context s a]).filter
      (fun e => decide (e.type = "RequestRated")) = [] := by
    cases (s.forAssignment a).isEmpty <;> rfl
  rw [assignmentEvents, List.filter_cons_of_neg (by simp [eventOf]), List.filter_append, hmeans, List.append_nil,
    List.filter_flatMap, List.map_filterMap, List.filterMap_eq_flatMap_toList]
  exact congrArg (List.flatMap · _) (funext hrequest)

/-- Of the records of an assignment, that of its means. -/
theorem filter_summaryEvents (s : RatingSet Float) (a : String) :
    (assignmentEvents context standard set policy s a).filter (·.type = "AssignmentSummary") =
      if (s.forAssignment a).isEmpty then [] else [summaryEvent context s a] := by
  have hrequest : ∀ r, (requestEvents context standard set policy a r).filter (·.type = "AssignmentSummary") = [] := by
    intro r
    unfold requestEvents
    cases ratingOf standard set policy (a, r) with
    | none => rfl
    | some R => cases (set.forRequest r).isEmpty <;> rfl
  have hmeans : (if (s.forAssignment a).isEmpty then [] else [summaryEvent context s a]).filter
      (fun e => decide (e.type = "AssignmentSummary")) =
        if (s.forAssignment a).isEmpty then [] else [summaryEvent context s a] := by
    cases (s.forAssignment a).isEmpty <;> rfl
  rw [assignmentEvents, List.filter_cons_of_neg (by simp [eventOf]), List.filter_append, hmeans, List.filter_flatMap,
    List.flatMap_eq_nil_iff.2 fun r _ => hrequest r, List.nil_append]

/-- The assignments that are rated are those of the standard that have ratings. -/
theorem assignmentIds_eq {s : RatingSet Float} (h : ∀ R ∈ s.requests, R.assignmentId ∈ standard.assignmentIds) :
    s.assignmentIds = standard.assignmentIds.filter fun a => !(s.forAssignment a).isEmpty := by
  refine (pairwise_lt_sortedTexts _).eq_of_mem_iff ((pairwise_lt_sortedTexts _).filter _) fun a => ?_
  rw [mem_sortedTexts, List.mem_filter, List.mem_map]
  constructor
  · rintro ⟨R, hR, rfl⟩
    refine ⟨h R hR, ?_⟩
    have hmem : R ∈ s.forAssignment R.assignmentId := List.mem_filter.2 ⟨hR, decide_eq_true rfl⟩
    rw [List.isEmpty_eq_false_iff.2 (List.ne_nil_of_mem hmem)]
    rfl
  · rintro ⟨-, hne⟩
    obtain ⟨R, hR⟩ := List.exists_mem_of_ne_nil (s.forAssignment a) (by simpa using hne)
    obtain ⟨hR, ha⟩ := List.mem_filter.1 hR
    exact ⟨R, hR, of_decide_eq_true ha⟩

/-- The records of ratings are those of the ratings of all requests. -/
theorem ratedEvents_eq (s : RatingSet Float) :
    (standard.assignmentIds.flatMap (assignmentEvents context standard set policy s)).filter
      (·.type = "RequestRated") =
        (ratingsOf standard set policy standard.assignmentIds).map (ratedEvent context) := by
  rw [List.filter_flatMap, ratingsOf, List.map_flatMap]
  exact congrArg (List.flatMap · _) (funext fun a => filter_ratedEvents s a)

/-- The records of means are those of the assignments that have ratings. -/
theorem summaryEvents_eq {s : RatingSet Float} (h : ∀ R ∈ s.requests, R.assignmentId ∈ standard.assignmentIds) :
    (standard.assignmentIds.flatMap (assignmentEvents context standard set policy s)).filter
      (·.type = "AssignmentSummary") = s.assignmentIds.map (summaryEvent context s) := by
  rw [assignmentIds_eq h, List.filter_flatMap, ← List.filterMap_eq_map, List.filterMap_filter,
    List.filterMap_eq_flatMap_toList]
  refine congrArg (List.flatMap · _) (funext fun a => ?_)
  rw [filter_summaryEvents]
  cases (s.forAssignment a).isEmpty <;> rfl

end RunLog

variable {standard : GoldStandard} {set : HintSet Float} {policy : Policy}

/-- A run that gives ratings records every assignment in order, with its requests as they are rated by themselves and
with the means that the run gives in the end. -/
theorem rate_events {debug : Bool} {context : Json.Fields} {s : RatingSet Float}
    (h : (rate { debug := debug, context := some context } standard set policy).result = .ok s) :
    RunLog (context.putAll [("algorithm", .str set.name)]) standard set policy s
      (Traced.events (rate { debug := debug, context := some context } standard set policy).effects) := by
  have hnd : standard.assignmentIds.Nodup := nodup_sortedTexts _
  unfold rate at h ⊢
  obtain ⟨all, hall, h, hevents⟩ := Traced.exists_of_bind h
  obtain ⟨rfl, hsome, hrun⟩ := RunLog.events_rateAssignments hnd hall
  obtain rfl := Except.ok.inj h
  rw [hevents.trans ((List.append_nil _).trans hrun)]
  refine ⟨⟨pairwise_lt_sortedTexts _, fun _ => pairwise_lt_sortedTexts _⟩, fun p hp => ?_, RunLog.ratingsOf_eq, rfl,
    RunLog.ratedEvents_eq _, RunLog.summaryEvents_eq fun _ => RunLog.mem_of_mem_ratingsOf, rfl⟩
  obtain ⟨a, ha, hp⟩ := List.mem_flatMap.1 hp
  obtain ⟨r, hr, rfl⟩ := List.mem_map.1 hp
  exact hsome a ha r hr

/-- Two assignments: the first with a rated request and one that no hint is valid enough for, the second with a request
that has no outcomes. -/
theorem rate_events_of_two :
    let start : Tree := .leaf ⟨"script", none, some "s"⟩
    let first : TutorHint :=
      { hintId := 1, requestId := "r1", assignmentId := "a1", year := "y", requestTree := some start,
        result := some start, validity := .consensus }
    let second : TutorHint := { first with hintId := 2, requestId := "r2", validity := .noTutors }
    let third : TutorHint := { first with hintId := 3, requestId := "r3", assignmentId := "a2" }
    let o : Outcome Float :=
      { result := some start, assignmentId := "a1", requestId := "r1", weight := 1.0, id := .int 1 }
    let run := rate { context := some [("seed", .int 7)] } ⟨[third, second, first]⟩ ⟨"alg", [o]⟩ {}
    ∃ s, run.result = .ok s ∧
      RunLog [("seed", .int 7), ("algorithm", .str "alg")] ⟨[third, second, first]⟩ ⟨"alg", [o]⟩ {} s
        (Traced.events run.effects) ∧
      (Traced.events run.effects).map Event.type = ["AssignmentStarted", "RequestRated", "RequestSkipped",
        "AssignmentSummary", "AssignmentStarted", "NoHintsGenerated", "RequestRated", "AssignmentSummary"] := by
  intro start first second third o run
  have hsome : run.result.toOption.isSome = true := by decide +kernel
  obtain ⟨s, hs⟩ := Option.isSome_iff_exists.1 hsome
  have hok := eq_ok_of_toOption hs
  exact ⟨s, hok, rate_events hok, by decide +kernel⟩

end HintQuality
