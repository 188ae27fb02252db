import HintQuality.Proofs.Computations
import HintQuality.Proofs.Recovery
import HintQuality.Rating.Request
/-!
# Contradictory ratings

When a request is rated, edits of an outcome that equal those of a hint without a full match count as a contradiction
and end the rating. They are not excluded: edits leave the relation labels of nodes in place open, and normal forms
are compared with them. `rateRequest_inconsistent_iff` says exactly which outcomes end a rating, and
`rateRequest_inconsistent_relabelled` that one does.
-/

namespace HintQuality

variable {ω : Type}

namespace Matching

/-! ## Candidates -/

theorem hint_mem_of_candidate {hints : List TutorHint} {c : Candidate} (h : c ∈ sortCandidates hints) :
    c.hint ∈ hints := by
  rw [sortCandidates, mem_sortBy, candidates, List.mem_map] at h
  obtain ⟨⟨g, i⟩, hg, rfl⟩ := h
  exact List.fst_mem_of_mem_zipIdx hg

theorem exists_candidate {hints : List TutorHint} {h : TutorHint} (hh : h ∈ hints) :
    ∃ c ∈ sortCandidates hints, c.hint = h := by
  obtain ⟨i, hi⟩ := List.mem_iff_getElem?.1 hh
  refine ⟨⟨i, h⟩, ?_, rfl⟩
  rw [sortCandidates, mem_sortBy, candidates, List.mem_map]
  exact ⟨(h, i), List.mk_mem_zipIdx_iff_getElem?.2 hi, rfl⟩

theorem result_of_candidate {hints : List TutorHint} (hhints : ∀ h ∈ hints, ∃ u, h.result = some u) :
    ∀ c ∈ sortCandidates hints, ∃ u, c.hint.result = some u :=
  fun c hc => hhints c.hint (hint_mem_of_candidate hc)

variable {policy : Policy} {start : Tree} {hints : List TutorHint}

/-! ## Full matches -/

/-- Whether a hint leads to the given normal form. -/
def leadsTo (policy : Policy) (start target : Tree) (c : Candidate) : Bool :=
  c.hint.result.any fun u => target = normalForm policy start u

theorem firstEqual_eq {style : ColorStyle} {t : Tree} {cs : List Candidate}
    (h : ∀ c ∈ cs, ∃ u, c.hint.result = some u) : firstEqual policy style start t cs =
      .ok (cs.find? (leadsTo policy start (normalForm policy start t))) := by
  induction cs with
  | nil => rfl
  | cons c cs ih =>
    obtain ⟨u, hu⟩ := h c List.mem_cons_self
    have hlead : leadsTo policy start (normalForm policy start t) c =
        decide (normalForm policy start t = normalForm policy start u) := by
      rw [leadsTo, hu, Option.any_some]
    rw [firstEqual_cons hu]
    by_cases he : normalForm policy start t = normalForm policy start u
    · rw [if_pos he, List.find?_cons_of_pos (by rw [hlead]; exact decide_eq_true he)]
    · rw [if_neg he, List.find?_cons_of_neg (by rw [hlead]; exact of_decide_eq_false (by simp [he]))]
      exact ih fun c hc => h c (List.mem_cons_of_mem _ hc)

/-- The first hint is for the request that all hints are for. -/
theorem head?_requestTree {request : Option Tree} (hne : hints ≠ []) (hrequest : ∀ h ∈ hints, h.requestTree = request) :
    hints.head?.bind TutorHint.requestTree = request := by
  cases hints with
  | nil => exact absurd rfl hne
  | cons first rest => exact hrequest first List.mem_cons_self

/-- The full match of an outcome is the first hint of its normal form, relative to the first hint's request. -/
theorem full_eq_of_head? {o : Outcome ω} {t : Tree} (hstart : hints.head?.bind TutorHint.requestTree = some start)
    (hhints : ∀ h ∈ hints, ∃ u, h.result = some u) (ho : o.result = some t) : full policy hints o =
      .ok (((sortCandidates hints).find? (leadsTo policy start (normalForm policy start t))).map
        fun c => { outcome := o, candidate := some c, matchType := .fullMatch }) := by
  cases hints with
  | nil => cases hstart
  | cons first rest =>
    have hfirst : firstEqual policy .none start t (sortCandidates (first :: rest)) =
        pure ((sortCandidates (first :: rest)).find? (leadsTo policy start (normalForm policy start t))) :=
      firstEqual_eq (result_of_candidate hhints)
    have hrequest : first.requestTree = some start := hstart
    rw [full, ho, hrequest]
    simp only [need_some, pure_bind, hfirst]
    cases (sortCandidates (first :: rest)).find? (leadsTo policy start (normalForm policy start t)) <;> rfl

/-- The full match of an outcome is the first hint of its normal form. -/
theorem full_eq {o : Outcome ω} {t : Tree} (hne : hints ≠ []) (hrequest : ∀ h ∈ hints, h.requestTree = some start)
    (hhints : ∀ h ∈ hints, ∃ u, h.result = some u) (ho : o.result = some t) : full policy hints o =
      .ok (((sortCandidates hints).find? (leadsTo policy start (normalForm policy start t))).map
        fun c => { outcome := o, candidate := some c, matchType := .fullMatch }) :=
  full_eq_of_head? (head?_requestTree hne hrequest) hhints ho

/-- An outcome has no full match exactly if no hint has its normal form. -/
theorem full_eq_none_iff {o : Outcome ω} {t : Tree} (hne : hints ≠ [])
    (hrequest : ∀ h ∈ hints, h.requestTree = some start) (hhints : ∀ h ∈ hints, ∃ u, h.result = some u)
    (ho : o.result = some t) : full policy hints o = .ok none ↔ ∀ h ∈ hints, ∀ u, h.result = some u →
      normalForm policy start t ≠ normalForm policy start u := by
  have hlead : ∀ c, leadsTo policy start (normalForm policy start t) c = true ↔
      ∃ u, c.hint.result = some u ∧ normalForm policy start t = normalForm policy start u := by
    intro c
    simp [leadsTo, Option.any_eq_true]
  rw [full_eq hne hrequest hhints ho, Except.ok.injEq, Option.map_eq_none_iff, List.find?_eq_none]
  constructor
  · intro h g hg u hu he
    obtain ⟨c, hc, rfl⟩ := exists_candidate hg
    exact h c hc ((hlead c).2 ⟨u, hu, he⟩)
  · intro h c hc hP
    obtain ⟨u, hu, he⟩ := (hlead c).1 hP
    exact h c.hint (hint_mem_of_candidate hc) u hu he

/-! ## Partial matches -/

theorem isSubset_iff {a b : List Edit} : Edits.isSubset a b = true ↔ a ⊆ b := by
  simp [Edits.isSubset, List.subset_def]

/-- Whether a hint has edits, and all the given ones among them. -/
def covers (policy : Policy) (start : Tree) (edits : List Edit) (c : Candidate) : Bool :=
  c.hint.result.any fun u =>
    !(start.edits (normalizeValues policy start u)).isEmpty &&
      Edits.isSubset edits (start.edits (normalizeValues policy start u))

/-- A hint that covers the edits decides, and one that does not is passed over. -/
theorem firstCover_cons {style : ColorStyle} {outcomeTree : Tree} {edits : List Edit} {c : Candidate}
    {cs : List Candidate} {u : Tree} (hu : c.hint.result = some u) :
    firstCover policy style start outcomeTree edits (c :: cs) =
      if covers policy start edits c = false then firstCover policy style start outcomeTree edits cs
      else if Edits.isSubset (start.edits (normalizeValues policy start u)) edits then
        .error (.inconsistentRating (contradiction policy style start (normalizeValues policy start u) outcomeTree
          (start.edits (normalizeValues policy start u)) edits))
      else if edits.all Edit.isDeletion then .ok (.deletionsOnly c) else .ok (.within c) := by
  have hcov : (covers policy start edits c = false) = (((start.edits (normalizeValues policy start u)).isEmpty ||
      !Edits.isSubset edits (start.edits (normalizeValues policy start u))) = true) := by
    rw [covers, hu, Option.any_some, Bool.and_eq_false_eq_eq_false_or_eq_false, Bool.or_eq_true, Bool.not_eq_false',
      Bool.not_eq_true']
  rw [firstCover, hu]
  simp only [hcov]
  rfl

/-- Edits that no hint covers are found nowhere. -/
theorem firstCover_eq_nowhere {style : ColorStyle} {outcomeTree : Tree} {edits : List Edit} {cs : List Candidate}
    (h : ∀ c ∈ cs, ∃ u, c.hint.result = some u) (hnone : cs.find? (covers policy start edits) = none) :
    firstCover policy style start outcomeTree edits cs = .ok .nowhere := by
  induction cs with
  | nil => rfl
  | cons c cs ih =>
    obtain ⟨u, hu⟩ := h c List.mem_cons_self
    rw [List.find?_eq_none] at hnone
    have hc : covers policy start edits c = false := by simpa using hnone c List.mem_cons_self
    rw [firstCover_cons hu, if_pos hc]
    refine ih (fun c hc => h c (List.mem_cons_of_mem _ hc)) ?_
    exact List.find?_eq_none.2 fun c hc => hnone c (List.mem_cons_of_mem _ hc)

/-- The first hint that covers the edits of an outcome decides: it contradicts the outcome if it has no other edits. -/
theorem firstCover_eq_of_find? {style : ColorStyle} {outcomeTree : Tree} {edits : List Edit} {cs : List Candidate}
    (h : ∀ c ∈ cs, ∃ u, c.hint.result = some u) {c : Candidate} {u : Tree}
    (hc : cs.find? (covers policy start edits) = some c) (hu : c.hint.result = some u) :
    firstCover policy style start outcomeTree edits cs =
      if Edits.isSubset (start.edits (normalizeValues policy start u)) edits then
        .error (.inconsistentRating (contradiction policy style start (normalizeValues policy start u) outcomeTree
          (start.edits (normalizeValues policy start u)) edits))
      else if edits.all Edit.isDeletion then .ok (.deletionsOnly c) else .ok (.within c) := by
  induction cs with
  | nil => cases hc
  | cons c' cs ih =>
    obtain ⟨u', hu'⟩ := h c' List.mem_cons_self
    rw [firstCover_cons hu']
    cases hc' : covers policy start edits c' with
    | false =>
      rw [List.find?_cons_of_neg (by simp [hc'])] at hc
      rw [if_pos rfl]
      exact ih (fun c hc => h c (List.mem_cons_of_mem _ hc)) hc
    | true =>
      rw [List.find?_cons_of_pos hc'] at hc
      obtain rfl := Option.some.inj hc
      obtain rfl := Option.some.inj (hu'.symm.trans hu)
      exact if_neg (by decide)

/-- The first hint that covers the edits of an outcome contradicts it if it has no other edits. -/
theorem firstCover_eq_error_iff {style : ColorStyle} {outcomeTree : Tree} {edits : List Edit} {cs : List Candidate}
    (h : ∀ c ∈ cs, ∃ u, c.hint.result = some u) {e : Failure} :
    firstCover policy style start outcomeTree edits cs = .error e ↔ ∃ c u,
      cs.find? (covers policy start edits) = some c ∧ c.hint.result = some u ∧
        Edits.isSubset (start.edits (normalizeValues policy start u)) edits = true ∧
          e = .inconsistentRating (contradiction policy style start (normalizeValues policy start u) outcomeTree
            (start.edits (normalizeValues policy start u)) edits) := by
  constructor
  · intro he
    cases hc : cs.find? (covers policy start edits) with
    | none =>
      rw [firstCover_eq_nowhere h hc] at he
      cases he
    | some c =>
      obtain ⟨u, hu⟩ := h c (List.mem_of_find?_eq_some hc)
      rw [firstCover_eq_of_find? h hc hu] at he
      split at he
      · rename_i hsub
        exact ⟨c, u, rfl, hu, hsub, (Except.error.inj he).symm⟩
      · split at he <;> cases he
  · rintro ⟨c, u, hc, hu, hsub, rfl⟩
    rw [firstCover_eq_of_find? h hc hu, if_pos hsub]

/-- The edits of an outcome, relative to the first hint's request, are looked for among those of the hints. -/
theorem overlap_eq {style : ColorStyle} {o : Outcome ω} {t : Tree}
    (hstart : hints.head?.bind TutorHint.requestTree = some start) (ho : o.result = some t) :
    overlap policy style hints o =
      if start.edits (normalizeValues policy start t) = [] then .ok .nowhere
      else firstCover policy style start (normalizeValues policy start t)
        (start.edits (normalizeValues policy start t)) (sortCandidates hints) := by
  cases hints with
  | nil => cases hstart
  | cons first rest =>
    have hrequest : first.requestTree = some start := hstart
    rw [overlap, ho, hrequest]
    simp only [need_some, pure_bind, List.isEmpty_iff]
    rfl

/-- The partial match of an outcome fails exactly if the first hint that covers its edits contradicts it. -/
theorem partialMatch_eq_error_iff {style : ColorStyle} {o : Outcome ω} {t : Tree} (hne : hints ≠ [])
    (hrequest : ∀ h ∈ hints, h.requestTree = some start) (ho : o.result = some t) {e : Failure} :
    partialMatch policy style hints o = .error e ↔
      start.edits (normalizeValues policy start t) ≠ [] ∧
        firstCover policy style start (normalizeValues policy start t) (start.edits (normalizeValues policy start t))
          (sortCandidates hints) = .error e := by
  rw [partialMatch, overlap_eq (head?_requestTree hne hrequest) ho]
  by_cases hempty : start.edits (normalizeValues policy start t) = []
  · rw [if_pos hempty]
    constructor
    · intro he
      cases he
    · exact fun h => absurd hempty h.1
  · rw [if_neg hempty, and_iff_right hempty]
    cases firstCover policy style start (normalizeValues policy start t)
        (start.edits (normalizeValues policy start t)) (sortCandidates hints) with
    | error e' => rw [Except.map, Except.error.injEq, Except.error.injEq]
    | ok v => constructor <;> intro he <;> cases he

end Matching

/-! ## Rating a request -/

/-- Outcomes without a full match are left over, if no comparison fails. -/
theorem settleFull_eq {policy : Policy} {hints : List TutorHint} {os : List (Outcome ω)}
    (h : ∀ o ∈ os, ∃ r, Matching.full policy hints o = .ok r) : ∃ ratings rest,
      settleFull policy hints os = .ok (ratings, rest) ∧
        ∀ o, o ∈ rest ↔ o ∈ os ∧ Matching.full policy hints o = .ok none := by
  induction os with
  | nil => exact ⟨[], [], rfl, by simp⟩
  | cons o os ih =>
    obtain ⟨r, hr⟩ := h o List.mem_cons_self
    obtain ⟨ratings, rest, hrest, hmem⟩ := ih fun o ho => h o (List.mem_cons_of_mem _ ho)
    rw [settleFull, hr]
    cases r with
    | some r =>
      refine ⟨r :: ratings, rest, by rw [hrest]; rfl, fun o' => ?_⟩
      rw [hmem, List.mem_cons]
      constructor
      · exact fun h => ⟨.inr h.1, h.2⟩
      · rintro ⟨rfl | ho, hnone⟩
        · rw [hr] at hnone
          cases hnone
        · exact ⟨ho, hnone⟩
    | none =>
      refine ⟨ratings, o :: rest, by rw [hrest]; rfl, fun o' => ?_⟩
      rw [List.mem_cons, List.mem_cons, hmem]
      constructor
      · rintro (rfl | h)
        · exact ⟨.inl rfl, hr⟩
        · exact ⟨.inr h.1, h.2⟩
      · rintro ⟨rfl | ho, hnone⟩
        · exact .inl rfl
        · exact .inr ⟨ho, hnone⟩

theorem result_settlePartial {policy : Policy} {hints : List TutorHint} : ∀ os : List (Outcome ω),
    (settlePartial policy hints os).result = os.mapM (Matching.partialMatch policy .none hints)
  | [] => rfl
  | o :: os => by
    have ih : (settlePartial policy hints os).result = os.mapM (Matching.partialMatch policy .none hints) :=
      result_settlePartial os
    rw [settlePartial, List.mapM_cons, Traced.result_bind, Matching.partialMatch]
    cases Matching.overlap policy .none hints o with
    | error e => rfl
    | ok v =>
      have hremark : ((v.remark o).forM (Traced.log .debug)).result = .ok () := by
        cases v.remark o <;> rfl
      show (((v.remark o).forM (Traced.log .debug) >>= fun _ => _) : Traced _).result = _
      rw [Traced.result_bind, hremark]
      show ((settlePartial policy hints os >>= fun _ => _) : Traced _).result = _
      rw [Traced.result_bind, ih]
      cases os.mapM (Matching.partialMatch policy .none hints) <;> rfl

/-- Rating a request lists the full matches and then the verdicts on the other outcomes, and sorts them. -/
theorem result_rateRequest_eq {policy : Policy} {hints : List TutorHint} {outcomes : List (Outcome ω)}
    {assignmentId requestId : String} (hratable : isRatable policy hints = true) :
    (rateRequest assignmentId requestId hints outcomes policy).result =
      (settleFull policy hints outcomes).bind fun settled =>
        (settled.2.mapM (Matching.partialMatch policy .none hints)).map fun others =>
          some (RequestRating.sorted
            { requestId := requestId
              assignmentId := assignmentId
              requestTree := hints.head?.bind TutorHint.requestTree
              policy := policy
              ratings := settled.1 ++ others }) := by
  have hlog : ∀ {f : Unit → Traced (Option (RequestRating ω))},
      (if outcomes.isEmpty then
        Traced.log .warning ("No hints generated for request " ++ assignmentId ++ "/" ++ requestId ++ ".") >>= f
      else f ()).result = (f ()).result := by
    intro f
    split
    · rw [Traced.result_bind]
      rfl
    · rfl
  rw [rateRequest, hratable, Bool.not_true, if_neg (by decide), hlog, Traced.result_bind]
  refine congrArg (Except.bind (settleFull policy hints outcomes)) (funext fun settled => ?_)
  show ((settlePartial policy hints settled.2 >>= fun _ => _) : Traced _).result = _
  rw [Traced.result_bind, result_settlePartial]
  cases settled.2.mapM (Matching.partialMatch policy .none hints) <;> rfl

/-- Rating a request fails as comparing the outcomes without a full match does. -/
theorem result_rateRequest {policy : Policy} {hints : List TutorHint} {outcomes : List (Outcome ω)}
    {assignmentId requestId : String} {ratings : List (Rating ω)} {rest : List (Outcome ω)}
    (hratable : isRatable policy hints = true) (hfull : settleFull policy hints outcomes = .ok (ratings, rest))
    {e : Failure} : (rateRequest assignmentId requestId hints outcomes policy).result = .error e ↔
      rest.mapM (Matching.partialMatch policy .none hints) = .error e := by
  rw [result_rateRequest_eq hratable, hfull, Except.bind]
  cases rest.mapM (Matching.partialMatch policy .none hints) with
  | error e' => exact Iff.of_eq (by rw [Except.map, Except.error.injEq, Except.error.injEq])
  | ok others => constructor <;> intro he <;> cases he

/-! ## What ends a rating -/

/-- A tree that was read. -/
def IsRead (t : Tree) : Prop :=
  ∃ source, Tree.parse source = .ok t

/-- An outcome with the tree `t` is contradicted by the hints: none of them has its normal form, but the first one
that has all of its edits leads to the same tree, up to relation labels of nodes in place. -/
structure Contradicted (policy : Policy) (start : Tree) (hints : List TutorHint) (t : Tree) : Prop where
  /-- No hint has the normal form of the outcome. -/
  unmatched : ∀ h ∈ hints, ∀ u, h.result = some u → normalForm policy start t ≠ normalForm policy start u
  /-- The outcome has edits. -/
  edits : start.edits (normalizeValues policy start t) ≠ []
  /-- The first hint that has all of them leads to the same tree, up to relation labels of nodes in place. -/
  same : ∃ c u, (sortCandidates hints).find?
      (Matching.covers policy start (start.edits (normalizeValues policy start t))) = some c ∧
    c.hint.result = some u ∧ Tree.SameExcept (start.InPlace (normalizeValues policy start t)) (normalizeValues policy start t)
      (normalizeValues policy start u)

theorem IsRead.wellFormed {t : Tree} (h : IsRead t) : t.WellFormed := by
  obtain ⟨source, hsource⟩ := h
  exact Tree.wellFormed_of_parse hsource

theorem Tree.WellFormed.normalizeValues {t : Tree} (h : t.WellFormed) (policy : Policy) (start : Tree) :
    (normalizeValues policy start t).WellFormed :=
  (h.mapLabels _).mapLabels _

/-- A hint alone contradicts an outcome of the same tree up to relation labels of nodes in place, where both trees are
normal already. -/
theorem Contradicted.singleton {policy : Policy} {start t u : Tree} {h : TutorHint} (hresult : h.result = some u)
    (ht : normalizeValues policy start t = t) (hu : normalizeValues policy start u = u)
    (hunmatched : normalForm policy start t ≠ normalForm policy start u) (hedits : start.edits t ≠ [])
    (hcov : Edits.isSubset (start.edits t) (start.edits u) = true)
    (hsame : Tree.SameExcept (start.InPlace t) t u) : Contradicted policy start [h] t := by
  have hne : start.edits u ≠ [] := by
    intro hnil
    rw [hnil, Matching.isSubset_iff, List.subset_nil] at hcov
    exact hedits hcov
  refine ⟨?_, by rwa [ht], ⟨0, h⟩, u, List.find?_cons_of_pos ?_, hresult, by rwa [ht, hu]⟩
  · rw [List.forall_mem_singleton]
    intro u' hu'
    rw [hresult] at hu'
    rwa [← Option.some.inj hu']
  · rw [Matching.covers, hresult, Option.any_some, ht, hu, hcov, Bool.and_true]
    simpa using hne

/-- The first hint that covers an outcome's edits has no other edits exactly if it leads to the same tree, up to
relation labels of nodes in place. -/
theorem isSubset_iff_sameExcept {policy : Policy} {start t u : Tree} (hstart : start.WellFormed) (ht : t.WellFormed)
    (hu : u.WellFormed) {c : Candidate} (hc : c.hint.result = some u)
    (hcov : Matching.covers policy start (start.edits (normalizeValues policy start t)) c = true) :
    Edits.isSubset (start.edits (normalizeValues policy start u))
      (start.edits (normalizeValues policy start t)) = true ↔
      Tree.SameExcept (start.InPlace (normalizeValues policy start t)) (normalizeValues policy start t)
        (normalizeValues policy start u) := by
  rw [Matching.covers, hc, Option.any_some, Bool.and_eq_true, Matching.isSubset_iff] at hcov
  rw [Tree.sameExcept_inPlace_iff hstart.distinctLabels (ht.normalizeValues policy start).full
    (hu.normalizeValues policy start).full, Matching.isSubset_iff]
  constructor
  · exact fun hsub e => ⟨fun he => hcov.2 he, fun he => hsub he⟩
  · exact fun h e he => (h e).2 he

theorem ne_nil_of_isRatable {policy : Policy} {hints : List TutorHint} (h : isRatable policy hints = true) :
    hints ≠ [] := by
  rintro rfl
  cases h

section

variable {policy : Policy} {hints : List TutorHint} {outcomes : List (Outcome ω)} {start : Tree}
  (hratable : isRatable policy hints = true)
  (hrequest : ∀ h ∈ hints, h.requestTree = some start) (hstart : IsRead start)
  (hhints : ∀ h ∈ hints, ∃ u, h.result = some u ∧ IsRead u)
include hratable hrequest hstart hhints

/-- Comparing an outcome without a full match fails exactly if it is contradicted. -/
theorem partialMatch_error_iff {o : Outcome ω} {t : Tree} (ho : o.result = some t) (ht : IsRead t)
    (hfull : Matching.full policy hints o = .ok none) :
    (∃ e, Matching.partialMatch policy .none hints o = .error e) ↔ Contradicted policy start hints t := by
  have hne := ne_nil_of_isRatable hratable
  have hresult : ∀ h ∈ hints, ∃ u, h.result = some u := fun h hh => (hhints h hh).imp fun _ hu => hu.1
  have hread : ∀ {c u}, (sortCandidates hints).find?
      (Matching.covers policy start (start.edits (normalizeValues policy start t))) = some c →
        c.hint.result = some u → u.WellFormed := by
    intro c u hc hu
    obtain ⟨u', hu', hwf⟩ := hhints c.hint (Matching.hint_mem_of_candidate (List.mem_of_find?_eq_some hc))
    rw [hu] at hu'
    rw [Option.some.inj hu']
    exact hwf.wellFormed
  constructor
  · rintro ⟨e, he⟩
    obtain ⟨hedits, he⟩ := (Matching.partialMatch_eq_error_iff hne hrequest ho).1 he
    obtain ⟨c, u, hc, hu, hsub, -⟩ := (Matching.firstCover_eq_error_iff (Matching.result_of_candidate hresult)).1 he
    refine ⟨(Matching.full_eq_none_iff hne hrequest hresult ho).1 hfull, hedits, c, u, hc, hu, ?_⟩
    exact (isSubset_iff_sameExcept hstart.wellFormed ht.wellFormed (hread hc hu) hu (List.find?_some hc)).1 hsub
  · rintro ⟨-, hedits, c, u, hc, hu, hsame⟩
    have hsub := (isSubset_iff_sameExcept hstart.wellFormed ht.wellFormed (hread hc hu) hu (List.find?_some hc)).2
      hsame
    exact ⟨_, (Matching.partialMatch_eq_error_iff hne hrequest ho).2
      ⟨hedits, (Matching.firstCover_eq_error_iff (Matching.result_of_candidate hresult)).2 ⟨c, u, hc, hu, hsub, rfl⟩⟩⟩

/-- Rating a request ends with a contradiction exactly if some outcome is contradicted by the hints. -/
theorem rateRequest_inconsistent_iff (houtcomes : ∀ o ∈ outcomes, ∃ t, o.result = some t ∧ IsRead t)
    (assignmentId requestId : String) :
    (∃ report, (rateRequest assignmentId requestId hints outcomes policy).result =
      .error (.inconsistentRating report)) ↔
        ∃ o ∈ outcomes, ∃ t, o.result = some t ∧ Contradicted policy start hints t := by
  have hne := ne_nil_of_isRatable hratable
  have hresult : ∀ h ∈ hints, ∃ u, h.result = some u := fun h hh => (hhints h hh).imp fun _ hu => hu.1
  have hfull : ∀ o ∈ outcomes, ∃ r, Matching.full policy hints o = .ok r := by
    intro o ho
    obtain ⟨t, ht, -⟩ := houtcomes o ho
    exact ⟨_, Matching.full_eq hne hrequest hresult ht⟩
  obtain ⟨ratings, rest, hsettled, hrest⟩ := settleFull_eq hfull
  constructor
  · rintro ⟨report, he⟩
    obtain ⟨o, ho, he⟩ := exists_of_mapM_error ((result_rateRequest hratable hsettled).1 he)
    obtain ⟨ho, hnone⟩ := (hrest o).1 ho
    obtain ⟨t, ht, hread⟩ := houtcomes o ho
    exact ⟨o, ho, t, ht, (partialMatch_error_iff hratable hrequest hstart hhints ht hread hnone).1 ⟨_, he⟩⟩
  · rintro ⟨o, ho, t, ht, hcon⟩
    obtain ⟨t', ht', hread⟩ := houtcomes o ho
    obtain rfl : t = t' := Option.some.inj (ht.symm.trans ht')
    have hnone := (Matching.full_eq_none_iff hne hrequest hresult ht).2 hcon.unmatched
    obtain ⟨e, he⟩ := (partialMatch_error_iff hratable hrequest hstart hhints ht hread hnone).2 hcon
    obtain ⟨e, he⟩ := mapM_error_of_mem ((hrest o).2 ⟨ho, hnone⟩) he
    -- whichever outcome fails first, it fails with a contradiction
    obtain ⟨o', ho', he'⟩ := exists_of_mapM_error he
    obtain ⟨t', ht', -⟩ := houtcomes o' ((hrest o').1 ho').1
    obtain ⟨-, he'⟩ := (Matching.partialMatch_eq_error_iff hne hrequest ht').1 he'
    obtain ⟨c, u, -, -, -, rfl⟩ := (Matching.firstCover_eq_error_iff (Matching.result_of_candidate hresult)).1 he'
    exact ⟨_, (result_rateRequest hratable hsettled).2 he⟩

end

/-- An outcome that adds the same child as a hint, but has another relation label for the child that was there, ends
the rating. -/
theorem rateRequest_inconsistent_relabelled :
    let start : Tree := .node ⟨"script", none, some "s"⟩ [⟨"0", some (.leaf ⟨"move", none, some "m"⟩)⟩]
    let tutor : Tree := .node ⟨"script", none, some "s"⟩
      [⟨"0", some (.leaf ⟨"move", none, some "m"⟩)⟩, ⟨"1", some (.leaf ⟨"turn", none, none⟩)⟩]
    let result : Tree := .node ⟨"script", none, some "s"⟩
      [⟨"x", some (.leaf ⟨"move", none, some "m"⟩)⟩, ⟨"1", some (.leaf ⟨"turn", none, none⟩)⟩]
    let hint : TutorHint :=
      { hintId := 1, requestId := "r", assignmentId := "a", year := "y", requestTree := some start,
        result := some tutor, validity := .multipleTutors }
    let outcome : Outcome Nat :=
      { result := some result, assignmentId := "a", requestId := "r", weight := 1, id := .int 1 }
    ∃ report, (rateRequest "a" "r" [hint] [outcome] {}).result = .error (.inconsistentRating report) := by
  dsimp only
  refine (rateRequest_inconsistent_iff (by decide) (List.forall_mem_singleton.2 rfl) ?_ ?_ ?_ "a" "r").2
    ⟨_, List.mem_cons_self, _, rfl, ?_⟩
  · exact ⟨.obj [("type", .str "script"), ("id", .str "s"), ("children",
      .obj [("0", .obj [("type", .str "move"), ("id", .str "m")])])], rfl⟩
  · rw [List.forall_mem_singleton]
    exact ⟨_, rfl, .obj [("type", .str "script"), ("id", .str "s"), ("children",
      .obj [("0", .obj [("type", .str "move"), ("id", .str "m")]), ("1", .obj [("type", .str "turn")])])], rfl⟩
  · rw [List.forall_mem_singleton]
    exact ⟨_, rfl, .obj [("type", .str "script"), ("id", .str "s"), ("children",
      .obj [("x", .obj [("type", .str "move"), ("id", .str "m")]), ("1", .obj [("type", .str "turn")])])], rfl⟩
  · exact .singleton rfl (by decide +kernel) (by decide +kernel) (by decide +kernel) (by decide +kernel)
      (by decide +kernel) ⟨by decide +kernel, by decide +kernel, by decide +kernel⟩

end HintQuality
