import HintQuality.Proofs.Consistency
import HintQuality.Proofs.StableSort
import Mathlib
/-!
# What a verdict says

Hints are tried by rank, then validity, then place (`pairwise_sortCandidates`), so the first one found is the first of
all hints that qualify (`isFirst_iff_find?`). The verdict on an outcome by itself, its full match or else its partial
one, is described by normal forms and sets of edits alone (`Justified`), and so are the outcomes that have none
(`verdict_characterized`).
-/

namespace HintQuality

variable {ω : Type}

/-! ## The order in which hints are tried -/

/-- The key by which hints are tried: the rank, and then the validity, the strongest first. -/
def TutorHint.trialKey (h : TutorHint) : ℕ ×ₗ ℤ :=
  toLex (h.rank, -(h.validity.toNat : ℤ))

/-- The key of a hint, and then its place. -/
def Candidate.trialKey (c : Candidate) : (ℕ ×ₗ ℤ) ×ₗ ℕ :=
  toLex (c.hint.trialKey, c.index)

theorem TutorHint.precedes_iff {h g : TutorHint} : h.precedes g = true ↔ h.trialKey ≤ g.trialKey := by
  rw [trialKey, trialKey, Prod.Lex.toLex_le_toLex, precedes]
  simp only [Bool.or_eq_true, Bool.and_eq_true, decide_eq_true_eq]
  omega

theorem mem_candidates {hints : List TutorHint} {c : Candidate} :
    c ∈ candidates hints ↔ hints[c.index]? = some c.hint := by
  obtain ⟨i, h⟩ := c
  simp [candidates, List.mk_mem_zipIdx_iff_getElem?]

/-- Candidates are sorted by their keys. -/
theorem pairwise_sortCandidates (hints : List TutorHint) :
    (sortCandidates hints).Pairwise fun a b => a.trialKey < b.trialKey := by
  have hplaces : (candidates hints).Pairwise fun a b => a.index < b.index := by
    rw [candidates, List.pairwise_map, ← List.pairwise_map (f := Prod.snd) (R := (· < ·)), List.zipIdx_map_snd]
    exact List.pairwise_lt_range'
  have hle : ∀ a b : Candidate, a.hint.precedes b.hint = true ↔ a.hint.trialKey ≤ b.hint.trialKey :=
    fun _ _ => TutorHint.precedes_iff
  refine (pairwise_sortBy_of_key hle hplaces).imp fun {a b} hab => ?_
  rwa [Candidate.trialKey, Candidate.trialKey, Prod.Lex.toLex_lt_toLex]

/-- The hint with the least key of all hints whose results have a property, and in front of the others of its key. -/
structure IsFirst (hints : List TutorHint) (P : Tree → Prop) (c : Candidate) : Prop where
  /-- It stands at its place. -/
  place : hints[c.index]? = some c.hint
  /-- Its result has the property. -/
  holds : ∃ u, c.hint.result = some u ∧ P u
  /-- No hint whose result has the property has a smaller key, or the same key and a place before it. -/
  least : ∀ (i : Nat) h u, hints[i]? = some h → h.result = some u → P u → c.trialKey ≤ toLex (h.trialKey, i)

/-- The first candidate found is the first of the hints that qualify. -/
theorem isFirst_iff_find? {hints : List TutorHint} {P : Tree → Prop} {p : Candidate → Bool}
    (hp : ∀ c, p c = true ↔ ∃ u, c.hint.result = some u ∧ P u) {c : Candidate} :
    IsFirst hints P c ↔ (sortCandidates hints).find? p = some c := by
  rw [find?_eq_some_iff_of_pairwise_lt (pairwise_sortCandidates hints), sortCandidates, mem_sortBy, mem_candidates, hp]
  constructor
  · rintro ⟨hplace, hholds, hleast⟩
    refine ⟨hplace, hholds, fun d hd hpd => ?_⟩
    rw [mem_sortBy, mem_candidates] at hd
    obtain ⟨u, hu, hP⟩ := (hp d).1 hpd
    exact hleast d.index d.hint u hd hu hP
  · rintro ⟨hplace, hholds, hleast⟩
    refine ⟨hplace, hholds, fun i h u hi hu hP => ?_⟩
    exact hleast ⟨i, h⟩ (mem_sortBy.2 (mem_candidates.2 hi)) ((hp _).2 ⟨u, hu, hP⟩)

open Classical in
/-- If some hint qualifies, there is a first one. -/
theorem exists_isFirst {hints : List TutorHint} {P : Tree → Prop} (h : ∃ g ∈ hints, ∃ u, g.result = some u ∧ P u) :
    ∃ c, IsFirst hints P c := by
  let p : Candidate → Bool := fun c => decide (∃ u, c.hint.result = some u ∧ P u)
  obtain ⟨g, hg, hu⟩ := h
  obtain ⟨c, hc, rfl⟩ := Matching.exists_candidate hg
  have hsome : ((sortCandidates hints).find? p).isSome := List.find?_isSome.2 ⟨c, hc, decide_eq_true hu⟩
  obtain ⟨c', hc'⟩ := Option.isSome_iff_exists.1 hsome
  exact ⟨c', (isFirst_iff_find? fun _ => decide_eq_true_iff).2 hc'⟩

theorem IsFirst.mem {hints : List TutorHint} {P : Tree → Prop} {c : Candidate} (h : IsFirst hints P c) :
    c.hint ∈ hints :=
  List.mem_of_getElem? h.place

/-! ## The verdict on an outcome -/

namespace Matching

/-- The verdict on an outcome by itself: its full match, or else its partial match. -/
def verdict (policy : Policy) (style : ColorStyle) (hints : List TutorHint) (o : Outcome ω) :
    Except Failure (Rating ω) := do
  match ← full policy hints o with
  | some r => return r
  | none => partialMatch policy style hints o

end Matching

/-- The edits from the request to a result with its values normalized. -/
def editSet (policy : Policy) (start t : Tree) : Set Edit :=
  {e | e ∈ start.edits (normalizeValues policy start t)}

/-- Whether some hint leads to the normal form of a result. -/
def HasFullMatch (policy : Policy) (start : Tree) (hints : List TutorHint) (t : Tree) : Prop :=
  ∃ h ∈ hints, ∃ u, h.result = some u ∧ normalForm policy start u = normalForm policy start t

/-- What the rating of an outcome with the result `t` says about it and the hints. -/
structure Justified (policy : Policy) (start : Tree) (hints : List TutorHint) (t : Tree) (r : Rating ω) : Prop where
  /-- The match is full if some hint leads to the same normal form. -/
  full_iff : r.matchType = .fullMatch ↔ HasFullMatch policy start hints t
  /-- It is partial if it is not full, and the edits are not only deletions and a part of those of some hint. -/
  partial_iff : r.matchType = .partialMatch ↔ ¬HasFullMatch policy start hints t ∧
    (∃ e ∈ editSet policy start t, e.isDeletion = false) ∧
      ∃ h ∈ hints, ∃ u, h.result = some u ∧ editSet policy start t ⊂ editSet policy start u
  /-- A full match names the first hint that leads to the same normal form. -/
  full_hint : r.matchType = .fullMatch →
    ∃ c, r.candidate = some c ∧ IsFirst hints (fun u => normalForm policy start u = normalForm policy start t) c
  /-- A partial match names the first hint that has all the edits. -/
  partial_hint : r.matchType = .partialMatch →
    ∃ c, r.candidate = some c ∧ IsFirst hints (fun u => editSet policy start t ⊆ editSet policy start u) c
  /-- Without a match no hint is named. -/
  no_hint : r.matchType = .unmatched → r.candidate = none

/-- The hints contradict an outcome with the result `t`: none has its normal form, but the first one that has all of its
edits, of which there are some, has no others. -/
structure Clashes (policy : Policy) (start : Tree) (hints : List TutorHint) (t : Tree) : Prop where
  /-- No hint leads to its normal form. -/
  unmatched : ¬HasFullMatch policy start hints t
  /-- It has edits. -/
  edits : (editSet policy start t).Nonempty
  /-- The first hint that has all of them has the same. -/
  same : ∃ c u, IsFirst hints (fun u => editSet policy start t ⊆ editSet policy start u) c ∧
    c.hint.result = some u ∧ editSet policy start u = editSet policy start t

namespace Matching

variable {policy : Policy} {style : ColorStyle} {hints : List TutorHint} {start t : Tree} {o : Outcome ω}

theorem leadsTo_iff {c : Candidate} : leadsTo policy start (normalForm policy start t) c = true ↔
    ∃ u, c.hint.result = some u ∧ normalForm policy start u = normalForm policy start t := by
  rw [leadsTo, Option.any_eq_true]
  refine exists_congr fun u => and_congr_right fun _ => ?_
  rw [decide_eq_true_iff]
  exact eq_comm

theorem covers_iff (hedits : start.edits (normalizeValues policy start t) ≠ []) {c : Candidate} :
    covers policy start (start.edits (normalizeValues policy start t)) c = true ↔
      ∃ u, c.hint.result = some u ∧ editSet policy start t ⊆ editSet policy start u := by
  have hne : ∀ u, start.edits (normalizeValues policy start t) ⊆ start.edits (normalizeValues policy start u) →
      start.edits (normalizeValues policy start u) ≠ [] := by
    intro u hsub hnil
    rw [hnil, List.subset_nil] at hsub
    exact hedits hsub
  rw [covers, Option.any_eq_true]
  refine exists_congr fun u => and_congr_right fun _ => ?_
  rw [Bool.and_eq_true, isSubset_iff, Bool.not_eq_true', List.isEmpty_eq_false_iff]
  exact ⟨fun h => h.2, fun h => ⟨hne u h, h⟩⟩

/-- A full match with the first hint of the same normal form is justified. -/
theorem justified_fullMatch {c : Candidate}
    (hc : IsFirst hints (fun u => normalForm policy start u = normalForm policy start t) c) :
    Justified policy start hints t { outcome := o, candidate := some c, matchType := .fullMatch } := by
  have hfull : HasFullMatch policy start hints t := ⟨c.hint, hc.mem, hc.holds⟩
  refine ⟨?_, ?_, fun _ => ⟨c, rfl, hc⟩, ?_, ?_⟩
  · exact iff_of_true rfl hfull
  · exact iff_of_false nofun fun h => h.1 hfull
  · exact nofun
  · exact nofun

/-- A partial match with the first hint that has all the edits is justified, if they are not only deletions and the
hint has others. -/
theorem justified_partialMatch (hfull : ¬HasFullMatch policy start hints t)
    (hedits : ∃ e ∈ editSet policy start t, e.isDeletion = false) {c : Candidate} {u : Tree}
    (hc : IsFirst hints (fun u => editSet policy start t ⊆ editSet policy start u) c) (hu : c.hint.result = some u)
    (hproper : editSet policy start t ⊂ editSet policy start u) :
    Justified policy start hints t { outcome := o, candidate := some c, matchType := .partialMatch } := by
  refine ⟨?_, ?_, ?_, fun _ => ⟨c, rfl, hc⟩, ?_⟩
  · exact iff_of_false nofun hfull
  · exact iff_of_true rfl ⟨hfull, hedits, c.hint, hc.mem, u, hu, hproper⟩
  · exact nofun
  · exact nofun

/-- No match is justified, if there is no full one and all edits are deletions or no hint has them and others. -/
theorem justified_unmatched (hfull : ¬HasFullMatch policy start hints t)
    (hnone : ¬((∃ e ∈ editSet policy start t, e.isDeletion = false) ∧
      ∃ h ∈ hints, ∃ u, h.result = some u ∧ editSet policy start t ⊂ editSet policy start u)) :
    Justified policy start hints t { outcome := o } := by
  refine ⟨?_, ?_, ?_, ?_, fun _ => rfl⟩
  · exact iff_of_false nofun hfull
  · exact iff_of_false nofun fun h => hnone h.2
  · exact nofun
  · exact nofun

/-- Only the first hint that has all the edits can contradict an outcome. -/
theorem clashes_iff_of_isFirst (hfull : ¬HasFullMatch policy start hints t)
    (hedits : start.edits (normalizeValues policy start t) ≠ []) {c : Candidate} {u : Tree}
    (hc : IsFirst hints (fun u => editSet policy start t ⊆ editSet policy start u) c) (hu : c.hint.result = some u)
    (hsub : editSet policy start t ⊆ editSet policy start u) :
    Clashes policy start hints t ↔ editSet policy start u ⊆ editSet policy start t := by
  constructor
  · rintro ⟨-, -, c', u', hc', hu', he⟩
    have hcc : c' = c := by
      rw [isFirst_iff_find? fun _ => covers_iff hedits] at hc hc'
      exact Option.some.inj (hc'.symm.trans hc)
    rw [hcc, hu] at hu'
    rw [Option.some.inj hu', he]
  · intro hback
    exact ⟨hfull, List.exists_mem_of_ne_nil _ hedits, c, u, hc, hu, hback.antisymm hsub⟩

section

variable (hstart : hints.head?.bind TutorHint.requestTree = some start)
  (hhints : ∀ h ∈ hints, ∃ u, h.result = some u) (ho : o.result = some t)
include hstart hhints ho

/-- The verdict is a full match with the first hint of the same normal form, if there is one. -/
theorem verdict_of_isFirst {c : Candidate}
    (hc : IsFirst hints (fun u => normalForm policy start u = normalForm policy start t) c) :
    verdict policy style hints o = .ok { outcome := o, candidate := some c, matchType := .fullMatch } := by
  rw [verdict, full_eq_of_head? hstart hhints ho, (isFirst_iff_find? fun _ => leadsTo_iff).1 hc]
  rfl

/-- Without a full match the verdict is that of the overlap. -/
theorem verdict_of_not_hasFullMatch (hfull : ¬HasFullMatch policy start hints t) :
    verdict policy style hints o = partialMatch policy style hints o := by
  have hnone : (sortCandidates hints).find? (leadsTo policy start (normalForm policy start t)) = none := by
    refine List.find?_eq_none.2 fun c hc hlead => ?_
    obtain ⟨u, hu, he⟩ := leadsTo_iff.1 hlead
    exact hfull ⟨c.hint, hint_mem_of_candidate hc, u, hu, he⟩
  rw [verdict, full_eq_of_head? hstart hhints ho, hnone]
  rfl

omit hhints in
/-- Without edits there is no overlap. -/
theorem partialMatch_of_edits_eq_nil (hedits : start.edits (normalizeValues policy start t) = []) :
    partialMatch policy style hints o = .ok { outcome := o } := by
  rw [partialMatch, overlap_eq hstart ho, if_pos hedits]
  rfl

/-- Edits that no hint has are no match. -/
theorem partialMatch_of_forall_not_subset (hnone : ∀ h ∈ hints, ∀ u, h.result = some u →
    ¬editSet policy start t ⊆ editSet policy start u) : partialMatch policy style hints o = .ok { outcome := o } := by
  by_cases hedits : start.edits (normalizeValues policy start t) = []
  · exact partialMatch_of_edits_eq_nil hstart ho hedits
  · have hfind : (sortCandidates hints).find?
        (covers policy start (start.edits (normalizeValues policy start t))) = none := by
      refine List.find?_eq_none.2 fun c hc hcov => ?_
      obtain ⟨u, hu, hsub⟩ := (covers_iff hedits).1 hcov
      exact hnone c.hint (hint_mem_of_candidate hc) u hu hsub
    rw [partialMatch, overlap_eq hstart ho, if_neg hedits, firstCover_eq_nowhere (result_of_candidate hhints) hfind]
    rfl

/-- The first hint that has all the edits decides. -/
theorem partialMatch_of_isFirst (hedits : start.edits (normalizeValues policy start t) ≠ []) {c : Candidate} {u : Tree}
    (hc : IsFirst hints (fun u => editSet policy start t ⊆ editSet policy start u) c) (hu : c.hint.result = some u) :
    partialMatch policy style hints o =
      if Edits.isSubset (start.edits (normalizeValues policy start u))
          (start.edits (normalizeValues policy start t)) then
        .error (.inconsistentRating (contradiction policy style start (normalizeValues policy start u)
          (normalizeValues policy start t) (start.edits (normalizeValues policy start u))
          (start.edits (normalizeValues policy start t))))
      else if (start.edits (normalizeValues policy start t)).all Edit.isDeletion then .ok { outcome := o }
      else .ok { outcome := o, candidate := some c, matchType := .partialMatch } := by
  have hfind := (isFirst_iff_find? fun _ => covers_iff hedits).1 hc
  rw [partialMatch, overlap_eq hstart ho, if_neg hedits, firstCover_eq_of_find? (result_of_candidate hhints) hfind hu]
  split
  · rfl
  · split <;> rfl

theorem verdict_cases : (∃ report, verdict policy style hints o = .error (.inconsistentRating report)) ∧
    Clashes policy start hints t ∨
      (∃ r, verdict policy style hints o = .ok r ∧ r.outcome = o ∧ Justified policy start hints t r) ∧
        ¬Clashes policy start hints t := by
  by_cases hfull : HasFullMatch policy start hints t
  · obtain ⟨c, hc⟩ := exists_isFirst hfull
    exact .inr ⟨⟨_, verdict_of_isFirst hstart hhints ho hc, rfl, justified_fullMatch hc⟩, fun h => h.unmatched hfull⟩
  rw [verdict_of_not_hasFullMatch hstart hhints ho hfull]
  by_cases hedits : start.edits (normalizeValues policy start t) = []
  · have hempty : ∀ e, e ∉ editSet policy start t := by simp [editSet, hedits]
    refine .inr ⟨⟨_, partialMatch_of_edits_eq_nil hstart ho hedits, rfl, justified_unmatched hfull ?_⟩, ?_⟩
    · rintro ⟨⟨e, he, -⟩, -⟩
      exact hempty e he
    · rintro ⟨-, ⟨e, he⟩, -⟩
      exact hempty e he
  by_cases hcov : ∃ h ∈ hints, ∃ u, h.result = some u ∧ editSet policy start t ⊆ editSet policy start u
  · obtain ⟨c, hc⟩ := exists_isFirst hcov
    obtain ⟨u, hu, hsub⟩ := hc.holds
    rw [partialMatch_of_isFirst hstart hhints ho hedits hc hu]
    have hsame := clashes_iff_of_isFirst hfull hedits hc hu hsub
    by_cases hback : editSet policy start u ⊆ editSet policy start t
    · rw [if_pos (isSubset_iff.2 hback)]
      exact .inl ⟨⟨_, rfl⟩, hsame.2 hback⟩
    · rw [if_neg (mt isSubset_iff.1 hback)]
      refine .inr ⟨?_, mt hsame.1 hback⟩
      split
      · rename_i hdel
        refine ⟨_, rfl, rfl, justified_unmatched hfull ?_⟩
        rintro ⟨⟨e, he, hne⟩, -⟩
        rw [List.all_eq_true.1 hdel e he] at hne
        cases hne
      · rename_i hdel
        refine ⟨_, rfl, rfl, justified_partialMatch hfull ?_ hc hu ⟨hsub, hback⟩⟩
        simpa [editSet] using hdel
  · have hnone : ∀ h ∈ hints, ∀ u, h.result = some u → ¬editSet policy start t ⊆ editSet policy start u :=
      fun h hh u hu hsub => hcov ⟨h, hh, u, hu, hsub⟩
    refine .inr ⟨⟨_, partialMatch_of_forall_not_subset hstart hhints ho hnone, rfl, justified_unmatched hfull ?_⟩, ?_⟩
    · rintro ⟨-, h, hh, u, hu, hsub, -⟩
      exact hnone h hh u hu hsub
    · rintro ⟨-, -, c, u, hc, hu, he⟩
      exact hnone c.hint hc.mem u hu he.ge

/-- The verdict on an outcome is settled by normal forms and sets of edits: there is none exactly if the hints
contradict the outcome, and otherwise the match is the closest one that there is, with the first hint that has it. -/
theorem verdict_characterized :
    ((∃ e, verdict policy style hints o = .error e) ↔ Clashes policy start hints t) ∧
      (∀ e, verdict policy style hints o = .error e → ∃ report, e = .inconsistentRating report) ∧
        ∀ r, verdict policy style hints o = .ok r → r.outcome = o ∧ Justified policy start hints t r := by
  have hcases : (∃ report, verdict policy style hints o = .error (.inconsistentRating report)) ∧ _ ∨
      (∃ r, verdict policy style hints o = .ok r ∧ _) ∧ _ := verdict_cases hstart hhints ho
  rcases hcases with ⟨⟨report, he⟩, hclash⟩ | ⟨⟨r, hr, hjust⟩, hclash⟩
  · rw [he]
    refine ⟨iff_of_true ⟨_, rfl⟩ hclash, fun e h => ⟨report, (Except.error.inj h).symm⟩, nofun⟩
  · rw [hr]
    refine ⟨iff_of_false nofun hclash, nofun, fun r' h => ?_⟩
    rw [← Except.ok.inj h]
    exact hjust

end

/-- Of two hints that an outcome does a part of, a partial match names the one of the higher priority. -/
theorem verdict_characterized_part :
    let start : Tree := .node ⟨"script", none, some "s"⟩ [⟨"0", some (.leaf ⟨"move", none, some "m"⟩)⟩]
    let result : Tree := .node ⟨"script", none, some "s"⟩
      [⟨"0", some (.leaf ⟨"move", none, some "m"⟩)⟩, ⟨"1", some (.leaf ⟨"turn", none, none⟩)⟩]
    let tutor : Tree := .node ⟨"script", none, some "s"⟩
      [⟨"0", some (.leaf ⟨"move", none, some "m"⟩)⟩, ⟨"1", some (.leaf ⟨"turn", none, none⟩)⟩,
        ⟨"2", some (.leaf ⟨"say", none, none⟩)⟩]
    let late : TutorHint :=
      { hintId := 1, requestId := "r", assignmentId := "a", year := "y", requestTree := some start,
        result := some tutor, validity := .consensus }
    let early : TutorHint := { late with validity := .oneTutor, priority := some .high }
    let o : Outcome Nat := { result := some result, assignmentId := "a", requestId := "r", weight := 1, id := .int 1 }
    ∃ r, verdict {} .none [late, early] o = .ok r ∧ r.candidate.map Candidate.index = some 1 ∧
      r.matchType = .partialMatch ∧ Justified {} start [late, early] result r := by
  intro start result tutor late early o
  have hmatch : ((verdict {} .none [late, early] o).toOption.map fun r =>
      (r.candidate.map Candidate.index, r.matchType)) = some (some 1, .partialMatch) := by
    decide +kernel
  obtain ⟨r, hr, hm⟩ := Option.map_eq_some_iff.1 hmatch
  have hv := eq_ok_of_toOption hr
  have hresults : ∀ h ∈ [late, early], ∃ u, h.result = some u := by simp [late, early]
  refine ⟨r, hv, congrArg Prod.fst hm, congrArg Prod.snd hm, ?_⟩
  exact ((verdict_characterized (t := result) rfl hresults rfl).2.2 r hv).2

end Matching

end HintQuality
