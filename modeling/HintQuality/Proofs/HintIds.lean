import HintQuality.Proofs.ExportedIds
import HintQuality.Proofs.Spreadsheet
/-!
# Hint ids through spreadsheets

The ids of hints pass through doubles twice, when a gold standard is read from its spreadsheet and when the ratings
are exported next to outcomes without a match. A standard that is written and read again has the ids that are left of
the original ones (`hintIds_asReadBack`), so the ids survive exactly if all of them are doubles
(`hintIds_survive_iff`). Integers of up to 53 bits are; the ids of two neighbours beyond become one
(`neighbours_become_equal`).
-/

namespace HintQuality

namespace GoldStandard

variable {g : GoldStandard}

/-- A regrouped standard lists its hints as they are. -/
theorem allHints_regroup {f : String × String → TutorHint → TutorHint} (hf : ∀ p h, (f p h).key = h.key) :
    (g.regroup f).allHints = (g.regroup f).hints := by
  have hkeys := mem_keys_regroup (g := g) hf
  have hrequests : (g.regroup f).requests = g.requests := by
    simp only [requests, ← assignmentIds_of_keys hkeys, ← requestIds_of_keys hkeys]
  rw [allHints, hrequests]
  simp only [validHints_regroup hf]
  rfl

/-- Ids are rounded to 53 bits on the way. -/
theorem hintIds_asReadBack (hids : ∀ h ∈ g.hints, h.hintId.natAbs < Decimal.overflow) :
    g.asReadBack.allHints.map TutorHint.hintId = g.allHints.map fun h => Decimal.roundInt h.hintId := by
  rw [asReadBack, allHints_regroup fun _ _ => key_readBack _ _, regroup, allHints, List.map_flatMap, List.map_flatMap]
  refine List.flatMap_congr fun p _ => ?_
  rw [List.map_map]
  refine List.map_congr_left fun h hh => ?_
  exact Decimal.truncate_ofInt (hids h (mem_validHints.1 hh).1)

/-- Hint ids survive the spreadsheet, as far as the library returns its cells unchanged, exactly if all of them are
doubles; what is read back has, hint by hint, the ids rounded to 53 bits. If the library treats columns of whole numbers
as it should, the ids of matched hints survive the export exactly if they have 64 bits and, unless all outcomes are
matched, are doubles. -/
theorem hintIds_survive_iff (lib : TableLibrary)
    (hrequest : ∀ p ∈ g.requests, ∃ t, g.requestTree? p.1 p.2 = some t ∧ t.WellFormed)
    (hresult : ∀ h ∈ g.hints, ∃ t, h.result = some t ∧ t.WellFormed) (path : String) (s : RatingSet Float)
    (style : ColorStyle) :
    (∃ sheet, g.toSheet = .ok sheet ∧ (lib.Returns sheet → ∃ text, g.toText lib = .ok text ∧
      (∀ g', (ofText lib path text).result = .ok g' →
        g'.allHints.map TutorHint.hintId = g.allHints.map fun h => Decimal.roundInt h.hintId) ∧
      ((∃ g', (ofText lib path text).result = .ok g' ∧
          g'.allHints.map TutorHint.hintId = g.allHints.map TutorHint.hintId) ↔
        ∀ h ∈ g.hints, Decimal.IsDouble h.hintId))) ∧
    (lib.KeepsWhole RatingSet.wholeColumns (s.rows style) → ((∃ sheet, s.hintSheet lib style = .ok sheet ∧
        sheet.records.map (·.lookup "matchID") = s.matchedIds.map fun i => some ((i.map Text.intText).getD "")) ↔
      ∀ i, some i ∈ s.matchedIds → Export.fits i = true ∧ (none ∈ s.matchedIds → Decimal.IsDouble i))) := by
  refine ⟨⟨_, toSheet_of_wellFormed hrequest hresult, fun hreturns => ?_⟩, s.matchColumn_exact_iff style⟩
  obtain ⟨text, htext, hread⟩ := result_ofText hrequest hresult path hreturns
  refine ⟨text, htext, ?_⟩
  simp only [hread, map_read_eq_ok_iff]
  constructor
  · rintro g' ⟨hids, rfl⟩
    exact hintIds_asReadBack hids
  · have hexact : g.allHints.map (fun h => Decimal.roundInt h.hintId) = g.allHints.map TutorHint.hintId ↔
        ∀ h ∈ g.hints, Decimal.roundInt h.hintId = h.hintId := by
      simp only [List.map_inj_left, mem_allHints]
    simp only [← Decimal.roundInt_eq_self_iff]
    constructor
    · rintro ⟨g', ⟨hids, rfl⟩, hsame⟩ h hh
      exact ⟨hexact.1 ((hintIds_asReadBack hids).symm.trans hsame) h hh, hids h hh⟩
    · intro h
      have hids : ∀ x ∈ g.hints, x.hintId.natAbs < Decimal.overflow := fun x hx => (h x hx).2
      exact ⟨_, ⟨hids, rfl⟩, (hintIds_asReadBack hids).trans (hexact.2 fun x hx => (h x hx).1)⟩

/-- Two hints of the given ids, alike in everything else. -/
def alike (i j : Int) : GoldStandard :=
  ⟨[i, j].map fun id =>
    { hintId := id, requestId := "r", assignmentId := "a", year := ""
      requestTree := some (.leaf ⟨"script", none, none⟩), result := some (.leaf ⟨"script", none, none⟩) }⟩

theorem alike_requestTree (i j : Int) : ∀ p ∈ (alike i j).requests,
    ∃ t, (alike i j).requestTree? p.1 p.2 = some t ∧ t.WellFormed := by
  rintro ⟨a, r⟩ hp
  have hkeys : ∀ h ∈ (alike i j).hints, h.key = ("a", "r") := by simp [alike, TutorHint.key]
  obtain ⟨h, hh, hkey⟩ := mem_requests.1 hp
  rw [hkeys h hh] at hkey
  obtain ⟨rfl, rfl⟩ := Prod.mk.inj hkey
  exact ⟨_, rfl, Tree.wellFormed_leaf _⟩

theorem alike_result (i j : Int) : ∀ h ∈ (alike i j).hints, ∃ t, h.result = some t ∧ t.WellFormed := by
  simp [alike, Tree.wellFormed_leaf]

theorem alike_returns (i j : Int) {sheet : Sheet} (h : (alike i j).toSheet = .ok sheet) :
    TableLibrary.csv.Returns sheet :=
  csv_returns (alike_requestTree i j) (alike_result i j) (by simp [alike]) h

/-- The ratings of two outcomes, of which only the first one matches a hint. -/
def halfMatched (id : Int) : RatingSet Float :=
  let outcome : Outcome Float :=
    { result := none, assignmentId := "a", requestId := "r", weight := 1.0, id := .null }
  let hint : TutorHint :=
    { hintId := id, requestId := "r", assignmentId := "a", year := "", requestTree := none, result := none }
  ⟨"all", [⟨"r", "a", none, {}, [⟨outcome, some ⟨0, hint⟩, .fullMatch⟩, ⟨outcome, none, .unmatched⟩]⟩]⟩

theorem matchedIds_halfMatched (id : Int) : (halfMatched id).matchedIds = [some id, none] := rfl

/-- Small ids come back. An id of 54 bits does not, neither from the spreadsheet nor in the export next to an outcome
without a match. -/
theorem hintIds_survive_of_alike :
    (∃ text, (alike 7 8).toText .csv = .ok text ∧ ∃ g, (ofText .csv "gold.csv" text).result = .ok g ∧
      g.allHints.map TutorHint.hintId = (alike 7 8).allHints.map TutorHint.hintId) ∧
    (∃ text, (alike 7 (2 ^ 53 + 1)).toText .csv = .ok text ∧ ¬∃ g, (ofText .csv "gold.csv" text).result = .ok g ∧
      g.allHints.map TutorHint.hintId = (alike 7 (2 ^ 53 + 1)).allHints.map TutorHint.hintId) ∧
    (∃ sheet, (halfMatched 7).hintSheet .csv = .ok sheet ∧
      sheet.records.map (·.lookup "matchID") = [some (Text.intText 7), some ""]) ∧
    ¬∃ sheet, (halfMatched (2 ^ 53 + 1)).hintSheet .csv = .ok sheet ∧
      sheet.records.map (·.lookup "matchID") = [some (Text.intText (2 ^ 53 + 1)), some ""] := by
  obtain ⟨⟨sheet, hsheet, hround⟩, hexport⟩ := hintIds_survive_iff .csv (alike_requestTree 7 8) (alike_result 7 8)
    "gold.csv" (halfMatched 7) .html
  obtain ⟨⟨sheet', hsheet', hround'⟩, hexport'⟩ := hintIds_survive_iff .csv (alike_requestTree 7 (2 ^ 53 + 1))
    (alike_result 7 (2 ^ 53 + 1)) "gold.csv" (halfMatched (2 ^ 53 + 1)) .html
  obtain ⟨text, htext, -, hsame⟩ := hround (alike_returns _ _ hsheet)
  obtain ⟨text', htext', -, hsame'⟩ := hround' (alike_returns _ _ hsheet')
  have hcolumn := hexport (TableLibrary.csv_keepsWhole _ _)
  have hcolumn' := hexport' (TableLibrary.csv_keepsWhole _ _)
  have hseven : Decimal.IsDouble 7 := Decimal.isDouble_of_natAbs_le (by decide)
  have height : Decimal.IsDouble 8 := Decimal.isDouble_of_natAbs_le (by decide)
  have hodd : ¬Decimal.IsDouble (2 ^ 53 + 1) := Decimal.not_isDouble_of_odd (by decide) (by decide)
  refine ⟨⟨text, htext, hsame.2 ?_⟩, ⟨text', htext', fun h => ?_⟩, hcolumn.2 ?_, fun h => ?_⟩
  · simp [alike, hseven, height]
  · exact hodd (hsame'.1 h _ (List.mem_cons_of_mem _ List.mem_cons_self))
  · simp [matchedIds_halfMatched, hseven, Export.fits, Export.signedEnd]
  · exact hodd ((hcolumn'.1 h _ List.mem_cons_self).2 (List.mem_cons_of_mem _ List.mem_cons_self))

/-- Hints whose ids are neighbours beyond 53 bits come back with one id. -/
theorem neighbours_become_equal : ∃ text g, (alike (2 ^ 53) (2 ^ 53 + 1)).toText .csv = .ok text ∧
    (ofText .csv "gold.csv" text).result = .ok g ∧
    (alike (2 ^ 53) (2 ^ 53 + 1)).allHints.map TutorHint.hintId = [2 ^ 53, 2 ^ 53 + 1] ∧
    g.allHints.map TutorHint.hintId = [2 ^ 53, 2 ^ 53] := by
  have hrequest := alike_requestTree (2 ^ 53) (2 ^ 53 + 1)
  have hresult := alike_result (2 ^ 53) (2 ^ 53 + 1)
  have hreturns := alike_returns _ _ (toSheet_of_wellFormed hrequest hresult)
  obtain ⟨text, htext, hread⟩ := result_ofText hrequest hresult "gold.csv" hreturns
  have hids : ∀ h ∈ (alike (2 ^ 53) (2 ^ 53 + 1)).hints, h.hintId.natAbs < Decimal.overflow := by
    decide +kernel
  have hall : (alike (2 ^ 53) (2 ^ 53 + 1)).allHints.map TutorHint.hintId = [2 ^ 53, 2 ^ 53 + 1] := by decide +kernel
  refine ⟨text, _, htext, hread.trans (map_read_eq_ok_iff.2 ⟨hids, rfl⟩), hall, ?_⟩
  rw [hintIds_asReadBack hids]
  decide +kernel

end GoldStandard

end HintQuality
