import HintQuality.Proofs.Computations
import HintQuality.Proofs.DecimalText
import HintQuality.Proofs.ExactIntegers
import HintQuality.Proofs.ScoreViews
import HintQuality.Rating.Export
/-!
# Ids of matched hints in exported ratings

The column of matched hints is one of whole numbers. A library refuses ids beyond 64 bits there, and as soon as an
outcome is unmatched all others pass through doubles (`KeepsWhole`). So the column names the matched hints exactly if
their ids have 64 bits and are doubles or all outcomes are matched (`matchColumn_exact_iff`).

The tables of this development treat columns of whole numbers like that (`csv_keepsWhole`): a column has the cells that
it is given, as far as they can be written (`map_lookup_sheet`).
-/

namespace HintQuality

namespace Export

/-! ## Columns of a table -/

section Columns

variable {wholeColumns : List String} {rows : List Json.Fields} {s : Sheet} {name : String}

/-- The cells of a column as they are written. -/
def writtenCells (wholeColumns : List String) (rows : List Json.Fields) (name : String) : Except Failure (List Json) :=
  if name ∈ wholeColumns then whole (column rows name) else .ok (uniform (column rows name))

theorem length_whole {cells written : List Json} (h : whole cells = .ok written) : written.length = cells.length := by
  unfold whole at h
  split_ifs at h
  · rw [Except.ok.inj h]
  · rw [← Except.ok.inj h, List.length_map]

theorem length_uniform (cells : List Json) : (uniform cells).length = cells.length := by
  unfold uniform
  split_ifs
  · exact List.length_map _
  · rfl

theorem length_writtenCells {written : List Json} (h : writtenCells wholeColumns rows name = .ok written) :
    written.length = rows.length := by
  have hcolumn : (column rows name).length = rows.length := List.length_map _
  rw [← hcolumn]
  unfold writtenCells at h
  split_ifs at h
  · exact length_whole h
  · rw [← Except.ok.inj h]
    exact length_uniform _

/-- A table is written if all its columns are. -/
theorem sheet_eq_ok_iff : sheet wholeColumns rows = .ok s ↔ ∃ written,
    List.Forall₂ (fun name cells => writtenCells wholeColumns rows name = .ok cells) (columnNames rows) written ∧
      ⟨columnNames rows, transpose rows.length (written.map (·.map cellText))⟩ = s := by
  have hok : ∀ t, (Except.ok t : Except Failure Sheet) = .ok s ↔ t = s := fun t => ⟨Except.ok.inj, congrArg _⟩
  simp only [← mapM_eq_ok_iff, ← hok]
  exact bind_eq_ok_iff

/-- A row of names and cells has the cell of a column under its name. -/
theorem exists_lookup_zip {names : List String} {written : List (List Json)}
    {cellsOf : String → Except Failure (List Json)}
    (h : List.Forall₂ (fun name cells => cellsOf name = .ok cells) names written) (hname : name ∈ names) :
    ∃ cells, cellsOf name = .ok cells ∧
      ∀ f : List Json → String, (names.zip (written.map f)).lookup name = some (f cells) := by
  -- A name that comes twice finds its first column, and both columns have the same cells.
  induction h with
  | nil => cases hname
  | @cons other cells _ _ hcells _ ih =>
    by_cases hother : name = other
    · subst hother
      exact ⟨cells, hcells, fun f => List.lookup_cons_self⟩
    · obtain ⟨cells', hcells', hlookup⟩ := ih (List.mem_of_ne_of_mem hother hname)
      refine ⟨cells', hcells', fun f => ?_⟩
      rw [List.map_cons, List.zip_cons_cons, List.lookup_cons, beq_false_of_ne hother]
      exact hlookup f

/-- A column of a table that is written has the texts of its cells. -/
theorem map_lookup_sheet (h : sheet wholeColumns rows = .ok s) (hname : name ∈ columnNames rows) :
    ∃ cells, writtenCells wholeColumns rows name = .ok cells ∧
      s.records.map (·.lookup name) = cells.map fun v => some (cellText v) := by
  obtain ⟨written, hwritten, rfl⟩ := sheet_eq_ok_iff.1 h
  obtain ⟨cells, hcells, hlookup⟩ := exists_lookup_zip hwritten hname
  have hlength := length_writtenCells hcells
  refine ⟨cells, hcells, List.ext_getElem (by simp [Sheet.records, transpose, hlength]) fun i hi hi' => ?_⟩
  have hlt : i < cells.length := by simpa using hi'
  have hcell : (cells.map cellText).getD i "" = cellText cells[i] := by simp [List.getD, hlt]
  have hrow := hlookup fun c => (c.map cellText).getD i ""
  rw [hcell] at hrow
  simpa [Sheet.records, transpose, Function.comp_def] using hrow

theorem exists_sheet (h : ∀ name ∈ columnNames rows, ∃ cells, writtenCells wholeColumns rows name = .ok cells) :
    ∃ s, sheet wholeColumns rows = .ok s := by
  choose! cellsOf hcells using h
  refine ⟨_, sheet_eq_ok_iff.2 ⟨(columnNames rows).map cellsOf, ?_, rfl⟩⟩
  rw [List.forall₂_map_right_iff, List.forall₂_same]
  exact hcells

end Columns

/-! ## Columns of whole numbers -/

section Whole

variable {ids : List (Option Int)} {i : Int}

theorem ints_optionalInt (ids : List (Option Int)) : ints (ids.map optionalInt) = ids.filterMap id := by
  rw [ints, List.filterMap_map]
  refine List.filterMap_congr fun i _ => ?_
  cases i <;> rfl

theorem length_filterMap_id_eq_iff : (ids.filterMap id).length = ids.length ↔ none ∉ ids := by
  rw [List.length_filterMap_eq_countP, List.countP_eq_length]
  constructor
  · intro h hnone
    exact absurd (h none hnone) (by simp)
  · intro h i hi
    cases i with
    | none => exact absurd hi h
    | some i => rfl

/-- A column of whole numbers and blanks is refused if a number has more than 64 bits. Otherwise the numbers pass
through doubles if there is a blank, and are written as they are if not. -/
theorem whole_optionalInt {written : List Json} : whole (ids.map optionalInt) = .ok written ↔
    (∀ i, some i ∈ ids → fits i = true) ∧
      ids.map (fun i => optionalInt (if none ∈ ids then i.map throughFloat else i)) = written := by
  have hfits : (ints (ids.map optionalInt)).all fits = true ↔ ∀ i, some i ∈ ids → fits i = true := by
    rw [ints_optionalInt, List.all_eq_true]
    simp only [List.mem_filterMap, id_eq, exists_eq_right]
  have hlength : (ints (ids.map optionalInt)).length = (ids.map optionalInt).length ↔ none ∉ ids := by
    rw [ints_optionalInt, List.length_map, length_filterMap_id_eq_iff]
  unfold whole
  by_cases hall : ∀ i, some i ∈ ids → fits i = true
  · rw [if_pos (hfits.2 hall), and_iff_right hall, Except.ok.injEq]
    by_cases hnone : none ∈ ids
    · rw [if_neg (hlength.not_left.2 hnone), List.map_map]
      refine Iff.of_eq (congrArg (· = written) (List.map_congr_left fun i _ => ?_))
      rw [if_pos hnone]
      cases i <;> rfl
    · rw [if_pos (hlength.2 hnone)]
      simp only [if_neg hnone]
  · rw [if_neg (hfits.not.2 hall)]
    refine ⟨fun h => ?_, fun h => absurd h.1 hall⟩
    split_ifs at h

/-- A number of 64 bits passes through a double unchanged exactly if it is one. -/
theorem throughFloat_eq_self_iff (h : fits i = true) : throughFloat i = i ↔ Decimal.IsDouble i := by
  have hlt : i.natAbs < Decimal.overflow := by
    have hend : signedEnd.natAbs < Decimal.overflow :=
      (Decimal.nearest_eq_and_lt_iff.2 ⟨1, 63, by decide, by decide, rfl⟩).2
    obtain ⟨hlow, hhigh⟩ := Bool.and_eq_true_iff.1 h
    have hlow := of_decide_eq_true hlow
    have hhigh := of_decide_eq_true hhigh
    have hpos : 0 ≤ signedEnd := by decide
    omega
  rw [throughFloat, Decimal.truncate_ofInt hlt, ← Decimal.roundInt_eq_self_iff, and_iff_left hlt]

theorem int_mem_optionalInt : .int i ∈ ids.map optionalInt ↔ some i ∈ ids := by
  constructor
  · intro h
    obtain ⟨j, hj, he⟩ := List.mem_map.1 h
    cases j with
    | none => cases he
    | some j => exact Json.int.inj he ▸ hj
  · exact fun h => List.mem_map.2 ⟨_, h, rfl⟩

theorem null_mem_optionalInt : .null ∈ ids.map optionalInt ↔ none ∈ ids := by
  constructor
  · intro h
    obtain ⟨j, hj, he⟩ := List.mem_map.1 h
    cases j with
    | none => exact hj
    | some j => cases he
  · exact fun h => List.mem_map.2 ⟨_, h, rfl⟩

theorem cellText_optionalInt (i : Option Int) : cellText (optionalInt i) = (i.map Text.intText).getD "" := by
  cases i <;> rfl

end Whole

end Export

/-! ## Matched hints -/

namespace RatingSet

/-- The ids of the matched hints, row by row; a request without outcomes has one row, without an id. -/
def matchedIds {ω : Type} (s : RatingSet ω) : List (Option Int) :=
  s.requests.flatMap fun r =>
    if r.ratings.isEmpty then [none] else r.ratings.map fun x => x.hint?.map TutorHint.hintId

variable (s : RatingSet Float) (style : ColorStyle)

/-- A column with the numbers that the rows about outcomes have, if they have one. -/
theorem column_eq {f : HintRow Float → Option Int} {name : String}
    (hcell : ∀ row : HintRow Float, (row.cells.get? name).getD .null = optionalInt (f row)) :
    Export.column (s.rows style) name =
      ((s.requests.flatMap fun r => r.hintRows style).map f).map optionalInt := by
  rw [Export.column, rows, List.map_map, List.map_map]
  exact List.map_congr_left fun row _ => hcell row

theorem column_matchId : Export.column (s.rows style) "matchID" = s.matchedIds.map optionalInt := by
  have hids : (s.requests.flatMap fun r => r.hintRows style).map HintRow.matchId = s.matchedIds := by
    rw [List.map_flatMap, matchedIds]
    refine List.flatMap_congr fun r _ => ?_
    by_cases h : r.ratings = []
    · rw [r.hintRows_of_nil style h, h]
      rfl
    · have hmatch : HintRow.matchId ∘ r.numberedRow style =
          (fun x : Rating Float => x.hint?.map TutorHint.hintId) ∘ Prod.fst := rfl
      rw [r.hintRows_eq style h, List.map_map, hmatch, ← List.map_map, List.zipIdx_map_fst,
        if_neg (by simpa using h)]
  rw [← hids]
  exact s.column_eq style fun _ => rfl

/-- The numbers of validities and priorities are small. -/
theorem small_of_column {f : HintRow Float → Option Int} {name : String}
    (hcell : ∀ row : HintRow Float, (row.cells.get? name).getD .null = optionalInt (f row))
    (hsmall : ∀ row i, f row = some i → Export.fits i = true ∧ i.natAbs ≤ 2 ^ 53) {i : Int}
    (hi : .int i ∈ Export.column (s.rows style) name) : Export.fits i = true ∧ Export.throughFloat i = i := by
  rw [s.column_eq style hcell, Export.int_mem_optionalInt] at hi
  obtain ⟨row, -, hrow⟩ := List.mem_map.1 hi
  obtain ⟨hfits, hle⟩ := hsmall row i hrow
  exact ⟨hfits, (Export.throughFloat_eq_self_iff hfits).2 (Decimal.isDouble_of_natAbs_le hle)⟩

theorem small_validity {i : Int} (hi : .int i ∈ Export.column (s.rows style) "validity") :
    Export.fits i = true ∧ Export.throughFloat i = i := by
  refine s.small_of_column style (fun _ => rfl) (fun row i h => ?_) hi
  obtain ⟨v, -, rfl⟩ := Option.map_eq_some_iff.1 h
  cases v <;> decide

theorem small_priority {i : Int} (hi : .int i ∈ Export.column (s.rows style) "priority") :
    Export.fits i = true ∧ Export.throughFloat i = i := by
  refine s.small_of_column style (fun _ => rfl) (fun row i h => ?_) hi
  obtain ⟨p, -, rfl⟩ := Option.map_eq_some_iff.1 h
  cases p <;> decide

section Library

variable {lib : TableLibrary} {sheet : Sheet}

/-- Next to unmatched outcomes the ids of matched hints pass through doubles. -/
theorem matchColumn_of_unmatched (hlib : lib.KeepsWhole wholeColumns (s.rows style)) (hnone : none ∈ s.matchedIds)
    (hsheet : s.hintSheet lib style = .ok sheet) : sheet.records.map (·.lookup "matchID") =
      s.matchedIds.map fun i => some (((i.map Export.throughFloat).map Text.intText).getD "") := by
  have hnull : .null ∈ Export.column (s.rows style) "matchID" := by
    rw [s.column_matchId style]
    exact Export.null_mem_optionalInt.2 hnone
  rw [hlib.blank _ List.mem_cons_self hnull sheet hsheet, s.column_matchId style, List.map_map]
  refine List.map_congr_left fun i _ => ?_
  cases i <;> rfl

/-- If all outcomes are matched, the ids of their hints are written as they are. -/
theorem matchColumn_of_matched (hlib : lib.KeepsWhole wholeColumns (s.rows style)) (hnone : none ∉ s.matchedIds)
    (hsheet : s.hintSheet lib style = .ok sheet) : sheet.records.map (·.lookup "matchID") =
      s.matchedIds.map fun i => some ((i.map Text.intText).getD "") := by
  have hnull : .null ∉ Export.column (s.rows style) "matchID" := by
    rw [s.column_matchId style]
    exact fun h => hnone (Export.null_mem_optionalInt.1 h)
  rw [hlib.full _ List.mem_cons_self hnull sheet hsheet, s.column_matchId style, List.map_map]
  exact List.map_congr_left fun i _ => congrArg some (Export.cellText_optionalInt i)

/-- The sheet is written if the ids have 64 bits and, unless all outcomes are matched, are doubles. -/
theorem exists_hintSheet (hlib : lib.KeepsWhole wholeColumns (s.rows style))
    (h : ∀ i, some i ∈ s.matchedIds → Export.fits i = true ∧ (none ∈ s.matchedIds → Decimal.IsDouble i)) :
    ∃ sheet, s.hintSheet lib style = .ok sheet := by
  refine hlib.accepts fun name hname i hi => ?_
  simp only [wholeColumns, List.mem_cons, List.not_mem_nil, or_false] at hname
  rcases hname with rfl | rfl | rfl
  · rw [s.column_matchId style, Export.int_mem_optionalInt] at hi
    obtain ⟨hfits, hdouble⟩ := h i hi
    refine ⟨hfits, fun hnull => (Export.throughFloat_eq_self_iff hfits).2 (hdouble ?_)⟩
    rwa [s.column_matchId style, Export.null_mem_optionalInt] at hnull
  · exact (s.small_validity style hi).imp_right fun hsame _ => hsame
  · exact (s.small_priority style hi).imp_right fun hsame _ => hsame

/-- The ids of matched hints have 64 bits if the sheet is written. -/
theorem fits_of_hintSheet (hlib : lib.KeepsWhole wholeColumns (s.rows style))
    (hsheet : s.hintSheet lib style = .ok sheet) {i : Int} (hi : some i ∈ s.matchedIds) : Export.fits i = true := by
  by_contra hnot
  have hcell : .int i ∈ Export.column (s.rows style) "matchID" := by
    rw [s.column_matchId style]
    exact Export.int_mem_optionalInt.2 hi
  exact hlib.refuses _ List.mem_cons_self i hcell (Bool.eq_false_of_not_eq_true hnot) sheet hsheet

/-- The sheet with a row per outcome is written and names the matched hints exactly if their ids have 64 bits and,
unless all outcomes are matched, are doubles. -/
theorem matchColumn_exact_iff (hlib : lib.KeepsWhole wholeColumns (s.rows style)) :
    (∃ sheet, s.hintSheet lib style = .ok sheet ∧
      sheet.records.map (·.lookup "matchID") = s.matchedIds.map fun i => some ((i.map Text.intText).getD "")) ↔
    ∀ i, some i ∈ s.matchedIds → Export.fits i = true ∧ (none ∈ s.matchedIds → Decimal.IsDouble i) := by
  constructor
  · rintro ⟨sheet, hsheet, hids⟩ i hi
    have hfits := s.fits_of_hintSheet style hlib hsheet hi
    refine ⟨hfits, fun hnone => (Export.throughFloat_eq_self_iff hfits).1 (Decimal.intText_injective ?_)⟩
    have hsame := (s.matchColumn_of_unmatched style hlib hnone hsheet).symm.trans hids
    exact Option.some.inj (List.map_inj_left.1 hsame (some i) hi)
  · intro h
    obtain ⟨sheet, hsheet⟩ := s.exists_hintSheet style hlib h
    refine ⟨sheet, hsheet, ?_⟩
    by_cases hnone : none ∈ s.matchedIds
    · rw [s.matchColumn_of_unmatched style hlib hnone hsheet]
      refine List.map_congr_left fun i hi => ?_
      cases i with
      | none => rfl
      | some i =>
        obtain ⟨hfits, hdouble⟩ := h i hi
        rw [Option.map_some, (Export.throughFloat_eq_self_iff hfits).2 (hdouble hnone)]
    · exact s.matchColumn_of_matched style hlib hnone hsheet

end Library

end RatingSet

/-! ## The tables of this development -/

namespace TableLibrary

open Export

variable {names : List String} {rows : List Json.Fields}

/-- A column of whole numbers and blanks, if its table is written. -/
theorem map_lookup_optionalInt {name : String} {ids : List (Option Int)} {s : Sheet} (hname : name ∈ names)
    (hpresent : rows ≠ [] → name ∈ columnNames rows) (hids : column rows name = ids.map optionalInt)
    (hs : sheet names rows = .ok s) : (∀ i, some i ∈ ids → fits i = true) ∧ s.records.map (·.lookup name) =
      ids.map fun i => some (cellText (optionalInt (if none ∈ ids then i.map throughFloat else i))) := by
  by_cases hrows : rows = []
  · subst hrows
    obtain rfl : ids = [] := List.map_eq_nil_iff.1 hids.symm
    obtain rfl : (⟨[], []⟩ : Sheet) = s := Except.ok.inj hs
    exact ⟨by simp, rfl⟩
  · obtain ⟨cells, hcells, hlookup⟩ := map_lookup_sheet hs (hpresent hrows)
    rw [writtenCells, if_pos hname, hids, whole_optionalInt] at hcells
    obtain ⟨hfits, rfl⟩ := hcells
    exact ⟨hfits, by rw [hlookup, List.map_map]; rfl⟩

/-- Columns of whole numbers and blanks are written or refused as they should be. -/
theorem csv_keepsWhole_of_columns (hpresent : ∀ name ∈ names, rows ≠ [] → name ∈ columnNames rows)
    (hcolumns : ∀ name ∈ names, ∃ ids : List (Option Int), column rows name = ids.map optionalInt) :
    csv.KeepsWhole names rows where
  accepts h := by
    refine exists_sheet fun name _ => ?_
    unfold writtenCells
    split_ifs with hname
    · obtain ⟨ids, hids⟩ := hcolumns name hname
      rw [hids]
      refine ⟨_, whole_optionalInt.2 ⟨fun i hi => ?_, rfl⟩⟩
      exact (h name hname i (hids ▸ int_mem_optionalInt.2 hi)).1
    · exact ⟨_, rfl⟩
  refuses name hname i hi hfits s hs := by
    obtain ⟨ids, hids⟩ := hcolumns name hname
    rw [hids, int_mem_optionalInt] at hi
    rw [(map_lookup_optionalInt hname (hpresent name hname) hids hs).1 i hi] at hfits
    cases hfits
  full name hname hnull s hs := by
    obtain ⟨ids, hids⟩ := hcolumns name hname
    rw [hids, null_mem_optionalInt] at hnull
    rw [(map_lookup_optionalInt hname (hpresent name hname) hids hs).2, hids, List.map_map]
    simp only [if_neg hnull]
    rfl
  blank name hname hnull s hs := by
    obtain ⟨ids, hids⟩ := hcolumns name hname
    rw [hids, null_mem_optionalInt] at hnull
    rw [(map_lookup_optionalInt hname (hpresent name hname) hids hs).2, hids, List.map_map]
    refine List.map_congr_left fun i _ => ?_
    rw [if_pos hnull]
    cases i <;> rfl

/-- The whole numbers of ratings are written or refused as they should be. -/
theorem csv_keepsWhole (s : RatingSet Float) (style : ColorStyle) :
    csv.KeepsWhole RatingSet.wholeColumns (s.rows style) := by
  refine csv_keepsWhole_of_columns (fun name hname hrows => ?_) fun name hname => ?_
  · obtain ⟨fields, hfields⟩ := List.exists_mem_of_ne_nil _ hrows
    obtain ⟨row, -, rfl⟩ := List.mem_map.1 hfields
    rw [columnNames, List.mem_eraseDups, List.mem_flatMap]
    refine ⟨_, hfields, ?_⟩
    simp only [RatingSet.wholeColumns, List.mem_cons, List.not_mem_nil, or_false] at hname
    rcases hname with rfl | rfl | rfl <;> simp [HintRow.cells, HintRow.columns]
  · simp only [RatingSet.wholeColumns, List.mem_cons, List.not_mem_nil, or_false] at hname
    rcases hname with rfl | rfl | rfl
    · exact ⟨_, s.column_eq style fun _ => rfl⟩
    · exact ⟨_, s.column_eq style fun _ => rfl⟩
    · exact ⟨_, s.column_eq style fun _ => rfl⟩

end TableLibrary

end HintQuality
