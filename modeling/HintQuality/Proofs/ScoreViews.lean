import HintQuality.Proofs.Lists
import HintQuality.Proofs.Scores
import HintQuality.Rating.Table
/-!
# Views of the scores

The shares of a request are given three times: as a table, as columns of the table of requests, and by the rows of the
table of outcomes. The rows no longer have the ratings, but what their cells keep of a verdict, a label and two numbers
that may be missing, still tells whether it counts (`Rating.showsMatch_row`). So the rows that count add up to the
shares, and their number is the exported one (`RequestRating.views_agree`).
-/

namespace HintQuality

/-! ## Reading cells -/

/-- The match type of a label. -/
def MatchType.ofLabel? (s : String) : Option MatchType :=
  all.find? fun m => m.label = s

theorem MatchType.ofLabel?_label (m : MatchType) : ofLabel? m.label = some m := by
  cases m <;> decide +kernel

/-- The match type in a cell. -/
def matchCell? : Json → Option MatchType
  | .str s => MatchType.ofLabel? s
  | _ => none

/-- The number in a cell. -/
def intCell? : Json → Option Int
  | .int i => some i
  | _ => none

theorem intCell?_optionalInt (i : Option Int) : intCell? (optionalInt i) = i := by
  cases i <;> rfl

/-- Whether the cells about an outcome show a match at least so close, with a hint that is at least so valid and does
not come too soon. -/
def showsMatch (m : MatchType) (v : Validity) (cells : Json.Fields) : Bool :=
  ((cells.get? "type").bind matchCell?).any (·.isAtLeast m) &&
    ((cells.get? "validity").bind intCell?).any (fun i => (v.toNat : Int) ≤ i) &&
      (cells.get? "priority").bind intCell? ≠ some (Priority.tooSoon.toNat : Int)

section Cells

variable {ω : Type} (number : ω → Json)

theorem HintRow.get?_order (row : HintRow ω) : (row.columns number).get? "order" = some (.int row.order) := by
  rfl

theorem HintRow.get?_weightNorm (row : HintRow ω) :
    (row.columns number).get? "weightNorm" = some (number row.weightNorm) := by
  rfl

theorem HintRow.showsMatch_columns (row : HintRow ω) (m : MatchType) (v : Validity) :
    showsMatch m v (row.columns number) =
      (row.matchType.isAtLeast m && row.validity.any (·.isAtLeast v) && !decide (row.priority = some .tooSoon)) := by
  have htype : ((row.columns number).get? "type").bind matchCell? = some row.matchType :=
    MatchType.ofLabel?_label row.matchType
  have hvalidity : ((row.columns number).get? "validity").bind intCell? =
      row.validity.map fun v => (v.toNat : Int) := intCell?_optionalInt _
  have hpriority : ((row.columns number).get? "priority").bind intCell? =
      row.priority.map fun p => (p.toNat : Int) := intCell?_optionalInt _
  rw [showsMatch, htype, hvalidity, hpriority]
  congr 1
  · congr 1
    cases row.validity with
    | none => rfl
    | some w => exact decide_eq_decide.2 Int.ofNat_le
  · rcases row.priority with _ | p
    · rfl
    · cases p <;> rfl

end Cells

/-! ## Rows -/

theorem Validity.not_isAtLeast_of_scored {v : Validity} (hv : v ∈ scored) : noTutors.isAtLeast v = false := by
  cases v
  · exact absurd hv (by decide)
  all_goals rfl

section Rows

variable {ω : Type} [Weight ω] (number : ω → Json) (style : ColorStyle)

/-- What is exported about a rating tells whether it counts for a score. -/
theorem Rating.showsMatch_row (x : Rating ω) (order : Nat) (total : ω) (start : Option Tree) (policy : Policy)
    (m : MatchType) {v : Validity} (hv : v ∈ Validity.scored) :
    showsMatch m v ((x.row order total start policy style).columns number) = RequestRating.counts m v x := by
  rw [HintRow.showsMatch_columns, RequestRating.counts]
  cases hhint : x.hint? with
  | none =>
    have hvalidity : x.validity.isAtLeast v = false := by
      rw [Rating.validity, hhint]
      exact Validity.not_isAtLeast_of_scored hv
    have hrow : (x.row order total start policy style).validity = none := congrArg (Option.map _) hhint
    rw [hrow, hvalidity, Option.any_none, Bool.and_false, Bool.and_false, Bool.false_and, Bool.false_and]
  | some h =>
    simp [Rating.row, Rating.validity, Rating.priority, Rating.isTooSoon, TutorHint.isTooSoon, hhint]

namespace RequestRating

variable (r : RequestRating ω)

/-- The rows about outcomes that count for a score, to go by their cells. -/
def matchRows (m : MatchType) (v : Validity) : List (HintRow ω) :=
  (r.hintRows style).filter fun row => showsMatch m v (row.columns number)

/-- The row about a rating with its place. -/
def numberedRow (x : Rating ω × Nat) : HintRow ω :=
  x.1.row x.2 r.totalWeight r.requestTree r.policy style

theorem hintRows_eq (h : r.ratings ≠ []) : r.hintRows style = r.ratings.zipIdx.map (r.numberedRow style) := by
  rw [hintRows, if_neg (by simpa using h)]
  rfl

theorem hintRows_of_nil (h : r.ratings = []) : r.hintRows style =
    [r.placeholder.row 0 (Weight.ofNat 1) r.requestTree r.policy style] := by
  rw [hintRows, if_pos (by simpa using h)]

/-- The rows that count are those of the ratings that count. -/
theorem map_matchRows {α : Type} {f : HintRow ω → α} {g : Rating ω → α} (m : MatchType) {v : Validity}
    (hv : v ∈ Validity.scored)
    (hfg : f ∘ r.numberedRow style = g ∘ Prod.fst) :
    (r.matchRows number style m v).map f = (r.ratings.filter (counts m v)).map g := by
  by_cases h : r.ratings = []
  · have hplace : counts m v r.placeholder = false := by
      have hvalidity : r.placeholder.validity.isAtLeast v = false := Validity.not_isAtLeast_of_scored hv
      rw [counts, hvalidity, Bool.and_false, Bool.false_and]
    rw [matchRows, r.hintRows_of_nil style h, h, List.filter_cons, Rating.showsMatch_row number style _ _ _ _ _ m hv,
      hplace]
    rfl
  · have hcounts : (fun row => showsMatch m v (row.columns number)) ∘ r.numberedRow style = counts m v ∘ Prod.fst :=
      funext fun x => Rating.showsMatch_row number style _ _ _ _ _ m hv
    rw [matchRows, r.hintRows_eq style h, List.filter_map, hcounts, List.map_map, hfg, ← List.map_map,
      ← List.filter_map, List.zipIdx_map_fst]

theorem length_matchRows (m : MatchType) {v : Validity} (hv : v ∈ Validity.scored) :
    (r.matchRows number style m v).length = r.validityCount m v := by
  have hunits := congrArg List.length (r.map_matchRows number style m hv (f := fun _ => ()) (g := fun _ => ()) rfl)
  rwa [List.length_map, List.length_map] at hunits

theorem get?_ratingRow {v : Validity} {m : MatchType} (hv : v ∈ Validity.scored) (hm : m ∈ MatchType.scored) :
    (r.ratingRow.columns number).get? (scoreColumn v m) = some (number (r.validityShare m v)) ∧
      (r.ratingRow.columns number).get? (scoreColumn v m ++ "_validCount") =
        some (number (Weight.ofNat (r.validityCount m v))) := by
  cases v
  · exact absurd hv (by decide)
  all_goals
    cases m
    · exact absurd hm (by decide)
    all_goals exact ⟨rfl, rfl⟩

/-- The row of a rating is at its place. -/
theorem getElem?_hintRows {i : Nat} {x : Rating ω} (hx : r.ratings[i]? = some x) :
    (r.hintRows style)[i]? = some (x.row i r.totalWeight r.requestTree r.policy style) := by
  have hne : r.ratings ≠ [] := by
    intro h
    rw [h] at hx
    cases hx
  rw [r.hintRows_eq style hne, List.getElem?_map, List.getElem?_zipIdx, hx, Nat.zero_add]
  rfl

theorem map_order_hintRows :
    (r.hintRows style).map HintRow.order = List.range (max 1 r.ratings.length) := by
  by_cases h : r.ratings = []
  · rw [r.hintRows_of_nil style h, h]
    rfl
  · have hone : max 1 r.ratings.length = r.ratings.length := max_eq_right (List.length_pos_iff.2 h)
    have horder : HintRow.order ∘ r.numberedRow style = Prod.snd := rfl
    rw [r.hintRows_eq style h, List.map_map, horder, List.zipIdx_map_snd, hone, List.range_eq_range']

end RequestRating

end Rows

/-! ## Agreement -/

namespace RequestRating

variable (r : RequestRating ℚ) (number : ℚ → Json) (style : ColorStyle)

theorem sum_share_map (xs : List (Rating ℚ)) (total : ℚ) :
    (xs.map fun x => Weight.share x.outcome.weight total).sum = (xs.map fun x => x.outcome.weight).sum / total := by
  simp only [Weight.share_eq, div_eq_mul_inv]
  exact List.sum_map_mul_right _ _ _

theorem weightNorm_numberedRow : HintRow.weightNorm ∘ r.numberedRow style =
    (fun x : Rating ℚ => Weight.share x.outcome.weight r.totalWeight) ∘ Prod.fst := rfl

/-- The rows that count add up to the share. -/
theorem sum_weightNorm_matchRows (m : MatchType) {v : Validity} (hv : v ∈ Validity.scored) :
    ((r.matchRows number style m v).map HintRow.weightNorm).sum = r.validityShare m v := by
  rw [r.map_matchRows number style m hv (r.weightNorm_numberedRow style), sum_share_map, validityShare, Weight.share_eq,
    validityWeight, Weight.sum_eq]

/-- All rows of a request with outcomes add up to one, or to nothing if there is no weight. -/
theorem sum_weightNorm_hintRows : ((r.hintRows style).map HintRow.weightNorm).sum =
    if r.ratings ≠ [] ∧ r.totalWeight = 0 then 0 else 1 := by
  by_cases h : r.ratings = []
  · rw [r.hintRows_of_nil style h, if_neg fun hne => hne.1 h, List.map_singleton,
      List.sum_singleton]
    exact (Weight.share_eq _ _).trans (div_self one_ne_zero)
  · rw [r.hintRows_eq style h, List.map_map, weightNorm_numberedRow, ← List.map_map, List.zipIdx_map_fst, sum_share_map,
      ← totalWeight_eq]
    split
    · rename_i hzero
      rw [hzero.2, div_zero]
    · rename_i hpos
      exact div_self fun hzero => hpos ⟨h, hzero⟩

/-- The views of the scores of a request agree. -/
structure ViewsAgree : Prop where
  /-- The table of requests has the shares. -/
  shares : (Validity.scored.map fun v => MatchType.scored.map fun m =>
    (r.ratingRow.columns number).get? (scoreColumn v m)) = r.validityTable.map (List.map fun x => some (number x))
  /-- The rows that count add up to the shares. -/
  sums : (Validity.scored.map fun v => MatchType.scored.map fun m =>
    ((r.matchRows number style m v).map HintRow.weightNorm).sum) = r.validityTable
  /-- The table of requests has the numbers of these rows. -/
  counts : ∀ v ∈ Validity.scored, ∀ m ∈ MatchType.scored,
    (r.ratingRow.columns number).get? (scoreColumn v m ++ "_validCount") =
      some (number (r.matchRows number style m v).length)
  /-- All rows add up to one, unless there are outcomes and none has any weight. -/
  total : ((r.hintRows style).map HintRow.weightNorm).sum = if r.ratings ≠ [] ∧ r.totalWeight = 0 then 0 else 1
  /-- Outcomes without any weight have no share. -/
  weightless : r.ratings ≠ [] → r.totalWeight = 0 → ∀ row ∈ r.hintRows style, row.weightNorm = 0
  /-- There is one row per outcome, at its place. -/
  rows : ∀ (i : Nat) (x : Rating ℚ), r.ratings[i]? = some x →
    (r.hintRows style)[i]? = some (x.row i r.totalWeight r.requestTree r.policy style)
  /-- The rows are numbered; a request without outcomes has one, too. -/
  orders : (r.hintRows style).map (fun row => (row.columns number).get? "order") =
    (List.range (max 1 r.ratings.length)).map fun i => some (.int i)
  /-- This one is unmatched and shows no program. -/
  placeholder : r.ratings = [] → ∀ row ∈ r.hintRows style,
    row.hintId = .int (-1) ∧ row.matchType = .unmatched ∧ row.matchId = none ∧ row.outcome = "" ∧ row.diff = ""
  /-- The table of outcomes has the shares of the rows. -/
  norms : ∀ row ∈ r.hintRows style, (row.columns number).get? "weightNorm" = some (number row.weightNorm)

/-- The table of requests, the table of shares and the rows about outcomes give the same scores. -/
theorem views_agree : r.ViewsAgree number style where
  shares := by
    rw [validityTable, List.map_map]
    refine List.map_congr_left fun v hv => ?_
    rw [Function.comp_apply, List.map_map]
    exact List.map_congr_left fun m hm => (r.get?_ratingRow number hv hm).1
  sums := by
    refine List.map_congr_left fun v hv => List.map_congr_left fun m _ => ?_
    exact r.sum_weightNorm_matchRows number style m hv
  counts := by
    intro v hv m hm
    rw [(r.get?_ratingRow number hv hm).2, r.length_matchRows number style m hv]
    rfl
  total := r.sum_weightNorm_hintRows style
  weightless := by
    intro hne hzero row hrow
    rw [r.hintRows_eq style hne] at hrow
    obtain ⟨x, -, rfl⟩ := List.mem_map.1 hrow
    show Weight.share x.1.outcome.weight r.totalWeight = 0
    rw [Weight.share_eq, hzero, div_zero]
  rows := fun i x hx => r.getElem?_hintRows style hx
  orders := by
    rw [← r.map_order_hintRows style, List.map_map]
    exact List.map_congr_left fun row _ => row.get?_order number
  placeholder := by
    intro h row hrow
    rw [r.hintRows_of_nil style h] at hrow
    obtain rfl := List.mem_singleton.1 hrow
    exact ⟨rfl, rfl, rfl, rfl, rfl⟩
  norms := fun row _ => row.get?_weightNorm number

end RequestRating

end HintQuality
