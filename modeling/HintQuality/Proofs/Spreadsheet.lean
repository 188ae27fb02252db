import HintQuality.Gold.Spreadsheet
import HintQuality.Proofs.Computations
import HintQuality.Proofs.Doubles
import HintQuality.Proofs.Grouping
import HintQuality.Proofs.SheetText
import HintQuality.Proofs.TreeText
import Mathlib.Data.List.DropRight
/-!
# Gold standards through spreadsheets

A gold standard that is written as a spreadsheet and read again keeps its assignments, its requests and its hints, each
with the request tree of the first hint of its request (`spreadsheet_round_trip`). The reader carries the last request
tree down the sheet, and every row that has none of its own belongs to the request of the row above (`carried_rows`);
what is read row by row is then the standard regrouped. Ids pass through doubles, which keep only some of them exactly
and have no room for the largest. All this needs a library that returns the cells of the sheet unchanged. The sheets of
this development do so, as long as no text of the standard has a carriage return (`csv_returns`).
-/

namespace HintQuality

theorem Traced.result_parseTree (source : Json) : (Traced.parseTree source).result = Tree.parse source := by
  unfold Traced.parseTree
  split
  · rename_i h
    exact h.symm
  · rfl

/-- A text that starts with something else than white space is not blank. -/
theorem Text.trim_isEmpty_of_cons {s : String} {c : Char} {cs : List Char} (hs : s.toList = c :: cs)
    (hc : isBlank c = false) : (trim s).isEmpty = false := by
  have hkept : trimBy isBlank s.toList ≠ [] := by
    show (s.toList.dropWhile isBlank).rdropWhile isBlank ≠ []
    rw [hs, List.dropWhile_cons_of_neg (by simp [hc])]
    intro hnil
    have := List.rdropWhile_eq_nil_iff.1 hnil c List.mem_cons_self
    rw [hc] at this
    cases this
  rw [← Bool.not_eq_true, String.isEmpty_iff, trim]
  simpa using hkept

namespace GoldStandard

/-! ## Rows -/

/-- The cells of the row of a hint, given the texts of its trees. -/
def cells (h : TutorHint) (start goal : String) : List String :=
  [h.assignmentId, h.requestId, h.year, Text.intText h.hintId] ++
    (Validity.all.map fun v => flagText (flag h.validity v)) ++
    [(h.priority.map fun p => Text.natText p.toNat).getD "", start, goal]

/-- The flags of a validity are read as that validity. -/
theorem readValidity_cells (h : TutorHint) (start goal : String) :
    readValidity (columns.zip (cells h start goal)) = h.validity := by
  have hflag : ∀ v : Validity, (columns.zip (cells h start goal)).lookup v.name =
      some (flagText (flag h.validity v)) := by
    intro v
    cases v <;> rfl
  have htrue : ∀ b, isTrue (flagText b) = b := by
    intro b
    cases b <;> decide
  unfold readValidity
  simp only [hflag, Option.map_some, Option.getD_some, htrue]
  cases h.validity <;> rfl

/-- A priority, or none, is read back. -/
theorem readPriority_cell (p : Option Priority) :
    readPriority ((p.map fun p => Text.natText p.toNat).getD "") = .ok p := by
  rcases p with _ | p
  · rfl
  · refine eq_ok_of_toOption ?_
    cases p <;> decide +kernel

theorem readWhole_intText (i : Int) : readWhole (Text.intText i) = Json.wholePart (Decimal.ofInt i) := by
  rw [readWhole, Json.floatOfText, Decimal.readFloat?_intText]
  rfl

/-- A hint as it is read back: by any tutors, with an id that has passed through a double, and with the request tree
of its request. -/
def readBack (start : Tree) (h : TutorHint) : TutorHint :=
  { h with
    tutor := "consensus"
    hintId := (Decimal.Binary.ofFloat (Decimal.ofInt h.hintId)).truncate
    requestTree := some start }

/-- The hint of a written row is read back, unless its id is beyond the range of doubles. -/
theorem result_readHint {h : TutorHint} {goal : Tree} (hgoal : h.result = some goal) (hwf : goal.WellFormed)
    (start : Tree) (text : String) :
    (readHint start (columns.zip (cells h text goal.toJsonText))).result =
      if h.hintId.natAbs < Decimal.overflow then .ok (readBack start h) else .error .infinityAsInteger := by
  have hparse : Tree.parse (.str goal.toJsonText) = .ok goal := by
    rw [Tree.parse_toJsonText hwf.distinctLabels, Tree.filled_eq_of_full goal hwf.full]
  have hpriority : cell (columns.zip (cells h text goal.toJsonText)) "priority" =
      (h.priority.map fun p => Text.natText p.toNat).getD "" := rfl
  have hid : cell (columns.zip (cells h text goal.toJsonText)) "hintID" = Text.intText h.hintId := rfl
  have hto : cell (columns.zip (cells h text goal.toJsonText)) "to" = goal.toJsonText := rfl
  simp only [readHint, Traced.result_bind, Traced.lift, hpriority, readPriority_cell, hid, readWhole_intText,
    Decimal.wholePart_ofInt, hto, Traced.result_parseTree, hparse, readValidity_cells, Except.bind]
  split_ifs with hlt
  · rw [readBack, hgoal]
    rfl
  · rfl

/-! ## Sheets -/

/-- A row that is written: its hint, the state of the program at its request, and whether the row says so itself. -/
structure Row where
  /-- The hint. -/
  hint : TutorHint
  /-- The state of the program at the request. -/
  start : Tree
  /-- Whether the row has the request tree. -/
  own : Bool

/-- The text of a tree, or nothing. -/
def treeText (t : Option Tree) : String :=
  (t.map Tree.toJsonText).getD ""

/-- The cells of a row. -/
def Row.cells (r : Row) : List String :=
  GoldStandard.cells r.hint (if r.own then r.start.toJsonText else "") (treeText r.hint.result)

/-- The trees of a row can be written and read. -/
structure Row.WellFormed (r : Row) : Prop where
  /-- The request tree is read as it is. -/
  start : r.start.WellFormed
  /-- So is the resulting tree. -/
  result : ∃ t, r.hint.result = some t ∧ t.WellFormed

/-- Every row without a request tree shares the one above. -/
def Carried : Option Tree → List Row → Prop
  | _, [] => True
  | above, r :: rows => (r.own = false → above = some r.start) ∧ Carried (some r.start) rows

/-- A row is read with its own request tree or with that above. -/
theorem result_readRequest {above : Option Tree} {r : Row} (hwf : r.WellFormed)
    (habove : r.own = false → above = some r.start) :
    (readRequest above (columns.zip r.cells)).result = .ok r.start := by
  have hfrom : cell (columns.zip r.cells) "from" = if r.own then r.start.toJsonText else "" := rfl
  unfold readRequest
  rw [hfrom]
  cases hown : r.own with
  | false =>
    rw [habove hown]
    rfl
  | true =>
    have hparse : Tree.parse (.str r.start.toJsonText) = .ok r.start := by
      rw [Tree.parse_toJsonText hwf.start.distinctLabels, Tree.filled_eq_of_full _ hwf.start.full]
    obtain ⟨cs, htext⟩ : ∃ cs, r.start.toJsonText.toList = '{' :: cs := by
      obtain ⟨l, s⟩ := r.start
      rw [Tree.toJsonText, Tree.toJson, Json.render, String.toList_ofList, Tree.labelFields, List.cons_append,
        Json.chars]
      exact ⟨_, rfl⟩
    have hblank := Text.trim_isEmpty_of_cons htext (by decide)
    simp only [if_true, hblank, Bool.false_eq_true, if_false, Traced.result_parseTree, hparse]

/-- What a row is read as: its hint with the tree of its request, unless the id is beyond the range of doubles. -/
def Row.read (r : Row) : Except Failure TutorHint :=
  if r.hint.hintId.natAbs < Decimal.overflow then .ok (readBack r.start r.hint) else .error .infinityAsInteger

/-- Rows are read one by one. -/
theorem result_readHints : ∀ {rows : List Row} {above : Option Tree}, (∀ r ∈ rows, r.WellFormed) →
    Carried above rows → (readHints above (rows.map fun r => columns.zip r.cells)).result = rows.mapM Row.read
  | [], _, _, _ => rfl
  | r :: rows, above, hwf, hcarried => by
    have hrest := result_readHints (fun r hr => hwf r (List.mem_cons_of_mem _ hr)) hcarried.2
    have hr := hwf r List.mem_cons_self
    obtain ⟨goal, hgoal, hgoalwf⟩ := hr.result
    have hcells : r.cells = GoldStandard.cells r.hint (if r.own then r.start.toJsonText else "") goal.toJsonText := by
      rw [Row.cells, hgoal]
      rfl
    have hhint := result_readHint hgoal hgoalwf r.start (if r.own then r.start.toJsonText else "")
    rw [← hcells] at hhint
    rw [List.map_cons, readHints, List.mapM_cons]
    simp only [Traced.result_bind, result_readRequest hr hcarried.1, Except.bind, hhint, hrest, Row.read]
    split_ifs
    · simp only [bind, Except.bind, pure, Except.pure]
    · rfl

/-- The rows of the hints for a request: the first one has the request tree. -/
def rowsFor (start : Tree) (hints : List TutorHint) : List Row :=
  hints.zipIdx.map fun p => ⟨p.1, start, p.2 = 0⟩

/-- The rows of a standard. -/
def rows (g : GoldStandard) : List Row :=
  g.requests.flatMap fun p => rowsFor ((g.requestTree? p.1 p.2).getD default) (g.validHints p.1 p.2)

theorem map_rowsFor {α : Type} (f : Tree → TutorHint → α) (start : Tree) (hints : List TutorHint) :
    (rowsFor start hints).map (fun r => f r.start r.hint) = hints.map (f start) := by
  have hfst : hints.zipIdx.map (fun p => f start p.1) = (hints.zipIdx.map Prod.fst).map (f start) := by
    rw [List.map_map]
    rfl
  rw [rowsFor, List.map_map, ← hints.zipIdx_map_fst 0, ← hfst, hints.zipIdx_map_fst 0]
  rfl

/-- The rows of a standard, with what `f` makes of each. -/
theorem map_rows {α : Type} (g : GoldStandard) (f : Tree → TutorHint → α) :
    (g.rows.map fun r => f r.start r.hint) =
      g.requests.flatMap fun p => (g.validHints p.1 p.2).map (f ((g.requestTree? p.1 p.2).getD default)) := by
  simp only [rows, List.map_flatMap, map_rowsFor]

/-- The rows of a standard are those of its hints. -/
theorem mem_hint_rows {g : GoldStandard} {h : TutorHint} : (∃ r ∈ g.rows, r.hint = h) ↔ h ∈ g.hints := by
  have hall := map_rows g fun _ h => h
  rw [← List.mem_map, hall, ← mem_allHints (g := g), allHints]
  simp

/-- The rows after the first one of a request share its tree. -/
theorem carried_later {start : Tree} {more : List Row} (hmore : Carried (some start) more) :
    ∀ (hints : List TutorHint) (k : Nat),
      Carried (some start) ((hints.zipIdx (k + 1)).map (fun p => ⟨p.1, start, p.2 = 0⟩) ++ more)
  | [], _ => hmore
  | _ :: hints, k => ⟨fun _ => rfl, carried_later hmore hints (k + 1)⟩

/-- The rows of a request start with a tree of their own, so nothing is carried into them. -/
theorem carried_rowsFor {above : Option Tree} {start : Tree} {hints : List TutorHint} {more : List Row}
    (hne : hints ≠ []) (hmore : Carried (some start) more) : Carried above (rowsFor start hints ++ more) := by
  obtain ⟨h, hints, rfl⟩ := List.exists_cons_of_ne_nil hne
  exact ⟨fun hown => absurd hown (by simp), carried_later hmore hints 0⟩

theorem carried_rows (g : GoldStandard) : Carried none g.rows := by
  have hne : ∀ p ∈ g.requests, g.validHints p.1 p.2 ≠ [] := fun p hp => validHints_ne_nil hp
  unfold rows
  generalize g.requests = ps at hne
  generalize (none : Option Tree) = above
  induction ps generalizing above with
  | nil => trivial
  | cons p ps ih =>
    rw [List.flatMap_cons]
    exact carried_rowsFor (hne p List.mem_cons_self) (ih (fun q hq => hne q (List.mem_cons_of_mem _ hq)) _)

theorem row_eq {h : TutorHint} {start : Tree} {own : Bool} (hstart : own = true → h.requestTree = some start)
    (hresult : h.result.isSome) : row h own = .ok (Row.cells ⟨h, start, own⟩) := by
  obtain ⟨goal, hgoal⟩ := Option.isSome_iff_exists.1 hresult
  cases own with
  | false =>
    rw [row, hgoal, Row.cells, hgoal]
    rfl
  | true =>
    rw [row, hstart rfl, hgoal, Row.cells, hgoal]
    rfl

/-- The hints for a request are written as rows of which the first has the tree of its hint. -/
theorem requestRows_eq {start : Tree} {hints : List TutorHint}
    (hstart : hints.head?.bind TutorHint.requestTree = some start) (hresult : ∀ h ∈ hints, h.result.isSome) :
    requestRows hints = .ok ((rowsFor start hints).map Row.cells) := by
  rw [requestRows, mapM_eq_ok_iff, rowsFor, List.map_map, List.forall₂_map_right_iff, List.forall₂_same]
  rintro ⟨h, i⟩ hp
  have hh : hints[i]? = some h := List.mk_mem_zipIdx_iff_getElem?.1 hp
  refine row_eq (fun hfirst => ?_) (hresult h (List.mem_of_getElem? hh))
  obtain rfl : i = 0 := by simpa using hfirst
  rwa [List.head?_eq_getElem?, hh] at hstart

/-- A standard whose trees can be written is written row by row. -/
theorem toSheet_of_wellFormed {g : GoldStandard}
    (hrequest : ∀ p ∈ g.requests, ∃ t, g.requestTree? p.1 p.2 = some t ∧ t.WellFormed)
    (hresult : ∀ h ∈ g.hints, ∃ t, h.result = some t ∧ t.WellFormed) :
    g.toSheet = .ok ⟨columns, g.rows.map Row.cells⟩ := by
  have hrows : (g.requests.mapM fun p => requestRows (g.validHints p.1 p.2)) = .ok (g.requests.map fun p =>
      (rowsFor ((g.requestTree? p.1 p.2).getD default) (g.validHints p.1 p.2)).map Row.cells) := by
    rw [mapM_eq_ok_iff, List.forall₂_map_right_iff, List.forall₂_same]
    intro p hp
    obtain ⟨start, hstart, -⟩ := hrequest p hp
    rw [hstart]
    refine requestRows_eq hstart fun h hh => ?_
    obtain ⟨goal, hgoal, -⟩ := hresult h (mem_validHints.1 hh).1
    rw [hgoal]
    rfl
  rw [toSheet, hrows, rows, List.map_flatMap, List.flatMap]
  rfl

/-- The rows of a standard whose trees can be read are such rows. -/
theorem wellFormed_rows {g : GoldStandard}
    (hrequest : ∀ p ∈ g.requests, ∃ t, g.requestTree? p.1 p.2 = some t ∧ t.WellFormed)
    (hresult : ∀ h ∈ g.hints, ∃ t, h.result = some t ∧ t.WellFormed) : ∀ r ∈ g.rows, r.WellFormed := by
  intro r hrow
  obtain ⟨p, hp, hr⟩ := List.mem_flatMap.1 hrow
  obtain ⟨start, hstart, hwf⟩ := hrequest p hp
  obtain ⟨⟨h, i⟩, -, rfl⟩ := List.mem_map.1 hr
  refine ⟨?_, hresult h (mem_hint_rows.1 ⟨_, hrow, rfl⟩)⟩
  rw [hstart]
  exact hwf

/-- A sheet that was written has all columns, so its rows are read. -/
theorem result_ofSheet (path : String) (rows : List Row) : (ofSheet path ⟨columns, rows.map Row.cells⟩).result =
    ((readHints none (rows.map fun r => columns.zip r.cells)).result).map GoldStandard.mk := by
  have hcolumns : requiredColumns.find? (· ∉ columns) = none := by decide
  have hrecords : Sheet.records ⟨columns, rows.map Row.cells⟩ = rows.map fun r => columns.zip r.cells := by
    simp [Sheet.records, Function.comp_def]
  unfold ofSheet
  simp only [hcolumns, hrecords, Traced.result_bind]
  cases (readHints none (rows.map fun r => columns.zip r.cells)).result <;> rfl

/-- Line ends in a tree are escaped. -/
theorem return_not_mem_toJsonText (t : Tree) : '\r' ∉ t.toJsonText.toList := by
  have hshown := Json.shown_chars Json.Separators.shown_compact.1 Json.Separators.shown_compact.2 t.toJson
  rw [Tree.toJsonText, Json.render, String.toList_ofList]
  exact fun hreturn => absurd (hshown _ hreturn) (by decide)

/-- Only the texts of a hint can bring a carriage return into its row. -/
theorem return_not_mem_cells {r : Row} (hwf : r.WellFormed) (hassignment : '\r' ∉ r.hint.assignmentId.toList)
    (hrequest : '\r' ∉ r.hint.requestId.toList) (hyear : '\r' ∉ r.hint.year.toList) :
    ∀ c ∈ r.cells, '\r' ∉ c.toList := by
  obtain ⟨goal, hgoal, hgoalwf⟩ := hwf.result
  have hflag : ∀ b, '\r' ∉ (flagText b).toList := by
    intro b
    cases b <;> decide
  have hpriority : ∀ p : Option Priority, '\r' ∉ ((p.map fun p => Text.natText p.toNat).getD "").toList := by
    rintro (_ | p)
    · decide
    · cases p <;> decide +kernel
  have hstart : '\r' ∉ (if r.own then r.start.toJsonText else "").toList := by
    split_ifs
    · exact return_not_mem_toJsonText _
    · decide
  intro c hc
  rw [Row.cells, cells, List.mem_append, List.mem_append] at hc
  rcases hc with (hc | hc) | hc
  · simp only [List.mem_cons, List.not_mem_nil, or_false] at hc
    rcases hc with rfl | rfl | rfl | rfl
    · exact hassignment
    · exact hrequest
    · exact hyear
    · exact Decimal.return_not_mem_intText _
  · obtain ⟨v, -, rfl⟩ := List.mem_map.1 hc
    exact hflag _
  · simp only [List.mem_cons, List.not_mem_nil, or_false] at hc
    rcases hc with rfl | rfl | rfl
    · exact hpriority _
    · exact hstart
    · rw [treeText, hgoal]
      exact return_not_mem_toJsonText _

/-- The cells of a standard come back unchanged, if none of its texts has a carriage return. -/
theorem csv_returns {g : GoldStandard}
    (hrequest : ∀ p ∈ g.requests, ∃ t, g.requestTree? p.1 p.2 = some t ∧ t.WellFormed)
    (hresult : ∀ h ∈ g.hints, ∃ t, h.result = some t ∧ t.WellFormed)
    (hreturn : ∀ h ∈ g.hints, '\r' ∉ h.assignmentId.toList ∧ '\r' ∉ h.requestId.toList ∧ '\r' ∉ h.year.toList)
    {sheet : Sheet} (h : g.toSheet = .ok sheet) : TableLibrary.csv.Returns sheet := by
  rw [toSheet_of_wellFormed hrequest hresult] at h
  obtain rfl := Except.ok.inj h
  have hnames : Sheet.columnNames columns = columns := by decide +kernel
  have hwide : 2 ≤ columns.length := by decide
  have hheader : ∀ c ∈ columns, '\r' ∉ c.toList := by decide
  have hfirst : (Sheet.rowText columns).toList.head? = some 'a' := by decide +kernel
  refine ⟨_, rfl, Sheet.ofText_toText hnames hwide ?_ ?_ ?_⟩
  · intro row hrow
    obtain ⟨r, -, rfl⟩ := List.mem_map.1 hrow
    rfl
  · intro row hrow
    rcases List.mem_cons.1 hrow with rfl | hrow
    · exact hheader
    · obtain ⟨r, hr, rfl⟩ := List.mem_map.1 hrow
      obtain ⟨hassignment, hrequestId, hyear⟩ := hreturn r.hint (mem_hint_rows.1 ⟨r, hr, rfl⟩)
      exact return_not_mem_cells (wellFormed_rows hrequest hresult r hr) hassignment hrequestId hyear
  · rw [Sheet.toText, List.map_cons, String.join_cons, String.toList_append, List.head?_append, hfirst]
    simp

/-- What a library returns of a standard is what its rows are read as. -/
theorem result_ofText {g : GoldStandard} {lib : TableLibrary}
    (hrequest : ∀ p ∈ g.requests, ∃ t, g.requestTree? p.1 p.2 = some t ∧ t.WellFormed)
    (hresult : ∀ h ∈ g.hints, ∃ t, h.result = some t ∧ t.WellFormed) (path : String)
    (hreturns : lib.Returns ⟨columns, g.rows.map Row.cells⟩) : ∃ text, g.toText lib = .ok text ∧
      (ofText lib path text).result = (g.rows.mapM Row.read).map GoldStandard.mk := by
  obtain ⟨text, hwrite, hcells⟩ := hreturns
  refine ⟨text, ?_, ?_⟩
  · rw [toText, toSheet_of_wellFormed hrequest hresult]
    exact hwrite
  · rw [ofText, hcells, Traced.result_bind, ← result_readHints (wellFormed_rows hrequest hresult) (carried_rows g)]
    exact result_ofSheet path g.rows

/-- Rows are read as their hints, with rounded ids, as long as the ids are in the range of doubles. -/
theorem mapM_read_eq_ok_iff {rows : List Row} {hints : List TutorHint} : rows.mapM Row.read = .ok hints ↔
    (∀ r ∈ rows, r.hint.hintId.natAbs < Decimal.overflow) ∧ hints = rows.map fun r => readBack r.start r.hint := by
  rw [mapM_eq_ok_iff]
  induction rows generalizing hints with
  | nil => simp
  | cons r rows ih =>
    have hread : ∀ h, r.read = .ok h ↔ r.hint.hintId.natAbs < Decimal.overflow ∧ h = readBack r.start r.hint := by
      intro h
      rw [Row.read]
      split_ifs with hlt
      · simp [hlt, eq_comm]
      · simp [hlt]
    simp only [List.forall₂_cons_left_iff, ih, hread, List.forall_mem_cons, List.map_cons]
    constructor
    · rintro ⟨_, _, ⟨hlt, rfl⟩, ⟨hrows, rfl⟩, rfl⟩
      exact ⟨⟨hlt, hrows⟩, rfl⟩
    · rintro ⟨⟨hlt, hrows⟩, rfl⟩
      exact ⟨_, _, ⟨hlt, rfl⟩, ⟨hrows, rfl⟩, rfl⟩

/-- One id beyond the range of doubles keeps all rows from being read. -/
theorem mapM_read_of_overflow {rows : List Row} {r : Row} (hr : r ∈ rows)
    (hid : Decimal.overflow ≤ r.hint.hintId.natAbs) : rows.mapM Row.read = .error .infinityAsInteger := by
  have hfails : r.read = .error .infinityAsInteger := if_neg (by omega)
  obtain ⟨e, he⟩ := mapM_error_of_mem hr hfails
  obtain ⟨r', -, hr'⟩ := exists_of_mapM_error he
  unfold Row.read at hr'
  split_ifs at hr'
  rw [he, ← Except.error.inj hr']

/-- A hint that is read back answers the same request. -/
theorem key_readBack (start : Tree) (h : TutorHint) : (readBack start h).key = h.key := rfl

/-- The hints of a standard, each as it is read back with the tree of its request. -/
def asReadBack (g : GoldStandard) : GoldStandard :=
  g.regroup fun p => readBack ((g.requestTree? p.1 p.2).getD default)

/-- The rows of a standard are read exactly if its ids are in the range of doubles. -/
theorem map_read_eq_ok_iff {g g' : GoldStandard} : (g.rows.mapM Row.read).map GoldStandard.mk = .ok g' ↔
    (∀ h ∈ g.hints, h.hintId.natAbs < Decimal.overflow) ∧ g' = g.asReadBack := by
  have hhints : (g.rows.map fun r => readBack r.start r.hint) = g.asReadBack.hints := by
    rw [map_rows]
    rfl
  have hids : (∀ r ∈ g.rows, r.hint.hintId.natAbs < Decimal.overflow) ↔
      ∀ h ∈ g.hints, h.hintId.natAbs < Decimal.overflow := by
    simp only [← mem_hint_rows, forall_exists_index, and_imp, forall_apply_eq_imp_iff₂]
  simp only [map_eq_ok_iff, mapM_read_eq_ok_iff, hids, hhints]
  constructor
  · rintro ⟨_, ⟨hlt, rfl⟩, rfl⟩
    exact ⟨hlt, rfl⟩
  · rintro ⟨hlt, rfl⟩
    exact ⟨_, ⟨hlt, rfl⟩, rfl⟩

/-- A standard whose trees can be written comes back from its spreadsheet, as far as the library returns its cells
unchanged and its ids are in the range of doubles: the same assignments, for each the same requests, and for each
request the same hints with the request tree of the first one, but for who gave them and what a double leaves of their
ids. A single id beyond the range of doubles makes the whole sheet unreadable. -/
theorem spreadsheet_round_trip {g : GoldStandard} (lib : TableLibrary)
    (hrequest : ∀ p ∈ g.requests, ∃ t, g.requestTree? p.1 p.2 = some t ∧ t.WellFormed)
    (hresult : ∀ h ∈ g.hints, ∃ t, h.result = some t ∧ t.WellFormed) (path : String) :
    ∃ sheet, g.toSheet = .ok sheet ∧ (lib.Returns sheet → ∃ text, g.toText lib = .ok text ∧
      ((∀ h ∈ g.hints, h.hintId.natAbs < Decimal.overflow) →
        ∃ g', (ofText lib path text).result = .ok g' ∧ g'.assignmentIds = g.assignmentIds ∧
          (∀ a, g'.requestIds a = g.requestIds a) ∧
          ∀ a r t, g.requestTree? a r = some t → g'.validHints a r = (g.validHints a r).map (readBack t)) ∧
      ((∃ h ∈ g.hints, Decimal.overflow ≤ h.hintId.natAbs) →
        (ofText lib path text).result = .error .infinityAsInteger)) := by
  refine ⟨_, toSheet_of_wellFormed hrequest hresult, fun hreturns => ?_⟩
  obtain ⟨text, htext, hread⟩ := result_ofText hrequest hresult path hreturns
  refine ⟨text, htext, ?_⟩
  rw [hread]
  constructor
  · intro hids
    have hkey : ∀ (p : String × String) (h : TutorHint),
        (readBack ((g.requestTree? p.1 p.2).getD default) h).key = h.key := fun _ _ => key_readBack _ _
    refine ⟨g.asReadBack, map_read_eq_ok_iff.2 ⟨hids, rfl⟩, ?_, ?_, ?_⟩
    · exact (assignmentIds_of_keys (mem_keys_regroup hkey)).symm
    · exact fun a => (requestIds_of_keys (mem_keys_regroup hkey) a).symm
    · intro a r t ht
      rw [asReadBack, validHints_regroup hkey, ht]
      rfl
  · rintro ⟨h, hh, hid⟩
    obtain ⟨r, hr, rfl⟩ := mem_hint_rows.2 hh
    rw [mapM_read_of_overflow hr hid]
    rfl

/-- Two hints with the given ids for one request, which disagree about the request tree. -/
def sampleStandard (i j : Int) : GoldStandard :=
  ⟨[{ hintId := i, requestId := "r", assignmentId := "a", year := ""
      requestTree := some (.leaf ⟨"script", none, none⟩), result := some (.leaf ⟨"script", some "\"", none⟩)
      validity := .multipleTutors },
    { hintId := j, requestId := "r", assignmentId := "a", year := "2020"
      requestTree := some (.leaf ⟨"null", none, none⟩), result := some (.leaf ⟨"script", none, some ","⟩)
      priority := some .high }]⟩

theorem sampleStandard_requestTree (i j : Int) : ∀ p ∈ (sampleStandard i j).requests,
    ∃ t, (sampleStandard i j).requestTree? p.1 p.2 = some t ∧ t.WellFormed := by
  rintro ⟨a, r⟩ hp
  have hkeys : ∀ h ∈ (sampleStandard i j).hints, h.key = ("a", "r") := by simp [sampleStandard, TutorHint.key]
  obtain ⟨h, hh, hkey⟩ := mem_requests.1 hp
  rw [hkeys h hh] at hkey
  obtain ⟨rfl, rfl⟩ := Prod.mk.inj hkey
  exact ⟨_, rfl, Tree.wellFormed_leaf _⟩

theorem sampleStandard_result (i j : Int) : ∀ h ∈ (sampleStandard i j).hints,
    ∃ t, h.result = some t ∧ t.WellFormed := by
  simp [sampleStandard, Tree.wellFormed_leaf]

theorem sampleStandard_returns (i j : Int) {sheet : Sheet} (h : (sampleStandard i j).toSheet = .ok sheet) :
    TableLibrary.csv.Returns sheet :=
  csv_returns (sampleStandard_requestTree i j) (sampleStandard_result i j) (by simp [sampleStandard]) h

/-- The request tree of the first hint is that of both when they are read back; with an id beyond the range of doubles
neither is read. -/
theorem spreadsheet_round_trip_of_sample :
    (∃ text, (sampleStandard 7 2).toText .csv = .ok text ∧
      ∃ g, (ofText .csv "gold.csv" text).result = .ok g ∧ g.requestIds "a" = ["r"] ∧
        g.validHints "a" "r" = (sampleStandard 7 2).hints.map (readBack (.leaf ⟨"script", none, none⟩))) ∧
    ∃ text, (sampleStandard (2 ^ 64) (10 ^ 400)).toText .csv = .ok text ∧
      (ofText .csv "gold.csv" text).result = .error .infinityAsInteger := by
  constructor
  · obtain ⟨sheet, hsheet, hround⟩ :=
      spreadsheet_round_trip .csv (sampleStandard_requestTree 7 2) (sampleStandard_result 7 2) "gold.csv"
    obtain ⟨text, htext, hread, -⟩ := hround (sampleStandard_returns 7 2 hsheet)
    have hids : ∀ h ∈ (sampleStandard 7 2).hints, h.hintId.natAbs < Decimal.overflow := by decide +kernel
    obtain ⟨g, hg, -, hrequests, hhints⟩ := hread hids
    refine ⟨text, htext, g, hg, ?_, hhints "a" "r" _ rfl⟩
    rw [hrequests]
    decide +kernel
  · obtain ⟨sheet, hsheet, hround⟩ := spreadsheet_round_trip .csv (sampleStandard_requestTree (2 ^ 64) (10 ^ 400))
      (sampleStandard_result (2 ^ 64) (10 ^ 400)) "gold.csv"
    obtain ⟨text, htext, -, hfail⟩ := hround (sampleStandard_returns (2 ^ 64) (10 ^ 400) hsheet)
    have hlarge : ∃ h ∈ (sampleStandard (2 ^ 64) (10 ^ 400)).hints, Decimal.overflow ≤ h.hintId.natAbs := by
      decide +kernel
    exact ⟨text, htext, hfail hlarge⟩

end GoldStandard

end HintQuality
