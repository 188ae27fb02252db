import HintQuality.Sheet.Basic
import Mathlib.Data.List.Basic
/-!
# Sheets through text

A sheet without carriage returns that is written as text is read back as it was (`ofText_toText`). A field is read up
to the comma or the line feed behind it, whether it was quoted or not (`readRows_field`), and a row of two or more
fields is never a blank line (`readRows_fields`). A carriage return is not quoted but ends a row for the reader, so
fields that have one do not come back.
-/

namespace HintQuality.Sheet

/-! ## Fields -/

/-- What is inside quotes is read up to the closing quote. -/
theorem readRows_quoted (cs rest : List Char) (p : Partial) : readRows .quoted p (doubleQuotes cs ++ '"' :: rest) =
    readRows .quoteSeen { p with current := cs.reverse ++ p.current } rest := by
  induction cs generalizing p with
  | nil => simp [doubleQuotes, readRows]
  | cons c cs ih =>
    have hstep : readRows .quoted p (doubleQuotes (c :: cs) ++ '"' :: rest) =
        readRows .quoted (p.push c) (doubleQuotes cs ++ '"' :: rest) := by
      by_cases hc : c = '"'
      · simp [doubleQuotes, hc, readRows]
      · simp [doubleQuotes, hc, readRows]
    rw [hstep, ih, Partial.push]
    simp

/-- A character that does not end a field goes into it. -/
theorem readRows_plain (cs rest : List Char) (hcs : ∀ c ∈ cs, c ≠ ',' ∧ c ≠ '\n' ∧ c ≠ '\r') (p : Partial) :
    readRows .plain p (cs ++ rest) = readRows .plain { p with current := cs.reverse ++ p.current } rest := by
  induction cs generalizing p with
  | nil => simp
  | cons c cs ih =>
    obtain ⟨hcomma, hfeed, hreturn⟩ := hcs c List.mem_cons_self
    have hstep : readRows .plain p (c :: cs ++ rest) = readRows .plain (p.push c) (cs ++ rest) := by
      simp [readRows, hcomma, hfeed, hreturn]
    rw [hstep, ih (fun x hx => hcs x (List.mem_cons_of_mem _ hx)), Partial.push]
    simp

/-- A written field is read into the row, whatever ends it. -/
theorem readRows_field {s : String} (hreturn : '\r' ∉ s.toList) {p : Partial} (hp : p.current = []) :
    ∃ st, st ≠ .quoted ∧ ∃ saw, ∀ rest, readRows .fieldStart p ((fieldText s).toList ++ rest) =
      readRows st ⟨p.fields, s.toList.reverse, saw⟩ rest := by
  unfold fieldText
  by_cases hquotes : needsQuotes s.toList
  · refine ⟨.quoteSeen, by decide, true, fun rest => ?_⟩
    have hopen : ∀ cs, readRows .fieldStart p ('"' :: cs) = readRows .quoted { p with sawQuote := true } cs := by
      intro cs
      simp [readRows]
    rw [if_pos hquotes, String.toList_ofList, List.cons_append, List.cons_append, hopen, List.append_assoc]
    rw [List.cons_append, List.nil_append, readRows_quoted, hp, List.append_nil]
  · have hplain : ∀ c ∈ s.toList, c ≠ ',' ∧ c ≠ '"' ∧ c ≠ '\n' ∧ c ≠ '\r' := by
      intro c hc
      simp only [needsQuotes, List.any_eq_true, not_exists, not_and, Bool.or_eq_true, decide_eq_true_eq,
        not_or] at hquotes
      obtain ⟨⟨hcomma, hquote⟩, hfeed⟩ := hquotes c hc
      exact ⟨hcomma, hquote, hfeed, fun e => hreturn (e ▸ hc)⟩
    rw [if_neg hquotes]
    cases hchars : s.toList with
    | nil =>
      have hempty : (⟨p.fields, [], p.sawQuote⟩ : Partial) = p := by rw [← hp]
      refine ⟨.fieldStart, by decide, p.sawQuote, fun rest => ?_⟩
      rw [List.reverse_nil, List.nil_append, hempty]
    | cons c cs =>
      rw [hchars] at hplain
      obtain ⟨hcomma, hquote, hfeed, hreturn⟩ := hplain c List.mem_cons_self
      refine ⟨.plain, by decide, p.sawQuote, fun rest => ?_⟩
      have hfirst : readRows .fieldStart p (c :: cs ++ rest) = readRows .plain (p.push c) (cs ++ rest) := by
        simp [readRows, hcomma, hquote, hfeed, hreturn]
      rw [hfirst, readRows_plain cs rest fun x hx => ?_, Partial.push, hp, List.reverse_cons]
      obtain ⟨h1, -, h3, h4⟩ := hplain x (List.mem_cons_of_mem _ hx)
      exact ⟨h1, h3, h4⟩

/-- A comma ends a field. -/
theorem readRows_comma {st : State} (hst : st ≠ .quoted) (p : Partial) (rest : List Char) :
    readRows st p (',' :: rest) = readRows .fieldStart p.endField rest := by
  cases st <;> simp [readRows] at hst ⊢

/-- A line feed ends a field and its row. -/
theorem readRows_feed {st : State} (hst : st ≠ .quoted) (p : Partial) (rest : List Char) :
    readRows st p ('\n' :: rest) = (readRows .fieldStart {} rest).map p.consTo := by
  cases st <;> simp [readRows] at hst ⊢

/-! ## Rows -/

/-- The fields of a written row are read behind those read before; at least two fields are no blank line. -/
theorem readRows_fields : ∀ {fields : List String} {f : String} {p : Partial}, p.current = [] →
    p.fields ≠ [] ∨ fields ≠ [] → (∀ s ∈ f :: fields, '\r' ∉ s.toList) → ∀ rest,
    readRows .fieldStart p ((",".intercalate ((f :: fields).map fieldText)).toList ++ '\n' :: rest) =
      (readRows .fieldStart {} rest).map ((p.fields.reverse ++ f :: fields) :: ·)
  | [], f, p, hp, hmany, hreturn, rest => by
    obtain ⟨st, hst, saw, hfield⟩ := readRows_field (hreturn f List.mem_cons_self) hp
    have hdone : p.fields.isEmpty = false := by simpa using hmany
    have hrow : Partial.consTo ⟨p.fields, f.toList.reverse, saw⟩ = ((p.fields.reverse ++ [f]) :: ·) := by
      funext rows
      simp [Partial.consTo, Partial.row?, hdone, Partial.endField]
    rw [List.map_cons, List.map_nil, String.intercalate_singleton]
    exact (hfield _).trans ((readRows_feed hst _ rest).trans (by rw [hrow]))
  | g :: fields, f, p, hp, _, hreturn, rest => by
    obtain ⟨st, hst, saw, hfield⟩ := readRows_field (hreturn f List.mem_cons_self) hp
    have hnext := @readRows_fields fields g ⟨f :: p.fields, [], saw⟩ rfl (.inl (by simp))
      (fun s hs => hreturn s (List.mem_cons_of_mem _ hs)) rest
    have hend : (⟨p.fields, f.toList.reverse, saw⟩ : Partial).endField = ⟨f :: p.fields, [], saw⟩ := by
      simp [Partial.endField]
    have hcomma := (hfield (',' :: ((",".intercalate ((g :: fields).map fieldText)).toList ++ '\n' :: rest))).trans
      (readRows_comma hst _ _)
    rw [hend, hnext] at hcomma
    rw [List.map_cons, List.map_cons, String.intercalate_cons_cons, String.toList_append, String.toList_append,
      List.append_assoc, List.append_assoc]
    refine hcomma.trans ?_
    simp

/-- Written rows of two or more fields are read one after the other. -/
theorem readRows_rows {rows : List (List String)} (hwide : ∀ row ∈ rows, 2 ≤ row.length)
    (hreturn : ∀ row ∈ rows, ∀ f ∈ row, '\r' ∉ f.toList) :
    readRows .fieldStart {} (String.join (rows.map rowText)).toList = .ok rows := by
  induction rows with
  | nil => rfl
  | cons row rows ih =>
    have hrest := ih (fun r hr => hwide r (List.mem_cons_of_mem _ hr))
      (fun r hr => hreturn r (List.mem_cons_of_mem _ hr))
    obtain ⟨f, g, fields, rfl⟩ : ∃ f g fields, row = f :: g :: fields := by
      match row, hwide row List.mem_cons_self with
      | f :: g :: fields, _ => exact ⟨f, g, fields, rfl⟩
    have htext : (String.join ((f :: g :: fields) :: rows |>.map rowText)).toList =
        (",".intercalate ((f :: g :: fields).map fieldText)).toList ++
          '\n' :: (String.join (rows.map rowText)).toList := by
      rw [List.map_cons, String.join_cons, rowText, if_neg (by simp), String.toList_append, String.toList_append,
        List.append_assoc]
      rfl
    rw [htext, readRows_fields rfl (.inr (by simp)) (hreturn _ List.mem_cons_self), hrest]
    rfl

/-! ## Sheets -/

/-- Rows as wide as their header are the rows of a sheet as they are. -/
theorem ofRows_of_width {header : List String} (hnames : columnNames header = header) {rows : List (List String)}
    (hwidth : ∀ row ∈ rows, row.length = header.length) : ofRows (header :: rows) = .ok ⟨header, rows⟩ := by
  cases rows with
  | nil => rw [ofRows, hnames]
  | cons first rest =>
    have hfirst : max header.length first.length = header.length := by
      rw [hwidth first List.mem_cons_self, Nat.max_self]
    have hlonger : rest.any (fun row => header.length < row.length) = false := by
      rw [List.any_eq_false]
      intro row hrow
      simp [hwidth row (List.mem_cons_of_mem _ hrow)]
    have hfill : (first :: rest).map (fun row => (fill header.length row).drop (header.length - header.length)) =
        first :: rest := by
      rw [List.map_congr_left, List.map_id']
      intro row hrow
      rw [Nat.sub_self, List.drop_zero, fill, hwidth row hrow, Nat.sub_self, List.replicate_zero, List.append_nil]
    simp only [ofRows, hfirst, hlonger, Bool.false_eq_true, if_false, hnames, hfill]

/-- A sheet is read back as it was written, if its columns have names that differ, its rows are as wide as its header
and no field has a carriage return. -/
theorem ofText_toText {s : Sheet} (hnames : columnNames s.columns = s.columns) (hwide : 2 ≤ s.columns.length)
    (hwidth : ∀ row ∈ s.rows, row.length = s.columns.length)
    (hreturn : ∀ row ∈ s.columns :: s.rows, ∀ f ∈ row, '\r' ∉ f.toList)
    (hmark : s.toText.toList.head? ≠ some '\uFEFF') : ofText s.toText = .ok s := by
  have hfields : ∀ row ∈ s.columns :: s.rows, 2 ≤ row.length := by
    intro row hrow
    rcases List.mem_cons.1 hrow with rfl | hrow
    · exact hwide
    · rw [hwidth row hrow]
      exact hwide
  have hrows := readRows_rows hfields hreturn
  have hread : (readRows .fieldStart {} s.toText.toList).bind ofRows = .ok s := by
    rw [toText, hrows]
    exact ofRows_of_width hnames hwidth
  unfold ofText
  split
  · rename_i cs hcs
    exact absurd (by rw [hcs]; rfl) hmark
  · exact hread

end HintQuality.Sheet
