import HintQuality.Proofs.Computations
import HintQuality.Proofs.JsonText
import HintQuality.Proofs.Rotation
import Mathlib
/-!
# Reading lines of a log

A file of records is read line by line (`linesOf_textOf`), and a line is read as the record that it was written for
(`Record.Legible.readLine_text`), since line ends in a record are escaped. A log reads its files from the highest
number down, so it reads what they hold in the order in which it was written, and keeps the records of its run
(`read_of_holds`).
-/

namespace HintQuality

namespace Text

/-! ## Lines -/

theorem unifyBreaks_eq_self {cs : List Char} (h : '\r' ∉ cs) : unifyBreaks cs = cs := by
  induction cs with
  | nil => rfl
  | cons c cs ih =>
    rw [List.mem_cons, not_or] at h
    rw [unifyBreaks, ih h.2]
    · rintro rest rfl -
      exact h.1 rfl
    · rintro rfl
      exact h.1 rfl

theorem pieces_append {sep : Char} {cs : List Char} (h : sep ∉ cs) (rest : List Char) :
    pieces sep (cs ++ sep :: rest) = cs :: pieces sep rest := by
  induction cs with
  | nil => rw [List.nil_append, pieces, if_pos rfl]
  | cons c cs ih =>
    rw [List.mem_cons, not_or] at h
    rw [List.cons_append, pieces, if_neg (Ne.symm h.1), ih h.2]

/-- A text that neither starts nor ends with a blank is not trimmed. -/
theorem trim_eq_self {s : String} {c d : Char} {cs ds : List Char} (hstart : s.toList = c :: cs)
    (hend : s.toList = ds ++ [d]) (hc : isBlank c = false) (hd : isBlank d = false) : trim s = s := by
  have hleft : s.toList.dropWhile isBlank = s.toList := by
    rw [hstart, List.dropWhile_cons_of_neg (by simp [hc])]
  have hright : s.toList.reverse.dropWhile isBlank = s.toList.reverse := by
    rw [hend, List.reverse_append, List.reverse_singleton, List.singleton_append,
      List.dropWhile_cons_of_neg (by simp [hd])]
  rw [trim, trimBy, hleft, hright, List.reverse_reverse, String.ofList_toList]

end Text

namespace EventLog

open Text

variable {r : Record}

/-! ## Records -/

namespace Record

/-- The line of a record without its end. -/
def text (r : Record) : String :=
  r.entry.render .spaced

/-- A record that can be written and read back. -/
structure Legible (r : Record) : Prop where
  /-- No object in its data has two fields of one name. -/
  distinct : (Json.obj r.event.data).Distinct
  /-- No integer in it has too many digits. -/
  short : r.entry.isShort = true

theorem toList_text (r : Record) : r.text.toList = r.entry.chars .spaced := by
  rw [text, Json.render, String.toList_ofList]

theorem toList_line (r : Record) : r.line.toList = r.text.toList ++ ['\n'] := by
  rw [line, String.toList_append]
  rfl

theorem text_shown (r : Record) : Json.Shown r.text.toList := by
  rw [toList_text]
  exact Json.shown_chars Json.Separators.shown_spaced.1 Json.Separators.shown_spaced.2 r.entry

theorem exists_text_eq (r : Record) : ∃ cs, r.text.toList = '{' :: (cs ++ ['}']) := by
  rw [toList_text]
  exact ⟨_, rfl⟩

theorem trim_text (r : Record) : trim r.text = r.text := by
  obtain ⟨cs, hcs⟩ := r.exists_text_eq
  exact trim_eq_self (d := '}') hcs (hcs.trans (List.cons_append ..).symm) (by decide) (by decide)

theorem text_ne_empty (r : Record) : r.text ≠ "" := by
  obtain ⟨cs, hcs⟩ := r.exists_text_eq
  intro h
  rw [h] at hcs
  cases hcs

/-- The fields of the object of a record. -/
def fields (r : Record) : Json.Fields :=
  match r.entry with
  | .obj fields => fields
  | _ => []

theorem obj_fields (r : Record) : .obj r.fields = r.entry :=
  rfl

/-- The object of a record has no two fields of one name. -/
theorem Legible.distinct_entry (h : r.Legible) : r.entry.Distinct := by
  have hdata := h.distinct
  unfold Record.entry
  split_ifs <;> simp [Json.Distinct, Json.DistinctFields] <;> exact hdata

/-- The line of a record is read back. -/
theorem Legible.readLine_text (h : r.Legible) : Log.readLine r.text = .ok r.fields := by
  have hparse := Json.parse_render Json.Separators.legible_spaced h.distinct_entry h.short
  rw [Log.readLine, text, hparse, ← obj_fields]

/-- The object of a record tells its run. -/
theorem hasText_run (r : Record) (run : String) : Log.hasText r.fields "run_id" run = decide (r.run = run) :=
  rfl

end Record

/-! ## Files -/

theorem toList_textOf (rs : List Record) : (textOf rs).toList = rs.flatMap fun r => r.text.toList ++ ['\n'] := by
  induction rs with
  | nil => rfl
  | cons r rs ih =>
    rw [textOf, List.map_cons, String.join_cons, String.toList_append, List.flatMap_cons, r.toList_line, ← ih, textOf]

/-- The lines of a file are those of its records. -/
theorem linesOf_textOf (rs : List Record) : Log.linesOf (textOf rs) = rs.map Record.text := by
  have hreturn : '\r' ∉ (textOf rs).toList := by
    rw [toList_textOf]
    intro h
    obtain ⟨r, -, h⟩ := List.mem_flatMap.1 h
    rcases List.mem_append.1 h with h | h
    · exact absurd (r.text_shown _ h) (by decide)
    · exact absurd h (by decide)
  rw [Log.linesOf, unifyBreaks_eq_self hreturn, toList_textOf]
  clear hreturn
  induction rs with
  | nil => rfl
  | cons r rs ih =>
    have hfeed : '\n' ∉ r.text.toList := fun h => absurd (r.text_shown _ h) (by decide)
    rw [List.flatMap_cons, List.append_assoc, List.singleton_append, pieces_append hfeed, List.map_cons,
      String.ofList_toList, r.trim_text, List.filter_cons_of_pos (by simpa using r.text_ne_empty), ih, List.map_cons]

/-- Lines are read back as the records that they were written for. -/
theorem mapM_readLine {rs : List Record} (h : ∀ r ∈ rs, r.Legible) :
    (rs.map Record.text).mapM Log.readLine = .ok (rs.map Record.fields) := by
  rw [mapM_eq_ok_iff, List.forall₂_map_left_iff, List.forall₂_map_right_iff, List.forall₂_same]
  exact fun r hr => (h r hr).readLine_text

/-! ## All files of a log -/

section Files

variable {f : Folder} {way : List String} {kept : Nat → Option (List Record)}

/-- The lines of the files that are there, from the highest number down. -/
theorem flatMap_linesOf (h : Holds f way kept) (n : Nat) :
    ((((List.range n).map fun i => backupWay way (n - i)) ++ [way]).filterMap f.content?).flatMap Log.linesOf =
      (upTo kept n).map Record.text := by
  have hfile : ∀ k, f.content? (fileWay way k) = (kept k).map textOf := congrFun h
  induction n with
  | zero =>
    have hlive : f.content? way = (kept 0).map textOf := hfile 0
    rw [List.range_zero, List.map_nil, List.nil_append, upTo]
    cases hkept : kept 0 with
    | none => simp [hlive, hkept]
    | some rs => simp [hlive, hkept, linesOf_textOf]
  | succ n ih =>
    have hways : ((List.range (n + 1)).map fun i => backupWay way (n + 1 - i)) =
        fileWay way (n + 1) :: (List.range n).map fun i => backupWay way (n - i) := by
      rw [List.range_succ_eq_map, List.map_cons, List.map_map]
      refine congrArg (_ :: ·) (List.map_congr_left fun i _ => ?_)
      rw [Function.comp_apply, Nat.succ_eq_add_one, Nat.add_sub_add_right]
    rw [hways, List.cons_append, upTo, List.map_append, ← ih]
    cases hkept : kept (n + 1) with
    | none => simp [hfile, hkept]
    | some rs => simp [hfile, hkept, linesOf_textOf]

/-- A log reads the records of its run in the files that it looks into, the oldest first. -/
theorem read_of_holds {l : Log} (hway : f.way? l.path = some way) (h : Holds f way kept)
    (hlegible : ∀ r ∈ upTo kept l.backups, r.Legible) :
    l.read f = .ok (((upTo kept l.backups).filter (·.run = l.run)).map Record.fields) := by
  have hall : l.readAll f = .ok ((upTo kept l.backups).map Record.fields) := by
    rw [Log.readAll, Log.texts, hway]
    dsimp only
    rw [flatMap_linesOf h, mapM_readLine hlegible]
  rw [Log.read, hall]
  simp only [Except.map, List.filter_map, Function.comp_def, Record.hasText_run]

end Files

end EventLog

end HintQuality
