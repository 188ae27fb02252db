import HintQuality.EventLog.Session
import HintQuality.Proofs.ChildLabels
import HintQuality.Proofs.FolderWays
/-!
# Files that become backups

The files of a log go by numbers: zero for the one that is written, the others for its backups (`fileWay`). When the
file becomes a backup, every file moves up by one, as far as there are backups, over the last one
(`filesOf_rotate`, `moveUp_succ`). From the highest number down the files hold what was written in the order in which it
was written. A rotation keeps that order (`upTo_rotated_sublist`) and loses at most what is in the last backup
(`upTo_rotated`).
-/

namespace HintQuality.EventLog

open Text

/-! ## Numbered files -/

/-- The way to a file of a log. -/
def fileWay (way : List String) : Nat → List String
  | 0 => way
  | n + 1 => backupWay way (n + 1)

theorem backupWay_injective (way : List String) : Function.Injective (backupWay way) := by
  intro i j h
  have hlast := List.append_cancel_left h
  rw [List.singleton_inj] at hlast
  exact append_natText_injective _ hlast

theorem backupWay_ne (way : List String) (n : Nat) : backupWay way n ≠ way := by
  intro h
  rcases List.eq_nil_or_concat' way with rfl | ⟨ways, last, rfl⟩
  · simp [backupWay] at h
  · rw [backupWay, List.dropLast_concat, List.append_cancel_left_eq, List.singleton_inj, List.getLast?_concat] at h
    have hlength := congrArg String.length h
    have hdot : (".": String).length = 1 := rfl
    rw [Option.getD_some, String.length_append, String.length_append, hdot] at hlength
    omega

/-- Files with different numbers are different. -/
theorem fileWay_injective (way : List String) : Function.Injective (fileWay way) := by
  intro i j h
  cases i with
  | zero =>
    cases j with
    | zero => rfl
    | succ j => exact absurd h.symm (backupWay_ne way (j + 1))
  | succ i =>
    cases j with
    | zero => exact absurd h (backupWay_ne way (i + 1))
    | succ j => exact backupWay_injective way h

theorem dropLast_fileWay (way : List String) (n : Nat) : (fileWay way n).dropLast = way.dropLast := by
  cases n with
  | zero => rfl
  | succ n => exact List.dropLast_concat

/-! ## Moving up -/

section Moving

variable {α β : Type}

/-- Moves a file on to the next number, over what is there, if there is a file. -/
def moveOn (files : Nat → Option α) (n : Nat) : Nat → Option α :=
  fun k => if k = n + 1 then (files n).or (files (n + 1)) else if k = n then none else files k

/-- Moves the files below a number up by one, the last one first. -/
def moveUp : Nat → (Nat → Option α) → Nat → Option α
  | 0, files => files
  | n + 1, files => moveUp n (moveOn files n)

/-- Each file is where the one before it was, and the last one is lost unless there is none to take its place. -/
theorem moveUp_succ (files : Nat → Option α) (n k : Nat) : moveUp (n + 1) files k =
    if k = 0 then none else if k ≤ n then files (k - 1)
    else if k = n + 1 then (files n).or (files (n + 1)) else files k := by
  induction n generalizing files with
  | zero =>
    rw [moveUp, moveUp, moveOn]
    split_ifs <;> first | rfl | omega
  | succ n ih =>
    rw [moveUp, ih]
    unfold moveOn
    by_cases hk : k = n + 1
    · have hne : n ≠ n + 1 + 1 := by omega
      subst hk
      simp [hne]
    · split_ifs <;> first | rfl | omega

theorem map_moveOn (f : α → β) (files : Nat → Option α) (n : Nat) :
    (fun k => (moveOn files n k).map f) = moveOn (fun k => (files k).map f) n := by
  funext k
  unfold moveOn
  split_ifs
  · exact Option.map_or
  · rfl
  · rfl

theorem map_moveUp (f : α → β) (n : Nat) (files : Nat → Option α) :
    (fun k => (moveUp n files k).map f) = moveUp n fun k => (files k).map f := by
  induction n generalizing files with
  | zero => rfl
  | succ n ih => rw [moveUp, ih, map_moveOn, moveUp]

end Moving

section Folders

variable {f : Folder} {d : Disk} {way : List String}

/-- The texts of the files of a log. -/
def filesOf (f : Folder) (way : List String) (n : Nat) : Option String :=
  f.content? (fileWay way n)

theorem filesOf_put (n : Nat) (text : String) :
    filesOf (f.put (fileWay way n) text) way = Function.update (filesOf f way) n (some text) := by
  funext k
  rw [filesOf, Function.update_apply]
  split_ifs with hk
  · rw [hk, Folder.content?_put]
  · rw [Folder.content?_put_of_ne (mt (fun e => fileWay_injective way e) hk)]
    rfl

theorem filesOf_rename (n : Nat) :
    filesOf (d.rename (fileWay way n) (fileWay way (n + 1))).folder way = moveOn (filesOf d.folder way) n := by
  unfold Disk.rename
  cases hn : d.folder.content? (fileWay way n) with
  | none =>
    have hfile : filesOf d.folder way n = none := hn
    funext k
    unfold moveOn
    split_ifs with h h'
    · rw [h, hfile, Option.none_or]
    · rw [h', hfile]
    · rfl
  | some text =>
    have hfile : filesOf d.folder way n = some text := hn
    simp only [filesOf_put]
    funext k
    rw [Function.update_apply, moveOn, hfile]
    split_ifs with h h'
    · rfl
    · rw [filesOf, Folder.content?_remove, if_pos (by rw [h'])]
    · rw [filesOf, Folder.content?_remove, if_neg (mt (fun e => fileWay_injective way e) h')]
      rfl

/-- Moving the backups up and the file after them moves all files up. -/
theorem filesOf_rename_shift (n : Nat) (d : Disk) :
    filesOf ((Disk.shift way n d).rename way (backupWay way 1)).folder way = moveUp (n + 1) (filesOf d.folder way) := by
  induction n generalizing d with
  | zero => exact filesOf_rename 0
  | succ n ih =>
    rw [Disk.shift, ih]
    exact congrArg (moveUp (n + 1)) (filesOf_rename (n + 1))

/-- When a file becomes a backup, all files move up and a new one begins. -/
theorem filesOf_rotate {t : Target} (hway : t.way = way) (hbackups : t.backups ≠ 0) (name : String) :
    filesOf (d.rotate name t).folder way = Function.update (moveUp t.backups (filesOf d.folder way)) 0 (some "") := by
  obtain ⟨n, hn⟩ := Nat.exists_eq_succ_of_ne_zero hbackups
  have hmoved : filesOf ((Disk.shift way n d).rename way (backupWay way 1)).folder way =
      moveUp (n + 1) (filesOf d.folder way) := filesOf_rename_shift n d
  have hfree : ((Disk.shift way n d).rename way (backupWay way 1)).folder.content? way = none := by
    refine (congrFun hmoved 0).trans ?_
    rw [moveUp_succ, if_pos rfl]
  unfold Disk.rotate Disk.openFile
  rw [if_neg hbackups, hway, hn, Nat.succ_sub_one, ← hmoved]
  simp only [hfree, Option.getD_none]
  exact filesOf_put 0 ""

end Folders

/-! ## What the files hold -/

section Records

variable {α : Type}

/-- What the files up to a number hold, the one with that number first. -/
def upTo (kept : Nat → Option (List α)) : Nat → List α
  | 0 => (kept 0).getD []
  | n + 1 => (kept (n + 1)).getD [] ++ upTo kept n

/-- What the files hold after the one that is written became a backup. -/
def rotated (backups : Nat) (kept : Nat → Option (List α)) : Nat → Option (List α) :=
  Function.update (moveUp backups kept) 0 (some [])

/-- What the files hold after something was added to the one that is written. -/
def added (x : α) (kept : Nat → Option (List α)) : Nat → Option (List α) :=
  Function.update kept 0 (some ((kept 0).getD [] ++ [x]))

/-- What the files hold after the one that is written was opened. -/
def opened (kept : Nat → Option (List α)) : Nat → Option (List α) :=
  Function.update kept 0 (some ((kept 0).getD []))

variable {kept : Nat → Option (List α)} {n m : Nat}

theorem upTo_succ : upTo kept (n + 1) = (kept (n + 1)).getD [] ++ upTo kept n :=
  rfl

/-- If there are no files above a number, there are none either when the one that is written changes. -/
theorem update_zero_eq_none (hnone : ∀ k, n < k → kept k = none) (xs : Option (List α)) (k : Nat) (hk : n < k) :
    Function.update kept 0 xs k = none := by
  rw [Function.update_of_ne (Nat.ne_zero_of_lt hk), hnone k hk]

/-- What is added to the file that is written comes last. -/
theorem upTo_update_zero (kept : Nat → Option (List α)) (xs : List α) (n : Nat) :
    upTo (Function.update kept 0 (some ((kept 0).getD [] ++ xs))) n = upTo kept n ++ xs := by
  induction n with
  | zero => rw [upTo, Function.update_self, Option.getD_some, upTo]
  | succ n ih => rw [upTo, upTo, ih, Function.update_of_ne (Nat.succ_ne_zero n), List.append_assoc]

theorem upTo_added (x : α) : upTo (added x kept) n = upTo kept n ++ [x] :=
  upTo_update_zero kept [x] n

theorem upTo_opened : upTo (opened kept) n = upTo kept n := by
  have hnothing := upTo_update_zero kept [] n
  rw [List.append_nil, List.append_nil] at hnothing
  exact hnothing

/-- Without files above a number, those up to it hold everything. -/
theorem upTo_eq_of_none (hnone : ∀ k, n < k → kept k = none) (hm : n ≤ m) : upTo kept m = upTo kept n := by
  induction m, hm using Nat.le_induction with
  | base => rfl
  | succ m hm ih => rw [upTo, hnone (m + 1) (Nat.lt_succ_of_le hm), ih, Option.getD_none, List.nil_append]

theorem upTo_suffix (hm : n ≤ m) : upTo kept n <:+ upTo kept m := by
  induction m, hm using Nat.le_induction with
  | base => exact List.suffix_refl _
  | succ m _ ih => exact ih.trans (List.suffix_append _ _)

theorem rotated_zero : rotated m kept 0 = some [] :=
  Function.update_self ..

theorem rotated_succ (k : Nat) : rotated (n + 1) kept (k + 1) =
    if k + 1 ≤ n then kept k else if k + 1 = n + 1 then (kept n).or (kept (n + 1)) else kept (k + 1) := by
  rw [rotated, Function.update_of_ne (Nat.succ_ne_zero k), moveUp_succ, if_neg (Nat.succ_ne_zero k)]
  rfl

/-- A rotation adds at most one file behind the last one, and none behind the last backup. -/
theorem rotated_eq_none (hnone : ∀ k, m < k → kept k = none) (k : Nat) (hk : m < k)
    (hlast : m + 1 < k ∨ n + 1 ≤ m) : rotated (n + 1) kept k = none := by
  cases k with
  | zero => omega
  | succ k =>
    rw [rotated_succ]
    split_ifs with hbelow htop
    · exact hnone k (by omega)
    · rw [hnone n (by omega), hnone (n + 1) (by omega), Option.none_or]
    · exact hnone (k + 1) hk

/-- Up to the backup before the last one, the files hold what they held before, one number higher. -/
theorem upTo_rotated_of_lt (k : Nat) (hk : k < n) : upTo (rotated (n + 1) kept) (k + 1) = upTo kept k := by
  have hfile : rotated (n + 1) kept (k + 1) = kept k := by rw [rotated_succ, if_pos (Nat.succ_le_of_lt hk)]
  cases k with
  | zero =>
    rw [upTo_succ, hfile, upTo, rotated_zero]
    exact List.append_nil _
  | succ k => rw [upTo, upTo_rotated_of_lt k (Nat.lt_of_succ_lt hk), hfile, upTo]

/-- The file before the last backup and what is behind it. -/
theorem append_upTo_rotated : (kept n).getD [] ++ upTo (rotated (n + 1) kept) n = upTo kept n := by
  cases n with
  | zero => rw [upTo, upTo, rotated_zero, Option.getD_some, List.append_nil]
  | succ n => rw [upTo_rotated_of_lt n (Nat.lt_succ_self n), upTo]

/-- All files hold what they held before, but the last backup is lost if another one took its place. -/
theorem upTo_rotated : upTo (rotated (n + 1) kept) (n + 1) =
    if (kept n).isSome then upTo kept n else upTo kept (n + 1) := by
  have hfile : rotated (n + 1) kept (n + 1) = (kept n).or (kept (n + 1)) := by
    rw [rotated_succ, if_neg (Nat.not_succ_le_self n), if_pos rfl]
  have hbelow : (kept n).getD [] ++ upTo (rotated (n + 1) kept) n = upTo kept n := append_upTo_rotated
  rw [upTo, hfile]
  cases hn : kept n with
  | some xs =>
    rw [hn] at hbelow
    exact hbelow
  | none =>
    rw [hn, Option.getD_none, List.nil_append] at hbelow
    rw [Option.none_or, hbelow]
    rfl

/-- A rotation keeps the order. -/
theorem upTo_rotated_sublist (hm : n + 1 ≤ m) : (upTo (rotated (n + 1) kept) m).Sublist (upTo kept m) := by
  induction m, hm using Nat.le_induction with
  | base =>
    rw [upTo_rotated]
    split
    · exact (upTo_suffix (Nat.le_succ n)).sublist
    · exact List.Sublist.refl _
  | succ m hm ih =>
    have hfile : rotated (n + 1) kept (m + 1) = kept (m + 1) := by
      rw [rotated_succ, if_neg (by omega), if_neg (by omega)]
    rw [upTo, upTo, hfile]
    exact ih.append_left _

/-- A rotation loses nothing if there is no last backup. -/
theorem upTo_rotated_of_none (hnone : kept (n + 1) = none) (hm : n + 1 ≤ m) :
    upTo (rotated (n + 1) kept) m = upTo kept m := by
  induction m, hm using Nat.le_induction with
  | base =>
    rw [upTo_rotated, upTo, hnone]
    exact ite_self _
  | succ m hm ih =>
    have hfile : rotated (n + 1) kept (m + 1) = kept (m + 1) := by
      rw [rotated_succ, if_neg (by omega), if_neg (by omega)]
    rw [upTo, upTo, hfile, ih]

end Records

/-! ## Records in files -/

section Files

variable {f : Folder} {d : Disk} {way : List String} {kept : Nat → Option (List Record)} {t : Target} {name : String}
  {v : List String}

/-- The text of a file with records. -/
def textOf (records : List Record) : String :=
  String.join (records.map Record.line)

/-- The files of a log hold records, each file those of its number. -/
def Holds (f : Folder) (way : List String) (kept : Nat → Option (List Record)) : Prop :=
  filesOf f way = fun n => (kept n).map textOf

theorem Holds.rotate (h : Holds d.folder way kept) (hway : t.way = way) (hbackups : t.backups ≠ 0) :
    Holds (d.rotate name t).folder way (rotated t.backups kept) := by
  funext n
  rw [filesOf_rotate hway hbackups, rotated, h, ← map_moveUp, Function.update_apply, Function.update_apply]
  split_ifs
  · rfl
  · rfl

/-- The text of the file that is written. -/
theorem Holds.getD_content? (h : Holds f way kept) : (f.content? way).getD "" = textOf ((kept 0).getD []) := by
  have hfile : f.content? way = (kept 0).map textOf := congrFun h 0
  rw [hfile]
  cases kept 0 <;> rfl

/-- Other records in the file that is written. -/
theorem Holds.put (h : Holds f way kept) (records : List Record) :
    Holds (f.put way (textOf records)) way (Function.update kept 0 (some records)) := by
  funext n
  refine (congrFun (filesOf_put 0 _) n).trans ?_
  rw [Function.update_apply, Function.update_apply]
  split_ifs
  · rfl
  · exact congrFun h n

theorem Holds.openFile (h : Holds d.folder way kept) : Holds (d.openFile name way).folder way (opened kept) := by
  rw [Disk.openFile, h.getD_content?]
  exact h.put _

/-- The text of a file that is where it was opened. -/
theorem openText_eq (hstream : d.streams name = some (.file way)) :
    d.openText name = (d.folder.content? way).getD "" := by
  rw [Disk.openText, hstream]

theorem write_eq (hstream : d.streams name = some (.file way)) (text : String) : d.write name text =
    { d with folder := d.folder.put way ((d.folder.content? way).getD "" ++ text) } := by
  rw [Disk.write, hstream, openText_eq hstream]

theorem Holds.write (h : Holds d.folder way kept) (hstream : d.streams name = some (.file way)) (r : Record) :
    Holds (d.write name r.line).folder way (added r kept) := by
  have htext : textOf ((kept 0).getD []) ++ r.line = textOf ((kept 0).getD [] ++ [r]) := by simp [textOf]
  rw [write_eq hstream, h.getD_content?, htext]
  exact h.put _

/-- A file that is full becomes a backup before a text is added, or is opened again if there are no backups. -/
theorem append_cases (d : Disk) (name : String) (t : Target) (text : String) :
    (t.rotates d name text = true ∧ t.backups ≠ 0 ∧ d.append name t text = (d.rotate name t).write name text) ∨
    (t.rotates d name text = false ∧ d.append name t text = (d.openFile name t.way).write name text) ∨
    (t.rotates d name text = false ∧ d.append name t text = d.write name text) := by
  by_cases hfull : (t.limit ≠ 0 && t.limit ≤ (d.openText name).utf8ByteSize + text.length : Bool) = true
  · by_cases hbackups : t.backups = 0
    · refine .inr (.inl ⟨by simp [Target.rotates, hbackups], ?_⟩)
      rw [Disk.append, if_pos hfull, Disk.rotate, if_pos hbackups]
    · refine .inl ⟨?_, hbackups, ?_⟩
      · rw [Target.rotates, Bool.and_assoc, hfull]
        simpa using hbackups
      · rw [Disk.append, if_pos hfull]
  · refine .inr (.inr ⟨?_, ?_⟩)
    · rw [Target.rotates, Bool.and_assoc, Bool.eq_false_of_not_eq_true hfull, Bool.and_false]
    · rw [Disk.append, if_neg hfull]

/-! ## Folders stay -/

theorem hasFolder_rename (n : Nat) (h : d.folder.hasFolder v) :
    (d.rename (fileWay way n) (fileWay way (n + 1))).folder.hasFolder v := by
  unfold Disk.rename
  cases hn : d.folder.content? (fileWay way n) with
  | none => exact h
  | some text =>
    have hne : fileWay way (n + 1) ≠ [] := by simp [fileWay, backupWay]
    rw [Folder.hasFolder_iff] at h ⊢
    refine h.imp_right (Or.imp_right ?_)
    rintro ⟨w, hw, hv, hlt⟩
    by_cases hold : w = fileWay way n
    · -- what was above the file is above the one that it became
      refine ⟨_, by rw [Folder.content?_put]; rfl, ?_⟩
      rw [hold] at hv hlt
      have hdrop : v <+: (fileWay way (n + 1)).dropLast := by
        rw [dropLast_fileWay, ← dropLast_fileWay way n]
        exact List.prefix_of_prefix_length_le hv (List.dropLast_prefix _) (by rw [List.length_dropLast]; omega)
      refine ⟨hdrop.trans (List.dropLast_prefix _), Nat.lt_of_le_of_lt hdrop.length_le ?_⟩
      rw [List.length_dropLast]
      exact Nat.sub_lt (List.length_pos_iff.2 hne) Nat.one_pos
    · refine ⟨w, ?_, hv, hlt⟩
      by_cases hnew : w = fileWay way (n + 1)
      · rw [hnew, Folder.content?_put]
        rfl
      · rwa [Folder.content?_put_of_ne hnew, Folder.content?_remove, if_neg hold]

theorem hasFolder_shift (n : Nat) (h : d.folder.hasFolder v) : (Disk.shift way n d).folder.hasFolder v := by
  induction n generalizing d with
  | zero => exact h
  | succ n ih => exact ih (hasFolder_rename (n + 1) h)

theorem hasFolder_rotate (h : d.folder.hasFolder v) : (d.rotate name t).folder.hasFolder v := by
  unfold Disk.rotate
  refine Folder.hasFolder_put ?_
  split
  · exact h
  · exact hasFolder_rename 0 (hasFolder_shift _ h)

end Files

end HintQuality.EventLog
