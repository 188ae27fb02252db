import HintQuality.Proofs.BoundData
import HintQuality.Proofs.LogLines
import Mathlib
/-!
# Logs read back what was written

What the files of a log hold is always in the order in which it was written, and a log reads what its run wrote into
the files that it looks into. When all logs keep the same number of backups, these are all files, and what they hold is
the end of what was written; as long as the file became a backup at most as often as there are backups, it is
everything (`read_back`). One thing done with the logs keeps this (`Keeps.perform`), and so does a whole session
(`Keeps.run`).

All this holds as long as the logs write through one logger, or the file never became a backup (`Orderly`). Of two
loggers that have the file open one goes on writing to the backup that the other made, and what it writes is read too
early (`loggers_swap`). A log that joins in writes to the file as it was opened before, but looks only into as many
backups as it was given itself. With fewer backups than the file has, it misses what the others hold (`joined_misses`).
-/

namespace HintQuality.EventLog

open Text

/-! ## What one record does -/

section Journals

variable (j : Journal) (name : String) (r : Record) (e : Event)

theorem showEvent_eq : (j.showEvent name e).disk = j.disk ∧ (j.showEvent name e).loggers = j.loggers := by
  unfold Journal.showEvent
  split
  · split_ifs <;> exact ⟨rfl, rfl⟩
  · exact ⟨rfl, rfl⟩

/-- A record goes into the file that takes it, if there is one, and the loggers go on with the same files. -/
theorem take_eq : (j.take name r).loggers = j.loggers ∧ (j.take name r).disk =
    match j.targetFor? name r with
    | some t => j.disk.append name t r.line
    | none => j.disk := by
  obtain ⟨hdisk, hloggers⟩ := showEvent_eq j name r.event
  unfold Journal.take Journal.targetFor?
  by_cases hlow : r.event.level.toNat < j.levelAt name
  · rw [if_pos hlow, if_pos hlow]
    exact ⟨rfl, rfl⟩
  rw [if_neg hlow, if_neg hlow]
  unfold Journal.writeRecord
  rw [hloggers]
  cases hj : (j.loggers name).target with
  | none => split_ifs <;> exact ⟨by simp only [hloggers], by simp only [hdisk, Option.filter]⟩
  | some t =>
    have hopen : ¬(j.loggers name).isClosed = true := by simp [Logger.isClosed, hj]
    rw [if_neg hopen]
    cases hpass : (decide (t.level ≤ r.event.level.toNat) && r.entry.isShort) with
    | true => simp [hpass, hdisk, Option.filter]
    | false => simp [hpass, hdisk, hloggers, Option.filter]

end Journals

/-! ## What a session keeps -/

/-- An action with logs of one file whose data have no object with two fields of one name. -/
def Action.Suits (p : Path) : Action → Prop
  | .start o => o.path = p ∧ (Json.obj o.context).Distinct
  | .bind _ context => (Json.obj context).Distinct
  | .emit _ _ _ e => (Json.obj e.data).Distinct
  | .close _ => True

/-- All logs write through one logger, or no file ever became a backup. -/
def Session.Orderly (s : Session) : Prop :=
  (∀ l ∈ s.logs, ∀ l' ∈ s.logs, l.logger = l'.logger) ∨ s.rotations = 0

/-- The files of the logs hold records of the session in the order in which they were written. -/
structure Keeps (p : Path) (s : Session) (kept : Nat → Option (List Record)) : Prop where
  /-- The files hold these records. -/
  holds : Holds s.journal.disk.folder p.settled kept
  /-- A logger with a file has the one at the end of the path open, as one of its logs wants it. -/
  target : ∀ name t, (s.journal.loggers name).target = some t →
    t.way = p.settled ∧ s.journal.disk.streams name = some (.file p.settled) ∧
      (∃ l ∈ s.logs, l.logger = name ∧ l.backups = t.backups) ∧ (kept 0).isSome
  /-- The path leads to the file, if there is one. -/
  found : ∀ n, (kept n).isSome → s.journal.disk.folder.way? p = some p.settled
  /-- All logs have the path. -/
  path : ∀ l ∈ s.logs, l.path = p
  /-- The files hold records that were written, in that order. -/
  order : ∀ n, (upTo kept n).Sublist s.written
  /-- There are not more backups than times at which the file became one. -/
  few : ∀ n, s.rotations < n → kept n = none
  /-- If all logs keep as many backups, the files hold the end of what was written. -/
  suffix : ∀ b, (∀ l ∈ s.logs, l.backups = b) → (∀ n, b < n → kept n = none) ∧ upTo kept b <:+ s.written
  /-- If the file did not become a backup too often, the files hold everything. -/
  complete : (∀ l ∈ s.logs, s.rotations ≤ l.backups) → upTo kept s.rotations = s.written
  /-- What the logs add has distinct names. -/
  context : ∀ l ∈ s.logs, (Json.obj l.context).Distinct
  /-- What was written can be read. -/
  legible : ∀ r ∈ s.written, r.Legible

/-! ## One action after the other -/

section Steps

variable {p : Path} {s : Session} {j : Journal} {kept : Nat → Option (List Record)} {name : String} {t : Target}

/-- A session that has not begun keeps everything, if no logger has a file and there are no files. -/
theorem keeps_of_fresh (hclosed : ∀ name, (j.loggers name).target = none)
    (hfresh : ∀ n, j.disk.folder.content? (fileWay p.settled n) = none) :
    Keeps p { journal := j } fun _ => none where
  holds := funext fun n => hfresh n
  target name t h := by
    rw [hclosed name] at h
    cases h
  found _ h := by cases h
  path _ h := by cases h
  order n := by
    rw [upTo_eq_of_none (n := 0) (fun _ _ => rfl) (Nat.zero_le n)]
    exact List.Sublist.refl _
  few _ _ := rfl
  suffix b _ := by
    refine ⟨fun _ _ => rfl, ?_⟩
    rw [upTo_eq_of_none (n := 0) (fun _ _ => rfl) (Nat.zero_le b)]
    exact List.suffix_refl _
  complete _ := rfl
  context _ h := by cases h
  legible _ h := by cases h

/-- Another log of the file changes nothing in the files. -/
theorem Keeps.addLog (h : Keeps p s kept) {l : Log} (hpath : l.path = p) (hcontext : (Json.obj l.context).Distinct) :
    Keeps p { s with logs := s.logs ++ [l] } kept where
  holds := h.holds
  target name t ht := by
    obtain ⟨hway, hstream, ⟨l', hl', hlog⟩, hlive⟩ := h.target name t ht
    exact ⟨hway, hstream, ⟨l', List.mem_append_left _ hl', hlog⟩, hlive⟩
  found := h.found
  path l' hl' := by
    rcases List.mem_append.1 hl' with hl' | hl'
    · exact h.path l' hl'
    · rwa [List.mem_singleton.1 hl']
  order := h.order
  few := h.few
  suffix b hb := h.suffix b fun l' hl' => hb l' (List.mem_append_left _ hl')
  complete hle := h.complete fun l' hl' => hle l' (List.mem_append_left _ hl')
  context l' hl' := by
    rcases List.mem_append.1 hl' with hl' | hl'
    · exact h.context l' hl'
    · rwa [List.mem_singleton.1 hl']
  legible := h.legible

/-- A journal that keeps its files and has no other file open than before keeps what the session keeps. -/
theorem Keeps.setJournal (h : Keeps p s kept) (hfolder : j.disk.folder = s.journal.disk.folder)
    (htarget : ∀ name t, (j.loggers name).target = some t → (s.journal.loggers name).target = some t ∧
      j.disk.streams name = s.journal.disk.streams name) : Keeps p { s with journal := j } kept where
  holds := by
    show Holds j.disk.folder _ _
    rw [hfolder]
    exact h.holds
  target name t ht := by
    obtain ⟨ht, hstream⟩ := htarget name t ht
    obtain ⟨hway, hstream', hrest⟩ := h.target name t ht
    exact ⟨hway, hstream.trans hstream', hrest⟩
  found n hn := by
    show j.disk.folder.way? p = _
    rw [hfolder]
    exact h.found n hn
  path := h.path
  order := h.order
  few := h.few
  suffix := h.suffix
  complete := h.complete
  context := h.context
  legible := h.legible

/-- What the session keeps when the file is opened. -/
theorem Keeps.opened (h : Keeps p s kept) (hholds : Holds j.disk.folder p.settled (opened kept))
    (htarget : ∀ name t, (j.loggers name).target = some t → t.way = p.settled ∧
      j.disk.streams name = some (.file p.settled) ∧ ∃ l ∈ s.logs, l.logger = name ∧ l.backups = t.backups)
    (hfound : j.disk.folder.way? p = some p.settled) : Keeps p { s with journal := j } (EventLog.opened kept) := by
  refine ⟨hholds, fun name t ht => ?_, fun _ _ => hfound, h.path, fun n => ?_, update_zero_eq_none h.few _,
    fun b hb => ?_, fun hle => ?_, h.context, h.legible⟩
  · obtain ⟨hway, hstream, hlog⟩ := htarget name t ht
    exact ⟨hway, hstream, hlog, by simp [EventLog.opened]⟩
  · rw [upTo_opened]
    exact h.order n
  · obtain ⟨hnone, hsuffix⟩ := h.suffix b hb
    rw [upTo_opened]
    exact ⟨update_zero_eq_none hnone _, hsuffix⟩
  · rw [upTo_opened]
    exact h.complete hle

/-- What the session keeps when a logger that has the file opens it again. -/
theorem Keeps.openFile (h : Keeps p s kept) (ht : (s.journal.loggers name).target = some t) :
    Keeps p { s with journal := { s.journal with disk := s.journal.disk.openFile name t.way } }
      (EventLog.opened kept) := by
  obtain ⟨hway, -, -, hlive⟩ := h.target name t ht
  rw [hway]
  refine h.opened h.holds.openFile (fun name' t' ht' => ?_)
    (Folder.way?_mono (fun v => Folder.hasFolder_put) (h.found 0 hlive))
  obtain ⟨hway', hstream', hlog', -⟩ := h.target name' t' ht'
  refine ⟨hway', ?_, hlog'⟩
  show (s.journal.disk.openFile name p.settled).streams name' = _
  rw [Disk.streams_openFile, hstream', ite_self]

/-- What the session keeps when the file becomes a backup, if all logs write through one logger. -/
theorem Keeps.rotate (h : Keeps p s kept) (ht : (s.journal.loggers name).target = some t) (hbackups : t.backups ≠ 0)
    (hone : ∀ l ∈ s.logs, ∀ l' ∈ s.logs, l.logger = l'.logger) : Keeps p { s with
      journal := { s.journal with disk := s.journal.disk.rotate name t }
      rotations := s.rotations + 1 } (rotated t.backups kept) := by
  obtain ⟨hway, -, ⟨l, hl, hname, hlog⟩, hlive⟩ := h.target name t ht
  obtain ⟨n, hn⟩ := Nat.exists_eq_succ_of_ne_zero hbackups
  have hfew : ∀ k, s.rotations + 1 < k → rotated (n + 1) kept k = none := fun k hk =>
    rotated_eq_none h.few k (Nat.lt_of_succ_lt hk) (.inl hk)
  refine ⟨h.holds.rotate hway hbackups, ?_, ?_, h.path, ?_, ?_, ?_, ?_, h.context, h.legible⟩
  · intro name' t' ht'
    obtain ⟨hway', -, ⟨l', hl', hname', hlog'⟩, -⟩ := h.target name' t' ht'
    obtain rfl : name = name' := by rw [← hname, ← hname', hone l hl l' hl']
    refine ⟨hway', ?_, ⟨l', hl', hname', hlog'⟩, by rw [rotated_zero]; rfl⟩
    rw [← hway]
    exact (Disk.streams_openFile ..).trans (if_pos rfl)
  · exact fun k _ => Folder.way?_mono (fun v => hasFolder_rotate) (h.found 0 hlive)
  · intro k
    have hlarge : (upTo (rotated (n + 1) kept) (max k (n + 1))).Sublist (upTo kept (max k (n + 1))) :=
      upTo_rotated_sublist (Nat.le_max_right _ _)
    rw [hn]
    exact ((upTo_suffix (Nat.le_max_left k (n + 1))).sublist.trans hlarge).trans (h.order _)
  · rw [hn]
    exact hfew
  · intro b hb
    obtain ⟨hnone, hsuffix⟩ := h.suffix b hb
    obtain rfl : b = n + 1 := by rw [← hb l hl, hlog, hn]
    rw [hn]
    refine ⟨fun k hk => rotated_eq_none hnone k hk (.inr (Nat.le_refl _)), ?_⟩
    rw [upTo_rotated]
    split_ifs
    · exact (upTo_suffix (Nat.le_succ n)).trans hsuffix
    · exact hsuffix
  · intro hle
    have hlast : s.rotations ≤ n := by
      have := hle l hl
      simp only at this
      omega
    have hkept : upTo kept s.rotations = s.written := h.complete fun l' hl' => Nat.le_of_succ_le (hle l' hl')
    rw [hn]
    show upTo (rotated (n + 1) kept) (s.rotations + 1) = s.written
    rw [← upTo_eq_of_none hfew (Nat.succ_le_succ hlast),
      upTo_rotated_of_none (h.few _ (Nat.lt_succ_of_le hlast)) (le_refl _),
      upTo_eq_of_none h.few (Nat.le_succ_of_le hlast), hkept]

/-- What the session keeps when a record is added to the file. -/
theorem Keeps.write (h : Keeps p s kept) (ht : (s.journal.loggers name).target = some t) {r : Record} (hr : r.Legible) :
    Keeps p { s with
      journal := { s.journal with disk := s.journal.disk.write name r.line }
      written := s.written ++ [r] } (added r kept) := by
  obtain ⟨-, hstream, -, hlive⟩ := h.target name t ht
  refine ⟨h.holds.write hstream r, ?_, ?_, h.path, ?_, update_zero_eq_none h.few _, ?_, ?_, h.context, ?_⟩
  · intro name' t' ht'
    obtain ⟨hway', hstream', hlog', -⟩ := h.target name' t' ht'
    refine ⟨hway', ?_, hlog', by simp [added]⟩
    rw [write_eq hstream]
    exact hstream'
  · intro k _
    rw [write_eq hstream]
    exact Folder.way?_mono (fun v => Folder.hasFolder_put) (h.found 0 hlive)
  · intro k
    rw [upTo_added]
    exact (h.order k).append_right [r]
  · intro b hb
    obtain ⟨hnone, lost, hlost⟩ := h.suffix b hb
    refine ⟨update_zero_eq_none hnone _, ?_⟩
    rw [upTo_added, ← hlost]
    exact ⟨lost, (List.append_assoc _ _ _).symm⟩
  · intro hle
    show upTo (added r kept) s.rotations = s.written ++ [r]
    rw [upTo_added, h.complete hle]
  · intro r' hr'
    rcases List.mem_append.1 hr' with hr' | hr'
    · exact h.legible r' hr'
    · rwa [List.mem_singleton.1 hr']

/-- A record goes only into the file of its logger, and only if it can be written. -/
theorem of_targetFor? {r : Record} (h : j.targetFor? name r = some t) :
    (j.loggers name).target = some t ∧ r.entry.isShort = true := by
  unfold Journal.targetFor? at h
  split_ifs at h
  obtain ⟨ht, hpass⟩ := Option.filter_eq_some_iff.1 h
  exact ⟨ht, ((Bool.and_eq_true _ _).mp hpass).2⟩

/-- What the session keeps when a log records an event. -/
theorem Keeps.emit (h : Keeps p s kept) {l : Log} (hl : l ∈ s.logs) {e : Event} (he : (Json.obj e.data).Distinct)
    (timestamp traceback : String) (horderly : (s.emit l timestamp traceback e).Orderly) :
    ∃ kept', Keeps p (s.emit l timestamp traceback e) kept' := by
  obtain ⟨hloggers, hdisk⟩ := take_eq s.journal l.logger (l.record timestamp traceback e)
  cases hfile : s.journal.targetFor? l.logger (l.record timestamp traceback e) with
  | none =>
    rw [hfile] at hdisk
    simp only [Session.emit, hfile]
    refine ⟨kept, h.setJournal (congrArg Disk.folder hdisk) fun name t ht => ⟨hloggers ▸ ht, ?_⟩⟩
    exact congrFun (congrArg Disk.streams hdisk) name
  | some t =>
    rw [hfile] at hdisk
    obtain ⟨ht, hshort⟩ := of_targetFor? hfile
    have hr : (l.record timestamp traceback e).Legible := ⟨Json.distinct_putAll (h.context l hl) he.2, hshort⟩
    -- the journal after the record has the loggers of the one before and this disk
    have hdone : ∀ {s' : Session} {kept' : Nat → Option (List Record)}, Keeps p s' kept' →
        s'.journal.loggers = s.journal.loggers →
        s'.journal.disk = s.journal.disk.append l.logger t (l.record timestamp traceback e).line →
        Keeps p { s' with journal := l.emit timestamp traceback e s.journal } kept' := by
      intro s' kept' h' hsame hdisk'
      have hboth := hdisk.trans hdisk'.symm
      refine h'.setJournal (congrArg Disk.folder hboth) fun name t' ht' => ⟨?_, ?_⟩
      · rw [hsame]
        exact hloggers ▸ ht'
      · exact congrFun (congrArg Disk.streams hboth) name
    simp only [Session.emit, hfile] at horderly ⊢
    rcases append_cases s.journal.disk l.logger t (l.record timestamp traceback e).line with
      ⟨hrotates, hbackups, happend⟩ | ⟨hstays, happend⟩ | ⟨hstays, happend⟩
    · rw [if_pos hrotates] at horderly ⊢
      have hone := horderly.resolve_right (Nat.succ_ne_zero _)
      have h' := (h.rotate ht hbackups hone).write (t := t) ht hr
      exact ⟨_, hdone h' rfl happend.symm⟩
    · rw [hstays, if_neg Bool.false_ne_true]
      have h' := (h.openFile ht).write (t := t) ht hr
      exact ⟨_, hdone h' rfl happend.symm⟩
    · rw [hstays, if_neg Bool.false_ne_true]
      have h' := h.write ht hr
      exact ⟨_, hdone h' rfl happend.symm⟩

/-- A log that takes over closes its logger and leaves the others as they are. -/
theorem takeOver_cases (j : Journal) (o : Options) (name : String) :
    (name = loggerName o.name ∧ ((j.takeOver o).loggers name).target = none) ∨
    (name ≠ loggerName o.name ∧ (j.takeOver o).loggers name = j.loggers name ∧
      (j.takeOver o).disk.streams name = j.disk.streams name) := by
  by_cases hname : name = loggerName o.name
  · exact .inl ⟨hname, by simp [Journal.takeOver, hname]⟩
  · exact .inr ⟨hname, by simp [Journal.takeOver, hname], by simp [Journal.takeOver, hname]⟩

/-- What the session keeps when a log takes over without a file. -/
theorem Keeps.takeOver (h : Keeps p s kept) (o : Options) :
    Keeps p { s with journal := s.journal.takeOver o } kept := by
  refine h.setJournal rfl fun name t ht => ?_
  rcases takeOver_cases s.journal o name with ⟨-, hnone⟩ | ⟨-, hsame, hstream⟩
  · rw [hnone] at ht
    cases ht
  · exact ⟨hsame ▸ ht, hstream⟩

/-- What the session keeps when a log takes over with its file. -/
theorem Keeps.openTarget (h : Keeps p s kept) {o : Options} (hpath : o.path = p)
    (hlog : ∃ l ∈ s.logs, l.logger = loggerName o.name ∧ l.backups = o.backups)
    (hopen : (s.journal.takeOver o).openTarget o = .ok j) : Keeps p { s with journal := j } (EventLog.opened kept) := by
  obtain ⟨f', hmake, hopen⟩ := bind_eq_ok_iff.1 hopen
  rw [hpath] at hmake hopen
  dsimp only at hopen
  split_ifs at hopen with hnot
  obtain rfl := Except.ok.inj hopen
  have hholds : Holds f' p.settled kept := by
    have hsame : filesOf f' p.settled = filesOf s.journal.disk.folder p.settled := by
      funext n
      rw [filesOf, filesOf, Folder.content?, Folder.content?, (Folder.make_eq_ok hmake).1]
      rfl
    rw [Holds, hsame]
    exact h.holds
  have hopened : Holds (Disk.openFile { s.journal.disk with folder := f' } (loggerName o.name) p.settled).folder
    p.settled (EventLog.opened kept) := Holds.openFile hholds
  refine h.opened hopened (fun name t ht => ?_)
    (Folder.way?_mono (fun v => Folder.hasFolder_put) (Folder.way?_of_make hmake (by simpa using hnot)))
  simp only [Journal.loggers_setLogger] at ht
  simp only [Disk.streams_openFile]
  rcases takeOver_cases s.journal o name with ⟨hname, -⟩ | ⟨hname, hsame, hstream⟩
  · rw [if_pos hname] at ht ⊢
    obtain rfl := Option.some.inj ht
    exact ⟨rfl, rfl, hname ▸ hlog⟩
  · rw [if_neg hname, hsame] at ht
    obtain ⟨hway, hstream', hlog', -⟩ := h.target name t ht
    rw [if_neg hname]
    exact ⟨hway, hstream.trans hstream', hlog'⟩

/-- What a session keeps when a log is opened. -/
theorem Keeps.start (h : Keeps p s kept) {o : Options} (hpath : o.path = p) (hcontext : (Json.obj o.context).Distinct)
    {l : Log} (hstart : s.journal.start o = .ok (j, l)) :
    ∃ kept', Keeps p { s with journal := j, logs := s.logs ++ [l] } kept' := by
  have hadd := h.addLog (l := ⟨o.path, o.run, o.context, o.backups, loggerName o.name⟩) hpath hcontext
  unfold Journal.start at hstart
  dsimp only at hstart
  generalize (if o.hasFile then some o.path.settled else none) = wanted at hstart
  split_ifs at hstart with hjoins hfile
  · obtain ⟨rfl, rfl⟩ := Prod.mk.inj (Except.ok.inj hstart)
    refine ⟨kept, hadd.setJournal rfl fun name t ht => ⟨?_, rfl⟩⟩
    rw [Journal.loggers_setLogger] at ht
    split_ifs at ht with hname
    · exact hname ▸ ht
    · exact ht
  · obtain ⟨j', hopen, hstart⟩ := bind_eq_ok_iff.1 hstart
    obtain ⟨rfl, rfl⟩ := Prod.mk.inj (Except.ok.inj hstart)
    exact ⟨_, hadd.openTarget hpath ⟨_, List.mem_append_right _ (List.mem_singleton_self _), rfl, rfl⟩ hopen⟩
  · obtain ⟨rfl, rfl⟩ := Prod.mk.inj (Except.ok.inj hstart)
    exact ⟨kept, hadd.takeOver o⟩

/-- One action keeps it. -/
theorem Keeps.perform (h : Keeps p s kept) {a : Action} (ha : a.Suits p) (horderly : (s.perform a).Orderly) :
    ∃ kept', Keeps p (s.perform a) kept' := by
  cases a with
  | start o =>
    cases hstart : s.journal.start o with
    | ok r =>
      simp only [Session.perform, hstart]
      exact h.start ha.1 ha.2 hstart
    | error _ =>
      simp only [Session.perform, hstart]
      exact ⟨kept, h.takeOver o⟩
  | bind log context =>
    cases hlog : s.logs[log]? with
    | none =>
      simp only [Session.perform, hlog]
      exact ⟨kept, h⟩
    | some l =>
      have hl := List.mem_of_getElem? hlog
      simp only [Session.perform, hlog]
      exact ⟨kept, h.addLog (l := l.bind context) (h.path l hl) (Json.distinct_putAll (h.context l hl) ha.2)⟩
  | emit log timestamp traceback e =>
    cases hlog : s.logs[log]? with
    | none =>
      simp only [Session.perform, hlog]
      exact ⟨kept, h⟩
    | some l =>
      simp only [Session.perform, hlog] at horderly ⊢
      exact h.emit (List.mem_of_getElem? hlog) ha timestamp traceback horderly
  | close log =>
    cases hlog : s.logs[log]? with
    | none =>
      simp only [Session.perform, hlog]
      exact ⟨kept, h⟩
    | some l =>
      simp only [Session.perform, hlog]
      refine ⟨kept, h.setJournal rfl fun name t ht => ?_⟩
      rw [Log.close, Journal.loggers_close] at ht
      split_ifs at ht with hname
      exact ⟨ht, by rw [Log.close, Journal.streams_close, if_neg hname]⟩

/-- An event adds no log, and the file may become a backup. -/
theorem emit_mono (s : Session) (l : Log) (timestamp traceback : String) (e : Event) :
    (s.emit l timestamp traceback e).logs = s.logs ∧ s.rotations ≤ (s.emit l timestamp traceback e).rotations := by
  unfold Session.emit
  dsimp only
  split
  · exact ⟨rfl, Nat.le_refl _⟩
  · refine ⟨rfl, ?_⟩
    dsimp only
    split_ifs
    · exact Nat.le_succ _
    · exact Nat.le_refl _

/-- Logs stay, and the file does not become a backup less often. -/
theorem perform_mono (s : Session) (a : Action) :
    s.logs ⊆ (s.perform a).logs ∧ s.rotations ≤ (s.perform a).rotations := by
  cases a with
  | start o =>
    simp only [Session.perform]
    split
    · exact ⟨List.subset_append_left _ _, Nat.le_refl _⟩
    · exact ⟨List.Subset.refl _, Nat.le_refl _⟩
  | bind log context =>
    simp only [Session.perform]
    split
    · exact ⟨List.subset_append_left _ _, Nat.le_refl _⟩
    · exact ⟨List.Subset.refl _, Nat.le_refl _⟩
  | emit log timestamp traceback e =>
    simp only [Session.perform]
    split
    · rename_i l _
      obtain ⟨hlogs, hrotations⟩ := emit_mono s l timestamp traceback e
      exact ⟨hlogs ▸ List.Subset.refl _, hrotations⟩
    · exact ⟨List.Subset.refl _, Nat.le_refl _⟩
  | close log =>
    simp only [Session.perform]
    split <;> exact ⟨List.Subset.refl _, Nat.le_refl _⟩

/-- A session that is orderly in the end was orderly all along. -/
theorem orderly_of_run {actions : List Action} (h : (s.run actions).Orderly) : s.Orderly := by
  induction actions generalizing s with
  | nil => exact h
  | cons a actions ih =>
    obtain ⟨hlogs, hrotations⟩ := perform_mono s a
    refine (ih h).imp (fun hone l hl l' hl' => hone l (hlogs hl) l' (hlogs hl')) fun hzero => ?_
    exact Nat.eq_zero_of_le_zero (hrotations.trans_eq hzero)

/-- A whole session keeps it. -/
theorem Keeps.run (h : Keeps p s kept) {actions : List Action} (hactions : ∀ a ∈ actions, a.Suits p)
    (horderly : (s.run actions).Orderly) : ∃ kept', Keeps p (s.run actions) kept' := by
  induction actions generalizing s kept with
  | nil => exact ⟨kept, h⟩
  | cons a actions ih =>
    have hstep : (s.perform a).Orderly := orderly_of_run horderly
    obtain ⟨kept', h'⟩ := h.perform (hactions a List.mem_cons_self) hstep
    exact ih h' (fun b hb => hactions b (List.mem_cons_of_mem _ hb)) horderly

/-- A log reads the records of its run from the files that it looks into. -/
theorem Keeps.read (h : Keeps p s kept) {l : Log} (hl : l ∈ s.logs) : l.read s.journal.disk.folder =
    .ok (((upTo kept l.backups).filter (·.run = l.run)).map Record.fields) := by
  have hlegible : ∀ r ∈ upTo kept l.backups, r.Legible := fun r hr => h.legible r ((h.order _).subset hr)
  have hpath := h.path l hl
  cases hway : s.journal.disk.folder.way? l.path with
  | some way =>
    have hsettled : way = p.settled := by rw [(Folder.way?_eq_some_iff.1 hway).1, hpath]
    exact read_of_holds (hsettled ▸ hway) h.holds hlegible
  | none =>
    -- without a way to the file there is none
    have hnone : ∀ n, kept n = none := by
      intro n
      by_contra hsome
      have hfound := h.found n (Option.isSome_iff_ne_none.2 hsome)
      rw [← hpath, hway] at hfound
      cases hfound
    have hempty : upTo kept l.backups = [] := by
      rw [upTo_eq_of_none (n := 0) (fun k _ => hnone k) (Nat.zero_le _), upTo, hnone 0]
      rfl
    rw [hempty, Log.read, Log.readAll, Log.texts, hway]
    rfl

end Steps

/-- **Logs read back what was written.** Whatever is done with the logs of one file, through one logger or without a
backup being made: the files hold what was written in the order in which it was written, and every log reads what its
run wrote into the files that it looks into. If all logs keep the same number of backups, there are no other files, and
they hold the end of what was written. If the file became a backup at most as often as every log keeps backups, every
log looks into all of it. The data of a record is what its event says over what the views of its log say, the latest
first, and the log itself. -/
theorem read_back {j : Journal} {p : Path} {actions : List Action} (hclosed : ∀ name, (j.loggers name).target = none)
    (hfresh : ∀ n, j.disk.folder.content? (fileWay p.settled n) = none) (hactions : ∀ a ∈ actions, a.Suits p)
    (horderly : (({ journal := j } : Session).run actions).Orderly) :
    let s := ({ journal := j } : Session).run actions
    (∃ kept, Holds s.journal.disk.folder p.settled kept ∧
      (∀ n, (upTo kept n).Sublist s.written) ∧
      (∀ l ∈ s.logs, l.read s.journal.disk.folder =
        .ok (((upTo kept l.backups).filter (·.run = l.run)).map Record.fields)) ∧
      (∀ b, (∀ l ∈ s.logs, l.backups = b) → (∀ n, b < n → kept n = none) ∧ upTo kept b <:+ s.written) ∧
      ((∀ l ∈ s.logs, s.rotations ≤ l.backups) → ∀ l ∈ s.logs, upTo kept l.backups = s.written)) ∧
    ∀ (l : Log) (contexts : List Json.Fields) (timestamp traceback : String) (e : Event) (k : String),
      (∀ c ∈ contexts, (c.map Prod.fst).Nodup) → (e.data.map Prod.fst).Nodup →
      ((contexts.foldl Log.bind l).record timestamp traceback e).event.data.get? k =
        (e.data :: (contexts.reverse ++ [l.context])).findSome? (·.get? k) := by
  intro s
  obtain ⟨kept, h⟩ := (keeps_of_fresh hclosed hfresh).run hactions horderly
  refine ⟨⟨kept, h.holds, h.order, fun l hl => h.read hl, h.suffix, fun hle l hl => ?_⟩, ?_⟩
  · rw [upTo_eq_of_none h.few (hle l hl), h.complete hle]
  · intro l contexts timestamp traceback e k hcontexts hdata
    exact get?_record hcontexts hdata timestamp traceback k

/-! ## Two logs of one file -/

/-- The path of the file. -/
def samplePath : Path :=
  ⟨"", ["log"]⟩

/-- How a log of the file is opened. The file has room for one line. -/
def sampleOptions (run : String) : Options :=
  { path := samplePath, run := run, limit := 120, hasConsole := false }

/-- Two logs of one file, the second of them with a view. -/
def sampleActions (backups : Nat) : List Action :=
  [.start { sampleOptions "a" with context := [("x", .int 0)] },
   .start { sampleOptions "b" with backups := backups },
   .bind 1 [("x", .int 1)],
   .emit 2 "" "" { type := "A", data := [] },
   .emit 1 "" "" { type := "B", data := [("x", .int 2)] }]

/-- What the two logs read if they keep as many backups. -/
theorem read_back_two_logs : (∀ name, (({} : Journal).loggers name).target = none) ∧
    (∀ n, ({} : Journal).disk.folder.content? (fileWay samplePath.settled n) = none) ∧
    (∀ a ∈ sampleActions 5, a.Suits samplePath) ∧ (({} : Session).run (sampleActions 5)).Orderly ∧
    let s := ({} : Session).run (sampleActions 5)
    s.rotations = 1 ∧ ∀ l ∈ s.logs, l.read s.journal.disk.folder =
      .ok ((s.written.filter (·.run = l.run)).map Record.fields) := by
  have hclosed : ∀ name, (({} : Journal).loggers name).target = none := by
    intro name
    simp only [assign]
    split_ifs <;> rfl
  have hfresh : ∀ n, ({} : Journal).disk.folder.content? (fileWay samplePath.settled n) = none := fun _ => rfl
  have hactions : ∀ a ∈ sampleActions 5, a.Suits samplePath := by
    simp [sampleActions, sampleOptions, Action.Suits, Json.Distinct, Json.DistinctFields]
  have horderly : (({} : Session).run (sampleActions 5)).Orderly := .inl (by decide +kernel)
  have hrotations : (({} : Session).run (sampleActions 5)).rotations = 1 := by decide +kernel
  have hbackups : ∀ l ∈ (({} : Session).run (sampleActions 5)).logs, 1 ≤ l.backups := by decide +kernel
  obtain ⟨⟨kept, -, -, hread, -, hcomplete⟩, -⟩ := read_back hclosed hfresh hactions horderly
  refine ⟨hclosed, hfresh, hactions, horderly, hrotations, fun l hl => ?_⟩
  rw [hread l hl, hcomplete (hrotations.symm ▸ hbackups) l hl]

/-- A log that joins in with fewer backups than the file has misses a record of its run that is still there: it would
read it with one backup more. -/
theorem joined_misses :
    let s := ({} : Session).run (sampleActions 0)
    s.written.map Record.run = ["b", "b"] ∧
      s.logs[1]?.map (fun l => (l.run, (l.read s.journal.disk.folder).toOption.map List.length,
        ({ l with backups := 1 }.read s.journal.disk.folder).toOption.map List.length)) =
        some ("b", some 1, some 2) := by
  decide +kernel

/-- Two loggers that have the file open, for logs of one run. There is room for two records in the file, but not if the
second one has a message. -/
def twoLoggers : List Action :=
  [.start { sampleOptions "a" with limit := 170, name := "x" },
   .start { sampleOptions "a" with limit := 170, name := "y" },
   .emit 0 "" "" { type := "A", data := [] },
   .emit 0 "" "" { type := "B", data := [], message := "b" },
   .emit 1 "" "" { type := "C", data := [] }]

/-- What the second logger writes goes into the backup that the first one made, and is read before what came earlier. -/
theorem loggers_swap :
    let s := ({} : Session).run twoLoggers
    s.written.map (·.event.type) = ["A", "B", "C"] ∧ s.rotations = 1 ∧
      s.logs[0]?.bind (fun l => (l.read s.journal.disk.folder).toOption.map fun entries =>
        entries.map fun e => (e.get? "event_type").map Json.display) = some [some "A", some "C", some "B"] := by
  decide +kernel

end HintQuality.EventLog
