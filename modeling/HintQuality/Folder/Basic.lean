import HintQuality.Failure
import HintQuality.Folder.Path
import HintQuality.Sorting
/-!
# Folders

What a run finds on disk: texts by the names on the way to them, and folders, which may be empty. A folder is there if
it was made or if something is in it. Names come in order. A way that leads out of the folder begins with steps up, or
with the slash of an absolute path. Main statement: `content?_put`, a text that was put somewhere is found there.
-/

namespace HintQuality

/-- A folder with everything in it. -/
structure Folder where
  /-- The texts, by the names on the way to them. -/
  texts : List (List String × String) := []
  /-- Folders that are there whether or not they hold anything. -/
  folders : List (List String) := []
  deriving Repr

namespace Folder

/-- The ways to everything that is there. -/
def ways (f : Folder) : List (List String) :=
  f.folders ++ f.texts.map Prod.fst

/-- The text at the end of a way. -/
def content? (f : Folder) (way : List String) : Option String :=
  f.texts.lookup way

/-- Whether a way leads to a folder. -/
def hasFolder (f : Folder) (way : List String) : Bool :=
  way.isEmpty || f.folders.any (way.isPrefixOf ·) ||
    f.texts.any fun t => way.isPrefixOf t.1 && way.length < t.1.length

/-- The names in the folder at the end of a way, in order. -/
def names (f : Folder) (way : List String) : List String :=
  sortedTexts (f.ways.filterMap fun w => if way.isPrefixOf w then w[way.length]? else none)

/-- Follows names from a folder that is there; a step up leads back, or out if there is no way back. -/
def follow (f : Folder) : List String → List String → Option (List String)
  | way, [] => some way
  | way, name :: rest =>
    if !f.hasFolder way then none
    else if name = ".." && way.any (· ≠ "..") then f.follow way.dropLast rest
    else f.follow (way ++ [name]) rest

/-- The way that a path means. -/
def way? (f : Folder) (p : Path) : Option (List String) :=
  f.follow [] p.way

/-- Whether a path leads to a folder. -/
def isFolder (f : Folder) (p : Path) : Bool :=
  ((f.way? p).map f.hasFolder).getD false

/-- The names in the folder that a path leads to, in order. -/
def list (f : Folder) (p : Path) : List String :=
  ((f.way? p).map f.names).getD []

/-- Whether some step of a path goes through a text. -/
def crossesText (f : Folder) (p : Path) : Bool :=
  (List.range p.way.length).any fun n =>
    n ≠ 0 && ((f.follow [] (p.way.take n)).bind f.content?).isSome

/-- The text that a path leads to. -/
def read (f : Folder) (p : Path) : Except Failure String :=
  if f.isFolder p then .error (.isFolder p.text)
  else if f.crossesText p then .error (.notFolder p.text)
  else
    match (f.way? p).bind f.content? with
    | some text => .ok text
    | none => .error (.noSuchFile p.text)

/-- Puts a text at the end of a way: in place of the one there, or behind all others. -/
def put (f : Folder) (way : List String) (text : String) : Folder :=
  { f with texts :=
      if way ∈ f.texts.map Prod.fst then f.texts.map fun t => if t.1 = way then (way, text) else t
      else f.texts ++ [(way, text)] }

/-- Takes away the text at the end of a way. -/
def remove (f : Folder) (way : List String) : Folder :=
  { f with texts := f.texts.filter (·.1 ≠ way) }

/-- The way where a path would put a text. -/
def place (f : Folder) (p : Path) : Except Failure (List String) :=
  if f.isFolder p then .error (.isFolder p.text)
  else if f.crossesText p then .error (.notFolder p.text)
  else if !f.isFolder p.parent then .error (.noSuchFile p.text)
  else
    match f.way? p with
    | some way => .ok way
    | none => .error (.noSuchFile p.text)

/-- Writes a text where a path leads, in a folder that is there. -/
def write (f : Folder) (p : Path) (text : String) : Except Failure Folder :=
  (f.place p).map fun way => f.put way text

/-- Makes a folder and those on the way to it. -/
def make (f : Folder) (p : Path) : Except Failure Folder :=
  if f.isFolder p then .ok f
  else if f.crossesText p then .error (.notFolder p.text)
  else if ((f.way? p).bind f.content?).isSome then .error (.fileExists p.text)
  else .ok { f with folders := f.folders ++
      (List.range p.way.length).map fun n => Path.settle (p.way.take (n + 1)) }

/-- A folder from texts by their paths; a path that ends in a slash is an empty folder. -/
def ofTexts (texts : List (String × String)) : Folder :=
  texts.foldl (fun f t =>
    let way := (Path.ofString t.1).names
    if t.1.endsWith "/" then { f with folders := f.folders ++ [way] } else f.put way t.2) {}

theorem lookup_replace {way : List String} (text : String) {l : List (List String × String)}
    (h : way ∈ l.map Prod.fst) :
    (l.map fun t => if t.1 = way then (way, text) else t).lookup way = some text := by
  induction l with
  | nil => simp at h
  | cons t l ih =>
    obtain ⟨w, s⟩ := t
    by_cases hw : w = way
    · subst hw
      simp
    · have h' : way ∈ l.map Prod.fst := by
        rcases List.mem_cons.1 h with h | h
        · exact absurd h.symm hw
        · exact h
      have hne : (way == w) = false := beq_eq_false_iff_ne.2 (Ne.symm hw)
      rw [List.map_cons, if_neg hw, List.lookup_cons, hne]
      exact ih h'

theorem lookup_append {way : List String} (text : String) {l : List (List String × String)}
    (h : way ∉ l.map Prod.fst) : (l ++ [(way, text)]).lookup way = some text := by
  induction l with
  | nil => simp
  | cons t l ih =>
    obtain ⟨w, s⟩ := t
    have hne : (way == w) = false := beq_eq_false_iff_ne.2 fun e => h (by simp [e])
    have h' : way ∉ l.map Prod.fst := fun m => h (by rw [List.map_cons]; exact List.mem_cons_of_mem _ m)
    rw [List.cons_append, List.lookup_cons, hne]
    exact ih h'

/-- A text that was put somewhere is found there. -/
theorem content?_put (f : Folder) (way : List String) (text : String) :
    (f.put way text).content? way = some text := by
  simp only [put, content?]
  split
  · exact lookup_replace text ‹_›
  · exact lookup_append text ‹_›

end Folder

end HintQuality
