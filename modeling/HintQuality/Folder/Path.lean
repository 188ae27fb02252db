import HintQuality.Text.Lines
/-!
# Paths

A path is the names on the way to a file. Empty names and `.` say nothing and are dropped when a path is read; `..`
stays, since what it means depends on what is there. The extension of a name begins at its last dot, unless that is
its first or its last character.
-/

namespace HintQuality

/-- The way to a file or folder. -/
structure Path where
  /-- The slashes in front of an absolute path. -/
  anchor : String := ""
  /-- The names. -/
  names : List String
  deriving DecidableEq, Repr

namespace Path

/-- What stands in front of an absolute path: two slashes are kept, any other number is one. -/
def anchorOf (s : List Char) : String :=
  match (s.takeWhile (· = '/')).length with
  | 0 => ""
  | 2 => "//"
  | _ => "/"

/-- Reads a path. -/
def ofString (s : String) : Path :=
  ⟨anchorOf s.toList, (((Text.pieces '/' s.toList).map String.ofList).filter fun n => n ≠ "" && n ≠ ".")⟩

/-- Writes a path; the empty one is a dot. -/
def text (p : Path) : String :=
  let s := p.anchor ++ "/".intercalate p.names
  if s.isEmpty then "." else s

/-- The names to follow, those of an absolute path from its slash. -/
def way (p : Path) : List String :=
  if p.anchor.isEmpty then p.names else p.anchor :: p.names

/-- Names to follow when steps back are left out with the names before them. -/
def settle (names : List String) : List String :=
  names.foldl (fun way n => if n = ".." && way.any (· ≠ "..") then way.dropLast else way ++ [n]) []

/-- The way of a path without steps back. -/
def settled (p : Path) : List String :=
  settle p.way

/-- The path of something in a folder. -/
def child (p : Path) (name : String) : Path :=
  { p with names := p.names ++ [name] }

/-- The path of the folder that something is in. -/
def parent (p : Path) : Path :=
  { p with names := p.names.dropLast }

/-- The last name. -/
def name? (p : Path) : Option String :=
  p.names.getLast?

/-- The length of the extension of a name, with its dot; zero if it has none. -/
def extensionLength (name : List Char) : Nat :=
  let tail := name.reverse.takeWhile (· ≠ '.')
  if tail.isEmpty || name.length ≤ tail.length + 1 then 0 else tail.length + 1

/-- A name with another extension in place of its own, if it has one. -/
def replaceExtension (name extension : String) : String :=
  String.ofList (name.toList.take (name.length - extensionLength name.toList)) ++ extension

/-- The path with another extension; none if it has no last name. -/
def withExtension? (p : Path) (extension : String) : Option Path :=
  p.name?.map fun n => { p with names := p.names.dropLast ++ [replaceExtension n extension] }

/-- A name of a file with the given extension. -/
def hasExtension (name extension : String) : Bool :=
  extension.toList.isSuffixOf name.toList

end Path

end HintQuality
