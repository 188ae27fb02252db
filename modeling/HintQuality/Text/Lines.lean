/-!
# Lines

Text as a list of lines. A line ends at any of the line breaks of Unicode, with carriage return and line feed
together as one; the empty line after a last break does not count.
-/

namespace HintQuality.Text

/-- A character that ends a line. -/
def isBreak (c : Char) : Bool :=
  [0x0A, 0x0B, 0x0C, 0x0D, 0x1C, 0x1D, 0x1E, 0x85, 0x2028, 0x2029].contains c.toNat

/-- Splits off the lines; `acc` holds the characters of the current line in reverse. -/
def linesGo (acc : List Char) : List Char → List (List Char)
  | [] => if acc.isEmpty then [] else [acc.reverse]
  | '\r' :: '\n' :: cs => acc.reverse :: linesGo [] cs
  | c :: cs => if isBreak c then acc.reverse :: linesGo [] cs else linesGo (c :: acc) cs

/-- The lines of a text, without their breaks. -/
def lines (s : String) : List String :=
  (linesGo [] s.toList).map String.ofList

/-- The pieces of a text between the places where a character stands. -/
def pieces (sep : Char) : List Char → List (List Char)
  | [] => [[]]
  | c :: cs =>
    if c = sep then [] :: pieces sep cs
    else
      match pieces sep cs with
      | [] => [[c]]
      | p :: ps => (c :: p) :: ps

/-- The text with every carriage return, alone or before a line feed, read as a line feed. -/
def unifyBreaks : List Char → List Char
  | [] => []
  | '\r' :: '\n' :: cs => '\n' :: unifyBreaks cs
  | '\r' :: cs => '\n' :: unifyBreaks cs
  | c :: cs => c :: unifyBreaks cs

end HintQuality.Text
