/-!
# White space

The white space that text fields are trimmed of: the ASCII blanks, the four ASCII separators and every Unicode
space. `trim` removes it from both ends.
-/

namespace HintQuality.Text

/-- Code points above the ASCII range that are white space. -/
def wideBlanks : List Nat :=
  [0x85, 0xA0, 0x1680, 0x2000, 0x2001, 0x2002, 0x2003, 0x2004, 0x2005, 0x2006, 0x2007, 0x2008, 0x2009, 0x200A,
   0x2028, 0x2029, 0x202F, 0x205F, 0x3000]

/-- White space: tab to carriage return, the four ASCII separators, the space and the Unicode spaces. -/
def isBlank (c : Char) : Bool :=
  (9 ≤ c.toNat && c.toNat ≤ 13) || (28 ≤ c.toNat && c.toNat ≤ 32) || wideBlanks.contains c.toNat

/-- The characters without those at both ends that satisfy `p`. -/
def trimBy (p : Char → Bool) (cs : List Char) : List Char :=
  ((cs.dropWhile p).reverse.dropWhile p).reverse

/-- The text without the white space at both ends. -/
def trim (s : String) : String :=
  String.ofList (trimBy isBlank s.toList)

end HintQuality.Text
