/-!
# Weights

The arithmetic that scores need. A run computes with doubles, from left to right, and an array of numbers in pairs of
running sums, so that errors grow more slowly; over the rationals the same definitions are exact.
-/

namespace HintQuality

/-- Numbers to weigh outcomes with. -/
class Weight (ω : Type) extends Add ω, Mul ω, Div ω where
  /-- A count as a weight. -/
  ofNat : Nat → ω
  /-- Whether a weight is zero. -/
  isZero : ω → Bool

instance : Weight Float where
  ofNat := Float.ofNat
  isZero x := x == 0.0

instance : Weight Rat where
  ofNat n := (n : Rat)
  isZero x := x = 0

namespace Weight

variable {ω : Type} [Weight ω]

/-- The sum of a list, from left to right. -/
def sum (xs : List ω) : ω :=
  xs.foldl (· + ·) (ofNat 0)

/-- A part of a total; nothing if the total is zero. -/
def share (part total : ω) : ω :=
  if isZero total then ofNat 0 else part / total

/-- The mean of a list; zero for the empty list. -/
def mean (xs : List ω) : ω :=
  if xs.isEmpty then ofNat 0 else sum xs / ofNat xs.length

/-! ### Arrays -/

/-- Eight running sums. -/
structure Lanes (ω : Type) where
  (a b c d e f g h : ω)

/-- Adds a number to each running sum. -/
def Lanes.add (l k : Lanes ω) : Lanes ω :=
  ⟨l.a + k.a, l.b + k.b, l.c + k.c, l.d + k.d, l.e + k.e, l.f + k.f, l.g + k.g, l.h + k.h⟩

/-- The total of the running sums, added in pairs. -/
def Lanes.total (l : Lanes ω) : ω :=
  ((l.a + l.b) + (l.c + l.d)) + ((l.e + l.f) + (l.g + l.h))

/-- Adds numbers to the running sums as long as there are eight, and what is left over to their total. -/
def addLanes (l : Lanes ω) : List ω → ω
  | a :: b :: c :: d :: e :: f :: g :: h :: xs => addLanes (l.add ⟨a, b, c, d, e, f, g, h⟩) xs
  | xs => xs.foldl (· + ·) l.total

/-- The sum of a short array: from left to right if there are fewer than eight numbers, else in eight lanes. -/
def blockSum : List ω → ω
  | a :: b :: c :: d :: e :: f :: g :: h :: xs => addLanes ⟨a, b, c, d, e, f, g, h⟩ xs
  | xs => sum xs

/-- The length of the longest array that is summed as one. -/
def blockLength : Nat := 128

/-- The sum of an array of which halves, in whole lanes, are added as long as it is too long for one block; it is
halved at most `fuel` times. -/
def halvedSum : Nat → List ω → ω
  | 0, xs => blockSum xs
  | fuel + 1, xs =>
    if xs.length ≤ blockLength then blockSum xs
    else
      let half := xs.length / 2 / 8 * 8
      halvedSum fuel (xs.take half) + halvedSum fuel (xs.drop half)

/-- The sum of an array. -/
def arraySum (xs : List ω) : ω :=
  halvedSum xs.length xs

/-- The mean of an array; zero for the empty one. -/
def arrayMean (xs : List ω) : ω :=
  if xs.isEmpty then ofNat 0 else arraySum xs / ofNat xs.length

end Weight

end HintQuality
