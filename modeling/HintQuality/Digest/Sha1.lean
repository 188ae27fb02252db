import HintQuality.Digest.Block
/-!
# SHA-1

The digest of 160 bits: eighty rounds on five words a block, with the message words extended to as many.
-/

namespace HintQuality.Digest.Sha1

open Digest

/-- The state of five words. -/
structure State where
  a : UInt32
  b : UInt32
  c : UInt32
  d : UInt32
  e : UInt32

/-- The state before the first block. -/
def start : State :=
  ⟨0x67452301, 0xefcdab89, 0x98badcfe, 0x10325476, 0xc3d2e1f0⟩

/-- The next message word from those before it. -/
def extend (w : Array UInt32) : Array UInt32 :=
  let n := w.size
  w.push (rotateLeft (at32 w (n - 3) ^^^ at32 w (n - 8) ^^^ at32 w (n - 14) ^^^ at32 w (n - 16)) 1)

/-- The message words of all rounds. -/
def schedule (block : Array UInt32) : Array UInt32 :=
  (List.range 64).foldl (fun w _ => extend w) block

/-- The bits that a round mixes in, and the word that it adds. -/
def mix (s : State) (i : Nat) : UInt32 × UInt32 :=
  if i < 20 then ((s.b &&& s.c) ||| (~~~s.b &&& s.d), 0x5a827999)
  else if i < 40 then (s.b ^^^ s.c ^^^ s.d, 0x6ed9eba1)
  else if i < 60 then ((s.b &&& s.c) ||| (s.b &&& s.d) ||| (s.c &&& s.d), 0x8f1bbcdc)
  else (s.b ^^^ s.c ^^^ s.d, 0xca62c1d6)

/-- One round. -/
def round (w : Array UInt32) (s : State) (i : Nat) : State :=
  let (f, k) := mix s i
  ⟨rotateLeft s.a 5 + f + s.e + k + at32 w i, s.a, rotateLeft s.b 30, s.c, s.d⟩

/-- Folds a block into a state. -/
def compress (s : State) (block : Array UInt32) : State :=
  let t := (List.range 80).foldl (round (schedule block)) s
  ⟨s.a + t.a, s.b + t.b, s.c + t.c, s.d + t.d, s.e + t.e⟩

/-- The digest of a message. -/
def digest (message : List UInt8) : List UInt8 :=
  let s := absorb .big compress start message
  [s.a, s.b, s.c, s.d, s.e].flatMap Endian.big.bytes

end HintQuality.Digest.Sha1
