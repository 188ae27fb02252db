/-!
# Message blocks

What the digests here share: a message is padded to whole blocks of sixteen words, the last of which ends in the
length of the message in bits, and a compression folds the blocks into a state of words. The digests differ in the
order of the bytes in a word. Main statement: `length_padded`, padding fills whole blocks.
-/

namespace HintQuality.Digest

/-- The order of the bytes in a word. -/
inductive Endian where
  /-- The first byte is the highest. -/
  | big
  /-- The first byte is the lowest. -/
  | little
  deriving DecidableEq, Repr

namespace Endian

/-- The four bytes of a word. -/
def bytes (e : Endian) (w : UInt32) : List UInt8 :=
  let high := [(w >>> 24).toUInt8, (w >>> 16).toUInt8, (w >>> 8).toUInt8, w.toUInt8]
  match e with
  | big => high
  | little => high.reverse

/-- The word of four bytes. -/
def word (e : Endian) (a b c d : UInt8) : UInt32 :=
  match e with
  | big => a.toUInt32 <<< 24 ||| b.toUInt32 <<< 16 ||| c.toUInt32 <<< 8 ||| d.toUInt32
  | little => d.toUInt32 <<< 24 ||| c.toUInt32 <<< 16 ||| b.toUInt32 <<< 8 ||| a.toUInt32

/-- A length in bits as eight bytes. -/
def lengthBytes (e : Endian) (bits : UInt64) : List UInt8 :=
  match e with
  | big => big.bytes (bits >>> 32).toUInt32 ++ big.bytes bits.toUInt32
  | little => little.bytes bits.toUInt32 ++ little.bytes (bits >>> 32).toUInt32

/-- The words of bytes, four by four. -/
def words (e : Endian) : List UInt8 → List UInt32
  | a :: b :: c :: d :: bytes => e.word a b c d :: e.words bytes
  | _ => []

end Endian

/-- A message with a one bit, zeros and its length behind it. -/
def padded (e : Endian) (message : List UInt8) : List UInt8 :=
  message ++ 0x80 :: List.replicate ((119 - message.length % 64) % 64) 0 ++
    e.lengthBytes (UInt64.ofNat (8 * message.length))

theorem length_bytes (e : Endian) (w : UInt32) : (e.bytes w).length = 4 := by
  cases e <;> rfl

theorem length_lengthBytes (e : Endian) (bits : UInt64) : (e.lengthBytes bits).length = 8 := by
  cases e <;> simp [Endian.lengthBytes, length_bytes]

/-- Padding fills whole blocks. -/
theorem length_padded (e : Endian) (message : List UInt8) : (padded e message).length % 64 = 0 := by
  simp only [padded, List.length_append, List.length_cons, List.length_replicate, length_lengthBytes]
  omega

/-- Folds blocks of sixteen words into a state; `fuel` bounds the number of blocks. -/
def foldBlocks {σ : Type} (compress : σ → Array UInt32 → σ) : Nat → σ → List UInt32 → σ
  | 0, s, _ => s
  | fuel + 1, s, words =>
    if words.length < 16 then s
    else foldBlocks compress fuel (compress s (words.take 16).toArray) (words.drop 16)

/-- The state after a message. -/
def absorb {σ : Type} (e : Endian) (compress : σ → Array UInt32 → σ) (start : σ) (message : List UInt8) : σ :=
  let words := e.words (padded e message)
  foldBlocks compress words.length start words

/-- A word turned to the left. -/
def rotateLeft (w : UInt32) (n : UInt32) : UInt32 :=
  w <<< n ||| w >>> (32 - n)

/-- A word turned to the right. -/
def rotateRight (w : UInt32) (n : UInt32) : UInt32 :=
  w >>> n ||| w <<< (32 - n)

/-- A word of an array; zero beyond its end. -/
def at32 (words : Array UInt32) (i : Nat) : UInt32 :=
  words.getD i 0

end HintQuality.Digest
