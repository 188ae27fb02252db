import HintQuality.Digest.Md5
import HintQuality.Digest.Sha1
import HintQuality.Digest.Sha256
import HintQuality.Failure
/-!
# Digests of texts

The digest of a text is that of its UTF-8 bytes, written in hexadecimal. The algorithm goes by its name, in any case.
-/

namespace HintQuality.Digest

/-- An algorithm. -/
inductive Algorithm where
  | sha256
  | sha1
  | md5
  deriving DecidableEq, Repr

namespace Algorithm

/-- The algorithm of a name, in any case. -/
def ofName? (name : String) : Option Algorithm :=
  match String.ofList (name.toList.map Char.toLower) with
  | "sha256" => some sha256
  | "sha1" => some sha1
  | "md5" => some md5
  | _ => none

/-- The digest of bytes. -/
def run : Algorithm → List UInt8 → List UInt8
  | sha256 => Sha256.digest
  | sha1 => Sha1.digest
  | md5 => Md5.digest

end Algorithm

/-- Bytes in hexadecimal. -/
def hexText (bytes : List UInt8) : String :=
  String.ofList (bytes.flatMap fun b => Text.hex 2 b.toNat)

/-- The digest of a text. -/
def ofText (text : String) (algorithm : Algorithm := .sha256) : String :=
  hexText (algorithm.run text.toUTF8.toList)

/-- The digest of a value that is text or null, which counts as empty, by the algorithm of a name. -/
def ofJson (v : Json) (name : String) : Except Failure String :=
  let hash (text : String) : Except Failure String :=
    match Algorithm.ofName? name with
    | some a => .ok (ofText text a)
    | none => .error (.unknownDigest name)
  match v with
  | .null => hash ""
  | .str s => hash s
  | _ => .error .wrongType

end HintQuality.Digest
