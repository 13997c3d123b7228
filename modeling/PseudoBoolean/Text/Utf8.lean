/-!
UTF-8 text out of arbitrary bytes.

The decoder is a left fold that carries what the current character still needs. A byte that does not
fit ends the character begun before it: U+FFFD stands for that part, and the byte is read again as a
first byte.

        first byte                    more bytes in lo..hi
    idle ────────▶ open needed lo hi ─────────────────────▶ … ──▶ idle, one character
      │ stray byte: U+FFFD      │ other byte: U+FFFD, then as from idle
-/

namespace PseudoBoolean.Utf8

/-- What a decoder expects next. -/
inductive Pending where
  /-- A first byte. -/
  | idle
  /-- Continuation bytes: how many, the range of the next one, and the bits read so far. -/
  | more (needed lo hi bits : Nat)

/-- The decoder between two bytes: the characters so far, the latest first. -/
structure Decoder where
  decoded : List Char
  pending : Pending

/-- U+FFFD, which stands for bytes that are no character. -/
def replacement : Char := '\uFFFD'

/-- Reads a byte that begins a character. -/
def Decoder.first (decoded : List Char) (b : Nat) : Decoder :=
  if b < 0x80 then ⟨Char.ofNat b :: decoded, .idle⟩
  else if 0xC2 ≤ b ∧ b ≤ 0xDF then ⟨decoded, .more 1 0x80 0xBF (b - 0xC0)⟩
  else if b = 0xE0 then ⟨decoded, .more 2 0xA0 0xBF 0⟩
  else if b = 0xED then ⟨decoded, .more 2 0x80 0x9F 0xD⟩
  else if 0xE1 ≤ b ∧ b ≤ 0xEF then ⟨decoded, .more 2 0x80 0xBF (b - 0xE0)⟩
  else if b = 0xF0 then ⟨decoded, .more 3 0x90 0xBF 0⟩
  else if 0xF1 ≤ b ∧ b ≤ 0xF3 then ⟨decoded, .more 3 0x80 0xBF (b - 0xF0)⟩
  else if b = 0xF4 then ⟨decoded, .more 3 0x80 0x8F 4⟩
  else ⟨replacement :: decoded, .idle⟩

/-- Reads one byte. -/
def Decoder.step (d : Decoder) (byte : UInt8) : Decoder :=
  let b := byte.toNat
  match d.pending with
  | .idle => first d.decoded b
  | .more needed lo hi bits =>
    if lo ≤ b ∧ b ≤ hi then
      let bits := bits * 64 + (b - 0x80)
      if needed ≤ 1 then ⟨Char.ofNat bits :: d.decoded, .idle⟩
      else ⟨d.decoded, .more (needed - 1) 0x80 0xBF bits⟩
    else first (replacement :: d.decoded) b

/-- The characters of a whole run, a character cut short at the end replaced. -/
def Decoder.finish (d : Decoder) : List Char :=
  match d.pending with
  | .idle => d.decoded.reverse
  | .more .. => (replacement :: d.decoded).reverse

/-- The text of bytes, with U+FFFD for every part that is not valid. -/
def decodeLossy (bytes : ByteArray) : String :=
  String.ofList (bytes.data.toList.foldl Decoder.step ⟨[], .idle⟩).finish

end PseudoBoolean.Utf8
