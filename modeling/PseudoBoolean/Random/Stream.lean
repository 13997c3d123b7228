import PseudoBoolean.Fault
import PseudoBoolean.Random.ChaCha

/-!
Random draws from a seeded keystream.

A stream is a key and a place in its keystream, and every draw takes the words that follow. A value
in a range is drawn by scaling a word to the range and correcting it once by a second word. A list
is shuffled by inserting its elements one after the other at drawn places, several places from one
draw.
-/

namespace PseudoBoolean

/-- A place in the keystream of a key. -/
structure Stream where
  key : ChaCha.Key
  place : Nat

/-- A computation that draws from a stream and may fault. -/
abbrev Draw := StateT Stream Checked

namespace Stream

/-! ### Seeding -/

/-- One step of the linear congruential generator that spreads a seed. -/
def spread (s : UInt64) : UInt64 := s * 0x5851F42D4C957F2D + 0xA17654E46FBE17F3

/-- The key word of a generator state: its high bits folded and rotated. -/
def keyWord (s : UInt64) : UInt32 :=
  let folded := (((s >>> 18) ^^^ s) >>> 27).toUInt32
  let amount := (s >>> 59).toUInt32
  (folded >>> amount) ||| (folded <<< (32 - amount))

/-- The state of the generator after some steps from a seed. -/
def spreadTimes (seed : UInt64) (steps : Nat) : UInt64 :=
  (List.range steps).foldl (fun s _ => spread s) seed

/-- The stream of a seed: eight steps give the key. -/
def ofSeed (seed : UInt64) : Stream where
  key := Vector.ofFn fun i => keyWord (spreadTimes seed (i.val + 1))
  place := 0

end Stream

namespace Draw

/-- The next word of the stream. -/
def word : Draw Nat := fun s =>
  .ok ((ChaCha.word s.key s.place).toNat, { s with place := s.place + 1 })

/-- The next two words as one, the low half first. -/
def doubleWord : Draw Nat := do
  let low ← word
  let high ← word
  return low + high * 0x100000000

/-- A width of draws. -/
inductive Width where
  | bits32
  | bits64

/-- The number of words of a width. -/
def Width.size : Width → Nat
  | bits32 => 0x100000000
  | bits64 => 0x10000000000000000

/-- A uniform number below the size of a width. -/
def Width.draw : Width → Draw Nat
  | bits32 => word
  | bits64 => doubleWord

/-- A number below `size`: the high part of a scaled word. Where the low part leaves room for a
carry, a second word decides it. -/
def below (w : Width) (size : Nat) : Draw Nat := do
  let raw ← w.draw
  let scaled := raw * size
  let (high, low) := (scaled / w.size, scaled % w.size)
  if low > w.size - size then
    let carry := (← w.draw) * size / w.size
    return if low + carry ≥ w.size then high + 1 else high
  else return high

/-- An integer from `lo` to `hi`, both included. A range as large as the width takes a word as it
is, read as a signed one. -/
def range (w : Width) (lo hi : Int) : Draw Int := do
  if hi < lo then throw .emptyRange
  let size := (hi - lo + 1).toNat
  if size = w.size then return Int.bmod (← w.draw) (w.size)
  else return lo + (← below w size)

/-- A fair coin. -/
def coin : Draw Bool := do return (← doubleWord) < 0x8000000000000000

/-! ### Shuffling -/

/-- The largest product `m · (m + 1) ⋯` of 32 bits that continues `product` with `factor`, and the
factor after it. -/
def grow (product factor : Nat) : Nat × Nat :=
  if 0 < product ∧ 1 < factor ∧ product * factor < 0x100000000 then
    grow (product * factor) (factor + 1)
  else (product, factor)
termination_by 0x100000000 - product
decreasing_by
  next h =>
  have : product * 1 < product * factor := (Nat.mul_lt_mul_left h.1).2 h.2.1
  omega

/-- Places that are still to be taken from one drawn number. -/
structure Places where
  chunk : Nat
  remaining : Nat

/-- The place to swap with the last of the first `m` elements. -/
def place (m : Nat) (p : Places) : Draw (Nat × Places) := do
  let p ←
    if p.remaining = 0 then
      let (product, next) := grow m (m + 1)
      let chunk ← range .bits32 0 (product - 1)
      pure { chunk := chunk.toNat, remaining := next - m : Places }
    else pure p
  let remaining := p.remaining - 1
  if remaining = 0 then return (p.chunk, ⟨p.chunk, remaining⟩)
  else return (p.chunk % m, ⟨p.chunk / m, remaining⟩)

/-- Swaps the elements from the `i`-th on, `count` of them, each with one drawn at or before it. -/
def shuffleFrom {α : Type} : (count i : Nat) → Places → Array α → Draw (Array α)
  | 0, _, _, a => pure a
  | count + 1, i, p, a => do
    let (j, p) ← place (i + 1) p
    shuffleFrom count (i + 1) p (a.swapIfInBounds i j)

/-- A random permutation of a list. -/
def shuffle {α : Type} (xs : List α) : Draw (List α) := do
  if xs.length ≤ 1 then return xs
  else return (← shuffleFrom xs.length 0 ⟨0, 1⟩ xs.toArray).toList

end Draw

end PseudoBoolean
