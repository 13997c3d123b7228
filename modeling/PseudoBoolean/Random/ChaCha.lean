/-!
ChaCha with eight rounds: the words of a keystream.

A block is sixteen words: four constants, eight words of key, the block's number in two words, and
two zeros. Four double rounds mix it, each over the columns and then the diagonals,

     0  1  2  3
     4  5  6  7        columns 0 4 8 12, …        diagonals 0 5 10 15, …
     8  9 10 11
    12 13 14 15

and the mixed block is added to the one it began as.
-/

namespace PseudoBoolean.ChaCha

/-- The key of a stream. -/
abbrev Key := Vector UInt32 8

/-- The words of one block. -/
abbrev Block := Vector UInt32 16

def rotateLeft (x n : UInt32) : UInt32 := (x <<< n) ||| (x >>> (32 - n))

/-- Mixes four words of a block. -/
def quarter (s : Block) (a b c d : Fin 16) : Block :=
  let s := s.set a (s[a] + s[b])
  let s := s.set d (rotateLeft (s[d] ^^^ s[a]) 16)
  let s := s.set c (s[c] + s[d])
  let s := s.set b (rotateLeft (s[b] ^^^ s[c]) 12)
  let s := s.set a (s[a] + s[b])
  let s := s.set d (rotateLeft (s[d] ^^^ s[a]) 8)
  let s := s.set c (s[c] + s[d])
  s.set b (rotateLeft (s[b] ^^^ s[c]) 7)

/-- The columns and diagonals of a block, in the order in which they are mixed. -/
def quarters : List (Fin 16 × Fin 16 × Fin 16 × Fin 16) :=
  [(0, 4, 8, 12), (1, 5, 9, 13), (2, 6, 10, 14), (3, 7, 11, 15),
    (0, 5, 10, 15), (1, 6, 11, 12), (2, 7, 8, 13), (3, 4, 9, 14)]

/-- Mixes the columns, then the diagonals. -/
def doubleRound (s : Block) : Block :=
  quarters.foldl (fun s (a, b, c, d) => quarter s a b c d) s

/-- The block with a given number before it is mixed. -/
def initial (key : Key) (number : Nat) : Block :=
  #v[0x61707865, 0x3320646E, 0x79622D32, 0x6B206574,
    key[0], key[1], key[2], key[3], key[4], key[5], key[6], key[7],
    UInt32.ofNat number, UInt32.ofNat (number / 0x100000000), 0, 0]

/-- The block with a given number. -/
def block (key : Key) (number : Nat) : Block :=
  let start := initial key number
  let mixed := (List.range 4).foldl (fun s _ => doubleRound s) start
  mixed.zipWith (· + ·) start

/-- The word at a place of the keystream. -/
def word (key : Key) (place : Nat) : UInt32 :=
  (block key (place / 16)).get ⟨place % 16, Nat.mod_lt _ (by decide)⟩

end PseudoBoolean.ChaCha
