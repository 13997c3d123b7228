import PseudoBoolean.Fault

/-!
The room of a list of instances.

A list lies in one piece of memory, of no more bytes than the greatest signed word. Where the number
of instances is known, room for them is taken at once (`Room.take`). Any other list grows: when its
room is short, it takes at least twice as much (`Room.grow`), so it may be refused although the
instances alone would fit.

    put in     1    1    1    1    1    7
    holds      1    2    3    4    5   12
    room       4    4    4    4    8   16
-/

namespace PseudoBoolean.Room

/-- The bytes of an instance: three words for its name and for each of its lists, and a word each
for the degree and the relation. -/
def instanceBytes : Nat := 14 * 8

/-- The most instances that a list has room for, which are 82351536043346212. -/
def limit : Nat := 0x7fffffffffffffff / instanceBytes

/-- Room for a number of instances, or the refusal of so much. -/
def take (count : Nat) : Checked Nat := if count ≤ limit then .ok count else .error .capacity

/-- The room of a list after it has grown to what is needed. -/
def grow (room needed : Nat) : Checked Nat :=
  if needed ≤ room then .ok room else take (max 4 (max (2 * room) needed))

/-- The room of a list of `count` instances after lots of some sizes were put in. -/
def fill : (lots : List Nat) → (count room : Nat) → Checked Nat
  | [], _, room => .ok room
  | lot :: lots, count, room => do fill lots (count + lot) (← grow room (count + lot))

/-- The room of a new list after lots of some sizes were put in. -/
def fillNew (lots : List Nat) : Checked Nat := fill lots 0 0

end PseudoBoolean.Room
