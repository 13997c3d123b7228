import PseudoBoolean.Fault

/-!
Variables and literals.

A variable is a positive number, a literal a nonzero signed one: `3` stands for `x3` and `-3` for
`~x3`. A number is written into files as it is, so nothing is ever renumbered.

Literals are 32-bit signed words. A variable numbered `2^31` or more has no literal of its own
number: its word is read as a signed one, and `Var.pos` names another variable.
-/

namespace PseudoBoolean

/-- A Boolean variable, numbered from one. -/
structure Var where
  id : UInt32
  id_ne_zero : id ≠ 0
  deriving DecidableEq

/-- A value for every variable. -/
abbrev Valuation := Var → Bool

/-- A variable or its negation, as a signed nonzero number. -/
structure Lit where
  code : Int32
  code_ne_zero : code ≠ 0
  deriving DecidableEq

namespace Var

/-- The variable with a given number. -/
def ofId (id : UInt32) : Checked Var :=
  if h : id = 0 then .error .zeroVariable else .ok ⟨id, h⟩

/-- The variable with a given number, if there is one. -/
def ofNat? (n : Nat) : Option Var :=
  if h : UInt32.ofNat n = 0 then none else some ⟨UInt32.ofNat n, h⟩

/-- The variables `x1` to `x<count>`. -/
def range (count : UInt32) : List Var := (List.range' 1 count.toNat).filterMap ofNat?

/-- The literal whose word is the variable's number. -/
def pos (v : Var) : Lit where
  code := v.id.toInt32
  code_ne_zero h := v.id_ne_zero <| by
    have h' : v.id.toInt32.toUInt32 = 0 := by rw [h]; decide
    simpa using h'

/-- The text of a variable. -/
def text (v : Var) : String := "x" ++ toString v.id.toNat

end Var

namespace Lit

/-- The literal with a given number. -/
def ofCode (code : Int32) : Checked Lit :=
  if h : code = 0 then .error .zeroLiteral else .ok ⟨code, h⟩

/-- The variable of a literal: its number without the sign. -/
def var (l : Lit) : Var where
  id := UInt32.ofNat l.code.toInt.natAbs
  id_ne_zero h := l.code_ne_zero <| by
    have hlt : l.code.toInt.natAbs < 2 ^ 32 := by
      have h₁ := l.code.le_toInt
      have h₂ := l.code.toInt_lt
      omega
    have h₀ := congrArg UInt32.toNat h
    rw [UInt32.toNat_ofNat_of_lt' hlt] at h₀
    rw [← Int32.toInt_inj]
    simpa using h₀

def isPositive (l : Lit) : Bool := 0 < l.code

def isNegative (l : Lit) : Bool := l.code < 0

/-- Whether a literal is true. -/
def holds (l : Lit) (v : Valuation) : Bool := v l.var == l.isPositive

/-- The opposite literal. The least word has none. -/
def negate (l : Lit) : Checked Lit :=
  if l.code = Int32.minValue then .error (.overflow .negate)
  else .ok ⟨-l.code, fun h => l.code_ne_zero (by simpa using congrArg (- ·) h)⟩

/-- The text of a literal: a negative one carries a tilde. -/
def text (l : Lit) : String := (if l.isNegative then "~" else "") ++ l.var.text

end Lit

/-- The negative literal of a variable. -/
def Var.neg (v : Var) : Checked Lit := v.pos.negate

end PseudoBoolean
