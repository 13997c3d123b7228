import Mathlib
import PseudoBoolean.Literal

/-!
Variables and literals in range.

A variable numbered below `2^31` has two literals, and each of them names it. The least word is a
literal without an opposite: it names the variable `2^31`, whose positive literal it is as well.
-/

namespace PseudoBoolean

/-- A variable whose number fits a literal. -/
def Var.InRange (v : Var) : Prop := v.id.toNat < 0x80000000

/-- A literal that has an opposite. -/
def Lit.InRange (l : Lit) : Prop := l.code ≠ Int32.minValue

instance (v : Var) : Decidable v.InRange := inferInstanceAs (Decidable (_ < _))

instance (l : Lit) : Decidable l.InRange := inferInstanceAs (Decidable (_ ≠ _))

theorem Var.ext_id {v w : Var} (h : v.id = w.id) : v = w := by
  cases v; cases w; simpa using h

/-- The variable numbered one. -/
def x₁ : Var := ⟨1, by decide⟩

/-- The variable numbered two. -/
def x₂ : Var := ⟨2, by decide⟩

/-- The variable numbered three. -/
def x₃ : Var := ⟨3, by decide⟩

/-- Variables up to a number that fits a literal are in range. -/
theorem Var.inRange_of_le {v : Var} {n : UInt32} (h : v.id ≤ n) (hn : n.toNat < 0x80000000) :
    v.InRange :=
  Nat.lt_of_le_of_lt (UInt32.le_iff_toNat_le.1 h) hn

/-! ### Variables by number -/

theorem Var.ofNat?_eq_some {n : Nat} {v : Var} (hn : n < 0x100000000) :
    Var.ofNat? n = some v ↔ v.id.toNat = n := by
  have hid : (UInt32.ofNat n).toNat = n := UInt32.toNat_ofNat_of_lt' hn
  simp only [Var.ofNat?]
  split
  · next h =>
    constructor
    · exact nofun
    · rintro rfl
      exact absurd (by simpa using h) v.id_ne_zero
  · rw [Option.some.injEq]
    constructor
    · rintro rfl
      exact hid
    · rintro rfl
      exact Var.ext_id (by simp)

theorem Var.exists_ofNat? {n : Nat} (h0 : 0 < n) (hn : n < 0x100000000) :
    ∃ v, Var.ofNat? n = some v := by
  simp only [Var.ofNat?]
  split
  · next h =>
    have hid : (UInt32.ofNat n).toNat = n := UInt32.toNat_ofNat_of_lt' hn
    rw [h] at hid
    simp at hid
    omega
  · exact ⟨_, rfl⟩

/-! ### The variable of a literal -/

theorem Lit.natAbs_code_lt (l : Lit) : l.code.toInt.natAbs < 0x100000000 := by
  have lo := l.code.le_toInt
  have hi := l.code.toInt_lt
  omega

/-- The number of a literal's variable is the literal's number without the sign. -/
theorem Lit.id_var (l : Lit) : l.var.id.toNat = l.code.toInt.natAbs :=
  UInt32.toNat_ofNat_of_lt' l.natAbs_code_lt

theorem Lit.InRange.neg_lt {l : Lit} (h : l.InRange) : -0x80000000 < l.code.toInt := by
  have lo := l.code.le_toInt
  have ne : l.code.toInt ≠ -0x80000000 := fun e => h (Int32.toInt_inj.1 (by rw [e]; rfl))
  omega

theorem Lit.inRange_var {l : Lit} : l.var.InRange ↔ l.InRange := by
  have hi := l.code.toInt_lt
  constructor
  · intro h hmin
    have hlt : l.code.toInt.natAbs < 0x80000000 := l.id_var ▸ h
    rw [hmin] at hlt
    revert hlt
    decide
  · intro h
    have lo := h.neg_lt
    rw [Var.InRange, Lit.id_var]
    omega

theorem Lit.isPositive_iff {l : Lit} : l.isPositive = true ↔ 0 < l.code.toInt := by
  rw [Lit.isPositive, decide_eq_true_iff, Int32.lt_iff_toInt_lt]
  simp

theorem Lit.isNegative_iff {l : Lit} : l.isNegative = true ↔ l.code.toInt < 0 := by
  rw [Lit.isNegative, decide_eq_true_iff, Int32.lt_iff_toInt_lt]
  simp

/-- Only the least word has no opposite, and it is negative. -/
theorem Lit.inRange_of_isPositive {l : Lit} (h : l.isPositive = true) : l.InRange := fun hmin => by
  rw [Lit.isPositive, hmin] at h
  revert h
  decide

/-- A literal is its variable and its sign. -/
theorem Lit.ext_var {l m : Lit} (hvar : l.var = m.var) (hsign : l.isNegative = m.isNegative) :
    l = m := by
  have hid : l.code.toInt.natAbs = m.code.toInt.natAbs := by
    rw [← Lit.id_var, ← Lit.id_var, hvar]
  have hneg : l.code.toInt < 0 ↔ m.code.toInt < 0 := by
    rw [← Lit.isNegative_iff, ← Lit.isNegative_iff, hsign]
  obtain ⟨code, hcode⟩ := l
  obtain ⟨code', hcode'⟩ := m
  rw [Lit.mk.injEq, ← Int32.toInt_inj]
  simp only at hid hneg
  omega

/-! ### The literals of a variable -/

theorem Var.code_pos_toInt {v : Var} (h : v.InRange) : v.pos.code.toInt = v.id.toNat := by
  have hlt : v.id.toNat < 2 ^ 31 := h
  show v.id.toInt32.toInt = _
  rw [← Int32.toInt_toBitVec, UInt32.toBitVec_toInt32, BitVec.toInt_eq_toNat_of_lt]
  · rfl
  · show 2 * v.id.toNat < 2 ^ 32
    omega

theorem Var.isPositive_pos {v : Var} (h : v.InRange) : v.pos.isPositive = true := by
  rw [Lit.isPositive_iff, Var.code_pos_toInt h]
  have ne : v.id.toNat ≠ 0 := fun e => v.id_ne_zero (UInt32.toNat_inj.1 e)
  omega

theorem Var.var_pos {v : Var} (h : v.InRange) : v.pos.var = v := by
  apply Var.ext_id
  rw [← UInt32.toNat_inj, Lit.id_var, Var.code_pos_toInt h]
  rfl

/-- The positive literal of a literal's variable names that variable, out of range as well. -/
theorem Lit.var_pos_var (l : Lit) : l.var.pos.var = l.var := by
  by_cases h : l.InRange
  · exact Var.var_pos (Lit.inRange_var.2 h)
  · have hmin : l.code = Int32.minValue := Decidable.not_not.1 h
    have hid : l.var.id = 0x80000000 := by
      rw [← UInt32.toNat_inj, Lit.id_var, hmin]
      decide
    have hcode : l.var.pos.code = Int32.minValue := by
      show l.var.id.toInt32 = _
      rw [hid]
      decide
    apply Var.ext_id
    rw [← UInt32.toNat_inj, Lit.id_var, Lit.id_var, hcode, hmin]

/-- A positive literal is the positive literal of its variable. -/
theorem Lit.pos_var {l : Lit} (h : l.isPositive = true) : l.var.pos = l := by
  have hr : l.var.InRange := Lit.inRange_var.2 (Lit.inRange_of_isPositive h)
  have hp := Lit.isPositive_iff.1 h
  obtain ⟨code, hne⟩ := l
  rw [Lit.mk.injEq, ← Int32.toInt_inj]
  have hcode := Var.code_pos_toInt hr
  rw [Lit.id_var] at hcode
  simp only at hcode hp
  omega

theorem Lit.holds_pos {v : Var} (h : v.InRange) (a : Valuation) : v.pos.holds a = a v := by
  rw [Lit.holds, Var.var_pos h, Var.isPositive_pos h]
  simp

theorem Lit.negate_eq_ok {l m : Lit} (h : l.negate = .ok m) :
    l.InRange ∧ m.code.toInt = -l.code.toInt := by
  simp only [Lit.negate] at h
  split at h
  · exact absurd h nofun
  · next hne =>
    cases h
    have lo := Lit.InRange.neg_lt (l := l) hne
    have hi := l.code.toInt_lt
    refine ⟨hne, ?_⟩
    rw [Int32.toInt_neg, Int.bmod_eq_of_le] <;> omega

/-- The negative literal of a variable in range. -/
def Var.negative (v : Var) : Lit := ⟨-v.pos.code, by simpa using v.pos.code_ne_zero⟩

theorem Var.neg_eq_negative {v : Var} (h : v.InRange) : v.neg = .ok v.negative :=
  if_neg (Lit.inRange_of_isPositive (Var.isPositive_pos h))

/-- Both literals of a variable in range exist, and the negative one is true where the variable is
false. -/
theorem Var.exists_neg {v : Var} (h : v.InRange) :
    ∃ l, v.neg = .ok l ∧ l.var = v ∧ l.isNegative = true := by
  have hneg := Var.neg_eq_negative h
  have hcode := (Lit.negate_eq_ok hneg).2
  have hpos := Lit.isPositive_iff.1 (Var.isPositive_pos h)
  refine ⟨_, hneg, Var.ext_id ?_, Lit.isNegative_iff.2 (by omega)⟩
  rw [← UInt32.toNat_inj, Lit.id_var, hcode, Var.code_pos_toInt h]
  omega

end PseudoBoolean
