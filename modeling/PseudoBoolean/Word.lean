import PseudoBoolean.Fault

/-!
Words: 64-bit signed and 32-bit unsigned arithmetic that refuses to wrap.

Every operation computes the exact integer and keeps it if it fits. So a checked operation that
answers agrees with the integers (`checked_eq_ok_iff`), and one that faults had no answer in range.
-/

namespace PseudoBoolean.Word

/-- The integers that a 64-bit signed word holds. -/
def Fits (value : Int) : Prop := -0x8000000000000000 ≤ value ∧ value < 0x8000000000000000

/-- Small integers, which need no long arithmetic, are decided first. -/
@[inline] instance (value : Int) : Decidable (Fits value) :=
  if h : -0x40000000 ≤ value ∧ value ≤ 0x40000000 then
    isTrue ⟨Int.le_trans (by decide) h.1, Int.lt_of_le_of_lt h.2 (by decide)⟩
  else inferInstanceAs (Decidable (_ ∧ _))

/-- The word that holds `value`, or the overflow of `op`. -/
@[inline] def checked (op : Arithmetic) (value : Int) : Checked Int64 :=
  if Fits value then .ok (Int64.ofInt value) else .error (.overflow op)

@[inline] def add (a b : Int64) : Checked Int64 := checked .add (a.toInt + b.toInt)

@[inline] def sub (a b : Int64) : Checked Int64 := checked .subtract (a.toInt - b.toInt)

def neg (a : Int64) : Checked Int64 := checked .negate (-a.toInt)

@[inline] def mul (a b : Int64) : Checked Int64 := checked .multiply (a.toInt * b.toInt)

/-- Sum from left to right: a partial sum may overflow although the total fits. -/
def sum (values : List Int64) : Checked Int64 := values.foldlM add 0

/-- The unsigned 32-bit word that holds `value`, or the overflow of `op`. -/
def checkedCount (op : Arithmetic) (value : Nat) : Checked UInt32 :=
  if value < 0x100000000 then .ok (UInt32.ofNat value) else .error (.overflow op)

/-- Every word fits. -/
theorem fits_toInt (a : Int64) : Fits a.toInt := ⟨a.le_toInt, a.toInt_lt⟩

theorem toInt_ofInt_of_fits {value : Int} (h : Fits value) : (Int64.ofInt value).toInt = value := by
  rw [Int64.toInt_ofInt, Int.bmod_eq_of_le] <;> simp [Fits, Int64.size] at * <;> omega

/-- A checked operation answers exactly when the integer fits, and then with that integer. -/
theorem checked_eq_ok_iff {op : Arithmetic} {value : Int} {a : Int64} :
    checked op value = .ok a ↔ a.toInt = value := by
  unfold checked
  split
  · next h => rw [Except.ok.injEq, ← Int64.toInt_inj, toInt_ofInt_of_fits h, eq_comm]
  · next h => exact ⟨nofun, fun e => absurd (e ▸ fits_toInt a) h⟩

/-- A checked operation faults exactly when the integer does not fit. -/
theorem checked_eq_error_iff {op : Arithmetic} {value : Int} {f : Fault} :
    checked op value = .error f ↔ ¬ Fits value ∧ f = .overflow op := by
  unfold checked
  split <;> simp_all [eq_comm]

theorem add_eq_ok_iff {a b c : Int64} : add a b = .ok c ↔ c.toInt = a.toInt + b.toInt :=
  checked_eq_ok_iff

theorem sub_eq_ok_iff {a b c : Int64} : sub a b = .ok c ↔ c.toInt = a.toInt - b.toInt :=
  checked_eq_ok_iff

theorem neg_eq_ok_iff {a c : Int64} : neg a = .ok c ↔ c.toInt = -a.toInt :=
  checked_eq_ok_iff

theorem mul_eq_ok_iff {a b c : Int64} : mul a b = .ok c ↔ c.toInt = a.toInt * b.toInt :=
  checked_eq_ok_iff

end PseudoBoolean.Word
