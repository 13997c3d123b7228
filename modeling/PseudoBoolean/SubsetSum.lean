import PseudoBoolean.Word
import PseudoBoolean.Enumeration

/-!
Subset sums: the values that a weighted sum of distinct variables can take.

With one variable to a coefficient the assignments are the subsets of the coefficients, so the
optimum of `Σ cᵢ xᵢ` subject to a bound on that very sum needs no variables at all.
-/

namespace PseudoBoolean.SubsetSum

/-- Adds the coefficients that a mask selects, bit 0 the first of them, to a sum. -/
def addSelected : List Int64 → Nat → Int64 → Checked Int64
  | [], _, sum => .ok sum
  | c :: rest, mask, sum =>
    if mask.testBit 0 then
      match Word.add sum c with
      | .ok sum => addSelected rest (mask / 2) sum
      | .error fault => .error fault
    else addSelected rest (mask / 2) sum

/-- The sum of the coefficients at the places that a mask selects. -/
def value (coeffs : List Int64) (mask : Nat) : Checked Int64 := addSelected coeffs mask 0

/-- The coefficients at the places that a mask selects. -/
def selected (coeffs : List Int64) (mask : Nat) : List Int64 :=
  (coeffs.zipIdx.filter fun (_, i) => mask.testBit i).map (·.1)

theorem selected_cons (c : Int64) (rest : List Int64) (mask : Nat) :
    selected (c :: rest) mask =
      if mask.testBit 0 then c :: selected rest (mask / 2) else selected rest (mask / 2) := by
  have shift : selected rest (mask / 2) =
      ((rest.zipIdx 1).filter fun (_, i) => mask.testBit i).map (·.1) := by
    rw [selected, List.zipIdx_succ]
    simp [List.filter_map, Function.comp_def, Nat.testBit_succ]
  rw [shift, selected, List.zipIdx_cons]
  cases h : mask.testBit 0 <;> simp [h]

theorem addSelected_eq_foldlM (coeffs : List Int64) (mask : Nat) (sum : Int64) :
    addSelected coeffs mask sum = (selected coeffs mask).foldlM Word.add sum := by
  induction coeffs generalizing mask sum with
  | nil => rfl
  | cons c rest ih =>
    rw [addSelected, selected_cons]
    split
    · rw [List.foldlM_cons]
      cases Word.add sum c with
      | ok sum => exact ih (mask / 2) sum
      | error fault => rfl
    · exact ih (mask / 2) sum

/-- A subset sum is the sum of the selected coefficients, from left to right. -/
theorem value_eq_sum (coeffs : List Int64) (mask : Nat) :
    value coeffs mask = Word.sum (selected coeffs mask) :=
  addSelected_eq_foldlM coeffs mask 0

/-- The best subset sum that is at least `degree`. -/
def optimum (better : Int64 → Int64 → Int64) (coeffs : List Int64) (degree : Int64) :
    Checked (Option Int64) := do
  enumerable coeffs.length
  Mask.visit
    (fun best mask => do
      let sum ← value coeffs mask
      return if degree ≤ sum then some (best.elim sum (better · sum)) else best)
    (Nat.pow 2 coeffs.length) 0 none

/-- The least subset sum that is at least `degree`. -/
def atLeast (coeffs : List Int64) (degree : Int64) : Checked (Option Int64) :=
  optimum min coeffs degree

/-- The greatest subset sum, if it is at least `degree`. -/
def greatest (coeffs : List Int64) (degree : Int64) : Checked (Option Int64) :=
  optimum max coeffs degree

/-- `degree`, if it is a subset sum. The search ends at the first subset found. -/
def exactly (coeffs : List Int64) (degree : Int64) : Checked (Option Int64) := do
  enumerable coeffs.length
  let found ← Mask.search (fun mask => do return (← value coeffs mask) == degree)
    (Nat.pow 2 coeffs.length) 0
  return found.map fun _ => degree

end PseudoBoolean.SubsetSum
