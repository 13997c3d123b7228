import PseudoBoolean.Proofs.Expected
import PseudoBoolean.Proofs.Verdict

/-!
What the oracle refuses to enumerate.

The oracle enumerates 24 variables at most. How many an instance takes is counted apart from its
answers, and neither number is simply that of the variables: coefficients that are zero or cancel out
take part if the coefficients decide, and do not if the rows do.

    3 x1 - 3 x1 + 0 x2 + 2 x3      four listed, three of them distinct, one in the row

The count is what every answer enumerates (`Instance.enumerates_iff`). So an answer is refused just
if the count exceeds the limit, and an instance is turned away before its check begins just if its
answers are refused.
-/

namespace PseudoBoolean

/-! ### Refusals -/

theorem enumerable_of_lt {vars : Nat} (h : maxEnumerated < vars) :
    enumerable vars = .error (.tooManyAssignments vars) :=
  if_neg (Nat.not_le.2 h)

/-- What is refused above the limit, and otherwise stopped by an overflow at most, is refused just
above the limit. -/
theorem refused_iff {α : Type} {x : Checked α} {n k : Nat}
    (hlt : maxEnumerated < n → x = .error (.tooManyAssignments n))
    (hle : n ≤ maxEnumerated → OverflowsOnly x) :
    x = .error (.tooManyAssignments k) ↔ k = n ∧ maxEnumerated < n := by
  constructor
  · intro h
    rcases Nat.lt_or_ge maxEnumerated n with hn | hn
    · rw [hlt hn] at h
      exact ⟨(Fault.tooManyAssignments.inj (Except.error.inj h)).symm, hn⟩
    · obtain ⟨op, hop⟩ := hle hn _ h
      exact absurd hop nofun
  · rintro ⟨rfl, hn⟩
    exact hlt hn

namespace SubsetSum
variable {coeffs : List Int64} {degree : Int64} {k : Nat}

theorem optimum_refused_iff {better : Int64 → Int64 → Int64} :
    optimum better coeffs degree = .error (.tooManyAssignments k) ↔
      k = coeffs.length ∧ maxEnumerated < coeffs.length :=
  refused_iff (fun h => bind_eq_error.2 (Or.inl (enumerable_of_lt h)))
    (overflowsOnly_optimum better degree)

theorem exactly_refused_iff :
    exactly coeffs degree = .error (.tooManyAssignments k) ↔
      k = coeffs.length ∧ maxEnumerated < coeffs.length :=
  refused_iff (fun h => bind_eq_error.2 (Or.inl (enumerable_of_lt h)))
    (overflowsOnly_exactly degree)

end SubsetSum

theorem Oracle.optimum_refused_iff {better : Int64 → Int64 → Int64} {rows : List Row}
    {objective : LinearForm} {k : Nat} :
    optimum better rows objective = .error (.tooManyAssignments k) ↔
      k = (support rows [objective]).length ∧
        maxEnumerated < (support rows [objective]).length :=
  refused_iff (fun h => bind_eq_error.2 (Or.inl (enumerable_of_lt h)))
    (overflowsOnly_optimum better)

/-! ### Instances -/

namespace Instance
variable {i : Instance} {q : Query} {rows : List Row} {form : LinearForm} {n k : Nat}

/-- How many variables the expected answer to a query enumerates: one to a coefficient where the
coefficients decide, and otherwise those that occur in the rows or in the left-hand side. -/
inductive Enumerates (i : Instance) (q : Query) : Nat → Prop where
  | byCoefficients (hplain : i.isPlain = true) (h : i.expected q = i.byCoefficients q) :
    Enumerates i q i.coeffs.length
  | byVariables {form : LinearForm} {rows : List Row} (hplain : i.isPlain = false)
    (hform : i.objective.normalize = .ok form) (hrows : i.rows = .ok rows)
    (h : i.expected q = Oracle.optimum q.better rows form) :
    Enumerates i q (Oracle.support rows [form]).length

theorem byVariables_eq (hform : i.objective.normalize = .ok form) (hrows : i.rows = .ok rows) :
    i.byVariables q = Oracle.optimum q.better rows form := by
  rw [byVariables, hform, hrows]
  cases q <;> rfl

/-- An answer enumerates some number of variables, if the constraint has a row. -/
theorem exists_enumerates (hrows : i.rows = .ok rows) (q : Query) : ∃ n, i.Enumerates q n := by
  obtain ⟨form, _, hform, _⟩ := rows_eq_ok.1 hrows
  have hexpected := expected_eq i q
  cases hplain : i.isPlain with
  | true =>
    rw [hplain, if_pos rfl] at hexpected
    exact ⟨_, .byCoefficients hplain hexpected⟩
  | false =>
    rw [hplain, if_neg Bool.false_ne_true, byVariables_eq hform hrows] at hexpected
    exact ⟨_, .byVariables hplain hform hrows hexpected⟩

/-- The variables that an answer enumerates are counted. -/
theorem Enumerates.oracleVars_eq (h : i.Enumerates q n) : i.oracleVars = .ok n := by
  rw [oracleVars]
  cases h with
  | byCoefficients hplain =>
    rw [if_pos hplain, i.paired]
    rfl
  | byVariables hplain hform hrows =>
    rw [hplain, if_neg Bool.false_ne_true, hrows, support_objective hform hrows]
    rfl

theorem enumerates_iff (hrows : i.rows = .ok rows) : i.Enumerates q n ↔ i.oracleVars = .ok n := by
  refine ⟨Enumerates.oracleVars_eq, fun hn => ?_⟩
  obtain ⟨m, hm⟩ := exists_enumerates hrows q
  obtain rfl : m = n := Except.ok.inj (hm.oracleVars_eq.symm.trans hn)
  exact hm

/-- An answer is refused just if it enumerates more variables than the limit. -/
theorem Enumerates.refused_iff (h : i.Enumerates q n) :
    i.expected q = .error (.tooManyAssignments k) ↔ k = n ∧ maxEnumerated < n := by
  cases h with
  | byCoefficients _ h =>
    rw [h]
    simp only [Instance.byCoefficients]
    split
    · exact SubsetSum.exactly_refused_iff
    · exact SubsetSum.optimum_refused_iff
    · exact SubsetSum.optimum_refused_iff
  | byVariables _ _ _ h =>
    rw [h]
    exact Oracle.optimum_refused_iff

/-- The variables that are counted are those that every answer enumerates, so each answer is refused
just if they are more than 24. An instance whose answers are refused is turned away before its check
has any effect, and every other one is checked. -/
theorem refused_above_cap (hrows : i.rows = .ok rows) :
    ∃ n, i.oracleVars = .ok n ∧ (∀ q m, i.Enumerates q m ↔ m = n) ∧
      (∀ q k, i.expected q = .error (.tooManyAssignments k) ↔ k = n ∧ 24 < n) ∧
      ∀ tools artifacts strategy s,
        ((∃ q k, i.expected q = .error (.tooManyAssignments k)) →
          checkInstance tools artifacts strategy i s = .error (.error (.oracleTooLarge n 24)) s) ∧
        ((∃ q, ∀ k, i.expected q ≠ .error (.tooManyAssignments k)) →
          checkInstance tools artifacts strategy i s = (do
            let encoded ← Pipeline.encode tools artifacts strategy rows
            return (← i.queries.mapM (checkQuery tools encoded i)).flatten :
              Run (List Mismatch)) s) := by
  obtain ⟨n, hn⟩ := exists_oracleVars hrows
  have hrefused : ∀ q k, i.expected q = .error (.tooManyAssignments k) ↔ k = n ∧ 24 < n :=
    fun q k => ((enumerates_iff hrows).2 hn).refused_iff
  refine ⟨n, hn, fun q m => ?_, hrefused, fun tools artifacts strategy s => ⟨?_, ?_⟩⟩
  · rw [enumerates_iff hrows, hn, Except.ok.injEq, eq_comm]
  · rintro ⟨q, k, hk⟩
    exact checkInstance_of_lt hn ((hrefused q k).1 hk).2
  · rintro ⟨q, hq⟩
    have hle : n ≤ maxEnumerated := Nat.not_lt.1 fun hlt => hq n ((hrefused q n).2 ⟨rfl, hlt⟩)
    rw [checkInstance_of_le hn hle]
    exact run_lift_bind_of_ok hrows

/-- Four variables are listed, three of them distinct, and one is left in the row. -/
def cancellingInstance : Instance where
  name := "sample"
  coeffs := [3, -3, 0, 2]
  vars := [x₁, x₁, x₂, x₃]
  degree := 1
  relation := .geq
  sideRows := []
  paired := rfl

theorem refused_above_cap_sample :
    cancellingInstance.rows = .ok [.ofTerms [⟨2, x₃.pos⟩] .geq 1] ∧
      cancellingInstance.Enumerates .minimize 1 ∧
      ∀ k, cancellingInstance.expected .minimize ≠ .error (.tooManyAssignments k) := by
  have hrows : cancellingInstance.rows = .ok [.ofTerms [⟨2, x₃.pos⟩] .geq 1] := by decide
  have hvars : cancellingInstance.oracleVars = .ok 1 := by decide
  obtain ⟨n, hn, henumerates, hrefused, _⟩ := refused_above_cap hrows
  obtain rfl : n = 1 := Except.ok.inj (hn.symm.trans hvars)
  refine ⟨hrows, (henumerates _ _).2 rfl, fun k hk => ?_⟩
  exact absurd ((hrefused _ k).1 hk).2 (by decide)

end Instance

end PseudoBoolean
