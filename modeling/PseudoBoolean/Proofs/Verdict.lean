import PseudoBoolean.Proofs.Run
import PseudoBoolean.Verdict

/-!
An instance from its name to its verdict.

A run is refused before its first effect if the name is no file stem or the oracle has too many
variables. Otherwise the instance is encoded, every query is answered and compared, and what was
found decides the outcome. The lemmas here follow these steps, so a proof about a verdict names what
each of them gave.
-/

namespace PseudoBoolean

/-! ### Answers compared -/

/-- An answer with the expected status and value is no mismatch. -/
theorem mismatches_eq_nil {q : Query} {expected : Expectation} {a : Answer}
    (hstatus : a.status = expected.status) (hvalue : a.value = expected.value) :
    mismatches q expected a = [] := by
  rw [mismatches, if_pos hstatus, if_pos hvalue, List.append_nil]

/-! ### Instances -/

section Check
variable {tools : Toolchain} {artifacts : Artifacts} {strategy : Strategy} {encoded : Encoded}
  {i : Instance} {s s' : Session}

theorem checkQuery_eq_ok {q : Query} {found : List Mismatch}
    (h : checkQuery tools encoded i q s = .ok found s') :
    ∃ answer expected, Pipeline.answer tools encoded i.objective q s = .ok answer s' ∧
      i.expected q = .ok expected ∧ found = mismatches q (.ofOption expected) answer := by
  obtain ⟨answer, s₁, hanswer, h⟩ := run_bind_eq_ok.1 h
  obtain ⟨expected, hexpected, h⟩ := run_lift_bind_eq_ok.1 h
  obtain ⟨rfl, rfl⟩ := run_pure_eq_ok.1 h
  exact ⟨answer, expected, hanswer, hexpected, rfl⟩

/-- An instance whose variables cannot be counted is refused. -/
theorem checkInstance_of_error {f : Fault} (hvars : i.oracleVars = .error f) :
    checkInstance tools artifacts strategy i s = .error (.fault f) s := by
  simp only [checkInstance]
  exact run_bind_eq_error.2 (Or.inl (run_lift_eq_error.2 ⟨f, hvars, rfl, rfl⟩))

/-- An instance that the oracle cannot check is refused. -/
theorem checkInstance_of_lt {vars : Nat} (hvars : i.oracleVars = .ok vars)
    (hlt : maxEnumerated < vars) : checkInstance tools artifacts strategy i s =
      .error (.error (.oracleTooLarge vars maxEnumerated)) s := by
  simp only [checkInstance]
  rw [run_bind_of_ok (run_lift_eq_ok.2 ⟨hvars, rfl⟩)]
  exact congrFun (if_pos hlt) s

/-- An instance that the oracle can check is encoded, and every query of it is checked. -/
theorem checkInstance_of_le {vars : Nat} (hvars : i.oracleVars = .ok vars)
    (hle : vars ≤ maxEnumerated) : checkInstance tools artifacts strategy i s = (do
      let rows ← i.rows
      let encoded ← Pipeline.encode tools artifacts strategy rows
      return (← i.queries.mapM (checkQuery tools encoded i)).flatten : Run (List Mismatch)) s := by
  simp only [checkInstance]
  rw [run_bind_of_ok (run_lift_eq_ok.2 ⟨hvars, rfl⟩)]
  exact congrFun (if_neg (Nat.not_lt.2 hle)) s

theorem checkInstance_eq_ok {found : List Mismatch}
    (h : checkInstance tools artifacts strategy i s = .ok found s') :
    ∃ rows encoded s₁ results, i.rows = .ok rows ∧
      Pipeline.encode tools artifacts strategy rows s = .ok encoded s₁ ∧
      i.queries.mapM (checkQuery tools encoded i) s₁ = .ok results s' ∧
      found = results.flatten := by
  have hvars : ∃ vars, i.oracleVars = .ok vars := by
    obtain ⟨vars, hvars, _⟩ := run_lift_bind_eq_ok.1 h
    exact ⟨vars, hvars⟩
  obtain ⟨vars, hvars⟩ := hvars
  rcases Nat.lt_or_ge maxEnumerated vars with hlt | hle
  · rw [checkInstance_of_lt hvars hlt] at h
    exact absurd h nofun
  · rw [checkInstance_of_le hvars hle] at h
    obtain ⟨rows, hrows, h⟩ := run_lift_bind_eq_ok.1 h
    obtain ⟨encoded, s₁, hencoded, h⟩ := run_bind_eq_ok.1 h
    obtain ⟨results, s₂, hresults, h⟩ := run_bind_eq_ok.1 h
    obtain ⟨rfl, rfl⟩ := run_pure_eq_ok.1 h
    exact ⟨rows, encoded, s₁, results, hrows, hencoded, hresults, rfl⟩

end Check

/-! ### Reports -/

section Report
variable {tools : Toolchain} {root : Path} {strategy : Strategy} {i : Instance} {s : Session}

/-- An invalid name is reported before anything else happens. -/
theorem runInstance_of_error {e : PipelineError} (h : Artifacts.ofName root i.name = .error e) :
    runInstance tools root strategy i s = (⟨i.name, none, .aborted e⟩, s) := by
  rw [runInstance, h]

theorem runInstance_of_ok {a : Artifacts} (h : Artifacts.ofName root i.name = .ok a) :
    runInstance tools root strategy i s =
      (⟨i.name, some a, (Outcome.ofRun (checkInstance tools a strategy i s)).1⟩,
        (Outcome.ofRun (checkInstance tools a strategy i s)).2) := by
  rw [runInstance, h]

/-- A run fails if it finds something, passes if it finds nothing, and is aborted if it stops. -/
theorem Outcome.ofRun_ok (found : List Mismatch) (s : Session) :
    ofRun (.ok found s) = (if found = [] then passed else failed found, s) := by
  cases found <;> rfl

end Report

end PseudoBoolean
