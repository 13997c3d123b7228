import PseudoBoolean.Proofs.Checker
import PseudoBoolean.Proofs.Expected
import PseudoBoolean.Proofs.Path
import PseudoBoolean.Proofs.Query
import PseudoBoolean.Proofs.Verdict

/-!
Clauses that were accepted give the expected answers.

    solutions of the instance ◀──text of the source──▶ models of the source
                │                                             │ accepted
       expected answer                         models of the clauses, projected
                └──────────── same optimum ◀── queries ───────┘

The encoder is arbitrary: it may leave wrong clauses, or clauses over more variables. Wrong ones are
rejected, and the left-hand side does not see the variables that were added. So an instance that is
checked and solved by enumeration passes or is aborted, and never fails.
-/

namespace PseudoBoolean

/-! ### Instances over variables in range -/

namespace Instance
variable {i : Instance} {rows : List Row}

/-- Whether every variable has literals of both signs and every side constraint is normal. -/
structure InRange (i : Instance) : Prop where
  vars : ∀ x ∈ i.vars, x.InRange
  sideRows : ∀ r ∈ i.sideRows, r.IsNormal

theorem InRange.objective (hi : i.InRange) : i.objective.InRange := by
  intro t ht
  obtain ⟨x, hx, hlit⟩ := Term.exists_var_of_mem_zipWith ht
  rw [hlit]
  exact Lit.inRange_of_isPositive (Var.isPositive_pos (hi.vars x hx))

theorem InRange.isNormal_rows (hi : i.InRange) (h : i.rows = .ok rows) : ∀ r ∈ rows, r.IsNormal := by
  obtain ⟨row, hrow, h⟩ := bind_eq_ok.1 h
  obtain rfl := pure_eq_ok.1 h
  exact List.forall_mem_cons.2 ⟨Constraint.isNormal_normalize hi.objective hrow, hi.sideRows⟩

/-- The left-hand side depends on the variables of the rows alone: one that cancels out does not
change its value. -/
theorem value_objective_congr (h : i.rows = .ok rows) {v w : Valuation}
    (hagree : ∀ r ∈ rows, ∀ x ∈ r.vars, v x = w x) : i.objective.value v = i.objective.value w := by
  obtain ⟨form, degree, hform, _, rfl⟩ := rows_eq_ok.1 h
  have hvars : ∀ x ∈ form.vars, v x = w x := hagree _ (List.mem_cons_self ..)
  rw [← Expression.value_normalize hform v, ← Expression.value_normalize hform w,
    LinearForm.value_congr hvars]

/-- Clauses that agree with the rows, on whatever variables they add, give the left-hand side the
values that it has at the solutions. -/
theorem values_of_agree (h : i.rows = .ok rows) {f : Opb} {cnf : Cnf} (hrows : f.rows = rows)
    (hvars : ∀ r ∈ f.rows, ∀ x ∈ r.vars, x.id ≤ f.numVars)
    (hagree : ∀ v, Exhaustive.Agree f cnf v) : cnf.values i.objective = i.values := by
  subst hrows
  ext x
  constructor
  · rintro ⟨v, hsat, rfl⟩
    have hholds := (hagree v).2 ⟨v, fun _ _ => rfl, hsat⟩
    exact ⟨v, (holds_rows h v).1 hholds, rfl⟩
  · rintro ⟨v, hholds, rfl⟩
    obtain ⟨w, hsame, hsat⟩ := (hagree v).1 ((holds_rows h v).2 hholds)
    refine ⟨w, hsat, value_objective_congr h fun r hr x hx => ?_⟩
    exact (hsame x (hvars r hr x hx)).symm

end Instance

/-! ### Accepted clauses -/

namespace Exhaustive

/-- Clauses over few variables are in range. -/
theorem inRange_of_numVars {cnf : Cnf} (h : cnf.numVars.toNat ≤ 48) : cnf.InRange := by
  intro clause hclause l hl
  have hmem : l.var ∈ cnf.vars := List.mem_map_of_mem (List.mem_flatten_of_mem hclause hl)
  exact Lit.inRange_var.1 (Var.inRange_of_le (Cnf.le_numVars hmem) (by omega))

/-- Clauses that are accepted for the text of an instance give its left-hand side the values that it
has at the solutions. -/
theorem values_of_check {i : Instance} (hi : i.InRange) {rows : List Row} (hrows : i.rows = .ok rows)
    {source proof : Path} {s s' : Store}
    (hsource : s.text? source = some (Opb.ofRows rows).render)
    (h : check source proof s = .ok () s') :
    s' = s ∧ ∃ cnf, Cnf.load (proof.withExtension "cnf") s = .ok cnf s ∧ cnf.InRange ∧
      cnf.values i.objective = i.values := by
  obtain ⟨rfl, f, cnf, hf, hcnf, hsame⟩ := check_eq_ok h
  have hnormal : (Opb.ofRows rows).IsNormal := ⟨hi.isNormal_rows hrows, nofun⟩
  obtain ⟨text, htext, hparse, _⟩ := Opb.load_eq_ok.1 hf
  rw [hsource] at htext
  obtain rfl := Option.some.inj htext
  have hvars : ∀ r ∈ f.rows, ∀ x ∈ r.vars, x.id ≤ f.numVars :=
    fun r hr x hx => Opb.le_numVars_of_parse hparse hr hx
  rw [Opb.parse_render hnormal] at hparse
  obtain rfl := Except.ok.inj hparse
  obtain ⟨haux, hn, hagree⟩ := difference?_eq_none hvars hsame
  have hcap : maxEnumerated = 24 := rfl
  exact ⟨rfl, cnf, hcnf, inRange_of_numVars (by omega), Instance.values_of_agree hrows rfl hvars hagree⟩

end Exhaustive

/-! ### Encoders -/

/-- Whether an encoder, where it answers, names the files beside the source and leaves the source as
it is. -/
def Encoder.LeavesSource (encode : Encoder) (source : Path) (strategy : Strategy) : Prop :=
  ∀ s output s', encode source strategy s = .ok output s' →
    output = .beside source ∧ s'.read source = s.read source

/-- Encoding by enumeration writes beside the source only. -/
theorem Exhaustive.encode_leavesSource {a : Artifacts} (ha : a.IsValid) (strategy : Strategy) :
    Encoder.LeavesSource encode a.source strategy := by
  intro s output s' h
  simp only [encode] at h
  obtain ⟨f, s₁, hf, h⟩ := run_bind_eq_ok.1 h
  obtain ⟨_, _, _, rfl⟩ := Opb.load_eq_ok.1 hf
  obtain ⟨cnf, _, h⟩ := run_lift_bind_eq_ok.1 h
  obtain ⟨_, s₂, hcnf, h⟩ := run_bind_eq_ok.1 h
  obtain ⟨_, s₃, hproof, h⟩ := run_bind_eq_ok.1 h
  obtain ⟨rfl, rfl⟩ := run_pure_eq_ok.1 h
  rw [Cnf.save_eq_ok, EncoderOutput.cnf_beside] at hcnf
  rw [Action.writeText_eq_ok, EncoderOutput.proof_beside] at hproof
  have hcnf := Artifacts.read_source_write ha (by decide) (by decide) hcnf
  have hproof := Artifacts.read_source_write ha (by decide) (by decide) hproof
  exact ⟨rfl, hproof.trans hcnf⟩

/-- The tools of a run that is checked and solved by enumeration. -/
def Exhaustive.around (encode : Encoder) : Toolchain := ⟨encode, check, solve⟩

section Accepted
variable {encode : Encoder} {solve : Solver} {strategy : Strategy} {i : Instance} {a : Artifacts}
  {encoded : Encoded} {s s' : Session}

/-- Whatever encoder it was, clauses that were accepted give the left-hand side the values that it
has at the solutions. -/
theorem values_of_encode (hi : i.InRange) (ha : a.IsValid)
    (hencode : encode.LeavesSource a.source strategy) {rows : List Row} (hrows : i.rows = .ok rows)
    (h : Pipeline.encode ⟨encode, Exhaustive.check, solve⟩ a strategy rows s = .ok encoded s') :
    encoded.cnf.InRange ∧ encoded.cnf.values i.objective = i.values := by
  simp only [Pipeline.encode] at h
  obtain ⟨_, made, _, h⟩ := perform_bind_eq_ok.1 h
  obtain ⟨_, written, hsave, h⟩ := perform_bind_eq_ok.1 h
  obtain ⟨output, left, houtput, h⟩ := perform_bind_eq_ok.1 h
  obtain ⟨_, checked, hcheck, h⟩ := perform_bind_eq_ok.1 h
  obtain ⟨cnf, loaded, hload, h⟩ := perform_bind_eq_ok.1 h
  obtain ⟨rfl, _⟩ := run_pure_eq_ok.1 h
  obtain ⟨rfl, hleft⟩ := hencode _ _ _ houtput
  have hsource : left.text? a.source = some (Opb.ofRows rows).render := by
    rw [Store.text?, hleft]
    exact Store.text?_write (Opb.save_eq_ok.1 hsave)
  obtain ⟨rfl, cnf', hcnf, hr, hvalues⟩ := Exhaustive.values_of_check hi hrows hsource hcheck
  -- what was checked stands beside the proof, what is loaded beside the source
  rw [Artifacts.cnf_beside_proof ha] at hcnf
  have hload : Cnf.load (EncoderOutput.beside a.source).cnf checked = .ok cnf loaded := hload
  rw [hcnf] at hload
  cases hload
  exact ⟨hr, hvalues⟩

/-- A sound answer over clauses with the values of the instance is the expected one. -/
theorem checkQuery_eq_nil {tools : Toolchain} (hsound : ∀ f, tools.solve.Sound f) (hi : i.InRange)
    (hr : encoded.cnf.InRange) (hvalues : encoded.cnf.values i.objective = i.values) {q : Query}
    {found : List Mismatch} (h : checkQuery tools encoded i q s = .ok found s') : found = [] := by
  obtain ⟨answer, expected, hanswer, hexpected, rfl⟩ := checkQuery_eq_ok h
  obtain ⟨best, rfl, hbest⟩ :=
    Pipeline.answer_eq_ok hr hi.objective (fun f _ => hsound f) hanswer
  rw [hvalues] at hbest
  obtain rfl := hbest.unique (Instance.isOptimum_expected hi.vars hexpected)
  cases best with
  | none => exact mismatches_eq_nil rfl rfl
  | some m => exact mismatches_eq_nil rfl rfl

/-- Nothing is found in an instance whose clauses were accepted. -/
theorem checkInstance_eq_nil (hi : i.InRange) (ha : a.IsValid)
    (hencode : encode.LeavesSource a.source strategy) {found : List Mismatch}
    (h : checkInstance (Exhaustive.around encode) a strategy i s = .ok found s') : found = [] := by
  obtain ⟨rows, encoded, s₁, results, hrows, hencoded, hresults, rfl⟩ := checkInstance_eq_ok h
  obtain ⟨hr, hvalues⟩ := values_of_encode hi ha hencode hrows hencoded
  refine List.flatten_eq_nil_iff.2 fun found hfound => ?_
  obtain ⟨q, _, s₂, s₃, hquery⟩ := exists_run_of_mem_mapM hresults found hfound
  exact checkQuery_eq_nil Exhaustive.solve_sound hi hr hvalues hquery

end Accepted

/-! ### Verdicts -/

/-- An instance that is checked and solved by enumeration passes or is aborted, whatever encoder it
was given: the optima over any clauses that were accepted are the expected ones. -/
theorem accepted_never_fails {encode : Encoder} {root : Path} {strategy : Strategy} {i : Instance}
    (hi : i.InRange) (hencode : ∀ a, Artifacts.ofName root i.name = .ok a →
      encode.LeavesSource a.source strategy) (s : Session) :
    ((runInstance (Exhaustive.around encode) root strategy i s).1.outcome = .passed ∨
      ∃ e, (runInstance (Exhaustive.around encode) root strategy i s).1.outcome = .aborted e) ∧
    ∀ a rows encoded s', Artifacts.ofName root i.name = .ok a → i.rows = .ok rows →
      Pipeline.encode (Exhaustive.around encode) a strategy rows s = .ok encoded s' →
      ∀ q expected, i.expected q = .ok expected →
        q.IsOptimum (encoded.cnf.values i.objective) expected := by
  constructor
  · cases hname : Artifacts.ofName root i.name with
    | error e =>
      rw [runInstance_of_error hname]
      exact Or.inr ⟨e, rfl⟩
    | ok a =>
      have ha := Artifacts.isValid_of_ofName hname
      rw [runInstance_of_ok hname]
      cases hrun : checkInstance (Exhaustive.around encode) a strategy i s with
      | ok found s' =>
        obtain rfl := checkInstance_eq_nil hi ha (hencode a hname) hrun
        exact Or.inl rfl
      | error stop s' => exact Or.inr ⟨stop.report, rfl⟩
  · intro a rows encoded s' hname hrows hencoded q expected hexpected
    have ha := Artifacts.isValid_of_ofName hname
    rw [(values_of_encode hi ha (hencode a hname) hrows hencoded).2]
    exact Instance.isOptimum_expected hi.vars hexpected

/-- `3 x1 + 2 x1 >= 4` with the side constraint `x1 >= 1`. -/
def sampleInstance : Instance where
  name := "t"
  coeffs := [3, 2]
  vars := [x₁, x₁]
  degree := 4
  relation := .geq
  sideRows := [.ofTerms [⟨1, x₁.pos⟩] .geq 1]
  paired := rfl

theorem accepted_never_fails_sample :
    ((runInstance (Exhaustive.around Exhaustive.encode) ⟨"r"⟩ .standard sampleInstance
        ⟨.empty, []⟩).1.outcome = .passed ∨
      ∃ e, (runInstance (Exhaustive.around Exhaustive.encode) ⟨"r"⟩ .standard sampleInstance
        ⟨.empty, []⟩).1.outcome = .aborted e) ∧
    ∀ a rows encoded s', Artifacts.ofName ⟨"r"⟩ sampleInstance.name = .ok a →
      sampleInstance.rows = .ok rows →
      Pipeline.encode (Exhaustive.around Exhaustive.encode) a .standard rows ⟨.empty, []⟩ =
        .ok encoded s' →
      ∀ q expected, sampleInstance.expected q = .ok expected →
        q.IsOptimum (encoded.cnf.values sampleInstance.objective) expected :=
  accepted_never_fails ⟨by decide, by decide⟩
    (fun _ h => Exhaustive.encode_leavesSource (Artifacts.isValid_of_ofName h) _) _

example : (runInstance (Exhaustive.around Exhaustive.encode) ⟨"r"⟩ .standard sampleInstance
    ⟨.empty, []⟩).1.outcome = .passed := by
  decide +kernel

end PseudoBoolean
