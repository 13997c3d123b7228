import PseudoBoolean.Proofs.Cnf.Rows
import PseudoBoolean.Proofs.Opb.RoundTrip
import PseudoBoolean.Proofs.Optimum
import PseudoBoolean.Proofs.Run
import PseudoBoolean.Toolchain.Exhaustive

/-!
A query reports the optimum of the objective over the models of the clauses.

    objective ──normalize──▶ form ──negate, to maximize──▶ ──without constant──▶ file
                                                                                  │
    optimum ◀──negate, to maximize── ◀──add constant── minimum over the rows ◀── solve

The rows in the file have the models of the clauses, and the form has the values of the objective.
The solver reports the minimum over the file; the two steps that follow move it to where the
objective's optimum is.
-/

namespace PseudoBoolean

/-! ### Contracts -/

/-- The answer that reports an optimum: a value, or that there is none. -/
def Answer.ofBest : Option Int64 → Answer
  | some m => optimum m
  | none => unsatisfiable

/-- The values of a formula's objective at its models. -/
def Opb.values (f : Opb) : Set Int := Row.values f.rows (f.objective.getD .zero)

/-- Whether the file at a path says what a formula says: the same rows and the same objective. -/
def Opb.StandsIn (f : Opb) (file : Path) (s : Store) : Prop :=
  ∃ g, Opb.load file s = .ok g s ∧ g.rows = f.rows ∧ g.objective = f.objective

/-- Whether what a solver answers on a formula is its optimum. -/
def Solver.Sound (solve : Solver) (f : Opb) : Prop :=
  ∀ file s a s', f.StandsIn file s → solve file s = .ok a s' →
    ∃ best, a = .ofBest best ∧ Query.minimize.IsOptimum f.values best

/-- Whether a solver honours its contract on a formula: it answers, with the optimum. -/
def Solver.Honours (solve : Solver) (f : Opb) : Prop :=
  ∀ file s, f.StandsIn file s →
    ∃ best s', solve file s = .ok (.ofBest best) s' ∧ Query.minimize.IsOptimum f.values best

theorem Solver.Honours.sound {solve : Solver} {f : Opb} (h : Solver.Honours solve f) :
    Solver.Sound solve f := by
  intro file s a s' hfile ha
  obtain ⟨best, s₁, hbest, hopt⟩ := h file s hfile
  rw [ha] at hbest
  cases hbest
  exact ⟨best, rfl, hopt⟩

/-- Solving by enumeration is sound on every formula. -/
theorem Exhaustive.solve_sound (f : Opb) : Solver.Sound solve f := by
  rintro file s a s' ⟨g, hload, hrows, hobjective⟩ h
  simp only [solve] at h
  rw [run_bind_of_ok hload] at h
  obtain ⟨best, hbest, h⟩ := run_lift_bind_eq_ok.1 h
  have hopt : Query.minimize.IsOptimum f.values best := by
    rw [Opb.values, ← hrows, ← hobjective]
    exact Oracle.isOptimum_of_optimum hbest
  cases best with
  | some m =>
    obtain ⟨rfl, _⟩ := run_pure_eq_ok.1 h
    exact ⟨some m, rfl, hopt⟩
  | none =>
    obtain ⟨rfl, _⟩ := run_pure_eq_ok.1 h
    exact ⟨none, rfl, hopt⟩

/-- Solving by enumeration answers as the oracle does, and leaves the files alone. -/
theorem Exhaustive.solve_of_minimize {f : Opb} {best : Option Int64}
    (h : Oracle.minimize f.rows (f.objective.getD .zero) = .ok best) {file : Path} {s : Store}
    (hfile : f.StandsIn file s) : solve file s = .ok (.ofBest best) s := by
  obtain ⟨g, hload, hrows, hobjective⟩ := hfile
  rw [← hrows, ← hobjective] at h
  simp only [solve]
  rw [run_bind_of_ok hload, run_bind_of_ok (run_lift_eq_ok.2 ⟨h, rfl⟩)]
  cases best <;> rfl

/-- Solving by enumeration honours the contract on every formula that the oracle can minimize. -/
theorem Exhaustive.solve_honours {f : Opb} {best : Option Int64}
    (h : Oracle.minimize f.rows (f.objective.getD .zero) = .ok best) : Solver.Honours solve f :=
  fun _ s hfile => ⟨best, s, solve_of_minimize h hfile, Oracle.isOptimum_of_optimum h⟩

/-! ### Answers -/

theorem Answer.mapValue_ofBest {best : Option Int64} {f : Int64 → Checked Int64} {a : Answer}
    (h : (ofBest best).mapValue f = .ok a) : ∃ best', best.mapM f = .ok best' ∧ a = ofBest best' := by
  obtain ⟨value, hvalue, h⟩ := bind_eq_ok.1 h
  obtain rfl := pure_eq_ok.1 h
  cases best with
  | none =>
    obtain rfl : none = value := pure_eq_ok.1 hvalue
    exact ⟨none, rfl, rfl⟩
  | some m =>
    obtain ⟨m', hm, rfl⟩ := map_eq_ok.1 hvalue
    exact ⟨some m', hvalue, rfl⟩

theorem Answer.overflowsOnly_mapValue {f : Int64 → Checked Int64} (hf : ∀ c, OverflowsOnly (f c))
    (a : Answer) : OverflowsOnly (a.mapValue f) := by
  refine .bind ?_ fun _ => .pure _
  cases a.value with
  | none => exact .pure _
  | some m => exact .bind (hf m) fun _ => .pure _

/-! ### Queries -/

/-- The values of an expression at the models of clauses. -/
def Cnf.values (f : Cnf) (e : Expression) : Set Int :=
  {x | ∃ v, f.isSatisfied v = true ∧ x = e.value v}

namespace Pipeline

/-- The formula that a query poses. -/
def posed (cnf : Cnf) (objective : Expression) : Query → Checked Opb
  | .minimize => do queryFormula cnf (← objective.normalize)
  | .maximize => do
    let form ← objective.normalize
    queryFormula cnf (← form.negate)

/-- The form whose minimum answers a query. -/
def queried (objective : Expression) : Query → Checked LinearForm
  | .minimize => objective.normalize
  | .maximize => do (← objective.normalize).negate

/-- The answer to a query, from the minimum of its form. -/
def settled : Query → Answer → Checked Answer
  | .minimize, answer => return answer
  | .maximize, answer => answer.negated

theorem posed_eq (cnf : Cnf) (objective : Expression) (q : Query) :
    posed cnf objective q = queried objective q >>= queryFormula cnf := by
  cases q with
  | minimize => rfl
  | maximize => exact (bind_assoc ..).symm

theorem answer_eq_solve (tools : Toolchain) (encoded : Encoded) (objective : Expression)
    (q : Query) : answer tools encoded objective q = (do
      let form ← queried objective q
      settled q (← solve tools encoded q form) : Run Answer) := by
  cases q with
  | minimize => exact bind_congr fun form => (bind_pure _).symm
  | maximize =>
    rw [queried, lift_bind, bind_assoc]
    rfl

section Posed
variable {cnf : Cnf} {form : LinearForm} {f : Opb}

/-- The posed formula has the models of the clauses and the values of the form, less its
constant. -/
theorem values_queryFormula (h : queryFormula cnf form = .ok f) :
    f.values = cnf.values (.normal form.withoutOffset) := by
  obtain ⟨rows, hrows, h⟩ := bind_eq_ok.1 h
  obtain rfl := pure_eq_ok.1 h
  ext x
  exact exists_congr fun v => and_congr (Cnf.holds_toRows hrows v) Iff.rfl

theorem isNormal_queryFormula (hr : cnf.InRange) (hform : form.IsNormal)
    (h : queryFormula cnf form = .ok f) : f.IsNormal := by
  obtain ⟨rows, hrows, h⟩ := bind_eq_ok.1 h
  obtain rfl := pure_eq_ok.1 h
  refine ⟨Cnf.isNormal_toRows hr hrows, fun g hg => ?_⟩
  obtain rfl := Option.some.inj hg
  exact hform.withOffset 0

/-- The file that a query leaves says what the posed formula says. -/
theorem standsIn_queryFormula (hr : cnf.InRange) (hform : form.IsNormal)
    (h : queryFormula cnf form = .ok f) {file : Path} {s s' : Store}
    (hsave : f.save file s = .ok () s') : f.StandsIn file s' := by
  have hnormal := isNormal_queryFormula hr hform h
  obtain ⟨rows, _, h⟩ := bind_eq_ok.1 h
  obtain rfl := pure_eq_ok.1 h
  have htext := Store.text?_write (Opb.save_eq_ok.1 hsave)
  exact ⟨_, Opb.load_eq_ok.2 ⟨_, htext, Opb.parse_render hnormal, rfl⟩, rfl, rfl⟩

end Posed

section Solve
variable {tools : Toolchain} {encoded : Encoded} {q : Query} {form : LinearForm} {s s' : Session}

/-- What is solved is the minimum of the form over the models of the clauses. -/
theorem solve_eq_ok (hr : encoded.cnf.InRange) (hform : form.IsNormal)
    (hsound : ∀ f, queryFormula encoded.cnf form = .ok f → tools.solve.Sound f) {a : Answer}
    (h : solve tools encoded q form s = .ok a s') :
    ∃ best, a = .ofBest best ∧
      Query.minimize.IsOptimum (encoded.cnf.values (.normal form)) best := by
  simp only [solve] at h
  obtain ⟨f, hf, h⟩ := run_lift_bind_eq_ok.1 h
  obtain ⟨_, store, hsave, h⟩ := perform_bind_eq_ok.1 h
  obtain ⟨answer, store', hanswer, h⟩ := perform_bind_eq_ok.1 h
  obtain ⟨hshift, _⟩ := run_lift_eq_ok.1 h
  obtain ⟨best, rfl, hopt⟩ :=
    hsound f hf _ _ _ _ (standsIn_queryFormula hr hform hf hsave) hanswer
  obtain ⟨best', hbest', rfl⟩ := Answer.mapValue_ofBest hshift
  refine ⟨best', rfl, ?_⟩
  have hshifted := hopt.mapM hbest' (fun _ _ => Word.add_eq_ok_iff.1) fun m hm =>
    hm.shift form.offset.toInt
  rw [values_queryFormula hf] at hshifted
  convert hshifted using 1
  ext x
  constructor
  · rintro ⟨v, hv, rfl⟩
    exact ⟨_, ⟨v, hv, rfl⟩, (form.value_withoutOffset v).symm⟩
  · rintro ⟨_, ⟨v, hv, rfl⟩, rfl⟩
    exact ⟨v, hv, form.value_withoutOffset v⟩

end Solve

/-! ### Both queries -/

section Answer
variable {tools : Toolchain} {encoded : Encoded} {objective : Expression} {q : Query}
  {form : LinearForm} {s s' : Session}

theorem posed_of_queried {cnf : Cnf} (hform : queried objective q = .ok form) {f : Opb}
    (h : queryFormula cnf form = .ok f) : posed cnf objective q = .ok f := by
  rw [posed_eq]
  exact bind_eq_ok.2 ⟨form, hform, h⟩

theorem isNormal_queried (hobjective : objective.InRange) (h : queried objective q = .ok form) :
    form.IsNormal := by
  cases q with
  | minimize => exact Expression.isNormal_normalize hobjective h
  | maximize =>
    obtain ⟨normal, hnormal, h⟩ := bind_eq_ok.1 h
    exact (Expression.isNormal_normalize hobjective hnormal).negate h

/-- The minimum of the form of a query is settled as the optimum of the objective. -/
theorem settled_eq_ok {cnf : Cnf} (hform : queried objective q = .ok form) {best : Option Int64}
    (hopt : Query.minimize.IsOptimum (cnf.values (.normal form)) best) {a : Answer}
    (h : settled q (.ofBest best) = .ok a) :
    ∃ best', a = .ofBest best' ∧ q.IsOptimum (cnf.values objective) best' := by
  cases q with
  | minimize =>
    obtain rfl := pure_eq_ok.1 h
    refine ⟨best, rfl, ?_⟩
    convert hopt using 1
    ext x
    exact exists_congr fun v => and_congr_right fun _ => by
      rw [← Expression.value_normalize hform]
      rfl
  | maximize =>
    obtain ⟨normal, hnormal, hnegated⟩ := bind_eq_ok.1 hform
    obtain ⟨best', hbest', rfl⟩ := Answer.mapValue_ofBest h
    refine ⟨best', rfl, ?_⟩
    have hmax : Query.maximize.IsOptimum _ best' :=
      hopt.mapM hbest' (fun _ _ => Word.neg_eq_ok_iff.1) fun m hm => hm.neg
    have hvalue : ∀ v, -(Expression.normal form).value v = objective.value v := by
      intro v
      rw [Expression.value, LinearForm.value_negate hnegated, Int.neg_neg,
        Expression.value_normalize hnormal]
    convert hmax using 1
    ext x
    constructor
    · rintro ⟨v, hv, rfl⟩
      exact ⟨_, ⟨v, hv, rfl⟩, (hvalue v).symm⟩
    · rintro ⟨_, ⟨v, hv, rfl⟩, rfl⟩
      exact ⟨v, hv, hvalue v⟩

/-- What is answered is the optimum of the objective over the models of the clauses. -/
theorem answer_eq_ok (hr : encoded.cnf.InRange) (hobjective : objective.InRange)
    (hsound : ∀ f, posed encoded.cnf objective q = .ok f → tools.solve.Sound f) {a : Answer}
    (h : answer tools encoded objective q s = .ok a s') :
    ∃ best, a = .ofBest best ∧ q.IsOptimum (encoded.cnf.values objective) best := by
  rw [answer_eq_solve] at h
  obtain ⟨form, hform, h⟩ := run_lift_bind_eq_ok.1 h
  obtain ⟨solved, s₁, hsolved, h⟩ := run_bind_eq_ok.1 h
  obtain ⟨hsettled, _⟩ := run_lift_eq_ok.1 h
  obtain ⟨best, rfl, hopt⟩ := solve_eq_ok hr (isNormal_queried hobjective hform)
    (fun f hf => hsound f (posed_of_queried hform hf)) hsolved
  exact settled_eq_ok hform hopt hsettled

end Answer

/-! ### Queries that complete -/

section Completes
variable {tools : Toolchain} {encoded : Encoded} {q : Query} {s : Session}

/-- A query whose file can be written and whose solver answers stops by overflow only. -/
theorem completes_solve {form : LinearForm} (hr : encoded.cnf.InRange) (hform : form.IsNormal)
    (hsolve : ∀ f, queryFormula encoded.cnf form = .ok f → tools.solve.Honours f)
    (hwrite : ∀ content, (s.store.write (encoded.artifacts.query q) content).isSome = true) :
    Completes (solve tools encoded q form s) := by
  have hqueryFormula : OverflowsOnly (queryFormula encoded.cnf form) :=
    .bind encoded.cnf.overflowsOnly_toRows fun _ => .pure _
  simp only [solve]
  refine .lift_bind hqueryFormula fun f hf => ?_
  obtain ⟨store, hstore⟩ := Option.isSome_iff_exists.1 (hwrite f.render.toUTF8)
  have hsave : f.save (encoded.artifacts.query q) s.store = .ok () store :=
    Opb.save_eq_ok.2 hstore
  refine .bind (.perform (Or.inr ⟨_, _, hsave⟩)) fun _ s₁ hs₁ => ?_
  obtain ⟨store', hsave', rfl⟩ := perform_eq_ok.1 hs₁
  obtain ⟨best, store'', hanswer, _⟩ :=
    hsolve f hf _ _ (standsIn_queryFormula hr hform hf hsave')
  refine .bind (.perform (Or.inr ⟨_, _, hanswer⟩)) fun a s₂ _ => ?_
  exact .lift (Answer.overflowsOnly_mapValue (fun _ => .checked _ _) a) s₂

theorem overflowsOnly_queried (objective : Expression) (q : Query) :
    OverflowsOnly (queried objective q) := by
  cases q with
  | minimize => exact objective.overflowsOnly_normalize
  | maximize => exact .bind objective.overflowsOnly_normalize LinearForm.overflowsOnly_negate

theorem overflowsOnly_settled (q : Query) (a : Answer) : OverflowsOnly (settled q a) := by
  cases q with
  | minimize => exact .pure a
  | maximize => exact Answer.overflowsOnly_mapValue (fun _ => .checked _ _) a

theorem completes_answer {objective : Expression} (hr : encoded.cnf.InRange)
    (hobjective : objective.InRange)
    (hsolve : ∀ f, posed encoded.cnf objective q = .ok f → tools.solve.Honours f)
    (hwrite : ∀ content, (s.store.write (encoded.artifacts.query q) content).isSome = true) :
    Completes (answer tools encoded objective q s) := by
  rw [answer_eq_solve]
  refine .lift_bind (overflowsOnly_queried objective q) fun form hform => ?_
  refine .bind (completes_solve hr (isNormal_queried hobjective hform)
    (fun f hf => hsolve f (posed_of_queried hform hf)) hwrite) fun a s₁ _ => ?_
  exact .lift (overflowsOnly_settled q a) s₁

/-- With a solver that honours its contract, a query that does not overflow reports the exact
optimum of the objective over the models of the clauses, and none exactly if there are no models. -/
theorem answer_reports_optimum {objective : Expression} (hr : encoded.cnf.InRange)
    (hobjective : objective.InRange)
    (hsolve : ∀ f, posed encoded.cnf objective q = .ok f → tools.solve.Honours f)
    (hwrite : ∀ content, (s.store.write (encoded.artifacts.query q) content).isSome = true)
    (hfits : ∀ op s', answer tools encoded objective q s ≠ .error (.fault (.overflow op)) s') :
    ∃ best s', answer tools encoded objective q s = .ok (.ofBest best) s' ∧
      q.IsOptimum (encoded.cnf.values objective) best ∧
      (best = none ↔ ∀ v, encoded.cnf.isSatisfied v = false) := by
  obtain ⟨a, s', ha⟩ := (completes_answer hr hobjective hsolve hwrite).exists_ok hfits
  obtain ⟨best, rfl, hopt⟩ := answer_eq_ok hr hobjective (fun f hf => (hsolve f hf).sound) ha
  refine ⟨best, s', ha, hopt, ?_⟩
  cases best with
  | none =>
    have hempty : encoded.cnf.values objective = ∅ := hopt
    refine ⟨fun _ v => ?_, fun _ => rfl⟩
    by_contra hsat
    have hmem : objective.value v ∈ encoded.cnf.values objective :=
      ⟨v, Bool.eq_true_of_not_eq_false hsat, rfl⟩
    rw [hempty] at hmem
    exact hmem
  | some m =>
    obtain ⟨v, hv, _⟩ := Query.IsBest.mem hopt
    exact ⟨nofun, fun hnone => absurd hv (by rw [hnone v]; exact nofun)⟩

end Completes

/-! ### A query with a repeated variable and a negative literal -/

def sampleEncoded : Encoded where
  artifacts := ⟨⟨"t"⟩, "t"⟩
  cnf := .ofClauses [[x₁.pos, ⟨-2, by decide⟩]]

def sampleObjective : Expression :=
  .raw [⟨3, x₁.pos⟩, ⟨2, ⟨-2, by decide⟩⟩, ⟨-1, x₁.pos⟩]

def sampleSession : Session := ⟨⟨[(["t".toList], .directory)]⟩, []⟩

theorem answer_reports_optimum_sample :
    ∃ best s', answer Exhaustive.toolchain sampleEncoded sampleObjective .maximize sampleSession =
        .ok (.ofBest best) s' ∧
      Query.maximize.IsOptimum (sampleEncoded.cnf.values sampleObjective) best ∧
      (best = none ↔ ∀ v, sampleEncoded.cnf.isSatisfied v = false) := by
  have hmin : ∀ f, posed sampleEncoded.cnf sampleObjective .maximize = .ok f →
      Oracle.minimize f.rows (f.objective.getD .zero) = .ok (some (-2)) := by
    intro f hf
    cases hf
    rfl
  have hobjective : sampleObjective.InRange := by
    show ∀ t ∈ [_, _, _], Lit.InRange _
    decide
  have hok : (match answer Exhaustive.toolchain sampleEncoded sampleObjective .maximize
      sampleSession with
    | .ok .. => true
    | .error .. => false) = true := by decide +kernel
  refine answer_reports_optimum (by decide) hobjective
    (fun f hf => Exhaustive.solve_honours (hmin f hf)) (fun _ => rfl) fun op s' h => ?_
  rw [h] at hok
  exact absurd hok nofun

end Pipeline

end PseudoBoolean
