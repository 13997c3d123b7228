import PseudoBoolean.Proofs.Journal
import PseudoBoolean.Proofs.Linear.Comparison
import PseudoBoolean.Proofs.Locality

/-!
The maximum of an objective is the minimum of its negation, negated.

    maximize e     e ──normalize──▶ · ──negate──▶ g ──▶ max file ──solve──▶ ──shift──▶ ──negate──▶
    minimize -e    e ──negate──▶ · ──normalize──▶ g ──▶ min file ──solve──▶ ──shift──▶

The two ways to the form differ: one collects the terms and negates the coefficients, the other
negates every term and collects. Both forms are normal and have the values of `-e`, so they are one
form and the files have one text. From there on both runs are the same procedure on two files
(`Pipeline.pose`), and a solver that goes by the content of its file cannot tell them apart.
-/

namespace PseudoBoolean

/-! ### Ends, up to the files mentioned -/

/-- The error with its paths left blank. -/
def PipelineError.withoutPaths : PipelineError → PipelineError
  | encoderFailure program _ code => encoderFailure program ⟨""⟩ code
  | verificationFailure _ _ reason => verificationFailure ⟨""⟩ ⟨""⟩ reason
  | solverFailure program _ code => solverFailure program ⟨""⟩ code
  | io _ => io ⟨""⟩
  | parse _ error => parse ⟨""⟩ error
  | launch program => launch program
  | invalidTestName name => invalidTestName name
  | oracleTooLarge vars max => oracleTooLarge vars max
  | faulted message => faulted message

def Stop.withoutPaths : Stop → Stop
  | error e => error e.withoutPaths
  | fault f => fault f

section Ends
variable {σ α β : Type}

/-- How a computation ended, whatever files an error mentions. -/
def endingUpToPaths (r : EStateM.Result Stop σ α) : Except Stop α :=
  (ending r).mapError Stop.withoutPaths

/-- Sequences end alike if their first parts do, and the second parts after each value. -/
theorem endingUpToPaths_bind {x y : EStateM Stop σ α} {k l : α → EStateM Stop σ β} {s t : σ}
    (h : endingUpToPaths (x s) = endingUpToPaths (y t))
    (hrest : ∀ a s' t', x s = .ok a s' → y t = .ok a t' →
      endingUpToPaths (k a s') = endingUpToPaths (l a t')) :
    endingUpToPaths ((x >>= k) s) = endingUpToPaths ((y >>= l) t) := by
  rcases ending_cases_view h with ⟨a, s', t', hx, hy⟩ | ⟨stop, stop', s', t', hx, hy, hstop⟩
  · rw [run_bind_of_ok hx, run_bind_of_ok hy]
    exact hrest a s' t' hx hy
  · rw [run_bind_eq_error.2 (Or.inl hx), run_bind_eq_error.2 (Or.inl hy)]
    exact congrArg Except.error hstop

/-- What is computed without the state ends alike in any two. -/
theorem endingUpToPaths_lift (x : Checked α) (s t : σ) :
    endingUpToPaths ((liftM x : EStateM Stop σ α) s) =
      endingUpToPaths ((liftM x : EStateM Stop σ α) t) := by
  cases x <;> rfl

theorem endingUpToPaths_perform (e : Effect) (x : Action α) (s : Session) :
    endingUpToPaths (perform e x s) = endingUpToPaths (x s.store) := by
  rw [perform]
  cases x s.store <;> rfl

end Ends

/-! ### Files with one content -/

/-- Whether a solver answers alike on two files with one content, whatever else there is. Its errors
may mention the files. -/
def Solver.ByContent (solve : Solver) (p q : Path) : Prop :=
  ∀ s t content, s.read p = some content → t.read q = some content →
    endingUpToPaths (solve p s) = endingUpToPaths (solve q t)

section Files
variable {p q : Path} {s t : Store}

theorem endingUpToPaths_readText (h : s.text? p = t.text? q) :
    endingUpToPaths (Action.readText p s) = endingUpToPaths (Action.readText q t) := by
  cases htext : t.text? q with
  | none =>
    rw [htext] at h
    rw [Action.readText_eq_error.2 ⟨h, rfl, rfl⟩, Action.readText_eq_error.2 ⟨htext, rfl, rfl⟩]
    rfl
  | some text =>
    rw [htext] at h
    rw [Action.readText_eq_ok.2 ⟨h, rfl⟩, Action.readText_eq_ok.2 ⟨htext, rfl⟩]
    rfl

theorem endingUpToPaths_load (h : s.text? p = t.text? q) :
    endingUpToPaths (Opb.load p s) = endingUpToPaths (Opb.load q t) := by
  refine endingUpToPaths_bind (endingUpToPaths_readText h) fun text s' t' _ _ => ?_
  cases Opb.parse text with
  | ok f => rfl
  | error e => cases e <;> rfl

/-- Solving by enumeration goes by the content of the file. -/
theorem Exhaustive.solve_byContent (p q : Path) : Solver.ByContent solve p q := by
  intro s t content hs ht
  have htext : s.text? p = t.text? q := by rw [Store.text?, Store.text?, hs, ht]
  refine endingUpToPaths_bind (endingUpToPaths_load htext) fun f s' t' _ _ => ?_
  refine endingUpToPaths_bind (endingUpToPaths_lift _ s' t') fun best s₁ t₁ _ _ => ?_
  cases best <;> rfl

/-- Files that can both be written, or neither, are written alike. -/
theorem endingUpToPaths_save (f : Opb) (h : s.IsWritable p ↔ t.IsWritable q) :
    endingUpToPaths (f.save p s) = endingUpToPaths (f.save q t) := by
  by_cases hp : s.IsWritable p
  · obtain ⟨s', hs'⟩ := hp f.render.toUTF8
    obtain ⟨t', ht'⟩ := h.1 hp f.render.toUTF8
    rw [Opb.save_eq_ok.2 hs', Opb.save_eq_ok.2 ht']
    rfl
  · have hs := Store.write_eq_none hp f.render.toUTF8
    have ht := Store.write_eq_none (mt h.2 hp) f.render.toUTF8
    rw [Opb.save, Opb.save, Action.writeText, Action.writeText,
      Action.writeFile_eq_error.2 ⟨hs, rfl, rfl⟩, Action.writeFile_eq_error.2 ⟨ht, rfl, rfl⟩]
    rfl

end Files

/-! ### One procedure, two files -/

namespace Pipeline

/-- Writes a formula to a file, has it solved there and finishes the answer. -/
def pose (solve : Solver) (file : Path) (f : Opb) (finish : Answer → Checked Answer) :
    Run Answer := do
  perform (.write file) (f.save file)
  let solved ← perform (.solve file) (solve file)
  finish solved

/-- A solver that goes by content ends alike on two files where one formula is written. -/
theorem endingUpToPaths_pose {solve : Solver} {p q : Path} (hsolve : solve.ByContent p q) (f : Opb)
    (finish : Answer → Checked Answer) {s t : Session}
    (h : s.store.IsWritable p ↔ t.store.IsWritable q) :
    endingUpToPaths (pose solve p f finish s) = endingUpToPaths (pose solve q f finish t) := by
  have hsave : endingUpToPaths (perform (.write p) (f.save p) s) =
      endingUpToPaths (perform (.write q) (f.save q) t) := by
    rw [endingUpToPaths_perform, endingUpToPaths_perform]
    exact endingUpToPaths_save f h
  refine endingUpToPaths_bind hsave fun _ s₁ t₁ hs₁ ht₁ => ?_
  obtain ⟨s', hs', rfl⟩ := perform_eq_ok.1 hs₁
  obtain ⟨t', ht', rfl⟩ := perform_eq_ok.1 ht₁
  have hsolved : ∀ j j', endingUpToPaths (perform (.solve p) (solve p) ⟨s', j⟩) =
      endingUpToPaths (perform (.solve q) (solve q) ⟨t', j'⟩) := by
    intro j j'
    rw [endingUpToPaths_perform, endingUpToPaths_perform]
    exact hsolve s' t' _ (Store.read_write (Opb.save_eq_ok.1 hs'))
      (Store.read_write (Opb.save_eq_ok.1 ht'))
  exact endingUpToPaths_bind (hsolved ..) fun solved s₂ t₂ _ _ => endingUpToPaths_lift _ s₂ t₂

/-- What is computed from the answer may be part of the procedure. -/
theorem pose_bind (solve : Solver) (file : Path) (f : Opb) (finish next : Answer → Checked Answer) :
    (do next (← pose solve file f finish) : Run Answer) =
      pose solve file f fun solved => finish solved >>= next := by
  simp only [pose, bind_assoc, lift_bind]

section Negation
variable {tools : Toolchain} {encoded : Encoded} {e e' : Expression} {q : Query}
  {form form' : LinearForm} {f f' : Opb}

/-- A query that is posed without overflow is the procedure on its file. -/
theorem answer_eq_pose (tools : Toolchain) (h : posed encoded.cnf e q = .ok f) :
    answer tools encoded e q =
      pose tools.solve (encoded.artifacts.query q) f (reported e q) := by
  funext s
  rw [answer_eq, run_lift_bind_of_ok h]
  rfl

/-- Negating before collecting gives the form that negating afterwards gives. -/
theorem queried_neg (he : e.InRange) (hneg : e.neg = .ok e')
    (hmax : queried e .maximize = .ok form) (hmin : queried e' .minimize = .ok form') :
    form = form' := by
  have hnormal := isNormal_queried he hmax
  have hnormal' := isNormal_queried (Expression.inRange_neg he hneg) hmin
  obtain ⟨collected, hcollected, hnegated⟩ := bind_eq_ok.1 hmax
  refine hnormal.eq_of_value hnormal' fun v => ?_
  calc form.value v
    _ = -collected.value v := LinearForm.value_negate hnegated v
    _ = -e.value v := by rw [Expression.value_normalize hcollected]
    _ = e'.value v := (Expression.value_neg hneg v).symm
    _ = form'.value v := (Expression.value_normalize hmin v).symm

/-- The constant and the sign are put back as for the negation, with one more change of sign. -/
theorem reported_neg (hmax : queried e .maximize = .ok form)
    (hmin : queried e' .minimize = .ok form) :
    reported e .maximize = fun solved => reported e' .minimize solved >>= Answer.negated := by
  funext solved
  rw [reported_eq hmax, reported_eq hmin]
  exact congrArg (· >>= Answer.negated) (bind_pure _).symm

/-- The maximum of an objective is asked for, and answered, as the minimum of its negation, negated.
Unless a word overflows before the solver is asked, one text is written to the two files, and the
two runs are one procedure on them. So if the solver goes by the content of its file and both files
can be written or neither, the runs end alike: with one answer or one overflow, or with an error
that may differ in the paths it mentions. -/
theorem maximize_eq_minimize_neg (he : e.InRange) (hneg : e.neg = .ok e')
    (hmax : posed encoded.cnf e .maximize = .ok f) (hmin : posed encoded.cnf e' .minimize = .ok f')
    (hsolve : tools.solve.ByContent (encoded.artifacts.query .maximize)
      (encoded.artifacts.query .minimize)) :
    f.render = f'.render ∧
    (∃ finish,
      maximize tools encoded e = pose tools.solve (encoded.artifacts.query .maximize) f finish ∧
      (do (← minimize tools encoded e').negated : Run Answer) =
        pose tools.solve (encoded.artifacts.query .minimize) f' finish) ∧
    ∀ s t, (s.store.IsWritable (encoded.artifacts.query .maximize) ↔
        t.store.IsWritable (encoded.artifacts.query .minimize)) →
      endingUpToPaths (maximize tools encoded e s) =
        endingUpToPaths ((do (← minimize tools encoded e').negated : Run Answer) t) := by
  have hmax' := answer_eq_pose tools hmax
  have hmin' := answer_eq_pose tools hmin
  rw [posed_eq] at hmax hmin
  obtain ⟨form, hform, hformula⟩ := bind_eq_ok.1 hmax
  obtain ⟨form', hform', hformula'⟩ := bind_eq_ok.1 hmin
  obtain rfl := queried_neg he hneg hform hform'
  obtain rfl : f = f' := Except.ok.inj (hformula.symm.trans hformula')
  have hruns : (do (← minimize tools encoded e').negated : Run Answer) =
      pose tools.solve (encoded.artifacts.query .minimize) f (reported e .maximize) := by
    rw [reported_neg hform hform', ← pose_bind, ← hmin']
    rfl
  refine ⟨rfl, ⟨reported e .maximize, hmax', hruns⟩, fun s t h => ?_⟩
  rw [hruns, show maximize tools encoded e = _ from hmax']
  exact endingUpToPaths_pose hsolve f _ h

/-- `-3 x1 - 2 ~x2 + x1`, the negation of the sample. -/
def sampleNegated : Expression :=
  .raw [⟨-3, x₁.pos⟩, ⟨-2, x₂.negative⟩, ⟨1, x₁.pos⟩]

theorem maximize_eq_minimize_neg_sample : sampleObjective.neg = .ok sampleNegated ∧
    endingUpToPaths (maximize Exhaustive.toolchain sampleEncoded sampleObjective sampleSession) =
      endingUpToPaths ((do (← minimize Exhaustive.toolchain sampleEncoded sampleNegated).negated :
        Run Answer) sampleSession) := by
  have hobjective : sampleObjective.InRange := by
    show ∀ t ∈ [_, _, _], Lit.InRange _
    decide
  have hneg : sampleObjective.neg = .ok sampleNegated := by decide
  obtain ⟨_, _, hruns⟩ := @maximize_eq_minimize_neg Exhaustive.toolchain sampleEncoded _ _ _ _
    hobjective hneg rfl rfl (Exhaustive.solve_byContent _ _)
  refine ⟨hneg, hruns sampleSession sampleSession ?_⟩
  exact iff_of_true (fun _ => ⟨_, rfl⟩) fun _ => ⟨_, rfl⟩

end Negation

end Pipeline

end PseudoBoolean
