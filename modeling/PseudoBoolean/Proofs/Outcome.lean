import PseudoBoolean.Proofs.Journal
import PseudoBoolean.Toolchain.Scripted

/-!
Which runs pass, which fail and which are aborted.

    every step succeeded ──no──▶ aborted
             │
            yes
             │
    every answer as expected ──no──▶ failed, with what differs
             │
            yes ──▶ passed

A run that takes all steps of a plan answers with what was found on the way (`Realizes`), so the
outcome can be read off the steps, and the steps off the outcome.
-/

namespace PseudoBoolean

/-! ### What a query reports -/

/-- Where the answer to a query lies when the solver reports `x` on an objective with a constant: the
form that is minimized is the objective itself or its negation. -/
def Query.moved (q : Query) (offset x : Int) : Int :=
  match q with
  | .minimize => x + offset
  | .maximize => -(x + -offset)

theorem Answer.mapValue_eq_ok {a b : Answer} {f : Int64 → Checked Int64} {g : Int → Int}
    (hf : ∀ x y, f x = .ok y → y.toInt = g x.toInt) (h : a.mapValue f = .ok b) :
    b.status = a.status ∧ b.value.map Int64.toInt = a.value.map fun x => g x.toInt := by
  obtain ⟨value, hvalue, h⟩ := bind_eq_ok.1 h
  obtain rfl := pure_eq_ok.1 h
  refine ⟨rfl, ?_⟩
  cases hx : a.value with
  | none =>
    rw [hx] at hvalue
    obtain rfl := pure_eq_ok.1 hvalue
    rfl
  | some x =>
    rw [hx] at hvalue
    obtain ⟨y, hy, rfl⟩ := map_eq_ok.1 hvalue
    exact congrArg some (hf x y hy)

/-- What is reported has the status that the solver gave and its value, moved. -/
theorem Pipeline.reported_eq_ok {objective : Expression} {q : Query} {solved answer : Answer}
    (h : reported objective q solved = .ok answer) :
    ∃ form, objective.normalize = .ok form ∧ answer.status = solved.status ∧
      answer.value.map Int64.toInt =
        solved.value.map fun x => q.moved form.offset.toInt x.toInt := by
  obtain ⟨form, hform, h⟩ := bind_eq_ok.1 h
  obtain ⟨shifted, hshifted, hsettled⟩ := bind_eq_ok.1 h
  obtain ⟨hstatus, hvalue⟩ :=
    Answer.mapValue_eq_ok (g := (· + form.offset.toInt)) (fun _ _ => Word.add_eq_ok_iff.1) hshifted
  cases q with
  | minimize =>
    obtain rfl := pure_eq_ok.1 hsettled
    exact ⟨form, hform, hstatus, hvalue⟩
  | maximize =>
    obtain ⟨normal, hnormal, hnegated⟩ := bind_eq_ok.1 hform
    have hoffset : form.offset.toInt = -normal.offset.toInt := by
      obtain ⟨terms, _, hnegated⟩ := bind_eq_ok.1 hnegated
      obtain ⟨offset, hneg, hnegated⟩ := bind_eq_ok.1 hnegated
      obtain rfl := pure_eq_ok.1 hnegated
      exact Word.neg_eq_ok_iff.1 hneg
    obtain ⟨hstatus', hvalue'⟩ :=
      Answer.mapValue_eq_ok (g := (- ·)) (fun _ _ => Word.neg_eq_ok_iff.1) hsettled
    refine ⟨normal, hnormal, hstatus'.trans hstatus, ?_⟩
    rw [hoffset] at hvalue
    have hmap : (answer.value.map Int64.toInt) = (shifted.value.map Int64.toInt).map (- ·) := by
      rw [hvalue', Option.map_map]
      rfl
    rw [hmap, hvalue, Option.map_map]
    rfl

/-! ### What differs -/

namespace Asked

/-- Whether a query was answered as expected. -/
def IsExpected (asked : Asked) : Prop :=
  match asked.expected with
  | some v => asked.reported.status = .optimum ∧ asked.reported.value = some v
  | none => asked.reported.status = .unsatisfiable ∧ asked.reported.value = none

/-- Whether a field of the answer is another one than expected. -/
def differs (asked : Asked) : Field → Bool
  | .status => asked.reported.status ≠ (Expectation.ofOption asked.expected).status
  | .value => asked.reported.value ≠ asked.expected

/-- A field of the answer beside the expected one, as text. -/
def mismatch (asked : Asked) (q : Query) : Field → Mismatch
  | .status => ⟨q, .status, (Expectation.ofOption asked.expected).status.text,
      asked.reported.status.text⟩
  | .value => ⟨q, .value, valueText asked.expected, valueText asked.reported.value⟩

theorem value_ofOption (expected : Option Int64) :
    (Expectation.ofOption expected).value = expected := by
  cases expected <;> rfl

/-- A query finds the fields that differ, the status first. -/
theorem found_eq (asked : Asked) (q : Query) :
    asked.found q = ([Field.status, Field.value].filter asked.differs).map (asked.mismatch q) := by
  simp only [found, mismatches, value_ofOption, List.filter_cons, List.filter_nil, differs]
  by_cases hstatus : asked.reported.status = (Expectation.ofOption asked.expected).status <;>
    by_cases hvalue : asked.reported.value = asked.expected <;>
    simp [hstatus, hvalue, mismatch]

theorem found_eq_nil {asked : Asked} {q : Query} : asked.found q = [] ↔ asked.IsExpected := by
  rw [found_eq, List.map_eq_nil_iff, List.filter_eq_nil_iff]
  cases h : asked.expected <;> simp [differs, IsExpected, h, Expectation.ofOption, Expectation.status]

end Asked

/-- The fields of the answers of an instance that differ, in the order of its queries. -/
def Instance.differing (i : Instance) (g : Given) : List (Query × Field) :=
  (i.queries.flatMap fun q => [(q, .status), (q, .value)]).filter fun (q, field) =>
    (g.asked q).differs field

/-- An instance finds what differs. -/
theorem Instance.found_eq (i : Instance) (g : Given) :
    i.found g = (i.differing g).map fun (q, field) => (g.asked q).mismatch q field := by
  rw [found, differing]
  induction i.queries with
  | nil => rfl
  | cons q queries ih =>
    have hfound : (g.asked q).found q = ([(q, Field.status), (q, Field.value)].filter
        fun (q, field) => (g.asked q).differs field).map
          fun (q, field) => (g.asked q).mismatch q field := by
      rw [Asked.found_eq]
      cases hs : (g.asked q).differs .status <;> cases hv : (g.asked q).differs .value <;>
        simp [hs, hv]
    rw [List.map_cons, List.flatten_cons, ih, hfound, List.flatMap_cons, List.filter_append,
      List.map_append]

theorem Instance.found_eq_nil {i : Instance} {g : Given} :
    i.found g = [] ↔ ∀ q ∈ i.queries, (g.asked q).IsExpected := by
  simp [found, List.flatten_eq_nil_iff, Asked.found_eq_nil]

/-! ### Plans that are performed -/

section Realizes
variable (tools : Toolchain) (strategy : Strategy) (a : Artifacts) (i : Instance)

theorem realizes_encode (rows : List Row) :
    Realizes (fun c : EncoderOutput × Cnf => openingSteps tools strategy a rows c.1 c.2)
      (fun c => ⟨a, c.2⟩) (Pipeline.encode tools a strategy rows) := by
  have hplan := Realizes.bind (.perform (.makeDir a.dir) (Action.makeDir a.dir)) fun _ =>
    .bind (.perform (.write a.source) ((Opb.ofRows rows).save a.source)) fun _ =>
    .bind (.perform (.encode a.source) (tools.encode a.source strategy)) fun output =>
    .bind (.perform (.check a.source output.proof) (tools.check a.source output.proof)) fun _ =>
    .bind (.perform (.load output.cnf) (Cnf.load output.cnf)) fun cnf =>
    .pure (Encoded.mk a cnf)
  rintro ⟨output, cnf⟩ s s' h
  exact hplan ⟨(), (), output, (), cnf, ()⟩ s s' h

theorem realizes_checkQuery (encoded : Encoded) (q : Query) :
    Realizes (askingSteps tools encoded.artifacts i encoded.cnf q) (Asked.found q)
      (checkQuery tools encoded i q) := by
  have hplan := Realizes.bind (.compute (Pipeline.posed encoded.cnf i.objective q)) fun f =>
    .bind (.perform (.write (encoded.artifacts.query q)) (f.save (encoded.artifacts.query q)))
      fun _ =>
    .bind (.perform (.solve (encoded.artifacts.query q)) (tools.solve (encoded.artifacts.query q)))
      fun solved =>
    .bind (.compute (Pipeline.reported i.objective q solved)) fun answer =>
    .bind (.compute (i.expected q)) fun expected =>
    .pure (mismatches q (.ofOption expected) answer)
  rintro ⟨formula, solved, reported, expected⟩ s s' h
  simp only [checkQuery]
  rw [Pipeline.answer_eq]
  simp only [bind_assoc]
  exact hplan ⟨formula, (), solved, reported, expected, ()⟩ s s' h

/-- An instance whose plan can be performed is answered with what its queries find. -/
theorem checkInstance_of_performed {vars : Nat} (hvars : i.oracleVars = .ok vars)
    (hle : vars ≤ maxEnumerated) {g : Given} {s s' : Session}
    (h : Performed (i.plan tools strategy a g) s s') :
    checkInstance tools a strategy i s = .ok (i.found g) s' := by
  have hplan := Realizes.bind (.compute i.rows) fun rows =>
    .bind (realizes_encode tools strategy a rows) fun encoded =>
    .bind (.mapM (realizes_checkQuery tools i encoded) i.queries) fun results =>
    .pure results.flatten
  have heq : i.plan tools strategy a g = [.compute i.rows g.rows] ++
      (openingSteps tools strategy a g.rows g.output g.cnf ++
        ((i.queries.flatMap fun q => askingSteps tools a i g.cnf q (g.asked q)) ++ [])) := by
    rw [List.append_nil]
    rfl
  rw [checkInstance_of_le hvars hle]
  rw [heq] at h
  exact hplan ⟨g.rows, ⟨g.output, g.cnf⟩, g.asked, ()⟩ s s' h

end Realizes

/-! ### The verdict -/

section Verdict
variable {tools : Toolchain} {root : Path} {strategy : Strategy} {i : Instance} {a : Artifacts}
  {vars : Nat} {s : Session}

theorem outcome_of_performed (hname : Artifacts.ofName root i.name = .ok a)
    (hvars : i.oracleVars = .ok vars) (hle : vars ≤ maxEnumerated) {g : Given} {s' : Session}
    (h : Performed (i.plan tools strategy a g) s s') :
    (runInstance tools root strategy i s).1.outcome =
      if i.found g = [] then .passed else .failed (i.found g) := by
  rw [runInstance_of_ok hname, checkInstance_of_performed tools strategy a i hvars hle h,
    Outcome.ofRun_ok]

theorem reported_of_performed {g : Given} {s' : Session}
    (h : Performed (i.plan tools strategy a g) s s') {q : Query} (hq : q ∈ i.queries) :
    Pipeline.reported i.objective q (g.asked q).solved = .ok (g.asked q).reported := by
  have hstep : .compute (Pipeline.reported i.objective q (g.asked q).solved) (g.asked q).reported ∈
      askingSteps tools a i g.cnf q (g.asked q) := by
    simp [askingSteps]
  have hmem : .compute (Pipeline.reported i.objective q (g.asked q).solved) (g.asked q).reported ∈
      i.plan tools strategy a g := by
    rw [Instance.plan]
    exact List.mem_append_right _ (List.mem_flatMap.2 ⟨q, hq, hstep⟩)
  obtain ⟨_, _, hend⟩ := h.exists_ends _ hmem
  exact hend.1

/-- A run whose plan cannot be performed is aborted, and no other. -/
theorem performed_or_aborted (hname : Artifacts.ofName root i.name = .ok a)
    (hvars : i.oracleVars = .ok vars) (hle : vars ≤ maxEnumerated) :
    (∃ g s', Performed (i.plan tools strategy a g) s s') ∨
      ∃ e, (runInstance tools root strategy i s).1.outcome = .aborted e := by
  obtain ⟨g, hran⟩ := @ran_checkInstance tools strategy a i vars hvars hle s
  rw [runInstance_of_ok hname]
  rcases hran with ⟨stop, houtcome, _⟩ | ⟨_, hdone⟩
  · exact Or.inr ⟨stop.report, houtcome⟩
  · exact Or.inl ⟨g, _, hdone⟩

theorem passed_iff (hname : Artifacts.ofName root i.name = .ok a) (hvars : i.oracleVars = .ok vars)
    (hle : vars ≤ maxEnumerated) : (runInstance tools root strategy i s).1.outcome = .passed ↔
      ∃ g s', Performed (i.plan tools strategy a g) s s' ∧
        ∀ q ∈ i.queries, (g.asked q).IsExpected := by
  constructor
  · intro hpassed
    rcases performed_or_aborted hname hvars hle with ⟨g, s', hdone⟩ | ⟨e, haborted⟩
    · refine ⟨g, s', hdone, Instance.found_eq_nil.1 ?_⟩
      by_contra hfound
      rw [outcome_of_performed hname hvars hle hdone, if_neg hfound] at hpassed
      exact absurd hpassed nofun
    · rw [haborted] at hpassed
      exact absurd hpassed nofun
  · rintro ⟨g, s', hdone, hexpected⟩
    rw [outcome_of_performed hname hvars hle hdone, if_pos (Instance.found_eq_nil.2 hexpected)]

theorem failed_iff (hname : Artifacts.ofName root i.name = .ok a) (hvars : i.oracleVars = .ok vars)
    (hle : vars ≤ maxEnumerated) (found : List Mismatch) :
    (runInstance tools root strategy i s).1.outcome = .failed found ↔
      ∃ g s', Performed (i.plan tools strategy a g) s s' ∧ found ≠ [] ∧ found = i.found g := by
  constructor
  · intro hfailed
    rcases performed_or_aborted hname hvars hle with ⟨g, s', hdone⟩ | ⟨e, haborted⟩
    · rw [outcome_of_performed hname hvars hle hdone] at hfailed
      split at hfailed
      · exact absurd hfailed nofun
      · next hfound =>
        obtain rfl := Outcome.failed.inj hfailed
        exact ⟨g, s', hdone, hfound, rfl⟩
    · rw [haborted] at hfailed
      exact absurd hfailed nofun
  · rintro ⟨g, s', hdone, hfound, rfl⟩
    rw [outcome_of_performed hname hvars hle hdone, if_neg hfound]

theorem aborted_iff (hname : Artifacts.ofName root i.name = .ok a) (hvars : i.oracleVars = .ok vars)
    (hle : vars ≤ maxEnumerated) :
    (∃ e, (runInstance tools root strategy i s).1.outcome = .aborted e) ↔
      ¬ ∃ g s', Performed (i.plan tools strategy a g) s s' := by
  constructor
  · rintro ⟨e, haborted⟩ ⟨g, s', hdone⟩
    rw [outcome_of_performed hname hvars hle hdone] at haborted
    split at haborted <;> exact absurd haborted nofun
  · intro hnone
    exact (performed_or_aborted hname hvars hle).resolve_left hnone

/-- An instance that is not refused passes exactly if every step of it succeeds and every answer is
the expected one. It fails exactly if every step succeeds and some answer differs, with what differs
in the order of the queries and the status first; it is aborted otherwise. What is reported is the
solver's value, moved by the constant of the objective. -/
theorem runInstance_verdict (tools : Toolchain) (strategy : Strategy) (s : Session)
    (hname : Artifacts.ofName root i.name = .ok a) (hvars : i.oracleVars = .ok vars)
    (hle : vars ≤ 24) :
    ((runInstance tools root strategy i s).1.outcome = .passed ↔
      ∃ g s', Performed (i.plan tools strategy a g) s s' ∧
        ∀ q ∈ i.queries, (g.asked q).IsExpected) ∧
    (∀ found, (runInstance tools root strategy i s).1.outcome = .failed found ↔
      ∃ g s', Performed (i.plan tools strategy a g) s s' ∧ found ≠ [] ∧
        found = (i.differing g).map fun (q, field) => (g.asked q).mismatch q field) ∧
    ((∃ e, (runInstance tools root strategy i s).1.outcome = .aborted e) ↔
      ¬ ∃ g s', Performed (i.plan tools strategy a g) s s') ∧
    ∀ g s', Performed (i.plan tools strategy a g) s s' → ∀ q ∈ i.queries,
      ∃ form, i.objective.normalize = .ok form ∧
        (g.asked q).reported.status = (g.asked q).solved.status ∧
        (g.asked q).reported.value.map Int64.toInt =
          (g.asked q).solved.value.map fun x => q.moved form.offset.toInt x.toInt := by
  refine ⟨passed_iff hname hvars hle, fun found => ?_, aborted_iff hname hvars hle, ?_⟩
  · simp only [← Instance.found_eq]
    exact failed_iff hname hvars hle found
  · intro g s' hdone q hq
    exact Pipeline.reported_eq_ok (reported_of_performed hdone hq)

end Verdict

/-- `x1 + 2 x2 = 2`. -/
def equalityInstance : Instance where
  name := "e"
  coeffs := [1, 2]
  vars := [x₁, x₂]
  degree := 2
  relation := .eq
  sideRows := []
  paired := rfl

/-- Exhaustive tools, but a solver that reports the same value on every query and claims no
optimality. -/
def hesitantTools : Toolchain where
  encode := Exhaustive.encode
  check := Exhaustive.check
  solve := Scripted.cannedSolver "s SATISFIABLE\no 2\n"

/-- What differs on that instance with those tools: both statuses, and the value that is negated. -/
def hesitantMismatches : List Mismatch :=
  [⟨.minimize, .status, "OPTIMUM", "SATISFIABLE"⟩, ⟨.maximize, .status, "OPTIMUM", "SATISFIABLE"⟩,
    ⟨.maximize, .value, "2", "-2"⟩]

theorem runInstance_verdict_sample :
    Artifacts.ofName ⟨"r"⟩ equalityInstance.name = .ok ⟨⟨"r/e"⟩, "e"⟩ ∧
    equalityInstance.oracleVars = .ok 2 ∧
    ∃ g s', Performed (equalityInstance.plan hesitantTools .standard ⟨⟨"r/e"⟩, "e"⟩ g)
        ⟨.empty, []⟩ s' ∧ hesitantMismatches ≠ [] ∧ hesitantMismatches =
        (equalityInstance.differing g).map fun (q, field) => (g.asked q).mismatch q field := by
  have hname : Artifacts.ofName ⟨"r"⟩ equalityInstance.name = .ok ⟨⟨"r/e"⟩, "e"⟩ := by
    decide +kernel
  have hvars : equalityInstance.oracleVars = .ok 2 := by decide +kernel
  obtain ⟨_, hfailed, _⟩ :=
    runInstance_verdict hesitantTools .standard ⟨.empty, []⟩ hname hvars (by decide)
  exact ⟨hname, hvars, (hfailed hesitantMismatches).1 (by decide +kernel)⟩

end PseudoBoolean
