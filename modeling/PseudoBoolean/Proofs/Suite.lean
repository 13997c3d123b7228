import PseudoBoolean.Proofs.Independence
import PseudoBoolean.Toolchain.Scripted

/-!
What a suite reports.

Whatever the number of workers and whatever their order, a suite that is over has run every instance
once, and its reports are those of the runs, in the order of the instances. Instances that keep apart
report what each of them reports on its own, so then the schedule makes no difference at all:

    schedule ──▶ order of the runs ──▶ files that a run finds ──▶ report
                                             ╳ apart: the same as at first

Two names lead out of the directory that an instance would have to itself: under `.` its files stand
in the root, under `..` above it. There the file of one instance may be in the place of another's
directory, and the first of the two to run keeps the other from running (`meeting_reports`).
-/

namespace PseudoBoolean

/-! ### Summaries -/

namespace Summary

theorem total_add (s : Summary) (o : Outcome) :
    (s.add o).passed + (s.add o).failed + (s.add o).aborted =
      s.passed + s.failed + s.aborted + 1 := by
  cases o <;> simp only [add] <;> omega

theorem isSuccess_add (s : Summary) (r : Report) :
    (s.add r.outcome).isSuccess = (s.isSuccess && r.isPassed) := by
  cases h : r.outcome <;> simp [add, isSuccess, Report.isPassed, h]

/-- Every report is counted once, and a summary is a success exactly if every report has passed. -/
theorem ofReports_spec (reports : List Report) :
    (ofReports reports).passed + (ofReports reports).failed + (ofReports reports).aborted =
        reports.length ∧
      ((ofReports reports).isSuccess = true ↔ ∀ r ∈ reports, r.isPassed = true) := by
  have hfold : ∀ (reports : List Report) (s : Summary),
      let t := reports.foldl (fun s r => s.add r.outcome) s
      t.passed + t.failed + t.aborted = s.passed + s.failed + s.aborted + reports.length ∧
        t.isSuccess = (s.isSuccess && reports.all Report.isPassed) := by
    intro reports
    induction reports with
    | nil => exact fun s => ⟨rfl, (Bool.and_true _).symm⟩
    | cons r reports ih =>
      intro s
      obtain ⟨htotal, hsuccess⟩ := ih (s.add r.outcome)
      rw [total_add] at htotal
      rw [isSuccess_add, Bool.and_assoc] at hsuccess
      refine ⟨htotal.trans ?_, hsuccess⟩
      rw [List.length_cons]
      omega
  obtain ⟨htotal, hsuccess⟩ := hfold reports ⟨0, 0, 0⟩
  refine ⟨htotal.trans (Nat.zero_add _), ?_⟩
  rw [← List.all_eq_true]
  exact iff_of_eq (congrArg (· = true) hsuccess)

end Summary

/-! ### Schedules -/

/-- The pool of a suite after the steps of a schedule. -/
def suitePool (tools : Toolchain) (config : HarnessConfig) (strategy : Strategy)
    (instances : List Instance) (schedule : List Nat) (s : Session) : Pool :=
  Pool.runSchedule (runInstance tools config.generationDir strategy) instances schedule
    (Pool.start (Pool.workerCount config.jobs instances.length) s)

/-- Whether the reports of a pool are those of some runs, one of each instance, each report in the
place of its instance. -/
structure Pool.Reports (run : Instance → Session → Report × Session) (instances : List Instance)
    (s : Session) (p : Pool) (ran : List (Nat × Report)) : Prop where
  inTurn : Ran run instances s ran p.session
  once : (ran.map Prod.fst).Perm (List.range instances.length)
  length : (p.reports instances).length = instances.length
  places : ∀ k r, (p.reports instances)[k]? = some r ↔ (k, r) ∈ ran

section Suite
variable {tools : Toolchain} {config : HarnessConfig} {strategy : Strategy}
  {instances : List Instance} {schedule : List Nat} {s : Session}

/-- A schedule that ends every worker has run every instance once. -/
theorem exists_reports (h : (suitePool tools config strategy instances schedule s).IsDone) :
    ∃ ran, (suitePool tools config strategy instances schedule s).Reports
      (runInstance tools config.generationDir strategy) instances s ran := by
  obtain ⟨ran, hkeeps⟩ := (Pool.keeps_start (runInstance tools config.generationDir strategy)
    instances (Pool.workerCount config.jobs instances.length) s).runSchedule schedule
  have hsize : 0 < (suitePool tools config strategy instances schedule s).workers.size := by
    have hone : 1 ≤ Pool.workerCount config.jobs instances.length := Nat.le_max_left ..
    rw [suitePool, Pool.size_runSchedule, Pool.start, Array.size_replicate]
    exact hone
  obtain ⟨honce, hsent⟩ := hkeeps.of_isDone h hsize
  obtain ⟨hlength, hplaces⟩ := Pool.reports_of_perm honce hsent
  exact ⟨ran, hkeeps.inTurn, honce, hlength, hplaces⟩

/-- Instances that keep apart report what each reports at first. -/
theorem Pool.Reports.eq_map {p : Pool} {root : Path} {ran : List (Nat × Report)}
    (h : p.Reports (runInstance tools root strategy) instances s ran)
    (hapart : KeepApart tools root strategy instances) :
    p.reports instances = instances.map fun i => (runInstance tools root strategy i s).1 := by
  have hnodup : (ran.map Prod.fst).Nodup := h.once.nodup_iff.2 List.nodup_range
  refine List.ext_getElem (h.length.trans (List.length_map _).symm) fun k hk hk' => ?_
  have hlt : k < instances.length := h.length ▸ hk
  have hmem := (h.places k _).1 (List.getElem?_eq_getElem hk)
  rw [List.getElem_map]
  exact h.inTurn.report_eq hapart hnodup hmem (List.getElem?_eq_getElem hlt)

/-- The schedule of a suite is one of those that end every worker. -/
theorem isDone_roundRobin : (suitePool tools config strategy instances (Pool.roundRobin
    (Pool.workerCount config.jobs instances.length) instances.length) s).IsDone :=
  Pool.isDone_of_count s fun _ hworker => (Pool.count_roundRobin _ hworker).ge

end Suite

/-- What a suite reports, on any number of workers and in any order of their steps: workers that get
enough turns end; when they have, every instance was run once and its report stands in its place; and
if the instances keep apart, each report is the one that its instance gives at first. -/
theorem runSuite_reports (tools : Toolchain) (config : HarnessConfig) (strategy : Strategy)
    (instances : List Instance) (s : Session) :
    (∃ schedule, (suitePool tools config strategy instances schedule s).IsDone ∧
      runSuite tools config strategy instances s =
        ((suitePool tools config strategy instances schedule s).reports instances,
          (suitePool tools config strategy instances schedule s).session)) ∧
    ∀ schedule, let pool := suitePool tools config strategy instances schedule s
      ((∀ worker < Pool.workerCount config.jobs instances.length,
        3 * instances.length + 1 ≤ schedule.count worker) → pool.IsDone) ∧
      (pool.IsDone →
        (∃ ran, pool.Reports (runInstance tools config.generationDir strategy) instances s ran) ∧
        (Summary.ofReports (pool.reports instances)).passed +
            (Summary.ofReports (pool.reports instances)).failed +
            (Summary.ofReports (pool.reports instances)).aborted = instances.length ∧
        ((Summary.ofReports (pool.reports instances)).isSuccess = true ↔
          ∀ r ∈ pool.reports instances, r.isPassed = true) ∧
        (KeepApart tools config.generationDir strategy instances → pool.reports instances =
          instances.map fun i => (runInstance tools config.generationDir strategy i s).1)) := by
  refine ⟨⟨_, isDone_roundRobin, rfl⟩, fun schedule => ?_⟩
  refine ⟨Pool.isDone_of_count s, fun hdone => ?_⟩
  obtain ⟨ran, hreports⟩ := exists_reports hdone
  obtain ⟨htotal, hsuccess⟩ := Summary.ofReports_spec
    ((suitePool tools config strategy instances schedule s).reports instances)
  exact ⟨⟨ran, hreports⟩, htotal.trans hreports.length, hsuccess, hreports.eq_map⟩

/-- With the exhaustive tools, names that differ and lead to directories of their own are enough. -/
theorem KeepApart.exhaustive {root : Path} {strategy : Strategy} {instances : List Instance}
    (hdistinct : (instances.map Instance.name).Nodup)
    (hproper : ∀ i ∈ instances, i.name ≠ "." ∧ i.name ≠ "..") :
    KeepApart Exhaustive.toolchain root strategy instances where
  distinct := hdistinct
  proper := hproper
  isLocal i hi a ha := by
    have hdot : a.testName ≠ "." := by
      rw [Artifacts.eq_of_ofName ha]
      exact (hproper i hi).1
    exact Exhaustive.isLocal_toolchain (Artifacts.isValid_of_ofName ha) hdot strategy

/-- `x1 >= 1`. -/
def unitInstance (name : String) : Instance where
  name := name
  coeffs := [1]
  vars := [x₁]
  degree := 1
  relation := .geq
  sideRows := []
  paired := rfl

/-- Two workers below `g`. -/
def pairConfig : HarnessConfig := ⟨⟨"g"⟩, 2⟩

/-- The second instance is run first. -/
theorem runSuite_reports_sample :
    let instances := [unitInstance "a", unitInstance "b"]
    let pool := suitePool Exhaustive.toolchain pairConfig .standard instances
      (0 :: List.replicate 7 1 ++ List.replicate 7 0) ⟨.empty, []⟩
    KeepApart Exhaustive.toolchain pairConfig.generationDir .standard instances ∧ pool.IsDone ∧
      pool.reports instances = instances.map (fun i =>
        (runInstance Exhaustive.toolchain pairConfig.generationDir .standard i ⟨.empty, []⟩).1) ∧
      (pool.reports instances).map Report.outcome = [.passed, .passed] := by
  intro instances pool
  have hapart : KeepApart Exhaustive.toolchain pairConfig.generationDir .standard instances :=
    .exhaustive (by decide) (by decide)
  obtain ⟨_, hschedules⟩ :=
    runSuite_reports Exhaustive.toolchain pairConfig .standard instances ⟨.empty, []⟩
  obtain ⟨hturns, hreports⟩ := hschedules (0 :: List.replicate 7 1 ++ List.replicate 7 0)
  have hdone : pool.IsDone := hturns (by decide)
  obtain ⟨_, _, _, heq⟩ := hreports hdone
  refine ⟨hapart, hdone, heq hapart, ?_⟩
  rw [heq hapart]
  decide +kernel

/-- Tools that touch no file: the encoder fails. -/
def brokenTools : Toolchain where
  encode := Scripted.failingEncoder (some 1)
  check := Scripted.trustingChecker
  solve := Scripted.failingSolver none

theorem isLocal_brokenTools (strategy : Strategy) (a : Artifacts) :
    brokenTools.IsLocal strategy a where
  encode := Action.isLocal_fail _
  load _ _ _ h := absurd h nofun
  check _ _ _ h := absurd h nofun
  solve _ := Action.isLocal_fail _

/-- An instance in the root and one whose directory stands where the source of the first does. -/
def meetingInstances : List Instance := [unitInstance ".", unitInstance "..opb"]

/-- Their pool after a schedule, where the root stands already. -/
def meetingPool (schedule : List Nat) : Pool :=
  suitePool brokenTools pairConfig .standard meetingInstances schedule
    ⟨⟨[(["g".toList], .directory)]⟩, []⟩

/-- Instances that meet report what the schedule makes of them, though their names differ and their
tools touch no file: the one that runs later cannot write its source or make its directory. -/
theorem meeting_reports :
    (meetingInstances.map Instance.name).Nodup ∧
    (∀ strategy a, brokenTools.IsLocal strategy a) ∧
    ∃ first second, (meetingPool first).IsDone ∧ (meetingPool second).IsDone ∧
      ((meetingPool first).reports meetingInstances).map Report.outcome =
        [.aborted (.encoderFailure "stub" ⟨"g/./..opb"⟩ (some 1)), .aborted (.io ⟨"g/..opb"⟩)] ∧
      ((meetingPool second).reports meetingInstances).map Report.outcome =
        [.aborted (.io ⟨"g/./..opb"⟩),
          .aborted (.encoderFailure "stub" ⟨"g/..opb/..opb.opb"⟩ (some 1))] := by
  refine ⟨by decide, isLocal_brokenTools, List.replicate 7 0 ++ List.replicate 7 1,
    0 :: List.replicate 7 1 ++ List.replicate 7 0, ?_, ?_, by decide +kernel, by decide +kernel⟩
  · exact Pool.isDone_of_count _ (by decide)
  · exact Pool.isDone_of_count _ (by decide)

end PseudoBoolean
