import PseudoBoolean.Proofs.Expected
import PseudoBoolean.Proofs.Outcome

/-!
Tools that run programs: the first step that fails is what is reported.

    makeDir ─▶ write ─▶ encoder ─▶ checker ─▶ load ─▶ write ─▶ solver ─▶ write ─▶ solver
                          │ code     │ code     │ text            │ code, answer
                          ▼          ▼          ▼                 ▼
                   encoderFailure  verification-  io, parse     solverFailure, parse
                                   Failure

The trials of an instance are its steps as they look from outside: how each program ended, and what
it left. They are tried from the left until one fails. Whatever the programs do, a run without
overflow is aborted with the error of the first trial that fails, and with no other; it is judged by
its answers if and only if none fails.
-/

namespace PseudoBoolean

/-! ### Trials -/

/-- The files, and the clauses that were loaded. -/
structure Scene where
  store : Store
  loaded : Option Cnf

/-- What comes of running a program: how it ended, if it could be started, and the files. -/
def Programs.tried (programs : Programs) (program : Path) (args : List String) (s : Store) :
    Option Ended × Store :=
  if (program.text :: args).all isArgument then programs program args s else (none, s)

/-- A step of an instance: one of the pipeline's own on a directory or a file, a program and what its
end is worth, or the reading of the clauses. -/
inductive Trial where
  | own (target : Path) (does : Scene → Option Store)
  | run (program : Path) (args : List String) (verdict : Ended → Option PipelineError)
  | load (file : Path)

/-- The error of a trial, if it fails, and what it leaves. -/
def Trial.result (programs : Programs) : Trial → Scene → Option PipelineError × Scene
  | own target does, c =>
    match does c with
    | some store => (none, { c with store })
    | none => (some (.io target), c)
  | run program args verdict, c =>
    match programs.tried program args c.store with
    | (some ended, store) => (verdict ended, { c with store })
    | (none, store) => (some (.launch program.text), { c with store })
  | load file, c =>
    match c.store.text? file with
    | none => (some (.io file), c)
    | some text =>
      match Cnf.parse text with
      | .ok cnf => (none, { c with loaded := some cnf })
      | .error refusal => (some (.parse file refusal), c)

/-- The error of the first trial that fails, if one does. -/
def firstError (programs : Programs) : List Trial → Scene → Option PipelineError
  | [], _ => none
  | trial :: trials, c =>
    match trial.result programs c with
    | (some e, _) => some e
    | (none, c) => firstError programs trials c

namespace ToolchainConfig
variable (config : ToolchainConfig)

/-- An encoder succeeds with one exit code. -/
def encoderVerdict (source : Path) (ended : Ended) : Option PipelineError :=
  if ended.code = some config.encoderSuccess then none
  else some (.encoderFailure config.encoder.text source ended.code)

/-- A checker accepts with exit code zero. -/
def checkerVerdict (source proof : Path) (ended : Ended) : Option PipelineError :=
  if ended.code = some 0 then none else some (.verificationFailure source proof ended.lastWords)

/-- A solver ends with one of two exit codes and prints an answer. -/
def solverVerdict (query : Path) (ended : Ended) : Option PipelineError :=
  if ended.code.any config.solverCodes.isTerminal then
    match Answer.parse (Utf8.decodeLossy ended.stdout) with
    | .ok _ => none
    | .error refusal => some (.parse query refusal)
  else some (.solverFailure config.solver.text query ended.code)

end ToolchainConfig

section Trials
variable (config : ToolchainConfig) (strategy : Strategy) (a : Artifacts) (i : Instance)

/-- The trials up to the clauses. -/
def openingTrials (rows : List Row) : List Trial :=
  [.own a.dir fun c => c.store.makeDir a.dir,
    .own a.source fun c => c.store.write a.source (Opb.ofRows rows).render.toUTF8,
    .run config.encoder (Programs.encoderArgs a.source strategy) (config.encoderVerdict a.source),
    .run config.checker [a.source.text, (EncoderOutput.beside a.source).proof.text]
      (ToolchainConfig.checkerVerdict a.source (EncoderOutput.beside a.source).proof),
    .load (EncoderOutput.beside a.source).cnf]

/-- The trials of a query: its formula over the loaded clauses is written, and solved. -/
def queryTrials (q : Query) : List Trial :=
  [.own (a.query q) fun c => do
      let f ← (Pipeline.posed (← c.loaded) i.objective q).toOption
      c.store.write (a.query q) f.render.toUTF8,
    .run config.solver [(a.query q).text] (config.solverVerdict (a.query q))]

/-- The trials of an instance. -/
def Instance.trials (rows : List Row) : List Trial :=
  openingTrials config strategy a rows ++ i.queries.flatMap (queryTrials config a i)

end Trials

/-! ### Trials and actions -/

/-- Whether a trial tells how an action ends, on all files: with a value, which decides what is loaded
from then on, or with the error of the trial. -/
structure Trial.Tells {α : Type} (programs : Programs) (trial : Trial) (x : Action α)
    (loaded : Option Cnf) (next : α → Option Cnf) : Prop where
  ok {s store v} : x s = .ok v store →
    trial.result programs ⟨s, loaded⟩ = (none, ⟨store, next v⟩)
  error {s store stop} : x s = .error stop store →
    ∃ e store', stop = .error e ∧ trial.result programs ⟨s, loaded⟩ = (some e, ⟨store', loaded⟩)

section Tells
variable {α : Type} {programs : Programs} {config : ToolchainConfig} {loaded : Option Cnf}

theorem Trial.tells_makeDir (p : Path) : (Trial.own p fun c => c.store.makeDir p).Tells programs
    (Action.makeDir p) loaded fun _ => loaded where
  ok {s store v} h := by
    have hmake := Action.makeDir_eq_ok.1 h
    simp only [result, hmake]
  error {s store stop} h := by
    obtain ⟨hmake, rfl, rfl⟩ := Action.makeDir_eq_error.1 h
    refine ⟨.io p, s, rfl, ?_⟩
    simp only [result, hmake]

theorem Trial.tells_write {p : Path} {text : String} {does : Scene → Option Store}
    (hdoes : ∀ s, does ⟨s, loaded⟩ = s.write p text.toUTF8) :
    (Trial.own p does).Tells programs (Action.writeText p text) loaded fun _ => loaded where
  ok {s store v} h := by
    have hwrite := Action.writeText_eq_ok.1 h
    simp only [result, hdoes, hwrite]
  error {s store stop} h := by
    obtain ⟨hwrite, rfl, rfl⟩ := Action.writeFile_eq_error.1 h
    refine ⟨.io p, s, rfl, ?_⟩
    simp only [result, hdoes, hwrite]

theorem Programs.launch_eq_ok {program : Path} {args : List String} {s store : Store}
    {ended : Ended} : programs.launch program args s = .ok ended store ↔
      programs.tried program args s = (some ended, store) := by
  simp only [launch, tried]
  split
  · rcases programs program args s with ⟨_ | ended', store'⟩ <;> simp
  · simp

theorem Programs.launch_eq_error {program : Path} {args : List String} {s store : Store}
    {stop : Stop} : programs.launch program args s = .error stop store ↔
      stop = .error (.launch program.text) ∧ programs.tried program args s = (none, store) := by
  simp only [launch, tried]
  split
  · rcases programs program args s with ⟨_ | ended', store'⟩ <;> simp [eq_comm]
  · simp [eq_comm]

/-- A program is started, and then judged by how it ended. -/
theorem Trial.tells_launch {program : Path} {args : List String}
    {verdict : Ended → Option PipelineError} {judge : Ended → Action α}
    (hjudge : ∀ ended s, (verdict ended = none ∧ ∃ v, judge ended s = .ok v s) ∨
      ∃ e, verdict ended = some e ∧ judge ended s = .error (.error e) s) :
    (Trial.run program args verdict).Tells programs (programs.launch program args >>= judge) loaded
      fun _ => loaded where
  ok {s store v} h := by
    obtain ⟨ended, s₁, hlaunch, hend⟩ := run_bind_eq_ok.1 h
    have htried := Programs.launch_eq_ok.1 hlaunch
    rcases hjudge ended s₁ with ⟨hverdict, w, hw⟩ | ⟨e, _, he⟩
    · obtain ⟨-, rfl⟩ := EStateM.Result.ok.inj (hw.symm.trans hend)
      simp only [result, htried, hverdict]
    · exact nomatch he.symm.trans hend
  error {s store stop} h := by
    rcases run_bind_eq_error.1 h with hlaunch | ⟨ended, s₁, hlaunch, hend⟩
    · obtain ⟨rfl, htried⟩ := Programs.launch_eq_error.1 hlaunch
      refine ⟨.launch program.text, store, rfl, ?_⟩
      simp only [result, htried]
    · have htried := Programs.launch_eq_ok.1 hlaunch
      rcases hjudge ended s₁ with ⟨_, w, hw⟩ | ⟨e, hverdict, he⟩
      · exact nomatch hw.symm.trans hend
      · obtain ⟨rfl, rfl⟩ := EStateM.Result.error.inj (he.symm.trans hend)
        refine ⟨e, s₁, rfl, ?_⟩
        simp only [result, htried, hverdict]

theorem Trial.tells_encode (source : Path) (strategy : Strategy) :
    (Trial.run config.encoder (Programs.encoderArgs source strategy)
      (config.encoderVerdict source)).Tells programs
        ((programs.toolchain config).encode source strategy) loaded fun _ => loaded := by
  refine tells_launch fun ended s => ?_
  by_cases hcode : ended.code = some config.encoderSuccess
  · exact Or.inl ⟨if_pos hcode, _, congrFun (if_pos hcode) s⟩
  · exact Or.inr ⟨_, if_neg hcode, congrFun (if_neg hcode) s⟩

theorem Trial.tells_check (source proof : Path) :
    (Trial.run config.checker [source.text, proof.text]
      (ToolchainConfig.checkerVerdict source proof)).Tells programs
        ((programs.toolchain config).check source proof) loaded fun _ => loaded := by
  refine tells_launch fun ended s => ?_
  by_cases hcode : ended.code = some 0
  · exact Or.inl ⟨if_pos hcode, _, congrFun (if_pos hcode) s⟩
  · exact Or.inr ⟨_, if_neg hcode, congrFun (if_neg hcode) s⟩

theorem Trial.tells_solve (query : Path) :
    (Trial.run config.solver [query.text] (config.solverVerdict query)).Tells programs
      ((programs.toolchain config).solve query) loaded fun _ => loaded := by
  refine tells_launch fun ended s => ?_
  simp only [ToolchainConfig.solverVerdict]
  by_cases hcode : ended.code.any config.solverCodes.isTerminal = true
  · rw [if_pos hcode, if_pos hcode]
    cases Answer.parse (Utf8.decodeLossy ended.stdout) with
    | ok answer => exact Or.inl ⟨rfl, answer, rfl⟩
    | error refusal => exact Or.inr ⟨_, rfl, rfl⟩
  · exact Or.inr ⟨_, if_neg hcode, congrFun (if_neg hcode) s⟩

theorem Trial.tells_load (file : Path) :
    (Trial.load file).Tells programs (Cnf.load file) loaded some where
  ok {s store cnf} h := by
    obtain ⟨text, htext, hparse, rfl⟩ := Cnf.load_eq_ok.1 h
    simp only [result, htext, hparse]
  error {s store stop} h := by
    simp only [Cnf.load] at h
    rcases run_bind_eq_error.1 h with hread | ⟨text, s₁, hread, h⟩
    · obtain ⟨htext, rfl, rfl⟩ := Action.readText_eq_error.1 hread
      refine ⟨.io file, s, rfl, ?_⟩
      simp only [result, htext]
    · obtain ⟨htext, rfl⟩ := Action.readText_eq_ok.1 hread
      cases hparse : Cnf.parse text with
      | ok cnf =>
        rw [hparse] at h
        cases h
      | error refusal =>
        rw [hparse] at h
        obtain ⟨rfl, rfl⟩ := EStateM.Result.error.inj h
        refine ⟨.parse file refusal, s, rfl, ?_⟩
        simp only [result, htext, hparse]

end Tells

/-! ### Plans and trials -/

/-- Whether a plan was taken: all of it, or up to the step that stopped it. -/
def Taken (plan : List Step) (s : Session) : Option Stop → Session → Prop
  | none, s' => Performed plan s s'
  | some stop, s' => Cut plan s stop s'

/-- The first step of a plan that was taken stopped it, or the rest was taken from what it left. -/
theorem Taken.cases {step : Step} {plan : List Step} {s s' : Session} {stop? : Option Stop}
    (h : Taken (step :: plan) s stop? s') :
    (∃ stop store, stop? = some stop ∧ step.Ends s.store (some stop) store) ∨
    ∃ s₁, step.Ends s.store none s₁.store ∧ Taken plan s₁ stop? s' := by
  cases stop? with
  | none =>
    obtain ⟨store, hend, hrest⟩ := h
    exact Or.inr ⟨_, hend, hrest⟩
  | some stop =>
    obtain @⟨done, last, s₁, store, hfirst, hdone, hend⟩ := h
    cases done with
    | nil =>
      obtain ⟨rfl, -⟩ := List.cons_prefix_cons.1 hfirst
      obtain rfl : s₁ = s := hdone
      exact Or.inl ⟨stop, store, rfl, hend⟩
    | cons first done =>
      obtain ⟨rfl, hleft⟩ := List.cons_prefix_cons.1 hfirst
      obtain ⟨store₁, hend₁, hdone⟩ := hdone
      exact Or.inr ⟨_, hend₁, .intro hleft hdone hend⟩

/-- Whether trials tell where a plan ends, if no overflow ends it. -/
def Mirrors (programs : Programs) (plan : List Step) (trials : List Trial) (loaded : Option Cnf) :
    Prop :=
  ∀ s stop? s', Taken plan s stop? s' → (∀ op, stop? ≠ some (.fault (.overflow op))) →
    stop? = (firstError programs trials ⟨s.store, loaded⟩).map .error

namespace Mirrors
variable {α : Type} {programs : Programs} {plan : List Step} {trials : List Trial}
  {loaded : Option Cnf}

theorem nil : Mirrors programs [] [] loaded := by
  intro s stop? s' htaken _
  cases stop? with
  | none => rfl
  | some stop =>
    obtain ⟨hfirst, _, _⟩ := htaken
    exact absurd (List.prefix_nil.1 hfirst) (by simp)

/-- A computation that may only overflow is no trial. -/
theorem compute {x : Checked α} {v : α} (hx : OverflowsOnly x)
    (h : x = .ok v → Mirrors programs plan trials loaded) :
    Mirrors programs (.compute x v :: plan) trials loaded := by
  intro s stop? s' htaken hfits
  rcases htaken.cases with ⟨stop, store, rfl, ⟨f, hf, rfl⟩, _⟩ | ⟨s₁, ⟨hv, hstore⟩, hrest⟩
  · obtain ⟨op, rfl⟩ := hx f hf
    exact absurd rfl (hfits op)
  · rw [← hstore]
    exact h hv s₁ stop? s' hrest hfits

/-- An effect is a trial that tells how its action ends. -/
theorem perform {e : Effect} {x : Action α} {v : α} {trial : Trial} {next : α → Option Cnf}
    (htells : trial.Tells programs x loaded next)
    (h : (∃ s s', x s = .ok v s') → Mirrors programs plan trials (next v)) :
    Mirrors programs (.perform e x v :: plan) (trial :: trials) loaded := by
  intro s stop? s' htaken hfits
  rcases htaken.cases with ⟨stop, store, rfl, hend⟩ | ⟨s₁, hend, hrest⟩
  · obtain ⟨e, store', rfl, hresult⟩ := htells.error hend
    simp only [firstError, hresult, Option.map_some]
  · simp only [firstError, htells.ok hend]
    exact h ⟨_, _, hend⟩ s₁ stop? s' hrest hfits

end Mirrors

/-! ### The plan of an instance -/

section Plan
variable {programs : Programs} {config : ToolchainConfig} {strategy : Strategy} {a : Artifacts}
  {i : Instance} {plan : List Step} {trials : List Trial} {cnf : Cnf}

theorem mirrors_opening {rows : List Row} {output : EncoderOutput}
    (h : Mirrors programs plan trials (some cnf)) :
    Mirrors programs (openingSteps (programs.toolchain config) strategy a rows output cnf ++ plan)
      (openingTrials config strategy a rows ++ trials) none := by
  refine .perform (Trial.tells_makeDir a.dir) fun _ => ?_
  refine .perform (Trial.tells_write fun _ => rfl) fun _ => ?_
  refine .perform (Trial.tells_encode a.source strategy) fun ⟨s, s', hencode⟩ => ?_
  -- an encoder that succeeds names the files beside the source
  have houtput : output = EncoderOutput.beside a.source := by
    obtain ⟨ended, s₁, _, hend⟩ := run_bind_eq_ok.1 hencode
    split at hend
    · obtain ⟨rfl, _⟩ := run_pure_eq_ok.1 hend
      rfl
    · exact absurd hend run_throw_ne_ok
  rw [houtput]
  exact .perform (Trial.tells_check _ _) fun _ => .perform (Trial.tells_load _) fun _ => h

theorem overflowsOnly_posed (q : Query) : OverflowsOnly (Pipeline.posed cnf i.objective q) := by
  rw [Pipeline.posed_eq]
  exact .bind (Pipeline.overflowsOnly_queried i.objective q) fun _ =>
    .bind cnf.overflowsOnly_toRows fun _ => .pure _

theorem overflowsOnly_reported (q : Query) (answer : Answer) :
    OverflowsOnly (Pipeline.reported i.objective q answer) :=
  .bind (Pipeline.overflowsOnly_queried i.objective q) fun _ =>
    .bind (Answer.overflowsOnly_mapValue (fun _ => .checked _ _) answer) fun shifted =>
      Pipeline.overflowsOnly_settled q shifted

theorem mirrors_asking {q : Query} {asked : Asked} (hexpected : OverflowsOnly (i.expected q))
    (h : Mirrors programs plan trials (some cnf)) :
    Mirrors programs (askingSteps (programs.toolchain config) a i cnf q asked ++ plan)
      (queryTrials config a i q ++ trials) (some cnf) := by
  refine .compute (overflowsOnly_posed q) fun hposed => ?_
  have hdoes : ∀ s : Store, (do
      let f ← (Pipeline.posed (← some cnf) i.objective q).toOption
      s.write (a.query q) f.render.toUTF8) =
        s.write (a.query q) asked.formula.render.toUTF8 := by
    intro s
    rw [Option.bind_eq_bind, Option.bind_some, hposed]
    rfl
  refine .perform (Trial.tells_write hdoes) fun _ => ?_
  refine .perform (Trial.tells_solve _) fun _ => ?_
  exact .compute (overflowsOnly_reported q asked.solved) fun _ => .compute hexpected fun _ => h

theorem mirrors_asked {asked : Query → Asked} (hexpected : ∀ q, OverflowsOnly (i.expected q))
    (queries : List Query) : Mirrors programs
      (queries.flatMap fun q => askingSteps (programs.toolchain config) a i cnf q (asked q))
      (queries.flatMap (queryTrials config a i)) (some cnf) := by
  induction queries with
  | nil => exact .nil
  | cons q queries ih =>
    rw [List.flatMap_cons, List.flatMap_cons]
    exact mirrors_asking (hexpected q) ih

theorem mirrors_plan {g : Given} (hexpected : ∀ q, OverflowsOnly (i.expected q)) :
    Mirrors programs (i.plan (programs.toolchain config) strategy a g)
      (i.trials config strategy a g.rows) none := by
  refine .compute Instance.overflowsOnly_rows fun _ => ?_
  exact mirrors_opening (mirrors_asked hexpected i.queries)

end Plan

/-! ### The first error -/

/-- The error of an outcome. An instance that passed or failed has none. -/
def Outcome.error? : Outcome → Option PipelineError
  | passed => none
  | failed _ => none
  | aborted e => some e

/-- An instance that is not refused takes its plan, and what stops it is the error of its outcome. -/
theorem exists_taken (tools : Toolchain) (strategy : Strategy) (s : Session) {root : Path}
    {i : Instance} {a : Artifacts} {vars : Nat} (hname : Artifacts.ofName root i.name = .ok a)
    (hvars : i.oracleVars = .ok vars) (hle : vars ≤ maxEnumerated) :
    ∃ g stop? s', Taken (i.plan tools strategy a g) s stop? s' ∧
      (runInstance tools root strategy i s).1.outcome.error? = stop?.map Stop.report := by
  obtain ⟨g, hran⟩ := @ran_checkInstance tools strategy a i vars hvars hle s
  rw [runInstance_of_ok hname]
  rcases hran with ⟨stop, houtcome, hcut⟩ | ⟨houtcome, hdone⟩
  · exact ⟨g, some stop, _, hcut, congrArg Outcome.error? houtcome⟩
  · refine ⟨g, none, _, hdone, (congrArg Outcome.error? houtcome).trans ?_⟩
    split <;> rfl

/-- Whatever the programs do, the error of a run without overflow is that of its first trial that
fails. So it passes or fails only if the encoder ends with its success code, the checker with zero,
the clauses are there and are read, and every solver ends normally with an answer. -/
theorem runInstance_first_error (programs : Programs) (config : ToolchainConfig) {root : Path}
    (strategy : Strategy) {i : Instance} (s : Session) {a : Artifacts} {vars : Nat}
    (hname : Artifacts.ofName root i.name = .ok a) (hvars : i.oracleVars = .ok vars)
    (hle : vars ≤ 24)
    (hfits : ∀ op, (runInstance (programs.toolchain config) root strategy i s).1.outcome ≠
      .aborted (.faulted (Fault.overflow op).message)) :
    ∃ rows, i.rows = .ok rows ∧
      (runInstance (programs.toolchain config) root strategy i s).1.outcome.error? =
        firstError programs (i.trials config strategy a rows) ⟨s.store, none⟩ := by
  obtain ⟨g, stop?, s', htaken, herror⟩ :=
    exists_taken (programs.toolchain config) strategy s hname hvars hle
  have hoverflow : ∀ op, stop? ≠ some (.fault (.overflow op)) := by
    rintro op rfl
    cases houtcome : (runInstance (programs.toolchain config) root strategy i s).1.outcome with
    | passed =>
      rw [houtcome] at herror
      exact nomatch herror
    | failed found =>
      rw [houtcome] at herror
      exact nomatch herror
    | aborted e =>
      rw [houtcome] at herror
      obtain rfl := Option.some.inj herror
      exact hfits op houtcome
  have hrows : i.rows = .ok g.rows := by
    rcases htaken.cases with ⟨stop, _, rfl, ⟨f, hf, rfl⟩, _⟩ | ⟨_, ⟨hrows, _⟩, _⟩
    · obtain ⟨op, rfl⟩ := Instance.overflowsOnly_rows f hf
      exact absurd rfl (hoverflow op)
    · exact hrows
  have hmirrors : Mirrors programs (i.plan (programs.toolchain config) strategy a g)
      (i.trials config strategy a g.rows) none :=
    mirrors_plan fun q => Instance.overflowsOnly_expected hvars hle
  refine ⟨g.rows, hrows, ?_⟩
  have hreport : Stop.report ∘ Stop.error = id := rfl
  rw [herror, hmirrors s stop? s' htaken hoverflow, Option.map_map, hreport, Option.map_id, id]

/-- An encoder that leaves clauses, a checker that accepts, and a solver that dies by a signal. -/
def samplePrograms : Programs := fun program _ s =>
  if program = ⟨"solver"⟩ then (some ⟨none, .empty, .empty⟩, s)
  else (some ⟨some 0, .empty, .empty⟩, (s.write ⟨"r/e/e.cnf"⟩ "p cnf 1 1\n1 0\n".toUTF8).getD s)

/-- The programs of the sample, by name. -/
def samplePrograms.config : ToolchainConfig where
  encoder := ⟨"encoder"⟩
  checker := ⟨"checker"⟩
  solver := ⟨"solver"⟩
  encoderSuccess := 0
  solverCodes := .standard

theorem runInstance_first_error_sample : ∃ rows, equalityInstance.rows = .ok rows ∧
    (runInstance (samplePrograms.toolchain samplePrograms.config) ⟨"r"⟩ .standard equalityInstance
      ⟨.empty, []⟩).1.outcome.error? =
        firstError samplePrograms
          (equalityInstance.trials samplePrograms.config .standard ⟨⟨"r/e"⟩, "e"⟩ rows)
          ⟨.empty, none⟩ := by
  have hname : Artifacts.ofName ⟨"r"⟩ equalityInstance.name = .ok ⟨⟨"r/e"⟩, "e"⟩ := by
    decide +kernel
  have hvars : equalityInstance.oracleVars = .ok 2 := by decide +kernel
  have houtcome : (runInstance (samplePrograms.toolchain samplePrograms.config) ⟨"r"⟩ .standard
      equalityInstance ⟨.empty, []⟩).1.outcome =
        .aborted (.solverFailure "solver" ⟨"r/e/e.min.opt.opb"⟩ none) := by
    decide +kernel
  refine runInstance_first_error samplePrograms samplePrograms.config .standard ⟨.empty, []⟩ hname
    hvars (by decide) fun op h => ?_
  rw [houtcome] at h
  exact nomatch h

end PseudoBoolean
