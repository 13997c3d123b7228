import PseudoBoolean.Verdict

/-!
A suite on a pool of workers.

The workers share a counter and a channel. Each repeats three steps: it takes the next index, runs
the instance at it, and sends the indexed report.

    idle ──take──▶ holding k ──run──▶ reporting k ──send──▶ idle
      └──take, no index left──▶ finished

A schedule is the list of workers whose turn it is. Reports are put in the order of the instances,
so they do not depend on the order in which they were sent.
-/

namespace PseudoBoolean

/-- What a worker is about to do. -/
inductive Worker where
  | idle
  | holding (index : Nat)
  | reporting (index : Nat) (report : Report)
  | finished

/-- The shared counter, the reports sent so far, the workers and the files. -/
structure Pool where
  next : Nat
  sent : List (Nat × Report)
  workers : Array Worker
  session : Session

namespace Pool

/-- The number of workers: one at least, and no more than there are instances. -/
def workerCount (jobs instances : Nat) : Nat := max 1 (min jobs (max instances 1))

def start (workers : Nat) (s : Session) : Pool := ⟨0, [], Array.replicate workers .idle, s⟩

/-- One step of a worker. -/
def step (run : Instance → Session → Report × Session) (instances : List Instance) (p : Pool)
    (worker : Nat) : Pool :=
  match p.workers[worker]? with
  | some .idle =>
    let w := if p.next < instances.length then Worker.holding p.next else .finished
    { p with next := p.next + 1, workers := p.workers.setIfInBounds worker w }
  | some (.holding index) =>
    match instances[index]? with
    | some i =>
      let (report, session) := run i p.session
      { p with workers := p.workers.setIfInBounds worker (.reporting index report), session }
    | none => { p with workers := p.workers.setIfInBounds worker .finished }
  | some (.reporting index report) =>
    { p with sent := (index, report) :: p.sent, workers := p.workers.setIfInBounds worker .idle }
  | _ => p

/-- The pool after the steps of a schedule. -/
def runSchedule (run : Instance → Session → Report × Session) (instances : List Instance)
    (schedule : List Nat) (p : Pool) : Pool :=
  schedule.foldl (step run instances) p

/-- The workers in turn, often enough for any one of them to run every instance. -/
def roundRobin (workers instances : Nat) : List Nat :=
  (List.replicate (3 * instances + 1) (List.range workers)).flatten

/-- The reports in the order of the instances. -/
def reports (p : Pool) (instances : List Instance) : List Report :=
  (List.range instances.length).filterMap fun k => List.lookup k p.sent

end Pool

/-- Runs every instance on a pool of workers. The reports come in the order of the instances. -/
def runSuite (tools : Toolchain) (config : HarnessConfig) (strategy : Strategy)
    (instances : List Instance) (s : Session) : List Report × Session :=
  let workers := Pool.workerCount config.jobs instances.length
  let pool := Pool.runSchedule (runInstance tools config.generationDir strategy) instances
    (Pool.roundRobin workers instances.length) (Pool.start workers s)
  (pool.reports instances, pool.session)

end PseudoBoolean
