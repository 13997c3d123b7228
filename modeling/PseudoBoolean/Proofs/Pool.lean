import Mathlib
import PseudoBoolean.Pool

/-!
What a pool of workers does, whatever the schedule.

    range (min next n)  ~  held by a worker  +  run already
    run already         ~  not yet sent      +  sent

Every index below the counter is held by one worker or was run once, and every report of a run is
with one worker or was sent once. Each of the steps keeps both accounts. When no worker has anything
left to do, nothing is held and nothing is unsent, so every instance was run once and its report has
arrived. A worker needs three turns for an instance and one to end, so a schedule that gives every
worker enough turns ends them all.
-/

namespace PseudoBoolean

namespace Worker

/-- The index that a worker has taken and not yet run. -/
def held? : Worker → Option Nat
  | holding index => some index
  | _ => none

/-- The report that a worker has made and not yet sent. -/
def unsent? : Worker → Option (Nat × Report)
  | reporting index report => some (index, report)
  | _ => none

/-- The turns that a worker needs until it is idle, and one to end. -/
def turns : Worker → Nat
  | idle => 1
  | holding _ => 3
  | reporting .. => 2
  | finished => 0

end Worker

namespace Pool

/-- Whether every worker has ended. -/
def IsDone (p : Pool) : Prop := ∀ x ∈ p.workers.toList, x = .finished

section Accounts
variable (run : Instance → Session → Report × Session) (instances : List Instance) (s : Session)

/-- Whether instances were run one after another from a session, with these reports, the latest
first. -/
inductive Ran : List (Nat × Report) → Session → Prop
  | nil : Ran [] s
  | cons {ran s' index i} (h : Ran ran s') (hi : instances[index]? = some i) :
      Ran ((index, (run i s').1) :: ran) (run i s').2

/-- The accounts of a pool: what was taken is held or was run, what was run is unsent or was sent, and
a worker ends only where nothing is left to take. -/
structure Accounts (workers : List Worker) (next : Nat) (sent : List (Nat × Report))
    (session : Session) (ran : List (Nat × Report)) : Prop where
  inTurn : Ran run instances s ran session
  taken : (workers.filterMap Worker.held? ++ ran.map Prod.fst).Perm
    (List.range (min next instances.length))
  sent : (workers.filterMap Worker.unsent? ++ sent).Perm ran
  ended : .finished ∈ workers → instances.length ≤ next

end Accounts

/-! ### What each step keeps -/

namespace Accounts
variable {run : Instance → Session → Report × Session} {instances : List Instance} {s session : Session}
  {workers rest : List Worker} {next index : Nat} {sent ran : List (Nat × Report)} {report : Report}

theorem of_perm (h : Accounts run instances s workers next sent session ran)
    {workers' : List Worker} (hperm : workers.Perm workers') :
    Accounts run instances s workers' next sent session ran where
  inTurn := h.inTurn
  taken := ((hperm.filterMap _).append_right _).symm.trans h.taken
  sent := ((hperm.filterMap _).append_right _).symm.trans h.sent
  ended hmem := h.ended (hperm.mem_iff.2 hmem)

theorem take (h : Accounts run instances s (.idle :: rest) next sent session ran)
    (hnext : next < instances.length) :
    Accounts run instances s (.holding next :: rest) (next + 1) sent session ran where
  inTurn := h.inTurn
  taken := by
    have htaken := h.taken
    rw [Nat.min_eq_left (Nat.le_of_lt hnext)] at htaken
    rw [Nat.min_eq_left hnext, List.range_succ]
    exact (htaken.cons next).trans (List.perm_append_singleton ..).symm
  sent := h.sent
  ended hmem := by
    have hrest : .finished ∈ rest := (List.mem_cons.1 hmem).resolve_left nofun
    exact Nat.le_succ_of_le (h.ended (List.mem_cons_of_mem _ hrest))

theorem finish (h : Accounts run instances s (.idle :: rest) next sent session ran)
    (hnext : instances.length ≤ next) :
    Accounts run instances s (.finished :: rest) (next + 1) sent session ran where
  inTurn := h.inTurn
  taken := by
    have htaken := h.taken
    rw [Nat.min_eq_right hnext] at htaken
    rw [Nat.min_eq_right (Nat.le_succ_of_le hnext)]
    exact htaken
  sent := h.sent
  ended _ := Nat.le_succ_of_le hnext

/-- What is held can be run. -/
theorem exists_instance
    (h : Accounts run instances s (.holding index :: rest) next sent session ran) :
    ∃ i, instances[index]? = some i := by
  have hmem : index ∈ List.range (min next instances.length) :=
    h.taken.subset (List.mem_cons_self ..)
  have hlt : index < instances.length := by
    rw [List.mem_range] at hmem
    omega
  exact ⟨_, List.getElem?_eq_getElem hlt⟩

theorem run_held (h : Accounts run instances s (.holding index :: rest) next sent session ran)
    {i : Instance} (hi : instances[index]? = some i) :
    Accounts run instances s (.reporting index (run i session).1 :: rest) next sent
      (run i session).2 ((index, (run i session).1) :: ran) where
  inTurn := .cons h.inTurn hi
  taken := List.perm_middle.trans h.taken
  sent := h.sent.cons _
  ended hmem := by
    have hrest : .finished ∈ rest := (List.mem_cons.1 hmem).resolve_left nofun
    exact h.ended (List.mem_cons_of_mem _ hrest)

theorem send
    (h : Accounts run instances s (.reporting index report :: rest) next sent session ran) :
    Accounts run instances s (.idle :: rest) next ((index, report) :: sent) session ran where
  inTurn := h.inTurn
  taken := h.taken
  sent := List.perm_middle.trans h.sent
  ended hmem := by
    have hrest : .finished ∈ rest := (List.mem_cons.1 hmem).resolve_left nofun
    exact h.ended (List.mem_cons_of_mem _ hrest)

end Accounts

/-- A worker and the others, before and after the worker is set. -/
theorem exists_perm_set {workers : Array Worker} {worker : Nat} {x : Worker}
    (h : workers[worker]? = some x) : ∃ rest, workers.toList.Perm (x :: rest) ∧
      ∀ y, (workers.setIfInBounds worker y).toList.Perm (y :: rest) := by
  obtain ⟨hlt, hx⟩ := Array.getElem?_eq_some_iff.1 h
  have hlt' : worker < workers.toList.length := by rwa [Array.length_toList]
  refine ⟨workers.toList.eraseIdx worker, ?_, fun y => ?_⟩
  · have hperm := List.getElem_cons_eraseIdx_perm hlt'
    rw [Array.getElem_toList, hx] at hperm
    exact hperm.symm
  · rw [Array.toList_setIfInBounds]
    exact List.set_perm_cons_eraseIdx hlt' y

section Step
variable {run : Instance → Session → Report × Session} {instances : List Instance} {s : Session}
  {p : Pool} {ran : List (Nat × Report)}

/-- Whether a pool keeps its accounts. -/
def Keeps (run : Instance → Session → Report × Session) (instances : List Instance) (s : Session)
    (p : Pool) (ran : List (Nat × Report)) : Prop :=
  Accounts run instances s p.workers.toList p.next p.sent p.session ran

theorem Keeps.step (h : Keeps run instances s p ran) (worker : Nat) :
    ∃ ran', Keeps run instances s (step run instances p worker) ran' := by
  simp only [Pool.step]
  split
  · next hidle =>
    obtain ⟨rest, hbefore, hafter⟩ := exists_perm_set hidle
    have hworker := Accounts.of_perm h hbefore
    refine ⟨ran, Accounts.of_perm ?_ (hafter _).symm⟩
    split
    · next hnext => exact hworker.take hnext
    · next hnext => exact hworker.finish (Nat.not_lt.1 hnext)
  · next index hholding =>
    obtain ⟨rest, hbefore, hafter⟩ := exists_perm_set hholding
    have hworker := Accounts.of_perm h hbefore
    obtain ⟨i, hi⟩ := hworker.exists_instance
    rw [hi]
    exact ⟨_, Accounts.of_perm (hworker.run_held hi) (hafter _).symm⟩
  · next index report hreporting =>
    obtain ⟨rest, hbefore, hafter⟩ := exists_perm_set hreporting
    exact ⟨ran, Accounts.of_perm (Accounts.of_perm h hbefore).send (hafter _).symm⟩
  · exact ⟨ran, h⟩

/-- A new pool has taken nothing. -/
theorem keeps_start (run : Instance → Session → Report × Session) (instances : List Instance)
    (workers : Nat) (s : Session) : Keeps run instances s (start workers s) [] where
  inTurn := .nil
  taken := by simp [start, List.filterMap_replicate, Worker.held?]
  sent := by simp [start, List.filterMap_replicate, Worker.unsent?]
  ended hmem := by simp [start] at hmem

theorem Keeps.runSchedule (h : Keeps run instances s p ran) (schedule : List Nat) :
    ∃ ran', Keeps run instances s (runSchedule run instances schedule p) ran' := by
  induction schedule generalizing p ran with
  | nil => exact ⟨ran, h⟩
  | cons worker schedule ih =>
    obtain ⟨ran', h'⟩ := h.step worker
    exact ih h'

theorem size_step (worker : Nat) :
    (step run instances p worker).workers.size = p.workers.size := by
  simp only [step]
  split
  · simp
  · split <;> simp
  · simp
  · rfl

theorem size_runSchedule (schedule : List Nat) :
    (runSchedule run instances schedule p).workers.size = p.workers.size := by
  induction schedule generalizing p with
  | nil => rfl
  | cons worker schedule ih => exact ih.trans (size_step worker)

/-- A pool whose workers have ended has run every instance once and received each report. -/
theorem Keeps.of_isDone (h : Keeps run instances s p ran) (hdone : p.IsDone)
    (hsize : 0 < p.workers.size) :
    (ran.map Prod.fst).Perm (List.range instances.length) ∧ p.sent.Perm ran := by
  have hfinished : .finished ∈ p.workers.toList := by
    have hmem := List.getElem_mem (l := p.workers.toList) (n := 0) (by simpa using hsize)
    exact hdone _ hmem ▸ hmem
  have hheld : p.workers.toList.filterMap Worker.held? = [] := by
    refine List.filterMap_eq_nil_iff.2 fun x hx => ?_
    rw [hdone x hx]
    rfl
  have hunsent : p.workers.toList.filterMap Worker.unsent? = [] := by
    refine List.filterMap_eq_nil_iff.2 fun x hx => ?_
    rw [hdone x hx]
    rfl
  have htaken := h.taken
  have hsent := h.sent
  rw [hheld, Nat.min_eq_right (h.ended hfinished)] at htaken
  rw [hunsent] at hsent
  exact ⟨htaken, hsent⟩

end Step

/-! ### The reports -/

/-- A key that occurs once is looked up with its value. -/
theorem lookup_eq_some_iff {α β : Type} [BEq α] [LawfulBEq α] {l : List (α × β)}
    (hkeys : (l.map Prod.fst).Nodup) {a : α} {b : β} : l.lookup a = some b ↔ (a, b) ∈ l := by
  induction l with
  | nil => simp
  | cons entry l ih =>
    obtain ⟨key, value⟩ := entry
    obtain ⟨hkey, hkeys⟩ := List.nodup_cons.1 hkeys
    rw [List.lookup_cons, List.mem_cons]
    by_cases ha : a = key
    · subst ha
      have hnot : (a, b) ∉ l := fun hmem => hkey (List.mem_map.2 ⟨_, hmem, rfl⟩)
      simp [hnot, eq_comm]
    · rw [beq_false_of_ne ha, ih hkeys]
      simp [ha]

/-- What is found for every member of a list is found in the order of the list. -/
theorem getElem?_filterMap {α β : Type} {f : α → Option β} {l : List α}
    (h : ∀ a ∈ l, ∃ b, f a = some b) :
    (l.filterMap f).length = l.length ∧ ∀ k : Nat, (l.filterMap f)[k]? = l[k]?.bind f := by
  induction l with
  | nil => simp
  | cons a l ih =>
    obtain ⟨b, hb⟩ := h a (List.mem_cons_self ..)
    obtain ⟨hlength, hplaces⟩ := ih fun c hc => h c (List.mem_cons_of_mem _ hc)
    rw [List.filterMap_cons_some hb]
    refine ⟨by rw [List.length_cons, List.length_cons, hlength], fun k => ?_⟩
    cases k with
    | zero => exact hb.symm
    | succ k => exact hplaces k

section Reports
variable {instances : List Instance} {p : Pool} {ran : List (Nat × Report)}

/-- The reports are those of the runs, each in the place of its instance. -/
theorem reports_of_perm (hran : (ran.map Prod.fst).Perm (List.range instances.length))
    (hsent : p.sent.Perm ran) :
    (p.reports instances).length = instances.length ∧
      ∀ k r, (p.reports instances)[k]? = some r ↔ (k, r) ∈ ran := by
  have hkeys : (p.sent.map Prod.fst).Nodup :=
    ((hsent.map _).trans hran).nodup_iff.2 List.nodup_range
  have hlookup : ∀ k r, p.sent.lookup k = some r ↔ (k, r) ∈ ran := fun k r =>
    (lookup_eq_some_iff hkeys).trans hsent.mem_iff
  have hsome : ∀ k ∈ List.range instances.length, ∃ r, p.sent.lookup k = some r := by
    intro k hk
    obtain ⟨⟨key, r⟩, hmem, rfl⟩ := List.mem_map.1 (hran.mem_iff.2 hk)
    exact ⟨r, (hlookup key r).2 hmem⟩
  obtain ⟨hlength, hplaces⟩ := getElem?_filterMap hsome
  refine ⟨hlength.trans List.length_range, fun k r => ?_⟩
  rw [← hlookup, reports, hplaces]
  by_cases hk : k < instances.length
  · rw [List.getElem?_range hk, Option.bind_some]
  · have hout : (List.range instances.length)[k]? = none := by simpa using hk
    rw [hout, Option.bind_none]
    refine ⟨nofun, fun hr => ?_⟩
    have hmem := hran.subset (List.mem_map.2 ⟨_, (hlookup k r).1 hr, rfl⟩)
    exact absurd (List.mem_range.1 hmem) hk

end Reports

/-! ### Enough turns -/

/-- The turns that a worker needs to end: three for each instance that is left to take, and what it
needs for the one it has. -/
def turnsLeft (instances : Nat) (p : Pool) (worker : Nat) : Nat :=
  match p.workers[worker]? with
  | none | some .finished => 0
  | some x => 3 * (instances - p.next) + x.turns

section Turns
variable (run : Instance → Session → Report × Session) (instances : List Instance) (p : Pool)

/-- A turn of a worker is one turn less for it. -/
theorem turnsLeft_step_self (worker : Nat) :
    turnsLeft instances.length (step run instances p worker) worker ≤
      turnsLeft instances.length p worker - 1 := by
  simp only [step]
  split
  · next hidle =>
    have hlt := (Array.getElem?_eq_some_iff.1 hidle).1
    simp only [turnsLeft, hidle, Array.getElem?_setIfInBounds_self_of_lt hlt]
    by_cases hnext : p.next < instances.length
    · simp only [if_pos hnext, Worker.turns]
      omega
    · simp only [if_neg hnext]
      omega
  · next index hholding =>
    have hlt := (Array.getElem?_eq_some_iff.1 hholding).1
    cases instances[index]? with
    | some i =>
      simp only [turnsLeft, hholding, Array.getElem?_setIfInBounds_self_of_lt hlt, Worker.turns]
      omega
    | none =>
      simp only [turnsLeft, Array.getElem?_setIfInBounds_self_of_lt hlt]
      omega
  · next index report hreporting =>
    have hlt := (Array.getElem?_eq_some_iff.1 hreporting).1
    simp only [turnsLeft, hreporting, Array.getElem?_setIfInBounds_self_of_lt hlt, Worker.turns]
    omega
  · next hidle hholding hreporting =>
    have hended : turnsLeft instances.length p worker = 0 := by
      simp only [turnsLeft]
      split
      · rfl
      · rfl
      · next x hunfinished hx =>
        cases x with
        | idle => exact absurd hx hidle
        | holding index => exact absurd hx (hholding index)
        | reporting index report => exact absurd hx (hreporting index report)
        | finished => exact absurd rfl hunfinished
    omega

/-- A turn of another worker is no turn more. -/
theorem turnsLeft_step_of_ne {worker other : Nat} (hne : other ≠ worker) :
    turnsLeft instances.length (step run instances p other) worker ≤
      turnsLeft instances.length p worker := by
  have hworker : (step run instances p other).workers[worker]? = p.workers[worker]? ∧
      p.next ≤ (step run instances p other).next := by
    simp only [step]
    split
    · exact ⟨Array.getElem?_setIfInBounds_ne hne, Nat.le_succ _⟩
    · split <;> exact ⟨Array.getElem?_setIfInBounds_ne hne, Nat.le_refl _⟩
    · exact ⟨Array.getElem?_setIfInBounds_ne hne, Nat.le_refl _⟩
    · exact ⟨rfl, Nat.le_refl _⟩
  simp only [turnsLeft, hworker.1]
  split
  · exact Nat.le_refl _
  · exact Nat.le_refl _
  · omega

theorem turnsLeft_runSchedule (schedule : List Nat) (worker : Nat) :
    turnsLeft instances.length (runSchedule run instances schedule p) worker ≤
      turnsLeft instances.length p worker - schedule.count worker := by
  induction schedule generalizing p with
  | nil => exact Nat.le_refl _
  | cons other schedule ih =>
    have hrest : turnsLeft instances.length (runSchedule run instances (other :: schedule) p) worker ≤
        turnsLeft instances.length (step run instances p other) worker - schedule.count worker :=
      ih (step run instances p other)
    by_cases heq : other = worker
    · subst heq
      have hself := turnsLeft_step_self run instances p other
      rw [List.count_cons_self]
      omega
    · have hother := turnsLeft_step_of_ne run instances p heq
      rw [List.count_cons_of_ne heq]
      omega

/-- A worker that needs no turn has ended. -/
theorem isDone_of_turnsLeft {n : Nat} {p : Pool}
    (h : ∀ worker < p.workers.size, turnsLeft n p worker = 0) : p.IsDone := by
  intro x hx
  obtain ⟨worker, hlt, rfl⟩ := List.mem_iff_getElem.1 hx
  rw [Array.length_toList] at hlt
  have hzero := h worker hlt
  rw [Array.getElem_toList]
  have hget : p.workers[worker]? = some p.workers[worker] := Array.getElem?_eq_getElem hlt
  simp only [turnsLeft, hget] at hzero
  cases hworker : p.workers[worker] with
  | idle => simp [hworker, Worker.turns] at hzero
  | holding index => simp [hworker, Worker.turns] at hzero
  | reporting index report => simp [hworker, Worker.turns] at hzero
  | finished => rfl

/-- A schedule that gives every worker three turns for each instance, and one, ends every worker. -/
theorem isDone_of_count {run : Instance → Session → Report × Session} {instances : List Instance}
    {workers : Nat} (s : Session) {schedule : List Nat}
    (h : ∀ worker < workers, 3 * instances.length + 1 ≤ schedule.count worker) :
    (runSchedule run instances schedule (start workers s)).IsDone := by
  have hturns := turnsLeft_runSchedule run instances (start workers s) schedule
  refine isDone_of_turnsLeft fun worker hlt => Nat.le_zero.1 ((hturns worker).trans ?_)
  rw [size_runSchedule] at hlt
  have hlt' : worker < workers := by simpa [start] using hlt
  have hstart : turnsLeft instances.length (start workers s) worker = 3 * instances.length + 1 := by
    simp [turnsLeft, start, hlt', Worker.turns]
  have hcount := h worker hlt'
  omega

theorem count_roundRobin {workers worker : Nat} (n : Nat) (h : worker < workers) :
    (roundRobin workers n).count worker = 3 * n + 1 := by
  have hone : (List.range workers).count worker = 1 :=
    List.count_eq_one_of_mem List.nodup_range (List.mem_range.2 h)
  rw [roundRobin, List.count_flatten, List.map_replicate, hone, List.sum_replicate]
  simp

end Turns

end Pool

end PseudoBoolean
