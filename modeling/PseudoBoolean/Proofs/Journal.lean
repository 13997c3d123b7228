import PseudoBoolean.Proofs.Path
import PseudoBoolean.Proofs.Query
import PseudoBoolean.Proofs.Steps
import PseudoBoolean.Proofs.Verdict

/-!
The steps of an instance, in order.

    rows, makeDir, write, encode, check, load │ posed, write, solve, reported, expected │ …
    ────────────────────────────────────────── ───────────────────────────────────────────
                  the opening                          a query; two for an equality

An instance that is not refused takes these steps from the left and ends at the first one that is
stopped (`Instance.Ran`). So the clauses reach a solver only after their proof was accepted, nothing
that broke is passed over, and what broke first is what is reported.
-/

namespace PseudoBoolean

/-! ### Queries, step by step -/

namespace Pipeline

/-- What a query reports where the solver gives an answer. -/
def reported (objective : Expression) (q : Query) (answer : Answer) : Checked Answer := do
  let form ← queried objective q
  settled q (← answer.shifted form.offset)

/-- What a query whose form is known reports. -/
theorem reported_eq {objective : Expression} {q : Query} {form : LinearForm}
    (hform : queried objective q = .ok form) (solved : Answer) :
    reported objective q solved = solved.shifted form.offset >>= settled q := by
  rw [reported, hform]
  rfl

/-- A query is posed, written, solved and reported. -/
theorem answer_eq (tools : Toolchain) (encoded : Encoded) (objective : Expression) (q : Query) :
    answer tools encoded objective q = (do
      let f ← posed encoded.cnf objective q
      perform (.write (encoded.artifacts.query q)) (f.save (encoded.artifacts.query q))
      let solved ← perform (.solve (encoded.artifacts.query q))
        (tools.solve (encoded.artifacts.query q))
      reported objective q solved : Run Answer) := by
  funext s
  rw [answer_eq_solve, posed_eq]
  cases hform : queried objective q with
  | error f => rfl
  | ok form =>
    have hreported : reported objective q =
        fun answer => answer.shifted form.offset >>= settled q := funext (reported_eq hform)
    rw [run_lift_bind_of_ok rfl, hreported]
    simp only [solve, bind_assoc, lift_bind]
    rfl

end Pipeline

/-! ### The plan of an instance -/

/-- What the steps of a query give. -/
structure Asked where
  formula : Opb
  solved : Answer
  reported : Answer
  expected : Option Int64

/-- What the steps of an instance give. -/
structure Given where
  rows : List Row
  output : EncoderOutput
  cnf : Cnf
  asked : Query → Asked

section Plan
variable (tools : Toolchain) (strategy : Strategy) (a : Artifacts) (i : Instance)

/-- The effects up to the clauses: the directory, the source, and the three that accept it. -/
def openingSteps (rows : List Row) (output : EncoderOutput) (cnf : Cnf) : List Step :=
  [.perform (.makeDir a.dir) (Action.makeDir a.dir) (),
    .perform (.write a.source) ((Opb.ofRows rows).save a.source) (),
    .perform (.encode a.source) (tools.encode a.source strategy) output,
    .perform (.check a.source output.proof) (tools.check a.source output.proof) (),
    .perform (.load output.cnf) (Cnf.load output.cnf) cnf]

/-- The steps of a query: its formula is posed, written and solved, the answer is reported, and the
expected one is computed. -/
def askingSteps (cnf : Cnf) (q : Query) (asked : Asked) : List Step :=
  [.compute (Pipeline.posed cnf i.objective q) asked.formula,
    .perform (.write (a.query q)) (asked.formula.save (a.query q)) (),
    .perform (.solve (a.query q)) (tools.solve (a.query q)) asked.solved,
    .compute (Pipeline.reported i.objective q asked.solved) asked.reported,
    .compute (i.expected q) asked.expected]

/-- The steps of an instance: its rows, the opening, and its queries. -/
def Instance.plan (g : Given) : List Step :=
  .compute i.rows g.rows :: openingSteps tools strategy a g.rows g.output g.cnf ++
    i.queries.flatMap fun q => askingSteps tools a i g.cnf q (g.asked q)

end Plan

/-- What a query finds. -/
def Asked.found (q : Query) (asked : Asked) : List Mismatch :=
  mismatches q (.ofOption asked.expected) asked.reported

/-- What an instance finds. -/
def Instance.found (i : Instance) (g : Given) : List Mismatch :=
  (i.queries.map fun q => (g.asked q).found q).flatten

/-- The effects of an instance, in order. -/
def Instance.effects (i : Instance) (a : Artifacts) (output : EncoderOutput) : List Effect :=
  [.makeDir a.dir, .write a.source, .encode a.source, .check a.source output.proof,
    .load output.cnf] ++ i.queries.flatMap fun q => [.write (a.query q), .solve (a.query q)]

instance : Nonempty EncoderOutput := ⟨⟨⟨""⟩, ⟨""⟩⟩⟩
instance : Nonempty Cnf := ⟨.ofClauses []⟩
instance : Nonempty Opb := ⟨.empty⟩
instance : Nonempty Answer := ⟨.unsatisfiable⟩

section Planned
variable (tools : Toolchain) (strategy : Strategy) (a : Artifacts) (i : Instance)

theorem planned_encode (rows : List Row) :
    Planned (fun c : EncoderOutput × Cnf => openingSteps tools strategy a rows c.1 c.2)
      (fun c => ⟨a, c.2⟩) (Pipeline.encode tools a strategy rows) := by
  have hplan := Planned.bind (.perform (.makeDir a.dir) (Action.makeDir a.dir)) fun _ =>
    .bind (.perform (.write a.source) ((Opb.ofRows rows).save a.source)) fun _ =>
    .bind (.perform (.encode a.source) (tools.encode a.source strategy)) fun output =>
    .bind (.perform (.check a.source output.proof) (tools.check a.source output.proof)) fun _ =>
    .bind (.perform (.load output.cnf) (Cnf.load output.cnf)) fun cnf =>
    .pure (Encoded.mk a cnf)
  intro s
  obtain ⟨⟨_, _, output, _, cnf, _⟩, h⟩ := hplan s
  exact ⟨(output, cnf), h⟩

theorem planned_checkQuery (encoded : Encoded) (q : Query) :
    Planned (askingSteps tools encoded.artifacts i encoded.cnf q) (Asked.found q)
      (checkQuery tools encoded i q) := by
  have hplan := Planned.bind (.compute (Pipeline.posed encoded.cnf i.objective q)) fun f =>
    .bind (.perform (.write (encoded.artifacts.query q)) (f.save (encoded.artifacts.query q)))
      fun _ =>
    .bind (.perform (.solve (encoded.artifacts.query q)) (tools.solve (encoded.artifacts.query q)))
      fun solved =>
    .bind (.compute (Pipeline.reported i.objective q solved)) fun answer =>
    .bind (.compute (i.expected q)) fun expected =>
    .pure (mismatches q (.ofOption expected) answer)
  intro s
  obtain ⟨⟨formula, _, solved, reported, expected, _⟩, h⟩ := hplan s
  refine ⟨⟨formula, solved, reported, expected⟩, ?_⟩
  simp only [checkQuery]
  rw [Pipeline.answer_eq]
  simp only [bind_assoc]
  exact h

theorem Instance.nodup_queries : i.queries.Nodup := by
  simp only [queries]
  cases i.relation <;> decide

/-- An instance that the oracle can check follows its plan. -/
theorem follows_checkInstance {vars : Nat} (hvars : i.oracleVars = .ok vars)
    (hle : vars ≤ maxEnumerated) (s : Session) :
    ∃ g, Follows (i.plan tools strategy a g) s (i.found g) (checkInstance tools a strategy i s) := by
  have hplan := Planned.bind (.compute i.rows) fun rows =>
    .bind (planned_encode tools strategy a rows) fun encoded =>
    .bind (.mapM (planned_checkQuery tools i encoded) i.nodup_queries) fun results =>
    .pure results.flatten
  obtain ⟨⟨rows, ⟨output, cnf⟩, asked, _⟩, h⟩ := hplan s
  rw [checkInstance_of_le hvars hle]
  refine ⟨⟨rows, output, cnf, asked⟩, ?_⟩
  have heq : i.plan tools strategy a ⟨rows, output, cnf, asked⟩ = [.compute i.rows rows] ++
      (openingSteps tools strategy a rows output cnf ++
        ((i.queries.flatMap fun q => askingSteps tools a i cnf q (asked q)) ++ [])) := by
    rw [List.append_nil]
    rfl
  rw [heq]
  exact h

end Planned

/-! ### Runs of an instance -/

section Ran
variable {tools : Toolchain} {strategy : Strategy} {a : Artifacts} {i : Instance} {g : Given}
  {s s' : Session} {outcome : Outcome} {q : Query}

/-- How an instance that was not refused ran: it was cut in its plan and reports what cut it, or it
took all of its plan and is judged by what was found. -/
def Instance.Ran (tools : Toolchain) (strategy : Strategy) (a : Artifacts) (i : Instance) (g : Given)
    (s : Session) (outcome : Outcome) (s' : Session) : Prop :=
  (∃ stop, outcome = .aborted stop.report ∧ Cut (i.plan tools strategy a g) s stop s') ∨
  (outcome = if i.found g = [] then .passed else .failed (i.found g)) ∧
    Performed (i.plan tools strategy a g) s s'

theorem ran_checkInstance {vars : Nat} (hvars : i.oracleVars = .ok vars)
    (hle : vars ≤ maxEnumerated) (s : Session) :
    ∃ g, i.Ran tools strategy a g s (Outcome.ofRun (checkInstance tools a strategy i s)).1
      (Outcome.ofRun (checkInstance tools a strategy i s)).2 := by
  obtain ⟨g, h⟩ := follows_checkInstance tools strategy a i hvars hle s
  refine ⟨g, ?_⟩
  cases hrun : checkInstance tools a strategy i s with
  | error stop s' =>
    rw [hrun] at h
    exact Or.inl ⟨stop, rfl, h⟩
  | ok found s' =>
    rw [hrun] at h
    obtain ⟨rfl, hdone⟩ := h
    rw [Outcome.ofRun_ok]
    exact Or.inr ⟨rfl, hdone⟩

theorem effectsOf_plan (tools : Toolchain) (strategy : Strategy) (a : Artifacts) (i : Instance)
    (g : Given) : effectsOf (i.plan tools strategy a g) = i.effects a g.output := by
  have hqueries : ∀ l : List Query,
      effectsOf (l.flatMap fun q => askingSteps tools a i g.cnf q (g.asked q)) =
        l.flatMap fun q => [.write (a.query q), .solve (a.query q)] := by
    intro l
    induction l with
    | nil => rfl
    | cons q l ih =>
      rw [List.flatMap_cons, List.flatMap_cons, effectsOf_append, ih]
      rfl
  rw [Instance.plan, effectsOf_append, hqueries]
  rfl

/-- The file of a query is not the source. -/
theorem Artifacts.query_ne_source (ha : a.IsValid) : a.query q ≠ a.source := by
  cases q with
  | minimize => exact file_ne ha (by decide) (by decide) (by decide)
  | maximize => exact file_ne ha (by decide) (by decide) (by decide)

/-- The file of a query belongs to its stage. -/
theorem Stage.ofFile_query (ha : a.IsValid) (q : Query) :
    Stage.ofFile a (a.query q) = .ofQuery q := by
  rw [ofFile, if_neg (Artifacts.query_ne_source ha)]
  cases q with
  | minimize => exact if_pos rfl
  | maximize => exact if_neg (Artifacts.file_ne ha (by decide) (by decide) (by decide))

/-- The effects of an instance run through the stages in their order. -/
theorem Instance.pairwise_stages (ha : a.IsValid) (i : Instance) (output : EncoderOutput) :
    ((i.effects a output).map (Effect.stage a)).Pairwise
      fun first second => Stage.all.idxOf first ≤ Stage.all.idxOf second := by
  have hsource : Stage.ofFile a a.source = .construct := if_pos rfl
  simp only [effects, queries]
  cases i.relation <;>
    simp [Effect.stage, hsource, Stage.ofFile_query ha, Stage.ofQuery] <;> decide

/-- A query is posed only after the proof was accepted. -/
theorem check_mem_of_query (ha : a.IsValid) {output : EncoderOutput} {done last : List Effect}
    (hfirst : done ++ last <+: i.effects a output) (hlast : last.length ≤ 1) {e : Effect}
    (he : e ∈ done ++ last) (hquery : e = .write (a.query q) ∨ e = .solve (a.query q)) :
    .check a.source output.proof ∈ done := by
  have hne := Artifacts.query_ne_source ha (q := q)
  have hopening : (i.effects a output).take 5 = [.makeDir a.dir, .write a.source, .encode a.source,
      .check a.source output.proof, .load output.cnf] := rfl
  have hnot : e ∉ (i.effects a output).take 5 := by
    rw [hopening]
    rcases hquery with rfl | rfl <;> simp [hne]
  -- what was attempted reaches beyond the opening, so all of the opening but its last was done
  rcases List.prefix_or_prefix_of_prefix hfirst (List.take_prefix 5 _) with h | h
  · exact absurd (h.subset he) hnot
  · rw [hopening] at h
    have hlen := h.length_le
    rw [List.length_append] at hlen
    have haccepted : [.makeDir a.dir, .write a.source, .encode a.source,
        .check a.source output.proof] <+: done := by
      refine List.prefix_of_prefix_length_le (.trans ⟨[.load output.cnf], rfl⟩ h)
        (List.prefix_append ..) ?_
      simp only [List.length_cons, List.length_nil] at hlen ⊢
      omega
    exact haccepted.subset (by simp)

/-- The journal of a run: a first part of the effects, with success up to the last entry. -/
theorem Instance.Ran.journal (ha : a.IsValid) (h : i.Ran tools strategy a g s outcome s') :
    ∃ entries, s'.journal = s.journal ++ entries ∧
      entries.map (·.effect) <+: i.effects a g.output ∧
      (∀ entry ∈ entries.dropLast, entry.succeeded = true) ∧
      ∀ q, ∀ entry ∈ entries,
        entry.effect = .write (a.query q) ∨ entry.effect = .solve (a.query q) →
          ⟨.check a.source g.output.proof, true⟩ ∈ entries := by
  have hattempted : ∃ done last, done ++ last <+: i.effects a g.output ∧ last.length ≤ 1 ∧
      s'.journal = s.journal ++ (done.map (⟨·, true⟩) ++ last.map (⟨·, false⟩)) := by
    rw [← effectsOf_plan tools strategy]
    rcases h with ⟨stop, _, hcut⟩ | ⟨_, hall⟩
    · exact hcut.journal_eq
    · refine ⟨effectsOf (i.plan tools strategy a g), [], ⟨[], ?_⟩, Nat.zero_le 1, ?_⟩
      · rw [List.append_nil, List.append_nil]
      · rw [List.map_nil, List.append_nil, hall.journal_eq]
  obtain ⟨done, last, hfirst, hlast, hjournal⟩ := hattempted
  have heffects : (done.map (JournalEntry.mk · true) ++ last.map (JournalEntry.mk · false)).map
      (·.effect) = done ++ last := by
    simp [Function.comp_def]
  refine ⟨_, hjournal, by rwa [heffects], fun entry hentry => ?_, fun q entry hentry hquery => ?_⟩
  · have hdone : entry ∈ done.map (JournalEntry.mk · true) := by
      rcases last with _ | ⟨e, _ | ⟨e', rest⟩⟩
      · rw [List.map_nil, List.append_nil] at hentry
        exact List.dropLast_subset _ hentry
      · rwa [List.map_singleton, List.dropLast_concat] at hentry
      · exact absurd hlast (by simp)
    obtain ⟨e, _, rfl⟩ := List.mem_map.1 hdone
    rfl
  · have he : entry.effect ∈ done ++ last := heffects ▸ List.mem_map_of_mem hentry
    have hcheck := check_mem_of_query ha hfirst hlast he hquery
    exact List.mem_append_left _ (List.mem_map_of_mem hcheck)

/-- A run goes through the stages in their order, as far as it gets. -/
theorem Instance.Ran.stages (ha : a.IsValid) (h : i.Ran tools strategy a g s outcome s') :
    ∃ entries, s'.journal = s.journal ++ entries ∧
      (entries.map fun entry => entry.effect.stage a).Pairwise
        fun first second => Stage.all.idxOf first ≤ Stage.all.idxOf second := by
  obtain ⟨entries, hjournal, hfirst, _⟩ := h.journal ha
  refine ⟨entries, hjournal, ?_⟩
  have hsub := (hfirst.map (Effect.stage a)).sublist
  rw [List.map_map] at hsub
  exact (i.pairwise_stages ha g.output).sublist hsub

end Ran

/-- A run is refused before its first effect, or takes the steps of its plan from the left, each
after all before it succeeded, and a query only after the proof was accepted. It reports what stopped
it first, or what was found. -/
theorem runInstance_in_order (tools : Toolchain) (root : Path) (strategy : Strategy) (i : Instance)
    (s : Session) :
    match Artifacts.ofName root i.name, i.oracleVars with
    | .error e, _ => runInstance tools root strategy i s = (⟨i.name, none, .aborted e⟩, s)
    | .ok a, .error f =>
      runInstance tools root strategy i s = (⟨i.name, some a, .aborted (.faulted f.message)⟩, s)
    | .ok a, .ok vars =>
      if 24 < vars then
        runInstance tools root strategy i s =
          (⟨i.name, some a, .aborted (.oracleTooLarge vars 24)⟩, s)
      else ∃ g outcome s',
        runInstance tools root strategy i s = (⟨i.name, some a, outcome⟩, s') ∧
        i.Ran tools strategy a g s outcome s' ∧
        ∃ entries, s'.journal = s.journal ++ entries ∧
          entries.map (·.effect) <+: i.effects a g.output ∧
          (∀ entry ∈ entries.dropLast, entry.succeeded = true) ∧
          ∀ q, ∀ entry ∈ entries,
            entry.effect = .write (a.query q) ∨ entry.effect = .solve (a.query q) →
              ⟨.check a.source g.output.proof, true⟩ ∈ entries := by
  cases hname : Artifacts.ofName root i.name with
  | error e => exact runInstance_of_error hname
  | ok a =>
    have ha := Artifacts.isValid_of_ofName hname
    rw [runInstance_of_ok hname]
    cases hvars : i.oracleVars with
    | error f =>
      rw [checkInstance_of_error hvars]
      rfl
    | ok vars =>
      dsimp only
      split
      · next hlt =>
        rw [checkInstance_of_lt hvars hlt]
        rfl
      · next hle =>
        obtain ⟨g, hran⟩ := ran_checkInstance hvars (Nat.not_lt.1 hle) s
        exact ⟨g, _, _, rfl, hran, hran.journal ha⟩

end PseudoBoolean
