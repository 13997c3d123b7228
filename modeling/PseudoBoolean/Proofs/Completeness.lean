import PseudoBoolean.Proofs.Blocking
import PseudoBoolean.Proofs.Outcome
import PseudoBoolean.Proofs.Small

/-!
Small instances pass with the tools that decide by enumeration.

    rows ──▶ source ──▶ clauses, proof ──▶ accepted ──▶ loaded ──▶ minimum ──▶ expected
                                                              └──▶ maximum ──▶ expected

Where the files can be written, every step of the plan can be performed: first the opening, which
leaves clauses of few literals, then one query after the other, each of which only needs its own file
to be writable. A plan that is performed is an answer, and accepted clauses give expected answers.
-/

namespace PseudoBoolean

/-! ### Files -/

/-- The files that a run writes. -/
def Instance.files (i : Instance) (a : Artifacts) : List Path :=
  [a.source, (EncoderOutput.beside a.source).cnf, (EncoderOutput.beside a.source).proof] ++
    i.queries.map a.query

/-- Whether the directory of a run can be made, and then every file of it written. -/
def Instance.CanWrite (i : Instance) (a : Artifacts) (s : Store) : Prop :=
  ∃ made, s.makeDir a.dir = some made ∧ ∀ p ∈ i.files a, made.IsWritable p

/-- Whether clauses have few literals on few variables. -/
def Cnf.IsSmall (f : Cnf) : Prop :=
  ∀ clause ∈ f.clauses, clause.length ≤ 24 ∧ ∀ l ∈ clause, l.var.id ≤ 24

section Run
variable {i : Instance} {a : Artifacts} {s : Session} {rows : List Row} {cnf : Cnf}

/-! ### The opening -/

/-- Small clauses have small rows, and literals in range. -/
theorem Cnf.IsSmall.exists_toRows (h : cnf.IsSmall) :
    ∃ rows, cnf.toRows = .ok rows ∧ ∀ r ∈ rows, r.lhs.IsSmall := by
  obtain ⟨rows, hrows, hsmall⟩ :=
    exists_mapM fun clause hclause => Clause.exists_toRow (h clause hclause).1 (h clause hclause).2
  refine ⟨rows, hrows, fun r hr => ?_⟩
  obtain ⟨_, _, hrow⟩ := exists_mem_of_forall₂ hsmall r hr
  exact hrow

theorem Cnf.IsSmall.inRange (h : cnf.IsSmall) : cnf.InRange := by
  intro clause hclause l hl
  exact Lit.inRange_var.1 (Var.inRange_of_le ((h clause hclause).2 l hl) (by decide))

/-- The opening of a small instance can be performed: its clauses are accepted and small, and the
files of the queries can still be written. -/
theorem exists_opening (hi : i.IsSmall) (ha : a.IsValid) (strategy : Strategy)
    (hrows : i.rows = .ok rows) (hsmall : ∀ r ∈ rows, r.lhs.IsSmall)
    (hs : i.CanWrite a s.store) :
    ∃ cnf s', Performed (openingSteps Exhaustive.toolchain strategy a rows
        (.beside a.source) cnf) s s' ∧ cnf.IsSmall ∧
      ∀ q ∈ i.queries, s'.store.IsWritable (a.query q) := by
  obtain ⟨made, hmade, hfiles⟩ := hs
  obtain ⟨written, hwritten⟩ :=
    hfiles a.source (by simp [Instance.files]) (Opb.ofRows rows).render.toUTF8
  have hkeeps : ∀ p ∈ i.files a, written.IsWritable p := fun p hp => (hfiles p hp).write hwritten
  -- the source is read back as it was written
  have hnormal : (Opb.ofRows rows).IsNormal := ⟨hi.inRange.isNormal_rows hrows, nofun⟩
  have hparse := Opb.parse_render hnormal
  have hsource : Opb.load a.source written = .ok (Opb.ofRows rows).reread written :=
    Opb.load_eq_ok.2 ⟨_, Store.text?_write hwritten, hparse, rfl⟩
  have hn : (Opb.ofRows rows).reread.numVars ≤ 24 := by
    rw [Opb.numVars_reread]
    exact Opb.numVars_ofRows_le fun r hr => (hsmall r hr).vars
  have heval : ∀ v, ∃ b, (Opb.ofRows rows).reread.isSatisfied v = .ok b := by
    intro v
    obtain ⟨b, hb, _⟩ := Row.exists_allSatisfied (fun r hr => (hsmall r hr).weight) v
    exact ⟨b, hb⟩
  obtain ⟨clauses, left, hencode, hcheck, hload, hclauses, hleft⟩ :=
    Exhaustive.encode_accepted ha strategy hsource (UInt32.le_iff_toNat_le.1 hn)
      (fun r hr x hx => Opb.le_numVars_of_parse hparse hr hx) heval
      (hkeeps _ (by simp [Instance.files])) (hkeeps _ (by simp [Instance.files]))
  refine ⟨⟨clauses, (Opb.ofRows rows).reread.numVars⟩, _, ⟨made, Action.makeDir_eq_ok.2 hmade,
    written, Opb.save_eq_ok.2 hwritten, left, hencode, left, hcheck, left, hload, rfl⟩,
    fun clause hclause => ?_, fun q hq => ?_⟩
  · have hvars := hclauses clause hclause
    constructor
    · have hlen := congrArg List.length hvars
      rw [List.length_map, Var.length_range] at hlen
      rw [hlen]
      exact UInt32.le_iff_toNat_le.1 hn
    · intro l hl
      have hmem : l.var ∈ Var.range (Opb.ofRows rows).reread.numVars :=
        hvars ▸ List.mem_map_of_mem hl
      exact UInt32.le_trans (Var.mem_range.1 hmem) hn
  · have hfile : a.query q ∈ i.files a := List.mem_append_right _ (List.mem_map_of_mem hq)
    exact hleft _ (hkeeps _ hfile)

/-! ### A query -/

/-- The minimum of a small form over small clauses exists, and is a value of the form. -/
theorem exists_minimum {form : LinearForm} (hform : form.IsSmall)
    (hrows : ∀ r ∈ rows, r.lhs.IsSmall) :
    ∃ best, Oracle.minimize rows form.withoutOffset = .ok best ∧
      ∀ m ∈ best, ∃ v, m.toInt = form.value v := by
  have hminimized : form.withoutOffset.IsSmall := ⟨hform.vars, hform.weight, rfl⟩
  obtain ⟨best, hbest⟩ := Oracle.exists_optimum min hrows hminimized
  refine ⟨best, hbest, fun m hm => ?_⟩
  obtain rfl := Option.mem_def.1 hm
  have hopt : Query.minimize.IsBest (Row.values rows form.withoutOffset) m.toInt :=
    Oracle.isOptimum_of_optimum (q := .minimize) hbest
  obtain ⟨v, _, hv⟩ := hopt.mem
  have hvalue := form.value_withoutOffset v
  have hzero : form.offset.toInt = 0 := by rw [hform.offset]; rfl
  exact ⟨v, by omega⟩

/-- A query over small clauses can be performed wherever its file can be written, and gives the same
everywhere. -/
theorem exists_asked (hi : i.IsSmall) (hcnf : cnf.IsSmall) (q : Query) :
    ∃ asked, ∀ s : Session, s.store.IsWritable (a.query q) →
      ∃ s', Performed (askingSteps Exhaustive.toolchain a i cnf q asked) s s' ∧
        ∀ p, s.store.IsWritable p → s'.store.IsWritable p := by
  obtain ⟨form, hform, hsmall⟩ := Pipeline.exists_queried hi q
  obtain ⟨rows, hrows, hsmallRows⟩ := hcnf.exists_toRows
  obtain ⟨formula, hformula⟩ : ∃ f : Opb, f = ⟨rows, some form.withoutOffset, cnf.numVars⟩ :=
    ⟨_, rfl⟩
  have hposed : Pipeline.queryFormula cnf form = .ok formula := by
    rw [hformula]
    exact bind_eq_ok.2 ⟨rows, hrows, rfl⟩
  obtain ⟨best, hbest, hattained⟩ := exists_minimum hsmall hsmallRows
  obtain ⟨answer, hanswer⟩ := Pipeline.exists_reported hform hsmall hattained
  obtain ⟨expected, hexpected⟩ := hi.exists_expected q
  refine ⟨⟨formula, .ofBest best, answer, expected⟩, fun s hwritable => ?_⟩
  obtain ⟨written, hwritten⟩ := hwritable formula.render.toUTF8
  have hsave := Opb.save_eq_ok.2 hwritten
  have hstands := Pipeline.standsIn_queryFormula hcnf.inRange
    (Pipeline.isNormal_queried hi.inRange.objective hform) hposed hsave
  have hsolve : Exhaustive.solve (a.query q) written = .ok (.ofBest best) written := by
    subst hformula
    exact Exhaustive.solve_of_minimize hbest hstands
  exact ⟨_, ⟨s.store, ⟨Pipeline.posed_of_queried hform hposed, rfl⟩, written, hsave, written, hsolve,
    written, ⟨hanswer, rfl⟩, written, ⟨hexpected, rfl⟩, rfl⟩, fun p hp => hp.write hwritten⟩

/-! ### The whole run -/

/-- Every step of a small instance can be performed. -/
theorem exists_performed (hi : i.IsSmall) (ha : a.IsValid) (strategy : Strategy)
    (hs : i.CanWrite a s.store) : ∃ g s', g.output = .beside a.source ∧
      Performed (i.plan Exhaustive.toolchain strategy a g) s s' := by
  obtain ⟨rows, hrows, hsmall⟩ := hi.exists_rows
  have hcomputed : ∃ s₁, Performed [.compute i.rows rows] s s₁ ∧ s₁.store = s.store :=
    ⟨_, ⟨s.store, ⟨hrows, rfl⟩, rfl⟩, rfl⟩
  obtain ⟨s₁, hcomputed, hstore⟩ := hcomputed
  obtain ⟨cnf, s₂, hopening, hcnf, hqueries⟩ :=
    exists_opening hi ha strategy hrows hsmall (hstore ▸ hs)
  choose asked hasked using fun q => @exists_asked i a cnf hi hcnf q
  have hquery : ∀ q ∈ i.queries, ∀ s : Session,
      (∀ q ∈ i.queries, s.store.IsWritable (a.query q)) →
      ∃ s', Performed (askingSteps Exhaustive.toolchain a i cnf q (asked q)) s s' ∧
        ∀ q ∈ i.queries, s'.store.IsWritable (a.query q) := by
    intro q hq s hs
    obtain ⟨s', hdone, hkeeps⟩ := hasked q s (hs q hq)
    exact ⟨s', hdone, fun q' hq' => hkeeps _ (hs q' hq')⟩
  obtain ⟨s', hasking⟩ := performed_flatMap hquery hqueries
  refine ⟨⟨rows, .beside a.source, cnf, asked⟩, s', rfl, ?_⟩
  exact performed_append.2 ⟨s₂, performed_append.2 ⟨s₁, hcomputed, hopening⟩, hasking⟩

end Run

/-- A small instance passes with exhaustive tools if its files can be written: every effect is
attempted once and succeeds, the check of the clauses among them. -/
theorem runInstance_passes {root : Path} {i : Instance} {a : Artifacts} {s : Session}
    (strategy : Strategy) (hname : Artifacts.ofName root i.name = .ok a) (hi : i.IsSmall)
    (hs : i.CanWrite a s.store) :
    ∃ s', runInstance Exhaustive.toolchain root strategy i s = (⟨i.name, some a, .passed⟩, s') ∧
      s'.journal =
        s.journal ++ (i.effects a (EncoderOutput.beside a.source)).map (⟨·, true⟩) := by
  have ha := Artifacts.isValid_of_ofName hname
  obtain ⟨g, s', houtput, hdone⟩ := exists_performed hi ha strategy hs
  obtain ⟨vars, hvars, hle⟩ := hi.exists_oracleVars
  have hrun := checkInstance_of_performed Exhaustive.toolchain strategy a i hvars hle hdone
  have hfound : i.found g = [] :=
    checkInstance_eq_nil hi.inRange ha (Exhaustive.encode_leavesSource ha strategy) hrun
  refine ⟨s', ?_, ?_⟩
  · rw [runInstance_of_ok hname, hrun, hfound]
    rfl
  · rw [hdone.journal_eq, effectsOf_plan, houtput]

/-- `2 x1 + 0 x2 + 3 x1 = 5` with the side constraint `x3 >= 1`. -/
def tangledInstance : Instance where
  name := "t"
  coeffs := [2, 0, 3]
  vars := [x₁, x₂, x₁]
  degree := 5
  relation := .eq
  sideRows := [.ofTerms [⟨1, x₃.pos⟩] .geq 1]
  paired := rfl

theorem isSmall_tangledInstance : tangledInstance.IsSmall where
  vars := by decide
  weight := by decide
  sideRows := by
    intro r hr
    obtain rfl := List.mem_singleton.1 hr
    have hnormal : LinearForm.IsNormal ⟨[⟨1, x₃.pos⟩], 0⟩ := by decide
    exact ⟨(LinearForm.isNormal_iff.1 hnormal).1, by decide, by decide, rfl⟩

/-- Its files once its directory was made. -/
def tangledStore : Store := ⟨[([['r'], ['t']], .directory), ([['r']], .directory)]⟩

theorem canWrite_tangledInstance : tangledInstance.CanWrite ⟨⟨"r/t"⟩, "t"⟩ .empty := by
  refine ⟨tangledStore, rfl, fun p hp => ?_⟩
  have hfiles : ∀ p ∈ tangledInstance.files ⟨⟨"r/t"⟩, "t"⟩,
      (tangledStore.resolve p).any (fun loc => !tangledStore.isDirectory loc) = true := by
    decide +kernel
  obtain ⟨loc, hloc, hfile⟩ := (Option.any_eq_true ..).1 (hfiles p hp)
  exact Store.isWritable_iff.2 ⟨loc, hloc, by simpa using hfile⟩

theorem runInstance_passes_sample :
    ∃ s', runInstance Exhaustive.toolchain ⟨"r"⟩ .standard tangledInstance ⟨.empty, []⟩ =
        (⟨"t", some ⟨⟨"r/t"⟩, "t"⟩, .passed⟩, s') ∧
      s'.journal = (tangledInstance.effects ⟨⟨"r/t"⟩, "t"⟩
        (EncoderOutput.beside (Artifacts.source ⟨⟨"r/t"⟩, "t"⟩))).map (⟨·, true⟩) := by
  have hname : Artifacts.ofName ⟨"r"⟩ tangledInstance.name = .ok ⟨⟨"r/t"⟩, "t"⟩ := by
    decide +kernel
  exact runInstance_passes .standard hname isSmall_tangledInstance canWrite_tangledInstance

end PseudoBoolean
