import PseudoBoolean.Proofs.Cnf.RoundTrip
import PseudoBoolean.Proofs.Counting
import PseudoBoolean.Proofs.Linear.Bound
import PseudoBoolean.Proofs.Path

/-!
Blocking clauses have the models of their formula.

The clause that blocks an assignment is false there and true wherever a variable differs:

    x₁ = 1, x₂ = 0   ⟼   ~x₁ ∨ x₂        false at (1, 0), true at (0, 0), (0, 1), (1, 1)

So a valuation satisfies all of them exactly if it agrees with no violating assignment, which is to
say that it violates nothing itself. Clauses that are written beside the source of a formula are
therefore accepted by the check of both. Since a clause is false at one assignment only, there are
as many clauses as violating assignments (`Exhaustive.encodeFormula_blocks`).
-/

namespace PseudoBoolean

theorem Lit.holds_of_isNegative {l : Lit} (h : l.isNegative = true) (v : Valuation) :
    l.holds v = !v l.var := by
  have hpos : l.isPositive = false := by
    rw [← Bool.not_eq_true, Lit.isPositive_iff]
    have hneg := Lit.isNegative_iff.1 h
    omega
  rw [Lit.holds, hpos]
  cases v l.var <;> rfl

namespace Exhaustive

/-! ### One clause -/

/-- Whether a clause has one literal for each variable of an assignment, and is true where some
variable has another value. -/
structure Blocks (a : Assignment) (clause : Clause) : Prop where
  vars : clause.map (·.var) = a.support
  any : ∀ v, clause.any (·.holds v) = true ↔ ∃ x ∈ a.support, v x ≠ a.value x

/-- The literal of a variable that is false at a valuation. -/
theorem exists_blockingLit {x : Var} (hx : x.InRange) (w : Valuation) :
    ∃ l, (if w x then x.neg else return x.pos : Checked Lit) = .ok l ∧ l.var = x ∧
      ∀ v, l.holds v = true ↔ v x ≠ w x := by
  cases hw : w x with
  | true =>
    obtain ⟨l, hl, hvar, hneg⟩ := Var.exists_neg hx
    refine ⟨l, hl, hvar, fun v => ?_⟩
    rw [Lit.holds_of_isNegative hneg, hvar]
    cases v x <;> simp
  | false =>
    refine ⟨x.pos, rfl, Var.var_pos hx, fun v => ?_⟩
    rw [Lit.holds_pos hx]
    cases v x <;> simp

theorem any_of_blockingLits {support : List Var} {clause : Clause} {w : Valuation}
    (h : List.Forall₂ (fun x l => l.var = x ∧ ∀ v, l.holds v = true ↔ v x ≠ w x) support clause) :
    clause.map (·.var) = support ∧
      ∀ v, clause.any (·.holds v) = true ↔ ∃ x ∈ support, v x ≠ w x := by
  induction h with
  | nil => exact ⟨rfl, fun v => by simp⟩
  | cons hlit _ ih =>
    refine ⟨?_, fun v => ?_⟩
    · rw [List.map_cons, hlit.1, ih.1]
    · rw [List.any_cons, Bool.or_eq_true, hlit.2, ih.2, List.exists_mem_cons_iff]

/-- An assignment of variables in range can be blocked. -/
theorem exists_blocks {a : Assignment} (h : ∀ x ∈ a.support, x.InRange) :
    ∃ clause, blockingClause a = .ok clause ∧ Blocks a clause := by
  obtain ⟨clause, hclause, hlits⟩ := exists_mapM fun x hx => exists_blockingLit (h x hx) a.value
  obtain ⟨hvars, hany⟩ := any_of_blockingLits hlits
  exact ⟨clause, hclause, hvars, hany⟩

/-! ### All clauses -/

/-- Blocking clauses are satisfied together where no blocked assignment is met. -/
theorem isSatisfied_of_blocks {blocked : List Assignment} {clauses : List Clause}
    (h : List.Forall₂ Blocks blocked clauses) (v : Valuation) :
    (Cnf.ofClauses clauses).isSatisfied v = true ↔
      ∀ a ∈ blocked, ∃ x ∈ a.support, v x ≠ a.value x := by
  rw [Cnf.isSatisfied, Cnf.ofClauses, List.all_eq_true]
  induction h with
  | nil => simp
  | cons hblocks _ ih =>
    rw [List.forall_mem_cons, List.forall_mem_cons, hblocks.any, ih]

section Encode
variable {f : Opb} {sat : Valuation → Bool}

/-- The assignments of a formula's variables at which it is not satisfied. -/
def violating (f : Opb) (sat : Valuation → Bool) : List Assignment :=
  (assignments (Var.range f.numVars)).filter (!sat ·.value)

theorem mem_violating (hsat : ∀ v, f.isSatisfied v = .ok (sat v)) {a : Assignment} :
    a ∈ violating f sat ↔
      a ∈ assignments (Var.range f.numVars) ∧ ¬ ∀ r ∈ f.rows, r.Holds a.value := by
  rw [violating, List.mem_filter, Bool.not_eq_true', ← Bool.not_eq_true,
    Row.allSatisfied_eq_ok (hsat a.value)]

theorem support_of_violating {a : Assignment} (ha : a ∈ violating f sat) :
    a.support = Var.range f.numVars := by
  obtain ⟨m, _, rfl⟩ := mem_assignments.1 (List.mem_of_mem_filter ha)
  rfl

/-- A valuation violates a formula exactly if it meets a violating assignment of its variables. -/
theorem holds_iff_of_violating (hvars : ∀ r ∈ f.rows, ∀ x ∈ r.vars, x.id ≤ f.numVars)
    (hsat : ∀ v, f.isSatisfied v = .ok (sat v)) (v : Valuation) :
    (∀ r ∈ f.rows, r.Holds v) ↔ ∀ a ∈ violating f sat, ∃ x ∈ a.support, v x ≠ a.value x := by
  have hcongr : ∀ w : Valuation, (∀ x ∈ Var.range f.numVars, v x = w x) →
      ((∀ r ∈ f.rows, r.Holds v) ↔ ∀ r ∈ f.rows, r.Holds w) := fun w hw =>
    forall₂_congr fun r hr => Row.holds_congr fun x hx => hw x (Var.mem_range.2 (hvars r hr x hx))
  constructor
  · intro hholds a ha
    obtain ⟨hmem, hviolates⟩ := (mem_violating hsat).1 ha
    obtain ⟨m, _, rfl⟩ := mem_assignments.1 hmem
    by_contra hmeets
    refine hviolates ((hcongr _ fun x hx => ?_).1 hholds)
    by_contra hne
    exact hmeets ⟨x, hx, hne⟩
  · intro hmisses
    by_contra hviolates
    obtain ⟨m, hm, hagree⟩ := exists_assignment v (Var.range f.numVars)
    have hmem : ⟨Var.range f.numVars, m⟩ ∈ violating f sat := by
      refine (mem_violating hsat).2 ⟨mem_assignments.2 ⟨m, hm, rfl⟩, fun hholds => hviolates ?_⟩
      exact (hcongr _ fun x hx => (hagree x hx).symm).2 hholds
    obtain ⟨x, hx, hne⟩ := hmisses _ hmem
    exact hne (hagree x hx).symm

/-- A formula that can be enumerated and evaluated is encoded by a clause for each assignment that
violates it. -/
theorem exists_blocking (hn : f.numVars.toNat ≤ maxEnumerated)
    (hsat : ∀ v, f.isSatisfied v = .ok (sat v)) :
    ∃ clauses, encodeFormula f = .ok (.ofClauses clauses) ∧
      List.Forall₂ Blocks (violating f sat) clauses := by
  have hcap : (Var.range f.numVars).length ≤ maxEnumerated := by rwa [Var.length_range]
  have hselect : Assignment.select (Var.range f.numVars)
      (fun a => do return !(← f.isSatisfied a.value)) = .ok (violating f sat) :=
    Assignment.select_eq_filter hcap fun a => bind_eq_ok.2 ⟨_, hsat a.value, rfl⟩
  have hinRange : ∀ a ∈ violating f sat, ∀ x ∈ a.support, x.InRange := by
    intro a ha x hx
    rw [support_of_violating ha] at hx
    exact Var.inRange_of_le (Var.mem_range.1 hx) (Nat.lt_of_le_of_lt hn (by decide))
  obtain ⟨clauses, hclauses, hblocks⟩ := exists_mapM fun a ha => exists_blocks (hinRange a ha)
  exact ⟨clauses, bind_eq_ok.2 ⟨(), enumerable_eq_ok.2 hn, bind_eq_ok.2 ⟨_, hselect,
    bind_eq_ok.2 ⟨clauses, hclauses, rfl⟩⟩⟩, hblocks⟩

theorem vars_of_blocking {clauses : List Clause}
    (h : List.Forall₂ Blocks (violating f sat) clauses) :
    ∀ clause ∈ clauses, clause.map (·.var) = Var.range f.numVars := by
  intro clause hclause
  obtain ⟨a, ha, hblock⟩ := exists_mem_of_forall₂ h clause hclause
  rw [hblock.vars, support_of_violating ha]

/-- A formula that can be enumerated and evaluated is encoded: each clause has every variable of the
formula once, and the clauses have its models. -/
theorem exists_encodeFormula (hn : f.numVars.toNat ≤ maxEnumerated)
    (hvars : ∀ r ∈ f.rows, ∀ x ∈ r.vars, x.id ≤ f.numVars)
    (heval : ∀ v, ∃ b, f.isSatisfied v = .ok b) :
    ∃ clauses, encodeFormula f = .ok (.ofClauses clauses) ∧
      (∀ clause ∈ clauses, clause.map (·.var) = Var.range f.numVars) ∧
      ∀ v, (Cnf.ofClauses clauses).isSatisfied v = true ↔ ∀ r ∈ f.rows, r.Holds v := by
  choose sat hsat using heval
  obtain ⟨clauses, hencode, hblocks⟩ := exists_blocking hn hsat
  refine ⟨clauses, hencode, vars_of_blocking hblocks, fun v => ?_⟩
  rw [isSatisfied_of_blocks hblocks, holds_iff_of_violating hvars hsat]

/-! ### The number of clauses -/

/-- A clause blocks one assignment of its variables. -/
theorem Blocks.eq_of_support {a b : Assignment} {clause : Clause} (ha : Blocks a clause)
    (hb : Blocks b clause) : ∀ x ∈ b.support, a.value x = b.value x := by
  intro x hx
  by_contra hne
  obtain ⟨y, _, hy⟩ := (ha.any a.value).1 ((hb.any a.value).2 ⟨x, hx, hne⟩)
  exact hy rfl

/-- No assignment is blocked twice. -/
theorem nodup_of_blocking {clauses : List Clause}
    (h : List.Forall₂ Blocks (violating f sat) clauses) : clauses.Nodup := by
  have hdup := Var.nodup_range f.numVars
  have hassignments : (assignments (Var.range f.numVars)).Nodup :=
    List.nodup_range.map fun m m' e => congrArg Assignment.mask e
  refine nodup_of_forall₂ h (hassignments.filter _) fun a ha b hb clause hac hbc => ?_
  obtain ⟨m, hm, rfl⟩ := mem_assignments.1 (List.mem_of_mem_filter ha)
  obtain ⟨m', hm', rfl⟩ := mem_assignments.1 (List.mem_of_mem_filter hb)
  rw [Assignment.mask_inj hdup hm hm' (hac.eq_of_support hbc)]

/-- Every assignment of the variables is a model or is blocked. -/
theorem length_of_blocking {clauses : List Clause}
    (h : List.Forall₂ Blocks (violating f sat) clauses) :
    clauses.length + modelsOver (Var.range f.numVars) sat = Nat.pow 2 f.numVars.toNat := by
  have hall : (assignments (Var.range f.numVars)).length = Nat.pow 2 f.numVars.toNat := by
    rw [length_assignments, Var.length_range]
  have hsplit := List.length_eq_countP_add_countP (fun a : Assignment => sat a.value)
    (l := assignments (Var.range f.numVars))
  rw [← h.length_eq, violating, ← List.countP_eq_length_filter, ← hall, hsplit, Nat.add_comm]
  simp [modelsOver]

/-- A formula without variables and without a model is encoded by the empty clause. -/
theorem eq_of_blocking_of_zero {clauses : List Clause}
    (h : List.Forall₂ Blocks (violating f sat) clauses) (hzero : f.numVars = 0)
    (hfalse : ∀ v, sat v = false) : clauses = [[]] := by
  have hlength := length_of_blocking h
  have hnone : modelsOver (Var.range f.numVars) sat = 0 :=
    List.countP_eq_zero.2 fun a _ => by simp [hfalse]
  rw [hnone, hzero] at hlength
  obtain ⟨clause, rfl⟩ := List.length_eq_one_iff.1 hlength
  have hvars := vars_of_blocking h clause (List.mem_singleton_self _)
  rw [hzero] at hvars
  rw [List.map_eq_nil_iff.1 hvars]

/-- Clauses over the variables up to a count have none above. -/
theorem id_le_of_mem_vars {clauses : List Clause} {n d : UInt32}
    (h : ∀ clause ∈ clauses, clause.map (·.var) = Var.range n) :
    ∀ x ∈ (Cnf.mk clauses d).vars, x.id ≤ n := by
  intro x hx
  obtain ⟨l, hl, rfl⟩ := List.mem_map.1 hx
  obtain ⟨clause, hclause, hmem⟩ := List.mem_flatten.1 hl
  refine Var.mem_range.1 ?_
  rw [← h clause hclause]
  exact List.mem_map_of_mem hmem

/-- The encoding of a formula has its models, and one clause for each assignment that is none. So
its models and those of the formula are as many, over any number of variables. The rows ascend, as
every normalized row does. -/
theorem encodeFormula_blocks (hasc : ∀ r ∈ f.rows, r.lhs.IsAscending) (hn : f.numVars.toNat ≤ 24)
    (heval : ∀ v, ∃ b, f.isSatisfied v = .ok b) :
    ∃ cnf, encodeFormula f = .ok cnf ∧ (∀ v, f.isSatisfied v = .ok (cnf.isSatisfied v)) ∧
      cnf.clauses.Nodup ∧ (∀ clause ∈ cnf.clauses, clause.map (·.var) = Var.range f.numVars) ∧
      (∃ models, Oracle.countModels f.rows f.numVars = .ok models ∧
        cnf.clauses.length + models = Nat.pow 2 f.numVars.toNat) ∧
      (∀ m, f.numVars ≤ m → ∃ models, cnf.countModels m = .ok models ∧
        Oracle.countModels f.rows m = .ok models) ∧
      (f.numVars = 0 → (∀ v, f.isSatisfied v = .ok false) → cnf.clauses = [[]]) := by
  have hvars : ∀ r ∈ f.rows, ∀ x ∈ r.vars, x.id ≤ f.numVars := fun r hr x hx =>
    Opb.le_numVars hr (hasc r hr) hx
  have hrows : ∀ x ∈ f.rows.flatMap Row.vars, x.id ≤ f.numVars := List.forall_mem_flatMap.2 hvars
  choose sat hsat using heval
  obtain ⟨clauses, hencode, hblocks⟩ := exists_blocking hn hsat
  have hmodels : (Cnf.ofClauses clauses).isSatisfied = sat := by
    funext v
    rw [Bool.eq_iff_iff, isSatisfied_of_blocks hblocks, Row.allSatisfied_eq_ok (hsat v),
      holds_iff_of_violating hvars hsat]
  have hclauses := vars_of_blocking hblocks
  have hcnf := id_le_of_mem_vars (d := 0) hclauses
  have hcount : ∀ m, f.numVars ≤ m →
      Oracle.countModels f.rows m = .ok (modelsOver (Var.range m) sat) := by
    intro m hm
    exact Oracle.countModels_eq ((length_sortedVars_le hrows).trans hn)
      (fun x hx => UInt32.le_trans (hrows x hx) hm) hsat
  refine ⟨.ofClauses clauses, hencode, ?_, nodup_of_blocking hblocks, hclauses,
    ⟨_, hcount _ (UInt32.le_refl _), length_of_blocking hblocks⟩,
    fun m hm => ⟨_, ?_, hcount m hm⟩, fun hzero hfalse => ?_⟩
  · rwa [hmodels]
  · rw [← hmodels]
    exact Cnf.countModels_eq ((length_sortedVars_le hcnf).trans hn)
      fun x hx => UInt32.le_trans (hcnf x hx) hm
  · exact eq_of_blocking_of_zero hblocks hzero fun v =>
      Except.ok.inj ((hsat v).symm.trans (hfalse v))

/-- A row that tells its variables apart, and their values. -/
def sampleRow : Row := .ofTerms [⟨1, x₁.pos⟩, ⟨-2, x₂.pos⟩, ⟨3, x₃.pos⟩] .geq 1

theorem encodeFormula_blocks_sample : ∃ cnf, encodeFormula (.ofRows [sampleRow]) = .ok cnf ∧
    cnf.clauses.length = 3 ∧ cnf.countModels 5 = .ok 20 := by
  have hasc : ∀ r ∈ (Opb.ofRows [sampleRow]).rows, r.lhs.IsAscending := by
    simp only [LinearForm.IsAscending]
    decide
  have heval : ∀ v, ∃ b, (Opb.ofRows [sampleRow]).isSatisfied v = .ok b := by
    intro v
    have hweight : ∀ r ∈ [sampleRow], Term.weight r.terms ≤ Word.largest := by decide
    obtain ⟨b, hb, _⟩ := Row.exists_allSatisfied hweight v
    exact ⟨b, hb⟩
  have hthree : Oracle.countModels (Opb.ofRows [sampleRow]).rows 3 = .ok 5 := by decide
  have hfive : Oracle.countModels (Opb.ofRows [sampleRow]).rows 5 = .ok 20 := by decide
  obtain ⟨cnf, hencode, _, _, _, ⟨models, hmodels, hlength⟩, hcounts, _⟩ :=
    encodeFormula_blocks hasc (by decide) heval
  obtain ⟨models', hcnf, hrows⟩ := hcounts 5 (by decide)
  obtain rfl : 5 = models := Except.ok.inj (hthree.symm.trans hmodels)
  obtain rfl : 20 = models' := Except.ok.inj (hfive.symm.trans hrows)
  exact ⟨cnf, hencode, Nat.add_right_cancel hlength, hcnf⟩

/-! ### The check of the encoding -/

/-- Clauses over the variables of a formula that have its models do not differ from it. -/
theorem difference?_of_models {cnf : Cnf} (hn : f.numVars.toNat ≤ maxEnumerated)
    (hvars : ∀ r ∈ f.rows, ∀ x ∈ r.vars, x.id ≤ f.numVars)
    (heval : ∀ v, ∃ b, f.isSatisfied v = .ok b) (hcnf : cnf.numVars = f.numVars)
    (hmodels : ∀ v, cnf.isSatisfied v = true ↔ ∀ r ∈ f.rows, r.Holds v) :
    difference? f cnf = .ok none := by
  have hagree : ∀ v, Agree f cnf v := by
    intro v
    constructor
    · intro hholds
      exact ⟨v, fun _ _ => rfl, (hmodels v).2 hholds⟩
    · rintro ⟨w, hsame, hsat⟩ r hr
      exact (Row.holds_congr fun x hx => (hsame x (hvars r hr x hx)).symm).2 ((hmodels w).1 hsat r hr)
  have haux : cnf.numVars.toNat ≤ f.numVars.toNat + maxEnumerated := by
    rw [hcnf]
    exact Nat.le_add_right ..
  obtain ⟨found, hfound⟩ := exists_difference? hn haux heval
  cases found with
  | none => exact hfound
  | some a =>
    obtain ⟨_, _, _, hdiffer, _⟩ := difference?_eq_some hfound
    exact absurd (hagree a.value) hdiffer

/-- Clauses without variables above a count need no more than that count declared. -/
theorem numVars_eq_declared {clauses : List Clause} {n : UInt32}
    (h : ∀ clause ∈ clauses, clause.map (·.var) = Var.range n) : (Cnf.mk clauses n).numVars = n := by
  refine foldl_max_eq_iff.2 fun id hid => ?_
  obtain ⟨x, hx, rfl⟩ := List.mem_map.1 hid
  exact id_le_of_mem_vars h x hx

/-- What is encoded beside a source is accepted and can be loaded, if its files can be written. -/
theorem encode_accepted {a : Artifacts} {s : Store} (ha : a.IsValid) (strategy : Strategy)
    (hsource : Opb.load a.source s = .ok f s) (hn : f.numVars.toNat ≤ maxEnumerated)
    (hvars : ∀ r ∈ f.rows, ∀ x ∈ r.vars, x.id ≤ f.numVars)
    (heval : ∀ v, ∃ b, f.isSatisfied v = .ok b)
    (hcnf : s.IsWritable (EncoderOutput.beside a.source).cnf)
    (hproof : s.IsWritable (EncoderOutput.beside a.source).proof) :
    ∃ clauses s', encode a.source strategy s = .ok (.beside a.source) s' ∧
      check a.source (EncoderOutput.beside a.source).proof s' = .ok () s' ∧
      Cnf.load (EncoderOutput.beside a.source).cnf s' = .ok ⟨clauses, f.numVars⟩ s' ∧
      (∀ clause ∈ clauses, clause.map (·.var) = Var.range f.numVars) ∧
      ∀ p, s.IsWritable p → s'.IsWritable p := by
  obtain ⟨clauses, hencode, hclauses, hmodels⟩ := exists_encodeFormula hn hvars heval
  have hcount : (Cnf.mk clauses f.numVars).numVars = f.numVars := numVars_eq_declared hclauses
  obtain ⟨s₁, hs₁⟩ := hcnf (Cnf.mk clauses f.numVars).render.toUTF8
  obtain ⟨s₂, hs₂⟩ := (hproof.write hs₁) proofHeader.toUTF8
  have hkeeps : ∀ p, s.IsWritable p → s₂.IsWritable p := fun p hp => (hp.write hs₁).write hs₂
  -- neither file that was written is the source, and the second one is not the first
  have hsource₂ : Opb.load a.source s₂ = .ok f s₂ := by
    obtain ⟨text, htext, hparse, _⟩ := Opb.load_eq_ok.1 hsource
    refine Opb.load_eq_ok.2 ⟨text, ?_, hparse, rfl⟩
    rw [Store.text?, Artifacts.read_source_write ha (by decide) (by decide) hs₂,
      Artifacts.read_source_write ha (by decide) (by decide) hs₁]
    exact htext
  have hcnf₂ : Cnf.load (EncoderOutput.beside a.source).cnf s₂ = .ok ⟨clauses, f.numVars⟩ s₂ := by
    refine Cnf.load_eq_ok.2 ⟨(Cnf.mk clauses f.numVars).render, ?_, ?_, rfl⟩
    · rw [Store.text?, Artifacts.read_cnf_write ha (hcnf.write hs₁) hs₂]
      exact Store.text?_write hs₁
    · rw [Cnf.parse_render, hcount]
  refine ⟨clauses, s₂, ?_, ?_, hcnf₂, hclauses, hkeeps⟩
  · simp only [encode]
    rw [run_bind_of_ok hsource, run_lift_bind_of_ok hencode]
    refine run_bind_eq_ok.2 ⟨(), s₁, Cnf.save_eq_ok.2 hs₁, ?_⟩
    exact run_bind_eq_ok.2 ⟨(), s₂, Action.writeText_eq_ok.2 hs₂, rfl⟩
  · have hproof₂ : s₂.text? (EncoderOutput.beside a.source).proof = some proofHeader :=
      Store.text?_write hs₂
    rw [← Artifacts.cnf_beside_proof ha] at hcnf₂
    exact check_of_loads hproof₂ (List.prefix_refl _) hsource₂ hcnf₂
      (difference?_of_models hn hvars heval hcount hmodels) (by simp)

end Encode

end Exhaustive

end PseudoBoolean
