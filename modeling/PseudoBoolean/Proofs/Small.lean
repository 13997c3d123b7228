import PseudoBoolean.Proofs.Journal
import PseudoBoolean.Proofs.Linear.Bound
import PseudoBoolean.Proofs.Soundness

/-!
Everything about a small instance can be computed.

An instance is small if its variables are among the few that are enumerated and the absolute
coefficients of each constraint sum to a word at most. Then no sum overflows and no enumeration is
refused, whatever the degree: the left-hand side has positive literals only, so nothing moves into
the degree. The rows, the number of variables, the expected answers and the queries over clauses of
few literals all exist.
-/

namespace PseudoBoolean

/-! ### Small forms -/

/-- Whether a form without a constant is over few variables and its weight fits a word. -/
structure LinearForm.IsSmall (f : LinearForm) : Prop where
  vars : ∀ x ∈ f.vars, x.id ≤ 24
  weight : Term.weight f.terms ≤ Word.largest
  offset : f.offset = 0

section Forms
variable {f : LinearForm} {terms : List Term}

theorem LinearForm.IsSmall.natAbs_value_le (h : f.IsSmall) (v : Valuation) :
    (f.value v).natAbs ≤ Word.largest := by
  have hle := f.natAbs_value_le v
  rw [h.offset] at hle
  exact Nat.le_trans hle h.weight

/-- A small form has a value everywhere. -/
theorem LinearForm.IsSmall.exists_evaluate (h : f.IsSmall) (v : Valuation) :
    ∃ a, f.evaluate v = .ok a := by
  obtain ⟨a, ha, _⟩ := LinearForm.exists_evaluate h.weight (h.natAbs_value_le v)
  exact ⟨a, ha⟩

/-- The negation of a small form is small. -/
theorem LinearForm.IsSmall.exists_negate (h : f.IsSmall) : ∃ g, f.negate = .ok g ∧ g.IsSmall := by
  obtain ⟨terms, hterms, hweight⟩ := Term.exists_mapM_neg h.weight
  have hneg : Word.neg f.offset = .ok 0 := by
    rw [h.offset]
    decide
  refine ⟨⟨terms, 0⟩, bind_eq_ok.2 ⟨terms, hterms, bind_eq_ok.2 ⟨0, hneg, rfl⟩⟩, ?_, ?_, rfl⟩
  · intro x hx
    have hvars : LinearForm.vars ⟨terms, 0⟩ = f.vars := vars_neg_coeff (mapM_neg_coeff hterms)
    exact h.vars x (hvars ▸ hx)
  · exact hweight.trans_le h.weight

/-- Positive literals of few variables whose weight fits are collected into a small form. -/
theorem LinearForm.exists_collect_isSmall (hpos : ∀ t ∈ terms, t.lit.isPositive = true)
    (hvars : ∀ t ∈ terms, t.lit.var.id ≤ 24) (hweight : Term.weight terms ≤ Word.largest) :
    ∃ f, LinearForm.collect terms 0 = .ok f ∧ f.IsSmall := by
  have hfits : (0 : Int64).toInt.natAbs + Term.weight terms ≤ Word.largest := by simpa using hweight
  obtain ⟨f, hf, hle, _⟩ := LinearForm.exists_collect hfits
  refine ⟨f, hf, fun x hx => ?_, Nat.le_trans hle hweight, LinearForm.offset_collect hpos hf⟩
  obtain ⟨t, ht, rfl⟩ := LinearForm.exists_term_of_collect hf hx
  exact hvars t ht

end Forms

/-! ### The oracle -/

/-- The oracle answers over small rows and a small objective. -/
theorem Oracle.exists_optimum {rows : List Row} {objective : LinearForm}
    (better : Int64 → Int64 → Int64) (hrows : ∀ r ∈ rows, r.lhs.IsSmall)
    (hobjective : objective.IsSmall) : ∃ best, optimum better rows objective = .ok best := by
  have hvars : ∀ x ∈ rows.flatMap Row.vars ++ [objective].flatMap LinearForm.vars, x.id ≤ 24 := by
    intro x hx
    rcases List.mem_append.1 hx with hx | hx
    · obtain ⟨r, hr, hxr⟩ := List.mem_flatMap.1 hx
      exact (hrows r hr).vars x hxr
    · obtain ⟨g, hg, hxg⟩ := List.mem_flatMap.1 hx
      obtain rfl := List.mem_singleton.1 hg
      exact hobjective.vars x hxg
  refine Assignment.exists_visit (length_sortedVars_le hvars) (fun best a => ?_) none
  obtain ⟨sat, hsat, _⟩ := Row.exists_allSatisfied (fun r hr => (hrows r hr).weight) a.value
  obtain ⟨value, hvalue⟩ := hobjective.exists_evaluate a.value
  cases sat with
  | true => exact ⟨_, bind_eq_ok.2 ⟨true, hsat, bind_eq_ok.2 ⟨value, hvalue, rfl⟩⟩⟩
  | false => exact ⟨best, bind_eq_ok.2 ⟨false, hsat, rfl⟩⟩

namespace SubsetSum
variable {coeffs : List Int64}

theorem exists_optimum (better : Int64 → Int64 → Int64) (degree : Int64)
    (hcap : coeffs.length ≤ maxEnumerated) (hweight : Word.weight coeffs ≤ Word.largest) :
    ∃ best, optimum better coeffs degree = .ok best := by
  have hstep : ∀ (best : Option Int64) (mask : Nat), ∃ best', (do
      let sum ← value coeffs mask
      return if degree ≤ sum then some (best.elim sum (better · sum)) else best :
        Checked (Option Int64)) = .ok best' := by
    intro best mask
    obtain ⟨sum, hsum⟩ := exists_value hweight mask
    exact ⟨_, bind_eq_ok.2 ⟨sum, hsum, rfl⟩⟩
  obtain ⟨best, hbest⟩ := Mask.exists_visit hstep (Nat.pow 2 coeffs.length) 0 none
  exact ⟨best, bind_eq_ok.2 ⟨(), enumerable_eq_ok.2 hcap, hbest⟩⟩

theorem exists_exactly (degree : Int64) (hcap : coeffs.length ≤ maxEnumerated)
    (hweight : Word.weight coeffs ≤ Word.largest) : ∃ best, exactly coeffs degree = .ok best := by
  have htest : ∀ mask, ∃ hit, (do return (← value coeffs mask) == degree : Checked Bool) =
      .ok hit := by
    intro mask
    obtain ⟨sum, hsum⟩ := exists_value hweight mask
    exact ⟨_, bind_eq_ok.2 ⟨sum, hsum, rfl⟩⟩
  have hsearch : ∃ found, Mask.search (fun mask => do return (← value coeffs mask) == degree)
      (Nat.pow 2 coeffs.length) 0 = .ok found := Mask.exists_search fun mask _ _ => htest mask
  obtain ⟨found, hfound⟩ := hsearch
  exact ⟨_, bind_eq_ok.2 ⟨(), enumerable_eq_ok.2 hcap, bind_eq_ok.2 ⟨found, hfound, rfl⟩⟩⟩

end SubsetSum

/-! ### Small instances -/

namespace Instance
variable {i : Instance}

/-- Whether the variables are few, the side constraints were collected from some terms, and the
absolute coefficients of each constraint sum to a word at most. -/
structure IsSmall (i : Instance) : Prop where
  vars : ∀ x ∈ i.vars, x.id ≤ 24
  weight : Word.weight i.coeffs ≤ Word.largest
  sideRows : ∀ r ∈ i.sideRows, r.lhs.IsCollected ∧ r.lhs.IsSmall

/-- Few distinct variables make a small instance if a bound on their coefficients, taken as many
times, is a word. -/
theorem isSmall_of_le {n : UInt32} {bound : Nat} (hn : n ≤ 24)
    (hfits : n.toNat * bound ≤ Word.largest) (hvars : ∀ x ∈ i.vars, x.id ≤ n)
    (hnodup : i.vars.Nodup) (hcoeffs : ∀ c ∈ i.coeffs, c.toInt.natAbs ≤ bound)
    (hside : ∀ r ∈ i.sideRows, r.lhs.IsCollected ∧ r.lhs.IsSmall) : i.IsSmall := by
  have hlength : i.coeffs.length ≤ n.toNat := i.paired ▸ Var.length_le_of_nodup hnodup hvars
  refine ⟨fun x hx => UInt32.le_trans (hvars x hx) hn, ?_, hside⟩
  calc
    Word.weight i.coeffs ≤ i.coeffs.length * bound := Word.weight_le hcoeffs
    _ ≤ n.toNat * bound := Nat.mul_le_mul_right _ hlength
    _ ≤ Word.largest := hfits

theorem IsSmall.inRange (hi : i.IsSmall) : i.InRange := by
  have hr : ∀ x : Var, x.id ≤ 24 → x.InRange := fun x hx => Var.inRange_of_le hx (by decide)
  refine ⟨fun x hx => hr x (hi.vars x hx), fun r hrow => LinearForm.isNormal_iff.2 ?_⟩
  obtain ⟨hcollected, hsmall⟩ := hi.sideRows r hrow
  exact ⟨hcollected, fun x hx => hr x (hsmall.vars x hx)⟩

/-- The terms of the left-hand side have the coefficients of the instance. -/
theorem weight_zipWith {coeffs : List Int64} {vars : List Var}
    (h : coeffs.length = vars.length) :
    Term.weight (coeffs.zipWith (fun c x => ⟨c, x.pos⟩) vars) = Word.weight coeffs := by
  induction coeffs generalizing vars with
  | nil => rfl
  | cons c coeffs ih =>
    cases vars with
    | nil => exact absurd h nofun
    | cons x vars =>
      rw [List.zipWith_cons_cons, Term.weight_cons, Word.weight_cons, ih (Nat.succ.inj h)]

/-- The row of an instance exists if its coefficients fit beside the degree. -/
theorem exists_row (h : Word.weight i.coeffs + i.degree.toInt.natAbs ≤ Word.largest) :
    ∃ row, i.constraint.normalize = .ok row ∧ Term.weight row.terms ≤ Word.weight i.coeffs := by
  have hweight : Term.weight (i.coeffs.zipWith (fun c x => ⟨c, x.pos⟩) i.vars) =
      Word.weight i.coeffs := weight_zipWith i.paired
  rw [← hweight] at h ⊢
  exact Constraint.exists_normalize h

/-- The form of a left-hand side exists if the coefficients fit. It has no constant. -/
theorem exists_objective (hr : ∀ x ∈ i.vars, x.InRange) (h : Word.weight i.coeffs ≤ Word.largest) :
    ∃ form, i.objective.normalize = .ok form ∧ Term.weight form.terms ≤ Word.weight i.coeffs ∧
      form.offset = 0 := by
  have hpos : ∀ t ∈ i.coeffs.zipWith (fun c x => Term.mk c x.pos) i.vars,
      t.lit.isPositive = true := by
    intro t ht
    obtain ⟨x, hx, hlit⟩ := Term.exists_var_of_mem_zipWith ht
    rw [hlit, Var.isPositive_pos (hr x hx)]
  have hweight : Term.weight (i.coeffs.zipWith (fun c x => ⟨c, x.pos⟩) i.vars) =
      Word.weight i.coeffs := weight_zipWith i.paired
  rw [← hweight] at h ⊢
  have hfits : (0 : Int64).toInt.natAbs +
      Term.weight (i.coeffs.zipWith (fun c x => ⟨c, x.pos⟩) i.vars) ≤ Word.largest := by
    simpa using h
  obtain ⟨form, hform, hle, _⟩ := LinearForm.exists_collect hfits
  exact ⟨form, hform, hle, LinearForm.offset_collect hpos hform⟩

/-- The left-hand side of a small instance has a small form. -/
theorem IsSmall.exists_objective (hi : i.IsSmall) :
    ∃ form, i.objective.normalize = .ok form ∧ form.IsSmall := by
  have hr := hi.inRange.vars
  obtain ⟨form, hform, hweight, hoffset⟩ := Instance.exists_objective hr hi.weight
  refine ⟨form, hform, fun x hx => ?_, Nat.le_trans hweight hi.weight, hoffset⟩
  exact hi.vars x (vars_objective_subset hr hform hx)

/-- A small instance has rows, and they are small. -/
theorem IsSmall.exists_rows (hi : i.IsSmall) :
    ∃ rows, i.rows = .ok rows ∧ ∀ r ∈ rows, r.lhs.IsSmall := by
  obtain ⟨form, hform, hsmall⟩ := hi.exists_objective
  have hsub : Word.sub i.degree form.offset = .ok i.degree := by
    rw [hsmall.offset, Word.sub_zero]
  refine ⟨_, rows_eq_ok.2 ⟨form, i.degree, hform, hsub, rfl⟩, List.forall_mem_cons.2 ⟨?_, ?_⟩⟩
  · exact ⟨hsmall.vars, hsmall.weight, rfl⟩
  · exact fun r hr => (hi.sideRows r hr).2

theorem length_vars_le (hi : i.IsSmall) (hplain : i.isPlain = true) :
    i.vars.length ≤ maxEnumerated := by
  simp only [isPlain, Bool.and_eq_true, decide_eq_true_iff] at hplain
  exact Var.length_le_of_nodup hplain.2 hi.vars

/-- A small instance is not refused. -/
theorem IsSmall.exists_oracleVars (hi : i.IsSmall) :
    ∃ vars, i.oracleVars = .ok vars ∧ vars ≤ maxEnumerated := by
  rw [oracleVars]
  split
  · next hplain => exact ⟨_, rfl, length_vars_le hi hplain⟩
  · obtain ⟨rows, hrows, hsmall⟩ := hi.exists_rows
    have hvars : ∀ x ∈ rows.flatMap Row.vars, x.id ≤ 24 := by
      intro x hx
      obtain ⟨r, hr, hxr⟩ := List.mem_flatMap.1 hx
      exact (hsmall r hr).vars x hxr
    refine ⟨_, bind_eq_ok.2 ⟨rows, hrows, rfl⟩, ?_⟩
    rw [Oracle.support_rows]
    exact length_sortedVars_le hvars

/-- A small instance has an expected answer to each query. -/
theorem IsSmall.exists_expected (hi : i.IsSmall) (q : Query) : ∃ e, i.expected q = .ok e := by
  simp only [expected]
  split
  · next hplain =>
    have hcap : i.coeffs.length ≤ maxEnumerated := i.paired ▸ length_vars_le hi hplain
    cases i.relation with
    | eq => exact SubsetSum.exists_exactly i.degree hcap hi.weight
    | geq => cases q <;> exact SubsetSum.exists_optimum _ i.degree hcap hi.weight
  · obtain ⟨form, hform, hsmall⟩ := hi.exists_objective
    obtain ⟨rows, hrows, hsmallRows⟩ := hi.exists_rows
    obtain ⟨e, he⟩ := Oracle.exists_optimum q.better hsmallRows hsmall
    refine ⟨e, bind_eq_ok.2 ⟨form, hform, bind_eq_ok.2 ⟨rows, hrows, ?_⟩⟩⟩
    cases q <;> exact he

end Instance

/-! ### Queries -/

/-- A clause of few literals on few variables has a small row. -/
theorem Clause.exists_toRow {clause : Clause} (hlen : clause.length ≤ 24)
    (hvars : ∀ l ∈ clause, l.var.id ≤ 24) : ∃ row, clause.toRow = .ok row ∧ row.lhs.IsSmall := by
  obtain ⟨row, hrow, hweight, hsource⟩ := Clause.exists_row (Nat.lt_of_le_of_lt hlen (by decide))
  refine ⟨row, hrow, fun x hx => ?_, hweight, row.offset_eq⟩
  obtain ⟨l, hl, rfl⟩ := hsource x hx
  exact hvars l hl

namespace Pipeline
variable {i : Instance} {q : Query} {form : LinearForm}

/-- The form that a query minimizes is small. -/
theorem exists_queried (hi : i.IsSmall) (q : Query) :
    ∃ form, queried i.objective q = .ok form ∧ form.IsSmall := by
  obtain ⟨form, hform, hsmall⟩ := hi.exists_objective
  cases q with
  | minimize => exact ⟨form, hform, hsmall⟩
  | maximize =>
    obtain ⟨negated, hnegated, hsmall'⟩ := hsmall.exists_negate
    exact ⟨negated, bind_eq_ok.2 ⟨form, hform, hnegated⟩, hsmall'⟩

/-- An optimum of a small form is reported. -/
theorem exists_reported (hform : queried i.objective q = .ok form) (hsmall : form.IsSmall)
    {best : Option Int64} (hbest : ∀ m ∈ best, ∃ v, m.toInt = form.value v) :
    ∃ answer, reported i.objective q (.ofBest best) = .ok answer := by
  have hshifted : (Answer.ofBest best).shifted form.offset = .ok (.ofBest best) := by
    rw [hsmall.offset]
    cases best with
    | none => rfl
    | some m =>
      exact bind_eq_ok.2 ⟨some m, map_eq_ok.2 ⟨m, Word.add_zero m, rfl⟩, rfl⟩
  have hsettled : ∃ answer, settled q (.ofBest best) = .ok answer := by
    cases q with
    | minimize => exact ⟨_, rfl⟩
    | maximize =>
      cases best with
      | none => exact ⟨_, rfl⟩
      | some m =>
        obtain ⟨v, hv⟩ := hbest m rfl
        have hfits : (-m.toInt).natAbs ≤ Word.largest := by
          rw [Int.natAbs_neg, hv]
          exact hsmall.natAbs_value_le v
        obtain ⟨m', hm', _⟩ := Word.exists_checked .negate hfits
        exact ⟨_, bind_eq_ok.2 ⟨some m', map_eq_ok.2 ⟨m', hm', rfl⟩, rfl⟩⟩
  obtain ⟨answer, hanswer⟩ := hsettled
  exact ⟨answer, bind_eq_ok.2 ⟨form, hform, bind_eq_ok.2 ⟨_, hshifted, hanswer⟩⟩⟩

end Pipeline

end PseudoBoolean
