import PseudoBoolean.Instance.Basic
import PseudoBoolean.Proofs.Linear.Normal
import PseudoBoolean.Proofs.Optimum

/-!
The expected answer of an instance is the optimum of its left-hand side.

An instance whose variables are distinct is decided from its coefficients: the subsets of the
coefficients are the assignments of the variables (`Instance.total_objective`). The others are
decided over the variables. Both ways give the optimum over all valuations that satisfy the
constraint and the side constraints (`Instance.isOptimum_expected`), so where both can be taken they
agree (`Instance.expected_decides`). No more variables are enumerated than were counted beforehand
(`Instance.length_support_le`).
-/

namespace PseudoBoolean

/-! ### Subset sums -/

namespace SubsetSum

/-- The subset sum of a mask, over the integers. -/
def total (coeffs : List Int64) (mask : Nat) : Int := ((selected coeffs mask).map Int64.toInt).sum

theorem value_eq_ok {coeffs : List Int64} {mask : Nat} {a : Int64}
    (h : value coeffs mask = .ok a) : a.toInt = total coeffs mask :=
  Word.sum_eq_ok (value_eq_sum coeffs mask ▸ h)

/-- The best subset sum that is large enough. -/
theorem isOptimum_of_optimum {q : Query} {coeffs : List Int64} {degree : Int64}
    {best : Option Int64} (h : optimum q.better coeffs degree = .ok best) :
    q.IsOptimum {x | ∃ m < Nat.pow 2 coeffs.length, degree.toInt ≤ total coeffs m ∧
      x = total coeffs m} best := by
  obtain ⟨_, _, h⟩ := bind_eq_ok.1 h
  refine Query.isOptimum_visit q _ (total coeffs) ?_ h
  intro b m b' hstep
  obtain ⟨sum, hsum, hstep⟩ := bind_eq_ok.1 hstep
  obtain rfl := pure_eq_ok.1 hstep
  have htotal := value_eq_ok hsum
  split
  · next hle => exact Or.inl ⟨htotal ▸ Int64.le_iff_toInt_le.1 hle, sum, htotal, rfl⟩
  · next hlt => exact Or.inr ⟨fun hle => hlt (Int64.le_iff_toInt_le.2 (htotal ▸ hle)), rfl⟩

/-- A subset sum that is hit exactly, as the optimum of either query. -/
theorem isOptimum_of_exactly {q : Query} {coeffs : List Int64} {degree : Int64}
    {best : Option Int64} (h : exactly coeffs degree = .ok best) :
    q.IsOptimum {x | ∃ m < Nat.pow 2 coeffs.length, total coeffs m = degree.toInt ∧
      x = total coeffs m} best := by
  obtain ⟨_, _, h⟩ := bind_eq_ok.1 h
  obtain ⟨found, hfound, h⟩ := bind_eq_ok.1 h
  obtain rfl := pure_eq_ok.1 h
  have hhit : ∀ m b, (do return (← value coeffs m) == degree : Checked Bool) = .ok b →
      (b = true ↔ total coeffs m = degree.toInt) := by
    intro m b hb
    obtain ⟨sum, hsum, hb⟩ := bind_eq_ok.1 hb
    obtain rfl := pure_eq_ok.1 hb
    rw [beq_iff_eq, ← value_eq_ok hsum, Int64.toInt_inj]
  cases found with
  | none =>
    refine Set.eq_empty_of_forall_notMem ?_
    rintro x ⟨m, hm, htotal, _⟩
    have hmiss := Mask.search_eq_none hfound m (Nat.zero_le _) (by omega)
    exact absurd ((hhit m false hmiss).2 htotal) nofun
  | some m =>
    obtain ⟨_, hm, hp, _⟩ := Mask.search_eq_some hfound
    have htotal := (hhit m true hp).1 rfl
    have hmem : ∃ n < Nat.pow 2 coeffs.length, total coeffs n = degree.toInt ∧
        degree.toInt = total coeffs n := ⟨m, by omega, htotal, htotal.symm⟩
    -- every member of the set is the degree, so it is the least and the greatest one
    cases q with
    | minimize => exact ⟨hmem, fun x ⟨n, _, hn, hx⟩ => le_of_eq (hx.trans hn).symm⟩
    | maximize => exact ⟨hmem, fun x ⟨n, _, hn, hx⟩ => le_of_eq (hx.trans hn)⟩

theorem overflowsOnly_value (coeffs : List Int64) (mask : Nat) :
    OverflowsOnly (value coeffs mask) := by
  rw [value_eq_sum]
  exact .foldlM (fun _ _ => .checked _ _) _ _

section Overflow
variable {coeffs : List Int64}

/-- The best subset sum of few coefficients is found, unless a sum overflows. -/
theorem overflowsOnly_optimum (better : Int64 → Int64 → Int64) (degree : Int64)
    (hcap : coeffs.length ≤ maxEnumerated) : OverflowsOnly (optimum better coeffs degree) :=
  .bind (overflowsOnly_enumerable hcap) fun _ => Mask.overflowsOnly_visit
    (fun _ m => .bind (overflowsOnly_value coeffs m) fun _ => .pure _) _ _ _

theorem overflowsOnly_exactly (degree : Int64) (hcap : coeffs.length ≤ maxEnumerated) :
    OverflowsOnly (exactly coeffs degree) :=
  .bind (overflowsOnly_enumerable hcap) fun _ => .bind (Mask.overflowsOnly_search
    (fun m => .bind (overflowsOnly_value coeffs m) fun _ => .pure _) _ _) fun _ => .pure _

end Overflow

end SubsetSum

/-! ### Instances -/

namespace Instance

/-- Whether a valuation satisfies the main constraint and every side constraint. -/
def Holds (i : Instance) (v : Valuation) : Prop :=
  i.constraint.Holds v ∧ ∀ r ∈ i.sideRows, r.Holds v

/-- The values of the left-hand side at the solutions. -/
def values (i : Instance) : Set Int := {x | ∃ v, i.Holds v ∧ x = i.objective.value v}

/-- The rows are the objective's form against the degree, and the side constraints. -/
theorem rows_eq_ok {i : Instance} {rows : List Row} : i.rows = .ok rows ↔
    ∃ form degree, i.objective.normalize = .ok form ∧ Word.sub i.degree form.offset = .ok degree ∧
      rows = .ofTerms form.terms i.relation degree :: i.sideRows := by
  constructor
  · intro h
    obtain ⟨row, hrow, h⟩ := bind_eq_ok.1 h
    obtain ⟨form, hform, hrow⟩ := bind_eq_ok.1 hrow
    obtain ⟨degree, hdegree, hrow⟩ := bind_eq_ok.1 hrow
    obtain rfl := pure_eq_ok.1 hrow
    exact ⟨form, degree, hform, hdegree, (pure_eq_ok.1 h).symm⟩
  · rintro ⟨form, degree, hform, hdegree, rfl⟩
    exact bind_eq_ok.2 ⟨_, bind_eq_ok.2 ⟨form, hform, bind_eq_ok.2 ⟨degree, hdegree, rfl⟩⟩, rfl⟩

theorem holds_rows {i : Instance} {rows : List Row} (h : i.rows = .ok rows) (v : Valuation) :
    (∀ r ∈ rows, r.Holds v) ↔ i.Holds v := by
  obtain ⟨row, hrow, h⟩ := bind_eq_ok.1 h
  obtain rfl := pure_eq_ok.1 h
  rw [List.forall_mem_cons, Constraint.holds_normalize hrow, Holds]

/-- The left-hand side is the subset sum of the variables that are true. -/
theorem total_objective (v : Valuation) : ∀ {coeffs : List Int64} {vars : List Var},
    coeffs.length = vars.length → (∀ x ∈ vars, x.InRange) →
    Term.total (coeffs.zipWith (fun c x => ⟨c, x.pos⟩) vars) v =
      SubsetSum.total coeffs (maskOf v vars)
  | [], [], _, _ => rfl
  | c :: coeffs, x :: vars, hlen, hr => by
    have hx : x.InRange := hr x (List.mem_cons_self ..)
    have ih := total_objective v (Nat.succ.inj hlen) fun y hy => hr y (List.mem_cons_of_mem _ hy)
    rw [List.zipWith_cons_cons, Term.total_cons, ih, Term.value, Lit.holds_pos hx,
      SubsetSum.total, SubsetSum.total, SubsetSum.selected_cons, maskOf, testBit_zero_bit, half_bit]
    cases v x <;> simp

theorem value_objective {i : Instance} (hr : ∀ x ∈ i.vars, x.InRange) (v : Valuation) :
    i.objective.value v = SubsetSum.total i.coeffs (maskOf v i.vars) :=
  total_objective v i.paired hr

/-- The solutions of an instance over distinct variables are the subsets that meet the degree. -/
theorem values_eq_of_isPlain {i : Instance} (hr : ∀ x ∈ i.vars, x.InRange) (h : i.isPlain = true) :
    i.values = {x | ∃ m < Nat.pow 2 i.coeffs.length,
      i.relation.Holds (SubsetSum.total i.coeffs m) i.degree.toInt ∧
        x = SubsetSum.total i.coeffs m} := by
  simp only [isPlain, Bool.and_eq_true, List.isEmpty_iff, decide_eq_true_iff] at h
  obtain ⟨hside, hdup⟩ := h
  ext x
  rw [i.paired]
  constructor
  · rintro ⟨v, ⟨hv, _⟩, rfl⟩
    rw [Constraint.Holds, constraint, value_objective hr] at hv
    exact ⟨_, maskOf_lt v i.vars, hv, value_objective hr v⟩
  · rintro ⟨m, hm, hv, rfl⟩
    have hvalue := value_objective hr (Assignment.mk i.vars m).value
    rw [maskOf_value hdup hm] at hvalue
    refine ⟨_, ⟨?_, by simp [hside]⟩, hvalue.symm⟩
    rw [Constraint.Holds, constraint, hvalue]
    exact hv

/-! ### The two ways to decide an instance -/

/-- The answer to a query, decided from the coefficients. -/
def byCoefficients (i : Instance) (q : Query) : Checked (Option Int64) :=
  match i.relation, q with
  | .eq, _ => SubsetSum.exactly i.coeffs i.degree
  | .geq, .minimize => SubsetSum.atLeast i.coeffs i.degree
  | .geq, .maximize => SubsetSum.greatest i.coeffs i.degree

/-- The answer to a query, decided over the variables. -/
def byVariables (i : Instance) (q : Query) : Checked (Option Int64) := do
  let objective ← i.objective.normalize
  let rows ← i.rows
  match q with
  | .minimize => Oracle.minimize rows objective
  | .maximize => Oracle.maximize rows objective

theorem expected_eq (i : Instance) (q : Query) :
    i.expected q = if i.isPlain then i.byCoefficients q else i.byVariables q := rfl

section Ways
variable {i : Instance} {q : Query} {best : Option Int64}

theorem isOptimum_byCoefficients (hr : ∀ x ∈ i.vars, x.InRange) (hplain : i.isPlain = true)
    (h : i.byCoefficients q = .ok best) : q.IsOptimum i.values best := by
  rw [values_eq_of_isPlain hr hplain]
  simp only [byCoefficients] at h
  cases hrel : i.relation with
  | eq =>
    rw [hrel] at h
    exact SubsetSum.isOptimum_of_exactly h
  | geq =>
    rw [hrel] at h
    cases q with
    | minimize => exact SubsetSum.isOptimum_of_optimum h
    | maximize => exact SubsetSum.isOptimum_of_optimum h

theorem isOptimum_byVariables (h : i.byVariables q = .ok best) : q.IsOptimum i.values best := by
  obtain ⟨objective, hobjective, h⟩ := bind_eq_ok.1 h
  obtain ⟨rows, hrows, h⟩ := bind_eq_ok.1 h
  have hvalues : i.values = Row.values rows objective := by
    ext x
    exact exists_congr fun v => and_congr (holds_rows hrows v).symm
      (by rw [Expression.value_normalize hobjective])
  rw [hvalues]
  cases q with
  | minimize => exact Oracle.isOptimum_of_optimum h
  | maximize => exact Oracle.isOptimum_of_optimum h

/-- The expected answer is the optimum of the left-hand side over all solutions. -/
theorem isOptimum_expected (hr : ∀ x ∈ i.vars, x.InRange) (h : i.expected q = .ok best) :
    q.IsOptimum i.values best := by
  rw [expected_eq] at h
  split at h
  · next hplain => exact isOptimum_byCoefficients hr hplain h
  · exact isOptimum_byVariables h

end Ways

/-! ### What is enumerated -/

section Enumerated
variable {i : Instance} {form : LinearForm} {rows : List Row}

/-- The main row has the variables of the objective. -/
theorem flatMap_vars (hform : i.objective.normalize = .ok form) (hrows : i.rows = .ok rows) :
    rows.flatMap Row.vars = form.vars ++ i.sideRows.flatMap Row.vars := by
  obtain ⟨form', degree, hform', _, rfl⟩ := rows_eq_ok.1 hrows
  obtain rfl : form = form' := Except.ok.inj (hform.symm.trans hform')
  exact List.flatMap_cons

/-- The objective has no variables but those of the instance. -/
theorem vars_objective_subset (hr : ∀ x ∈ i.vars, x.InRange)
    (hform : i.objective.normalize = .ok form) : form.vars ⊆ i.vars := by
  intro x hx
  obtain ⟨t, ht, rfl⟩ := LinearForm.exists_term_of_collect hform hx
  obtain ⟨y, hy, hlit⟩ := Term.exists_var_of_mem_zipWith ht
  rwa [hlit, Var.var_pos (hr y hy)]

/-- The objective adds nothing to the variables of the rows. -/
theorem support_objective (hform : i.objective.normalize = .ok form) (hrows : i.rows = .ok rows) :
    Oracle.support rows [form] = Oracle.support rows [] := by
  have hvars := flatMap_vars hform hrows
  rw [Oracle.support_rows]
  refine sortedVars_congr fun x => ?_
  rw [List.flatMap_singleton, List.mem_append]
  exact or_iff_left_of_imp fun hx => hvars ▸ List.mem_append_left _ hx

/-- No more variables are enumerated than were counted. -/
theorem length_support_le {n : Nat} (hr : ∀ x ∈ i.vars, x.InRange) (hn : i.oracleVars = .ok n)
    (hform : i.objective.normalize = .ok form) (hrows : i.rows = .ok rows) :
    (Oracle.support rows [form]).length ≤ n := by
  have hvars := flatMap_vars hform hrows
  rw [support_objective hform hrows]
  rw [oracleVars] at hn
  split at hn
  · next hplain =>
    obtain rfl := pure_eq_ok.1 hn
    simp only [isPlain, Bool.and_eq_true, List.isEmpty_iff] at hplain
    rw [Oracle.support_rows, hvars, hplain.1, List.flatMap_nil, List.append_nil]
    refine (List.subperm_of_subset (nodup_sortedVars _) fun x hx => ?_).length_le
    exact vars_objective_subset hr hform (mem_sortedVars.1 hx)
  · obtain ⟨rows', hrows', hn⟩ := bind_eq_ok.1 hn
    obtain rfl : rows = rows' := Except.ok.inj (hrows.symm.trans hrows')
    obtain rfl := pure_eq_ok.1 hn
    exact Nat.le_refl _

end Enumerated

section Overflow
variable {i : Instance} {q : Query}

theorem overflowsOnly_byCoefficients (hcap : i.coeffs.length ≤ maxEnumerated) :
    OverflowsOnly (i.byCoefficients q) := by
  simp only [byCoefficients]
  split
  · exact SubsetSum.overflowsOnly_exactly _ hcap
  · exact SubsetSum.overflowsOnly_optimum _ _ hcap
  · exact SubsetSum.overflowsOnly_optimum _ _ hcap

theorem exists_oracleVars {rows : List Row} (hrows : i.rows = .ok rows) :
    ∃ n, i.oracleVars = .ok n := by
  rw [oracleVars]
  split
  · exact ⟨_, rfl⟩
  · exact ⟨_, bind_eq_ok.2 ⟨rows, hrows, rfl⟩⟩

theorem overflowsOnly_rows : OverflowsOnly i.rows :=
  .bind i.constraint.overflowsOnly_normalize fun _ => .pure _

theorem overflowsOnly_byVariables_of_support
    (hcap : ∀ rows, i.rows = .ok rows → (Oracle.support rows []).length ≤ maxEnumerated) :
    OverflowsOnly (i.byVariables q) := by
  refine .bind_of_ok i.objective.overflowsOnly_normalize fun form hform => ?_
  refine .bind_of_ok overflowsOnly_rows fun rows hrows => ?_
  have hsupport := hcap rows hrows
  rw [← support_objective hform hrows] at hsupport
  cases q with
  | minimize => exact Oracle.overflowsOnly_optimum min hsupport
  | maximize => exact Oracle.overflowsOnly_optimum max hsupport

theorem overflowsOnly_byVariables (hr : ∀ x ∈ i.vars, x.InRange)
    (hcap : ∀ n, i.oracleVars = .ok n → n ≤ maxEnumerated) : OverflowsOnly (i.byVariables q) := by
  refine overflowsOnly_byVariables_of_support fun rows hrows => ?_
  obtain ⟨n, hn⟩ := exists_oracleVars hrows
  obtain ⟨form, _, hform, _⟩ := rows_eq_ok.1 hrows
  rw [← support_objective hform hrows]
  exact (length_support_le hr hn hform hrows).trans (hcap n hn)

/-- The expected answer of few variables is computed, unless an overflow stops it. -/
theorem overflowsOnly_expected {vars : Nat} (hvars : i.oracleVars = .ok vars)
    (hle : vars ≤ maxEnumerated) : OverflowsOnly (i.expected q) := by
  rw [oracleVars] at hvars
  rw [expected_eq]
  split
  · next hplain =>
    rw [if_pos hplain] at hvars
    obtain rfl := pure_eq_ok.1 hvars
    exact overflowsOnly_byCoefficients (i.paired ▸ hle)
  · next hplain =>
    rw [if_neg hplain] at hvars
    obtain ⟨rows, hrows, hvars⟩ := bind_eq_ok.1 hvars
    obtain rfl := pure_eq_ok.1 hvars
    refine overflowsOnly_byVariables_of_support fun rows' hrows' => ?_
    obtain rfl : rows = rows' := Except.ok.inj (hrows.symm.trans hrows')
    exact hle

end Overflow

/-! ### The expected answer -/

/-- The left-hand side: the sum of the coefficients on the variables that are true. -/
def lhs (i : Instance) (v : Valuation) : Int :=
  (i.coeffs.zipWith (fun c x => if v x then c.toInt else 0) i.vars).sum

/-- Whether a valuation solves an instance: its left-hand side compares with the degree as it must,
and it satisfies every side constraint. -/
def Solves (i : Instance) (v : Valuation) : Prop :=
  i.relation.Holds (i.lhs v) i.degree.toInt ∧ ∀ r ∈ i.sideRows, r.Holds v

/-- The left-hand sides of the solutions. -/
def attained (i : Instance) : Set Int := {x | ∃ v, i.Solves v ∧ x = i.lhs v}

section Decides
variable {i : Instance}

theorem total_zipWith (v : Valuation) : ∀ {coeffs : List Int64} {vars : List Var},
    (∀ x ∈ vars, x.InRange) → Term.total (coeffs.zipWith (fun c x => ⟨c, x.pos⟩) vars) v =
      (coeffs.zipWith (fun c x => if v x then c.toInt else 0) vars).sum
  | [], _, _ => rfl
  | _ :: _, [], _ => rfl
  | c :: coeffs, x :: vars, hr => by
    obtain ⟨hx, hrest⟩ := List.forall_mem_cons.1 hr
    rw [List.zipWith_cons_cons, List.zipWith_cons_cons, Term.total_cons, List.sum_cons,
      total_zipWith v hrest, Term.value, Lit.holds_pos hx]

theorem values_eq_attained (hr : ∀ x ∈ i.vars, x.InRange) : i.values = i.attained := by
  have hvalue : ∀ v, i.objective.value v = i.lhs v := fun v => total_zipWith v hr
  ext x
  refine exists_congr fun v => ?_
  rw [Holds, Constraint.Holds, constraint, hvalue, Solves]

/-- The expected answer of an instance over few variables is the least or the greatest left-hand
side of its solutions, unless a computation overflows. Only an instance over distinct variables
without side constraints is decided from its coefficients, and the variables would give the same. -/
theorem expected_decides (hr : ∀ x ∈ i.vars, x.InRange)
    (hcap : ∀ n, i.oracleVars = .ok n → n ≤ 24) (q : Query) :
    OverflowsOnly (i.expected q) ∧
    (∀ best, i.expected q = .ok best →
      (∀ m, best = some m ↔ q.IsBest i.attained m.toInt) ∧
      (best = none ↔ ∀ v, ¬ i.Solves v)) ∧
    (i.vars.Nodup ∧ i.sideRows = [] →
      i.expected q = i.byCoefficients q ∧ OverflowsOnly (i.byVariables q) ∧
      ∀ fast slow, i.byCoefficients q = .ok fast → i.byVariables q = .ok slow → fast = slow) ∧
    (¬ (i.vars.Nodup ∧ i.sideRows = []) → i.expected q = i.byVariables q) := by
  have hplain : i.isPlain = true ↔ i.vars.Nodup ∧ i.sideRows = [] := by
    rw [isPlain, Bool.and_eq_true, List.isEmpty_iff, decide_eq_true_iff, and_comm]
  have hslow : OverflowsOnly (i.byVariables q) := overflowsOnly_byVariables hr hcap
  refine ⟨?_, fun best hbest => ?_, fun h => ?_, fun h => ?_⟩
  · rw [expected_eq]
    split
    · next h =>
      refine overflowsOnly_byCoefficients ?_
      rw [i.paired]
      exact hcap _ (if_pos h)
    · exact hslow
  · have hoptimum := isOptimum_expected hr hbest
    rw [values_eq_attained hr] at hoptimum
    exact ⟨hoptimum.eq_some_iff, hoptimum.eq_none_iff.trans Query.values_eq_empty_iff⟩
  · have h := hplain.2 h
    refine ⟨(expected_eq i q).trans (if_pos h), hslow, fun fast slow hfast hslow => ?_⟩
    exact (isOptimum_byCoefficients hr h hfast).unique (isOptimum_byVariables hslow)
  · exact (expected_eq i q).trans (if_neg fun h' => h (hplain.1 h'))

end Decides

/-- One variable occurs twice, and a side constraint rules out the assignment without any. -/
def doubledInstance : Instance where
  name := "sample"
  coeffs := [3, -2, 3]
  vars := [x₁, x₂, x₁]
  degree := -1
  relation := .geq
  sideRows := [.ofTerms [⟨1, x₁.pos⟩, ⟨1, x₂.pos⟩] .geq 1]
  paired := rfl

theorem expected_decides_sample :
    IsLeast doubledInstance.attained 4 ∧ IsGreatest doubledInstance.attained 6 := by
  have hr : ∀ x ∈ doubledInstance.vars, x.InRange := by decide
  have hcap : ∀ n, doubledInstance.oracleVars = .ok n → n ≤ 24 := by
    intro n hn
    have hvars : doubledInstance.oracleVars = .ok 2 := by decide
    obtain rfl := Except.ok.inj (hvars.symm.trans hn)
    decide
  have hleast : doubledInstance.expected .minimize = .ok (some 4) := by decide
  have hgreatest : doubledInstance.expected .maximize = .ok (some 6) := by decide
  obtain ⟨_, hmin, _⟩ := expected_decides hr hcap .minimize
  obtain ⟨_, hmax, _⟩ := expected_decides hr hcap .maximize
  exact ⟨((hmin _ hleast).1 4).1 rfl, ((hmax _ hgreatest).1 6).1 rfl⟩

end Instance

end PseudoBoolean
