import PseudoBoolean.Artifact
import PseudoBoolean.Oracle
import PseudoBoolean.Proofs.Enumeration
import PseudoBoolean.Proofs.Linear.Value

/-!
What an optimum is, and that the oracle finds it.

The optimum of a query over a set of integers is its least or its greatest member, and there is none
if the set is empty. A visit that improves its best value at each hit ends with the optimum of all
hits (`Query.isOptimum_visit`). Since every valuation of a support is visited, the oracle's answer
is the optimum over all valuations, those that are not enumerated included.
-/

namespace PseudoBoolean

namespace Query

/-- Whether `m` is the best member of a set: the least for one query, the greatest for the other. -/
def IsBest : Query → Set Int → Int → Prop
  | minimize, S, m => IsLeast S m
  | maximize, S, m => IsGreatest S m

/-- A function has values somewhere exactly if something is allowed. -/
theorem values_eq_empty_iff {allowed : Valuation → Prop} {value : Valuation → Int} :
    {x | ∃ v, allowed v ∧ x = value v} = ∅ ↔ ∀ v, ¬ allowed v := by
  rw [Set.eq_empty_iff_forall_notMem]
  constructor
  · exact fun h v hv => h _ ⟨v, hv, rfl⟩
  · rintro h x ⟨v, hv, _⟩
    exact h v hv

/-- Whether `best` is the optimum of a set, `none` the one of the empty set. -/
def IsOptimum (q : Query) (S : Set Int) : Option Int64 → Prop
  | some m => q.IsBest S m.toInt
  | none => S = ∅

/-- The better of two words. -/
def better : Query → Int64 → Int64 → Int64
  | minimize => min
  | maximize => max

theorem IsBest.mem {q : Query} {S : Set Int} {m : Int} (h : q.IsBest S m) : m ∈ S := by
  cases q <;> exact h.1

theorem IsBest.unique {q : Query} {S : Set Int} {m n : Int} (hm : q.IsBest S m)
    (hn : q.IsBest S n) : m = n := by
  cases q with
  | minimize => exact IsLeast.unique hm hn
  | maximize => exact IsGreatest.unique hm hn

/-- A set has one optimum. -/
theorem IsOptimum.unique {q : Query} {S : Set Int} {a b : Option Int64} (ha : q.IsOptimum S a)
    (hb : q.IsOptimum S b) : a = b := by
  cases a with
  | none =>
    cases b with
    | none => rfl
    | some n =>
      have hS : S = ∅ := ha
      have hn := hb.mem
      rw [hS] at hn
      exact absurd hn (Set.notMem_empty _)
  | some m =>
    cases b with
    | none =>
      have hS : S = ∅ := hb
      have hm := ha.mem
      rw [hS] at hm
      exact absurd hm (Set.notMem_empty _)
    | some n => rw [Int64.toInt_inj.1 (IsBest.unique ha hb)]

theorem IsOptimum.eq_some_iff {q : Query} {S : Set Int} {best : Option Int64}
    (h : q.IsOptimum S best) (m : Int64) : best = some m ↔ q.IsBest S m.toInt := by
  constructor
  · rintro rfl
    exact h
  · intro hm
    exact h.unique (b := some m) hm

theorem IsOptimum.eq_none_iff {q : Query} {S : Set Int} {best : Option Int64}
    (h : q.IsOptimum S best) : best = none ↔ S = ∅ := by
  constructor
  · rintro rfl
    exact h
  · intro hS
    exact h.unique (b := none) hS

theorem toInt_better (q : Query) (a b : Int64) :
    (q.better a b).toInt =
      match q with
      | minimize => min a.toInt b.toInt
      | maximize => max a.toInt b.toInt := by
  cases q with
  | minimize =>
    show (if a ≤ b then a else b).toInt = _
    split <;> rename_i h <;> rw [Int64.le_iff_toInt_le] at h <;> simp only <;> omega
  | maximize =>
    show (if a ≤ b then b else a).toInt = _
    split <;> rename_i h <;> rw [Int64.le_iff_toInt_le] at h <;> simp only <;> omega

/-- A new value improves the best so far. -/
theorem IsOptimum.improve {q : Query} {S : Set Int} {best : Option Int64}
    (h : q.IsOptimum S best) (a : Int64) :
    q.IsOptimum (insert a.toInt S) (Oracle.improve q.better best a) := by
  cases best with
  | none =>
    have hS : S = ∅ := h
    subst hS
    show q.IsBest _ a.toInt
    cases q with
    | minimize => exact ⟨Set.mem_insert _ _, by rintro x (rfl | hx); exacts [le_refl _, hx.elim]⟩
    | maximize => exact ⟨Set.mem_insert _ _, by rintro x (rfl | hx); exacts [le_refl _, hx.elim]⟩
  | some m =>
    show q.IsBest _ (q.better m a).toInt
    rw [toInt_better]
    cases q with
    | minimize => rw [min_comm]; exact IsLeast.insert a.toInt h
    | maximize => rw [max_comm]; exact IsGreatest.insert a.toInt h

/-- A visit that improves its best value at each hit finds the optimum of the hits. -/
theorem isOptimum_visit (q : Query) (hit : Nat → Prop) (value : Nat → Int)
    {step : Option Int64 → Nat → Checked (Option Int64)} {count : Nat} {r : Option Int64}
    (hstep : ∀ best m best', step best m = .ok best' →
      (hit m ∧ ∃ a, a.toInt = value m ∧ best' = Oracle.improve q.better best a) ∨
        (¬ hit m ∧ best' = best))
    (h : Mask.visit step count 0 none = .ok r) :
    q.IsOptimum {x | ∃ m < count, hit m ∧ x = value m} r := by
  have hend := Mask.visit_induction
    (motive := fun n best => q.IsOptimum {x | ∃ m < n, hit m ∧ x = value m} best) ?_ ?_ h
  · rwa [Nat.zero_add] at hend
  · intro n best best' hbest hnext
    rcases hstep best n best' hnext with ⟨hn, a, ha, rfl⟩ | ⟨hn, rfl⟩
    · have himproved := hbest.improve a
      rw [ha] at himproved
      convert himproved using 1
      ext x
      constructor
      · rintro ⟨m, hm, hhit, rfl⟩
        rcases Nat.lt_succ_iff_lt_or_eq.1 hm with hlt | rfl
        · exact Or.inr ⟨m, hlt, hhit, rfl⟩
        · exact Or.inl rfl
      · rintro (rfl | ⟨m, hm, hhit, rfl⟩)
        · exact ⟨n, Nat.lt_succ_self n, hn, rfl⟩
        · exact ⟨m, Nat.lt_succ_of_lt hm, hhit, rfl⟩
    · convert hbest using 1
      ext x
      constructor
      · rintro ⟨m, hm, hhit, rfl⟩
        rcases Nat.lt_succ_iff_lt_or_eq.1 hm with hlt | rfl
        · exact ⟨m, hlt, hhit, rfl⟩
        · exact absurd hhit hn
      · rintro ⟨m, hm, hhit, rfl⟩
        exact ⟨m, Nat.lt_succ_of_lt hm, hhit, rfl⟩
  · show {x | ∃ m < 0, hit m ∧ x = value m} = ∅
    ext x
    simp

/-- A constant added to every member is added to the best one. -/
theorem IsBest.shift {q : Query} {S : Set Int} {m : Int} (h : q.IsBest S m) (c : Int) :
    q.IsBest {x | ∃ y ∈ S, x = y + c} (m + c) := by
  have hmem : ∃ y ∈ S, m + c = y + c := ⟨m, h.mem, rfl⟩
  cases q with
  | minimize =>
    refine ⟨hmem, ?_⟩
    rintro x ⟨y, hy, rfl⟩
    have hle : m ≤ y := h.2 hy
    omega
  | maximize =>
    refine ⟨hmem, ?_⟩
    rintro x ⟨y, hy, rfl⟩
    have hle : y ≤ m := h.2 hy
    omega

/-- The greatest member is the least one of the negated set, negated. -/
theorem IsBest.neg {S : Set Int} {m : Int} (h : minimize.IsBest S m) :
    maximize.IsBest {x | ∃ y ∈ S, x = -y} (-m) := by
  refine ⟨⟨m, h.mem, rfl⟩, ?_⟩
  rintro x ⟨y, hy, rfl⟩
  have hle : m ≤ y := h.2 hy
  omega

/-- The optimum of the negated set is the other optimum, negated. -/
theorem IsOptimum.mapM_neg {S : Set Int} {least greatest : Option Int64}
    (hleast : minimize.IsOptimum S least)
    (hgreatest : maximize.IsOptimum {x | ∃ y ∈ S, x = -y} greatest) :
    least.mapM Word.neg = .ok greatest := by
  cases least with
  | none =>
    have hS : S = ∅ := hleast
    have hempty : {x | ∃ y ∈ S, x = -y} = ∅ := by
      rw [hS]
      exact Set.eq_empty_of_forall_notMem fun x ⟨y, hy, _⟩ => hy
    rw [hgreatest.eq_none_iff.2 hempty]
    rfl
  | some m =>
    have hbest := IsBest.neg (show minimize.IsBest S m.toInt from hleast)
    cases greatest with
    | none =>
      have hempty : {x | ∃ y ∈ S, x = -y} = ∅ := hgreatest
      have hmem := hbest.mem
      rw [hempty] at hmem
      exact absurd hmem (Set.notMem_empty _)
    | some n =>
      have hn : maximize.IsBest {x | ∃ y ∈ S, x = -y} n.toInt := hgreatest
      exact map_eq_ok.2 ⟨n, Word.neg_eq_ok_iff.2 (hn.unique hbest), rfl⟩

/-- An optimum is changed as the members are, if every best member stays the best one. -/
theorem IsOptimum.mapM {q q' : Query} {S : Set Int} {best best' : Option Int64} {g : Int → Int}
    {f : Int64 → Checked Int64} (h : q.IsOptimum S best) (hf : best.mapM f = .ok best')
    (hg : ∀ a b, f a = .ok b → b.toInt = g a.toInt)
    (hbest : ∀ m, q.IsBest S m → q'.IsBest {x | ∃ y ∈ S, x = g y} (g m)) :
    q'.IsOptimum {x | ∃ y ∈ S, x = g y} best' := by
  cases best with
  | none =>
    obtain rfl : none = best' := pure_eq_ok.1 hf
    have hS : S = ∅ := h
    subst hS
    exact Set.eq_empty_of_forall_notMem fun x ⟨y, hy, _⟩ => hy
  | some m =>
    obtain ⟨m', hm, rfl⟩ := map_eq_ok.1 hf
    show q'.IsBest _ m'.toInt
    rw [hg m m' hm]
    exact hbest _ h

end Query

/-! ### Only the variables of a form matter -/

theorem LinearForm.value_congr {f : LinearForm} {v w : Valuation} (h : ∀ x ∈ f.vars, v x = w x) :
    f.value v = f.value w := by
  have hterms : (f.terms.map fun t => if v t.lit.var then t.coeff.toInt else 0) =
      f.terms.map fun t => if w t.lit.var then t.coeff.toInt else 0 :=
    List.map_congr_left fun t ht => by rw [h t.lit.var (List.mem_map_of_mem ht)]
  rw [LinearForm.value, LinearForm.value, hterms]

theorem Row.holds_congr {r : Row} {v w : Valuation} (h : ∀ x ∈ r.vars, v x = w x) :
    r.Holds v ↔ r.Holds w := by
  rw [Row.Holds, Row.Holds, LinearForm.value_congr h]

/-! ### The oracle -/

/-- The values of a form at the models of some rows. -/
def Row.values (rows : List Row) (objective : LinearForm) : Set Int :=
  {x | ∃ v, (∀ r ∈ rows, r.Holds v) ∧ x = objective.value v}

namespace Oracle

theorem mem_support {rows : List Row} {objective : LinearForm} {x : Var} :
    x ∈ support rows [objective] ↔ (∃ r ∈ rows, x ∈ r.vars) ∨ x ∈ objective.vars := by
  simp [support, mem_sortedVars]

theorem support_rows (rows : List Row) : support rows [] = sortedVars (rows.flatMap Row.vars) := by
  rw [support, List.flatMap_nil, List.append_nil]

/-- The oracle's answer is the optimum over all valuations. -/
theorem isOptimum_of_optimum {q : Query} {rows : List Row} {objective : LinearForm}
    {best : Option Int64} (h : optimum q.better rows objective = .ok best) :
    q.IsOptimum (Row.values rows objective) best := by
  obtain ⟨_, _, h⟩ := bind_eq_ok.1 h
  set vars := support rows [objective]
  have hvisit := Query.isOptimum_visit q
    (fun m => ∀ r ∈ rows, r.Holds (Assignment.mk vars m).value)
    (fun m => objective.value (Assignment.mk vars m).value) ?_ h
  · convert hvisit using 1
    ext x
    constructor
    · -- a valuation and its assignment agree on all variables that occur
      rintro ⟨v, hv, rfl⟩
      obtain ⟨m, hm, hagree⟩ := exists_assignment v vars
      refine ⟨m, hm, fun r hr => (Row.holds_congr fun x hx => ?_).2 (hv r hr),
        LinearForm.value_congr fun x hx => ?_⟩
      · exact hagree x (mem_support.2 (Or.inl ⟨r, hr, hx⟩))
      · exact (hagree x (mem_support.2 (Or.inr hx))).symm
    · rintro ⟨m, _, hm, rfl⟩
      exact ⟨_, hm, rfl⟩
  · intro b m b' hstep
    obtain ⟨sat, hsat, hstep⟩ := bind_eq_ok.1 hstep
    have hholds := Row.allSatisfied_eq_ok hsat
    split at hstep
    · next htrue =>
      obtain ⟨a, ha, hstep⟩ := bind_eq_ok.1 hstep
      obtain rfl := pure_eq_ok.1 hstep
      exact Or.inl ⟨hholds.1 htrue, a, LinearForm.evaluate_eq_ok ha, rfl⟩
    · next hfalse =>
      obtain rfl := pure_eq_ok.1 hstep
      exact Or.inr ⟨fun hall => hfalse (hholds.2 hall), rfl⟩

/-- Over few enough variables the oracle faults in no other way than by an overflow. -/
theorem overflowsOnly_optimum (better : Int64 → Int64 → Int64) {rows : List Row}
    {objective : LinearForm} (hcap : (support rows [objective]).length ≤ maxEnumerated) :
    OverflowsOnly (optimum better rows objective) := by
  refine Assignment.overflowsOnly_visit hcap (fun best a => ?_) none
  refine .bind (Row.overflowsOnly_allSatisfied a.value rows) fun sat => ?_
  split
  · exact .bind (objective.overflowsOnly_evaluate a.value) fun _ => .pure _
  · exact .pure _

section Decides
variable {rows : List Row} {objective : LinearForm}

/-- A form has the negated values of its negation. -/
theorem values_of_negate {negated : LinearForm} (h : objective.negate = .ok negated) :
    Row.values rows objective = {x | ∃ y ∈ Row.values rows negated, x = -y} := by
  ext x
  constructor
  · rintro ⟨v, hv, rfl⟩
    refine ⟨_, ⟨v, hv, rfl⟩, ?_⟩
    rw [LinearForm.value_negate h, Int.neg_neg]
  · rintro ⟨_, ⟨v, hv, rfl⟩, rfl⟩
    refine ⟨v, hv, ?_⟩
    rw [LinearForm.value_negate h, Int.neg_neg]

/-- The oracle answers or overflows. Its answers are the least and the greatest value over all
valuations that satisfy the rows, and each query is the other one of the negated form. -/
theorem optimum_decides
    (hcap : (rows.flatMap Row.vars ++ objective.vars).dedup.length ≤ 24) :
    OverflowsOnly (minimize rows objective) ∧ OverflowsOnly (maximize rows objective) ∧
    (∀ least, minimize rows objective = .ok least →
      (∀ m, least = some m ↔ IsLeast (Row.values rows objective) m.toInt) ∧
      (least = none ↔ ∀ v, ¬ ∀ r ∈ rows, r.Holds v)) ∧
    (∀ greatest, maximize rows objective = .ok greatest →
      (∀ m, greatest = some m ↔ IsGreatest (Row.values rows objective) m.toInt) ∧
      (greatest = none ↔ ∀ v, ¬ ∀ r ∈ rows, r.Holds v)) ∧
    ∀ negated least greatest, objective.negate = .ok negated →
      minimize rows negated = .ok least → maximize rows objective = .ok greatest →
      least.mapM Word.neg = .ok greatest := by
  have hsupport : (support rows [objective]).length ≤ maxEnumerated := by
    rw [support, length_sortedVars, List.flatMap_singleton]
    exact hcap
  have hdecides : ∀ (q : Query) best, optimum q.better rows objective = .ok best →
      (∀ m, best = some m ↔ q.IsBest (Row.values rows objective) m.toInt) ∧
      (best = none ↔ ∀ v, ¬ ∀ r ∈ rows, r.Holds v) := by
    intro q best hbest
    have hoptimum : q.IsOptimum (Row.values rows objective) best := isOptimum_of_optimum hbest
    exact ⟨hoptimum.eq_some_iff, hoptimum.eq_none_iff.trans Query.values_eq_empty_iff⟩
  refine ⟨overflowsOnly_optimum min hsupport, overflowsOnly_optimum max hsupport,
    hdecides .minimize, hdecides .maximize, ?_⟩
  intro negated least greatest hnegated hleast hgreatest
  have hleast : Query.minimize.IsOptimum (Row.values rows negated) least :=
    isOptimum_of_optimum hleast
  have hgreatest : Query.maximize.IsOptimum (Row.values rows objective) greatest :=
    isOptimum_of_optimum hgreatest
  rw [values_of_negate hnegated] at hgreatest
  exact hleast.mapM_neg hgreatest

end Decides

/-- One row over two variables. -/
def sampleRows : List Row := [.ofTerms [⟨1, x₁.pos⟩, ⟨2, x₂.pos⟩] .geq 2]

/-- A form with a constant, over one variable of the row and another one. -/
def sampleForm : LinearForm := ⟨[⟨-3, x₁.pos⟩, ⟨4, x₃.pos⟩], 5⟩

/-- The negation of the form. -/
def sampleNegation : LinearForm := ⟨[⟨3, x₁.pos⟩, ⟨-4, x₃.pos⟩], -5⟩

theorem optimum_decides_sample :
    IsLeast (Row.values sampleRows sampleForm) 2 ∧
      IsGreatest (Row.values sampleRows sampleForm) 9 ∧
      (some (-9) : Option Int64).mapM Word.neg = .ok (some 9) := by
  have hleast : minimize sampleRows sampleForm = .ok (some 2) := by decide
  have hgreatest : maximize sampleRows sampleForm = .ok (some 9) := by decide
  have hcap : (sampleRows.flatMap Row.vars ++ sampleForm.vars).dedup.length ≤ 24 := by decide
  obtain ⟨_, _, hmin, hmax, hneg⟩ := optimum_decides hcap
  refine ⟨((hmin _ hleast).1 2).1 rfl, ((hmax _ hgreatest).1 9).1 rfl, ?_⟩
  exact hneg sampleNegation (some (-9)) (some 9) (by decide) (by decide) hgreatest

end Oracle

end PseudoBoolean
