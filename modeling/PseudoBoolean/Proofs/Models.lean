import PseudoBoolean.Proofs.Cnf.Rows
import PseudoBoolean.Proofs.Counting
import PseudoBoolean.Proofs.Linear.Bound

/-!
The models of a formula as a set, and the two counts as its size.

    assignments of x1 … xn  ◀──one to one──▶  masks below 2^n
             ⊇                                      ⊇
          Models                               modelMasks

A count over the variables that occur, times a power of two, is the size of the set of models over
all variables, for rows and for clauses. The row of a clause may have lost variables (`x ∨ ~x` keeps
none), so the two counts of one formula go over different variables, and agree.

Rows are evaluated in words. A count is an overflow exactly when some valuation makes an evaluation
overflow, and the number of models otherwise.
-/

namespace PseudoBoolean

/-- The assignments of `x1` to `x<total>` at which a property holds, every variable above false. -/
def Models (total : UInt32) (p : Valuation → Prop) : Set Valuation :=
  {v | (∀ x : Var, total < x.id → v x = false) ∧ p v}

/-! ### Models as masks -/

/-- The masks over some variables at which a property holds. -/
def modelMasks (vars : List Var) (p : Valuation → Bool) : List Nat :=
  (List.range (Nat.pow 2 vars.length)).filter fun m => p (Assignment.mk vars m).value

section Masks
variable {vars : List Var} {p : Valuation → Bool}

theorem mem_modelMasks {m : Nat} : m ∈ modelMasks vars p ↔
    m < Nat.pow 2 vars.length ∧ p (Assignment.mk vars m).value = true := by
  rw [modelMasks, List.mem_filter, List.mem_range]

theorem length_modelMasks : (modelMasks vars p).length = modelsOver vars p := by
  rw [modelMasks, ← List.countP_eq_length_filter, modelsOver, assignments, List.countP_map]
  rfl

theorem nodup_modelMasks : (modelMasks vars p).Nodup := List.nodup_range.filter _

/-- Different masks give different assignments. -/
theorem injOn_value_modelMasks (hdup : vars.Nodup) :
    Set.InjOn (fun m => (Assignment.mk vars m).value) {m | m ∈ modelMasks vars p} := by
  intro m hm k hk heq
  have hagree : ∀ x ∈ vars, (Assignment.mk vars m).value x = (Assignment.mk vars k).value x :=
    fun x _ => congrFun heq x
  exact Assignment.mask_inj hdup (mem_modelMasks.1 hm).1 (mem_modelMasks.1 hk).1 hagree

theorem models_eq_image (total : UInt32) (p : Valuation → Bool) :
    Models total (fun v => p v = true) =
      (fun m => (Assignment.mk (Var.range total) m).value) ''
        {m | m ∈ modelMasks (Var.range total) p} := by
  refine Set.ext fun v => ⟨fun ⟨habove, hv⟩ => ?_, ?_⟩
  · have hvalue : (Assignment.mk (Var.range total) (maskOf v (Var.range total))).value = v := by
      refine Assignment.value_maskOf fun x hx => habove x ?_
      exact UInt32.not_le.1 fun hle => hx (Var.mem_range.2 hle)
    refine ⟨maskOf v (Var.range total), mem_modelMasks.2 ⟨maskOf_lt v _, ?_⟩, hvalue⟩
    rwa [hvalue]
  · rintro ⟨m, hm, rfl⟩
    refine ⟨fun x hx => ?_, (mem_modelMasks.1 hm).2⟩
    exact Assignment.bitOf_of_notMem fun hmem => UInt32.not_le.2 hx (Var.mem_range.1 hmem)

/-- The models over `x1` to `x<total>` are as many as those of its masks that are counted. -/
theorem ncard_models (total : UInt32) (p : Valuation → Bool) :
    (Models total fun v => p v = true).ncard = modelsOver (Var.range total) p := by
  have hdup := Var.nodup_range total
  rw [models_eq_image, (injOn_value_modelMasks hdup).ncard_image, ← List.coe_toFinset,
    Set.ncard_coe_finset, List.toFinset_card_of_nodup nodup_modelMasks, length_modelMasks]

end Masks

/-! ### Evaluations that are read off the variables that occur -/

section Congr
variable {v w : Valuation}

theorem LinearForm.evaluate_congr {f : LinearForm} (h : ∀ x ∈ f.vars, v x = w x) :
    f.evaluate v = f.evaluate w := by
  have hterms : ∀ (terms : List Term) (a : Int64), (∀ t ∈ terms, v t.lit.var = w t.lit.var) →
      terms.foldlM (addTrue v) a = terms.foldlM (addTrue w) a := by
    intro terms
    induction terms with
    | nil => exact fun _ _ => rfl
    | cons t terms ih =>
      intro a h
      rw [List.foldlM_cons, List.foldlM_cons, addTrue, addTrue, h t (List.mem_cons_self ..)]
      refine congrArg _ (funext fun b => ih b fun u hu => h u (List.mem_cons_of_mem _ hu))
  rw [evaluate_eq, evaluate_eq, hterms f.terms 0 fun t ht => h _ (List.mem_map_of_mem ht)]

theorem Row.allSatisfied_congr {rows : List Row} (h : ∀ x ∈ rows.flatMap Row.vars, v x = w x) :
    Row.allSatisfied rows v = Row.allSatisfied rows w := by
  induction rows with
  | nil => rfl
  | cons r rows ih =>
    rw [List.flatMap_cons] at h
    have hrow : r.isSatisfied v = r.isSatisfied w := by
      rw [isSatisfied, isSatisfied,
        LinearForm.evaluate_congr fun x hx => h x (List.mem_append_left _ hx)]
    have hrows := ih fun x hx => h x (List.mem_append_right _ hx)
    rw [Row.allSatisfied] at hrows
    rw [Row.allSatisfied, Row.allSatisfied, List.allM_cons, List.allM_cons, hrow, hrows]
    rfl

end Congr

/-- A count that answers could decide every assignment. -/
theorem Assignment.exists_of_count {support : List Var} {p : Assignment → Checked Bool} {n : Nat}
    (h : count support p = .ok n) {mask : Nat} (hmask : mask < Nat.pow 2 support.length) :
    ∃ b, p ⟨support, mask⟩ = .ok b := by
  have hbefore : ∀ m < Nat.pow 2 support.length, ∃ b, p ⟨support, m⟩ = .ok b := by
    refine visit_induction (motive := fun m _ => ∀ k < m, ∃ b, p ⟨support, k⟩ = .ok b)
      (fun m b b' hb hstep k hk => ?_) (fun k hk => absurd hk (Nat.not_lt_zero k)) h
    obtain ⟨hit, hhit, _⟩ := bind_eq_ok.1 hstep
    rcases Nat.lt_succ_iff_lt_or_eq.1 hk with hk | rfl
    · exact hb k hk
    · exact ⟨hit, hhit⟩
  exact hbefore mask hmask

theorem Assignment.exists_count_of_countOver {support : List Var} {total n : Nat}
    {p : Assignment → Checked Bool} (h : countOver support total p = .ok n) :
    ∃ models, count support p = .ok models := by
  rw [countOver] at h
  split at h
  · cases h
  · obtain ⟨models, hmodels, _⟩ := bind_eq_ok.1 h
    exact ⟨models, hmodels⟩

/-! ### The count of rows -/

namespace Oracle
variable {rows : List Row} {total : UInt32}

theorem overflowsOnly_countModels (hcap : (rows.flatMap Row.vars).dedup.length ≤ 24)
    (hvars : ∀ x ∈ rows.flatMap Row.vars, x.id ≤ total) :
    OverflowsOnly (countModels rows total) := by
  rw [← length_sortedVars] at hcap
  rw [countModels, support_rows]
  simp only [all_sortedVars hvars, if_true, Assignment.countOver_eq (length_sortedVars_le hvars)]
  refine .bind (Assignment.overflowsOnly_visit hcap (fun n a => ?_) 0) fun _ => .pure _
  exact .bind (Row.overflowsOnly_allSatisfied a.value rows) fun _ => .pure _

/-- A count that answers could decide the rows at every valuation. -/
theorem exists_allSatisfied {models : Nat} (h : countModels rows total = .ok models)
    (v : Valuation) : ∃ b, Row.allSatisfied rows v = .ok b := by
  rw [countModels, support_rows] at h
  split at h
  · obtain ⟨found, hfound⟩ := Assignment.exists_count_of_countOver h
    have hmask := maskOf_lt v (sortedVars (rows.flatMap Row.vars))
    obtain ⟨b, hb⟩ := Assignment.exists_of_count hfound hmask
    refine ⟨b, Eq.trans (Row.allSatisfied_congr fun x hx => ?_) hb⟩
    exact (bitOf_maskOf v (mem_sortedVars.2 hx)).symm
  · cases h

/-- Rows that every valuation can decide are counted. -/
theorem countModels_eq_ncard (hcap : (rows.flatMap Row.vars).dedup.length ≤ 24)
    (hvars : ∀ x ∈ rows.flatMap Row.vars, x.id ≤ total)
    (hall : ∀ v, ∃ b, Row.allSatisfied rows v = .ok b) :
    countModels rows total = .ok (Models total fun v => ∀ r ∈ rows, r.Holds v).ncard := by
  classical
  have hsat : ∀ v, Row.allSatisfied rows v = .ok (decide (∀ r ∈ rows, r.Holds v)) := by
    intro v
    obtain ⟨b, hb⟩ := hall v
    rw [hb, Except.ok.injEq, Bool.eq_iff_iff, Row.allSatisfied_eq_ok hb, decide_eq_true_iff]
  have hncard := ncard_models total fun v => decide (∀ r ∈ rows, r.Holds v)
  simp only [decide_eq_true_iff] at hncard
  rw [← length_sortedVars] at hcap
  rw [countModels_eq hcap hvars hsat, hncard]

end Oracle

/-! ### The count of clauses -/

theorem Cnf.countModels_eq_ncard {f : Cnf} {total : UInt32} (hcap : f.vars.dedup.length ≤ 24)
    (hvars : ∀ x ∈ f.vars, x.id ≤ total) :
    f.countModels total =
      .ok (Models total fun v => ∀ clause ∈ f.clauses, ∃ l ∈ clause, l.holds v = true).ncard := by
  have hncard := ncard_models total f.isSatisfied
  simp only [isSatisfied, List.all_eq_true, List.any_eq_true] at hncard
  rw [← length_sortedVars] at hcap
  rw [Cnf.countModels_eq hcap hvars, hncard]

/-- The rows of the clauses are over no more variables than the clauses. -/
theorem Cnf.exists_rows {f : Cnf} {total : UInt32}
    (hlen : ∀ clause ∈ f.clauses, clause.length < Word.largest) (hcap : f.vars.dedup.length ≤ 24)
    (hvars : ∀ x ∈ f.vars, x.id ≤ total) :
    ∃ rows, f.toRows = .ok rows ∧ (∀ r ∈ rows, Term.weight r.terms ≤ Word.largest) ∧
      (rows.flatMap Row.vars).dedup.length ≤ 24 ∧ ∀ x ∈ rows.flatMap Row.vars, x.id ≤ total := by
  obtain ⟨rows, hrows, hall⟩ :=
    exists_mapM fun clause hclause => Clause.exists_row (hlen clause hclause)
  have hsub : rows.flatMap Row.vars ⊆ f.vars := by
    intro x hx
    obtain ⟨r, hr, hx⟩ := List.mem_flatMap.1 hx
    obtain ⟨clause, hclause, _, hsource⟩ := exists_mem_of_forall₂ hall r hr
    obtain ⟨l, hl, rfl⟩ := hsource x hx
    exact List.mem_map_of_mem (List.mem_flatten_of_mem hclause hl)
  refine ⟨rows, hrows, fun r hr => ?_, Nat.le_trans ?_ hcap, fun x hx => hvars x (hsub hx)⟩
  · obtain ⟨clause, _, hweight, _⟩ := exists_mem_of_forall₂ hall r hr
    exact hweight
  · have hsubset : (rows.flatMap Row.vars).dedup ⊆ f.vars.dedup := fun x hx =>
      List.mem_dedup.2 (hsub (List.mem_dedup.1 hx))
    exact (List.subperm_of_subset (List.nodup_dedup _) hsubset).length_le

/-! ### Both counts -/

/-- Rows over few variables are counted right if every valuation can decide them, and are an overflow
otherwise. Clauses over few variables are always counted right, and so are their rows, since a clause
has fewer literals than a word can count. Neither support is larger than the variables that it is
subtracted from. -/
theorem counts_models (total : UInt32) :
    (∀ rows : List Row, (rows.flatMap Row.vars).dedup.length ≤ 24 →
      (∀ x ∈ rows.flatMap Row.vars, x.id ≤ total) →
        (Oracle.support rows []).length ≤ total.toNat ∧
        ((∀ v, ∃ b, Row.allSatisfied rows v = .ok b) →
          Oracle.countModels rows total =
            .ok (Models total fun v => ∀ r ∈ rows, r.Holds v).ncard) ∧
        ((∃ v fault, Row.allSatisfied rows v = .error fault) →
          ∃ op, Oracle.countModels rows total = .error (.overflow op))) ∧
    ∀ f : Cnf, f.vars.dedup.length ≤ 24 → (∀ x ∈ f.vars, x.id ≤ total) →
      (sortedVars f.vars).length ≤ total.toNat ∧
      f.countModels total =
        .ok (Models total fun v => ∀ clause ∈ f.clauses, ∃ l ∈ clause, l.holds v = true).ncard ∧
      ((∀ clause ∈ f.clauses, clause.length < Word.largest) →
        ∃ rows, f.toRows = .ok rows ∧ Oracle.countModels rows total = f.countModels total) := by
  constructor
  · intro rows hcap hvars
    refine ⟨?_, Oracle.countModels_eq_ncard hcap hvars, fun ⟨v, fault, hfault⟩ => ?_⟩
    · rw [Oracle.support_rows]
      exact length_sortedVars_le hvars
    cases hcount : Oracle.countModels rows total with
    | error f =>
      obtain ⟨op, rfl⟩ := Oracle.overflowsOnly_countModels hcap hvars f hcount
      exact ⟨op, rfl⟩
    | ok models =>
      obtain ⟨b, hb⟩ := Oracle.exists_allSatisfied hcount v
      exact nomatch hfault.symm.trans hb
  · intro f hcap hvars
    have hcount := Cnf.countModels_eq_ncard hcap hvars
    refine ⟨length_sortedVars_le hvars, hcount, fun hlen => ?_⟩
    obtain ⟨rows, hrows, hfits, hcapRows, hvarsRows⟩ := Cnf.exists_rows hlen hcap hvars
    have hall : ∀ v, ∃ b, Row.allSatisfied rows v = .ok b := fun v => by
      obtain ⟨b, hb, _⟩ := Row.exists_allSatisfied hfits v
      exact ⟨b, hb⟩
    have hmodels : ∀ v, (∀ r ∈ rows, r.Holds v) ↔
        ∀ clause ∈ f.clauses, ∃ l ∈ clause, l.holds v = true := by
      intro v
      rw [Cnf.holds_toRows hrows, Cnf.isSatisfied]
      simp only [List.all_eq_true, List.any_eq_true]
    refine ⟨rows, hrows, ?_⟩
    rw [Oracle.countModels_eq_ncard hcapRows hvarsRows hall, hcount]
    simp only [hmodels]

/-- `x1 + x2 + x3 >= 2`. -/
def Row.sampleAtLeastTwo : Row := .ofTerms [⟨1, x₁.pos⟩, ⟨1, x₂.pos⟩, ⟨1, x₃.pos⟩] .geq 2

/-- `(x1 ∨ ~x1) ∧ (x2 ∨ ~x3)`, whose rows have lost `x1`. -/
def Cnf.sampleTautology : Cnf := .ofClauses [[x₁.pos, x₁.negative], [x₂.pos, x₃.negative]]

theorem counts_models_sample :
    Oracle.countModels [Row.sampleAtLeastTwo] 40 =
      .ok (Models 40 fun v => ∀ r ∈ [Row.sampleAtLeastTwo], r.Holds v).ncard ∧
    ∃ rows, Cnf.sampleTautology.toRows = .ok rows ∧
      Oracle.countModels rows 40 = Cnf.sampleTautology.countModels 40 := by
  have hfits : ∀ r ∈ [Row.sampleAtLeastTwo], Term.weight r.terms ≤ Word.largest := by decide
  have hall : ∀ v, ∃ b, Row.allSatisfied [Row.sampleAtLeastTwo] v = .ok b := fun v => by
    obtain ⟨b, hb, _⟩ := Row.exists_allSatisfied hfits v
    exact ⟨b, hb⟩
  obtain ⟨hrows, hclauses⟩ := counts_models 40
  exact ⟨(hrows [Row.sampleAtLeastTwo] (by decide) (by decide)).2.1 hall,
    (hclauses Cnf.sampleTautology (by decide) (by decide)).2.2 (by decide)⟩

/-- `9223372036854775807 x1 + x2 >= 0`, which holds everywhere. -/
def Row.sampleWide : Row := .ofTerms [⟨9223372036854775807, x₁.pos⟩, ⟨1, x₂.pos⟩] .geq 0

/-- All four assignments are models, and adding both coefficients is an overflow. -/
theorem countModels_sampleWide :
    ([Row.sampleWide].flatMap Row.vars).dedup.length ≤ 24 ∧
    (∀ x ∈ [Row.sampleWide].flatMap Row.vars, x.id ≤ 2) ∧
    (Models 2 fun v => ∀ r ∈ [Row.sampleWide], r.Holds v).ncard = 4 ∧
    Oracle.countModels [Row.sampleWide] 2 = .error (.overflow .add) := by
  have hholds : (fun v => ∀ r ∈ [Row.sampleWide], r.Holds v) = fun _ => true = true := by
    funext v
    have hvalue : (0 : Int) ≤ Row.sampleWide.lhs.value v := by
      show (0 : Int) ≤ ((if v x₁ then 9223372036854775807 else 0) + ((if v x₂ then 1 else 0) + 0)) + 0
      split <;> split <;> omega
    rw [List.forall_mem_singleton]
    exact propext ⟨fun _ => rfl, fun _ => hvalue⟩
  have hall : modelsOver (Var.range 2) (fun _ => true) = 4 := by decide
  refine ⟨by decide, by decide, ?_, by decide⟩
  rw [hholds, ncard_models 2 fun _ => true, hall]

end PseudoBoolean
