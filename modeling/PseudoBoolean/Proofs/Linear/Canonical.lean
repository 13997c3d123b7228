import PseudoBoolean.Proofs.Linear.Bound

/-!
Equal functions have equal normal forms.

A form is read off three kinds of values: its constant is the value where no variable is true, a
coefficient is what its variable adds to that when it alone is true, and a variable without a term
adds nothing. A normal form has nothing else to it, so it is determined by its values
(`LinearForm.IsNormal.eq_of_value`). Hence two term lists have one normal form exactly when they
evaluate alike (`Expression.normalize_eq_iff`).
-/

namespace PseudoBoolean

/-- No variable is true. -/
def Valuation.nowhere : Valuation := fun _ => false

/-- One variable alone is true. -/
def Valuation.only (x : Var) : Valuation := fun y => y = x

/-- What a variable adds to the value of a form when it alone is true. -/
def LinearForm.coefficient (f : LinearForm) (x : Var) : Int :=
  f.value (.only x) - f.value .nowhere

/-! ### A form from its values -/

section Reading
variable {f g : LinearForm} {t : Term} {x : Var}

theorem LinearForm.value_nowhere (f : LinearForm) : f.value .nowhere = f.offset.toInt := by
  simp [LinearForm.value, Valuation.nowhere]

theorem LinearForm.coefficient_eq_sum (f : LinearForm) (x : Var) :
    f.coefficient x = (f.terms.map fun t => if t.lit.var = x then t.coeff.toInt else 0).sum := by
  rw [coefficient, value_nowhere, value]
  simp [Valuation.only]

theorem sum_coeff_eq_zero {α : Type} {items : List α} {var : α → Var} {coeff : α → Int}
    (h : ∀ a ∈ items, var a ≠ x) :
    (items.map fun a => if var a = x then coeff a else 0).sum = 0 := by
  refine List.sum_eq_zero fun d hd => ?_
  obtain ⟨a, ha, rfl⟩ := List.mem_map.1 hd
  exact if_neg (h a ha)

/-- A variable without a term adds nothing. -/
theorem LinearForm.coefficient_of_notMem (h : x ∉ f.vars) : f.coefficient x = 0 := by
  rw [coefficient_eq_sum]
  refine sum_coeff_eq_zero fun t ht e => h ?_
  exact e ▸ List.mem_map_of_mem ht

theorem sum_coeff_eq {terms : List Term}
    (hasc : (terms.map (·.lit.var)).Pairwise fun v w => v.id < w.id) (ht : t ∈ terms) :
    (terms.map fun u => if u.lit.var = t.lit.var then u.coeff.toInt else 0).sum =
      t.coeff.toInt := by
  induction terms with
  | nil => exact absurd ht List.not_mem_nil
  | cons u terms ih =>
    obtain ⟨hlt, hasc⟩ := List.pairwise_cons.1 hasc
    have hne : ∀ w ∈ terms, w.lit.var ≠ u.lit.var := fun w hw e =>
      UInt32.lt_irrefl _ (e ▸ hlt w.lit.var (List.mem_map_of_mem hw))
    rw [List.map_cons, List.sum_cons]
    rcases List.mem_cons.1 ht with rfl | ht
    · rw [if_pos rfl, sum_coeff_eq_zero hne, Int.add_zero]
    · rw [if_neg fun e => hne t ht e.symm, ih hasc ht, Int.zero_add]

/-- A variable with a term adds that term's coefficient, since no other term is on it. -/
theorem LinearForm.IsAscending.coefficient_of_mem (h : f.IsAscending) (ht : t ∈ f.terms) :
    f.coefficient t.lit.var = t.coeff.toInt := by
  rw [coefficient_eq_sum]
  exact sum_coeff_eq h ht

/-- The terms of a normal form are the positive literals with the coefficients that are not zero. -/
theorem LinearForm.IsNormal.mem_terms_iff (h : f.IsNormal) :
    t ∈ f.terms ↔
      t.lit.isPositive = true ∧ t.coeff ≠ 0 ∧ f.coefficient t.lit.var = t.coeff.toInt := by
  constructor
  · intro ht
    exact ⟨h.positive t ht, h.nonzero t ht, h.ascending.coefficient_of_mem ht⟩
  · rintro ⟨hpos, hne, hcoeff⟩
    have hmem : t.lit.var ∈ f.vars := by
      by_contra hnot
      rw [coefficient_of_notMem hnot] at hcoeff
      exact hne (Int64.toInt_inj.1 hcoeff.symm)
    obtain ⟨u, hu, hvar⟩ := List.mem_map.1 hmem
    have hlit : u.lit = t.lit := by
      rw [← Lit.pos_var (h.positive u hu), hvar, Lit.pos_var hpos]
    have hsame : u.coeff = t.coeff := by
      rw [← Int64.toInt_inj, ← h.ascending.coefficient_of_mem hu, hlit, hcoeff]
    obtain rfl : u = t := by
      cases u
      cases t
      simp_all
    exact hu

theorem LinearForm.IsAscending.pairwise_terms (h : f.IsAscending) :
    f.terms.Pairwise fun t u => t.lit.var.id < u.lit.var.id := by
  rw [IsAscending, LinearForm.vars, List.pairwise_map] at h
  exact h

/-- Ascending term lists with the same members are equal. -/
theorem LinearForm.IsAscending.terms_eq (hf : f.IsAscending) (hg : g.IsAscending)
    (h : ∀ t, t ∈ f.terms ↔ t ∈ g.terms) : f.terms = g.terms := by
  have hnodup : ∀ {terms : List Term}, terms.Pairwise (fun t u => t.lit.var.id < u.lit.var.id) →
      terms.Nodup := fun hasc =>
    hasc.imp fun {t u} hlt (e : t = u) => UInt32.lt_irrefl _ (e ▸ hlt)
  refine List.Perm.eq_of_pairwise (fun t u _ _ htu hut => ?_) hf.pairwise_terms hg.pairwise_terms
    ((List.perm_ext_iff_of_nodup (hnodup hf.pairwise_terms) (hnodup hg.pairwise_terms)).2 h)
  exact absurd (UInt32.lt_trans htu hut) (UInt32.lt_irrefl _)

/-- Normal forms with the same values are equal. -/
theorem LinearForm.IsNormal.eq_of_value (hf : f.IsNormal) (hg : g.IsNormal)
    (h : ∀ v, f.value v = g.value v) : f = g := by
  have hcoeff : ∀ x, f.coefficient x = g.coefficient x := fun x => by
    rw [coefficient, coefficient, h, h]
  have hterms : f.terms = g.terms := by
    refine hf.ascending.terms_eq hg.ascending fun t => ?_
    rw [hf.mem_terms_iff, hg.mem_terms_iff, hcoeff]
  have hoffset : f.offset = g.offset := by
    rw [← Int64.toInt_inj, ← value_nowhere, ← value_nowhere, h]
  cases f
  cases g
  simp_all

end Reading

/-! ### Term lists whose weight fits -/

section Terms
variable {terms terms' : List Term}

theorem Term.total_perm (h : terms.Perm terms') (v : Valuation) :
    Term.total terms v = Term.total terms' v :=
  (h.map _).sum_eq

/-- The true terms of a list whose weight fits have a sum. -/
theorem Expression.exists_evaluate_raw (h : Term.weight terms ≤ Word.largest) (v : Valuation) :
    ∃ a, (Expression.raw terms).evaluate v = .ok a ∧ a.toInt = Term.total terms v := by
  have hsub : ((terms.filter (·.lit.holds v)).map (·.coeff)).Sublist (terms.map (·.coeff)) :=
    List.filter_sublist.map _
  obtain ⟨a, ha⟩ := Word.exists_sum (Nat.le_trans (Word.weight_sublist hsub) h)
  exact ⟨a, ha, Expression.evaluate_eq_ok (e := .raw terms) ha⟩

/-- A list in range whose weight fits has a normal form, which can be evaluated everywhere and has
the values of the list. -/
theorem Expression.exists_normalize_raw (hr : ∀ t ∈ terms, t.lit.InRange)
    (hweight : Term.weight terms ≤ Word.largest) :
    ∃ f, (Expression.raw terms).normalize = .ok f ∧ f.IsNormal ∧
      ∀ v, ∃ a, f.evaluate v = .ok a ∧ a.toInt = Term.total terms v := by
  have hfits : (0 : Int64).toInt.natAbs + Term.weight terms ≤ Word.largest := by simpa using hweight
  obtain ⟨f, hf, hle, _⟩ := LinearForm.exists_collect hfits
  refine ⟨f, hf, LinearForm.isNormal_collect hr hf, fun v => ?_⟩
  have hvalue : f.value v = Term.total terms v := Expression.value_normalize (e := .raw terms) hf v
  have hbound : (f.value v).natAbs ≤ Word.largest := by
    rw [hvalue]
    exact Nat.le_trans (Term.natAbs_total_le terms v) hweight
  obtain ⟨a, ha, hvalue'⟩ := LinearForm.exists_evaluate (Nat.le_trans hle hweight) hbound
  exact ⟨a, ha, hvalue'.trans hvalue⟩

end Terms

/-- Two term lists have the same normal form exactly when they evaluate alike everywhere. So the
order of the terms is of no account, and different normal forms differ under some valuation. -/
theorem Expression.normalize_eq_iff {terms terms' : List Term}
    (hr : ∀ t ∈ terms, t.lit.InRange) (hr' : ∀ t ∈ terms', t.lit.InRange)
    (hfits : Term.weight terms ≤ Word.largest) (hfits' : Term.weight terms' ≤ Word.largest) :
    ∃ f g, (Expression.raw terms).normalize = .ok f ∧ (Expression.raw terms').normalize = .ok g ∧
      (f = g ↔ ∀ v, ∃ a, (Expression.raw terms).evaluate v = .ok a ∧
        (Expression.raw terms').evaluate v = .ok a) ∧
      (terms.Perm terms' → f = g) ∧
      (f ≠ g → ∃ v a b, f.evaluate v = .ok a ∧ g.evaluate v = .ok b ∧ a ≠ b) := by
  obtain ⟨f, hf, hfnormal, hfvalue⟩ := exists_normalize_raw hr hfits
  obtain ⟨g, hg, hgnormal, hgvalue⟩ := exists_normalize_raw hr' hfits'
  have hvalues : ∀ v, f.value v = Term.total terms v ∧ g.value v = Term.total terms' v := fun v =>
    ⟨value_normalize hf v, value_normalize hg v⟩
  have heq : (∀ v, Term.total terms v = Term.total terms' v) → f = g := fun h =>
    hfnormal.eq_of_value hgnormal fun v => by rw [(hvalues v).1, (hvalues v).2, h]
  refine ⟨f, g, hf, hg, ⟨?_, ?_⟩, ?_, ?_⟩
  · rintro rfl v
    obtain ⟨a, ha, htotal⟩ := exists_evaluate_raw hfits v
    obtain ⟨b, hb, htotal'⟩ := exists_evaluate_raw hfits' v
    have hsame : a.toInt = b.toInt := by
      rw [htotal, htotal', ← (hvalues v).1, (hvalues v).2]
    exact ⟨a, ha, Int64.toInt_inj.1 hsame ▸ hb⟩
  · intro h
    refine heq fun v => ?_
    obtain ⟨a, ha, ha'⟩ := h v
    exact (evaluate_eq_ok ha).symm.trans (evaluate_eq_ok ha')
  · exact fun h => heq (Term.total_perm h)
  · intro hne
    have hdiff : ∃ v, Term.total terms v ≠ Term.total terms' v := by
      by_contra hnone
      push Not at hnone
      exact hne (heq hnone)
    obtain ⟨v, hv⟩ := hdiff
    obtain ⟨a, ha, htotal⟩ := hfvalue v
    obtain ⟨b, hb, htotal'⟩ := hgvalue v
    exact ⟨v, a, b, ha, hb, fun e => hv (by rw [← htotal, ← htotal', e])⟩

namespace Term

/-- `3 x1 + 2 ~x2 + x1`. -/
def sampleSum : List Term := [⟨3, x₁.pos⟩, ⟨2, x₂.negative⟩, ⟨1, x₁.pos⟩]

/-- `-4 ~x1 - 2 x2 + 6 x3 + 6 ~x3`, the same function in other words. -/
def sampleSum' : List Term := [⟨-4, x₁.negative⟩, ⟨-2, x₂.pos⟩, ⟨6, x₃.pos⟩, ⟨6, x₃.negative⟩]

end Term

theorem Expression.normalize_eq_iff_sample :
    ∃ f g, (Expression.raw Term.sampleSum).normalize = .ok f ∧
      (Expression.raw Term.sampleSum').normalize = .ok g ∧
      (f = g ↔ ∀ v, ∃ a, (Expression.raw Term.sampleSum).evaluate v = .ok a ∧
        (Expression.raw Term.sampleSum').evaluate v = .ok a) ∧
      (Term.sampleSum.Perm Term.sampleSum' → f = g) ∧
      (f ≠ g → ∃ v a b, f.evaluate v = .ok a ∧ g.evaluate v = .ok b ∧ a ≠ b) :=
  normalize_eq_iff (by decide) (by decide) (by decide) (by decide)

example : (Expression.raw Term.sampleSum).normalize = .ok ⟨[⟨4, x₁.pos⟩, ⟨-2, x₂.pos⟩], 2⟩ ∧
    (Expression.raw Term.sampleSum').normalize = .ok ⟨[⟨4, x₁.pos⟩, ⟨-2, x₂.pos⟩], 2⟩ := by
  decide

end PseudoBoolean
