import PseudoBoolean.Proofs.Linear.Canonical

/-!
Which term lists overflow.

Terms are collected one by one. After some of them, each variable has the coefficient and the form
the constant that they sum to, and both are words: a sum that leaves its word stops the computation,
although a later term may lead back. So a list is collected exactly when the coefficients and the
constant of each of its beginnings fit (`LinearForm.exists_collect_iff`).
-/

namespace PseudoBoolean

namespace Term

/-- What a term adds to the coefficient of `x`: a negative literal takes its coefficient away. -/
def slope (t : Term) (x : Var) : Int :=
  if t.lit.var = x then (if t.lit.isPositive then t.coeff.toInt else -t.coeff.toInt) else 0

/-- The coefficient of `x` in the sum of a term list. -/
def coefficient (terms : List Term) (x : Var) : Int := (terms.map (·.slope x)).sum

/-- What a term adds to the constant: its coefficient if its literal is negative. -/
def shift (t : Term) : Int := if t.lit.isPositive then 0 else t.coeff.toInt

/-- The constant in the sum of a term list. -/
def constant (terms : List Term) : Int := (terms.map (·.shift)).sum

/-- Whether no sum overflows while terms are collected, each with its coefficient times `sign`. -/
def SumsFit (sign : Int) (terms : List Term) : Prop :=
  (∀ t ∈ terms, Word.Fits (sign * t.coeff.toInt)) ∧
    ∀ n, (∀ x, Word.Fits (sign * coefficient (terms.take n) x)) ∧
      Word.Fits (sign * constant (terms.take n))

section Sums
variable {t : Term} {terms : List Term} {x : Var}

@[simp] theorem coefficient_nil : coefficient [] x = 0 := rfl

@[simp] theorem coefficient_cons :
    coefficient (t :: terms) x = t.slope x + coefficient terms x := by simp [coefficient]

@[simp] theorem constant_nil : constant [] = 0 := rfl

@[simp] theorem constant_cons : constant (t :: terms) = t.shift + constant terms := by
  simp [constant]

theorem value_nowhere (t : Term) : t.value .nowhere = t.shift := by
  rw [value, shift, Lit.holds]
  cases t.lit.isPositive <;> rfl

theorem value_only (t : Term) (x : Var) : t.value (.only x) = t.slope x + t.shift := by
  rw [value, slope, shift, Lit.holds, Valuation.only]
  by_cases hx : t.lit.var = x <;> cases t.lit.isPositive <;> simp [hx]

theorem total_nowhere (terms : List Term) : total terms .nowhere = constant terms := by
  simp [total, constant, value_nowhere]

end Sums

end Term

/-! ### Forms under construction -/

/-- The coefficient of `x` in a form under construction. -/
def Collected.coefficient (acc : Collected) (x : Var) : Int :=
  (acc.coeffs.map fun p => if p.1 = x then p.2.toInt else 0).sum

/-- The coefficient of a variable is a word, and changing it is all that can go wrong. -/
theorem exists_updateCoeff_iff {x : Var} : ∀ {coeffs : List (Var × Int64)},
    coeffs.Pairwise (fun p q => p.1.id < q.1.id) →
    ∃ c : Int64, c.toInt = (coeffs.map fun p => if p.1 = x then p.2.toInt else 0).sum ∧
      ∀ change, (∃ coeffs', updateCoeff x change coeffs = .ok coeffs') ↔ ∃ c', change c = .ok c'
  | [], _ => by
    refine ⟨0, rfl, fun change => ?_⟩
    rw [updateCoeff]
    exact exists_bind_pure
  | (w, d) :: rest, hasc => by
    obtain ⟨hw, hrest⟩ := List.pairwise_cons.1 hasc
    by_cases hlt : w.id < x.id
    · obtain ⟨c, hc, hiff⟩ := exists_updateCoeff_iff (x := x) hrest
      have hne : w ≠ x := by
        rintro rfl
        exact UInt32.lt_irrefl _ hlt
      refine ⟨c, by simpa [hne] using hc, fun change => ?_⟩
      rw [← hiff change, updateCoeff, if_pos hlt]
      exact exists_bind_pure
    · by_cases heq : w = x
      · subst heq
        have hzero : (rest.map fun p => if p.1 = w then p.2.toInt else 0).sum = 0 :=
          sum_coeff_eq_zero fun p hp e => UInt32.lt_irrefl _ (e ▸ hw p hp)
        refine ⟨d, by simp [hzero], fun change => ?_⟩
        rw [updateCoeff, if_neg hlt, if_pos rfl]
        exact exists_bind_pure
      · -- the variable belongs before the first one, so it has no coefficient
        have hzero : (rest.map fun p => if p.1 = x then p.2.toInt else 0).sum = 0 :=
          sum_coeff_eq_zero fun p hp e => hlt (e ▸ hw p hp)
        refine ⟨0, by simp [heq, hzero], fun change => ?_⟩
        rw [updateCoeff, if_neg hlt, if_neg heq]
        exact exists_bind_pure

/-- A checked operation answers exactly when the integer fits. -/
theorem Word.exists_checked_iff (op : Arithmetic) {value : Int} :
    (∃ a, checked op value = .ok a) ↔ Fits value := by
  constructor
  · rintro ⟨a, ha⟩
    exact checked_eq_ok_iff.1 ha ▸ fits_toInt a
  · intro h
    obtain ⟨a, ha, _⟩ := exists_checked_of_fits op h
    exact ⟨a, ha⟩

namespace Collected
variable {acc next : Collected} {t : Term} {x : Var}

theorem value_nowhere (acc : Collected) : acc.value .nowhere = acc.offset.toInt := by
  simp [value, Valuation.nowhere]

theorem value_only (acc : Collected) (x : Var) :
    acc.value (.only x) = acc.coefficient x + acc.offset.toInt := by
  simp [value, coefficient, Valuation.only]

/-- Every coefficient of a form under construction is a word. -/
theorem IsAscending.fits_coefficient (h : acc.IsAscending) (x : Var) :
    Word.Fits (acc.coefficient x) := by
  obtain ⟨c, hc, _⟩ := exists_updateCoeff_iff (x := x) h
  rw [coefficient, ← hc]
  exact Word.fits_toInt c

theorem offset_addTerm (h : acc.addTerm t = .ok next) :
    next.offset.toInt = acc.offset.toInt + t.shift := by
  rw [← value_nowhere, ← value_nowhere, value_addTerm h, Term.value_nowhere]

theorem coefficient_addTerm (h : acc.addTerm t = .ok next) :
    next.coefficient x = acc.coefficient x + t.slope x := by
  have hvalue := value_addTerm h (.only x)
  rw [value_only, value_only, Term.value_only, offset_addTerm h] at hvalue
  omega

/-- A term is added exactly when the coefficients and the constant fit afterwards. -/
theorem exists_addTerm_iff (h : acc.IsAscending) : (∃ next, acc.addTerm t = .ok next) ↔
    (∀ x, Word.Fits (acc.coefficient x + t.slope x)) ∧ Word.Fits (acc.offset.toInt + t.shift) := by
  constructor
  · rintro ⟨next, hnext⟩
    refine ⟨fun x => ?_, ?_⟩
    · rw [← coefficient_addTerm hnext]
      exact (h.addTerm hnext).fits_coefficient x
    · rw [← offset_addTerm hnext]
      exact Word.fits_toInt _
  · rintro ⟨hcoeff, hoffset⟩
    have hown := hcoeff t.lit.var
    obtain ⟨c, hc, hiff⟩ := exists_updateCoeff_iff (x := t.lit.var) h
    rw [coefficient, ← hc, Term.slope, if_pos rfl] at hown
    rw [Term.shift] at hoffset
    rw [Collected.addTerm]
    split
    · next hpos =>
      rw [if_pos hpos] at hown
      obtain ⟨coeffs, hcoeffs⟩ := (hiff (Word.add · t.coeff)).2
        ((Word.exists_checked_iff .add).2 hown)
      exact ⟨_, bind_eq_ok.2 ⟨coeffs, hcoeffs, rfl⟩⟩
    · next hneg =>
      rw [if_neg hneg, ← Int.sub_eq_add_neg] at hown
      rw [if_neg hneg] at hoffset
      obtain ⟨coeffs, hcoeffs⟩ := (hiff (Word.sub · t.coeff)).2
        ((Word.exists_checked_iff .subtract).2 hown)
      obtain ⟨offset, hadd⟩ := (Word.exists_checked_iff .add).2 hoffset
      exact ⟨_, bind_eq_ok.2 ⟨coeffs, hcoeffs, bind_eq_ok.2 ⟨offset, hadd, rfl⟩⟩⟩

/-- Terms are added exactly when the coefficients and the constant fit after each of them. -/
theorem exists_foldlM_iff {terms : List Term} (h : acc.IsAscending) :
    (∃ acc', terms.foldlM Collected.addTerm acc = .ok acc') ↔
      ∀ n, (∀ x, Word.Fits (acc.coefficient x + Term.coefficient (terms.take n) x)) ∧
        Word.Fits (acc.offset.toInt + Term.constant (terms.take n)) := by
  induction terms generalizing acc with
  | nil =>
    refine ⟨fun _ n => ?_, fun _ => ⟨acc, rfl⟩⟩
    simpa using And.intro h.fits_coefficient (Word.fits_toInt acc.offset)
  | cons t terms ih =>
    constructor
    · rintro ⟨acc', hacc⟩ n
      obtain ⟨next, hnext, hrest⟩ := bind_eq_ok.1 hacc
      cases n with
      | zero =>
        simpa using And.intro h.fits_coefficient (Word.fits_toInt acc.offset)
      | succ n =>
        obtain ⟨hcoeff, hoffset⟩ := (ih (h.addTerm hnext)).1 ⟨acc', hrest⟩ n
        rw [List.take_succ_cons, Term.constant_cons, ← Int.add_assoc, ← offset_addTerm hnext]
        refine ⟨fun x => ?_, hoffset⟩
        rw [Term.coefficient_cons, ← Int.add_assoc, ← coefficient_addTerm hnext]
        exact hcoeff x
    · intro hfits
      have hfirst : (∀ x, Word.Fits (acc.coefficient x + t.slope x)) ∧
          Word.Fits (acc.offset.toInt + t.shift) := by simpa using hfits 1
      obtain ⟨next, hnext⟩ := (exists_addTerm_iff h).2 hfirst
      have hrest : ∃ acc', terms.foldlM Collected.addTerm next = .ok acc' := by
        refine (ih (h.addTerm hnext)).2 fun n => ?_
        obtain ⟨hcoeff, hoffset⟩ := hfits (n + 1)
        rw [List.take_succ_cons, Term.constant_cons, ← Int.add_assoc, ← offset_addTerm hnext]
          at hoffset
        refine ⟨fun x => ?_, hoffset⟩
        have hx := hcoeff x
        rwa [List.take_succ_cons, Term.coefficient_cons, ← Int.add_assoc,
          ← coefficient_addTerm hnext] at hx
      obtain ⟨acc', hacc⟩ := hrest
      exact ⟨acc', bind_eq_ok.2 ⟨next, hnext, hacc⟩⟩

end Collected

/-! ### Term lists -/

section Terms
variable {terms terms' : List Term} {form : LinearForm} {relation : Relation} {degree : Int64}

/-- A term list is collected exactly when no sum overflows. -/
theorem LinearForm.exists_collect_iff :
    (∃ f, LinearForm.collect terms 0 = .ok f) ↔ Term.SumsFit 1 terms := by
  have hascending : Collected.IsAscending ⟨[], 0⟩ := .nil
  have hempty : ∀ x, Collected.coefficient ⟨[], 0⟩ x = 0 := fun _ => rfl
  have hzero : (0 : Int64).toInt = 0 := rfl
  rw [LinearForm.collect, exists_bind_pure, Collected.exists_foldlM_iff hascending, Term.SumsFit]
  simp only [hempty, hzero, Int.zero_add, Int.one_mul]
  exact ⟨fun h => ⟨fun t _ => Word.fits_toInt t.coeff, h⟩, fun h => h.2⟩

/-- The constant of a form is the constant of the terms. -/
theorem LinearForm.offset_of_collect (h : LinearForm.collect terms 0 = .ok form) :
    form.offset.toInt = Term.constant terms := by
  rw [← LinearForm.value_nowhere, LinearForm.value_collect h, Term.total_nowhere]
  exact Int.add_zero _

/-- The row of a constraint over terms exists exactly when no sum overflows and the constant fits
beside the degree. -/
theorem Constraint.exists_normalize_iff :
    (∃ r, Constraint.normalize ⟨.raw terms, relation, degree⟩ = .ok r) ↔
      Term.SumsFit 1 terms ∧ Word.Fits (degree.toInt - Term.constant terms) := by
  rw [← LinearForm.exists_collect_iff]
  constructor
  · rintro ⟨r, h⟩
    obtain ⟨form, hform, h⟩ := bind_eq_ok.1 h
    obtain ⟨d, hd, _⟩ := bind_eq_ok.1 h
    refine ⟨⟨form, hform⟩, ?_⟩
    rw [← LinearForm.offset_of_collect hform, ← Word.sub_eq_ok_iff.1 hd]
    exact Word.fits_toInt d
  · rintro ⟨⟨form, hform⟩, hfits⟩
    rw [← LinearForm.offset_of_collect hform] at hfits
    obtain ⟨d, hd⟩ := (Word.exists_checked_iff .subtract).2 hfits
    exact ⟨_, bind_eq_ok.2 ⟨form, hform, bind_eq_ok.2 ⟨d, hd, rfl⟩⟩⟩

/-! ### Negated terms -/

/-- Terms are negated exactly when every negated coefficient fits. -/
theorem Term.exists_mapM_neg_iff :
    (∃ negated, terms.mapM (fun t => do return { t with coeff := ← Word.neg t.coeff }) =
      (.ok negated : Checked (List Term))) ↔ ∀ t ∈ terms, Word.Fits (-t.coeff.toInt) := by
  constructor
  · rintro ⟨negated, h⟩ t ht
    have hneg := mapM_neg_coeff h
    clear h
    induction hneg with
    | nil => exact absurd ht List.not_mem_nil
    | @cons t' u _ _ hu _ ih =>
      rcases List.mem_cons.1 ht with rfl | ht
      · exact hu.2 ▸ Word.fits_toInt u.coeff
      · exact ih ht
  · intro h
    have hmember : ∀ t ∈ terms, ∃ u,
        (do return { t with coeff := ← Word.neg t.coeff } : Checked Term) = .ok u ∧ True :=
      fun t ht => by
        obtain ⟨c, hc⟩ := (Word.exists_checked_iff .negate).2 (h t ht)
        exact ⟨_, bind_eq_ok.2 ⟨c, hc, rfl⟩, trivial⟩
    obtain ⟨negated, hnegated, _⟩ := exists_mapM hmember
    exact ⟨negated, hnegated⟩

/-- Negated terms sum to the negated coefficients. -/
theorem Term.coefficient_neg
    (h : List.Forall₂ (fun t t' => t'.lit = t.lit ∧ t'.coeff.toInt = -t.coeff.toInt) terms terms')
    (x : Var) : Term.coefficient terms' x = -Term.coefficient terms x := by
  induction h with
  | nil => rfl
  | cons ht _ ih =>
    rw [coefficient_cons, coefficient_cons, ih, slope, slope, ht.1, ht.2]
    split
    · split <;> omega
    · omega

theorem Term.constant_neg
    (h : List.Forall₂ (fun t t' => t'.lit = t.lit ∧ t'.coeff.toInt = -t.coeff.toInt)
      terms terms') : Term.constant terms' = -Term.constant terms := by
  rw [← total_nowhere, ← total_nowhere, Term.total_neg h]

/-- The sums of negated terms fit exactly when the negated sums do. -/
theorem Term.sumsFit_neg
    (h : List.Forall₂ (fun t t' => t'.lit = t.lit ∧ t'.coeff.toInt = -t.coeff.toInt)
      terms terms') : SumsFit 1 terms' ↔ SumsFit (-1) terms := by
  have hcoeffs : ∀ t ∈ terms, Word.Fits (-1 * t.coeff.toInt) := by
    induction h with
    | nil => exact nofun
    | @cons t u _ _ hu _ ih =>
      refine List.forall_mem_cons.2 ⟨?_, ih⟩
      rw [Int.neg_one_mul, ← hu.2]
      exact Word.fits_toInt u.coeff
  have htake : ∀ n, List.Forall₂ (fun t t' => t'.lit = t.lit ∧ t'.coeff.toInt = -t.coeff.toInt)
      (terms.take n) (terms'.take n) := fun n => List.forall₂_take n h
  have hsums : ∀ n, ((∀ x, Word.Fits (1 * coefficient (terms'.take n) x)) ∧
      Word.Fits (1 * constant (terms'.take n))) ↔
      (∀ x, Word.Fits (-1 * coefficient (terms.take n) x)) ∧
        Word.Fits (-1 * constant (terms.take n)) := fun n => by
    simp only [coefficient_neg (htake n), constant_neg (htake n), Int.one_mul, Int.neg_one_mul]
  have hwords : ∀ t ∈ terms', Word.Fits (1 * t.coeff.toInt) := fun t _ => by
    rw [Int.one_mul]
    exact Word.fits_toInt t.coeff
  rw [SumsFit, SumsFit]
  exact ⟨fun h' => ⟨hcoeffs, fun n => (hsums n).1 (h'.2 n)⟩,
    fun h' => ⟨hwords, fun n => (hsums n).2 (h'.2 n)⟩⟩

end Terms

end PseudoBoolean
