import PseudoBoolean.Proofs.Linear.Normal
import PseudoBoolean.SubsetSum

/-!
Sums that fit.

The weight of a term list is the sum of its absolute coefficients. No partial sum of a list exceeds
its weight, whatever the order and the signs, so a computation over terms whose weight fits a word
never overflows: collecting, normalizing and evaluating all answer.
-/

namespace PseudoBoolean

/-- The largest word. An integer up to it, of either sign, fits. -/
def Word.largest : Nat := 0x7FFFFFFFFFFFFFFF

/-- The sum of the absolute values of some words. -/
def Word.weight (words : List Int64) : Nat := (words.map (·.toInt.natAbs)).sum

/-- The sum of the absolute coefficients of some terms. -/
def Term.weight (terms : List Term) : Nat := Word.weight (terms.map (·.coeff))

/-- The terms that move their coefficients into the constant. -/
def Term.negatives (terms : List Term) : List Term := terms.filter fun t => !t.lit.isPositive

/-- The sum of the absolute coefficients of a form under construction. -/
def Collected.weight (acc : Collected) : Nat := Word.weight (acc.coeffs.map (·.2))

section Weight
variable {a b c : Int64} {l : List Int64} {t : Term} {terms : List Term} {v : Valuation}

@[simp] theorem Word.weight_nil : Word.weight [] = 0 := rfl

@[simp] theorem Word.weight_cons : Word.weight (c :: l) = c.toInt.natAbs + Word.weight l := by
  simp [Word.weight]

@[simp] theorem Term.weight_nil : Term.weight [] = 0 := rfl

@[simp] theorem Term.weight_cons :
    Term.weight (t :: terms) = t.coeff.toInt.natAbs + Term.weight terms := by
  simp [Term.weight]

theorem Word.weight_sublist {l' : List Int64} (h : l'.Sublist l) :
    Word.weight l' ≤ Word.weight l := by
  induction h with
  | slnil => exact Nat.le_refl _
  | cons c _ ih =>
    rw [Word.weight_cons]
    omega
  | cons_cons c _ ih =>
    rw [Word.weight_cons, Word.weight_cons]
    omega

/-- Words within a bound weigh as many times the bound at most. -/
theorem Word.weight_le {bound : Nat} (h : ∀ c ∈ l, c.toInt.natAbs ≤ bound) :
    Word.weight l ≤ l.length * bound := by
  have hsum := List.sum_le_card_nsmul (l.map (·.toInt.natAbs)) bound (List.forall_mem_map.2 h)
  rwa [List.length_map, smul_eq_mul] at hsum

theorem Word.natAbs_sum_le (l : List Int64) :
    (l.map Int64.toInt).sum.natAbs ≤ Word.weight l := by
  induction l with
  | nil => exact Nat.le_refl _
  | cons c l ih =>
    rw [List.map_cons, List.sum_cons, Word.weight_cons]
    omega

theorem Word.natCast_mul_natAbs (n : Nat) {a : Int64} (h : 0 ≤ a.toInt) :
    ((n * a.toInt.natAbs : Nat) : Int) = n * a.toInt := by
  rw [Int.natCast_mul, Int.natAbs_of_nonneg h]

theorem Term.weight_append (terms terms' : List Term) :
    Term.weight (terms ++ terms') = Term.weight terms + Term.weight terms' := by
  simp [Term.weight, Word.weight]

theorem Term.weight_negatives_cons : Term.weight (Term.negatives (t :: terms)) =
    Term.weight (Term.negatives [t]) + Term.weight (Term.negatives terms) := by
  simp only [Term.negatives, List.filter_cons, List.filter_nil]
  split <;> simp

theorem Term.weight_negatives_le (terms : List Term) :
    Term.weight (Term.negatives terms) ≤ Term.weight terms :=
  Word.weight_sublist (List.filter_sublist.map _)

theorem Term.negatives_of_positive (h : ∀ t ∈ terms, t.lit.isPositive = true) :
    Term.negatives terms = [] := by
  rw [Term.negatives, List.filter_eq_nil_iff]
  intro t ht
  simp [h t ht]

/-! ### Sums -/

theorem Word.exists_checked (op : Arithmetic) {value : Int} (h : value.natAbs ≤ largest) :
    ∃ a, checked op value = .ok a ∧ a.toInt = value := by
  have hfits : Fits value := by
    simp only [largest] at h
    simp only [Fits]
    omega
  exact exists_checked_of_fits op hfits

/-- A word that is added grows another by its absolute value at most. -/
theorem Word.exists_add (h : a.toInt.natAbs + c.toInt.natAbs ≤ largest) :
    ∃ b, add a c = .ok b ∧ b.toInt.natAbs ≤ a.toInt.natAbs + c.toInt.natAbs := by
  have hfits : (a.toInt + c.toInt).natAbs ≤ largest := by omega
  obtain ⟨b, hb, hvalue⟩ := exists_checked .add hfits
  exact ⟨b, hb, by omega⟩

theorem Word.exists_sub (h : a.toInt.natAbs + c.toInt.natAbs ≤ largest) :
    ∃ b, sub a c = .ok b ∧ b.toInt.natAbs ≤ a.toInt.natAbs + c.toInt.natAbs := by
  have hfits : (a.toInt - c.toInt).natAbs ≤ largest := by omega
  obtain ⟨b, hb, hvalue⟩ := exists_checked .subtract hfits
  exact ⟨b, hb, by omega⟩

theorem Word.exists_foldlM_add (h : a.toInt.natAbs + weight l ≤ largest) :
    ∃ b, l.foldlM add a = .ok b := by
  induction l generalizing a with
  | nil => exact ⟨a, rfl⟩
  | cons c l ih =>
    rw [weight_cons] at h
    obtain ⟨d, hd, hle⟩ := exists_add (a := a) (c := c) (by omega)
    obtain ⟨b, hb⟩ := ih (a := d) (by omega)
    exact ⟨b, bind_eq_ok.2 ⟨d, hd, hb⟩⟩

/-- A list of words whose weight fits has a sum. -/
theorem Word.exists_sum (h : weight l ≤ largest) : ∃ b, sum l = .ok b := by
  refine exists_foldlM_add ?_
  simpa using h

/-- Every subset of coefficients whose weight fits has a sum. -/
theorem SubsetSum.exists_value {coeffs : List Int64} (h : Word.weight coeffs ≤ Word.largest)
    (mask : Nat) : ∃ b, value coeffs mask = .ok b := by
  have hsub : (selected coeffs mask).Sublist coeffs := by
    have hmap : (selected coeffs mask).Sublist (coeffs.zipIdx.map (·.1)) := by
      rw [selected]
      exact List.filter_sublist.map _
    rwa [List.zipIdx_map_fst] at hmap
  rw [value_eq_sum]
  exact Word.exists_sum (Nat.le_trans (Word.weight_sublist hsub) h)

/-! ### Values -/

/-- The sum of the coefficients that a condition keeps is at most their weight. -/
theorem Term.natAbs_sum_le (p : Term → Bool) (terms : List Term) :
    (terms.map fun t => if p t then t.coeff.toInt else 0).sum.natAbs ≤ Term.weight terms := by
  induction terms with
  | nil => simp
  | cons t terms ih =>
    rw [List.map_cons, List.sum_cons, Term.weight_cons]
    split <;> omega

theorem Term.natAbs_total_le (terms : List Term) (v : Valuation) :
    (Term.total terms v).natAbs ≤ Term.weight terms :=
  Term.natAbs_sum_le (·.lit.holds v) terms

theorem LinearForm.natAbs_value_le (f : LinearForm) (v : Valuation) :
    (f.value v).natAbs ≤ Term.weight f.terms + f.offset.toInt.natAbs := by
  have hle := Term.natAbs_sum_le (fun t => v t.lit.var) f.terms
  rw [LinearForm.value]
  omega

theorem LinearForm.exists_foldlM_addTrue (v : Valuation)
    (h : a.toInt.natAbs + Term.weight terms ≤ Word.largest) :
    ∃ b, terms.foldlM (addTrue v) a = .ok b := by
  induction terms generalizing a with
  | nil => exact ⟨a, rfl⟩
  | cons t terms ih =>
    rw [Term.weight_cons] at h
    rw [List.foldlM_cons]
    by_cases ht : v t.lit.var = true
    · obtain ⟨d, hd, hle⟩ := Word.exists_add (a := a) (c := t.coeff) (by omega)
      obtain ⟨b, hb⟩ := ih (a := d) (by omega)
      rw [addTrue, if_pos ht]
      exact ⟨b, bind_eq_ok.2 ⟨d, hd, hb⟩⟩
    · obtain ⟨b, hb⟩ := ih (a := a) (by omega)
      rw [addTrue, if_neg ht]
      exact ⟨b, bind_eq_ok.2 ⟨a, rfl, hb⟩⟩

/-- A form whose weight and value fit can be evaluated. -/
theorem LinearForm.exists_evaluate {f : LinearForm} (h : Term.weight f.terms ≤ Word.largest)
    (hvalue : (f.value v).natAbs ≤ Word.largest) : ∃ a, f.evaluate v = .ok a ∧ a.toInt = f.value v := by
  have hzero : (0 : Int64).toInt.natAbs + Term.weight f.terms ≤ Word.largest := by simpa using h
  obtain ⟨total, htotal⟩ := LinearForm.exists_foldlM_addTrue v hzero
  have hsum := LinearForm.foldlM_addTrue_eq_ok htotal
  have hadd : total.toInt + f.offset.toInt = f.value v := by
    rw [hsum, LinearForm.value_eq]
    simp
  obtain ⟨a, ha, hvalue'⟩ := Word.exists_checked .add (hadd ▸ hvalue)
  exact ⟨a, bind_eq_ok.2 ⟨total, htotal, ha⟩, hvalue'.trans hadd⟩

/-- A row whose weight fits can be decided. -/
theorem Row.exists_isSatisfied {r : Row} (h : Term.weight r.terms ≤ Word.largest) (v : Valuation) :
    ∃ b, r.isSatisfied v = .ok b ∧ (b = true ↔ r.Holds v) := by
  have hvalue : (r.lhs.value v).natAbs ≤ Word.largest := by
    have hle := r.lhs.natAbs_value_le v
    rw [r.offset_eq] at hle
    exact Nat.le_trans hle h
  obtain ⟨a, ha, _⟩ := LinearForm.exists_evaluate (f := r.lhs) h hvalue
  have hsat : r.isSatisfied v = .ok (r.relation.holds a r.degree) := bind_eq_ok.2 ⟨a, ha, rfl⟩
  exact ⟨_, hsat, Row.isSatisfied_eq_ok hsat⟩

/-- Rows whose weights fit can be decided. -/
theorem Row.exists_allSatisfied {rows : List Row}
    (h : ∀ r ∈ rows, Term.weight r.terms ≤ Word.largest) (v : Valuation) :
    ∃ b, Row.allSatisfied rows v = .ok b ∧ (b = true ↔ ∀ r ∈ rows, r.Holds v) := by
  have hall : ∃ b, Row.allSatisfied rows v = .ok b := by
    induction rows with
    | nil => exact ⟨true, rfl⟩
    | cons r rows ih =>
      obtain ⟨b, hb, _⟩ := Row.exists_isSatisfied (h r (List.mem_cons_self ..)) v
      obtain ⟨rest, hrest⟩ := ih fun q hq => h q (List.mem_cons_of_mem _ hq)
      rw [Row.allSatisfied, List.allM_cons]
      cases b with
      | false => exact ⟨false, bind_eq_ok.2 ⟨false, hb, rfl⟩⟩
      | true => exact ⟨rest, bind_eq_ok.2 ⟨true, hb, hrest⟩⟩
  obtain ⟨b, hb⟩ := hall
  exact ⟨b, hb, Row.allSatisfied_eq_ok hb⟩

end Weight

/-! ### Collecting -/

/-- A change by at most `d` keeps coefficients within their weight and `d`. -/
theorem exists_updateCoeff {v : Var} {change : Int64 → Checked Int64} {d : Nat}
    (hchange : ∀ c, c.toInt.natAbs + d ≤ Word.largest →
      ∃ c', change c = .ok c' ∧ c'.toInt.natAbs ≤ c.toInt.natAbs + d) :
    ∀ {coeffs : List (Var × Int64)}, Word.weight (coeffs.map (·.2)) + d ≤ Word.largest →
      ∃ coeffs', updateCoeff v change coeffs = .ok coeffs' ∧
        Word.weight (coeffs'.map (·.2)) ≤ Word.weight (coeffs.map (·.2)) + d
  | [], h => by
    obtain ⟨c, hc, hle⟩ := hchange 0 (by simpa using h)
    refine ⟨[(v, c)], ?_, ?_⟩
    · simp only [updateCoeff]
      exact bind_eq_ok.2 ⟨c, hc, rfl⟩
    · simpa using hle
  | (w, c) :: rest, h => by
    rw [List.map_cons, Word.weight_cons] at h
    simp only [updateCoeff]
    split
    · have hfits : Word.weight (rest.map (·.2)) + d ≤ Word.largest := by omega
      obtain ⟨rest', hrest, hle⟩ := exists_updateCoeff hchange hfits
      refine ⟨(w, c) :: rest', bind_eq_ok.2 ⟨rest', hrest, rfl⟩, ?_⟩
      simp only [List.map_cons, Word.weight_cons]
      omega
    · split
      · obtain ⟨c', hc, hle⟩ := hchange c (by simp only at h; omega)
        refine ⟨(w, c') :: rest, bind_eq_ok.2 ⟨c', hc, rfl⟩, ?_⟩
        simp only [List.map_cons, Word.weight_cons]
        omega
      · obtain ⟨c', hc, hle⟩ := hchange 0 (by simp; omega)
        refine ⟨(v, c') :: (w, c) :: rest, bind_eq_ok.2 ⟨c', hc, rfl⟩, ?_⟩
        have hzero : (0 : Int64).toInt.natAbs = 0 := rfl
        simp only [List.map_cons, Word.weight_cons]
        omega

/-- A term grows the coefficients by its coefficient at most, and the constant too if its literal is
negative. -/
theorem Collected.exists_addTerm {acc : Collected} {t : Term}
    (hcoeffs : acc.weight + t.coeff.toInt.natAbs ≤ Word.largest)
    (hoffset : acc.offset.toInt.natAbs + Term.weight (Term.negatives [t]) ≤ Word.largest) :
    ∃ acc', acc.addTerm t = .ok acc' ∧ acc'.weight ≤ acc.weight + t.coeff.toInt.natAbs ∧
      acc'.offset.toInt.natAbs ≤
        acc.offset.toInt.natAbs + Term.weight (Term.negatives [t]) := by
  simp only [Collected.addTerm]
  split
  · obtain ⟨coeffs, hupdate, hle⟩ :=
      exists_updateCoeff (v := t.lit.var) (fun c hc => Word.exists_add (c := t.coeff) hc) hcoeffs
    exact ⟨⟨coeffs, acc.offset⟩, bind_eq_ok.2 ⟨coeffs, hupdate, rfl⟩, hle, Nat.le_add_right ..⟩
  · next hneg =>
    have hmoved : Term.weight (Term.negatives [t]) = t.coeff.toInt.natAbs := by
      simp [Term.negatives, hneg]
    rw [hmoved] at hoffset ⊢
    obtain ⟨coeffs, hupdate, hle⟩ :=
      exists_updateCoeff (v := t.lit.var) (fun c hc => Word.exists_sub (c := t.coeff) hc) hcoeffs
    obtain ⟨offset, hadd, hle'⟩ := Word.exists_add hoffset
    exact ⟨⟨coeffs, offset⟩, bind_eq_ok.2 ⟨coeffs, hupdate, bind_eq_ok.2 ⟨offset, hadd, rfl⟩⟩, hle,
      hle'⟩

theorem Collected.exists_foldlM {terms : List Term} {acc : Collected}
    (hcoeffs : acc.weight + Term.weight terms ≤ Word.largest)
    (hoffset : acc.offset.toInt.natAbs + Term.weight (Term.negatives terms) ≤ Word.largest) :
    ∃ acc', terms.foldlM Collected.addTerm acc = .ok acc' ∧
      acc'.weight ≤ acc.weight + Term.weight terms ∧
      acc'.offset.toInt.natAbs ≤
        acc.offset.toInt.natAbs + Term.weight (Term.negatives terms) := by
  induction terms generalizing acc with
  | nil => exact ⟨acc, rfl, Nat.le_refl _, Nat.le_refl _⟩
  | cons t terms ih =>
    rw [Term.weight_cons] at hcoeffs
    rw [Term.weight_negatives_cons] at hoffset
    have hnext : ∃ next, acc.addTerm t = .ok next ∧
        next.weight ≤ acc.weight + t.coeff.toInt.natAbs ∧
        next.offset.toInt.natAbs ≤
          acc.offset.toInt.natAbs + Term.weight (Term.negatives [t]) :=
      Collected.exists_addTerm (by omega) (by omega)
    obtain ⟨next, hnext, hcoeffs', hoffset'⟩ := hnext
    have hfits : next.weight + Term.weight terms ≤ Word.largest := by omega
    obtain ⟨acc', hacc', hle, hle'⟩ := ih hfits (by omega)
    refine ⟨acc', bind_eq_ok.2 ⟨next, hnext, hacc'⟩, ?_, ?_⟩
    · rw [Term.weight_cons]
      omega
    · rw [Term.weight_negatives_cons]
      omega

theorem Collected.weight_form (acc : Collected) : Term.weight acc.form.terms ≤ acc.weight := by
  have hcoeffs : acc.form.terms.map (·.coeff) = (acc.coeffs.filter (·.2 ≠ 0)).map (·.2) := by
    rw [Collected.form, List.map_map]
    rfl
  rw [Term.weight, hcoeffs]
  exact Word.weight_sublist (List.filter_sublist.map _)

/-- Terms whose weight fits are collected into a form, if what they move fits beside the constant. -/
theorem LinearForm.exists_collect_of_negatives {terms : List Term} {offset : Int64}
    (hweight : Term.weight terms ≤ Word.largest)
    (hoffset : offset.toInt.natAbs + Term.weight (Term.negatives terms) ≤ Word.largest) :
    ∃ f, LinearForm.collect terms offset = .ok f ∧ Term.weight f.terms ≤ Term.weight terms ∧
      f.offset.toInt.natAbs ≤ offset.toInt.natAbs + Term.weight (Term.negatives terms) := by
  have hempty : Collected.weight ⟨[], offset⟩ = 0 := rfl
  have hfits : Collected.weight ⟨[], offset⟩ + Term.weight terms ≤ Word.largest := by omega
  obtain ⟨acc, hacc, hcoeffs, hle⟩ := Collected.exists_foldlM hfits hoffset
  refine ⟨acc.form, bind_eq_ok.2 ⟨acc, hacc, rfl⟩, ?_, hle⟩
  have hform := acc.weight_form
  omega

/-- Terms whose weight fits, beside the constant, are collected into a form. -/
theorem LinearForm.exists_collect {terms : List Term} {offset : Int64}
    (h : offset.toInt.natAbs + Term.weight terms ≤ Word.largest) :
    ∃ f, LinearForm.collect terms offset = .ok f ∧ Term.weight f.terms ≤ Term.weight terms ∧
      f.offset.toInt.natAbs ≤ offset.toInt.natAbs + Term.weight terms := by
  have hmoved := Term.weight_negatives_le terms
  have hoffset : offset.toInt.natAbs + Term.weight (Term.negatives terms) ≤ Word.largest := by omega
  obtain ⟨f, hf, hweight, hle⟩ := LinearForm.exists_collect_of_negatives (by omega) hoffset
  exact ⟨f, hf, hweight, by omega⟩

/-- Positive literals leave the constant alone. -/
theorem Collected.offset_foldlM {terms : List Term} (hpos : ∀ t ∈ terms, t.lit.isPositive = true)
    {acc acc' : Collected} (h : terms.foldlM Collected.addTerm acc = .ok acc') :
    acc'.offset = acc.offset := by
  induction terms generalizing acc with
  | nil =>
    obtain rfl := pure_eq_ok.1 h
    rfl
  | cons t terms ih =>
    obtain ⟨next, hnext, h⟩ := bind_eq_ok.1 h
    rw [Collected.addTerm, if_pos (hpos t (List.mem_cons_self ..))] at hnext
    obtain ⟨coeffs, _, hnext⟩ := bind_eq_ok.1 hnext
    obtain rfl := pure_eq_ok.1 hnext
    have hrest : acc'.offset = (Collected.mk coeffs acc.offset).offset :=
      ih (fun u hu => hpos u (List.mem_cons_of_mem _ hu)) h
    exact hrest

theorem LinearForm.offset_collect {terms : List Term} {offset : Int64} {f : LinearForm}
    (hpos : ∀ t ∈ terms, t.lit.isPositive = true) (h : LinearForm.collect terms offset = .ok f) :
    f.offset = offset := by
  obtain ⟨acc, hacc, h⟩ := bind_eq_ok.1 h
  obtain rfl := pure_eq_ok.1 h
  exact Collected.offset_foldlM hpos hacc

/-! ### Negation -/

/-- Terms whose weight fits can be negated, and keep it. -/
theorem Term.exists_mapM_neg {terms : List Term} (h : Term.weight terms ≤ Word.largest) :
    ∃ terms', terms.mapM (fun t => do return { t with coeff := ← Word.neg t.coeff }) =
        (.ok terms' : Checked (List Term)) ∧ Term.weight terms' = Term.weight terms := by
  induction terms with
  | nil => exact ⟨[], rfl, rfl⟩
  | cons t terms ih =>
    rw [Term.weight_cons] at h
    have hfits : (-t.coeff.toInt).natAbs ≤ Word.largest := by omega
    obtain ⟨c, hc, hvalue⟩ := Word.exists_checked .negate hfits
    obtain ⟨terms', hterms, hweight⟩ := ih (by omega)
    refine ⟨{ t with coeff := c } :: terms', ?_, ?_⟩
    · rw [List.mapM_cons]
      exact bind_eq_ok.2 ⟨_, bind_eq_ok.2 ⟨c, hc, rfl⟩, bind_eq_ok.2 ⟨terms', hterms, rfl⟩⟩
    · rw [Term.weight_cons, Term.weight_cons, hweight]
      simp only
      omega

/-- The row of a constraint over terms exists if their weight fits beside the degree. -/
theorem Constraint.exists_normalize {terms : List Term} {relation : Relation} {degree : Int64}
    (h : Term.weight terms + degree.toInt.natAbs ≤ Word.largest) :
    ∃ r, Constraint.normalize ⟨.raw terms, relation, degree⟩ = .ok r ∧
      Term.weight r.terms ≤ Term.weight terms := by
  have hzero : (0 : Int64).toInt.natAbs = 0 := rfl
  have hfits : (0 : Int64).toInt.natAbs + Term.weight terms ≤ Word.largest := by omega
  obtain ⟨form, hform, hweight, hoffset⟩ := LinearForm.exists_collect hfits
  have hdegree : degree.toInt.natAbs + form.offset.toInt.natAbs ≤ Word.largest := by omega
  obtain ⟨d, hd, _⟩ := Word.exists_sub hdegree
  exact ⟨.ofTerms form.terms relation d, bind_eq_ok.2 ⟨form, hform, bind_eq_ok.2 ⟨d, hd, rfl⟩⟩, hweight⟩

end PseudoBoolean
