import PseudoBoolean.Linear.Constraint
import PseudoBoolean.Proofs.Checked
import PseudoBoolean.Proofs.Literal

/-!
The integers that linear expressions stand for.

`value` reads an expression over the integers, where nothing overflows. A checked evaluation that
answers agrees with it (`Expression.evaluate_eq_ok`), and so does the collected form of a term list
(`LinearForm.value_collect`): each negative literal's coefficient moves into the constant.
-/

namespace PseudoBoolean

/-- What a term adds: its coefficient where its literal is true. -/
def Term.value (t : Term) (v : Valuation) : Int := if t.lit.holds v then t.coeff.toInt else 0

/-- The sum of a term list, read literally. -/
def Term.total (terms : List Term) (v : Valuation) : Int := (terms.map (·.value v)).sum

/-- The value of a form: the coefficients of the true variables and the constant. -/
def LinearForm.value (f : LinearForm) (v : Valuation) : Int :=
  (f.terms.map fun t => if v t.lit.var then t.coeff.toInt else 0).sum + f.offset.toInt

/-- The value of a form under construction. -/
def Collected.value (acc : Collected) (v : Valuation) : Int :=
  (acc.coeffs.map fun p => if v p.1 then p.2.toInt else 0).sum + acc.offset.toInt

def Expression.value : Expression → Valuation → Int
  | .raw terms, v => Term.total terms v
  | .normal form, v => form.value v

namespace Term

@[simp] theorem total_nil (v : Valuation) : total [] v = 0 := rfl

@[simp] theorem total_cons (t : Term) (terms : List Term) (v : Valuation) :
    total (t :: terms) v = t.value v + total terms v := by simp [total]

end Term

/-! ### Evaluation -/

theorem Word.foldlM_add_eq_ok : ∀ {l : List Int64} {a b : Int64}, l.foldlM Word.add a = .ok b →
    b.toInt = a.toInt + (l.map Int64.toInt).sum
  | [], a, b, h => by
    obtain rfl : a = b := by simpa using h
    simp
  | c :: l, a, b, h => by
    rw [List.foldlM_cons, bind_eq_ok] at h
    obtain ⟨d, hd, h⟩ := h
    have hrest := Word.foldlM_add_eq_ok h
    have hstep := Word.add_eq_ok_iff.1 hd
    simp only [List.map_cons, List.sum_cons]
    omega

/-- A sum that answers is the sum of the integers. -/
theorem Word.sum_eq_ok {l : List Int64} {a : Int64} (h : Word.sum l = .ok a) :
    a.toInt = (l.map Int64.toInt).sum := by
  have hsum := Word.foldlM_add_eq_ok h
  simpa using hsum

/-- An integer that fits is what a checked operation answers. -/
theorem Word.exists_checked_of_fits (op : Arithmetic) {value : Int} (h : Fits value) :
    ∃ a, checked op value = .ok a ∧ a.toInt = value :=
  ⟨Int64.ofInt value, if_pos h, toInt_ofInt_of_fits h⟩

/-- What a term of a form adds: its coefficient where its variable is true. -/
def Term.counted (t : Term) (v : Valuation) : Int := if v t.lit.var then t.coeff.toInt else 0

namespace LinearForm

/-- A step of an evaluation. -/
def addTrue (v : Valuation) (acc : Int64) (t : Term) : Checked Int64 :=
  if v t.lit.var then Word.add acc t.coeff else return acc

section Evaluate
variable {f : LinearForm} {v : Valuation} {t : Term} {a b : Int64}

theorem evaluate_eq (f : LinearForm) (v : Valuation) : f.evaluate v =
    f.terms.foldlM (addTrue v) 0 >>= fun total => Word.add total f.offset := rfl

theorem value_eq (f : LinearForm) (v : Valuation) :
    f.value v = (f.terms.map (·.counted v)).sum + f.offset.toInt := rfl

theorem addTrue_eq_ok : addTrue v a t = .ok b ↔ b.toInt = a.toInt + t.counted v := by
  simp only [addTrue, Term.counted]
  split
  · exact Word.add_eq_ok_iff
  · rw [pure_eq_ok, ← Int64.toInt_inj, Int.add_zero, eq_comm]

/-- The true terms of a form, added up from `a` on. -/
theorem foldlM_addTrue_eq_ok : ∀ {terms : List Term} {a b : Int64},
    terms.foldlM (addTrue v) a = .ok b → b.toInt = a.toInt + (terms.map (·.counted v)).sum
  | [], a, b, h => by
    obtain rfl : a = b := by simpa using h
    simp
  | t :: terms, a, b, h => by
    rw [List.foldlM_cons, bind_eq_ok] at h
    obtain ⟨d, hd, h⟩ := h
    have hrest := foldlM_addTrue_eq_ok h
    have hstep := addTrue_eq_ok.1 hd
    rw [List.map_cons, List.sum_cons]
    omega

theorem evaluate_eq_ok (h : f.evaluate v = .ok a) : a.toInt = f.value v := by
  rw [evaluate_eq] at h
  obtain ⟨total, htotal, h⟩ := bind_eq_ok.1 h
  have hsum := foldlM_addTrue_eq_ok htotal
  rw [Word.add_eq_ok_iff.1 h, hsum, value_eq]
  simp

end Evaluate
end LinearForm

theorem Term.total_eq_sum_filter (terms : List Term) (v : Valuation) :
    Term.total terms v =
      (((terms.filter (·.lit.holds v)).map (·.coeff)).map Int64.toInt).sum := by
  induction terms with
  | nil => rfl
  | cons t terms ih =>
    rw [Term.total_cons, ih, Term.value]
    by_cases h : t.lit.holds v <;> simp [h]

/-- An evaluation that answers gives the integer that the expression stands for. -/
theorem Expression.evaluate_eq_ok {e : Expression} {v : Valuation} {a : Int64}
    (h : e.evaluate v = .ok a) : a.toInt = e.value v := by
  cases e with
  | raw terms => rw [Word.sum_eq_ok h, Expression.value, Term.total_eq_sum_filter]
  | normal form => exact LinearForm.evaluate_eq_ok h

/-! ### Collecting -/

/-- Changing a coefficient by `d` adds `d` where the variable is true. -/
theorem value_updateCoeff {v : Var} {change : Int64 → Checked Int64} {d : Int} (a : Valuation)
    (hchange : ∀ c c', change c = .ok c' → c'.toInt = c.toInt + d) :
    ∀ {coeffs coeffs' : List (Var × Int64)}, updateCoeff v change coeffs = .ok coeffs' →
      (coeffs'.map fun p => if a p.1 then p.2.toInt else 0).sum =
        (coeffs.map fun p => if a p.1 then p.2.toInt else 0).sum + if a v then d else 0
  | [], coeffs', h => by
    simp only [updateCoeff] at h
    obtain ⟨c, hc, h⟩ := bind_eq_ok.1 h
    obtain rfl := pure_eq_ok.1 h
    have hd := hchange 0 c hc
    by_cases ha : a v <;> simp [ha, hd]
  | (w, c) :: rest, coeffs', h => by
    simp only [updateCoeff] at h
    split at h
    · obtain ⟨rest', hrest, h⟩ := bind_eq_ok.1 h
      obtain rfl := pure_eq_ok.1 h
      have ih := value_updateCoeff a hchange hrest
      simp only [List.map_cons, List.sum_cons, ih]
      omega
    · split at h
      · next hw =>
        subst hw
        obtain ⟨c', hc, h⟩ := bind_eq_ok.1 h
        obtain rfl := pure_eq_ok.1 h
        have hd := hchange c c' hc
        simp only [List.map_cons, List.sum_cons]
        split <;> omega
      · obtain ⟨c', hc, h⟩ := bind_eq_ok.1 h
        obtain rfl := pure_eq_ok.1 h
        have hd := hchange 0 c' hc
        have hzero : (0 : Int64).toInt = 0 := rfl
        simp only [List.map_cons, List.sum_cons]
        split <;> omega

/-- A term adds its value to a form under construction. -/
theorem Collected.value_addTerm {acc acc' : Collected} {t : Term} (h : acc.addTerm t = .ok acc')
    (v : Valuation) : acc'.value v = acc.value v + t.value v := by
  simp only [Collected.addTerm] at h
  split at h
  · next hpos =>
    obtain ⟨coeffs, hcoeffs, h⟩ := bind_eq_ok.1 h
    obtain rfl := pure_eq_ok.1 h
    have hsum := value_updateCoeff v (fun _ _ hc => Word.add_eq_ok_iff.1 hc) hcoeffs
    simp only [Collected.value, hsum, Term.value, Lit.holds, hpos, beq_true]
    omega
  · next hneg =>
    obtain ⟨coeffs, hcoeffs, h⟩ := bind_eq_ok.1 h
    obtain ⟨offset, hoffset, h⟩ := bind_eq_ok.1 h
    obtain rfl := pure_eq_ok.1 h
    have hsum := value_updateCoeff v (fun _ _ hc => Word.sub_eq_ok_iff.1 hc) hcoeffs
    have hadd := Word.add_eq_ok_iff.1 hoffset
    simp only [Collected.value, hsum, Term.value, Lit.holds, hneg, hadd]
    cases v t.lit.var <;> simp <;> omega

theorem Collected.value_foldlM (v : Valuation) : ∀ {terms : List Term} {acc acc' : Collected},
    terms.foldlM Collected.addTerm acc = .ok acc' → acc'.value v = acc.value v + Term.total terms v
  | [], acc, acc', h => by
    obtain rfl : acc = acc' := by simpa using h
    simp
  | t :: terms, acc, acc', h => by
    rw [List.foldlM_cons, bind_eq_ok] at h
    obtain ⟨next, hnext, h⟩ := h
    rw [Collected.value_foldlM v h, Collected.value_addTerm hnext, Term.total_cons]
    omega

theorem mem_updateCoeff {v : Var} {change : Int64 → Checked Int64} : ∀ {coeffs coeffs'},
    updateCoeff v change coeffs = .ok coeffs' → ∀ p ∈ coeffs', p.1 = v ∨ ∃ q ∈ coeffs, q.1 = p.1
  | [], coeffs', h, p, hp => by
    simp only [updateCoeff] at h
    obtain ⟨c, _, h⟩ := bind_eq_ok.1 h
    obtain rfl := pure_eq_ok.1 h
    simp at hp
    exact Or.inl (by rw [hp])
  | (w, c) :: rest, coeffs', h, p, hp => by
    simp only [updateCoeff] at h
    split at h
    · obtain ⟨rest', hrest, h⟩ := bind_eq_ok.1 h
      obtain rfl := pure_eq_ok.1 h
      rcases List.mem_cons.1 hp with rfl | hp
      · exact Or.inr ⟨_, List.mem_cons_self .., rfl⟩
      · rcases mem_updateCoeff hrest p hp with hv | ⟨q, hq, e⟩
        · exact Or.inl hv
        · exact Or.inr ⟨q, List.mem_cons_of_mem _ hq, e⟩
    · split at h
      · next hw =>
        obtain ⟨c', _, h⟩ := bind_eq_ok.1 h
        obtain rfl := pure_eq_ok.1 h
        rcases List.mem_cons.1 hp with rfl | hp
        · exact Or.inl hw
        · exact Or.inr ⟨p, List.mem_cons_of_mem _ hp, rfl⟩
      · obtain ⟨c', _, h⟩ := bind_eq_ok.1 h
        obtain rfl := pure_eq_ok.1 h
        rcases List.mem_cons.1 hp with rfl | hp
        · exact Or.inl rfl
        · exact Or.inr ⟨p, hp, rfl⟩

/-- A term changes the coefficient of its own variable. -/
theorem Collected.coeffs_addTerm {acc acc' : Collected} {t : Term}
    (h : acc.addTerm t = .ok acc') :
    ∃ change, updateCoeff t.lit.var change acc.coeffs = .ok acc'.coeffs := by
  simp only [Collected.addTerm] at h
  split at h
  · obtain ⟨coeffs, hcoeffs, h⟩ := bind_eq_ok.1 h
    obtain rfl := pure_eq_ok.1 h
    exact ⟨_, hcoeffs⟩
  · obtain ⟨coeffs, hcoeffs, h⟩ := bind_eq_ok.1 h
    obtain ⟨offset, _, h⟩ := bind_eq_ok.1 h
    obtain rfl := pure_eq_ok.1 h
    exact ⟨_, hcoeffs⟩

/-- A form under construction has the variables it began with and those of the terms. -/
theorem Collected.mem_foldlM : ∀ {terms : List Term} {acc acc' : Collected},
    terms.foldlM Collected.addTerm acc = .ok acc' → ∀ p ∈ acc'.coeffs,
      (∃ t ∈ terms, t.lit.var = p.1) ∨ ∃ q ∈ acc.coeffs, q.1 = p.1
  | [], acc, acc', h, p, hp => by
    obtain rfl : acc = acc' := by simpa using h
    exact Or.inr ⟨p, hp, rfl⟩
  | t :: terms, acc, acc', h, p, hp => by
    rw [List.foldlM_cons, bind_eq_ok] at h
    obtain ⟨next, hnext, h⟩ := h
    obtain ⟨change, hcoeffs⟩ := Collected.coeffs_addTerm hnext
    rcases Collected.mem_foldlM h p hp with ⟨u, hu, e⟩ | ⟨q, hq, e⟩
    · exact Or.inl ⟨u, List.mem_cons_of_mem _ hu, e⟩
    · rcases mem_updateCoeff hcoeffs q hq with hv | ⟨r, hr, e'⟩
      · exact Or.inl ⟨t, List.mem_cons_self .., by rw [← hv, e]⟩
      · exact Or.inr ⟨r, hr, e'.trans e⟩

theorem Collected.value_form {acc : Collected} (h : ∀ p ∈ acc.coeffs, p.1.pos.var = p.1)
    (v : Valuation) : acc.form.value v = acc.value v := by
  obtain ⟨coeffs, offset⟩ := acc
  show (((coeffs.filter _).map _).map _).sum + _ = (coeffs.map _).sum + _
  congr 1
  induction coeffs with
  | nil => rfl
  | cons p coeffs ih =>
    have hrest := ih fun q hq => h q (List.mem_cons_of_mem _ hq)
    have hp : p.1.pos.var = p.1 := h p (List.mem_cons_self ..)
    by_cases hzero : p.2 = 0
    · rw [List.filter_cons_of_neg (by simp [hzero]), hrest]
      simp [hzero]
    · rw [List.filter_cons_of_pos (by simp [hzero]), List.map_cons, List.map_cons, List.sum_cons,
        hrest]
      simp [hp]

/-- A collected form under construction has only variables of the terms. -/
theorem Collected.exists_term_of_foldlM {terms : List Term} {offset : Int64} {acc : Collected}
    (h : terms.foldlM Collected.addTerm ⟨[], offset⟩ = .ok acc) :
    ∀ p ∈ acc.coeffs, ∃ t ∈ terms, t.lit.var = p.1 := by
  intro p hp
  rcases Collected.mem_foldlM h p hp with ht | ⟨q, hq, _⟩
  · exact ht
  · simp at hq

theorem Collected.var_pos_of_foldlM {terms : List Term} {offset : Int64} {acc : Collected}
    (h : terms.foldlM Collected.addTerm ⟨[], offset⟩ = .ok acc) :
    ∀ p ∈ acc.coeffs, p.1.pos.var = p.1 := by
  intro p hp
  obtain ⟨t, _, e⟩ := Collected.exists_term_of_foldlM h p hp
  rw [← e]
  exact t.lit.var_pos_var

/-- Collecting keeps the value of a term list. -/
theorem LinearForm.value_collect {terms : List Term} {offset : Int64} {f : LinearForm}
    (h : LinearForm.collect terms offset = .ok f) (v : Valuation) :
    f.value v = Term.total terms v + offset.toInt := by
  obtain ⟨acc, hacc, h⟩ := bind_eq_ok.1 h
  obtain rfl := pure_eq_ok.1 h
  rw [Collected.value_form (Collected.var_pos_of_foldlM hacc), Collected.value_foldlM v hacc]
  simp only [Collected.value, List.map_nil, List.sum_nil]
  omega

/-- Normalizing keeps the value of an expression. -/
theorem Expression.value_normalize {e : Expression} {f : LinearForm} (h : e.normalize = .ok f)
    (v : Valuation) : f.value v = e.value v := by
  cases e with
  | raw terms =>
    rw [LinearForm.value_collect h, Expression.value]
    exact Int.add_zero _
  | normal form =>
    obtain rfl : form = f := by simpa [Expression.normalize] using h
    rfl

/-! ### Negation and constants -/

theorem mapM_neg_coeff {terms terms' : List Term}
    (h : terms.mapM (fun t => do return { t with coeff := ← Word.neg t.coeff }) = .ok terms') :
    List.Forall₂ (fun t t' => t'.lit = t.lit ∧ t'.coeff.toInt = -t.coeff.toInt) terms terms' := by
  refine (mapM_eq_ok.1 h).imp fun t t' ht => ?_
  obtain ⟨c, hc, ht⟩ := bind_eq_ok.1 ht
  obtain rfl := pure_eq_ok.1 ht
  exact ⟨rfl, Word.neg_eq_ok_iff.1 hc⟩

theorem sum_neg_coeff (v : Valuation) {terms terms' : List Term}
    (h : List.Forall₂ (fun t t' => t'.lit = t.lit ∧ t'.coeff.toInt = -t.coeff.toInt)
      terms terms') :
    (terms'.map fun t => if v t.lit.var then t.coeff.toInt else 0).sum =
      -(terms.map fun t => if v t.lit.var then t.coeff.toInt else 0).sum := by
  induction h with
  | nil => rfl
  | cons ht _ ih =>
    simp only [List.map_cons, List.sum_cons, ih, ht.1, ht.2]
    split <;> omega

theorem Term.total_neg {terms terms' : List Term}
    (h : List.Forall₂ (fun t t' => t'.lit = t.lit ∧ t'.coeff.toInt = -t.coeff.toInt) terms terms')
    (v : Valuation) : Term.total terms' v = -Term.total terms v := by
  induction h with
  | nil => rfl
  | cons ht _ ih =>
    rw [Term.total_cons, Term.total_cons, ih, Term.value, Term.value, ht.1, ht.2]
    split <;> omega

theorem LinearForm.value_negate {f g : LinearForm} (h : f.negate = .ok g) (v : Valuation) :
    g.value v = -f.value v := by
  obtain ⟨terms, hterms, h⟩ := bind_eq_ok.1 h
  obtain ⟨offset, hoffset, h⟩ := bind_eq_ok.1 h
  obtain rfl := pure_eq_ok.1 h
  have hneg := Word.neg_eq_ok_iff.1 hoffset
  have hsum := sum_neg_coeff v (mapM_neg_coeff hterms)
  simp only [LinearForm.value, hsum, hneg]
  omega

theorem LinearForm.value_withoutOffset (f : LinearForm) (v : Valuation) :
    f.withoutOffset.value v + f.offset.toInt = f.value v := by
  show _ + (0 : Int64).toInt + _ = _
  rw [show (0 : Int64).toInt = 0 from rfl, Int.add_zero]
  rfl

/-! ### Constraints -/

/-- How a relation compares integers. -/
def Relation.Holds : Relation → Int → Int → Prop
  | geq, lhs, degree => degree ≤ lhs
  | eq, lhs, degree => lhs = degree

/-- Whether a valuation satisfies a constraint, over the integers. -/
def Constraint.Holds (c : Constraint) (v : Valuation) : Prop :=
  c.relation.Holds (c.lhs.value v) c.degree.toInt

/-- The row of some terms. -/
def Row.ofTerms (terms : List Term) (relation : Relation) (degree : Int64) : Row :=
  ⟨⟨terms, 0⟩, relation, degree, rfl⟩

/-- The left-hand side of a row is nothing but its terms. -/
theorem Row.lhs_eq (r : Row) : r.lhs = ⟨r.terms, 0⟩ :=
  congrArg (LinearForm.mk r.lhs.terms) r.offset_eq

/-- Whether a valuation satisfies a row, over the integers. -/
def Row.Holds (r : Row) (v : Valuation) : Prop := r.relation.Holds (r.lhs.value v) r.degree.toInt

theorem Relation.holds_iff (r : Relation) (lhs degree : Int64) :
    r.holds lhs degree = true ↔ r.Holds lhs.toInt degree.toInt := by
  cases r with
  | geq => rw [Relation.holds, decide_eq_true_iff, Int64.le_iff_toInt_le]; rfl
  | eq => rw [Relation.holds, beq_iff_eq, ← Int64.toInt_inj]; rfl

/-- A row that can be evaluated is satisfied exactly when it holds. -/
theorem Row.isSatisfied_eq_ok {r : Row} {v : Valuation} {b : Bool} (h : r.isSatisfied v = .ok b) :
    b = true ↔ r.Holds v := by
  obtain ⟨lhs, hlhs, h⟩ := bind_eq_ok.1 h
  obtain rfl := pure_eq_ok.1 h
  rw [Relation.holds_iff, LinearForm.evaluate_eq_ok hlhs, Row.Holds]

/-- Rows that can be evaluated are satisfied exactly when all of them hold. -/
theorem Row.allSatisfied_eq_ok {rows : List Row} {v : Valuation} {b : Bool}
    (h : Row.allSatisfied rows v = .ok b) : b = true ↔ ∀ r ∈ rows, r.Holds v := by
  induction rows with
  | nil =>
    obtain rfl : true = b := by simpa [Row.allSatisfied] using h
    simp
  | cons r rows ih =>
    rw [Row.allSatisfied, List.allM_cons] at h
    obtain ⟨hit, hhit, h⟩ := bind_eq_ok.1 h
    have hr := Row.isSatisfied_eq_ok hhit
    cases hit with
    | false =>
      obtain rfl := pure_eq_ok.1 h
      simp [← hr]
    | true => simp [ih h, ← hr]

/-- Moving the constant to the other side keeps the models. -/
theorem Constraint.holds_normalize {c : Constraint} {r : Row} (h : c.normalize = .ok r)
    (v : Valuation) : r.Holds v ↔ c.Holds v := by
  obtain ⟨form, hform, h⟩ := bind_eq_ok.1 h
  obtain ⟨degree, hdegree, h⟩ := bind_eq_ok.1 h
  obtain rfl := pure_eq_ok.1 h
  have hvalue := Expression.value_normalize hform v
  have hdeg := Word.sub_eq_ok_iff.1 hdegree
  have hoff := form.value_withoutOffset v
  simp only [Row.Holds, Constraint.Holds, hdeg]
  cases c.relation <;> simp only [Relation.Holds] <;> omega

/-! ### Overflow -/

theorem overflowsOnly_updateCoeff {v : Var} {change : Int64 → Checked Int64}
    (hchange : ∀ c, OverflowsOnly (change c)) : ∀ coeffs, OverflowsOnly (updateCoeff v change coeffs)
  | [] => .bind (hchange 0) fun _ => .pure _
  | (w, c) :: rest => by
    simp only [updateCoeff]
    split
    · exact .bind (overflowsOnly_updateCoeff hchange rest) fun _ => .pure _
    · split
      · exact .bind (hchange c) fun _ => .pure _
      · exact .bind (hchange 0) fun _ => .pure _

theorem Collected.overflowsOnly_addTerm (acc : Collected) (t : Term) :
    OverflowsOnly (acc.addTerm t) := by
  simp only [Collected.addTerm]
  split
  · exact .bind (overflowsOnly_updateCoeff (fun _ => .checked _ _) _) fun _ => .pure _
  · exact .bind (overflowsOnly_updateCoeff (fun _ => .checked _ _) _) fun _ =>
      .bind (.checked _ _) fun _ => .pure _

/-- Normalizing an expression faults in no other way than by an overflow. -/
theorem Expression.overflowsOnly_normalize (e : Expression) : OverflowsOnly e.normalize := by
  cases e with
  | raw terms => exact .bind (.foldlM Collected.overflowsOnly_addTerm _ _) fun _ => .pure _
  | normal form => exact .ok form

theorem LinearForm.overflowsOnly_negate (f : LinearForm) : OverflowsOnly f.negate :=
  .bind (.mapM (fun _ => .bind (.checked _ _) fun _ => .pure _) _) fun _ =>
    .bind (.checked _ _) fun _ => .pure _

theorem LinearForm.overflowsOnly_evaluate (f : LinearForm) (v : Valuation) :
    OverflowsOnly (f.evaluate v) := by
  refine .bind (.foldlM (fun acc t => ?_) _ _) fun _ => .checked _ _
  split
  · exact .checked _ _
  · exact .pure _

/-- Deciding rows faults in no other way than by an overflow. -/
theorem Row.overflowsOnly_allSatisfied (v : Valuation) : ∀ rows : List Row,
    OverflowsOnly (Row.allSatisfied rows v)
  | [] => .ok true
  | r :: rows => by
    rw [Row.allSatisfied, List.allM_cons]
    refine .bind (.bind (r.lhs.overflowsOnly_evaluate v) fun _ => .pure _) fun hit => ?_
    cases hit with
    | false => exact .pure _
    | true => exact overflowsOnly_allSatisfied v rows

theorem Constraint.overflowsOnly_normalize (c : Constraint) : OverflowsOnly c.normalize :=
  .bind c.lhs.overflowsOnly_normalize fun _ => .bind (.checked _ _) fun _ => .pure _

end PseudoBoolean
