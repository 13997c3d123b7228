import PseudoBoolean.Proofs.Linear.Value

/-!
Normal forms: ascending variables, positive literals, no zero coefficient.

Every collected form ascends, and is normal if its literals are in range. Collecting a normal form
again gives it back, so a normal form is the only one of its kind that a reader can make of it.
-/

namespace PseudoBoolean

/-- The variables of a form ascend: each occurs once, and the last is the largest. -/
def LinearForm.IsAscending (f : LinearForm) : Prop := f.vars.Pairwise fun v w => v.id < w.id

/-- The shape of a form that was collected from literals in range. -/
structure LinearForm.IsNormal (f : LinearForm) : Prop where
  positive : ∀ t ∈ f.terms, t.lit.isPositive = true
  nonzero : ∀ t ∈ f.terms, t.coeff ≠ 0
  ascending : f.IsAscending

/-- A row whose left-hand side is normal. -/
def Row.IsNormal (r : Row) : Prop := r.lhs.IsNormal

/-- An expression over literals in range: a list of any terms on them, or a normal form. -/
def Expression.InRange : Expression → Prop
  | .raw terms => ∀ t ∈ terms, t.lit.InRange
  | .normal form => form.IsNormal

instance (f : LinearForm) : Decidable f.IsAscending := inferInstanceAs (Decidable (List.Pairwise ..))

instance (f : LinearForm) : Decidable f.IsNormal :=
  decidable_of_iff ((∀ t ∈ f.terms, t.lit.isPositive = true) ∧ (∀ t ∈ f.terms, t.coeff ≠ 0) ∧
    f.IsAscending) ⟨fun ⟨p, n, a⟩ => ⟨p, n, a⟩, fun ⟨p, n, a⟩ => ⟨p, n, a⟩⟩

instance (r : Row) : Decidable r.IsNormal := inferInstanceAs (Decidable r.lhs.IsNormal)

/-! ### Collected forms ascend -/

theorem ascending_updateCoeff {v : Var} {change : Int64 → Checked Int64} : ∀ {coeffs coeffs'},
    updateCoeff v change coeffs = .ok coeffs' → coeffs.Pairwise (fun p q => p.1.id < q.1.id) →
    coeffs'.Pairwise fun p q => p.1.id < q.1.id
  | [], coeffs', h, _ => by
    simp only [updateCoeff] at h
    obtain ⟨c, _, h⟩ := bind_eq_ok.1 h
    obtain rfl := pure_eq_ok.1 h
    exact List.pairwise_singleton ..
  | (w, c) :: rest, coeffs', h, hasc => by
    obtain ⟨hw, hrest⟩ := List.pairwise_cons.1 hasc
    simp only [updateCoeff] at h
    split at h
    · next hlt =>
      obtain ⟨rest', hrest', h⟩ := bind_eq_ok.1 h
      obtain rfl := pure_eq_ok.1 h
      refine List.pairwise_cons.2 ⟨fun q hq => ?_, ascending_updateCoeff hrest' hrest⟩
      rcases mem_updateCoeff hrest' q hq with hv | ⟨r, hr, e⟩
      · rw [hv]; exact hlt
      · rw [← e]; exact hw r hr
    · next hge =>
      split at h
      · obtain ⟨c', _, h⟩ := bind_eq_ok.1 h
        obtain rfl := pure_eq_ok.1 h
        exact List.pairwise_cons.2 ⟨hw, hrest⟩
      · next hne =>
        obtain ⟨c', _, h⟩ := bind_eq_ok.1 h
        obtain rfl := pure_eq_ok.1 h
        have hlt : v.id < w.id := by
          have hid : w.id ≠ v.id := fun e => hne (Var.ext_id e)
          rw [UInt32.lt_iff_toNat_lt] at hge ⊢
          have hnat : w.id.toNat ≠ v.id.toNat := fun e => hid (UInt32.toNat_inj.1 e)
          omega
        refine List.pairwise_cons.2 ⟨fun q hq => ?_, hasc⟩
        rcases List.mem_cons.1 hq with rfl | hq
        · exact hlt
        · exact UInt32.lt_trans hlt (hw q hq)

/-- The variables of a form under construction ascend. -/
def Collected.IsAscending (acc : Collected) : Prop :=
  acc.coeffs.Pairwise fun p q => p.1.id < q.1.id

theorem Collected.IsAscending.addTerm {acc next : Collected} {t : Term} (hacc : acc.IsAscending)
    (h : acc.addTerm t = .ok next) : next.IsAscending := by
  obtain ⟨change, hcoeffs⟩ := Collected.coeffs_addTerm h
  exact ascending_updateCoeff hcoeffs hacc

theorem Collected.IsAscending.foldlM : ∀ {terms : List Term} {acc acc' : Collected},
    acc.IsAscending → terms.foldlM Collected.addTerm acc = .ok acc' → acc'.IsAscending
  | [], acc, acc', hacc, h => by
    obtain rfl : acc = acc' := by simpa using h
    exact hacc
  | t :: terms, acc, acc', hacc, h => by
    rw [List.foldlM_cons, bind_eq_ok] at h
    obtain ⟨next, hnext, h⟩ := h
    exact (hacc.addTerm hnext).foldlM h

theorem Collected.vars_form {acc : Collected} (h : ∀ p ∈ acc.coeffs, p.1.pos.var = p.1) :
    acc.form.vars = (acc.coeffs.filter (·.2 ≠ 0)).map (·.1) := by
  rw [Collected.form, LinearForm.vars, List.map_map]
  exact List.map_congr_left fun p hp => h p (List.mem_of_mem_filter hp)

/-- Every variable of a collected form is named by a term. -/
theorem LinearForm.exists_term_of_collect {terms : List Term} {offset : Int64} {f : LinearForm}
    (h : LinearForm.collect terms offset = .ok f) {x : Var} (hx : x ∈ f.vars) :
    ∃ t ∈ terms, t.lit.var = x := by
  obtain ⟨acc, hacc, h⟩ := bind_eq_ok.1 h
  obtain rfl := pure_eq_ok.1 h
  rw [Collected.vars_form (Collected.var_pos_of_foldlM hacc)] at hx
  obtain ⟨p, hp, rfl⟩ := List.mem_map.1 hx
  exact Collected.exists_term_of_foldlM hacc p (List.mem_of_mem_filter hp)

/-- Every collected form ascends. -/
theorem LinearForm.isAscending_collect {terms : List Term} {offset : Int64} {f : LinearForm}
    (h : LinearForm.collect terms offset = .ok f) : f.IsAscending := by
  obtain ⟨acc, hacc, h⟩ := bind_eq_ok.1 h
  obtain rfl := pure_eq_ok.1 h
  have hempty : Collected.IsAscending ⟨[], offset⟩ := .nil
  rw [LinearForm.IsAscending, Collected.vars_form (Collected.var_pos_of_foldlM hacc),
    List.pairwise_map]
  exact List.Pairwise.filter _ (hempty.foldlM hacc)

/-- A form that was collected from literals in range is normal. -/
theorem LinearForm.isNormal_collect {terms : List Term} {offset : Int64} {f : LinearForm}
    (hr : ∀ t ∈ terms, t.lit.InRange) (h : LinearForm.collect terms offset = .ok f) :
    f.IsNormal := by
  have hasc := LinearForm.isAscending_collect h
  obtain ⟨acc, hacc, h⟩ := bind_eq_ok.1 h
  obtain rfl := pure_eq_ok.1 h
  refine ⟨fun t ht => ?_, fun t ht => ?_, hasc⟩ <;>
    obtain ⟨p, hp, rfl⟩ := List.mem_map.1 ht <;>
    obtain ⟨hp, hne⟩ := List.mem_filter.1 hp
  · obtain ⟨u, hu, e⟩ := Collected.exists_term_of_foldlM hacc p hp
    exact Var.isPositive_pos (e ▸ Lit.inRange_var.2 (hr u hu))
  · simpa using hne

/-- Normalizing an expression in range gives a normal form. -/
theorem Expression.isNormal_normalize {e : Expression} {f : LinearForm} (hr : e.InRange)
    (h : e.normalize = .ok f) : f.IsNormal := by
  cases e with
  | raw terms => exact LinearForm.isNormal_collect hr h
  | normal form =>
    obtain rfl : form = f := by simpa [Expression.normalize] using h
    exact hr

theorem LinearForm.IsNormal.withOffset {f : LinearForm} (h : f.IsNormal) (offset : Int64) :
    LinearForm.IsNormal ⟨f.terms, offset⟩ := ⟨h.positive, h.nonzero, h.ascending⟩

theorem Constraint.isNormal_normalize {c : Constraint} {r : Row} (hr : c.lhs.InRange)
    (h : c.normalize = .ok r) : r.IsNormal := by
  obtain ⟨form, hform, h⟩ := bind_eq_ok.1 h
  obtain ⟨degree, _, h⟩ := bind_eq_ok.1 h
  obtain rfl := pure_eq_ok.1 h
  exact (Expression.isNormal_normalize hr hform).withOffset 0

theorem vars_neg_coeff {terms terms' : List Term}
    (h : List.Forall₂ (fun t t' => t'.lit = t.lit ∧ t'.coeff.toInt = -t.coeff.toInt)
      terms terms') : terms'.map (·.lit.var) = terms.map (·.lit.var) := by
  induction h with
  | nil => rfl
  | cons ht _ ih => rw [List.map_cons, List.map_cons, ht.1, ih]

/-- Negation keeps the literals, and no other word than zero is negated to zero. -/
theorem LinearForm.IsNormal.negate {f g : LinearForm} (h : f.IsNormal) (hg : f.negate = .ok g) :
    g.IsNormal := by
  obtain ⟨terms, hterms, hg⟩ := bind_eq_ok.1 hg
  obtain ⟨offset, _, hg⟩ := bind_eq_ok.1 hg
  obtain rfl := pure_eq_ok.1 hg
  have hasc : LinearForm.IsAscending ⟨terms, offset⟩ := by
    rw [LinearForm.IsAscending, LinearForm.vars, vars_neg_coeff (mapM_neg_coeff hterms)]
    exact h.ascending
  have hneg := exists_mem_of_forall₂ (mapM_neg_coeff hterms)
  refine ⟨fun u hu => ?_, fun u hu hzero => ?_, hasc⟩
  · obtain ⟨t, ht, hlit, _⟩ := hneg u hu
    rw [hlit]
    exact h.positive t ht
  · obtain ⟨t, ht, _, hcoeff⟩ := hneg u hu
    refine h.nonzero t ht (Int64.toInt_inj.1 ?_)
    have hword : (0 : Int64).toInt = 0 := rfl
    rw [hzero] at hcoeff
    omega

/-! ### Operations -/

theorem LinearForm.IsNormal.inRange {f : LinearForm} (h : f.IsNormal) :
    ∀ t ∈ f.terms, t.lit.InRange :=
  fun t ht => Lit.inRange_of_isPositive (h.positive t ht)

theorem LinearForm.IsNormal.plus {f g s : LinearForm} (hf : f.IsNormal) (hg : g.IsNormal)
    (h : f.plus g = .ok s) : s.IsNormal := by
  obtain ⟨offset, _, hs⟩ := bind_eq_ok.1 h
  refine LinearForm.isNormal_collect (fun t ht => ?_) hs
  exact (List.mem_append.1 ht).elim (hf.inRange t) (hg.inRange t)

/-- Coefficients on variables are terms on positive literals. -/
theorem Term.exists_var_of_mem_zipWith {t : Term} {coeffs : List Int64} {vars : List Var}
    (h : t ∈ coeffs.zipWith (fun c x => ⟨c, x.pos⟩) vars) : ∃ x ∈ vars, t.lit = x.pos := by
  rw [← List.map_uncurry_zip_eq_zipWith] at h
  obtain ⟨⟨c, x⟩, hcx, rfl⟩ := List.mem_map.1 h
  exact ⟨x, (List.of_mem_zip hcx).2, rfl⟩

namespace Expression
variable {e e' s : Expression}

theorem inRange_ofVar {x : Var} (hx : x.InRange) (coeff : Int64) : (ofTerm coeff x.pos).InRange :=
  fun t ht => by
    obtain rfl := List.mem_singleton.1 ht
    exact Lit.inRange_of_isPositive (Var.isPositive_pos hx)

theorem inRange_weightedSum {coeffs : List Int64} {vars : List Var} (hr : ∀ x ∈ vars, x.InRange)
    (h : weightedSum coeffs vars = .ok s) : s.InRange := by
  rw [weightedSum] at h
  split at h
  · obtain rfl := Except.ok.inj h
    intro t ht
    obtain ⟨x, hx, hlit⟩ := Term.exists_var_of_mem_zipWith ht
    exact hlit ▸ Lit.inRange_of_isPositive (Var.isPositive_pos (hr x hx))
  · exact absurd h nofun

/-- The sum of two lists is a list, and any other sum is collected. -/
theorem inRange_add (he : e.InRange) (he' : e'.InRange) (h : e.add e' = .ok s) : s.InRange := by
  have hforms : (do
      let left ← e.normalize
      let right ← e'.normalize
      return .normal (← left.plus right) : Checked Expression) = .ok s → s.InRange := by
    intro h
    obtain ⟨left, hleft, h⟩ := bind_eq_ok.1 h
    obtain ⟨right, hright, h⟩ := bind_eq_ok.1 h
    obtain ⟨form, hform, h⟩ := bind_eq_ok.1 h
    obtain rfl := pure_eq_ok.1 h
    exact (isNormal_normalize he hleft).plus (isNormal_normalize he' hright) hform
  cases e with
  | normal form => exact hforms h
  | raw terms =>
    cases e' with
    | normal form => exact hforms h
    | raw terms' =>
      obtain rfl := Except.ok.inj h
      intro t ht
      exact (List.mem_append.1 ht).elim (he t) (he' t)

theorem inRange_neg (he : e.InRange) (h : e.neg = .ok s) : s.InRange := by
  cases e with
  | raw terms =>
    obtain ⟨terms', hterms, h⟩ := bind_eq_ok.1 h
    obtain rfl := pure_eq_ok.1 h
    intro u hu
    obtain ⟨t, ht, hlit, _⟩ := exists_mem_of_forall₂ (mapM_neg_coeff hterms) u hu
    exact hlit ▸ he t ht
  | normal form =>
    obtain ⟨negated, hnegated, h⟩ := bind_eq_ok.1 h
    obtain rfl := pure_eq_ok.1 h
    exact LinearForm.IsNormal.negate he hnegated

theorem inRange_sub (he : e.InRange) (he' : e'.InRange) (h : e.sub e' = .ok s) : s.InRange := by
  obtain ⟨n, hn, h⟩ := bind_eq_ok.1 h
  exact inRange_add he (inRange_neg he' hn) h

/-- Every partial sum is in range. -/
theorem inRange_foldlM_add : ∀ {es : List Expression} {acc s : Expression}, acc.InRange →
    (∀ e ∈ es, e.InRange) → es.foldlM add acc = .ok s → s.InRange
  | [], acc, s, hacc, _, h => by
    obtain rfl := pure_eq_ok.1 h
    exact hacc
  | e :: es, acc, s, hacc, hes, h => by
    obtain ⟨next, hnext, h⟩ := bind_eq_ok.1 h
    have hsum : next.InRange := inRange_add hacc (hes e (List.mem_cons_self ..)) hnext
    exact inRange_foldlM_add hsum (fun f hf => hes f (List.mem_cons_of_mem _ hf)) h

theorem inRange_sum {es : List Expression} (hes : ∀ e ∈ es, e.InRange) (h : sum es = .ok s) :
    s.InRange :=
  inRange_foldlM_add (fun _ ht => absurd ht List.not_mem_nil) hes h

theorem inRange_leq {c : Constraint} {degree : Int64} (he : e.InRange)
    (h : e.leq degree = .ok c) : c.lhs.InRange := by
  obtain ⟨lhs, hlhs, h⟩ := bind_eq_ok.1 h
  obtain ⟨negated, _, h⟩ := bind_eq_ok.1 h
  obtain rfl := pure_eq_ok.1 h
  exact inRange_neg he hlhs

end Expression

/-! ### Collecting a normal form -/

/-- A term on a larger variable goes to the end. -/
theorem updateCoeff_append {v : Var} {change : Int64 → Checked Int64} {c : Int64}
    (hc : change 0 = .ok c) : ∀ {coeffs : List (Var × Int64)}, (∀ p ∈ coeffs, p.1.id < v.id) →
    updateCoeff v change coeffs = .ok (coeffs ++ [(v, c)])
  | [], _ => by
    simp only [updateCoeff]
    rw [hc]
    rfl
  | (w, d) :: rest, h => by
    have hw : w.id < v.id := h (w, d) (List.mem_cons_self ..)
    simp only [updateCoeff]
    rw [if_pos hw, updateCoeff_append hc fun p hp => h p (List.mem_cons_of_mem _ hp)]
    rfl

theorem Word.zero_add (c : Int64) : Word.add 0 c = .ok c :=
  Word.add_eq_ok_iff.2 (by simp)

theorem Word.add_zero (c : Int64) : Word.add c 0 = .ok c :=
  Word.add_eq_ok_iff.2 (by simp)

theorem Word.sub_zero (c : Int64) : Word.sub c 0 = .ok c :=
  Word.sub_eq_ok_iff.2 (by simp)

/-- Positive terms on ascending variables are collected as they stand. -/
theorem Collected.foldlM_normal (offset : Int64) : ∀ {terms : List Term} {coeffs},
    (∀ t ∈ terms, t.lit.isPositive = true) →
    (coeffs.map (·.1) ++ terms.map (·.lit.var)).Pairwise (fun v w => v.id < w.id) →
    terms.foldlM Collected.addTerm ⟨coeffs, offset⟩ =
      .ok ⟨coeffs ++ terms.map fun t => (t.lit.var, t.coeff), offset⟩
  | [], coeffs, _, _ => by simp
  | t :: terms, coeffs, hpos, hasc => by
    have hlt : ∀ p ∈ coeffs, p.1.id < t.lit.var.id := fun p hp =>
      (List.pairwise_append.1 hasc).2.2 p.1 (List.mem_map_of_mem hp) _ (by simp)
    have hstep : Collected.addTerm ⟨coeffs, offset⟩ t =
        .ok ⟨coeffs ++ [(t.lit.var, t.coeff)], offset⟩ := by
      simp only [Collected.addTerm]
      rw [if_pos (hpos t (List.mem_cons_self ..)),
        updateCoeff_append (Word.zero_add t.coeff) hlt]
      rfl
    rw [List.foldlM_cons, hstep]
    show terms.foldlM Collected.addTerm _ = _
    rw [Collected.foldlM_normal offset (fun u hu => hpos u (List.mem_cons_of_mem _ hu))]
    · simp
    · simpa using hasc

/-- Collecting the terms of a normal form gives them back. -/
theorem LinearForm.IsNormal.collect {f : LinearForm} (h : f.IsNormal) (offset : Int64) :
    LinearForm.collect f.terms offset = .ok ⟨f.terms, offset⟩ := by
  have hfold : f.terms.foldlM Collected.addTerm ⟨[], offset⟩ =
      .ok ⟨[] ++ f.terms.map fun t => (t.lit.var, t.coeff), offset⟩ :=
    Collected.foldlM_normal offset h.positive h.ascending
  simp only [LinearForm.collect]
  rw [hfold]
  show Except.ok (Collected.form _) = _
  have hfilter : (f.terms.map fun t => (t.lit.var, t.coeff)).filter (·.2 ≠ 0) =
      f.terms.map fun t => (t.lit.var, t.coeff) := by
    rw [List.filter_eq_self]
    rintro p hp
    obtain ⟨t, ht, rfl⟩ := List.mem_map.1 hp
    simpa using h.nonzero t ht
  have hterms : (f.terms.map fun t => (t.lit.var, t.coeff)).map (fun p => Term.mk p.2 p.1.pos) =
      f.terms := by
    rw [List.map_map]
    refine (List.map_congr_left fun t ht => ?_).trans (List.map_id _)
    simp [Lit.pos_var (h.positive t ht)]
  rw [Collected.form, List.nil_append, hfilter]
  exact congrArg (fun terms => Except.ok (LinearForm.mk terms offset)) hterms

/-- Whether some term list is collected to a form. -/
def LinearForm.IsCollected (f : LinearForm) : Prop :=
  ∃ terms offset, LinearForm.collect terms offset = .ok f

/-- The normal forms are the collected forms over variables in range. -/
theorem LinearForm.isNormal_iff {f : LinearForm} :
    f.IsNormal ↔ f.IsCollected ∧ ∀ x ∈ f.vars, x.InRange := by
  constructor
  · intro h
    refine ⟨⟨f.terms, f.offset, h.collect f.offset⟩, fun x hx => ?_⟩
    obtain ⟨t, ht, rfl⟩ := List.mem_map.1 hx
    exact Lit.inRange_var.2 (Lit.inRange_of_isPositive (h.positive t ht))
  · rintro ⟨⟨terms, offset, h⟩, hr⟩
    have hasc := LinearForm.isAscending_collect h
    obtain ⟨acc, hacc, h⟩ := bind_eq_ok.1 h
    obtain rfl := pure_eq_ok.1 h
    refine ⟨fun t ht => ?_, fun t ht => ?_, hasc⟩
    · have hvar : t.lit.var.InRange := hr t.lit.var (List.mem_map_of_mem ht)
      obtain ⟨p, hp, rfl⟩ := List.mem_map.1 ht
      rw [Collected.var_pos_of_foldlM hacc p (List.mem_of_mem_filter hp)] at hvar
      exact Var.isPositive_pos hvar
    · obtain ⟨p, hp, rfl⟩ := List.mem_map.1 ht
      simpa using (List.mem_filter.1 hp).2

/-- A left-hand side without a constant is kept, and so is the degree. -/
theorem Constraint.normalize_of_offset {c : Constraint} {form : LinearForm}
    (hform : c.lhs.normalize = .ok form) (hoffset : form.offset = 0) :
    c.normalize = .ok ⟨form, c.relation, c.degree, hoffset⟩ := by
  obtain ⟨terms, offset⟩ := form
  obtain rfl : offset = 0 := hoffset
  exact bind_eq_ok.2 ⟨_, hform, bind_eq_ok.2 ⟨_, Word.sub_zero c.degree, rfl⟩⟩

/-- Normalizing the terms of a normal row gives it back. -/
theorem Row.IsNormal.normalize {r : Row} (h : r.IsNormal) :
    Constraint.normalize ⟨.raw r.terms, r.relation, r.degree⟩ = .ok r := by
  have hcollect : LinearForm.collect r.terms 0 = .ok r.lhs :=
    r.lhs_eq ▸ LinearForm.IsNormal.collect h 0
  exact Constraint.normalize_of_offset (c := ⟨.raw r.terms, r.relation, r.degree⟩) hcollect r.offset_eq

/-! ### The largest variable -/

theorem le_foldl_max (l : List UInt32) (m : UInt32) :
    m ≤ l.foldl max m ∧ ∀ a ∈ l, a ≤ l.foldl max m := by
  induction l generalizing m with
  | nil => exact ⟨UInt32.le_refl m, nofun⟩
  | cons b l ih =>
    obtain ⟨hm, hl⟩ := ih (max m b)
    have hmax : m ≤ max m b ∧ b ≤ max m b := by
      simp only [UInt32.max_def]
      split <;> simp_all [UInt32.le_iff_toNat_le]
      omega
    refine ⟨UInt32.le_trans hmax.1 hm, fun a ha => ?_⟩
    rcases List.mem_cons.1 ha with rfl | ha
    · exact UInt32.le_trans hmax.2 hm
    · exact hl a ha

theorem foldl_max_le {l : List UInt32} {m b : UInt32} (hm : m ≤ b) (hl : ∀ a ∈ l, a ≤ b) :
    l.foldl max m ≤ b := by
  induction l generalizing m with
  | nil => exact hm
  | cons a l ih =>
    have hmax : max m a ≤ b := by
      have ha : a ≤ b := hl a (List.mem_cons_self ..)
      simp only [UInt32.max_def]
      split <;> assumption
    exact ih hmax fun c hc => hl c (List.mem_cons_of_mem _ hc)

/-- A number is the largest of a list and itself if no member is larger. -/
theorem foldl_max_eq_iff {l : List UInt32} {m : UInt32} : l.foldl max m = m ↔ ∀ a ∈ l, a ≤ m := by
  constructor
  · intro h a ha
    have hle := (le_foldl_max l m).2 a ha
    rwa [h] at hle
  · intro h
    exact UInt32.le_antisymm (foldl_max_le (UInt32.le_refl m) h) (le_foldl_max l m).1

/-- The largest of a list and a number is the largest of the list and itself. -/
theorem foldl_max_self (l : List UInt32) (m : UInt32) :
    l.foldl max (l.foldl max m) = l.foldl max m :=
  foldl_max_eq_iff.2 (le_foldl_max l m).2

/-- The last variable of an ascending form is its largest. -/
theorem LinearForm.IsAscending.le_maxVar {f : LinearForm} (h : f.IsAscending) {v w : Var}
    (hw : f.maxVar? = some w) (hv : v ∈ f.vars) : v.id ≤ w.id := by
  obtain ⟨before, hvars⟩ := List.getLast?_eq_some_iff.1 hw
  rw [LinearForm.IsAscending, hvars] at h
  rw [hvars] at hv
  rcases List.mem_append.1 hv with hv | hv
  · have hlt := (List.pairwise_append.1 h).2.2 v hv w (List.mem_singleton_self w)
    exact UInt32.le_of_lt hlt
  · rw [List.mem_singleton.1 hv]
    exact UInt32.le_refl _

theorem LinearForm.IsAscending.maxVar?_eq_some {f : LinearForm} (h : f.IsAscending) {w : Var} :
    f.maxVar? = some w ↔ w ∈ f.vars ∧ ∀ v ∈ f.vars, v.id ≤ w.id := by
  constructor
  · intro hw
    exact ⟨List.mem_of_getLast? hw, fun v hv => h.le_maxVar hw hv⟩
  · rintro ⟨hmem, hle⟩
    obtain ⟨u, hu⟩ : ∃ u, f.maxVar? = some u :=
      Option.isSome_iff_exists.1 (List.getLast?_isSome.2 (List.ne_nil_of_mem hmem))
    have hid : u.id = w.id :=
      UInt32.le_antisymm (hle u (List.mem_of_getLast? hu)) (h.le_maxVar hu hmem)
    rw [hu, Var.ext_id hid]

end PseudoBoolean
