import PseudoBoolean.Proofs.Enumeration
import PseudoBoolean.Proofs.Linear.Normal

/-!
The smallest and the largest value of a form.

No two terms are on one variable, so the signs of the coefficients can be followed one by one:

    3 x1 - 2 x2 - 4 x3 + 5      smallest, where x2 and x3 are true:   -2 - 4 + 5 = -1
                                largest, where x1 is true:                 3 + 5 =  8

Each extreme is computed by the very additions of an evaluation at such a valuation
(`LinearForm.evaluate_picking`), so it is attained whenever it can be computed at all, and no
valuation leads beyond it. Every other evaluation stays between the two at each step, and overflows
only if one of them does. So a row that asks for more than the largest value has no model, and any
other one with `>=` has.
-/

namespace PseudoBoolean

theorem Word.min_zero (c : Int64) : min c 0 = if c < 0 then c else 0 := by
  show (if c ≤ 0 then c else 0) = _
  by_cases h : c < 0
  · rw [if_pos h, if_pos (Int64.le_of_lt h)]
  · rw [if_neg h]
    split
    · next hle => exact Int64.le_antisymm hle (Int64.not_lt.1 h)
    · rfl

theorem Word.max_zero (c : Int64) : max c 0 = if 0 < c then c else 0 := by
  show (if c ≤ 0 then 0 else c) = _
  simp only [← Int64.not_le, ite_not]

/-- An integer between two that fit fits. -/
theorem Word.exists_checked_between (op : Arithmetic) {lo value hi : Int} (hlo : Fits lo)
    (hhi : Fits hi) (h : lo ≤ value) (h' : value ≤ hi) :
    ∃ a, checked op value = .ok a ∧ a.toInt = value :=
  exists_checked_of_fits op ⟨Int.le_trans hlo.1 h, Int.lt_of_le_of_lt h' hhi.2⟩

/-! ### Attained -/

/-- The valuation that makes a variable true where its coefficient is picked. -/
def LinearForm.picking (f : LinearForm) (pick : Int64 → Bool) : Valuation :=
  fun x => f.terms.any fun t => t.lit.var = x && pick t.coeff

namespace LinearForm
variable {f : LinearForm} {pick : Int64 → Bool} {bound : Int64 → Int64}

/-- With one term to a variable, a variable is true exactly if the coefficient of its term is
picked. -/
theorem picking_var (h : f.vars.Nodup) {t : Term} (ht : t ∈ f.terms) :
    f.picking pick t.lit.var = pick t.coeff := by
  rw [Bool.eq_iff_iff]
  simp only [picking, List.any_eq_true, Bool.and_eq_true, decide_eq_true_eq]
  constructor
  · rintro ⟨u, hu, hvar, hpick⟩
    rwa [List.inj_on_of_nodup_map h hu ht hvar] at hpick
  · intro hpick
    exact ⟨t, ht, rfl, hpick⟩

/-- Adding the true terms is adding all terms, each with a coefficient that is zero where the term
is false. -/
theorem foldlM_addTrue {v : Valuation} : ∀ {terms : List Term} {a : Int64},
    (∀ t ∈ terms, bound t.coeff = if v t.lit.var then t.coeff else 0) →
    terms.foldlM (addTrue v) a = ((terms.map (·.coeff)).map bound).foldlM Word.add a
  | [], _, _ => rfl
  | t :: terms, a, h => by
    obtain ⟨ht, hterms⟩ := List.forall_mem_cons.1 h
    have hstep : addTrue v a t = Word.add a (bound t.coeff) := by
      rw [addTrue, ht]
      split
      · rfl
      · exact (Word.add_zero a).symm
    rw [List.foldlM_cons, hstep, List.map_cons, List.map_cons, List.foldlM_cons]
    exact bind_congr fun next => foldlM_addTrue hterms

/-- Evaluating where the picked coefficients count is adding up what is picked, step by step: either
answers if the other does. -/
theorem evaluate_picking (h : f.vars.Nodup) (hbound : ∀ c, bound c = if pick c then c else 0) :
    f.evaluate (f.picking pick) =
      (do Word.add (← Word.sum (f.coefficients.map bound)) f.offset) := by
  have hterms : ∀ t ∈ f.terms,
      bound t.coeff = if f.picking pick t.lit.var then t.coeff else 0 := by
    intro t ht
    rw [picking_var h ht, hbound]
  exact congrArg (· >>= fun total => Word.add total f.offset) (foldlM_addTrue hterms)

theorem evaluate_picking_neg (h : f.vars.Nodup) : f.evaluate (f.picking (· < 0)) = f.minValue :=
  evaluate_picking h fun c => by simp [Word.min_zero]

theorem evaluate_picking_pos (h : f.vars.Nodup) : f.evaluate (f.picking (0 < ·)) = f.maxValue :=
  evaluate_picking h fun c => by simp [Word.max_zero]

/-! ### Bounds -/

/-- What a term adds where the negative coefficients count, under any valuation, and where the
positive ones count. -/
theorem counted_between (h : f.vars.Nodup) (v : Valuation) {t : Term} (ht : t ∈ f.terms) :
    t.counted (f.picking (· < 0)) ≤ t.counted v ∧ t.counted v ≤ t.counted (f.picking (0 < ·)) := by
  have hzero : (0 : Int64).toInt = 0 := rfl
  simp only [Term.counted, picking_var h ht, decide_eq_true_eq, Int64.lt_iff_toInt_lt, hzero]
  constructor <;> split <;> split <;> omega

theorem value_between (h : f.vars.Nodup) (v : Valuation) :
    f.value (f.picking (· < 0)) ≤ f.value v ∧ f.value v ≤ f.value (f.picking (0 < ·)) :=
  ⟨Int.add_le_add_right (List.sum_le_sum fun _ ht => (counted_between h v ht).1) _,
    Int.add_le_add_right (List.sum_le_sum fun _ ht => (counted_between h v ht).2) _⟩

/-- Terms that can be added up where each adds the least, and where each adds the most, can be added
up anywhere between. -/
theorem exists_foldlM_between {v₁ v v₂ : Valuation} :
    ∀ {terms : List Term} {lo a hi lo' hi' : Int64},
      (∀ t ∈ terms, t.counted v₁ ≤ t.counted v ∧ t.counted v ≤ t.counted v₂) →
      lo.toInt ≤ a.toInt → a.toInt ≤ hi.toInt →
      terms.foldlM (addTrue v₁) lo = .ok lo' → terms.foldlM (addTrue v₂) hi = .ok hi' →
      ∃ b, terms.foldlM (addTrue v) a = .ok b ∧ lo'.toInt ≤ b.toInt ∧ b.toInt ≤ hi'.toInt
  | [], lo, a, hi, lo', hi', _, hlo, hhi, hmin, hmax => by
    obtain rfl := pure_eq_ok.1 hmin
    obtain rfl := pure_eq_ok.1 hmax
    exact ⟨a, rfl, hlo, hhi⟩
  | t :: terms, lo, a, hi, lo', hi', h, hlo, hhi, hmin, hmax => by
    obtain ⟨⟨hle, hge⟩, hterms⟩ := List.forall_mem_cons.1 h
    rw [List.foldlM_cons] at hmin hmax ⊢
    obtain ⟨lo₁, hlo₁, hmin⟩ := bind_eq_ok.1 hmin
    obtain ⟨hi₁, hhi₁, hmax⟩ := bind_eq_ok.1 hmax
    rw [addTrue_eq_ok] at hlo₁ hhi₁
    -- the partial sum lies between two that are words
    obtain ⟨a₁, _, ha₁⟩ := Word.exists_checked_between .add (Word.fits_toInt lo₁)
      (Word.fits_toInt hi₁) (hlo₁ ▸ Int.add_le_add hlo hle) (hhi₁ ▸ Int.add_le_add hhi hge)
    have hlo : lo₁.toInt ≤ a₁.toInt := by omega
    have hhi : a₁.toInt ≤ hi₁.toInt := by omega
    obtain ⟨b, hb, hbounds⟩ := exists_foldlM_between hterms hlo hhi hmin hmax
    exact ⟨b, bind_eq_ok.2 ⟨a₁, addTrue_eq_ok.2 ha₁, hb⟩, hbounds⟩

/-- A form whose extremes can be computed can be evaluated everywhere. -/
theorem exists_evaluate_between (h : f.vars.Nodup) {lo hi : Int64} (hmin : f.minValue = .ok lo)
    (hmax : f.maxValue = .ok hi) (v : Valuation) : ∃ a, f.evaluate v = .ok a := by
  rw [← evaluate_picking_neg h] at hmin
  rw [← evaluate_picking_pos h] at hmax
  obtain ⟨least, hleast, hlo⟩ := bind_eq_ok.1 hmin
  obtain ⟨most, hmost, hhi⟩ := bind_eq_ok.1 hmax
  obtain ⟨total, htotal, hle, hge⟩ := exists_foldlM_between (fun t ht => counted_between h v ht)
    (Int.le_refl _) (Int.le_refl _) hleast hmost
  rw [Word.add_eq_ok_iff] at hlo hhi
  obtain ⟨a, ha, _⟩ := Word.exists_checked_between .add (Word.fits_toInt lo) (Word.fits_toInt hi)
    (hlo ▸ Int.add_le_add_right hle _) (hhi ▸ Int.add_le_add_right hge _)
  exact ⟨a, bind_eq_ok.2 ⟨total, htotal, ha⟩⟩

/-! ### Exact -/

/-- The values that a form is evaluated to. -/
def reached (f : LinearForm) : Set Int64 := {a | ∃ v, f.evaluate v = .ok a}

theorem toInt_mem_range {a : Int64} (h : a ∈ f.reached) : a.toInt ∈ Set.range f.value := by
  obtain ⟨v, hv⟩ := h
  exact ⟨v, (evaluate_eq_ok hv).symm⟩

theorem isLeast_minValue (h : f.vars.Nodup) {m : Int64} (hm : f.minValue = .ok m) :
    IsLeast f.reached m ∧ IsLeast (Set.range f.value) m.toInt := by
  have hat : f.evaluate (f.picking (· < 0)) = .ok m := (evaluate_picking_neg h).trans hm
  have hmem : m ∈ f.reached := ⟨_, hat⟩
  have hle : ∀ x ∈ Set.range f.value, m.toInt ≤ x := by
    rintro _ ⟨v, rfl⟩
    rw [evaluate_eq_ok hat]
    exact (value_between h v).1
  refine ⟨⟨hmem, fun a ha => ?_⟩, toInt_mem_range hmem, hle⟩
  exact Int64.le_iff_toInt_le.2 (hle _ (toInt_mem_range ha))

theorem isGreatest_maxValue (h : f.vars.Nodup) {m : Int64} (hm : f.maxValue = .ok m) :
    IsGreatest f.reached m ∧ IsGreatest (Set.range f.value) m.toInt := by
  have hat : f.evaluate (f.picking (0 < ·)) = .ok m := (evaluate_picking_pos h).trans hm
  have hmem : m ∈ f.reached := ⟨_, hat⟩
  have hge : ∀ x ∈ Set.range f.value, x ≤ m.toInt := by
    rintro _ ⟨v, rfl⟩
    rw [evaluate_eq_ok hat]
    exact (value_between h v).2
  refine ⟨⟨hmem, fun a ha => ?_⟩, toInt_mem_range hmem, hge⟩
  exact Int64.le_iff_toInt_le.2 (hge _ (toInt_mem_range ha))

end LinearForm

/-! ### Rows -/

namespace Row
variable {r : Row} {b : Bool} {lo hi : Int64}

theorem isSatisfied_ne_ok {v : Valuation} (h : ¬ r.Holds v) : r.isSatisfied v ≠ .ok true :=
  fun hsat => h ((isSatisfied_eq_ok hsat).1 rfl)

/-- A row cannot hold if its degree lies below every value, nor if it lies above. -/
theorem not_holds_of_lt_minValue (h : r.vars.Nodup) (hrel : r.relation = .eq)
    (hmin : r.lhs.minValue = .ok lo) (hlt : r.degree < lo) (v : Valuation) : ¬ r.Holds v := by
  have hle : lo.toInt ≤ r.lhs.value v := (LinearForm.isLeast_minValue h hmin).2.2 ⟨v, rfl⟩
  rw [Int64.lt_iff_toInt_lt] at hlt
  rw [Holds, hrel]
  intro heq
  simp only [Relation.Holds] at heq
  omega

theorem not_holds_of_maxValue_lt (h : r.vars.Nodup) (hmax : r.lhs.maxValue = .ok hi)
    (hlt : hi < r.degree) (v : Valuation) : ¬ r.Holds v := by
  have hge : r.lhs.value v ≤ hi.toInt := (LinearForm.isGreatest_maxValue h hmax).2.2 ⟨v, rfl⟩
  rw [Int64.lt_iff_toInt_lt] at hlt
  rw [Holds]
  intro hholds
  cases hrel : r.relation <;> simp only [hrel, Relation.Holds] at hholds <;> omega

theorem isTriviallyUnsat_geq (hrel : r.relation = .geq) (hb : r.isTriviallyUnsat = .ok b) :
    ∃ hi, r.lhs.maxValue = .ok hi ∧ (b = true ↔ hi < r.degree) := by
  simp only [isTriviallyUnsat, hrel] at hb
  obtain ⟨hi, hmax, hb⟩ := bind_eq_ok.1 hb
  obtain rfl := pure_eq_ok.1 hb
  exact ⟨hi, hmax, decide_eq_true_iff⟩

/-- The largest value is not computed where the degree lies below the smallest. -/
theorem isTriviallyUnsat_eq (hrel : r.relation = .eq) (hb : r.isTriviallyUnsat = .ok b) :
    b = true ↔ (∃ lo, r.lhs.minValue = .ok lo ∧ r.degree < lo) ∨
      ∃ hi, r.lhs.maxValue = .ok hi ∧ hi < r.degree := by
  simp only [isTriviallyUnsat, hrel] at hb
  obtain ⟨lo, hmin, hb⟩ := bind_eq_ok.1 hb
  split at hb
  · next hlt =>
    obtain rfl := pure_eq_ok.1 hb
    exact iff_of_true rfl (.inl ⟨lo, hmin, hlt⟩)
  · next hge =>
    obtain ⟨hi, hmax, hb⟩ := bind_eq_ok.1 hb
    obtain rfl := pure_eq_ok.1 hb
    simp [hmin, hmax, hge]

/-- A row with `>=` that does not ask for more than the largest value is satisfied where the
positive coefficients count. -/
theorem exists_isSatisfied_of_le_maxValue (h : r.vars.Nodup) (hrel : r.relation = .geq)
    (hmax : r.lhs.maxValue = .ok hi) (hle : r.degree ≤ hi) : ∃ v, r.isSatisfied v = .ok true := by
  obtain ⟨v, hv⟩ := (LinearForm.isGreatest_maxValue h hmax).1.1
  refine ⟨v, bind_eq_ok.2 ⟨hi, hv, ?_⟩⟩
  simp [hrel, Relation.holds, hle]

end Row

/-- Where no two terms are on one variable, the smallest and the largest value are exact whenever
they can be computed: each is attained, and each bounds every evaluation and every integer value. If
both can be computed, so can every evaluation.

The test of a row is then exact for `>=`. For `=` it says that the degree lies outside of the
bounds, and such a row has no model. -/
theorem extremes_exact :
    (∀ f : LinearForm, f.vars.Nodup →
      (∀ m, f.minValue = .ok m → IsLeast f.reached m ∧ IsLeast (Set.range f.value) m.toInt) ∧
      (∀ m, f.maxValue = .ok m → IsGreatest f.reached m ∧ IsGreatest (Set.range f.value) m.toInt) ∧
      ∀ lo hi, f.minValue = .ok lo → f.maxValue = .ok hi → ∀ v, ∃ a, f.evaluate v = .ok a) ∧
    ∀ r : Row, r.vars.Nodup → ∀ b, r.isTriviallyUnsat = .ok b →
      (r.relation = .geq → (b = true ↔ ∀ v, r.isSatisfied v ≠ .ok true) ∧
        (b = true ↔ ∀ v, ¬ r.Holds v)) ∧
      (r.relation = .eq →
        (b = true ↔ (∃ lo, r.lhs.minValue = .ok lo ∧ r.degree < lo) ∨
          ∃ hi, r.lhs.maxValue = .ok hi ∧ hi < r.degree) ∧
        (b = true → ∀ v, r.isSatisfied v ≠ .ok true ∧ ¬ r.Holds v)) := by
  constructor
  · intro f h
    exact ⟨fun _ => LinearForm.isLeast_minValue h, fun _ => LinearForm.isGreatest_maxValue h,
      fun _ _ => LinearForm.exists_evaluate_between h⟩
  · intro r h b hb
    constructor
    · intro hrel
      obtain ⟨hi, hmax, hiff⟩ := Row.isTriviallyUnsat_geq hrel hb
      have hsound : b = true → ∀ v, ¬ r.Holds v := fun htrue =>
        Row.not_holds_of_maxValue_lt h hmax (hiff.1 htrue)
      have hexact : (∀ v, r.isSatisfied v ≠ .ok true) → b = true := by
        intro hnone
        rw [hiff, ← Int64.not_le]
        intro hle
        obtain ⟨v, hv⟩ := Row.exists_isSatisfied_of_le_maxValue h hrel hmax hle
        exact hnone v hv
      exact ⟨⟨fun htrue v => Row.isSatisfied_ne_ok (hsound htrue v), hexact⟩,
        ⟨hsound, fun hnone => hexact fun v => Row.isSatisfied_ne_ok (hnone v)⟩⟩
    · intro hrel
      have hiff := Row.isTriviallyUnsat_eq hrel hb
      refine ⟨hiff, fun htrue v => ?_⟩
      have hnot : ¬ r.Holds v := by
        rcases hiff.1 htrue with ⟨lo, hmin, hlt⟩ | ⟨hi, hmax, hlt⟩
        · exact Row.not_holds_of_lt_minValue h hrel hmin hlt v
        · exact Row.not_holds_of_maxValue_lt h hmax hlt v
      exact ⟨Row.isSatisfied_ne_ok hnot, hnot⟩

/-- `3 x1 - 2 x2 - 4 x3 + 5`. -/
def LinearForm.sampleMixed : LinearForm := ⟨[⟨3, x₁.pos⟩, ⟨-2, x₂.pos⟩, ⟨-4, x₃.pos⟩], 5⟩

/-- `3 x1 - 2 x2 >= 4`, which asks for too much. -/
def Row.sampleUnsat : Row := .ofTerms [⟨3, x₁.pos⟩, ⟨-2, x₂.pos⟩] .geq 4

theorem extremes_exact_sample :
    IsLeast LinearForm.sampleMixed.reached (-1) ∧ IsGreatest LinearForm.sampleMixed.reached 8 ∧
      (∀ v, ∃ a, LinearForm.sampleMixed.evaluate v = .ok a) ∧
      ∀ v, ¬ Row.sampleUnsat.Holds v := by
  obtain ⟨hleast, hgreatest, htotal⟩ := extremes_exact.1 LinearForm.sampleMixed (by decide)
  obtain ⟨hgeq, _⟩ := extremes_exact.2 Row.sampleUnsat (by decide) true (by decide)
  exact ⟨(hleast (-1) (by decide)).1, (hgreatest 8 (by decide)).1,
    htotal (-1) 8 (by decide) (by decide), (hgeq rfl).2.1 rfl⟩

end PseudoBoolean
