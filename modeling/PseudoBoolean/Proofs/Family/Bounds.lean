import PseudoBoolean.Proofs.Family.Lots

/-!
Suites of a bounded size.

With at most 24 variables to an instance and coefficients of at most `2^57`, the absolute
coefficients of an instance sum to a word, one more included. So every instance of such a suite is
small (`Recipe.Makes.isSmall`), whatever was drawn: its rows and its expected answers exist, and no
answer exceeds the sum of the absolute coefficients. Only the number of random instances is not
bounded, so the suite itself is generated just if a list has room for them.
-/

namespace PseudoBoolean

open Family (IsBinary IsRandom IsScaling)

/-! ### Answers and side constraints -/

namespace Family

theorem mem_pairs {α : Type} : ∀ {l : List α} {p : α × α}, p ∈ pairs l → p.1 ∈ l ∧ p.2 ∈ l
  | [], _, h | [_], _, h => absurd h List.not_mem_nil
  | a :: b :: rest, p, h => by
    rw [pairs] at h
    rcases List.mem_cons.1 h with rfl | h
    · simp
    · obtain ⟨h₁, h₂⟩ := mem_pairs h
      simp [h₁, h₂]

/-- The side constraint of a pair is a small row. -/
theorem isSmall_of_atMostOne {v w : Var} {row : Row} (hv : v.id ≤ 24) (hw : w.id ≤ 24)
    (h : atMostOne v w = .ok row) : row.lhs.IsCollected ∧ row.lhs.IsSmall := by
  have hr : v.InRange ∧ w.InRange :=
    ⟨Var.inRange_of_le hv (by decide), Var.inRange_of_le hw (by decide)⟩
  have hpos : ∀ t ∈ [Term.mk (-1) v.pos, Term.mk (-1) w.pos], t.lit.isPositive = true := by
    simp [Var.isPositive_pos, hr]
  have hvars : ∀ t ∈ [Term.mk (-1) v.pos, Term.mk (-1) w.pos], t.lit.var.id ≤ 24 := by
    simp [Var.var_pos, hr, hv, hw]
  have hweight : Term.weight [Term.mk (-1) v.pos, Term.mk (-1) w.pos] ≤ Word.largest := by
    show 2 ≤ Word.largest
    decide
  obtain ⟨form, hform, hsmall⟩ := LinearForm.exists_collect_isSmall hpos hvars hweight
  have hrow := Constraint.normalize_of_offset
    (c := (Expression.raw [⟨-1, v.pos⟩, ⟨-1, w.pos⟩]).geq (-1)) hform hsmall.offset
  obtain rfl := Except.ok.inj (hrow.symm.trans h)
  exact ⟨⟨_, _, hform⟩, hsmall⟩

end Family

/-! ### Bounded suites -/

namespace Suite

/-- Whether the parameters of a suite are so small that everything about it can be computed. -/
structure Bounded (suite : Suite) (config : FamilyConfig) : Prop where
  maxVars : config.maxVars ≤ 24
  binaryBits : config.binaryBits ≤ 24
  randomMaxVars : config.randomMaxVars ≤ 24
  smallMagnitude : 0 ≤ config.smallMagnitude.toInt ∧ config.smallMagnitude.toInt ≤ 2 ^ 57
  largeMagnitude : 0 ≤ config.largeMagnitude.toInt ∧ config.largeMagnitude.toInt ≤ 2 ^ 57
  factor : suite.factor.toInt.natAbs ≤ 2 ^ 57
  scaling : suite.scaling ≤ 12

variable {suite : Suite} {config : FamilyConfig}

theorem mul_lt_largest {n bound : Nat} (hn : n ≤ 24) (hbound : bound ≤ 2 ^ 57) :
    n * bound + 1 ≤ Word.largest :=
  Nat.le_trans (Nat.succ_le_succ (Nat.mul_le_mul hn hbound)) (by decide)

theorem drawable_of_le (hvars : config.randomMaxVars ≤ 24) {magnitude : Int64}
    (hmagnitude : 0 ≤ magnitude.toInt ∧ magnitude.toInt ≤ 2 ^ 57) :
    Family.Drawable magnitude (Var.range config.randomMaxVars) ∨ config.randomMaxVars = 0 := by
  by_cases hzero : config.randomMaxVars = 0
  · exact Or.inr hzero
  · have hpos : config.randomMaxVars.toNat ≠ 0 := fun h => hzero (UInt32.toNat_inj.1 h)
    refine Or.inl ⟨?_, hmagnitude.1, ?_⟩
    · rw [Var.length_range]
      omega
    · rw [Var.length_range]
      exact mul_lt_largest (UInt32.le_iff_toNat_le.1 hvars) (by omega)

/-- No word, range or table of a bounded suite is too large. -/
theorem Bounded.fits (h : suite.Bounded config) : suite.Fits config where
  uniform := Nat.le_of_succ_le
    (mul_lt_largest (max_le (UInt32.le_iff_toNat_le.1 h.maxVars) (by decide)) h.factor)
  table := Family.two_mul_table_le h.maxVars
  binary := Nat.lt_of_le_of_lt (UInt32.le_iff_toNat_le.1 h.binaryBits) (by decide)
  small := drawable_of_le h.randomMaxVars h.smallMagnitude
  large := drawable_of_le h.randomMaxVars h.largeMagnitude
  scaling := by
    have hle := UInt32.le_iff_toNat_le.1 h.scaling
    exact Nat.lt_of_le_of_lt (Nat.mul_le_mul_left 2 hle) (by decide)

/-- The scaling family ends where the suite says. -/
theorem le_of_scaling_mem {pairs : Nat} (h : .scaling pairs ∈ suite.recipes config) :
    pairs ≤ suite.scaling.toNat := by
  have hpicked : Recipe.scaling pairs ∉ suite.pickedRecipes := by
    rw [pickedRecipes]
    split <;> simp
  have hrange : 1 ≤ pairs ∧ pairs < 1 + suite.scaling.toNat := by
    simpa [recipes, relations, baseRecipes, negatedRecipes, binaryRecipes, hpicked] using h
  omega

end Suite

namespace Recipe
variable {suite : Suite} {config : FamilyConfig} {r : Recipe} {i : Instance}

/-- Few distinct variables with coefficients of at most `2^57` make a small instance. -/
theorem isSmall_of_bounded {n : UInt32} (hn : n ≤ 24) (hvars : ∀ x ∈ i.vars, x.id ≤ n)
    (hnodup : i.vars.Nodup) (hcoeffs : ∀ c ∈ i.coeffs, c.toInt.natAbs ≤ 2 ^ 57)
    (hside : ∀ row ∈ i.sideRows, row.lhs.IsCollected ∧ row.lhs.IsSmall) : i.IsSmall :=
  Instance.isSmall_of_le hn
    (Nat.le_of_succ_le (Suite.mul_lt_largest (UInt32.le_iff_toNat_le.1 hn) (Nat.le_refl _)))
    hvars hnodup hcoeffs hside

theorem isSmall_of_range {n : UInt32} (hn : n ≤ 24) (hvars : i.vars = Var.range n)
    (hcoeffs : ∀ c ∈ i.coeffs, c.toInt.natAbs ≤ 2 ^ 57)
    (hside : ∀ row ∈ i.sideRows, row.lhs.IsCollected ∧ row.lhs.IsSmall) : i.IsSmall :=
  isSmall_of_bounded hn (fun _ hx => Var.mem_range.1 (hvars ▸ hx)) (hvars ▸ Var.nodup_range n)
    hcoeffs hside

theorem isSmall_of_isBinary {label : String} {relation : Relation} {degree : Nat}
    (hbits : config.binaryBits ≤ 24) (h : IsBinary config label relation degree i) :
    i.IsSmall := by
  refine isSmall_of_range hbits h.vars_eq (fun c hc => ?_) (by simp [h.sideRows_eq])
  rw [h.coeffs_eq] at hc
  obtain ⟨bit, hbit, rfl⟩ := List.mem_map.1 hc
  have hle := UInt32.le_iff_toNat_le.1 hbits
  have hpow : Nat.pow 2 bit ≤ 2 ^ 24 :=
    Nat.pow_le_pow_right (by decide) (Nat.le_trans (List.mem_range.1 hbit).le hle)
  rw [Int64.toInt_ofNat_of_lt (Nat.lt_of_le_of_lt hpow (by decide)), Int.natAbs_natCast]
  exact Nat.le_trans hpow (by decide)

theorem isSmall_of_isRandom {label family : String} {magnitude : Int64}
    (hvars : config.randomMaxVars ≤ 24)
    (hmagnitude : 0 ≤ magnitude.toInt ∧ magnitude.toInt ≤ 2 ^ 57)
    (h : IsRandom label family magnitude (Var.range config.randomMaxVars) i) : i.IsSmall := by
  refine isSmall_of_bounded hvars (fun x hx => Var.mem_range.1 (h.subset hx)) h.nodup
    (fun c hc => ?_) (by simp [h.sideRows_eq])
  have hle := h.coeffs_le c hc
  omega

theorem isSmall_of_isScaling {label : String} {pairs : Nat} (hpairs : pairs ≤ 12)
    (h : IsScaling label pairs i) : i.IsSmall := by
  obtain ⟨count, hcount, hvars⟩ := h.vars_eq
  have hle : count ≤ 24 := UInt32.le_iff_toNat_le.2 (hcount ▸ Nat.mul_le_mul_left 2 hpairs)
  refine isSmall_of_range hle hvars (fun c hc => ?_) fun row hrow => ?_
  · rw [h.coeffs_eq] at hc
    rw [List.eq_of_mem_replicate hc]
    decide
  · have hids : ∀ x ∈ i.vars, x.id ≤ 24 := fun x hx =>
      UInt32.le_trans (Var.mem_range.1 (hvars ▸ hx)) hle
    obtain ⟨p, hp, hpair⟩ := exists_mem_of_forall₂ h.sideRows_eq row hrow
    obtain ⟨hfirst, hsecond⟩ := Family.mem_pairs hp
    exact Family.isSmall_of_atMostOne (hids _ hfirst) (hids _ hsecond) hpair

/-- What is picked by hand is small. -/
theorem isSmall_of_make {label : String} {coeffs : List Int64} {degree : Int64}
    (h : Instance.make label coeffs (Var.range 3) degree .geq = .ok i)
    (hcoeffs : ∀ c ∈ coeffs, c.toInt.natAbs ≤ 2 ^ 57) : i.IsSmall := by
  obtain ⟨-, rfl, hvars, -, -, hside⟩ := Instance.make_eq_ok.1 h
  exact isSmall_of_range (by decide) hvars hcoeffs (by simp [hside])

/-- Every member of a bounded suite is small. -/
theorem Makes.isSmall (hbounded : suite.Bounded config) (hr : r ∈ suite.recipes config)
    (h : r.Makes suite config i) : i.IsSmall := by
  cases r with
  | base rel numbers => exact h.isSmall hbounded.maxVars rfl hbounded.fits.uniform
  | negated rel numbers => exact h.isSmall hbounded.maxVars rfl hbounded.fits.uniform
  | saturating => exact isSmall_of_make h (by simp)
  | propagating => exact isSmall_of_make h (by simp)
  | binary rel degree => exact isSmall_of_isBinary hbounded.binaryBits h
  | small index => exact isSmall_of_isRandom hbounded.randomMaxVars hbounded.smallMagnitude h
  | large index => exact isSmall_of_isRandom hbounded.randomMaxVars hbounded.largeMagnitude h
  | scaling pairs =>
    have hle := UInt32.le_iff_toNat_le.1 hbounded.scaling
    exact isSmall_of_isScaling (Nat.le_trans (Suite.le_of_scaling_mem hr) hle) h

end Recipe

namespace Suite
variable {suite : Suite} {config : FamilyConfig}

end Suite

end PseudoBoolean
