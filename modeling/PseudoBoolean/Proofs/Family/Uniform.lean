import PseudoBoolean.Proofs.Family.Members

/-!
The answers of the families with equal coefficients.

The subset sums of `n` equal coefficients are their multiples from 0 to `n`
(`SubsetSum.exists_total_iff`), so the left-hand side of a member attains just the multiples that
compare with the degree as they must, and the best of them can be written down. The degree is a
multiple too: it is attained itself unless it is negative or beyond `n`.
-/

namespace PseudoBoolean

/-! ### Equal coefficients -/

namespace SubsetSum
variable {c : Int64} {rest : List Int64}

/-- The first bit of a mask decides on the first coefficient. -/
theorem total_cons_mask (c : Int64) (rest : List Int64) (m : Nat) :
    total (c :: rest) m = (if m.testBit 0 then c.toInt else 0) + total rest (m / 2) := by
  rw [total, total, selected_cons]
  split <;> simp

theorem total_cons (b : Bool) (m : Nat) :
    total (c :: rest) (b.toNat + 2 * m) = (if b then c.toInt else 0) + total rest m := by
  rw [total_cons_mask, testBit_zero_bit, half_bit]

/-- A subset of equal coefficients sums to a multiple. -/
theorem exists_multiple (n m : Nat) : ∃ k ≤ n, total (List.replicate n c) m = k * c.toInt := by
  induction n generalizing m with
  | zero => exact ⟨0, Nat.le_refl _, (Int.zero_mul _).symm⟩
  | succ n ih =>
    obtain ⟨k, hk, htotal⟩ := ih (m / 2)
    rw [List.replicate_succ, total_cons_mask, htotal]
    cases m.testBit 0 with
    | false => exact ⟨k, Nat.le_succ_of_le hk, by simp⟩
    | true =>
      refine ⟨k + 1, Nat.succ_le_succ hk, ?_⟩
      rw [if_pos rfl, Int.natCast_succ]
      ring

/-- Every multiple up to the number of coefficients is the sum of a subset. -/
theorem exists_mask (n k : Nat) (hk : k ≤ n) :
    ∃ m < 2 ^ n, total (List.replicate n c) m = k * c.toInt := by
  induction n generalizing k with
  | zero =>
    obtain rfl := Nat.le_zero.1 hk
    exact ⟨0, Nat.one_pos, (Int.zero_mul _).symm⟩
  | succ n ih =>
    rw [List.replicate_succ, Nat.pow_succ]
    cases k with
    | zero =>
      obtain ⟨m, hm, htotal⟩ := ih 0 (Nat.zero_le _)
      refine ⟨false.toNat + 2 * m, ?_, ?_⟩
      · show 0 + 2 * m < _
        omega
      · rw [total_cons, htotal]
        simp
    | succ k =>
      obtain ⟨m, hm, htotal⟩ := ih k (Nat.le_of_succ_le_succ hk)
      refine ⟨true.toNat + 2 * m, ?_, ?_⟩
      · show 1 + 2 * m < _
        omega
      · rw [total_cons, htotal, if_pos rfl, Int.natCast_succ]
        ring

/-- The subset sums of equal coefficients are the multiples up to their number. -/
theorem exists_total_iff (n : Nat) (p : Int → Prop) :
    (∃ m < Nat.pow 2 (List.replicate n c).length, p (total (List.replicate n c) m)) ↔
      ∃ k ≤ n, p (k * c.toInt) := by
  rw [List.length_replicate]
  constructor
  · rintro ⟨m, _, hp⟩
    obtain ⟨k, hk, htotal⟩ := exists_multiple (c := c) n m
    exact ⟨k, hk, htotal ▸ hp⟩
  · rintro ⟨k, hk, hp⟩
    obtain ⟨m, hm, htotal⟩ := exists_mask (c := c) n k hk
    exact ⟨m, hm, htotal ▸ hp⟩

end SubsetSum

/-! ### The best multiple -/

/-- The multiples of `c` up to the `n`-th that compare with the `d`-th as they must. -/
def multiples (relation : Relation) (c d : Int) (n : Nat) : Set Int :=
  {x | ∃ k : Nat, k ≤ n ∧ relation.Holds (k * c) (d * c) ∧ x = k * c}

section Multiples
variable {c d : Int} {n : Nat}

/-- The degree itself is the only multiple that equals it. -/
theorem isBest_multiples_eq (q : Query) (hd : 0 ≤ d) (hn : d ≤ n) :
    q.IsBest (multiples .eq c d n) (d * c) := by
  have hmem : d * c ∈ multiples .eq c d n := by
    refine ⟨d.toNat, by omega, ?_, ?_⟩
    · show (d.toNat : Int) * c = d * c
      rw [Int.toNat_of_nonneg hd]
    · rw [Int.toNat_of_nonneg hd]
  have heq : ∀ x ∈ multiples .eq c d n, x = d * c := by
    rintro x ⟨k, _, hk, rfl⟩
    exact hk
  cases q with
  | minimize => exact ⟨hmem, fun x hx => (heq x hx).ge⟩
  | maximize => exact ⟨hmem, fun x hx => (heq x hx).le⟩

theorem multiples_eq_empty (hc : c ≠ 0) (hd : ¬ (0 ≤ d ∧ d ≤ n)) : multiples .eq c d n = ∅ := by
  refine Set.eq_empty_of_forall_notMem ?_
  rintro x ⟨k, hk, heq, _⟩
  have hkd : (k : Int) = d := mul_right_cancel₀ hc heq
  omega

/-- The degree itself is the least multiple that reaches it. -/
theorem isLeast_multiples (hd : 0 ≤ d) (hn : d ≤ n) :
    Query.minimize.IsBest (multiples .geq c d n) (d * c) := by
  refine ⟨⟨d.toNat, by omega, ?_, ?_⟩, ?_⟩
  · show d * c ≤ d.toNat * c
    rw [Int.toNat_of_nonneg hd]
  · rw [Int.toNat_of_nonneg hd]
  · rintro x ⟨k, _, hk, rfl⟩
    exact hk

/-- The last multiple is the greatest one, if it reaches the degree. -/
theorem isGreatest_multiples (hc : 0 ≤ c) (hn : d ≤ n) :
    Query.maximize.IsBest (multiples .geq c d n) (n * c) := by
  refine ⟨⟨n, Nat.le_refl _, mul_le_mul_of_nonneg_right hn hc, rfl⟩, ?_⟩
  rintro x ⟨k, hk, _, rfl⟩
  exact mul_le_mul_of_nonneg_right (Int.ofNat_le.2 hk) hc

theorem multiples_geq_empty_of_pos (hc : 0 < c) (hn : n < d) : multiples .geq c d n = ∅ := by
  refine Set.eq_empty_of_forall_notMem ?_
  rintro x ⟨k, hk, hle, _⟩
  have hdk : d ≤ k := le_of_mul_le_mul_right hle hc
  omega

/-- The best multiple of a positive coefficient: the degree, but the last one if more is allowed and
better. -/
def bestMultiple (relation : Relation) (q : Query) (c d n : Int) : Int :=
  match relation, q with
  | .geq, .maximize => n * c
  | _, _ => d * c

@[simp] theorem bestMultiple_minimize (relation : Relation) (c d n : Int) :
    bestMultiple relation .minimize c d n = d * c := by
  cases relation <;> rfl

@[simp] theorem bestMultiple_eq (q : Query) (c d n : Int) : bestMultiple .eq q c d n = d * c := by
  cases q <;> rfl

theorem isBest_bestMultiple (relation : Relation) (q : Query) (hc : 0 ≤ c) (hd : 0 ≤ d)
    (hn : d ≤ n) : q.IsBest (multiples relation c d n) (bestMultiple relation q c d n) := by
  cases relation with
  | eq =>
    rw [bestMultiple_eq]
    exact isBest_multiples_eq q hd hn
  | geq =>
    cases q with
    | minimize => exact isLeast_multiples hd hn
    | maximize => exact isGreatest_multiples hc hn

/-- No multiple reaches a degree beyond the last one. -/
theorem multiples_eq_empty_of_lt (relation : Relation) (hc : 0 < c) (hn : n < d) :
    multiples relation c d n = ∅ := by
  cases relation with
  | eq => exact multiples_eq_empty hc.ne' (by omega)
  | geq => exact multiples_geq_empty_of_pos hc hn

/-- With a negative coefficient more summands are less, up to those that the degree allows. -/
theorem isLeast_multiples_of_neg (hc : c < 0) (hd : 0 ≤ d) :
    Query.minimize.IsBest (multiples .geq c d n) (min d n * c) := by
  have hmin : ((min d n).toNat : Int) = min d n := Int.toNat_of_nonneg (by omega)
  refine ⟨⟨(min d n).toNat, by omega, ?_, by rw [hmin]⟩, ?_⟩
  · show d * c ≤ (min d n).toNat * c
    rw [hmin]
    exact mul_le_mul_of_nonpos_right (min_le_left _ _) hc.le
  · rintro x ⟨k, hk, hle, rfl⟩
    have hkd : k ≤ d := (mul_le_mul_right_of_neg hc).1 hle
    exact mul_le_mul_of_nonpos_right (le_min hkd (by omega)) hc.le

theorem multiples_geq_empty_of_neg (hc : c < 0) (hd : d < 0) : multiples .geq c d n = ∅ := by
  refine Set.eq_empty_of_forall_notMem ?_
  rintro x ⟨k, _, hle, _⟩
  have hkd : k ≤ d := (mul_le_mul_right_of_neg hc).1 hle
  omega

end Multiples

/-! ### Expected answers -/

/-- Whether the expected answer to a query is some integer, or that there is no solution. -/
def Instance.Expects (i : Instance) (q : Query) (answer : Option Int) : Prop :=
  ∃ best, i.expected q = .ok best ∧ best.map Int64.toInt = answer

namespace Instance
variable {i : Instance} {q : Query}

theorem IsSmall.expects_some (hi : i.IsSmall) {m : Int} (hm : q.IsBest i.values m) :
    i.Expects q (some m) := by
  obtain ⟨best, hbest⟩ := hi.exists_expected q
  refine ⟨best, hbest, ?_⟩
  have hoptimum := isOptimum_expected hi.inRange.vars hbest
  cases best with
  | none =>
    have hmem := hm.mem
    rw [hoptimum.eq_none_iff.1 rfl] at hmem
    exact absurd hmem (Set.notMem_empty _)
  | some a => exact congrArg some (((hoptimum.eq_some_iff a).1 rfl).unique hm)

theorem IsSmall.expects_none (hi : i.IsSmall) (h : i.values = ∅) : i.Expects q none := by
  obtain ⟨best, hbest⟩ := hi.exists_expected q
  have hoptimum := isOptimum_expected hi.inRange.vars hbest
  exact ⟨best, hbest, by rw [hoptimum.eq_none_iff.2 h]; rfl⟩

/-- A left-hand side of positive multiples is answered by the best of them, if one reaches the
degree. -/
theorem IsSmall.expects_multiples (hi : i.IsSmall) {relation : Relation} {c d : Int} {n : Nat}
    (hvalues : i.values = multiples relation c d n) (hc : 0 < c) (hd : 0 ≤ d) (q : Query) :
    i.Expects q (if d ≤ n then some (bestMultiple relation q c d n) else none) := by
  split
  · next hn =>
    refine hi.expects_some ?_
    rw [hvalues]
    exact isBest_bestMultiple relation q hc.le hd hn
  · next hn =>
    refine hi.expects_none ?_
    rw [hvalues]
    exact multiples_eq_empty_of_lt relation hc (not_le.1 hn)

end Instance

/-! ### The members -/

namespace Family
variable {config : FamilyConfig} {label family : String} {relation : Relation} {factor : Int64}
  {sign n d : Int} {i : Instance} {minVars : UInt32}

/-- The left-hand side attains the multiples that compare with the degree as they must. -/
theorem IsUniform.values_eq (h : IsUniform config label family relation factor sign (n, d) i)
    (hi : i.IsSmall) : i.values = multiples relation (sign * factor.toInt) d n.toNat := by
  obtain ⟨coeff, hcoeff, hcoeffs⟩ := h.coeffs_eq
  have hplain : i.isPlain = true := by
    simp [Instance.isPlain, h.sideRows_eq, h.nodup_vars]
  have hdegree : i.degree.toInt = d * coeff.toInt := by
    rw [h.degree_eq, hcoeff]
    ring
  rw [Instance.values_eq_of_isPlain hi.inRange.vars hplain, hcoeffs, h.relation_eq, hdegree,
    ← hcoeff]
  exact Set.ext fun x => SubsetSum.exists_total_iff n.toNat fun y =>
    relation.Holds y (d * coeff.toInt) ∧ x = y

/-- An equality is answered by its degree, if that is attained. -/
theorem IsUniform.expects_eq (h : IsUniform config label family .eq factor sign (n, d) i)
    (hi : i.IsSmall) (hc : sign * factor.toInt ≠ 0) (q : Query) :
    i.Expects q (if 0 ≤ d ∧ d ≤ n then some (d * (sign * factor.toInt)) else none) := by
  have hn := h.count_nonneg
  have hvalues := h.values_eq hi
  simp only at hn
  split
  · next hd =>
    refine hi.expects_some ?_
    rw [hvalues]
    exact isBest_multiples_eq q hd.1 (by omega)
  · next hd =>
    refine hi.expects_none ?_
    rw [hvalues]
    exact multiples_eq_empty hc (by omega)

/-- A member of the base family reaches its degree, or nothing that is large enough. -/
theorem IsUniform.expects_base (h : IsUniform config label family relation factor 1 (n, d) i)
    (hi : i.IsSmall) (hfactor : 0 < factor.toInt) (hd : 0 ≤ d) :
    i.Expects .minimize (if d ≤ n then some (factor.toInt * d) else none) ∧
      (relation = .eq → i.Expects .maximize
        (if d ≤ n then some (factor.toInt * d) else none)) := by
  have hn := h.count_nonneg
  have hvalues := h.values_eq hi
  simp only at hn
  rw [one_mul] at hvalues
  have hexpects := hi.expects_multiples hvalues hfactor hd
  simp only [Int.toNat_of_nonneg hn] at hexpects
  constructor
  · simpa [Int.mul_comm] using hexpects .minimize
  · rintro rfl
    simpa [Int.mul_comm] using hexpects .maximize

/-- A member of the negated family takes as many variables as the degree allows. -/
theorem IsUniform.expects_negated
    (h : IsUniform config label family relation factor (-1) (n, d) i) (hi : i.IsSmall)
    (hfactor : 0 < factor.toInt) :
    (relation = .geq → i.Expects .minimize
      (if 0 ≤ d then some (-factor.toInt * min d n) else none)) ∧
    (relation = .eq → ∀ q, i.Expects q
      (if 0 ≤ d ∧ d ≤ n then some (-factor.toInt * d) else none)) := by
  have hneg : -factor.toInt < 0 := by omega
  constructor
  · rintro rfl
    have hn := h.count_nonneg
    have hvalues := h.values_eq hi
    simp only at hn
    rw [neg_one_mul] at hvalues
    split
    · next hd =>
      refine hi.expects_some ?_
      have hbest := isLeast_multiples_of_neg (n := n.toNat) hneg hd
      rwa [Int.toNat_of_nonneg hn, ← hvalues, Int.mul_comm] at hbest
    · next hd =>
      refine hi.expects_none ?_
      rw [hvalues]
      exact multiples_geq_empty_of_neg hneg (by omega)
  · rintro rfl q
    have hfactor' : -1 * factor.toInt ≠ 0 := by omega
    have hexpects := h.expects_eq hi hfactor' q
    rwa [neg_one_mul, Int.mul_comm] at hexpects

/-- The degrees and sums of a family fit if the greatest of them does. -/
theorem natAbs_le_of_fits (hfactor : 0 < factor.toInt)
    (hfits : Word.Fits (config.maxVars.toNat * factor.toInt)) :
    max config.maxVars.toNat 1 * factor.toInt.natAbs ≤ Word.largest := by
  have hword := (Word.fits_toInt factor).2
  have hlt := hfits.2
  rw [← Word.natCast_mul_natAbs _ hfactor.le] at hlt
  simp only [Word.largest]
  rcases Nat.le_total 1 config.maxVars.toNat with h | h
  · rw [Nat.max_eq_left h]
    omega
  · rw [Nat.max_eq_right h, one_mul]
    omega

/-- The families with equal coefficients have a member for each number of variables and each
multiple of the factor. A base member is answered by its degree, or has no solution if the degree is
beyond the number of variables. A negated member takes as many variables as its degree allows, or
exactly that many if it is an equality. -/
theorem uniform_families_expect (config : FamilyConfig) (label : String) (relation : Relation)
    (factor : Int64) (minVars : UInt32) (hvars : config.maxVars ≤ 24)
    (hmin : minVars ≤ config.maxVars) (hfactor : 0 < factor.toInt)
    (hfits : Word.Fits (config.maxVars.toNat * factor.toInt)) :
    (∃ instances, base config label relation factor minVars = .ok instances ∧
      instances.length = (config.maxVars.toNat - minVars.toNat + 1) * (config.maxVars.toNat + 1) ∧
      List.Forall₂ (fun numbers i => IsUniform config label "base" relation factor 1 numbers i ∧
          i.Expects .minimize
            (if numbers.2 ≤ numbers.1 then some (factor.toInt * numbers.2) else none) ∧
          (relation = .eq → i.Expects .maximize
            (if numbers.2 ≤ numbers.1 then some (factor.toInt * numbers.2) else none)))
        (integers minVars.toNat config.maxVars.toNat ×ˢ integers 0 config.maxVars.toNat)
        instances) ∧
    (∃ instances, negated config label relation factor minVars = .ok instances ∧
      instances.length = (config.maxVars.toNat - minVars.toNat + 1) * (config.maxVars.toNat + 2) ∧
      List.Forall₂ (fun numbers i => IsUniform config label "neg" relation factor (-1) numbers i ∧
          (relation = .geq → i.Expects .minimize
            (if 0 ≤ numbers.2 then some (-factor.toInt * min numbers.2 numbers.1) else none)) ∧
          (relation = .eq → ∀ q, i.Expects q
            (if 0 ≤ numbers.2 ∧ numbers.2 ≤ numbers.1 then some (-factor.toInt * numbers.2)
              else none)))
        (integers minVars.toNat config.maxVars.toNat ×ˢ integers (-1) config.maxVars.toNat)
        instances) := by
  have hle := UInt32.le_iff_toNat_le.1 hmin
  have hsum := natAbs_le_of_fits hfactor hfits
  have hroom := two_mul_table_le hvars
  constructor
  · obtain ⟨instances, hbase⟩ : ∃ instances, base config label relation factor minVars =
      .ok instances := exists_base hsum hroom
    have hmembers := forall₂_base hbase
    refine ⟨instances, hbase, ?_, ?_⟩
    · rw [← hmembers.length_eq, List.length_product, length_integers, length_integers]
      congr 1
      omega
    · refine ((List.forall₂_and_left _ _).2 ⟨fun _ h => h, hmembers⟩).imp ?_
      rintro ⟨n, d⟩ i ⟨hmem, h⟩
      have hd := (mem_integers.1 (List.pair_mem_product.1 hmem).2).1
      have hi := h.isSmall hvars rfl hsum
      exact ⟨h, h.expects_base hi hfactor hd⟩
  · obtain ⟨instances, hnegated⟩ : ∃ instances, negated config label relation factor minVars =
      .ok instances := exists_negated hsum hroom
    have hmembers := forall₂_negated hnegated
    refine ⟨instances, hnegated, ?_, ?_⟩
    · rw [← hmembers.length_eq, List.length_product, length_integers, length_integers]
      congr 1
      omega
    · refine hmembers.imp ?_
      rintro ⟨n, d⟩ i h
      exact ⟨h, h.expects_negated (h.isSmall hvars rfl hsum) hfactor⟩

theorem uniform_families_expect_sample :
    (3 : UInt32) ≤ 24 ∧ (1 : UInt32) ≤ 3 ∧ 0 < (2 : Int64).toInt ∧
      Word.Fits ((3 : UInt32).toNat * (2 : Int64).toInt) ∧
      ∃ instances, base .standard "gte" .geq 2 1 = .ok instances ∧ instances.length = 12 := by
  have hfits : Word.Fits ((3 : UInt32).toNat * (2 : Int64).toInt) := by decide
  obtain ⟨⟨instances, hbase, hlength, _⟩, _⟩ :=
    uniform_families_expect .standard "gte" .geq 2 1 (by decide) (by decide) (by decide) hfits
  exact ⟨by decide, by decide, by decide, hfits, instances, hbase, hlength⟩

end Family

end PseudoBoolean
