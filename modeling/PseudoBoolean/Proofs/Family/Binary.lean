import PseudoBoolean.Proofs.Family.Bounds
import PseudoBoolean.Proofs.Family.Uniform
import PseudoBoolean.Proofs.Models

/-!
The binary family.

Every number below `2^k` is the sum of one set of powers of two, the one that its own bits select
(`SubsetSum.total_bitWeights`). So the left-hand side of a member takes each value below `2^k` at
just one assignment, and the models of a member are the numbers that compare with its degree:

    degree      0    1    2   ...   2^k - 1  |  2^k   ...   2^(k+1) - 1
    `=`         1    1    1   ...      1     |   0    ...       0
    `>=`       2^k  2^k-1     ...      1     |   0    ...       0

The degrees to the left have a solution and those to the right have none, and there are as many on
either side.
-/

namespace PseudoBoolean

/-! ### Powers of two -/

namespace SubsetSum

/-- A mask selects itself from the powers of two that follow some power, times that power. -/
theorem total_powers : ∀ {bits first mask : Nat}, first + bits ≤ 63 → mask < 2 ^ bits →
    total ((List.range' first bits).map fun bit => Int64.ofNat (Nat.pow 2 bit)) mask =
      2 ^ first * mask
  | 0, first, mask, _, hmask => by
    obtain rfl : mask = 0 := by simpa using hmask
    simp [total, selected]
  | bits + 1, first, mask, hfits, hmask => by
    have hword := Word.toInt_pow first (by omega)
    have hhalf : mask / 2 < 2 ^ bits := by
      rw [Nat.pow_succ] at hmask
      omega
    have hbit : mask = (mask.testBit 0).toNat + 2 * (mask / 2) := by
      rw [Nat.toNat_testBit, Nat.pow_zero, Nat.div_one]
      omega
    have hrest : first + 1 + bits ≤ 63 := by omega
    -- the lowest bit decides on the first power, and the rest is half of the mask
    rw [List.range'_succ, List.map_cons, total_cons_mask, total_powers hrest hhalf, hword]
    conv_rhs => rw [hbit]
    cases mask.testBit 0 <;> simp <;> ring

/-- A mask selects itself from the weights of the bits. -/
theorem total_bitWeights {bits mask : Nat} (hbits : bits ≤ 63) (hmask : mask < 2 ^ bits) :
    total (Family.bitWeights bits) mask = mask := by
  rw [Family.bitWeights, List.range_eq_range', total_powers (by omega) hmask]
  simp

/-- The weights of the bits below `2^k` sum to one less. -/
theorem weight_bitWeights {bits : Nat} (hbits : bits ≤ 63) :
    Word.weight (Family.bitWeights bits) = 2 ^ bits - 1 := by
  induction bits with
  | zero => rfl
  | succ bits ih =>
    have hword := Word.toInt_pow bits (by omega)
    have hsum := ih (by omega)
    simp only [Word.weight, Family.bitWeights] at hsum
    simp only [Word.weight, Family.bitWeights, List.range_succ, List.map_append, List.sum_append,
      hsum, List.map_cons, List.map_nil, List.sum_singleton, hword, Int.natAbs_pow]
    have hpos : 0 < 2 ^ bits := Nat.two_pow_pos bits
    rw [Nat.pow_succ]
    show 2 ^ bits - 1 + 2 ^ bits = _
    omega

end SubsetSum

/-! ### Counting masks -/

instance (r : Relation) (lhs degree : Int) : Decidable (r.Holds lhs degree) :=
  match r with
  | .geq => inferInstanceAs (Decidable (degree ≤ lhs))
  | .eq => inferInstanceAs (Decidable (lhs = degree))

/-- Models that are read off the mask of a valuation are counted among the masks. -/
theorem modelsOver_maskOf {vars : List Var} (hdup : vars.Nodup) (q : Nat → Bool) :
    modelsOver vars (fun v => q (maskOf v vars)) = (List.range (2 ^ vars.length)).countP q := by
  rw [modelsOver, assignments, List.countP_map]
  refine List.countP_congr fun m hm => ?_
  have hmask := maskOf_value hdup (List.mem_range.1 hm)
  simp only [Function.comp_apply, hmask]

/-- The values of the first variables spell a number of as many bits, and each such number is
spelled. -/
theorem maskOf_range_lt (v : Valuation) (n : UInt32) : maskOf v (Var.range n) < 2 ^ n.toNat := by
  have hmask := maskOf_lt v (Var.range n)
  rwa [Var.length_range] at hmask

theorem maskOf_range_value {n : UInt32} {m : Nat} (hm : m < 2 ^ n.toNat) :
    maskOf (Assignment.mk (Var.range n) m).value (Var.range n) = m := by
  refine maskOf_value (Var.nodup_range n) ?_
  rwa [Var.length_range]

/-- Below a bound one number equals the degree, and those from it on are at least the degree. -/
theorem countP_range_holds (relation : Relation) (bound degree : Nat) :
    (List.range bound).countP (fun m : Nat => relation.Holds m degree) =
      match relation with
      | .eq => if degree < bound then 1 else 0
      | .geq => bound - degree := by
  induction bound with
  | zero => cases relation <;> simp
  | succ bound ih =>
    rw [List.range_succ, List.countP_append, List.countP_singleton, ih]
    cases relation with
    | eq =>
      have hhit : decide (Relation.eq.Holds bound degree) = true ↔ bound = degree := by
        simp [Relation.Holds]
      simp only [hhit]
      split_ifs <;> omega
    | geq =>
      have hhit : decide (Relation.geq.Holds bound degree) = true ↔ degree ≤ bound := by
        simp [Relation.Holds]
      simp only [hhit]
      split_ifs <;> omega

/-! ### Members -/

/-- Whether the main constraint of an instance can be decided everywhere, and just `count`
assignments of `x1` to `x<total>` satisfy it. -/
def Instance.HasModels (i : Instance) (total : UInt32) (count : Nat) : Prop :=
  ∃ row, i.constraint.normalize = .ok row ∧ (∀ v, ∃ b, row.isSatisfied v = .ok b) ∧
    (Models total fun v => row.isSatisfied v = .ok true).ncard = count

namespace Family
variable {config : FamilyConfig} {label : String} {relation : Relation} {degree : Nat} {i : Instance}

/-- How many of the numbers of some bits compare with a degree as they must. -/
def binaryModels (relation : Relation) (bits degree : Nat) : Nat :=
  if degree < 2 ^ bits then
    match relation with
    | .eq => 1
    | .geq => 2 ^ bits - degree
  else 0

/-- The best number of some bits that compares with a degree as it must. -/
def binaryAnswer (relation : Relation) (bits degree : Nat) (q : Query) : Option Int :=
  if degree < 2 ^ bits then
    match relation, q with
    | .eq, _ => some degree
    | .geq, .minimize => some degree
    | .geq, .maximize => some (2 ^ bits - 1)
  else none

section Member
variable (h : IsBinary config label relation degree i) (hbits : config.binaryBits ≤ 61)
include h hbits

theorem IsBinary.inRange : ∀ x ∈ i.vars, x.InRange := by
  intro x hx
  rw [h.vars_eq] at hx
  exact Var.inRange_of_le (UInt32.le_trans (Var.mem_range.1 hx) hbits) (by decide)

/-- The left-hand side of a member is the number that the values of its variables spell. -/
theorem IsBinary.value_eq (v : Valuation) :
    i.objective.value v = maskOf v (Var.range config.binaryBits) := by
  have hle := UInt32.le_iff_toNat_le.1 hbits
  rw [Instance.value_objective (h.inRange hbits), h.coeffs_eq, h.vars_eq]
  exact SubsetSum.total_bitWeights (Nat.le_trans hle (by decide)) (maskOf_range_lt v _)

theorem IsBinary.holds_iff (v : Valuation) :
    i.constraint.Holds v ↔ relation.Holds (maskOf v (Var.range config.binaryBits)) degree := by
  rw [Constraint.Holds, Instance.constraint, h.value_eq hbits, h.relation_eq, h.degree_eq]

theorem IsBinary.solves_iff (v : Valuation) :
    i.Solves v ↔ relation.Holds (maskOf v (Var.range config.binaryBits)) degree := by
  have hlhs : i.lhs v = i.objective.value v := (Instance.total_zipWith v (h.inRange hbits)).symm
  rw [Instance.Solves, hlhs, h.value_eq hbits, h.relation_eq, h.degree_eq, h.sideRows_eq]
  simp

/-- The main constraint of a member can be decided, since the weights and the degree fit a word. -/
theorem IsBinary.exists_row (hdegree : degree < 2 ^ (config.binaryBits.toNat + 1)) :
    ∃ row, i.constraint.normalize = .ok row ∧ Term.weight row.terms ≤ Word.largest := by
  have hle := UInt32.le_iff_toNat_le.1 hbits
  have hpow : 2 ^ config.binaryBits.toNat ≤ 2 ^ 61 := Nat.pow_le_pow_right (by decide) hle
  have hweight : Word.weight i.coeffs = 2 ^ config.binaryBits.toNat - 1 := by
    rw [h.coeffs_eq]
    exact SubsetSum.weight_bitWeights (Nat.le_trans hle (by decide))
  have hfits : Word.weight i.coeffs + i.degree.toInt.natAbs ≤ Word.largest := by
    rw [hweight, h.degree_eq, Int.natAbs_natCast, Word.largest]
    rw [Nat.pow_succ] at hdegree
    omega
  obtain ⟨row, hrow, hle⟩ := Instance.exists_row hfits
  exact ⟨row, hrow, by omega⟩

/-- The models of a member are the numbers below `2^k` that compare with its degree as they must. -/
theorem IsBinary.hasModels (hdegree : degree < 2 ^ (config.binaryBits.toNat + 1)) :
    i.HasModels config.binaryBits (binaryModels relation config.binaryBits.toNat degree) := by
  obtain ⟨row, hrow, hweight⟩ := h.exists_row hbits hdegree
  have hdecided := Row.exists_isSatisfied hweight
  have hmodel : ∀ v, row.isSatisfied v = .ok true ↔
      decide (relation.Holds (maskOf v (Var.range config.binaryBits)) degree) = true := by
    intro v
    obtain ⟨b, hb, hiff⟩ := hdecided v
    rw [hb, Except.ok.injEq, hiff, Constraint.holds_normalize hrow, h.holds_iff hbits,
      decide_eq_true_iff]
  refine ⟨row, hrow, fun v => (hdecided v).imp fun _ hb => hb.1, ?_⟩
  simp only [hmodel]
  rw [ncard_models config.binaryBits fun v =>
      decide (relation.Holds (maskOf v (Var.range config.binaryBits)) degree),
    modelsOver_maskOf (Var.nodup_range _) fun m => decide (relation.Holds m degree),
    Var.length_range, countP_range_holds]
  simp only [binaryModels]
  cases relation with
  | eq => rfl
  | geq =>
    simp only
    split <;> omega

/-- The left-hand side attains the numbers below `2^k` that compare with the degree as they must. -/
theorem IsBinary.values_eq :
    i.values = multiples relation 1 degree (2 ^ config.binaryBits.toNat - 1) := by
  have hpos : 0 < 2 ^ config.binaryBits.toNat := Nat.two_pow_pos _
  ext x
  simp only [multiples, mul_one, Set.mem_ofPred_eq]
  constructor
  · rintro ⟨v, ⟨hv, _⟩, rfl⟩
    exact ⟨_, Nat.le_sub_one_of_lt (maskOf_range_lt v _), (h.holds_iff hbits v).1 hv,
      h.value_eq hbits v⟩
  · rintro ⟨m, hm, hholds, rfl⟩
    have hmask := maskOf_range_value (Nat.lt_of_le_pred hpos hm)
    refine ⟨_, ⟨(h.holds_iff hbits _).2 (hmask.symm ▸ hholds), ?_⟩, ?_⟩
    · simp [h.sideRows_eq]
    · rw [h.value_eq hbits, hmask]

/-- A degree below `2^k` is attained. A larger one is beyond every value. -/
theorem IsBinary.exists_solves_iff : (∃ v, i.Solves v) ↔ degree < 2 ^ config.binaryBits.toNat := by
  simp only [h.solves_iff hbits]
  constructor
  · rintro ⟨v, hv⟩
    have hle : degree ≤ maskOf v (Var.range config.binaryBits) := by
      cases relation with
      | eq => exact (Int.ofNat_inj.1 hv).ge
      | geq => exact Int.ofNat_le.1 hv
    exact Nat.lt_of_le_of_lt hle (maskOf_range_lt v _)
  · intro hdegree
    refine ⟨(Assignment.mk (Var.range config.binaryBits) degree).value, ?_⟩
    rw [maskOf_range_value hdegree]
    cases relation with
    | eq => rfl
    | geq => exact Int.le_refl _

end Member

/-- A member that the oracle can check is answered by its degree, or by the sum of all weights. -/
theorem IsBinary.expects (h : IsBinary config label relation degree i)
    (hcap : config.binaryBits ≤ 24) (q : Query) :
    i.Expects q (binaryAnswer relation config.binaryBits.toNat degree q) := by
  have hbits : config.binaryBits ≤ 61 := UInt32.le_trans hcap (by decide)
  have hi : i.IsSmall := Recipe.isSmall_of_isBinary hcap h
  have hpos : 0 < 2 ^ config.binaryBits.toNat := Nat.two_pow_pos _
  have hreached : (degree : Int) ≤ (2 ^ config.binaryBits.toNat - 1 : Nat) ↔
      degree < 2 ^ config.binaryBits.toNat := by omega
  have hexpects := hi.expects_multiples (h.values_eq hbits) Int.one_pos (Int.natCast_nonneg _) q
  simp only [hreached] at hexpects
  simp only [binaryAnswer]
  cases relation with
  | eq => simpa using hexpects
  | geq =>
    cases q with
    | minimize => simpa using hexpects
    | maximize => simpa [bestMultiple, Nat.cast_sub hpos] using hexpects

theorem binaryDegrees_eq {bits : Nat} (hbits : bits ≤ 61) :
    binaryDegrees bits = List.range (2 ^ (bits + 1)) := by
  rw [binaryDegrees, binaryCount_eq hbits]

/-- A list has room for the degrees of 55 bits, and not for those of 56. -/
theorem binaryCount_le_limit {bits : Nat} (hbits : bits ≤ 61) :
    binaryCount bits ≤ Room.limit ↔ bits ≤ 55 := by
  have hroom : 2 ^ 56 ≤ Room.limit ∧ Room.limit < 2 ^ 57 := by decide
  rw [binaryCount_eq hbits]
  constructor
  · intro hle
    by_contra hnot
    have hpow : 2 ^ 57 ≤ 2 ^ (bits + 1) := Nat.pow_le_pow_right (by decide) (by omega)
    omega
  · intro hle
    have hpow : 2 ^ (bits + 1) ≤ 2 ^ 56 := Nat.pow_le_pow_right (by decide) (by omega)
    omega

/-! ### The family -/

/-- Up to 55 bits the binary family has a member for each degree below `2^(k+1)`. Below `2^k` just
one assignment equals the degree and `2^k - degree` of them are at least the degree; from there on
there is none. So the first half of the members has solutions and the other half has none. The
expected answers agree wherever the oracle can check them. With more bits the family is refused, as
no list has room for it. -/
theorem binary_family_solutions (config : FamilyConfig) (label : String) (relation : Relation)
    (hbits : config.binaryBits ≤ 61) :
    (config.binaryBits ≤ 55 →
      ∃ instances, binaryWeights config label relation = .ok instances ∧
        instances.length = 2 * 2 ^ config.binaryBits.toNat ∧
        List.Forall₂ (fun degree i => IsBinary config label relation degree i ∧
            i.HasModels config.binaryBits (binaryModels relation config.binaryBits.toNat degree) ∧
            (config.binaryBits ≤ 24 → ∀ q,
              i.Expects q (binaryAnswer relation config.binaryBits.toNat degree q)))
          (List.range (2 ^ (config.binaryBits.toNat + 1))) instances ∧
        (∀ i ∈ instances.take (2 ^ config.binaryBits.toNat), ∃ v, i.Solves v) ∧
        ∀ i ∈ instances.drop (2 ^ config.binaryBits.toNat), ∀ v, ¬ i.Solves v) ∧
    (55 < config.binaryBits → binaryWeights config label relation = .error .capacity) := by
  have hle := UInt32.le_iff_toNat_le.1 hbits
  have hlt : config.binaryBits.toNat < 63 := Nat.lt_of_le_of_lt hle (by decide)
  have hroom := binaryCount_le_limit hle
  refine ⟨fun hfew => ?_, fun hmany => binary_of_lt hlt ?_⟩
  · obtain ⟨instances, hinstances⟩ : ∃ instances, binaryWeights config label relation =
      .ok instances := exists_binary hlt (hroom.2 (UInt32.le_iff_toNat_le.1 hfew))
    have hmembers := forall₂_binary hinstances
    rw [binaryDegrees_eq hle] at hmembers
    refine ⟨instances, hinstances, ?_, ?_, fun i hi => ?_, fun i hi v hv => ?_⟩
    · rw [← hmembers.length_eq, List.length_range, Nat.pow_succ, Nat.mul_comm]
    · refine ((List.forall₂_and_left _ _).2 ⟨fun _ h => h, hmembers⟩).imp
        fun degree i ⟨hdegree, h⟩ => ?_
      exact ⟨h, h.hasModels hbits (List.mem_range.1 hdegree), h.expects⟩
    · obtain ⟨degree, hdegree, h⟩ := exists_mem_of_forall₂ (List.forall₂_take _ hmembers) i hi
      rw [List.take_range, List.mem_range] at hdegree
      exact (h.exists_solves_iff hbits).2 (by omega)
    · obtain ⟨degree, hdegree, h⟩ := exists_mem_of_forall₂ (List.forall₂_drop _ hmembers) i hi
      have hlt := (h.exists_solves_iff hbits).1 ⟨v, hv⟩
      rw [List.range_eq_range', List.drop_range', List.mem_range'_1] at hdegree
      omega
  · have hmany : 55 < config.binaryBits.toNat := UInt32.lt_iff_toNat_lt.1 hmany
    exact Nat.not_le.1 fun hcount => Nat.not_le.2 hmany (hroom.1 hcount)

theorem binary_family_solutions_sample :
    (3 : UInt32) ≤ 61 ∧ ∃ instances, binaryWeights .standard "adder" .eq = .ok instances ∧
      instances.length = 16 ∧ (∀ i ∈ instances.take 8, ∃ v, i.Solves v) ∧
      ∀ i ∈ instances.drop 8, ∀ v, ¬ i.Solves v := by
  have hbits : (3 : UInt32) ≤ 61 := by decide
  obtain ⟨hfew, _⟩ := binary_family_solutions .standard "adder" .eq hbits
  obtain ⟨instances, hinstances, hlength, _, hsolved, hunsolved⟩ := hfew (by decide)
  exact ⟨hbits, instances, hinstances, hlength, hsolved, hunsolved⟩

/-- The standard parameters, but with 56 bits. -/
def wideConfig : FamilyConfig := { FamilyConfig.standard with binaryBits := 56 }

/-- The family of 56 bits is refused, though its weights and degrees are words. -/
theorem binaryWeights_wide : wideConfig.binaryBits ≤ 61 ∧
    binaryWeights wideConfig "adder" .geq = .error .capacity := by
  exact ⟨by decide, binary_of_lt (by decide) (by decide)⟩

end Family

end PseudoBoolean
