import PseudoBoolean.Proofs.Family.Members

/-!
The members of a random family.

Whatever the stream holds, a random instance has distinct variables of its pool, as many
coefficients within the magnitude, and a degree between one below the least sum and one above the
greatest (`Family.IsRandom`). The pool is only shuffled, so each later instance draws from the same
variables. None faults unless the magnitude is negative or the greatest sum, increased by one, may
leave its word (`Family.Drawable`). A family of more instances than a list has room for is refused
before anything is drawn.
-/

namespace PseudoBoolean

namespace Family

/-! ### Sums of one sign -/

/-- The sum of the negative coefficients. -/
def lowest (coeffs : List Int64) : Int := ((coeffs.filter (· < 0)).map Int64.toInt).sum

/-- The sum of the positive coefficients. -/
def highest (coeffs : List Int64) : Int := ((coeffs.filter (0 < ·)).map Int64.toInt).sum

theorem natAbs_sum_filter_le (p : Int64 → Bool) (coeffs : List Int64) :
    ((coeffs.filter p).map Int64.toInt).sum.natAbs ≤ Word.weight coeffs :=
  Nat.le_trans (Word.natAbs_sum_le _) (Word.weight_sublist List.filter_sublist)

theorem lowest_nonpos (coeffs : List Int64) : lowest coeffs ≤ 0 := by
  have hle : ∀ x ∈ (coeffs.filter (· < 0)).map Int64.toInt, x ≤ 0 := by
    intro x hx
    obtain ⟨c, hc, rfl⟩ := List.mem_map.1 hx
    have hneg := (List.mem_filter.1 hc).2
    exact (Int64.lt_iff_toInt_lt.1 (of_decide_eq_true hneg)).le
  have hsum := List.sum_le_card_nsmul _ 0 hle
  rwa [nsmul_zero] at hsum

theorem highest_nonneg (coeffs : List Int64) : 0 ≤ highest coeffs := by
  refine List.sum_nonneg fun x hx => ?_
  obtain ⟨c, hc, rfl⟩ := List.mem_map.1 hx
  have hpos := (List.mem_filter.1 hc).2
  exact (Int64.lt_iff_toInt_lt.1 (of_decide_eq_true hpos)).le

/-! ### One instance -/

/-- Whether an instance is a random one over some variables. -/
structure IsRandom (label family : String) (magnitude : Int64) (vars : List Var) (i : Instance) :
    Prop where
  name_eq : i.name = name label i.relation family i.vars.length i.degree
  length_pos : 0 < i.vars.length
  nodup : i.vars.Nodup
  subset : i.vars ⊆ vars
  coeffs_le : ∀ c ∈ i.coeffs, c.toInt.natAbs ≤ magnitude.toInt.natAbs
  degree_ge : lowest i.coeffs - 1 ≤ i.degree.toInt
  degree_le : i.degree.toInt ≤ highest i.coeffs + 1
  sideRows_eq : i.sideRows = []

/-- Whether random instances over some variables are drawn without a fault. -/
structure Drawable (magnitude : Int64) (vars : List Var) : Prop where
  length_pos : 0 < vars.length
  magnitude_nonneg : 0 ≤ magnitude.toInt
  fits : vars.length * magnitude.toInt.natAbs + 1 ≤ Word.largest

section Random
variable {label family : String} {magnitude : Int64} {vars pool : List Var}

open Draw (Yields yields_range yields_shuffle yields_coin)

/-- A coefficient is drawn from the words up to the magnitude, of either sign. -/
theorem yields_coeff : Yields (0 ≤ magnitude.toInt) (do
      let low ← Word.neg magnitude
      return Int64.ofInt (← Draw.range .bits64 low.toInt magnitude.toInt) : Draw Int64)
    fun c => c.toInt.natAbs ≤ magnitude.toInt.natAbs := by
  obtain ⟨hlo, hhi⟩ := Word.fits_toInt magnitude
  refine .bind (P := fun low => low.toInt = -magnitude.toInt)
    (.lift (fun _ => Word.neg_eq_ok_iff.1) fun hnonneg => ?_) fun low hlow => ?_
  · exact (Word.exists_checked_of_fits .negate ⟨by omega, by omega⟩).imp fun _ h => h.1
  · refine .bind (yields_range.mono (fun hnonneg => by omega) fun x hx => hx (Or.inr ?_))
      fun x hx => .pure ?_
    · rw [Draw.Width.size]
      omega
    · rw [Word.toInt_ofInt_of_fits ⟨by omega, by omega⟩]
      omega

/-- As many coefficients are drawn as are asked for. -/
theorem yields_coeffs (n : Nat) : Yields (0 ≤ magnitude.toInt) ((List.range n).mapM fun _ => do
      let low ← Word.neg magnitude
      return Int64.ofInt (← Draw.range .bits64 low.toInt magnitude.toInt) : Draw (List Int64))
    fun coeffs => coeffs.length = n ∧ ∀ c ∈ coeffs, c.toInt.natAbs ≤ magnitude.toInt.natAbs := by
  refine (Yields.mapM fun _ _ => yields_coeff).mono id fun coeffs hcoeffs => ⟨?_, fun c hc => ?_⟩
  · rw [← hcoeffs.length_eq, List.length_range]
  · obtain ⟨_, _, hle⟩ := exists_mem_of_forall₂ hcoeffs c hc
    exact hle

/-- The negative coefficients, or the positive ones, have a sum. -/
theorem exists_sum_filter {coeffs : List Int64} (h : Word.weight coeffs + 1 ≤ Word.largest)
    (p : Int64 → Bool) : ∃ a, Word.sum (coeffs.filter p) = .ok a := by
  have hle : Word.weight (coeffs.filter p) ≤ Word.weight coeffs :=
    Word.weight_sublist List.filter_sublist
  exact Word.exists_sum (by omega)

theorem Drawable.weight_le {coeffs : List Int64} (h : Drawable magnitude vars)
    (hlength : coeffs.length ≤ vars.length)
    (hcoeffs : ∀ c ∈ coeffs, c.toInt.natAbs ≤ magnitude.toInt.natAbs) :
    Word.weight coeffs + 1 ≤ Word.largest := by
  have hfits := h.fits
  have hle := Nat.mul_le_mul_right magnitude.toInt.natAbs hlength
  have hweight := Word.weight_le hcoeffs
  omega

/-- One less than the negative coefficients, and one more than the positive ones, is a word. -/
theorem exists_sub_one {coeffs : List Int64} {low : Int64} (hlow : low.toInt = lowest coeffs)
    (h : Word.weight coeffs + 1 ≤ Word.largest) : ∃ a, Word.sub low 1 = .ok a := by
  have hle : low.toInt.natAbs ≤ Word.weight coeffs := hlow ▸ natAbs_sum_filter_le _ _
  exact (Word.exists_sub (Nat.le_trans (Nat.add_le_add_right hle 1) h)).imp fun _ ha => ha.1

theorem exists_add_one {coeffs : List Int64} {high : Int64} (hhigh : high.toInt = highest coeffs)
    (h : Word.weight coeffs + 1 ≤ Word.largest) : ∃ a, Word.add high 1 = .ok a := by
  have hle : high.toInt.natAbs ≤ Word.weight coeffs := hhigh ▸ natAbs_sum_filter_le _ _
  exact (Word.exists_add (Nat.le_trans (Nat.add_le_add_right hle 1) h)).imp fun _ ha => ha.1

/-- A degree is drawn between one below the least sum of the coefficients and one above the
greatest, for whatever is done with it. -/
theorem yields_degree {β : Type} {sure : Prop} {Q : β → Prop} {coeffs : List Int64}
    {f : Int → Draw β} (hweight : sure → Word.weight coeffs + 1 ≤ Word.largest)
    (hf : ∀ x, (Int64.ofInt x).toInt = x → lowest coeffs - 1 ≤ x → x ≤ highest coeffs + 1 →
      Yields sure (f x) Q) :
    Yields sure (do
      let low ← Word.sum (coeffs.filter (· < 0))
      let high ← Word.sum (coeffs.filter (0 < ·))
      let first ← Word.sub low 1
      let last ← Word.add high 1
      f (← Draw.range .bits64 first.toInt last.toInt)) Q := by
  refine .bind (P := fun low => low.toInt = lowest coeffs) (.lift (fun _ => Word.sum_eq_ok)
    fun h => exists_sum_filter (hweight h) _) fun low hlow => ?_
  refine .bind (P := fun high => high.toInt = highest coeffs) (.lift (fun _ => Word.sum_eq_ok)
    fun h => exists_sum_filter (hweight h) _) fun high hhigh => ?_
  refine .bind (P := fun first => first.toInt = lowest coeffs - 1)
    (.lift (fun first h => hlow ▸ Word.sub_eq_ok_iff.1 h)
      fun h => exists_sub_one hlow (hweight h)) fun first hfirst => ?_
  refine .bind (P := fun last => last.toInt = highest coeffs + 1)
    (.lift (fun last h => hhigh ▸ Word.add_eq_ok_iff.1 h)
      fun h => exists_add_one hhigh (hweight h)) fun last hlast => ?_
  have hends : lowest coeffs - 1 ≤ highest coeffs + 1 := by
    have hnonpos := lowest_nonpos coeffs
    have hnonneg := highest_nonneg coeffs
    omega
  obtain ⟨hlo, _⟩ := Word.fits_toInt first
  obtain ⟨_, hhi⟩ := Word.fits_toInt last
  refine .bind (P := fun x : Int => lowest coeffs - 1 ≤ x ∧ x ≤ highest coeffs + 1)
    (yields_range.mono (fun _ => by omega) fun x hx => ?_) fun x ⟨hge, hle⟩ => ?_
  · rw [← hfirst, ← hlast]
    refine hx (Or.inr ?_)
    rw [Draw.Width.size]
    omega
  · exact hf x (Word.toInt_ofInt_of_fits ⟨by omega, by omega⟩) hge hle

/-- A random instance is one over the variables of its pool, and leaves them in another order. -/
theorem yields_randomInstance (hpool : pool.Perm vars) (hnodup : vars.Nodup)
    (hlength : vars.length < 0x100000000) :
    Yields (Drawable magnitude vars) (randomInstance label family magnitude pool)
      fun r => IsRandom label family magnitude vars r.1 ∧ r.2.Perm vars := by
  rw [randomInstance]
  refine .bind (P := fun n : Int => 1 ≤ n ∧ n ≤ vars.length) (yields_range.mono (fun h => ?_)
    fun n hn => ?_) fun n ⟨hpos, hle⟩ => ?_
  · have hpos := h.length_pos
    rw [hpool.length_eq]
    omega
  · rw [← hpool.length_eq]
    refine hn (Or.inl ?_)
    rw [Draw.Width.size, hpool.length_eq]
    omega
  refine .bind (yields_shuffle pool) fun pool' hshuffle => ?_
  have hperm := hshuffle.trans hpool
  have hvars : (pool'.take n.toNat).length = n.toNat := by
    rw [List.length_take, hperm.length_eq]
    omega
  refine .bind ((yields_coeffs n.toNat).mono Drawable.magnitude_nonneg fun _ => id)
    fun coeffs ⟨hpaired, hcoeffs⟩ => ?_
  refine yields_degree (fun h => h.weight_le (by omega) hcoeffs) fun x hdegree hge hle' => ?_
  refine .bind yields_coin fun coin _ => ?_
  refine .bind (P := IsRandom label family magnitude vars) (.lift (fun i hi => ?_) fun _ => ?_)
    fun i hi => .pure ⟨hi, hperm⟩
  · obtain ⟨hname, hcoeffs', hvars', hdegree', hrelation, hside⟩ := Instance.make_eq_ok.1 hi
    rw [← hdegree'] at hdegree
    subst hcoeffs'
    refine ⟨?_, ?_, ?_, ?_, hcoeffs, ?_, ?_, hside⟩
    · rw [hname, hrelation, hvars', hvars, hdegree']
    · rw [hvars', hvars]
      omega
    · rw [hvars']
      exact (hperm.nodup_iff.2 hnodup).sublist (List.take_sublist _ _)
    · rw [hvars']
      exact fun v hv => hperm.mem_iff.1 (List.mem_of_mem_take hv)
    · omega
    · omega
  · exact Instance.exists_make _ _ _ (hpaired.trans hvars.symm)

/-- Random instances are numbered, and all over the same variables. -/
theorem yields_randomFrom (hnodup : vars.Nodup) (hlength : vars.length < 0x100000000)
    (count index : Nat) (hpool : pool.Perm vars) :
    Yields (Drawable magnitude vars) (randomFrom label family magnitude count index pool)
      (List.Forall₂ (fun k => IsRandom label (family ++ toString k) magnitude vars)
        (List.range' index count)) := by
  induction count generalizing index pool with
  | zero => exact .pure .nil
  | succ count ih =>
    rw [List.range'_succ]
    refine .bind (yields_randomInstance hpool hnodup hlength) fun (i, pool') ⟨hi, hpool'⟩ => ?_
    exact .bind (ih (index + 1) hpool') fun instances hinstances => .pure (.cons hi hinstances)

/-! ### Families -/

/-- Without variables a random family draws nothing. -/
theorem randomized_of_zero {config : FamilyConfig} (h : config.randomMaxVars = 0) (count : Nat) :
    randomized config label family count magnitude = pure [] := by
  rw [randomized, h]
  rfl

/-- With variables a random family takes room for its instances and draws them. -/
theorem randomized_of_ne {config : FamilyConfig} (h : config.randomMaxVars ≠ 0) (count : Nat) :
    randomized config label family count magnitude = (do
      randomFrom label family magnitude (← Room.take count) 0 (Var.range config.randomMaxVars)) := by
  rw [randomized]
  split
  · next hnil =>
    have hlength := Var.length_range config.randomMaxVars
    rw [hnil, List.length_nil] at hlength
    exact absurd (UInt32.toNat_inj.1 hlength.symm) h
  · rfl

/-- The numbers of the random instances of a family: none if there are no variables. -/
def randomNumbers (config : FamilyConfig) (count : Nat) : List Nat :=
  if config.randomMaxVars = 0 then [] else List.range' 0 count

theorem length_randomNumbers (config : FamilyConfig) (count : Nat) :
    (randomNumbers config count).length = if config.randomMaxVars = 0 then 0 else count := by
  rw [randomNumbers]
  split
  · rfl
  · exact List.length_range'

/-- A random family yields as many instances as are asked for, unless there are no variables. -/
theorem yields_randomized (config : FamilyConfig) (count : Nat) :
    Yields ((Drawable magnitude (Var.range config.randomMaxVars) ∨ config.randomMaxVars = 0) ∧
        (randomNumbers config count).length ≤ Room.limit)
      (randomized config label family count magnitude)
      (List.Forall₂ (fun k => IsRandom label (family ++ toString k) magnitude
        (Var.range config.randomMaxVars)) (randomNumbers config count)) := by
  by_cases hzero : config.randomMaxVars = 0
  · rw [randomized_of_zero hzero, randomNumbers, if_pos hzero]
    exact .pure .nil
  · rw [randomized_of_ne hzero, length_randomNumbers, if_neg hzero, randomNumbers, if_neg hzero]
    refine .bind (P := (count = ·)) (.lift (fun _ h => (Room.take_eq_ok.1 h).2)
      fun h => ⟨count, Room.take_eq_ok.2 ⟨h.2, rfl⟩⟩) fun room hroom => ?_
    have hlength := Var.length_range config.randomMaxVars
    have hlt := config.randomMaxVars.toNat_lt
    rw [← hroom]
    exact (yields_randomFrom (Var.nodup_range _) (by omega) count 0 (.refl _)).mono
      (fun h => h.1.resolve_right hzero) fun _ => id

/-- A random family of more instances than a list has room for is refused before it draws. -/
theorem randomized_of_lt {config : FamilyConfig} {count : Nat}
    (h : Room.limit < (randomNumbers config count).length) (s : Stream) :
    randomized config label family count magnitude s = .error .capacity := by
  rw [length_randomNumbers] at h
  split at h
  · exact absurd h (Nat.not_lt_zero _)
  · next hne =>
    rw [randomized_of_ne hne]
    refine Draw.bind_of_error ?_ _
    rw [Room.take_eq_error.2 ⟨h, rfl⟩]
    rfl

end Random

end Family

end PseudoBoolean
