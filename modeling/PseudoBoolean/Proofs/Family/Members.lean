import PseudoBoolean.Instance.Suite
import PseudoBoolean.Proofs.Random
import PseudoBoolean.Proofs.Room
import PseudoBoolean.Proofs.Small

/-!
The members of the families.

Each family makes its members one after the other from a few numbers, and what it makes of them is
all that is known of a member: the name, the coefficients and their variables, the degree
(`IsUniform`, `IsBinary`, `IsRandom`, `IsScaling`). A family that answers gives just such members,
related one by one to the numbers that they were made from, and it answers if no product, sum or
shift leaves its word and a list has room for the members.
-/

namespace PseudoBoolean

/-! ### Lists of members -/

section Lists
variable {ε α β γ : Type}

/-- A table is filled row by row. -/
theorem forall₂_of_table {f : α → β → Except ε γ} {R : α × β → γ → Prop} {as : List α} {bs : List β}
    {rows : List (List γ)} (hR : ∀ a ∈ as, ∀ b ∈ bs, ∀ c, f a b = .ok c → R (a, b) c)
    (h : (as.mapM fun a => bs.mapM (f a)) = .ok rows) :
    List.Forall₂ R (as ×ˢ bs) rows.flatten := by
  have hrows : List.Forall₂ (fun a row => List.Forall₂ R (bs.map (Prod.mk a)) row) as rows := by
    have hmem := (List.forall₂_and_left _ _).2 ⟨fun _ ha => ha, mapM_eq_ok.1 h⟩
    refine hmem.imp fun a row ⟨ha, hrow⟩ => List.forall₂_map_left_iff.2 ?_
    have hmem := (List.forall₂_and_left _ _).2 ⟨fun _ hb => hb, mapM_eq_ok.1 hrow⟩
    exact hmem.imp fun b c ⟨hb, hc⟩ => hR a ha b hb c hc
  exact List.rel_flatten (List.forall₂_map_left_iff.2 hrows)

theorem exists_table {f : α → β → Except ε γ} {as : List α} {bs : List β}
    (h : ∀ a ∈ as, ∀ b ∈ bs, ∃ c, f a b = .ok c) :
    ∃ rows, (as.mapM fun a => bs.mapM (f a)) = .ok rows := by
  have hrow : ∀ a ∈ as, ∃ row, bs.mapM (f a) = .ok row ∧ True := by
    intro a ha
    obtain ⟨row, hrow, _⟩ := exists_mapM (R := fun _ _ => True) fun b hb =>
      (h a ha b hb).imp fun c hc => ⟨hc, trivial⟩
    exact ⟨row, hrow, trivial⟩
  obtain ⟨rows, hrows, _⟩ := exists_mapM hrow
  exact ⟨rows, hrows⟩

end Lists

section Make
variable {i : Instance} {label : String} {coeffs : List Int64} {vars : List Var} {degree : Int64}
  {relation : Relation}

/-- An instance is made of what it is given, if that pairs up. -/
theorem Instance.make_eq_ok : Instance.make label coeffs vars degree relation = .ok i ↔
    i.name = label ∧ i.coeffs = coeffs ∧ i.vars = vars ∧ i.degree = degree ∧
      i.relation = relation ∧ i.sideRows = [] := by
  obtain ⟨name', coeffs', vars', degree', relation', sideRows', hpaired⟩ := i
  simp only [Instance.make]
  split
  · simp only [Except.ok.injEq, Instance.mk.injEq]
    constructor <;> rintro ⟨rfl, rfl, rfl, rfl, rfl, rfl⟩ <;> exact ⟨rfl, rfl, rfl, rfl, rfl, rfl⟩
  · next hnot =>
    refine ⟨nofun, ?_⟩
    rintro ⟨_, rfl, rfl, _⟩
    exact absurd hpaired hnot

theorem Instance.exists_make (label : String) (degree : Int64) (relation : Relation)
    (h : coeffs.length = vars.length) :
    ∃ i, Instance.make label coeffs vars degree relation = .ok i :=
  ⟨_, dif_pos h⟩

end Make

theorem Word.toInt_pow (bit : Nat) (h : bit < 63) :
    (Int64.ofNat (Nat.pow 2 bit)).toInt = 2 ^ bit := by
  have hlt : Nat.pow 2 bit < 2 ^ 63 := Nat.pow_lt_pow_right (by decide) h
  rw [Int64.toInt_ofNat_of_lt hlt]
  exact Int.natCast_pow 2 bit

namespace Family

/-! ### Integers -/

theorem mem_integers {lo hi x : Int} : x ∈ integers lo hi ↔ lo ≤ x ∧ x ≤ hi := by
  simp only [integers, List.mem_map, List.mem_range]
  constructor
  · rintro ⟨k, hk, rfl⟩
    omega
  · intro h
    exact ⟨(x - lo).toNat, by omega, by omega⟩

theorem nodup_integers (lo hi : Int) : (integers lo hi).Nodup :=
  List.nodup_range.map fun a b h => by simpa using h

theorem length_integers (lo hi : Int) : (integers lo hi).length = (hi - lo + 1).toNat := by
  rw [integers, List.length_map, List.length_range]

/-! ### Equal coefficients -/

/-- Whether an instance is the sum of the first variables of a pool, with one coefficient, against
a multiple of that coefficient. The numbers are those of the variables and the multiple; a negated
family has `sign` -1. -/
structure IsUniform (config : FamilyConfig) (label family : String) (relation : Relation)
    (factor : Int64) (sign : Int) (numbers : Int × Int) (i : Instance) : Prop where
  count_nonneg : 0 ≤ numbers.1
  name_eq : ∃ degree : Int64, degree.toInt = numbers.2 * factor.toInt ∧
    i.name = name label relation family numbers.1.toNat degree
  coeffs_eq : ∃ coeff : Int64, coeff.toInt = sign * factor.toInt ∧
    i.coeffs = List.replicate numbers.1.toNat coeff
  vars_eq : i.vars = (Var.range config.maxVars).take numbers.1.toNat
  degree_eq : i.degree.toInt = sign * (numbers.2 * factor.toInt)
  relation_eq : i.relation = relation
  sideRows_eq : i.sideRows = []

section Uniform
variable {config : FamilyConfig} {label : String} {relation : Relation} {factor : Int64}
  {minVars : UInt32} {instances : List Instance} {n d : Int}

section Member
variable {family : String} {sign : Int} {numbers : Int × Int} {i : Instance}

theorem IsUniform.id_le (h : IsUniform config label family relation factor sign numbers i) :
    ∀ x ∈ i.vars, x.id ≤ config.maxVars := by
  intro x hx
  rw [h.vars_eq] at hx
  exact Var.mem_range.1 (List.mem_of_mem_take hx)

theorem IsUniform.nodup_vars
    (h : IsUniform config label family relation factor sign numbers i) : i.vars.Nodup := by
  rw [h.vars_eq]
  exact (Var.nodup_range _).sublist (List.take_sublist _ _)

/-- A member is small if the products of its family are words. -/
theorem IsUniform.isSmall (h : IsUniform config label family relation factor sign numbers i)
    (hvars : config.maxVars ≤ 24) (hsign : sign.natAbs = 1)
    (hfits : max config.maxVars.toNat 1 * factor.toInt.natAbs ≤ Word.largest) : i.IsSmall := by
  have hsum : config.maxVars.toNat * factor.toInt.natAbs ≤ Word.largest :=
    Nat.le_trans (Nat.mul_le_mul_right _ (le_max_left _ 1)) hfits
  obtain ⟨coeff, hcoeff, hcoeffs⟩ := h.coeffs_eq
  refine Instance.isSmall_of_le hvars hsum h.id_le h.nodup_vars (fun c hc => ?_)
    (by simp [h.sideRows_eq])
  rw [hcoeffs] at hc
  rw [List.eq_of_mem_replicate hc, hcoeff, Int.natAbs_mul, hsign, one_mul]

end Member

theorem toInt_ofInt_of_mem {lo : Int} (hlo : -1 ≤ lo)
    (hd : d ∈ integers lo config.maxVars.toNat) : (Int64.ofInt d).toInt = d := by
  have hle := mem_integers.1 hd
  have hlt := config.maxVars.toNat_lt
  refine Word.toInt_ofInt_of_fits ⟨?_, ?_⟩ <;> omega

/-- The degrees fit if the last of them does. -/
theorem exists_degree {lo : Int} (hlo : -1 ≤ lo)
    (hfits : max config.maxVars.toNat 1 * factor.toInt.natAbs ≤ Word.largest)
    (hd : d ∈ integers lo config.maxVars.toNat) :
    ∃ degree, Word.mul (Int64.ofInt d) factor = .ok degree ∧
      degree.toInt.natAbs ≤ Word.largest := by
  have hle := mem_integers.1 hd
  have habs : (d * factor.toInt).natAbs ≤ max config.maxVars.toNat 1 * factor.toInt.natAbs := by
    rw [Int.natAbs_mul]
    exact Nat.mul_le_mul_right _ (by omega)
  obtain ⟨degree, hdegree, hvalue⟩ :=
    Word.exists_checked .multiply (Nat.le_trans habs hfits)
  refine ⟨degree, ?_, hvalue ▸ Nat.le_trans habs hfits⟩
  rw [Word.mul, toInt_ofInt_of_mem hlo hd]
  exact hdegree

/-- The pool has a variable for each coefficient. -/
theorem length_replicate (hn : n ∈ integers minVars.toNat config.maxVars.toNat) (coeff : Int64) :
    (List.replicate n.toNat coeff).length = ((Var.range config.maxVars).take n.toNat).length := by
  have hle := mem_integers.1 hn
  rw [List.length_replicate, List.length_take, Var.length_range]
  omega

/-- A table becomes a list without a change, if a list has room for it. -/
theorem eq_flatten_of_listed {rows : List (List Instance)} (h : listed rows = .ok instances) :
    instances = rows.flatten := by
  obtain ⟨_, _, h⟩ := bind_eq_ok.1 h
  exact (pure_eq_ok.1 h).symm

theorem exists_listed {rows : List (List Instance)} (h : 2 * rows.flatten.length ≤ Room.limit) :
    ∃ instances, listed rows = .ok instances :=
  exists_bind_pure.2 (Room.exists_fillNew_ones h)

/-- A table is filled and listed if each of its members can be made. -/
theorem exists_listed_table {f : Int → Int → Checked Instance} {lo : Int} (hlo : -1 ≤ lo)
    (hroom : 2 * ((config.maxVars.toNat + 1) * (config.maxVars.toNat + 2)) ≤ Room.limit)
    (h : ∀ n ∈ integers minVars.toNat config.maxVars.toNat,
      ∀ d ∈ integers lo config.maxVars.toNat, ∃ i, f n d = .ok i) :
    ∃ instances, ((integers minVars.toNat config.maxVars.toNat).mapM (fun n =>
      (integers lo config.maxVars.toNat).mapM (f n)) >>= listed) = .ok instances := by
  obtain ⟨rows, hrows⟩ := exists_table h
  have hsize := (forall₂_of_table (R := fun _ _ => True) (fun _ _ _ _ _ _ => trivial) hrows).length_eq
  rw [List.length_product, length_integers, length_integers] at hsize
  have hle : rows.flatten.length ≤ (config.maxVars.toNat + 1) * (config.maxVars.toNat + 2) :=
    hsize ▸ Nat.mul_le_mul (by omega) (by omega)
  have hlength : 2 * rows.flatten.length ≤ Room.limit := by omega
  obtain ⟨instances, hlisted⟩ := exists_listed hlength
  exact ⟨instances, bind_eq_ok.2 ⟨rows, hrows, hlisted⟩⟩

/-- Tables over few variables have room. -/
theorem two_mul_table_le (h : config.maxVars ≤ 24) :
    2 * ((config.maxVars.toNat + 1) * (config.maxVars.toNat + 2)) ≤ Room.limit := by
  have hle := UInt32.le_iff_toNat_le.1 h
  have hsize := Nat.mul_le_mul (Nat.succ_le_succ hle) (Nat.add_le_add_right hle 2)
  exact Nat.le_trans (Nat.mul_le_mul_left 2 hsize) (by decide)

theorem forall₂_base (h : base config label relation factor minVars = .ok instances) :
    List.Forall₂ (IsUniform config label "base" relation factor 1)
      (integers minVars.toNat config.maxVars.toNat ×ˢ integers 0 config.maxVars.toNat)
      instances := by
  obtain ⟨rows, hrows, h⟩ := bind_eq_ok.1 h
  obtain rfl := eq_flatten_of_listed h
  refine forall₂_of_table (fun n hn d hd i h => ?_) hrows
  obtain ⟨degree, hdegree, h⟩ := bind_eq_ok.1 h
  obtain ⟨hname, hcoeffs, hvars, hdeg, hrelation, hside⟩ := Instance.make_eq_ok.1 h
  have hvalue := Word.mul_eq_ok_iff.1 hdegree
  rw [toInt_ofInt_of_mem (by omega) hd] at hvalue
  have hnonneg : 0 ≤ n := Int.le_trans (Int.natCast_nonneg _) (mem_integers.1 hn).1
  exact ⟨hnonneg, ⟨degree, hvalue, hname⟩, ⟨factor, (one_mul _).symm, hcoeffs⟩, hvars,
    by rw [hdeg, hvalue, one_mul], hrelation, hside⟩

theorem exists_base (hfits : max config.maxVars.toNat 1 * factor.toInt.natAbs ≤ Word.largest)
    (hroom : 2 * ((config.maxVars.toNat + 1) * (config.maxVars.toNat + 2)) ≤ Room.limit) :
    ∃ instances, base config label relation factor minVars = .ok instances := by
  refine exists_listed_table (by omega) hroom fun n hn d hd => ?_
  obtain ⟨degree, hdegree, _⟩ := exists_degree (by omega) hfits hd
  obtain ⟨i, hi⟩ := Instance.exists_make (name label relation "base" n.toNat degree) degree relation
    (length_replicate hn factor)
  exact ⟨i, bind_eq_ok.2 ⟨degree, hdegree, hi⟩⟩

theorem forall₂_negated (h : negated config label relation factor minVars = .ok instances) :
    List.Forall₂ (IsUniform config label "neg" relation factor (-1))
      (integers minVars.toNat config.maxVars.toNat ×ˢ integers (-1) config.maxVars.toNat)
      instances := by
  obtain ⟨rows, hrows, h⟩ := bind_eq_ok.1 h
  obtain rfl := eq_flatten_of_listed h
  refine forall₂_of_table (fun n hn d hd i h => ?_) hrows
  obtain ⟨degree, hdegree, h⟩ := bind_eq_ok.1 h
  obtain ⟨coeff, hcoeff, h⟩ := bind_eq_ok.1 h
  obtain ⟨opposite, hopposite, h⟩ := bind_eq_ok.1 h
  obtain ⟨hname, hcoeffs, hvars, hdeg, hrelation, hside⟩ := Instance.make_eq_ok.1 h
  have hvalue := Word.mul_eq_ok_iff.1 hdegree
  rw [toInt_ofInt_of_mem (by omega) hd] at hvalue
  have hnonneg : 0 ≤ n := Int.le_trans (Int.natCast_nonneg _) (mem_integers.1 hn).1
  refine ⟨hnonneg, ⟨degree, hvalue, hname⟩, ⟨coeff, ?_, hcoeffs⟩, hvars, ?_, hrelation, hside⟩
  · rw [Word.neg_eq_ok_iff.1 hcoeff, neg_one_mul]
  · rw [hdeg, Word.neg_eq_ok_iff.1 hopposite, hvalue, neg_one_mul]

theorem exists_negated (hfits : max config.maxVars.toNat 1 * factor.toInt.natAbs ≤ Word.largest)
    (hroom : 2 * ((config.maxVars.toNat + 1) * (config.maxVars.toNat + 2)) ≤ Room.limit) :
    ∃ instances, negated config label relation factor minVars = .ok instances := by
  have hfactor : (-factor.toInt).natAbs ≤ Word.largest := by
    rw [Int.natAbs_neg]
    exact Nat.le_trans (Nat.le_mul_of_pos_left _ (by omega)) hfits
  obtain ⟨coeff, hcoeff, _⟩ := Word.exists_checked .negate hfactor
  refine exists_listed_table (by omega) hroom fun n hn d hd => ?_
  obtain ⟨degree, hdegree, hle⟩ := exists_degree (by omega) hfits hd
  rw [← Int.natAbs_neg] at hle
  obtain ⟨opposite, hopposite, _⟩ := Word.exists_checked .negate hle
  obtain ⟨i, hi⟩ := Instance.exists_make (name label relation "neg" n.toNat degree) opposite relation
    (length_replicate hn coeff)
  exact ⟨i, bind_eq_ok.2 ⟨degree, hdegree, bind_eq_ok.2 ⟨coeff, hcoeff,
    bind_eq_ok.2 ⟨opposite, hopposite, hi⟩⟩⟩⟩

end Uniform

/-! ### Powers of two -/

/-- The weights of the first bits. -/
def bitWeights (bits : Nat) : List Int64 :=
  (List.range bits).map fun bit => Int64.ofNat (Nat.pow 2 bit)

/-- How many degrees a number of bits is put against: none if their bound is negative as a word. -/
def binaryCount (bits : Nat) : Nat := (Int64.ofNat (Nat.pow 2 (bits + 1))).toInt.toNat

theorem binaryCount_eq {bits : Nat} (hbits : bits ≤ 61) : binaryCount bits = 2 ^ (bits + 1) := by
  have hword := Word.toInt_pow (bits + 1) (by omega)
  rw [binaryCount, hword]
  rfl

/-- The degrees against which a number of bits is put. -/
def binaryDegrees (bits : Nat) : List Nat := List.range (binaryCount bits)

/-- Whether an instance is the sum of the bits against a degree. -/
structure IsBinary (config : FamilyConfig) (label : String) (relation : Relation) (degree : Nat)
    (i : Instance) : Prop where
  name_eq : i.name = name label relation "binary" config.binaryBits.toNat i.degree
  coeffs_eq : i.coeffs = bitWeights config.binaryBits.toNat
  vars_eq : i.vars = Var.range config.binaryBits
  degree_eq : i.degree.toInt = degree
  relation_eq : i.relation = relation
  sideRows_eq : i.sideRows = []

section Binary
variable {config : FamilyConfig} {label : String} {relation : Relation} {instances : List Instance}

theorem bitWeight_eq_ok {bit : Nat} {w : Int64} :
    bitWeight bit = .ok w ↔ bit < 64 ∧ Int64.ofNat (Nat.pow 2 bit) = w := by
  rw [bitWeight]
  split <;> simp_all

/-- The bits before a fault are those of a word. -/
theorem mapM_bitWeight_eq_ok {bits : Nat} {coeffs : List Int64} :
    (List.range (min bits 65)).mapM bitWeight = .ok coeffs ↔
      bits ≤ 64 ∧ coeffs = bitWeights bits := by
  rw [mapM_eq_ok]
  simp only [bitWeight_eq_ok]
  rw [List.forall₂_and_left, bitWeights]
  have hbits : (∀ bit ∈ List.range (min bits 65), bit < 64) ↔ bits ≤ 64 := by
    simp only [List.mem_range]
    constructor
    · intro h
      by_contra hnot
      exact absurd (h 64 (by omega)) (by omega)
    · intro h bit hbit
      omega
  rw [hbits]
  refine and_congr_right fun hle => ?_
  rw [Nat.min_eq_left (by omega), ← List.forall₂_map_left_iff (R := Eq), List.forall₂_eq_eq_eq]
  exact eq_comm

theorem forall₂_binary (h : binaryWeights config label relation = .ok instances) :
    List.Forall₂ (IsBinary config label relation) (binaryDegrees config.binaryBits.toNat)
      instances := by
  obtain ⟨coeffs, hcoeffs, h⟩ := bind_eq_ok.1 h
  obtain ⟨bound, hbound, h⟩ := bind_eq_ok.1 h
  obtain ⟨count, hcount, h⟩ := bind_eq_ok.1 h
  obtain ⟨_, rfl⟩ := mapM_bitWeight_eq_ok.1 hcoeffs
  obtain ⟨_, rfl⟩ := bitWeight_eq_ok.1 hbound
  obtain ⟨_, rfl⟩ := Room.take_eq_ok.1 hcount
  have hmem := (List.forall₂_and_left _ _).2 ⟨fun _ hd => hd, mapM_eq_ok.1 h⟩
  refine hmem.imp fun d i ⟨hd, hi⟩ => ?_
  obtain ⟨hname, hcoeffs, hvars, hdegree, hrelation, hside⟩ := Instance.make_eq_ok.1 hi
  refine ⟨by rw [hname, hdegree], hcoeffs, hvars, ?_, hrelation, hside⟩
  have hlt := List.mem_range.1 hd
  have hword := (Int64.ofNat (Nat.pow 2 (config.binaryBits.toNat + 1))).toInt_lt
  rw [hdegree, Int64.toInt_ofNat_of_lt (by omega)]

theorem exists_binary (hbits : config.binaryBits.toNat < 63)
    (hroom : binaryCount config.binaryBits.toNat ≤ Room.limit) :
    ∃ instances, binaryWeights config label relation = .ok instances := by
  have hmember : ∀ d ∈ binaryDegrees config.binaryBits.toNat, ∃ i,
      Instance.make (name label relation "binary" config.binaryBits.toNat (Int64.ofNat d))
        (bitWeights config.binaryBits.toNat) (Var.range config.binaryBits) (Int64.ofNat d)
        relation = .ok i ∧ True := by
    intro d _
    have hpair : (bitWeights config.binaryBits.toNat).length =
        (Var.range config.binaryBits).length := by
      rw [bitWeights, List.length_map, List.length_range, Var.length_range]
    exact (Instance.exists_make _ _ relation hpair).imp fun i hi => ⟨hi, trivial⟩
  obtain ⟨instances, hinstances, _⟩ := exists_mapM hmember
  exact ⟨instances, bind_eq_ok.2 ⟨_, mapM_bitWeight_eq_ok.2 ⟨by omega, rfl⟩,
    bind_eq_ok.2 ⟨_, bitWeight_eq_ok.2 ⟨by omega, rfl⟩,
      bind_eq_ok.2 ⟨_, Room.take_eq_ok.2 ⟨hroom, rfl⟩, hinstances⟩⟩⟩⟩

/-- A family of more degrees than a list has room for is refused before any member is made. -/
theorem binary_of_lt (hbits : config.binaryBits.toNat < 63)
    (hroom : Room.limit < binaryCount config.binaryBits.toNat) :
    binaryWeights config label relation = .error .capacity :=
  bind_eq_error.2 <| Or.inr ⟨_, mapM_bitWeight_eq_ok.2 ⟨by omega, rfl⟩,
    bind_eq_error.2 <| Or.inr ⟨_, bitWeight_eq_ok.2 ⟨by omega, rfl⟩,
      bind_eq_error.2 <| Or.inl (Room.take_eq_error.2 ⟨hroom, rfl⟩)⟩⟩

end Binary

/-! ### Pairs -/

/-- Whether an instance asks for more than `n` of `2n` variables, at most one of each pair. -/
structure IsScaling (label : String) (n : Nat) (i : Instance) : Prop where
  name_eq : i.name = name label .geq "scaling" (2 * n) i.degree
  coeffs_eq : i.coeffs = List.replicate (2 * n) 1
  vars_eq : ∃ count : UInt32, count.toNat = 2 * n ∧ i.vars = Var.range count
  degree_eq : i.degree.toInt = n + 1
  relation_eq : i.relation = .geq
  sideRows_eq : List.Forall₂ (fun p row => atMostOne p.1 p.2 = .ok row) (pairs i.vars) i.sideRows

theorem checkedCount_eq_ok {op : Arithmetic} {value : Nat} {count : UInt32} :
    Word.checkedCount op value = .ok count ↔ count.toNat = value := by
  have hlt := count.toNat_lt
  rw [Word.checkedCount]
  split
  · next h =>
    rw [Except.ok.injEq, ← UInt32.toNat_inj, UInt32.toNat_ofNat_of_lt' h, eq_comm]
  · exact ⟨nofun, fun h => by omega⟩

theorem isScaling_of_scaling {label : String} {n : UInt32} {i : Instance}
    (h : scaling label n = .ok i) : IsScaling label n.toNat i := by
  obtain ⟨count, hcount, h⟩ := bind_eq_ok.1 h
  obtain ⟨rows, hrows, h⟩ := bind_eq_ok.1 h
  obtain ⟨made, hmade, h⟩ := bind_eq_ok.1 h
  obtain rfl := pure_eq_ok.1 h
  obtain ⟨hname, hcoeffs, hvars, hdegree, hrelation, -⟩ := Instance.make_eq_ok.1 hmade
  have hcount := checkedCount_eq_ok.1 hcount
  have hlength : (Var.range count).length = 2 * n.toNat := (Var.length_range count).trans hcount
  have hn := n.toNat_lt
  have hfits : Word.Fits (n.toNat + 1) := ⟨by omega, by omega⟩
  refine ⟨?_, ?_, ⟨count, hcount, hvars⟩, ?_, hrelation, ?_⟩
  · show made.name = name label .geq "scaling" _ made.degree
    rw [hname, hdegree, hlength]
  · exact hcoeffs.trans (by rw [hlength])
  · exact (congrArg Int64.toInt hdegree).trans (Word.toInt_ofInt_of_fits hfits)
  · show List.Forall₂ _ (pairs made.vars) rows
    rw [hvars]
    exact mapM_eq_ok.1 hrows

theorem exists_atMostOne (v w : Var) :
    ∃ row, atMostOne v w = .ok row ∧ Term.weight row.terms ≤ 2 := by
  refine Constraint.exists_normalize ?_
  show 3 ≤ Word.largest
  decide

theorem exists_scaling {label : String} {n : UInt32} (h : 2 * n.toNat < 0x100000000) :
    ∃ i, scaling label n = .ok i := by
  have hcount : Word.checkedCount .multiply (2 * n.toNat) = .ok (UInt32.ofNat (2 * n.toNat)) :=
    checkedCount_eq_ok.2 (UInt32.toNat_ofNat_of_lt' h)
  obtain ⟨rows, hrows, _⟩ := exists_mapM (R := fun _ _ => True) (f := fun p : Var × Var =>
      atMostOne p.1 p.2) (l := pairs (Var.range (UInt32.ofNat (2 * n.toNat))))
    fun p _ => (exists_atMostOne p.1 p.2).imp fun _ h => ⟨h.1, trivial⟩
  obtain ⟨made, hmade⟩ := Instance.exists_make (name label .geq "scaling"
    (Var.range (UInt32.ofNat (2 * n.toNat))).length (Int64.ofInt (n.toNat + 1)))
    (Int64.ofInt (n.toNat + 1)) .geq
    (List.length_replicate (n := (Var.range (UInt32.ofNat (2 * n.toNat))).length) (a := 1))
  exact ⟨_, bind_eq_ok.2 ⟨_, hcount, bind_eq_ok.2 ⟨rows, hrows, bind_eq_ok.2 ⟨made, hmade, rfl⟩⟩⟩⟩

end Family

end PseudoBoolean
