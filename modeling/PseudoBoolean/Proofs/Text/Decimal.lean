import PseudoBoolean.Proofs.Text.Line
import PseudoBoolean.Text.Decimal

/-!
Numerals come back as they were written.

The numeral of a word is read as that word, the extremes of its range included, and consists of
digits after at most one sign.
-/

namespace PseudoBoolean.Decimal

/-! ### Digits -/

/-- A character of a number's digits is an ASCII digit. -/
theorem isDigit_of_mem_repr {n : Nat} {c : Char} (h : c ∈ n.repr.toList) : c.isDigit = true := by
  rw [Nat.toList_repr] at h
  exact Nat.isDigit_of_mem_toDigits (by decide) (by decide) h

theorem toNat_of_isDigit {c : Char} (h : c.isDigit = true) : 48 ≤ c.toNat ∧ c.toNat ≤ 57 := by
  simpa [Char.isDigit, UInt32.le_iff_toNat_le] using h

theorem repr_ne_nil (n : Nat) : n.repr.toList ≠ [] := by
  rw [Nat.toList_repr]
  exact Nat.toDigits_ne_nil

/-- Whether digits stand for a number; zeros may lead. -/
def IsNatural (n : Nat) (ds : List Char) : Prop :=
  ds ≠ [] ∧ (∀ c ∈ ds, c.isDigit = true) ∧ Nat.ofDigitChars 10 ds 0 = n

theorem isNatural_repr (n : Nat) : IsNatural n n.repr.toList := by
  refine ⟨repr_ne_nil n, fun c hc => isDigit_of_mem_repr hc, ?_⟩
  rw [Nat.toList_repr, Nat.ofDigitChars_ten_toDigits]

theorem natural?_eq_some {n : Nat} {ds : List Char} : natural? ds = some n ↔ IsNatural n ds := by
  simp only [natural?, IsNatural]
  split
  · next h =>
    have hdigits := List.all_eq_true.1 h.2
    simp only [Option.some.injEq]
    exact ⟨fun e => ⟨h.1, hdigits, e⟩, fun ⟨_, _, e⟩ => e⟩
  · next h =>
    constructor
    · exact nofun
    · rintro ⟨hne, hdigits, _⟩
      exact absurd ⟨hne, List.all_eq_true.2 hdigits⟩ h

/-- Digits without a sign are read as they stand. -/
theorem unsigned?_of_isNatural {n : Nat} {ds : List Char} (h : IsNatural n ds) :
    unsigned? ds = some n := by
  simp only [unsigned?]
  split
  · exact absurd (h.2.1 '+' (List.mem_cons_self ..)) (by decide)
  · exact natural?_eq_some.2 h

theorem integer?_of_isNatural {n : Nat} {ds : List Char} (h : IsNatural n ds) :
    integer? ds = some (n : Int) := by
  simp only [integer?]
  split
  · exact absurd (h.2.1 '-' (List.mem_cons_self ..)) (by decide)
  · exact absurd (h.2.1 '+' (List.mem_cons_self ..)) (by decide)
  · rw [natural?_eq_some.2 h]
    rfl

/-! ### Integers -/

theorem integer?_minus (ds : List Char) :
    integer? ('-' :: ds) = (natural? ds).map fun n : Nat => -(n : Int) := by
  cases h : natural? ds <;> simp [integer?, h]

theorem integer?_plus (ds : List Char) : integer? ('+' :: ds) = (natural? ds).map Int.ofNat := by
  simp [integer?]

/-- The numerals of an integer: its digits, after a sign at will. -/
inductive IsInteger : Int → List Char → Prop
  | plain {n ds} (h : IsNatural n ds) : IsInteger n ds
  | plus {n ds} (h : IsNatural n ds) : IsInteger n ('+' :: ds)
  | minus {n ds} (h : IsNatural n ds) : IsInteger (-n) ('-' :: ds)

theorem integer?_eq_some {n : Int} {cs : List Char} : integer? cs = some n ↔ IsInteger n cs := by
  constructor
  · intro h
    unfold integer? at h
    split at h
    · next ds =>
      have hminus : integer? ('-' :: ds) = some n := h
      rw [integer?_minus] at hminus
      obtain ⟨m, hm, rfl⟩ := Option.map_eq_some_iff.1 hminus
      exact .minus (natural?_eq_some.1 hm)
    · obtain ⟨m, hm, rfl⟩ := Option.map_eq_some_iff.1 h
      exact .plus (natural?_eq_some.1 hm)
    · obtain ⟨m, hm, rfl⟩ := Option.map_eq_some_iff.1 h
      exact .plain (natural?_eq_some.1 hm)
  · intro h
    cases h with
    | plain h => exact integer?_of_isNatural h
    | plus h =>
      rw [integer?_plus, natural?_eq_some.2 h]
      rfl
    | minus h =>
      rw [integer?_minus, natural?_eq_some.2 h]
      rfl

/-- A character of a numeral is a digit or a sign. -/
theorem IsInteger.mem {n : Int} {cs : List Char} (h : IsInteger n cs) {c : Char} (hc : c ∈ cs) :
    c.isDigit = true ∨ c = '+' ∨ c = '-' := by
  cases h with
  | plain h => exact Or.inl (h.2.1 c hc)
  | plus h =>
    rcases List.mem_cons.1 hc with rfl | hc
    · exact Or.inr (Or.inl rfl)
    · exact Or.inl (h.2.1 c hc)
  | minus h =>
    rcases List.mem_cons.1 hc with rfl | hc
    · exact Or.inr (Or.inr rfl)
    · exact Or.inl (h.2.1 c hc)

theorem IsInteger.ne_nil {n : Int} {cs : List Char} (h : IsInteger n cs) : cs ≠ [] := by
  cases h with
  | plain h => exact h.1
  | plus => exact nofun
  | minus => exact nofun

/-- A numeral is one word. -/
theorem IsInteger.isWord {n : Int} {cs : List Char} (h : IsInteger n cs) : Text.IsWord cs := by
  refine ⟨h.ne_nil, fun c hc => ?_⟩
  rcases h.mem hc with hdigit | rfl | rfl
  · have hrange := toNat_of_isDigit hdigit
    exact Text.isBlank_eq_false (by omega) (by omega)
  · decide
  · decide

theorem IsNatural.isWord {n : Nat} {ds : List Char} (h : IsNatural n ds) : Text.IsWord ds :=
  (IsInteger.plain h).isWord

/-- The numeral of an integer is its digits, after a minus if it is negative. -/
theorem toList_ofInt (n : Int) :
    (ofInt n).toList = if 0 ≤ n then n.toNat.repr.toList else '-' :: (-n).toNat.repr.toList := by
  rw [ofInt, Int.toString_eq_repr, Int.repr_eq_if]
  split
  · rfl
  · rw [String.toList_append]
    rfl

theorem toList_signed (n : Int) :
    (signed n).toList =
      if 0 ≤ n then '+' :: n.toNat.repr.toList else '-' :: (-n).toNat.repr.toList := by
  have hnum := toList_ofInt n
  rw [ofInt] at hnum
  rw [signed, String.toList_append, hnum]
  split <;> rfl

theorem isInteger_ofInt (n : Int) : IsInteger n (ofInt n).toList := by
  rw [toList_ofInt]
  split
  · next hn =>
    have h := IsInteger.plain (isNatural_repr n.toNat)
    rwa [Int.toNat_of_nonneg hn] at h
  · next hn =>
    have h := IsInteger.minus (isNatural_repr (-n).toNat)
    rwa [Int.toNat_of_nonneg (by omega), Int.neg_neg] at h

theorem isInteger_signed (n : Int) : IsInteger n (signed n).toList := by
  rw [toList_signed]
  split
  · next hn =>
    have h := IsInteger.plus (isNatural_repr n.toNat)
    rwa [Int.toNat_of_nonneg hn] at h
  · next hn =>
    have h := IsInteger.minus (isNatural_repr (-n).toNat)
    rwa [Int.toNat_of_nonneg (by omega), Int.neg_neg] at h

/-! ### Words -/

/-- Digits within the range of an unsigned word are read as that word. -/
theorem uint32?_of_isNatural {n : UInt32} {ds : List Char} (h : IsNatural n.toNat ds) :
    uint32? (String.ofList ds) = some n := by
  rw [uint32?, String.toList_ofList, unsigned?_of_isNatural h, Option.bind_some, if_pos n.toNat_lt,
    UInt32.ofNat_toNat]

/-- A numeral of a signed word is read as that word. -/
theorem int64?_of_isInteger {numeral : String} {a : Int64}
    (h : IsInteger a.toInt numeral.toList) : int64? numeral = some a := by
  rw [int64?, integer?_eq_some.2 h, Option.bind_some, if_pos (Word.fits_toInt a),
    Int64.ofInt_toInt]

theorem int32?_of_isInteger {numeral : String} {a : Int32}
    (h : IsInteger a.toInt numeral.toList) : int32? numeral = some a := by
  rw [int32?, integer?_eq_some.2 h, Option.bind_some, if_pos ⟨a.le_toInt, a.toInt_lt⟩,
    Int32.ofInt_toInt]

end PseudoBoolean.Decimal
