import PseudoBoolean.Proofs.Opb.Reader
import PseudoBoolean.Proofs.Text.Decimal
import PseudoBoolean.Proofs.Text.Line

/-!
Statements and the words that spell them.

    statement  =  "min:" terms  |  terms sign integer
    terms      =  (integer literal) *
    literal    =  "x" digits  |  "~x" digits

An integer may carry a sign, and zeros may lead the digits. However it is spelled, a statement is
read as what it says (`Opb.readStatements_objective`, `Opb.readStatements_row`). Every word is made
of plain characters: none is a blank, a semicolon or a star.
-/

namespace PseudoBoolean

/-! ### Spellings -/

/-- Whether a word names a literal. -/
def Lit.IsName (l : Lit) (w : String) : Prop :=
  ∃ ds, Decimal.IsNatural l.var.id.toNat ds ∧
    w.toList = if l.isNegative then '~' :: 'x' :: ds else 'x' :: ds

/-- The words that spell a term list. -/
inductive Term.Spelled : List Term → List String → Prop
  | nil : Spelled [] []
  | cons {t terms coeff literal words} (hcoeff : Decimal.IsInteger t.coeff.toInt coeff.toList)
      (hlit : t.lit.IsName literal) (hterms : Spelled terms words) :
      Spelled (t :: terms) (coeff :: literal :: words)

namespace Opb

/-- The word of a constraint sign. -/
def Sign.word : Sign → String
  | geq => ">="
  | eq => "="
  | leq => "<="

/-- A statement as it is written: terms to minimize, or terms compared with a degree. -/
inductive Written where
  | objective (terms : List Term)
  | row (terms : List Term) (sign : Sign) (degree : Int64)

/-- The words that spell a statement. -/
inductive Written.Spelled : Written → List String → Prop
  | objective {terms words} (hterms : Term.Spelled terms words) :
      Spelled (.objective terms) ("min:" :: words)
  | row {terms sign degree words numeral} (hterms : Term.Spelled terms words)
      (hdegree : Decimal.IsInteger degree.toInt numeral.toList) :
      Spelled (.row terms sign degree) (words ++ [sign.word, numeral])

/-! ### Plain words -/

/-- A character that neither separates words nor begins a comment. -/
def IsPlain (c : Char) : Prop := 0x20 < c.toNat ∧ c.toNat < 0x7F ∧ c ≠ ';' ∧ c ≠ '*'

/-- A word of a statement. -/
def IsWord (w : String) : Prop := w.toList ≠ [] ∧ ∀ c ∈ w.toList, IsPlain c

instance (c : Char) : Decidable (IsPlain c) := inferInstanceAs (Decidable (_ ∧ _))

-- decided over the characters of the word, not over all characters
instance (w : String) : Decidable (IsWord w) :=
  haveI := List.decidableBAll IsPlain w.toList
  instDecidableAnd

theorem isPlain_of_isDigit {c : Char} (h : c.isDigit = true) : IsPlain c := by
  have hrange := Decimal.toNat_of_isDigit h
  refine ⟨by omega, by omega, ?_, ?_⟩ <;> rintro rfl <;> revert hrange <;> decide

theorem isBlank_of_isPlain {c : Char} (h : IsPlain c) : Text.isBlank c = false :=
  Text.isBlank_eq_false h.1 h.2.1

theorem IsWord.isWord {w : String} (h : IsWord w) : Text.IsWord w.toList :=
  ⟨h.1, fun c hc => isBlank_of_isPlain (h.2 c hc)⟩

/-- No word is the end of a statement. -/
theorem semicolon_ne {w : String} (h : IsWord w) : (w == ";") = false := by
  rw [beq_eq_false_iff_ne]
  rintro rfl
  exact absurd (h.2 ';' (by decide)) (by decide)

theorem isWord_of_isInteger {n : Int} {w : String} (h : Decimal.IsInteger n w.toList) :
    IsWord w := by
  refine ⟨h.ne_nil, fun c hc => ?_⟩
  rcases h.mem hc with hdigit | rfl | rfl
  · exact isPlain_of_isDigit hdigit
  · decide
  · decide

/-- The characters of a literal's name. -/
theorem mem_of_isName {l : Lit} {w : String} (h : l.IsName w) {c : Char} (hc : c ∈ w.toList) :
    c.isDigit = true ∨ c = '~' ∨ c = 'x' := by
  obtain ⟨ds, hds, hw⟩ := h
  rw [hw] at hc
  split at hc <;> simp only [List.mem_cons] at hc
  · rcases hc with rfl | rfl | hc
    · exact Or.inr (Or.inl rfl)
    · exact Or.inr (Or.inr rfl)
    · exact Or.inl (hds.2.1 c hc)
  · rcases hc with rfl | hc
    · exact Or.inr (Or.inr rfl)
    · exact Or.inl (hds.2.1 c hc)

theorem isWord_of_isName {l : Lit} {w : String} (h : l.IsName w) : IsWord w := by
  refine ⟨?_, fun c hc => ?_⟩
  · obtain ⟨ds, _, hw⟩ := h
    rw [hw]
    split <;> exact nofun
  · rcases mem_of_isName h hc with hdigit | rfl | rfl
    · exact isPlain_of_isDigit hdigit
    · decide
    · decide

section Terms
variable {terms : List Term} {words : List String}

theorem isWord_of_mem_terms (h : Term.Spelled terms words) : ∀ w ∈ words, IsWord w := by
  induction h with
  | nil => exact nofun
  | cons hcoeff hlit _ ih =>
    intro w hw
    simp only [List.mem_cons] at hw
    rcases hw with rfl | rfl | hw
    · exact isWord_of_isInteger hcoeff
    · exact isWord_of_isName hlit
    · exact ih w hw

/-- A character that is neither a digit nor one of these is in no word of a term. -/
theorem notMem_of_mem_terms (h : Term.Spelled terms words) {c : Char} (hdigit : c.isDigit = false)
    (hsign : c ∉ ['+', '-', '~', 'x']) : ∀ w ∈ words, c ∉ w.toList := by
  simp only [List.mem_cons, List.not_mem_nil, or_false, not_or] at hsign
  induction h with
  | nil => exact nofun
  | cons hcoeff hlit _ ih =>
    intro w hw hc
    simp only [List.mem_cons] at hw
    rcases hw with rfl | rfl | hw
    · rcases hcoeff.mem hc with h | h | h <;> simp_all
    · rcases mem_of_isName hlit hc with h | h | h <;> simp_all
    · exact ih w hw hc

theorem length_terms (h : Term.Spelled terms words) : words.length % 2 = 0 := by
  induction h with
  | nil => rfl
  | cons _ _ _ ih =>
    rw [List.length_cons, List.length_cons]
    omega

/-- No word of a term is a constraint sign: every sign holds an equals sign. -/
theorem ofWord?_of_mem_terms (h : Term.Spelled terms words) :
    ∀ w ∈ words, Sign.ofWord? w = none := by
  intro w hw
  have heq : '=' ∉ w.toList := notMem_of_mem_terms h (by decide) (by decide) w hw
  simp only [Sign.ofWord?]
  split
  · exact absurd (by decide) heq
  · exact absurd (by decide) heq
  · exact absurd (by decide) heq
  · rfl

end Terms

theorem isWord_of_mem_written {statement : Written} {words : List String}
    (h : statement.Spelled words) : ∀ w ∈ words, IsWord w := by
  intro w hw
  cases h with
  | objective hterms =>
    rcases List.mem_cons.1 hw with rfl | hw
    · decide
    · exact isWord_of_mem_terms hterms w hw
  | @row _ sign _ _ _ hterms hdegree =>
    rcases List.mem_append.1 hw with hw | hw
    · exact isWord_of_mem_terms hterms w hw
    · simp only [List.mem_cons, List.not_mem_nil, or_false] at hw
      rcases hw with rfl | rfl
      · cases sign <;> decide
      · exact isWord_of_isInteger hdegree

/-- A row does not begin as an objective does. -/
theorem ne_min_of_mem_row {terms : List Term} {sign : Sign} {degree : Int64} {words : List String}
    (h : (Written.row terms sign degree).Spelled words) : ∀ w ∈ words, w ≠ "min:" := by
  rintro w hw rfl
  cases h with
  | row hterms hdegree =>
    rcases List.mem_append.1 hw with hw | hw
    · exact notMem_of_mem_terms hterms (c := 'm') (by decide) (by decide) _ hw (by decide)
    · simp only [List.mem_cons, List.not_mem_nil, or_false] at hw
      rcases hw with hw | rfl
      · revert hw
        cases sign <;> decide
      · rcases hdegree.mem (c := 'm') (by decide) with h | h | h <;> revert h <;> decide

/-! ### Reading -/

/-- The name of a literal is read as that literal. -/
theorem readLit_of_isName {l : Lit} (coeff : Token) (hr : l.InRange) {literal : Token}
    (h : l.IsName literal.text) : readLit coeff literal = .ok l := by
  obtain ⟨ds, hds, hchars⟩ := h
  have hvar : Var.ofNat? l.var.id.toNat = some l.var :=
    (Var.ofNat?_eq_some l.var.id.toNat_lt).2 rfl
  have hread : (Decimal.uint32? (String.ofList ds)).bind (fun id => Var.ofNat? id.toNat) =
      some l.var := by
    rw [Decimal.uint32?_of_isNatural hds, Option.bind_some, hvar]
  rw [readLit]
  rw [hchars]
  cases hneg : l.isNegative with
  | true =>
    obtain ⟨m, hm, hmvar, hmneg⟩ := Var.exists_neg (Lit.inRange_var.2 hr)
    obtain rfl : m = l := Lit.ext_var hmvar (hmneg.trans hneg.symm)
    simp only [if_true, hread]
    exact lift_eq_ok.2 hm
  | false =>
    have hpos : l.isPositive = true := by
      have hne : l.code.toInt ≠ 0 := fun e => l.code_ne_zero (Int32.toInt_inj.1 e)
      have hnot : ¬ l.code.toInt < 0 := by
        rw [← Lit.isNegative_iff, hneg]
        exact Bool.false_ne_true
      rw [Lit.isPositive_iff]
      omega
    rw [if_neg Bool.false_ne_true]
    split
    next negated name hname =>
      have hsplit : (false, 'x' :: ds) = (negated, name) := hname
      cases hsplit
      simp only [hread]
      exact congrArg Except.ok (Lit.pos_var hpos)

theorem readPairs_of_spelled {terms : List Term} {words : List String}
    (h : Term.Spelled terms words) (hr : ∀ t ∈ terms, t.lit.InRange) {toks : List Token}
    (htoks : toks.map (·.text) = words) : readPairs toks = .ok terms := by
  induction h generalizing toks with
  | nil =>
    obtain rfl : toks = [] := by simpa using htoks
    rfl
  | @cons t terms coeff literal words hcoeff hlit _ ih =>
    obtain ⟨first, later, rfl, hfirst, hlater⟩ := List.map_eq_cons_iff.1 htoks
    obtain ⟨second, rest, rfl, rfl, hrest⟩ := List.map_eq_cons_iff.1 hlater
    have hread := readLit_of_isName first (hr t (List.mem_cons_self ..)) hlit
    have hpairs := ih (fun u hu => hr u (List.mem_cons_of_mem _ hu)) hrest
    simp only [readPairs]
    rw [hfirst, Decimal.int64?_of_isInteger hcoeff]
    exact bind_eq_ok.2 ⟨t.lit, hread, bind_eq_ok.2 ⟨terms, hpairs, rfl⟩⟩

/-- Terms are read from the words that spell them. -/
theorem readTerms_of_spelled {terms : List Term} {words : List String}
    (h : Term.Spelled terms words) (hr : ∀ t ∈ terms, t.lit.InRange) {toks : List Token}
    (htoks : toks.map (·.text) = words) : readTerms toks = .ok terms := by
  have hpairs := readPairs_of_spelled h hr htoks
  have heven : toks.length % 2 = 0 := by
    rw [← List.length_map (·.text), htoks]
    exact length_terms h
  simp only [readTerms]
  split
  · rw [if_pos heven]
    exact hpairs
  · next hnil =>
    obtain rfl := List.getLast?_eq_none_iff.1 hnil
    obtain rfl := Except.ok.inj hpairs
    rfl

theorem ofWord?_word (sign : Sign) : Sign.ofWord? sign.word = some sign := by
  cases sign <;> rfl

/-- A row is read from the words that spell it, where its constraint can be normalized. -/
theorem readRow_of_spelled {terms : List Term} {sign : Sign} {degree : Int64} {words : List String}
    (h : (Written.row terms sign degree).Spelled words) (hr : ∀ t ∈ terms, t.lit.InRange)
    {c : Constraint} {r : Row} (hc : sign.constrain (.raw terms) degree = .ok c)
    (hnormal : c.normalize = .ok r) (first : Token) {toks : List Token}
    (htoks : toks.map (·.text) = words) : readRow first toks = .ok r := by
  cases h with
  | @row _ _ _ words numeral hterms hdegree =>
    obtain ⟨front, back, rfl, hfront, hback⟩ := List.map_eq_append_iff.1 htoks
    obtain ⟨relation, rest, rfl, hrelation, hrest⟩ := List.map_eq_cons_iff.1 hback
    obtain ⟨last, _, rfl, rfl, hnil⟩ := List.map_eq_cons_iff.1 hrest
    obtain rfl := List.map_eq_nil_iff.1 hnil
    have hterm : ∀ t ∈ front, (Sign.ofWord? t.text).isNone = true := by
      intro t ht
      rw [ofWord?_of_mem_terms hterms t.text (hfront ▸ List.mem_map_of_mem ht)]
      rfl
    have hsign : ¬ (Sign.ofWord? relation.text).isNone = true := by
      rw [hrelation, ofWord?_word]
      simp
    have hread : readDegree relation [last] = .ok degree := by
      rw [readDegree, Decimal.int64?_of_isInteger hdegree]
      rfl
    have hdrop : (front ++ [relation, last]).dropWhile (fun t => (Sign.ofWord? t.text).isNone) =
        [relation, last] := by
      rw [List.dropWhile_append_of_pos hterm]
      exact List.dropWhile_cons_of_neg hsign
    have htake : (front ++ [relation, last]).takeWhile (fun t => (Sign.ofWord? t.text).isNone) =
        front := by
      have hstop : [relation, last].takeWhile (fun t => (Sign.ofWord? t.text).isNone) = [] :=
        List.takeWhile_cons_of_neg hsign
      rw [List.takeWhile_append_of_pos hterm, hstop, List.append_nil]
    unfold readRow
    dsimp only
    rw [hdrop, htake]
    refine bind_eq_ok.2 ⟨terms, readTerms_of_spelled hterms hr hfront,
      bind_eq_ok.2 ⟨degree, hread, ?_⟩⟩
    rw [hrelation, ofWord?_word]
    exact bind_eq_ok.2 ⟨c, lift_eq_ok.2 hc, lift_eq_ok.2 hnormal⟩

/-! ### Reading statement after statement -/

section Statements
variable {terms : List Term} {words : List String} {piece : List Token}
  {pieces : List (List Token)} {found : List Statement}

/-- An objective is read where there was none before, and what follows as after one. -/
theorem readStatements_objective {form : LinearForm} (h : (Written.objective terms).Spelled words)
    (hr : ∀ t ∈ terms, t.lit.InRange) (hform : (Expression.raw terms).normalize = .ok form)
    (hpiece : piece.map (·.text) = words) (hfound : readStatements true pieces = .ok found) :
    readStatements false (piece :: pieces) = .ok (.objective form :: found) := by
  cases h with
  | objective hterms =>
    obtain ⟨first, toks, rfl, hfirst, htoks⟩ := List.map_eq_cons_iff.1 hpiece
    simp only [readStatements]
    rw [if_pos hfirst, if_neg Bool.false_ne_true]
    exact bind_eq_ok.2 ⟨terms, readTerms_of_spelled hterms hr htoks,
      bind_eq_ok.2 ⟨form, lift_eq_ok.2 hform, bind_eq_ok.2 ⟨found, hfound, rfl⟩⟩⟩

/-- A row is read, and what follows as before. -/
theorem readStatements_row {sign : Sign} {degree : Int64} {hasObjective : Bool} {r : Row}
    (h : (Written.row terms sign degree).Spelled words) (hpiece : piece.map (·.text) = words)
    (hrow : ∀ first, readRow first piece = .ok r)
    (hfound : readStatements hasObjective pieces = .ok found) :
    readStatements hasObjective (piece :: pieces) = .ok (.row r :: found) := by
  obtain ⟨first, toks, rfl⟩ := List.exists_cons_of_ne_nil (l := piece) (by
    rintro rfl
    cases h with
    | row => simp at hpiece)
  have hfirst : first.text ≠ "min:" :=
    ne_min_of_mem_row h _ (hpiece ▸ List.mem_cons_self ..)
  simp only [readStatements]
  rw [if_neg hfirst]
  exact bind_eq_ok.2 ⟨r, hrow first, bind_eq_ok.2 ⟨found, hfound, rfl⟩⟩

end Statements

end Opb

end PseudoBoolean
