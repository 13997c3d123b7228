import PseudoBoolean.Proofs.Linear.Overflow
import PseudoBoolean.Proofs.Opb.Layout
import PseudoBoolean.Proofs.Opb.Statement

/-!
Which texts overflow.

The reader refuses a number that does not fit a word, yet three computations with numbers that fit
are left to overflow:

- the negative literal of the variable `x2147483648`, whose positive literal is the least word;
- the sums of coefficients and constants while terms are collected;
- the negated coefficients and degree of a `<=` row, and the degree less the constant of any row.

A text ends in a fault exactly when one of these is reached before a flaw is found
(`Opb.parse_answers_iff`). None is while every variable has a negative literal and the numbers of
each statement fit a word together (`Opb.parse_answers_of_fits`).
-/

namespace PseudoBoolean

/-- Only the variable whose positive literal is the least word has no negative literal. -/
theorem Var.neg_eq_error {x : Var} {fault : Fault} :
    x.neg = .error fault ↔ x.id = 0x80000000 ∧ fault = .overflow .negate := by
  have hmin : x.pos.code = Int32.minValue ↔ x.id = 0x80000000 := by
    constructor
    · intro h
      have hword : x.id.toInt32.toUInt32 = Int32.minValue.toUInt32 := congrArg Int32.toUInt32 h
      exact (UInt32.toUInt32_toInt32 x.id).symm.trans hword
    · intro h
      show x.id.toInt32 = _
      rw [h]
      rfl
  rw [neg, Lit.negate]
  split
  · next h =>
    rw [Except.error.injEq, eq_comm, hmin.1 h]
    exact ⟨fun hf => ⟨rfl, hf⟩, fun hf => hf.2⟩
  · next h =>
    refine ⟨fun hok => ?_, fun hid => absurd (hmin.2 hid.1) h⟩
    cases hok

namespace Opb

/-! ### What overflows -/

/-- Whether a word negates the variable whose positive literal is the least word. -/
def Token.NegatesLeast (t : Token) : Prop :=
  t.untilded.1 = true ∧ ∃ x, t.var? = some x ∧ x.id = 0x80000000

/-- Whether a negative literal overflows in a token list: the tokens pair up, what stands before it
is read as terms, and so is its coefficient. -/
def LiteralOverflows (tokens : List Token) : Prop := tokens.length % 2 = 0 ∧
  ∃ before coeff literal after terms, tokens = before ++ coeff :: literal :: after ∧
    readTerms before = .ok terms ∧ (Decimal.int64? coeff.text).isSome ∧ literal.NegatesLeast

/-- The sign with which a row is stored. -/
def Sign.factor : Sign → Int
  | geq => 1
  | eq => 1
  | leq => -1

/-- Whether nothing overflows in a statement: no sum, and in a row neither the degree nor what is
left of it without the constant. -/
def Written.SumsFit : Written → Prop
  | objective terms => Term.SumsFit 1 terms
  | row terms sign degree => Term.SumsFit sign.factor terms ∧
      Word.Fits (sign.factor * degree.toInt) ∧
      Word.Fits (sign.factor * (degree.toInt - Term.constant terms))

/-- The tokens of a statement that are read as terms: those after `min:`, or those before the
relation if there is one. -/
def termTokens? (first : Token) (words : List Token) : Option (List Token) :=
  if first.text = "min:" then some words
  else if (first :: words).dropWhile (fun t => (Sign.ofWord? t.text).isNone) = [] then none
  else some ((first :: words).takeWhile fun t => (Sign.ofWord? t.text).isNone)

/-- Whether a statement overflows: in a literal, or once it is read in a sum. -/
def StatementOverflows (first : Token) (words : List Token) : Prop :=
  (∃ tokens, termTokens? first words = some tokens ∧ LiteralOverflows tokens) ∨
    ∃ written, readWritten first words = .ok written ∧ ¬ written.SumsFit

/-- Whether a piece is an objective. -/
def isObjective (piece : List Token) : Bool := piece.head?.any (·.text == "min:")

/-- Whether a text overflows: no comment is flawed, the statements up to some terminated one are
read, and that one, which is no second objective, overflows. -/
def Overflows (text : String) : Prop :=
  ∃ lines before first words after last found, readLines text = .ok lines ∧
    (lines.flatMap Line.tokens).splitOnP (·.text == ";") =
      before ++ (first :: words) :: after ++ [last] ∧
    readStatements false before = .ok found ∧
    ¬ (first.text = "min:" ∧ before.any isObjective = true) ∧ StatementOverflows first words

/-! ### Literals -/

section Terms
variable {coeff literal : Token} {tokens rest : List Token} {terms : List Term} {fault : Fault}

theorem readLit_eq_fault : readLit coeff literal = .error (.fault fault) ↔
    literal.NegatesLeast ∧ fault = .overflow .negate := by
  rw [readLit_eq, Token.NegatesLeast]
  cases hvar : literal.var? with
  | none => simp
  | some x =>
    cases htilde : literal.untilded.1 with
    | false => simp
    | true => simp [lift_eq_fault, Var.neg_eq_error]

theorem readPairs_cons_eq_ok : readPairs (coeff :: literal :: rest) = .ok terms ↔
    ∃ c l later, Decimal.int64? coeff.text = some c ∧ readLit coeff literal = .ok l ∧
      readPairs rest = .ok later ∧ ⟨c, l⟩ :: later = terms := by
  rw [readPairs]
  cases Decimal.int64? coeff.text with
  | none => simp
  | some c =>
    simp only [bind_eq_ok, pure_eq_ok, Option.some.injEq, exists_and_left, exists_eq_left']

theorem readPairs_cons_eq_fault :
    readPairs (coeff :: literal :: rest) = .error (.fault fault) ↔
      (Decimal.int64? coeff.text).isSome ∧ (readLit coeff literal = .error (.fault fault) ∨
        (∃ l, readLit coeff literal = .ok l) ∧ readPairs rest = .error (.fault fault)) := by
  rw [readPairs]
  cases Decimal.int64? coeff.text with
  | none => simp
  | some c =>
    simp only [bind_eq_error, pure_ne_error, and_false, exists_false, or_false, Option.isSome_some,
      true_and, exists_and_right]

/-- Pairs end in a fault at the first literal that has none of its own. -/
theorem readPairs_eq_fault : ∀ {tokens : List Token},
    readPairs tokens = .error (.fault fault) ↔ fault = .overflow .negate ∧
      ∃ before coeff literal after terms, tokens = before ++ coeff :: literal :: after ∧
        readTerms before = .ok terms ∧ (Decimal.int64? coeff.text).isSome ∧ literal.NegatesLeast
  | [] => by simp [readPairs]
  | [t] => by
    constructor
    · intro h
      cases h
    · rintro ⟨_, before, coeff, literal, after, _, htokens, _⟩
      have hlength := congrArg List.length htokens
      simp only [List.length_append, List.length_cons, List.length_nil] at hlength
      omega
  | coeff :: literal :: rest => by
    rw [readPairs_cons_eq_fault, readLit_eq_fault, readPairs_eq_fault]
    constructor
    · rintro ⟨hcoeff, ⟨hliteral, rfl⟩ | ⟨⟨l, hl⟩, rfl, before, coeff', literal', after, terms, rfl,
        hread, hrest⟩⟩
      · exact ⟨rfl, [], coeff, literal, rest, [], rfl, rfl, hcoeff, hliteral⟩
      · obtain ⟨c, hc⟩ := Option.isSome_iff_exists.1 hcoeff
        obtain ⟨heven, hpairs⟩ := readTerms_eq_ok.1 hread
        refine ⟨rfl, coeff :: literal :: before, coeff', literal', after, ⟨c, l⟩ :: terms, rfl,
          readTerms_eq_ok.2 ⟨?_, ?_⟩, hrest⟩
        · show (before.length + 2) % 2 = 0
          omega
        · exact readPairs_cons_eq_ok.2 ⟨c, l, terms, hc, hl, hpairs, rfl⟩
    · rintro ⟨rfl, before, coeff', literal', after, terms, htokens, hread, hcoeff, hliteral⟩
      obtain ⟨heven, hpairs⟩ := readTerms_eq_ok.1 hread
      rcases before with _ | ⟨first, _ | ⟨second, before⟩⟩
      · obtain ⟨rfl, rfl, rfl⟩ : coeff = coeff' ∧ literal = literal' ∧ rest = after := by
          simpa using htokens
        exact ⟨hcoeff, .inl ⟨hliteral, rfl⟩⟩
      · exact absurd heven (by simp)
      · obtain ⟨rfl, rfl, rfl⟩ : coeff = first ∧ literal = second ∧
            rest = before ++ coeff' :: literal' :: after := by simpa using htokens
        obtain ⟨c, l, later, hc, hl, hlater, _⟩ := readPairs_cons_eq_ok.1 hpairs
        have hbefore : readTerms before = .ok later := by
          refine readTerms_eq_ok.2 ⟨?_, hlater⟩
          have hlength : (before.length + 2) % 2 = 0 := heven
          omega
        exact ⟨by rw [hc]; rfl, .inr ⟨⟨l, hl⟩, rfl, before, coeff', literal', after, later, rfl,
          hbefore, hcoeff, hliteral⟩⟩

theorem readTerms_eq_fault : readTerms tokens = .error (.fault fault) ↔
    fault = .overflow .negate ∧ LiteralOverflows tokens := by
  rw [LiteralOverflows]
  by_cases h : tokens.length % 2 = 0
  · rw [readTerms_of_even h, readPairs_eq_fault]
    exact and_congr_right fun _ => ⟨fun hliteral => ⟨h, hliteral⟩, fun heven => heven.2⟩
  · obtain ⟨last, _, hlast⟩ := readTerms_of_odd h
    rw [hlast]
    simp [h]

end Terms

/-! ### Sums -/

section Sums
variable {terms : List Term} {sign : Sign} {degree : Int64} {c : Constraint}

/-- A sign makes a constraint exactly when the coefficients and the degree fit with its factor. -/
theorem exists_constrain_iff : (∃ c, sign.constrain (.raw terms) degree = .ok c) ↔
    (∀ t ∈ terms, Word.Fits (sign.factor * t.coeff.toInt)) ∧
      Word.Fits (sign.factor * degree.toInt) := by
  have hplain : (∀ t ∈ terms, Word.Fits (1 * t.coeff.toInt)) ∧ Word.Fits (1 * degree.toInt) := by
    simp only [Int.one_mul]
    exact ⟨fun t _ => Word.fits_toInt t.coeff, Word.fits_toInt degree⟩
  cases sign with
  | geq => exact ⟨fun _ => hplain, fun _ => ⟨_, rfl⟩⟩
  | eq => exact ⟨fun _ => hplain, fun _ => ⟨_, rfl⟩⟩
  | leq =>
    simp only [Sign.factor, Int.neg_one_mul]
    rw [← Term.exists_mapM_neg_iff, ← Word.exists_checked_iff .negate]
    constructor
    · rintro ⟨c, hc⟩
      obtain ⟨lhs, hlhs, hc⟩ := bind_eq_ok.1 hc
      obtain ⟨negated, hnegated, _⟩ := bind_eq_ok.1 hc
      obtain ⟨terms', hterms, _⟩ := bind_eq_ok.1 hlhs
      exact ⟨⟨terms', hterms⟩, negated, hnegated⟩
    · rintro ⟨⟨terms', hterms⟩, negated, hnegated⟩
      exact ⟨_, bind_eq_ok.2 ⟨_, bind_eq_ok.2 ⟨terms', hterms, rfl⟩,
        bind_eq_ok.2 ⟨negated, hnegated, rfl⟩⟩⟩

/-- The sums of a constraint are those of the terms and the degree, with the factor of the sign. -/
theorem sums_of_constrain (h : sign.constrain (.raw terms) degree = .ok c) :
    ∃ terms' relation degree', c = ⟨.raw terms', relation, degree'⟩ ∧
      (Term.SumsFit 1 terms' ↔ Term.SumsFit sign.factor terms) ∧
      degree'.toInt - Term.constant terms' =
        sign.factor * (degree.toInt - Term.constant terms) := by
  cases sign with
  | geq => exact ⟨terms, .geq, degree, (Except.ok.inj h).symm, Iff.rfl, (Int.one_mul _).symm⟩
  | eq => exact ⟨terms, .eq, degree, (Except.ok.inj h).symm, Iff.rfl, (Int.one_mul _).symm⟩
  | leq =>
    obtain ⟨lhs, hlhs, h⟩ := bind_eq_ok.1 h
    obtain ⟨negated, hnegated, h⟩ := bind_eq_ok.1 h
    obtain rfl := pure_eq_ok.1 h
    obtain ⟨terms', hterms, hlhs⟩ := bind_eq_ok.1 hlhs
    obtain rfl := pure_eq_ok.1 hlhs
    have hneg := mapM_neg_coeff hterms
    refine ⟨terms', .geq, negated, rfl, Term.sumsFit_neg hneg, ?_⟩
    rw [Word.neg_eq_ok_iff.1 hnegated, Term.constant_neg hneg, Sign.factor]
    omega

/-- A row is computed exactly when none of its sums overflows. -/
theorem exists_row_iff :
    (∃ c r, sign.constrain (.raw terms) degree = .ok c ∧ c.normalize = .ok r) ↔
      (Written.row terms sign degree).SumsFit := by
  rw [Written.SumsFit]
  constructor
  · rintro ⟨c, r, hc, hr⟩
    obtain ⟨_, hdegree⟩ := exists_constrain_iff.1 ⟨c, hc⟩
    obtain ⟨terms', relation, degree', rfl, hiff, hleft⟩ := sums_of_constrain hc
    obtain ⟨hsums, hfits⟩ := Constraint.exists_normalize_iff.1 ⟨r, hr⟩
    exact ⟨hiff.1 hsums, hdegree, hleft ▸ hfits⟩
  · rintro ⟨hsums, hdegree, hfits⟩
    obtain ⟨c, hc⟩ := exists_constrain_iff.2 ⟨hsums.1, hdegree⟩
    obtain ⟨terms', relation, degree', rfl, hiff, hleft⟩ := sums_of_constrain hc
    obtain ⟨r, hr⟩ := Constraint.exists_normalize_iff.2 ⟨hiff.2 hsums, hleft ▸ hfits⟩
    exact ⟨_, r, hc, hr⟩

/-- What is written can be computed with exactly when none of its sums overflows. -/
theorem Written.exists_compute_iff {written : Written} :
    (∃ statement, written.compute = .ok statement) ↔ written.SumsFit := by
  cases written with
  | objective terms =>
    rw [SumsFit, ← LinearForm.exists_collect_iff]
    constructor
    · rintro ⟨statement, h⟩
      obtain ⟨form, hform, _⟩ := bind_eq_ok.1 h
      exact ⟨form, hform⟩
    · rintro ⟨form, hform⟩
      exact ⟨_, bind_eq_ok.2 ⟨form, hform, rfl⟩⟩
  | row terms sign degree =>
    rw [← exists_row_iff]
    constructor
    · rintro ⟨statement, h⟩
      obtain ⟨c, hc, h⟩ := bind_eq_ok.1 h
      obtain ⟨r, hr, _⟩ := bind_eq_ok.1 h
      exact ⟨c, r, hc, hr⟩
    · rintro ⟨c, r, hc, hr⟩
      exact ⟨_, bind_eq_ok.2 ⟨c, hc, bind_eq_ok.2 ⟨r, hr, rfl⟩⟩⟩

/-- The absolute coefficients and the degree bound every sum. -/
theorem Written.Fits.sumsFit {written : Written} (h : written.Fits) : written.SumsFit := by
  cases written with
  | objective terms =>
    obtain ⟨form, hform, _⟩ := exists_objective h.2
    exact LinearForm.exists_collect_iff.1 ⟨form, hform⟩
  | row terms sign degree =>
    obtain ⟨terms', relation, degree', hc, hweight, _⟩ := exists_constrain sign h.2
    obtain ⟨r, hr, _⟩ : ∃ r, Constraint.normalize ⟨.raw terms', relation, degree'⟩ = .ok r ∧ _ :=
      Constraint.exists_normalize hweight
    exact exists_row_iff.1 ⟨_, r, hc, hr⟩

theorem Written.exists_fault_iff {written : Written} :
    (∃ fault, written.compute = .error fault) ↔ ¬ written.SumsFit := by
  rw [← exists_compute_iff]
  cases written.compute <;> simp

theorem Written.overflowsOnly_compute (written : Written) : OverflowsOnly written.compute := by
  cases written with
  | objective terms => exact .bind (Expression.overflowsOnly_normalize _) fun _ => .pure _
  | row terms sign degree =>
    refine .bind ?_ fun c => .bind c.overflowsOnly_normalize fun _ => .pure _
    cases sign with
    | geq => exact .ok _
    | eq => exact .ok _
    | leq =>
      refine .bind (.bind ?_ fun _ => .pure _) fun _ => .bind (.checked _ _) fun _ => .pure _
      exact .mapM (fun _ => .bind (.checked _ _) fun _ => .pure _) _

end Sums

/-! ### Statements -/

section Statements
variable {first : Token} {words : List Token} {hasObjective : Bool} {fault : Fault}

/-- What is written cannot be read for a fault exactly when a literal overflows. -/
theorem readWritten_eq_fault : readWritten first words = .error (.fault fault) ↔
    fault = .overflow .negate ∧
      ∃ tokens, termTokens? first words = some tokens ∧ LiteralOverflows tokens := by
  rw [readWritten, termTokens?]
  by_cases hmin : first.text = "min:"
  · simp only [if_pos hmin, bind_eq_error, pure_ne_error, and_false, exists_false, or_false,
      readTerms_eq_fault, Option.some.injEq, exists_eq_left']
  · simp only [if_neg hmin]
    generalize (first :: words).dropWhile (fun t => (Sign.ofWord? t.text).isNone) = back
    generalize (first :: words).takeWhile (fun t => (Sign.ofWord? t.text).isNone) = front
    cases back with
    | nil => simp
    | cons relation rest =>
      rw [if_neg (List.cons_ne_nil _ _)]
      simp only [Option.some.injEq, exists_eq_left', ← readTerms_eq_fault]
      constructor
      · intro h
        rcases bind_eq_error.1 h with h | ⟨terms, _, h⟩
        · exact h
        · -- no fault is left once the terms are read
          rcases bind_eq_error.1 h with h | ⟨degree, _, h⟩
          · rw [readDegree.eq_def] at h
            split at h
            · split at h <;> simp at h
            · simp at h
          · split at h <;> simp at h
      · exact fun h => bind_eq_error.2 (.inl h)

theorem termTokens?_subset {tokens : List Token} (h : termTokens? first words = some tokens) :
    tokens ⊆ first :: words := by
  rw [termTokens?] at h
  split at h
  · obtain rfl := Option.some.inj h
    exact List.subset_cons_self first words
  · split at h
    · exact absurd h nofun
    · obtain rfl := Option.some.inj h
      exact List.takeWhile_subset _

/-- A statement that names variables in range and fits does not overflow. -/
theorem not_statementOverflows
    (hr : ∀ t ∈ first :: words, ∀ x, t.var? = some x → x.InRange)
    (hfits : ∀ written, readWritten first words = .ok written → written.Fits) :
    ¬ StatementOverflows first words := by
  rintro (⟨tokens, htokens, _, before, coeff, literal, after, _, rfl, _, _, _, x, hx, hid⟩ |
    ⟨written, hread, hsums⟩)
  · have hmem : literal ∈ first :: words := termTokens?_subset htokens (by simp)
    have hlt : x.id.toNat < 0x80000000 := hr literal hmem x hx
    rw [hid] at hlt
    exact absurd hlt (by decide)
  · exact hsums (hfits written hread).sumsFit

/-- A statement ends in a fault exactly when it overflows. -/
theorem exists_fault_of_readStatement_iff :
    (∃ fault, readStatement hasObjective first words = .error (.fault fault)) ↔
      ¬ (first.text = "min:" ∧ hasObjective = true) ∧ StatementOverflows first words := by
  simp only [readStatement_eq_fault, exists_and_left, exists_or, readWritten_eq_fault,
    exists_eq_left, StatementOverflows, ← Written.exists_fault_iff]
  refine and_congr_right fun _ => or_congr_right ?_
  constructor
  · rintro ⟨fault, written, hread, h⟩
    exact ⟨written, hread, fault, h⟩
  · rintro ⟨written, hread, fault, h⟩
    exact ⟨fault, written, hread, h⟩

theorem overflow_of_readStatement
    (h : readStatement hasObjective first words = .error (.fault fault)) :
    ∃ op, fault = .overflow op := by
  rcases (readStatement_eq_fault.1 h).2 with h | ⟨written, _, h⟩
  · exact ⟨_, (readWritten_eq_fault.1 h).1⟩
  · exact written.overflowsOnly_compute fault h

/-- Statements end in a fault at the first that does, after those before it were read. -/
theorem readStatements_eq_fault : ∀ {pieces : List (List Token)} {hasObjective : Bool},
    readStatements hasObjective pieces = .error (.fault fault) ↔
      ∃ before first words after found, pieces = before ++ (first :: words) :: after ∧
        readStatements hasObjective before = .ok found ∧
        readStatement (hasObjective || before.any isObjective) first words = .error (.fault fault)
  | [], _ => by simp [readStatements]
  | [] :: rest, hasObjective => by
    rw [readStatements, readStatements_eq_fault]
    constructor
    · rintro ⟨before, first, words, after, found, rfl, hfound, hfault⟩
      exact ⟨[] :: before, first, words, after, found, rfl, hfound, hfault⟩
    · rintro ⟨before, first, words, after, found, hpieces, hfound, hfault⟩
      cases before with
      | nil => exact absurd hpieces (by simp)
      | cons piece before =>
        obtain ⟨rfl, rfl⟩ := List.cons.inj hpieces
        exact ⟨before, first, words, after, found, rfl, hfound, hfault⟩
  | (head :: tail) :: rest, hasObjective => by
    have hflag : ∀ before : List (List Token),
        (hasObjective || ((head :: tail) :: before).any isObjective) =
          ((hasObjective || head.text == "min:") || before.any isObjective) := fun before => by
      rw [List.any_cons, ← Bool.or_assoc]
      rfl
    rw [readStatements_cons]
    constructor
    · intro h
      rcases bind_eq_error.1 h with h | ⟨statement, hstatement, h⟩
      · refine ⟨[], head, tail, rest, [], rfl, rfl, ?_⟩
        rwa [List.any_nil, Bool.or_false]
      · rcases bind_eq_error.1 h with h | ⟨_, _, h⟩
        · obtain ⟨before, first, words, after, found, rfl, hfound, hfault⟩ :=
            readStatements_eq_fault.1 h
          refine ⟨(head :: tail) :: before, first, words, after, statement :: found, rfl, ?_, ?_⟩
          · rw [readStatements_cons]
            exact bind_eq_ok.2 ⟨statement, hstatement, bind_eq_ok.2 ⟨found, hfound, rfl⟩⟩
          · rwa [hflag]
        · simp at h
    · rintro ⟨before, first, words, after, found, hpieces, hfound, hfault⟩
      cases before with
      | nil =>
        obtain ⟨hpiece, rfl⟩ := List.cons.inj hpieces
        obtain ⟨rfl, rfl⟩ := List.cons.inj hpiece
        rw [List.any_nil, Bool.or_false] at hfault
        exact bind_eq_error.2 (.inl hfault)
      | cons piece before =>
        obtain ⟨rfl, rfl⟩ := List.cons.inj hpieces
        rw [readStatements_cons] at hfound
        obtain ⟨statement, hstatement, hfound⟩ := bind_eq_ok.1 hfound
        obtain ⟨others, hothers, _⟩ := bind_eq_ok.1 hfound
        rw [hflag] at hfault
        have hrest := readStatements_eq_fault.2
          ⟨before, first, words, after, others, rfl, hothers, hfault⟩
        exact bind_eq_error.2 (.inr ⟨statement, hstatement, bind_eq_error.2 (.inl hrest)⟩)

end Statements

/-! ### Texts -/

section Texts
variable {text : String} {fault : Fault}

/-- A text ends in a fault exactly when its terminated statements do. -/
theorem parse_eq_fault : parse text = .error (.fault fault) ↔
    ∃ lines, readLines text = .ok lines ∧
      readStatements false ((lines.flatMap Line.tokens).splitOnP (·.text == ";")).dropLast =
        .error (.fault fault) := by
  rw [parse, bind_eq_error]
  simp only [liftParse_ne_fault, false_or, liftParse_eq_ok]
  refine exists_congr fun lines => and_congr_right fun _ => ?_
  rw [bind_eq_error]
  refine ⟨fun h => h.elim id ?_, .inl⟩
  rintro ⟨statements, _, h⟩
  split at h <;> simp at h

/-- The only fault of a reading is an overflow. -/
theorem overflow_of_parse (h : parse text = .error (.fault fault)) : ∃ op, fault = .overflow op := by
  obtain ⟨lines, _, h⟩ := parse_eq_fault.1 h
  obtain ⟨_, _, _, _, _, _, _, hfault⟩ := readStatements_eq_fault.1 h
  exact overflow_of_readStatement hfault

theorem exists_fault_iff : (∃ fault, parse text = .error (.fault fault)) ↔ Overflows text := by
  constructor
  · rintro ⟨fault, h⟩
    obtain ⟨lines, hlines, h⟩ := parse_eq_fault.1 h
    obtain ⟨before, first, words, after, found, hpieces, hfound, hfault⟩ :=
      readStatements_eq_fault.1 h
    rw [Bool.false_or] at hfault
    obtain ⟨hfirst, hoverflows⟩ := exists_fault_of_readStatement_iff.1 ⟨fault, hfault⟩
    have hlast := List.dropLast_append_getLast
      (List.splitOnP_ne_nil (fun t : Token => t.text == ";") (lines.flatMap Line.tokens))
    rw [hpieces] at hlast
    exact ⟨lines, before, first, words, after, _, found, hlines, hlast.symm, hfound, hfirst,
      hoverflows⟩
  · rintro ⟨lines, before, first, words, after, last, found, hlines, hpieces, hfound, hfirst,
      hoverflows⟩
    obtain ⟨fault, hfault⟩ := exists_fault_of_readStatement_iff.2 ⟨hfirst, hoverflows⟩
    refine ⟨fault, parse_eq_fault.2 ⟨lines, hlines, readStatements_eq_fault.2
      ⟨before, first, words, after, found, ?_, hfound, ?_⟩⟩⟩
    · rw [hpieces, List.dropLast_concat]
    · rwa [Bool.false_or]

/-- A text whose variables have literals of both signs, and whose statements fit as far as they can
be read, is read as a formula or refused. -/
theorem parse_answers_of_fits (hr : NamesInRange text)
    (hfits : ∀ lines, readLines text = .ok lines →
      ∀ first words, first :: words ∈ (lines.flatMap Line.tokens).splitOnP (·.text == ";") →
        ∀ written, readWritten first words = .ok written → written.Fits) :
    (∃ f, parse text = .ok f) ∨ ∃ e, parse text = .error (.parse e) := by
  cases hparse : parse text with
  | ok f => exact .inl ⟨f, rfl⟩
  | error e =>
    cases e with
    | parse e => exact .inr ⟨e, rfl⟩
    | fault fault =>
      obtain ⟨lines, before, first, words, after, last, _, hlines, hpieces, _, _, hoverflows⟩ :=
        exists_fault_iff.1 ⟨fault, hparse⟩
      have hpiece : first :: words ∈ (lines.flatMap Line.tokens).splitOnP (·.text == ";") := by
        simp [hpieces]
      refine absurd hoverflows (not_statementOverflows (fun t ht => ?_)
        (hfits lines hlines first words hpiece))
      exact hr lines hlines t (mem_of_mem_splitOnP hpiece ht)

end Texts

/-- A text is read as a formula or refused, unless it overflows, and nothing but an overflow ends its
reading otherwise. -/
theorem parse_answers_iff (text : String) :
    (((∃ f, parse text = .ok f) ∨ ∃ e, parse text = .error (.parse e)) ↔ ¬ Overflows text) ∧
      ∀ fault, parse text = .error (.fault fault) → ∃ op, fault = .overflow op := by
  refine ⟨?_, fun fault h => overflow_of_parse h⟩
  rw [← exists_fault_iff]
  cases parse text with
  | ok f => simp
  | error e => cases e <;> simp

example : parse "1 ~x2147483648 >= 0 ;" = .error (.fault (.overflow .negate)) ∧
    parse "-9223372036854775808 x1 <= 0 ;" = .error (.fault (.overflow .negate)) := by
  decide +kernel

/-- Three terms on one variable, whose sum is a word: the first two leave it. -/
def overflowing : String := "9223372036854775807 x1 +1 x1 -1 x1 >= 0 ;"

theorem parse_overflowing : parse overflowing = .error (.fault (.overflow .add)) ∧
    ¬ ((∃ f, parse overflowing = .ok f) ∨ ∃ e, parse overflowing = .error (.parse e)) := by
  have hparse : parse overflowing = .error (.fault (.overflow .add)) := by decide +kernel
  refine ⟨hparse, ?_⟩
  rw [hparse]
  rintro (⟨f, h⟩ | ⟨e, h⟩) <;> cases h

end Opb

end PseudoBoolean
