import PseudoBoolean.Proofs.Opb.Spelling

/-!
A statement is read in two steps.

    tokens ──readWritten──▶ what is written ──compute──▶ what it says

The first step finds the flaws, and computes nothing but the number of a negative literal. The
second step has no flaws left to find, and does all the arithmetic on coefficients and degrees. So
what a reader makes of a text is known from the terms that the first step gives, and each of their
literals is named by a token (`Opb.exists_token_of_readWritten`).
-/

namespace PseudoBoolean.Opb

/-! ### Literals -/

/-- Whether a word begins with a tilde, and what follows it. -/
def Token.untilded (t : Token) : Bool × List Char :=
  match t.text.toList with
  | '~' :: name => (true, name)
  | name => (false, name)

/-- The variable that a word names, after a tilde or without one. -/
def Token.var? (t : Token) : Option Var :=
  let id? := match t.untilded.2 with
    | 'x' :: digits => Decimal.uint32? (String.ofList digits)
    | _ => none
  id?.bind fun id => Var.ofNat? id.toNat

section Literals
variable {coeff literal : Token} {l : Lit}

theorem readLit_eq (coeff literal : Token) : readLit coeff literal =
    match literal.var? with
    | some x => if literal.untilded.1 then liftM x.neg else return x.pos
    | none => coeff.refuse (.badLiteral literal.text) := rfl

theorem readLit_eq_ok : readLit coeff literal = .ok l ↔
    ∃ x, literal.var? = some x ∧ if literal.untilded.1 then x.neg = .ok l else x.pos = l := by
  rw [readLit_eq]
  cases hvar : literal.var? with
  | none => simp
  | some x =>
    cases literal.untilded.1 <;> simp [lift_eq_ok]

/-- A word that names a variable in range is read as a literal in range. -/
theorem inRange_of_readLit (hr : ∀ x, literal.var? = some x → x.InRange)
    (h : readLit coeff literal = .ok l) : l.InRange := by
  obtain ⟨x, hx, hl⟩ := readLit_eq_ok.1 h
  have hxr := hr x hx
  split at hl
  · obtain ⟨m, hm, hvar, _⟩ := Var.exists_neg hxr
    obtain rfl : m = l := Except.ok.inj (hm.symm.trans hl)
    exact Lit.inRange_var.1 (hvar ▸ hxr)
  · rw [← hl]
    exact Lit.inRange_of_isPositive (Var.isPositive_pos hxr)

end Literals

/-! ### Terms -/

section Terms
variable {tokens : List Token} {terms : List Term}

/-- The literal of every term was read from a token. -/
theorem exists_token_of_readPairs : ∀ {tokens : List Token} {terms : List Term},
    readPairs tokens = .ok terms → ∀ t ∈ terms, ∃ coeff ∈ tokens, ∃ literal ∈ tokens,
      readLit coeff literal = .ok t.lit
  | [], terms, h, t, ht => by
    obtain rfl := pure_eq_ok.1 h
    exact absurd ht List.not_mem_nil
  | [_], terms, h, t, ht => by
    obtain rfl := pure_eq_ok.1 h
    exact absurd ht List.not_mem_nil
  | coeff :: literal :: rest, terms, h, t, ht => by
    rw [readPairs] at h
    split at h
    · exact absurd h Token.refuse_ne_ok
    · obtain ⟨l, hl, h⟩ := bind_eq_ok.1 h
      obtain ⟨later, hlater, h⟩ := bind_eq_ok.1 h
      obtain rfl := pure_eq_ok.1 h
      rcases List.mem_cons.1 ht with rfl | ht
      · exact ⟨coeff, by simp, literal, by simp, hl⟩
      · obtain ⟨c, hc, m, hm, hread⟩ := exists_token_of_readPairs hlater t ht
        exact ⟨c, by simp [hc], m, by simp [hm], hread⟩

/-- Tokens that pair up are read pair by pair. -/
theorem readTerms_of_even (h : tokens.length % 2 = 0) : readTerms tokens = readPairs tokens := by
  rw [readTerms]
  split
  · rw [if_pos h]
  · next hlast =>
    obtain rfl := List.getLast?_eq_none_iff.1 hlast
    rfl

/-- Tokens that do not pair up are refused. -/
theorem readTerms_of_odd (h : tokens.length % 2 ≠ 0) :
    ∃ last ∈ tokens, readTerms tokens = last.refuse .danglingTerm := by
  have hne : tokens ≠ [] := by
    rintro rfl
    exact h rfl
  refine ⟨tokens.getLast hne, List.getLast_mem hne, ?_⟩
  rw [readTerms, List.getLast?_eq_some_getLast hne]
  exact if_neg h

theorem readTerms_eq_ok :
    readTerms tokens = .ok terms ↔ tokens.length % 2 = 0 ∧ readPairs tokens = .ok terms := by
  by_cases h : tokens.length % 2 = 0
  · rw [readTerms_of_even h]
    exact ⟨fun hpairs => ⟨h, hpairs⟩, fun hpairs => hpairs.2⟩
  · obtain ⟨last, _, hlast⟩ := readTerms_of_odd h
    rw [hlast]
    exact ⟨fun hrefused => absurd hrefused Token.refuse_ne_ok, fun heven => absurd heven.1 h⟩

end Terms

/-! ### Statements -/

/-- What a statement that begins with `first` says, before anything is computed with it. -/
def readWritten (first : Token) (words : List Token) : Reading Written := do
  if first.text = "min:" then return .objective (← readTerms words)
  let isTerm (t : Token) := (Sign.ofWord? t.text).isNone
  match (first :: words).dropWhile isTerm with
  | [] => first.refuse .missingRelation
  | relation :: rest =>
    let terms ← readTerms ((first :: words).takeWhile isTerm)
    let degree ← readDegree relation rest
    match Sign.ofWord? relation.text with
    | none => first.refuse .missingRelation
    | some sign => return .row terms sign degree

/-- The terms of a statement. -/
def Written.terms : Written → List Term
  | objective terms => terms
  | row terms _ _ => terms

/-- The form of an objective, or the row of a comparison. -/
def Written.compute : Written → Checked Statement
  | objective terms => do return .objective (← (Expression.raw terms).normalize)
  | row terms sign degree => do
    let constraint ← sign.constrain (.raw terms) degree
    return .row (← constraint.normalize)

/-- A checked computation faults inside a reading as it does alone. -/
theorem lift_eq_fault {α : Type} {x : Checked α} {fault : Fault} :
    (liftM x : Reading α) = .error (.fault fault) ↔ x = .error fault := by
  show x.mapError ReadError.fault = _ ↔ _
  cases x <;> simp [Except.mapError]

/-- Two checked computations in sequence may be lifted one by one. -/
theorem lift_bind {α β : Type} (x : Checked α) (f : α → Checked β) :
    (liftM (x >>= f) : Reading β) = liftM x >>= fun a => liftM (f a) := by
  cases x <;> rfl

/-- A row is read by reading what is written and computing with it. -/
theorem readRow_eq {first : Token} {words : List Token} (h : first.text ≠ "min:") :
    Statement.row <$> readRow first (first :: words) =
      readWritten first words >>= fun written => liftM written.compute := by
  rw [readWritten, if_neg h]
  unfold readRow
  dsimp only
  generalize (first :: words).dropWhile (fun t => (Sign.ofWord? t.text).isNone) = back
  generalize (first :: words).takeWhile (fun t => (Sign.ofWord? t.text).isNone) = front
  cases back with
  | nil => rfl
  | cons relation rest =>
    dsimp only
    generalize readTerms front = terms, readDegree relation rest = degree,
      Sign.ofWord? relation.text = sign
    cases terms with
    | error e => rfl
    | ok terms =>
      cases degree with
      | error e => rfl
      | ok degree =>
        cases sign with
        | none => rfl
        | some sign =>
          show Statement.row <$> (liftM (sign.constrain (.raw terms) degree) >>=
            fun c => (liftM c.normalize : Reading Row)) = liftM (Written.compute _)
          rw [← lift_bind, Written.compute]
          cases sign.constrain (.raw terms) degree with
          | error e => rfl
          | ok c =>
            show Statement.row <$> (liftM c.normalize : Reading Row) =
              liftM (c.normalize >>= fun r => pure (Statement.row r))
            cases c.normalize <;> rfl

/-- Reads the statement that begins with `first`. -/
def readStatement (hasObjective : Bool) (first : Token) (words : List Token) :
    Reading Statement := do
  if first.text = "min:" ∧ hasObjective = true then first.refuse .secondObjective
  let written ← readWritten first words
  written.compute

section Statement
variable {hasObjective : Bool} {first : Token} {words : List Token} {written : Written}
  {statement : Statement} {fault : Fault}

theorem readStatement_eq_ok : readStatement hasObjective first words = .ok statement ↔
    ¬ (first.text = "min:" ∧ hasObjective = true) ∧
      ∃ written, readWritten first words = .ok written ∧ written.compute = .ok statement := by
  rw [readStatement]
  split
  · next h => exact ⟨fun hrefused => absurd hrefused nofun, fun hread => absurd h hread.1⟩
  · next h =>
    show (readWritten first words >>= fun written => liftM written.compute) = _ ↔ _
    simp only [bind_eq_ok, lift_eq_ok]
    exact ⟨fun hread => ⟨h, hread⟩, fun hread => hread.2⟩

/-- A statement ends in a fault where its words or its numbers do. -/
theorem readStatement_eq_fault : readStatement hasObjective first words = .error (.fault fault) ↔
    ¬ (first.text = "min:" ∧ hasObjective = true) ∧
      (readWritten first words = .error (.fault fault) ∨
        ∃ written, readWritten first words = .ok written ∧ written.compute = .error fault) := by
  rw [readStatement]
  split
  · next h => exact ⟨fun hrefused => absurd hrefused nofun, fun hread => absurd h hread.1⟩
  · next h =>
    show (readWritten first words >>= fun written => liftM written.compute) = _ ↔ _
    simp only [bind_eq_error, lift_eq_fault]
    exact ⟨fun hread => ⟨h, hread⟩, fun hread => hread.2⟩

/-- The literal of every term that is written was read from a token of the statement. -/
theorem exists_token_of_readWritten (h : readWritten first words = .ok written) :
    ∀ t ∈ written.terms, ∃ coeff ∈ first :: words, ∃ literal ∈ first :: words,
      readLit coeff literal = .ok t.lit := by
  intro t ht
  rw [readWritten] at h
  split at h
  · obtain ⟨terms, hterms, h⟩ := bind_eq_ok.1 h
    obtain rfl := pure_eq_ok.1 h
    obtain ⟨coeff, hcoeff, literal, hliteral, hread⟩ :=
      exists_token_of_readPairs (readTerms_eq_ok.1 hterms).2 t ht
    exact ⟨coeff, List.mem_cons_of_mem _ hcoeff, literal, List.mem_cons_of_mem _ hliteral, hread⟩
  · dsimp only at h
    split at h
    · exact absurd h nofun
    · obtain ⟨terms, hterms, h⟩ := bind_eq_ok.1 h
      obtain ⟨degree, _, h⟩ := bind_eq_ok.1 h
      split at h
      · exact absurd h nofun
      · obtain rfl := pure_eq_ok.1 h
        obtain ⟨coeff, hcoeff, literal, hliteral, hread⟩ :=
          exists_token_of_readPairs (readTerms_eq_ok.1 hterms).2 t ht
        exact ⟨coeff, List.takeWhile_subset _ hcoeff, literal, List.takeWhile_subset _ hliteral,
          hread⟩

end Statement

/-- Statements are read one after another. -/
theorem readStatements_cons (hasObjective : Bool) (first : Token) (words : List Token)
    (rest : List (List Token)) : readStatements hasObjective ((first :: words) :: rest) = (do
      let statement ← readStatement hasObjective first words
      let others ← readStatements (hasObjective || first.text == "min:") rest
      return statement :: others) := by
  rw [readStatements, readStatement]
  by_cases hmin : first.text = "min:"
  · rw [if_pos hmin]
    cases hasObjective with
    | true =>
      rw [if_pos rfl, if_pos ⟨hmin, rfl⟩]
      rfl
    | false =>
      rw [if_neg Bool.false_ne_true, if_neg fun h => Bool.false_ne_true h.2, readWritten,
        if_pos hmin, hmin]
      cases readTerms words with
      | error e => rfl
      | ok terms =>
        show (liftM (Expression.raw terms).normalize >>= fun form => _ : Reading _) =
          (liftM (Written.compute _) >>= _)
        rw [Written.compute, lift_bind, bind_assoc]
        rfl
  · rw [if_neg hmin, if_neg fun h => hmin h.1]
    show _ = ((readWritten first words >>= fun written => liftM written.compute) >>= _)
    rw [← readRow_eq hmin, beq_eq_false_iff_ne.2 hmin, Bool.or_false, map_eq_pure_bind, bind_assoc]
    rfl

/-- Whether a statement was computed from what is written in a piece. -/
def IsRead (piece : List Token) (s : Statement) : Prop := ∃ first words written,
  first :: words = piece ∧ readWritten first words = .ok written ∧ written.compute = .ok s

/-- Every piece that is not empty gives one statement, and they are found in order. -/
theorem forall₂_isRead : ∀ {pieces : List (List Token)} {hasObjective : Bool}
    {found : List Statement}, readStatements hasObjective pieces = .ok found →
    List.Forall₂ IsRead (pieces.filter (· ≠ [])) found
  | [], _, found, h => by
    obtain rfl := pure_eq_ok.1 h
    exact .nil
  | [] :: rest, hasObjective, found, h => by
    rw [readStatements] at h
    have hrest : List.Forall₂ IsRead (rest.filter (· ≠ [])) found := forall₂_isRead h
    exact hrest
  | (first :: words) :: rest, hasObjective, found, h => by
    rw [readStatements_cons] at h
    obtain ⟨statement, hstatement, h⟩ := bind_eq_ok.1 h
    obtain ⟨others, hothers, h⟩ := bind_eq_ok.1 h
    obtain rfl := pure_eq_ok.1 h
    obtain ⟨_, written, hwritten, hcompute⟩ := readStatement_eq_ok.1 hstatement
    exact .cons ⟨first, words, written, rfl, hwritten, hcompute⟩ (forall₂_isRead hothers)

/-! ### Pieces of a text -/

/-- Whether a statement was computed from what is written in a piece of some lines. -/
def IsComputed (lines : List Line) (s : Statement) : Prop := ∃ first words written,
  first :: words ∈ (lines.flatMap Line.tokens).splitOnP (·.text == ";") ∧
    readWritten first words = .ok written ∧ written.compute = .ok s

section Texts
variable {text : String} {f : Opb}

/-- The rows and the objective of a text were computed from what is written in its pieces. -/
theorem isComputed_of_parse (h : parse text = .ok f) : ∃ lines, readLines text = .ok lines ∧
    (∀ r ∈ f.rows, IsComputed lines (.row r)) ∧
      ∀ g ∈ f.objective, IsComputed lines (.objective g) := by
  obtain ⟨lines, pieces, found, hlines, hsplit, hfound, rfl⟩ := parse_eq_ok.1 h
  have hcomputed : ∀ s ∈ found, IsComputed lines s := by
    intro s hs
    obtain ⟨_, hpiece, first, words, written, rfl, hread⟩ :=
      exists_mem_of_forall₂ (forall₂_isRead hfound) s hs
    refine ⟨first, words, written, ?_, hread⟩
    rw [hsplit]
    exact List.mem_append_left _ (List.mem_of_mem_filter hpiece)
  refine ⟨lines, hlines, fun r hr => ?_, fun g hg => ?_⟩
  · obtain ⟨s, hs, hsome⟩ := List.mem_filterMap.1 hr
    cases s with
    | objective form => exact absurd hsome nofun
    | row r' => exact Option.some.inj hsome ▸ hcomputed _ hs
  · obtain ⟨s, hs, hsome⟩ := List.exists_of_findSome?_eq_some hg
    cases s with
    | row r => exact absurd hsome nofun
    | objective form => exact Option.some.inj hsome ▸ hcomputed _ hs

/-- Every row that is read ascends. -/
theorem isAscending_of_parse (h : parse text = .ok f) : ∀ r ∈ f.rows, r.lhs.IsAscending := by
  intro r hr
  obtain ⟨_, _, hrows, _⟩ := isComputed_of_parse h
  obtain ⟨_, _, written, _, _, hcompute⟩ := hrows r hr
  cases written with
  | objective terms =>
    obtain ⟨form, _, hcompute⟩ := bind_eq_ok.1 hcompute
    exact absurd (pure_eq_ok.1 hcompute) nofun
  | row terms sign degree =>
    obtain ⟨c, hc, hcompute⟩ := bind_eq_ok.1 hcompute
    obtain ⟨r', hr', hcompute⟩ := bind_eq_ok.1 hcompute
    obtain rfl := Statement.row.inj (pure_eq_ok.1 hcompute)
    obtain ⟨terms', hraw, _⟩ := exists_lhs_of_constrain hc
    exact Constraint.isAscending_normalize hraw hr'

theorem le_numVars_of_parse (h : parse text = .ok f) {r : Row} (hr : r ∈ f.rows) {v : Var}
    (hv : v ∈ r.vars) : v.id ≤ f.numVars :=
  le_numVars hr (isAscending_of_parse h r hr) hv

end Texts

/-- Whether every variable that a word of a text names is in range. -/
def NamesInRange (text : String) : Prop := ∀ lines, readLines text = .ok lines →
  ∀ t ∈ lines.flatMap Line.tokens, ∀ x, t.var? = some x → x.InRange

end PseudoBoolean.Opb
