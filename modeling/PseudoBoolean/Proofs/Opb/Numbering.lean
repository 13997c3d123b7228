import PseudoBoolean.Proofs.Opb.Overflow

/-!
Which variables a text is about.

A number goes from a word into a signed literal and back into the form of its statement:

    x7             ⟼            7  ⟼  x7
    ~x7            ⟼           -7  ⟼  x7
    x2147483648    ⟼  -2147483648  ⟼  x2147483648
    x3000000000    ⟼  -1294967296  ⟼  x1294967296

Up to `2^31` it comes back as it was written. Above, what comes back is the distance to `2^32`. So a
statement mentions the variables that its own words name, each under the smaller of the two
(`Opb.parse_numbering`).
-/

namespace PseudoBoolean

/-- The positive literal of a variable names the number or its distance to `2^32`, whichever is
smaller. -/
theorem Var.id_var_pos (x : Var) :
    x.pos.var.id.toNat = min x.id.toNat (0x100000000 - x.id.toNat) := by
  have hlt := x.id.toNat_lt
  have hcode : x.pos.code.toInt = (x.id.toNat : Int).bmod (2 ^ 32) := by
    show x.id.toInt32.toInt = _
    rw [← Int32.toInt_toBitVec, UInt32.toBitVec_toInt32, BitVec.toInt_eq_toNat_bmod]
    rfl
  rw [Lit.id_var, hcode, Int.bmod_def]
  split <;> omega

/-- The negative literal of a variable names what the positive one does. -/
theorem Var.var_neg {x : Var} {l : Lit} (h : x.neg = .ok l) : l.var = x.pos.var := by
  obtain ⟨_, hcode⟩ := Lit.negate_eq_ok h
  apply Var.ext_id
  rw [← UInt32.toNat_inj, Lit.id_var, Lit.id_var, hcode, Int.natAbs_neg]

namespace Opb

/-- Whether a word of a statement names a variable. -/
def Names (statement : List Token) (x : Var) : Prop := ∃ t ∈ statement, t.var? = some x

/-- Whether variables are numbered as a statement names them: each as some word does or, where that
has a number above `2^31`, by the distance to `2^32`. -/
def Numbered (statement : List Token) (vars : List Var) : Prop := ∀ w ∈ vars, ∃ x,
  Names statement x ∧ w.id.toNat = min x.id.toNat (0x100000000 - x.id.toNat)

/-- The statements of some lines that are not empty. -/
def statementsOf (lines : List Line) : List (List Token) :=
  ((lines.flatMap Line.tokens).splitOnP (·.text == ";")).filter (· ≠ [])

/-- The variables of what a statement says. -/
def Statement.vars : Statement → List Var
  | objective form => form.vars
  | row r => r.vars

section Statements
variable {coeff literal first : Token} {words piece : List Token} {written : Written}
  {s : Statement} {l : Lit}

/-- No number up to `2^31` is changed. -/
theorem Numbered.names {vars : List Var} (h : Numbered piece vars)
    (hle : ∀ x, Names piece x → x.id.toNat ≤ 0x80000000) : ∀ w ∈ vars, Names piece w := by
  intro w hw
  obtain ⟨x, hx, hid⟩ := h w hw
  have hx' := hle x hx
  obtain rfl : w = x := Var.ext_id (UInt32.toNat_inj.1 (by omega))
  exact hx

theorem exists_var_of_readLit (h : readLit coeff literal = .ok l) :
    ∃ x, literal.var? = some x ∧ l.var = x.pos.var := by
  obtain ⟨x, hx, hl⟩ := readLit_eq_ok.1 h
  refine ⟨x, hx, ?_⟩
  split at hl
  · exact Var.var_neg hl
  · rw [hl]

/-- Every variable of a statement is that of a term that is written in it. -/
theorem exists_term_of_compute (h : written.compute = .ok s) :
    ∀ w ∈ s.vars, ∃ t ∈ written.terms, t.lit.var = w := by
  intro w hw
  cases written with
  | objective terms =>
    obtain ⟨form, hform, h⟩ := bind_eq_ok.1 h
    obtain rfl := pure_eq_ok.1 h
    exact LinearForm.exists_term_of_collect hform hw
  | row terms sign degree =>
    obtain ⟨c, hc, h⟩ := bind_eq_ok.1 h
    obtain ⟨r, hr, h⟩ := bind_eq_ok.1 h
    obtain rfl := pure_eq_ok.1 h
    obtain ⟨terms', hraw, hvars⟩ := exists_lhs_of_constrain hc
    obtain ⟨form, hform, hr⟩ := bind_eq_ok.1 hr
    obtain ⟨_, _, hr⟩ := bind_eq_ok.1 hr
    obtain rfl := pure_eq_ok.1 hr
    rw [hraw] at hform
    obtain ⟨t, ht, rfl⟩ := LinearForm.exists_term_of_collect hform hw
    have hmem : t.lit.var ∈ terms.map (·.lit.var) := hvars ▸ List.mem_map_of_mem ht
    exact List.mem_map.1 hmem

/-- A statement is numbered as its own words name its variables. -/
theorem IsRead.numbered (h : IsRead piece s) : Numbered piece s.vars := by
  obtain ⟨first, words, written, rfl, hread, hcompute⟩ := h
  intro w hw
  obtain ⟨t, ht, rfl⟩ := exists_term_of_compute hcompute w hw
  obtain ⟨_, _, literal, hmem, hlit⟩ := exists_token_of_readWritten hread t ht
  obtain ⟨x, hx, hvar⟩ := exists_var_of_readLit hlit
  exact ⟨x, ⟨literal, hmem, hx⟩, by rw [hvar, Var.id_var_pos]⟩

/-- A statement is an objective exactly if it begins as one. -/
theorem isObjective_iff (h : readWritten first words = .ok written) :
    isObjective (first :: words) = true ↔ ∃ terms, written = .objective terms := by
  have hfirst : isObjective (first :: words) = (first.text == "min:") := rfl
  rw [hfirst, beq_iff_eq]
  rw [readWritten] at h
  split at h
  · next hmin =>
    obtain ⟨terms, _, h⟩ := bind_eq_ok.1 h
    obtain rfl := pure_eq_ok.1 h
    exact iff_of_true hmin ⟨terms, rfl⟩
  · next hmin =>
    refine iff_of_false hmin ?_
    rintro ⟨terms, rfl⟩
    dsimp only at h
    split at h
    · exact absurd h Token.refuse_ne_ok
    · obtain ⟨_, _, h⟩ := bind_eq_ok.1 h
      obtain ⟨_, _, h⟩ := bind_eq_ok.1 h
      split at h
      · exact absurd h Token.refuse_ne_ok
      · cases pure_eq_ok.1 h

/-- An objective says a form, and any other statement a row. -/
theorem IsRead.cases (h : IsRead piece s) :
    (isObjective piece = true ∧ ∃ form, s = .objective form) ∨
      (isObjective piece = false ∧ ∃ r, s = .row r) := by
  obtain ⟨first, words, written, rfl, hread, hcompute⟩ := h
  have hobjective := isObjective_iff hread
  cases written with
  | objective terms =>
    obtain ⟨form, _, hcompute⟩ := bind_eq_ok.1 hcompute
    exact .inl ⟨hobjective.2 ⟨terms, rfl⟩, form, (pure_eq_ok.1 hcompute).symm⟩
  | row terms sign degree =>
    obtain ⟨_, _, hcompute⟩ := bind_eq_ok.1 hcompute
    obtain ⟨r, _, hcompute⟩ := bind_eq_ok.1 hcompute
    refine .inr ⟨Bool.eq_false_iff.2 fun h => ?_, r, (pure_eq_ok.1 hcompute).symm⟩
    obtain ⟨_, h⟩ := hobjective.1 h
    exact absurd h nofun

end Statements

/-! ### Texts -/

/-- Members that pass a test are related to what is kept of the list beside them. -/
theorem forall₂_filter {α β γ : Type} {R : α → β → Prop} {Q : α → γ → Prop} {p : α → Bool}
    {keep : β → Option γ} {l : List α} {l' : List β} (h : List.Forall₂ R l l')
    (hkeep : ∀ a b, R a b → (p a = true ∧ ∃ c, keep b = some c ∧ Q a c) ∨
      (p a = false ∧ keep b = none)) : List.Forall₂ Q (l.filter p) (l'.filterMap keep) := by
  induction h with
  | nil => exact .nil
  | cons hab _ ih =>
    rcases hkeep _ _ hab with ⟨hp, c, hc, hq⟩ | ⟨hp, hnone⟩
    · rw [List.filter_cons_of_pos hp, List.filterMap_cons_some hc]
      exact .cons hq ih
    · rw [List.filter_cons_of_neg (Bool.eq_false_iff.1 hp), List.filterMap_cons_none hnone]
      exact ih

/-- Whether variables are those of a statement: numbered as it names them, and none renumbered unless
some number of it is above `2^31`. -/
def AreVarsOf (statement : List Token) (vars : List Var) : Prop := Numbered statement vars ∧
  ((∀ x, Names statement x → x.id.toNat ≤ 0x80000000) → ∀ w ∈ vars, Names statement w)

/-- The variables of what is read: every row has those of its own statement, and the objective those
of the statement that begins as one. -/
theorem parse_numbering {text : String} {f : Opb} (h : parse text = .ok f) :
    ∃ lines, readLines text = .ok lines ∧
      List.Forall₂ (fun statement r => AreVarsOf statement r.vars)
        ((statementsOf lines).filter (!isObjective ·)) f.rows ∧
      ∀ g ∈ f.objective, ∃ statement ∈ ((statementsOf lines).filter isObjective).head?,
        AreVarsOf statement g.vars := by
  obtain ⟨lines, pieces, found, hlines, hsplit, hfound, rfl⟩ := parse_eq_ok.1 h
  have hread : List.Forall₂ IsRead (statementsOf lines) found := by
    rw [statementsOf, hsplit, List.filter_append]
    simpa using forall₂_isRead hfound
  have hvars : ∀ piece s, IsRead piece s → AreVarsOf piece s.vars :=
    fun piece s hs => ⟨hs.numbered, hs.numbered.names⟩
  refine ⟨lines, hlines, forall₂_filter hread fun piece s hs => ?_, fun g hg => ?_⟩
  · rcases hs.cases with ⟨hpiece, form, rfl⟩ | ⟨hpiece, r, rfl⟩
    · exact .inr ⟨by rw [hpiece]; rfl, rfl⟩
    · exact .inl ⟨by rw [hpiece]; rfl, r, rfl, hvars _ _ hs⟩
  · have hobjectives : List.Forall₂ (fun piece (g : LinearForm) => AreVarsOf piece g.vars)
        ((statementsOf lines).filter isObjective) (found.filterMap Statement.objective?) := by
      refine forall₂_filter hread fun piece s hs => ?_
      rcases hs.cases with ⟨hpiece, form, rfl⟩ | ⟨hpiece, r, rfl⟩
      · exact .inl ⟨hpiece, form, rfl, hvars _ _ hs⟩
      · exact .inr ⟨hpiece, rfl⟩
    have hfirst : (found.filterMap Statement.objective?).head? = some g := by
      rw [List.head?_filterMap]
      exact hg
    obtain ⟨later, hlater⟩ := List.head?_eq_some_iff.1 hfirst
    rw [hlater] at hobjectives
    obtain ⟨statement, _, hstatement, _, hstatements⟩ := List.forall₂_cons_right_iff.1 hobjectives
    exact ⟨statement, by rw [hstatements]; rfl, hstatement⟩

/-- An objective on `x7`, and a row on `x5` and a variable above `2^31`. -/
def farText : String := "min: 1 ~x7 ;\n2 x5 -1 x3000000000 >= 0 ;"

/-- The same with the smaller number, `x1294967296`, and the sign that it gives. -/
def farFormula : Opb where
  rows := [.ofTerms [⟨2, ⟨5, by decide⟩⟩, ⟨1, ⟨1294967296, by decide⟩⟩] .geq 1]
  objective := some ⟨[⟨-1, ⟨7, by decide⟩⟩], 1⟩
  minVars := 0

theorem parse_numbering_far : parse farText = .ok farFormula ∧
    ∃ lines, readLines farText = .ok lines ∧
      List.Forall₂ (fun statement r => AreVarsOf statement r.vars)
        ((statementsOf lines).filter (!isObjective ·)) farFormula.rows ∧
      ∀ g ∈ farFormula.objective, ∃ statement ∈ ((statementsOf lines).filter isObjective).head?,
        AreVarsOf statement g.vars := by
  have h : parse farText = .ok farFormula := by decide +kernel
  exact ⟨h, parse_numbering h⟩

/-- A row on one variable, which is above `2^31`. -/
def renumberedText : String := "1 x3000000000 >= 0 ;"

/-- It is read as a row on a variable that no word of the text names. -/
theorem parse_renumbered : ∃ f lines r w, parse renumberedText = .ok f ∧
    readLines renumberedText = .ok lines ∧ r ∈ f.rows ∧ w ∈ r.vars ∧ w.id = 1294967296 ∧
    ∀ t ∈ lines.flatMap Line.tokens, t.var? ≠ some w := by
  have hparse : parse renumberedText =
      .ok (ofRows [.ofTerms [⟨-1, ⟨1294967296, by decide⟩⟩] .geq (-1)]) := by decide +kernel
  have hlines : readLines renumberedText =
      .ok [.content (["1", "x3000000000", ">=", "0", ";"].map (Token.mk 1))] := by rfl
  exact ⟨_, _, _, ⟨1294967296, by decide⟩, hparse, hlines, List.mem_singleton_self _,
    List.mem_singleton_self _, rfl, by decide +kernel⟩

end Opb

end PseudoBoolean
