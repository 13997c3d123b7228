import PseudoBoolean.Proofs.Linear.Bound
import PseudoBoolean.Proofs.Opb.Words

/-!
However statements are laid out, they are read as what they say.

    statements ──spelled, each ended by ";"──▶ words ──laid out──▶ lines of a text

Words stand on any number of lines with blanks between them, a semicolon needs none, comments stand
between lines, and a semicolon may stand for a statement that says nothing. Every row that is read
holds where the terms that were written, each literal taken as it stands, compare with the degree;
and the objective evaluates to the sum of its terms (`Opb.parse_laidOut`).
-/

namespace PseudoBoolean.Opb

/-! ### Layouts -/

/-- The words of statements in order, each statement ended by a semicolon, empty ones at will. -/
inductive Phrased : List Written → List String → Prop
  | nil : Phrased [] []
  | empty {statements words} (h : Phrased statements words) : Phrased statements (";" :: words)
  | statement {statement statements spelled words} (hspelled : statement.Spelled spelled)
      (h : Phrased statements words) : Phrased (statement :: statements) (spelled ++ ";" :: words)

/-- The lines that hold some words. A word is followed by a blank, a semicolon or the line's end. -/
inductive Spaced : List String → List Char → Prop
  | nil : Spaced [] []
  | blank {b words cs} (hb : Text.isBlank b = true) (h : Spaced words cs) : Spaced words (b :: cs)
  | semicolon {words cs} (h : Spaced words cs) : Spaced (";" :: words) (';' :: cs)
  | word {w words cs} (hw : IsWord w) (hnext : ∀ c ∈ cs.head?, Text.isBlank c = true ∨ c = ';')
      (h : Spaced words cs) : Spaced (w :: words) (w.toList ++ cs)

/-- A line of words, or a comment without the mark of a declaration, which holds none. -/
inductive Line.Holds : List String → List Char → Prop
  | content {words line} (h : Spaced words line) : Holds words line
  | comment {blanks text} (hblanks : ∀ b ∈ blanks, Text.isBlank b = true)
      (hmark : ¬ "#variable=".toList <:+: text) : Holds [] (blanks ++ '*' :: text)

/-- Whether the lines of a text hold some words between them, in order. -/
def LaidOut (words : List String) (text : String) : Prop :=
  ∃ held, List.Forall₂ Line.Holds held (text.toList.splitOn '\n') ∧ held.flatten = words

/-! ### Lines -/

section Spaced
variable {words : List String} {line : List Char}

theorem Spaced.word_cons {w : String} {c : Char} {cs : List Char} (hw : IsWord w)
    (hc : Text.isBlank c = true ∨ c = ';') (h : Spaced words (c :: cs)) :
    Spaced (w :: words) (w.toList ++ c :: cs) :=
  .word hw (fun _ hd => Option.some.inj hd ▸ hc) h

theorem ne_semicolon_of_isBlank {b : Char} (hb : Text.isBlank b = true) : b ≠ ';' := by
  rintro rfl
  revert hb
  decide

theorem spread_blanks {bs : List Char} (hb : ∀ b ∈ bs, Text.isBlank b = true) (cs : List Char) :
    spread (bs ++ cs) = bs ++ spread cs :=
  spread_append cs fun b hmem => ne_semicolon_of_isBlank (hb b hmem)

theorem spread_blank {b : Char} (hb : Text.isBlank b = true) (cs : List Char) :
    spread (b :: cs) = b :: spread cs :=
  spread_blanks (List.forall_mem_singleton.2 hb) cs

theorem spread_append_blanks (cs : List Char) {bs : List Char}
    (hb : ∀ b ∈ bs, Text.isBlank b = true) : spread (cs ++ bs) = spread cs ++ bs := by
  have hbs : spread bs = bs := by
    have h := spread_blanks hb []
    rw [List.append_nil] at h
    exact h.trans (List.append_nil bs)
  rw [spread, List.flatMap_append]
  exact congrArg (spread cs ++ ·) hbs

/-- Trimming a line leaves its words. -/
theorem wordsOf_spread_trimOf (cs : List Char) :
    Text.wordsOf (spread (Text.trimOf cs)) = Text.wordsOf (spread cs) := by
  obtain ⟨before, after, hcs, hbefore, hafter⟩ := Text.exists_trimOf cs
  have hspread : spread cs = before ++ (spread (Text.trimOf cs) ++ after) := by
    conv_lhs => rw [hcs]
    rw [spread_blanks hbefore, spread_append_blanks _ hafter]
  rw [hspread, Text.wordsOf_blanks_append hbefore, Text.wordsOf_append_blanks hafter]

/-- The words of a line are those that it holds. -/
theorem wordsOf_spread (h : Spaced words line) :
    Text.wordsOf (spread line) = words.map String.toList := by
  induction h with
  | nil => rfl
  | blank hb _ ih => rw [spread_blank hb, Text.wordsOf_cons hb, ih]
  | @semicolon words cs _ ih =>
    have hspread : spread (';' :: cs) = ' ' :: ([';'] ++ ' ' :: spread cs) := rfl
    have hword : Text.IsWord [';'] := by decide
    rw [hspread, Text.wordsOf_cons (by decide), Text.wordsOf_append_blank hword (by decide), ih]
    rfl
  | @word w words cs hw hnext _ ih =>
    rw [spread_append cs hw.ne_semicolon, List.map_cons]
    cases cs with
    | nil =>
      obtain rfl : words = [] := List.map_eq_nil_iff.1 ih.symm
      have hnil : spread [] = [] := rfl
      rw [hnil, List.append_nil, Text.wordsOf_word hw.isWord]
      rfl
    | cons c cs =>
      -- what follows the word begins with a blank once the semicolons stand alone
      obtain ⟨b, rest, hb, hrest⟩ : ∃ b rest, Text.isBlank b = true ∧ spread (c :: cs) = b :: rest := by
        rcases hnext c rfl with hc | rfl
        · exact ⟨c, spread cs, hc, spread_blank hc cs⟩
        · exact ⟨' ', ';' :: ' ' :: spread cs, by decide, rfl⟩
      rw [hrest, Text.wordsOf_cons hb] at ih
      rw [hrest, Text.wordsOf_append_blank hw.isWord hb, ih]

theorem star_notMem (h : Spaced words line) : '*' ∉ line := by
  induction h with
  | nil => exact nofun
  | blank hb _ ih =>
    intro hmem
    rcases List.mem_cons.1 hmem with rfl | hmem
    · revert hb
      decide
    · exact ih hmem
  | semicolon _ ih =>
    intro hmem
    rcases List.mem_cons.1 hmem with hmem | hmem
    · revert hmem
      decide
    · exact ih hmem
  | word hw _ _ ih =>
    intro hmem
    rcases List.mem_append.1 hmem with hmem | hmem
    · exact absurd rfl (hw.2 '*' hmem).2.2.2
    · exact ih hmem

/-- A mark that is nowhere in a text cuts it nowhere. -/
theorem cut?_of_not_infix {mark cs : List Char} (h : ¬ mark <:+: cs) : Text.cut? mark cs = none := by
  induction cs with
  | nil =>
    have hmark : mark ≠ [] := by
      rintro rfl
      exact h (List.nil_infix)
    rw [Text.cut?, if_neg hmark]
  | cons c cs ih =>
    have hprefix : ¬ mark.isPrefixOf (c :: cs) = true := fun hp =>
      h (List.isPrefixOf_iff_prefix.1 hp).isInfix
    rw [Text.cut?, if_neg hprefix, ih fun hi => h (List.infix_cons hi), Option.map_none]

/-- What a line holds is read from it, and it declares nothing. -/
theorem readLine_of_holds (h : Line.Holds words line) (number : Nat) :
    ∃ l, readLine (number, String.ofList line) = .ok l ∧ l.tokens.map (·.text) = words ∧
      l.declared? = none := by
  rw [readLine, Text.trim, String.toList_ofList, String.toList_ofList]
  cases h with
  | content h =>
    have hnot : '*' ∉ Text.trimOf line := by
      obtain ⟨before, after, hline, _⟩ := Text.exists_trimOf line
      have hstar := star_notMem h
      rw [hline] at hstar
      simp only [List.mem_append, not_or] at hstar
      exact hstar.2.1
    have hwords : lineWords (String.ofList (Text.trimOf line)) = words := by
      rw [lineWords_eq, String.toList_ofList, wordsOf_spread_trimOf, wordsOf_spread h,
        List.map_map]
      exact (List.map_congr_left fun w _ => String.ofList_toList).trans (List.map_id _)
    refine ⟨.content (words.map (Token.mk number)), ?_, ?_, rfl⟩
    · split
      · next hcs => exact absurd (hcs ▸ List.mem_cons_self ..) hnot
      · rw [hwords]
        rfl
    · rw [Line.tokens, List.map_map]
      exact List.map_id words
  | @comment blanks text hblanks hmark =>
    obtain ⟨rest, htrim, hprefix⟩ := Text.trimOf_cons (by decide : Text.isBlank '*' = false) text
    have hline : Text.trimOf (blanks ++ '*' :: text) = '*' :: rest := by
      rw [← htrim, Text.trimOf, Text.trimOf, List.dropWhile_append_of_pos hblanks]
    have hnone : declaredCount? number (String.ofList rest) = .ok none := by
      have hrest : (String.ofList rest).toList = rest := String.toList_ofList
      have hcut : Text.cut? "#variable=".toList (String.ofList rest).toList = none := by
        rw [hrest]
        exact cut?_of_not_infix fun hi => hmark (hi.trans hprefix.isInfix)
      dsimp only [declaredCount?]
      rw [hcut]
    refine ⟨.comment none, ?_, rfl, rfl⟩
    rw [hline]
    show Line.comment <$> declaredCount? number (String.ofList rest) = _
    rw [hnone]
    rfl

/-- A return at the end of a line changes nothing that is read. -/
theorem readLine_dropReturn (line : List Char) (number : Nat) :
    readLine (number, String.ofList (Text.dropReturn line)) =
      readLine (number, String.ofList line) := by
  have htrim : Text.trim (String.ofList (Text.dropReturn line)) = Text.trim (String.ofList line) := by
    rw [Text.trim, Text.trim, String.toList_ofList, String.toList_ofList, Text.trimOf_dropReturn]
  rw [readLine, readLine, htrim]

end Spaced

/-! ### Texts -/

/-- Whether words are read from a line, whatever its number, and nothing is declared. -/
def ReadsAs (words : List String) (line : List Char) : Prop :=
  ∀ number, ∃ l, readLine (number, String.ofList line) = .ok l ∧ l.tokens.map (·.text) = words ∧
    l.declared? = none

theorem mapM_readLine {held : List (List String)} {ls : List (List Char)}
    (h : List.Forall₂ ReadsAs held ls) : ∀ n : Nat, ∃ lines,
      (((ls.map String.ofList).zipIdx n).map fun (line, number) => (number, line)).mapM readLine =
        .ok lines ∧
      (lines.flatMap Line.tokens).map (·.text) = held.flatten ∧
      lines.filterMap Line.declared? = [] := by
  induction h with
  | nil => exact fun _ => ⟨[], rfl, rfl, rfl⟩
  | @cons words line held ls hline _ ih =>
    intro n
    obtain ⟨l, hl, htext, hdeclared⟩ := hline n
    obtain ⟨lines, hlines, htexts, hdeclareds⟩ := ih (n + 1)
    refine ⟨l :: lines, ?_, ?_, ?_⟩
    · rw [List.map_cons, List.zipIdx_cons, List.map_cons, List.mapM_cons]
      exact bind_eq_ok.2 ⟨l, hl, bind_eq_ok.2 ⟨lines, hlines, rfl⟩⟩
    · rw [List.flatMap_cons, List.map_append, htext, htexts, List.flatten_cons]
    · rw [List.filterMap_cons_none hdeclared, hdeclareds]

theorem eq_nil_of_holds_nil {words : List String} (h : Line.Holds words []) : words = [] := by
  generalize hline : ([] : List Char) = line at h
  cases h with
  | content h =>
    cases h with
    | nil => rfl
    | blank => exact absurd hline nofun
    | semicolon => exact absurd hline nofun
    | word hw => exact absurd (List.append_eq_nil_iff.1 hline.symm).1 hw.1
  | comment => exact absurd (List.append_eq_nil_iff.1 hline.symm).2 nofun

/-- The lines of a text hold what its pieces between newlines hold. -/
theorem exists_held_linesOf {held : List (List String)} {cs : List Char}
    (h : List.Forall₂ Line.Holds held (cs.splitOn '\n')) :
    ∃ held', List.Forall₂ ReadsAs held' (Text.linesOf cs) ∧ held'.flatten = held.flatten := by
  obtain ⟨pieces, last, hsplit⟩ :=
    (List.eq_nil_or_concat (cs.splitOn '\n')).resolve_left (List.splitOnP_ne_nil _ _)
  rw [List.concat_eq_append] at hsplit
  rw [hsplit] at h
  have hfront := List.forall₂_take_append _ _ _ h
  have hback := List.forall₂_drop_append _ _ _ h
  obtain ⟨front, back, hheld, hfrontEq, hbackEq⟩ : ∃ front back, held = front ++ back ∧
      held.take pieces.length = front ∧ held.drop pieces.length = back :=
    ⟨_, _, (List.take_append_drop ..).symm, rfl, rfl⟩
  rw [hfrontEq] at hfront
  rw [hbackEq] at hback
  obtain ⟨words, _, hlast, hnil, rfl⟩ := List.forall₂_cons_right_iff.1 hback
  obtain rfl := List.forall₂_nil_right_iff.1 hnil
  have hreads : List.Forall₂ ReadsAs front (pieces.map Text.dropReturn) := by
    refine List.forall₂_map_right_iff.2 (hfront.imp fun words line hholds number => ?_)
    rw [readLine_dropReturn]
    exact readLine_of_holds hholds number
  rw [Text.linesOf, hsplit, List.dropLast_concat, List.getLast?_concat, hheld]
  cases last with
  | nil =>
    obtain rfl := eq_nil_of_holds_nil hlast
    refine ⟨front, ?_, by simp⟩
    exact (List.append_nil (pieces.map Text.dropReturn)).symm ▸ hreads
  | cons c last =>
    refine ⟨front ++ [words], List.rel_append hreads (.cons ?_ .nil), rfl⟩
    exact readLine_of_holds hlast

/-- What a text holds is read from its lines. -/
theorem readLines_of_laidOut {words : List String} {text : String} (h : LaidOut words text) :
    ∃ lines, readLines text = .ok lines ∧ (lines.flatMap Line.tokens).map (·.text) = words ∧
      lines.filterMap Line.declared? = [] := by
  obtain ⟨held, hheld, rfl⟩ := h
  obtain ⟨held', hreads, hflat⟩ := exists_held_linesOf hheld
  rw [← hflat]
  exact mapM_readLine hreads 1

/-! ### Statements -/

/-- How a sign compares integers. -/
def Sign.Holds : Sign → Int → Int → Prop
  | geq, lhs, degree => degree ≤ lhs
  | eq, lhs, degree => lhs = degree
  | leq, lhs, degree => lhs ≤ degree

/-- Whether a statement fits words: its literals are in range, and so is the sum of its absolute
coefficients and its absolute degree. -/
def Written.Fits : Written → Prop
  | objective terms => (∀ t ∈ terms, t.lit.InRange) ∧ Term.weight terms ≤ Word.largest
  | row terms _ degree =>
    (∀ t ∈ terms, t.lit.InRange) ∧ Term.weight terms + degree.toInt.natAbs ≤ Word.largest

def Written.objective? : Written → Option (List Term)
  | objective terms => some terms
  | row .. => none

def Written.row? : Written → Option (List Term × Sign × Int64)
  | objective _ => none
  | row terms sign degree => some (terms, sign, degree)

/-- Whether a form evaluates to the sum of some terms, each literal taken as it stands. -/
def SaysObjective (terms : List Term) (form : LinearForm) : Prop :=
  ∀ v, ∃ a, form.evaluate v = .ok a ∧ a.toInt = Term.total terms v

/-- Whether a row is satisfied exactly where the sum of some terms compares with a degree. -/
def SaysRow : List Term × Sign × Int64 → Row → Prop
  | (terms, sign, degree), r =>
    ∀ v, ∃ b, r.isSatisfied v = .ok b ∧ (b = true ↔ sign.Holds (Term.total terms v) degree.toInt)

section Row
variable {terms : List Term} {sign : Sign} {degree : Int64}

/-- A sign makes a constraint with the same meaning and weight. -/
theorem exists_constrain (sign : Sign)
    (h : Term.weight terms + degree.toInt.natAbs ≤ Word.largest) :
    ∃ terms' relation degree', sign.constrain (.raw terms) degree =
        .ok ⟨.raw terms', relation, degree'⟩ ∧
      Term.weight terms' + degree'.toInt.natAbs ≤ Word.largest ∧
      ∀ v, Constraint.Holds ⟨.raw terms', relation, degree'⟩ v ↔
        sign.Holds (Term.total terms v) degree.toInt := by
  cases sign with
  | geq => exact ⟨terms, .geq, degree, rfl, h, fun v => Iff.rfl⟩
  | eq => exact ⟨terms, .eq, degree, rfl, h, fun v => Iff.rfl⟩
  | leq =>
    have hterms : Term.weight terms ≤ Word.largest := by omega
    obtain ⟨terms', hterms, hweight⟩ := Term.exists_mapM_neg hterms
    have hfits : (-degree.toInt).natAbs ≤ Word.largest := by omega
    obtain ⟨negated, hneg, hvalue⟩ := Word.exists_checked .negate hfits
    refine ⟨terms', .geq, negated, ?_, by omega, fun v => ?_⟩
    · exact bind_eq_ok.2 ⟨.raw terms', bind_eq_ok.2 ⟨terms', hterms, rfl⟩,
        bind_eq_ok.2 ⟨negated, hneg, rfl⟩⟩
    · have htotal := Term.total_neg (mapM_neg_coeff hterms) v
      simp only [Constraint.Holds, Relation.Holds, Expression.value, Sign.Holds, htotal, hvalue]
      omega

/-- A row that fits is read from its words, and says what was written. -/
theorem exists_readRow (hfits : (Written.row terms sign degree).Fits) {words : List String}
    (h : (Written.row terms sign degree).Spelled words) {toks : List Token}
    (htoks : toks.map (·.text) = words) :
    ∃ r, (∀ first, readRow first toks = .ok r) ∧ SaysRow (terms, sign, degree) r := by
  obtain ⟨terms', relation, degree', hc, hweight, hholds⟩ := exists_constrain sign hfits.2
  obtain ⟨r, hr, hle⟩ := Constraint.exists_normalize hweight
  refine ⟨r, fun first => readRow_of_spelled h hfits.1 hc hr first htoks, fun v => ?_⟩
  obtain ⟨b, hb, hiff⟩ := Row.exists_isSatisfied (r := r) (by omega) v
  exact ⟨b, hb, hiff.trans ((Constraint.holds_normalize hr v).trans (hholds v))⟩

/-- Terms that fit make a form with their value. -/
theorem exists_objective (h : Term.weight terms ≤ Word.largest) :
    ∃ form, (Expression.raw terms).normalize = .ok form ∧ SaysObjective terms form := by
  have hfits : (0 : Int64).toInt.natAbs + Term.weight terms ≤ Word.largest := by simpa using h
  obtain ⟨form, hform, hweight, _⟩ := LinearForm.exists_collect hfits
  refine ⟨form, hform, fun v => ?_⟩
  have hvalue : form.value v = Term.total terms v :=
    Expression.value_normalize (e := .raw terms) hform v
  have hle := Term.natAbs_total_le terms v
  obtain ⟨a, ha, hav⟩ := LinearForm.exists_evaluate (f := form) (v := v) (by omega) (by omega)
  exact ⟨a, ha, hav.trans hvalue⟩

end Row

/-- Whether a statement that was read says what was written. -/
def Written.IsRead : Written → Statement → Prop
  | objective terms, .objective form => SaysObjective terms form
  | row terms sign degree, .row r => SaysRow (terms, sign, degree) r
  | _, _ => False

/-- Whether pieces are read as what was written, where at most one objective comes in all. -/
def PiecesSay (statements : List Written) (pieces : List (List Token)) : Prop :=
  ∀ hasObjective : Bool,
    hasObjective.toNat + (statements.filterMap Written.objective?).length ≤ 1 →
    ∃ found, readStatements hasObjective pieces = .ok found ∧
      List.Forall₂ Written.IsRead statements found

/-- A statement that fits is read from its words, and then whatever follows it. -/
theorem PiecesSay.cons {statement : Written} {statements : List Written} {words : List String}
    {piece : List Token} {pieces : List (List Token)} (hspelled : statement.Spelled words)
    (hfits : statement.Fits) (hpiece : piece.map (·.text) = words) (h : PiecesSay statements pieces) :
    PiecesSay (statement :: statements) (piece :: pieces) := by
  intro hasObjective hone
  cases statement with
  | objective terms =>
    obtain ⟨form, hform, hsays⟩ := exists_objective hfits.2
    have hcount : hasObjective.toNat + ((statements.filterMap Written.objective?).length + 1) ≤ 1 :=
      hone
    obtain rfl : hasObjective = false := by
      cases hasObjective with
      | false => rfl
      | true => exact absurd hcount (by simp)
    have hnext : true.toNat + (statements.filterMap Written.objective?).length ≤ 1 := by
      rw [Bool.toNat_true]
      omega
    obtain ⟨found, hfound, hall⟩ := h true hnext
    exact ⟨_, readStatements_objective hspelled hfits.1 hform hpiece hfound, .cons hsays hall⟩
  | row terms sign degree =>
    obtain ⟨r, hr, hsays⟩ := exists_readRow hfits hspelled hpiece
    rw [List.filterMap_cons_none rfl] at hone
    obtain ⟨found, hfound, hall⟩ := h hasObjective hone
    exact ⟨_, readStatements_row hspelled hpiece hr hfound, .cons hsays hall⟩

/-- Statements that fit are read from their words. -/
theorem exists_piecesSay {statements : List Written} {words : List String}
    (h : Phrased statements words) (hfits : ∀ s ∈ statements, s.Fits) : ∀ {toks : List Token},
    toks.map (·.text) = words → ∃ pieces, toks.splitOnP (·.text == ";") = pieces ++ [[]] ∧
      PiecesSay statements pieces := by
  induction h with
  | nil =>
    intro toks htoks
    obtain rfl := List.map_eq_nil_iff.1 htoks
    exact ⟨[], rfl, fun _ _ => ⟨[], rfl, .nil⟩⟩
  | empty _ ih =>
    intro toks htoks
    obtain ⟨semicolon, rest, rfl, hsemicolon, hrest⟩ := List.map_eq_cons_iff.1 htoks
    obtain ⟨pieces, hsplit, hread⟩ := ih hfits hrest
    refine ⟨[] :: pieces, ?_, hread⟩
    have hnone : ∀ t ∈ ([] : List Token), (t.text == ";") = false := nofun
    have hcons := List.splitOnP_append_cons_of_forall_mem hnone semicolon (beq_iff_eq.2 hsemicolon)
      rest
    rw [hsplit] at hcons
    exact hcons
  | statement hspelled _ ih =>
    intro toks htoks
    obtain ⟨front, back, rfl, hfront, hback⟩ := List.map_eq_append_iff.1 htoks
    obtain ⟨semicolon, rest, rfl, hsemicolon, hrest⟩ := List.map_eq_cons_iff.1 hback
    obtain ⟨pieces, hsplit, hread⟩ := ih (fun s hs => hfits s (List.mem_cons_of_mem _ hs)) hrest
    refine ⟨front :: pieces, ?_, .cons hspelled (hfits _ (List.mem_cons_self ..)) hfront hread⟩
    have hnone : ∀ t ∈ front, (t.text == ";") = false := by
      intro t ht
      exact semicolon_ne (isWord_of_mem_written hspelled t.text (hfront ▸ List.mem_map_of_mem ht))
    rw [List.splitOnP_append_cons_of_forall_mem hnone semicolon (beq_iff_eq.2 hsemicolon), hsplit,
      List.cons_append]

/-! ### Formulas -/

section IsRead
variable {statements : List Written} {found : List Statement}

theorem forall₂_rows (h : List.Forall₂ Written.IsRead statements found) :
    List.Forall₂ SaysRow (statements.filterMap Written.row?) (found.filterMap Statement.row?) := by
  induction h with
  | nil => exact .nil
  | @cons s t _ _ hst _ ih =>
    cases s with
    | objective =>
      cases t with
      | objective => exact ih
      | row => exact hst.elim
    | row =>
      cases t with
      | objective => exact hst.elim
      | row => exact .cons hst ih

/-- The first objective that was read is the first that was written, if there is one. -/
theorem findSome?_objective (h : List.Forall₂ Written.IsRead statements found) :
    match statements.findSome? Written.objective?, found.findSome? Statement.objective? with
    | some terms, some form => SaysObjective terms form
    | none, none => True
    | _, _ => False := by
  induction h with
  | nil => trivial
  | @cons s t _ _ hst _ ih =>
    cases s with
    | objective =>
      cases t with
      | objective => exact hst
      | row => exact hst.elim
    | row =>
      cases t with
      | objective => exact hst.elim
      | row => exact ih

end IsRead

/-- However statements are laid out, they are read: a row for each row, in order, that holds where
its terms compare with its degree, and the objective, if one was written. -/
theorem parse_laidOut {statements : List Written} {words : List String} {text : String}
    (hphrased : Phrased statements words) (hlaid : LaidOut words text)
    (hone : (statements.filterMap Written.objective?).length ≤ 1)
    (hfits : ∀ s ∈ statements, s.Fits) :
    ∃ f, parse text = .ok f ∧ List.Forall₂ SaysRow (statements.filterMap Written.row?) f.rows ∧
      match statements.findSome? Written.objective?, f.objective with
      | some terms, some form => SaysObjective terms form
      | none, none => True
      | _, _ => False := by
  obtain ⟨lines, hlines, htokens, hdeclared⟩ := readLines_of_laidOut hlaid
  obtain ⟨pieces, hsplit, hread⟩ := exists_piecesSay hphrased hfits htokens
  obtain ⟨found, hfound, hall⟩ := hread false (by simpa using hone)
  refine ⟨_, parse_eq_ok.2 ⟨lines, pieces, found, hlines, hsplit, hfound, rfl⟩, ?_, ?_⟩
  · exact forall₂_rows hall
  · exact findSome?_objective hall

/-! ### A row over two lines -/

/-- `-2 ~x1 + 3 x1 <= 4`, and `x2` to minimize. -/
def sampleStatements : List Written :=
  [.row [⟨-2, ⟨-1, by decide⟩⟩, ⟨3, x₁.pos⟩] .leq 4, .objective [⟨1, x₂.pos⟩]]

def sampleText : String := "* no count\r\n-2 ~x1 +3 x1\t<=\n 04;;min: 1 x2;"

def sampleWords : List String :=
  ["-2", "~x1", "+3", "x1", "<=", "04"] ++ ";" :: ";" :: (["min:", "1", "x2"] ++ [";"])

theorem phrased_sampleWords : Phrased sampleStatements sampleWords := by
  have hrow : (Written.row [⟨-2, ⟨-1, by decide⟩⟩, ⟨3, x₁.pos⟩] .leq 4).Spelled
      (["-2", "~x1", "+3", "x1"] ++ [Sign.leq.word, "04"]) := by
    refine .row (.cons ?_ ⟨['1'], ?_, by decide⟩ (.cons ?_ ⟨['1'], ?_, by decide⟩ .nil)) ?_
    · exact Decimal.integer?_eq_some.1 (by decide)
    · exact Decimal.natural?_eq_some.1 (by decide)
    · exact Decimal.integer?_eq_some.1 (by decide)
    · exact Decimal.natural?_eq_some.1 (by decide)
    · exact Decimal.integer?_eq_some.1 (by decide)
  have hobjective : (Written.objective [⟨1, x₂.pos⟩]).Spelled ["min:", "1", "x2"] := by
    refine .objective (.cons ?_ ⟨['2'], ?_, by decide⟩ .nil)
    · exact Decimal.integer?_eq_some.1 (by decide)
    · exact Decimal.natural?_eq_some.1 (by decide)
  exact .statement hrow (.empty (.statement hobjective .nil))

theorem laidOut_sampleText : LaidOut sampleWords sampleText := by
  have htext : sampleText.toList =
      "* no count\r".toList ++ '\n' :: ("-2 ~x1 +3 x1\t<=".toList ++ '\n' ::
        " 04;;min: 1 x2;".toList) := by decide +kernel
  have hlines : sampleText.toList.splitOn '\n' =
      ["* no count\r".toList, "-2 ~x1 +3 x1\t<=".toList, " 04;;min: 1 x2;".toList] := by
    rw [htext, List.splitOn_append_cons_self_of_not_mem (by decide),
      List.splitOn_append_cons_self_of_not_mem (by decide),
      List.splitOn_eq_singleton (by decide)]
  refine ⟨[[], ["-2", "~x1", "+3", "x1", "<="], ["04", ";", ";", "min:", "1", "x2", ";"]], ?_, rfl⟩
  rw [hlines]
  refine .cons ?_ (.cons (.content ?_) (.cons (.content ?_) .nil))
  · have hline : "* no count\r".toList = [] ++ '*' :: " no count\r".toList := by decide
    rw [hline]
    exact .comment nofun (by decide +kernel)
  · have hline : "-2 ~x1 +3 x1\t<=".toList = "-2".toList ++ ' ' :: ("~x1".toList ++ ' ' ::
        ("+3".toList ++ ' ' :: ("x1".toList ++ '\t' :: ("<=".toList ++ [])))) := by decide +kernel
    rw [hline]
    refine .word_cons (by decide) (by decide) (.blank (by decide) ?_)
    refine .word_cons (by decide) (by decide) (.blank (by decide) ?_)
    refine .word_cons (by decide) (by decide) (.blank (by decide) ?_)
    refine .word_cons (by decide) (by decide) (.blank (by decide) ?_)
    exact .word (by decide) nofun .nil
  · have hline : " 04;;min: 1 x2;".toList = ' ' :: ("04".toList ++ ';' :: ';' ::
        ("min:".toList ++ ' ' :: ("1".toList ++ ' ' :: ("x2".toList ++ [';'])))) := by
      decide +kernel
    rw [hline]
    refine .blank (by decide) (.word_cons (by decide) (by decide) (.semicolon (.semicolon ?_)))
    refine .word_cons (by decide) (by decide) (.blank (by decide) ?_)
    refine .word_cons (by decide) (by decide) (.blank (by decide) ?_)
    exact .word_cons (by decide) (by decide) (.semicolon .nil)

theorem parse_laidOut_sample : ∃ f, parse sampleText = .ok f ∧
    List.Forall₂ SaysRow (sampleStatements.filterMap Written.row?) f.rows ∧
      match sampleStatements.findSome? Written.objective?, f.objective with
      | some terms, some form => SaysObjective terms form
      | none, none => True
      | _, _ => False := by
  refine parse_laidOut phrased_sampleWords laidOut_sampleText (by decide) ?_
  intro s hs
  rcases List.mem_cons.1 hs with rfl | hs
  · exact ⟨by decide, by decide⟩
  · obtain rfl := List.mem_singleton.1 hs
    exact ⟨by decide, by decide⟩

end PseudoBoolean.Opb
