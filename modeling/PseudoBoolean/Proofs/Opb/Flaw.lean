import PseudoBoolean.Proofs.Opb.Layout
import PseudoBoolean.Proofs.Opb.Statement

/-!
Where a refused text is wrong.

A refusal names a line of the text, and quotes the word of it that is wrong:

    * #variable=two
    +1 x1               ⟼   line 1: bad variable count `two`
    +1 x2 >= 1 ;

    +1 x1 >=
    one ;               ⟼   line 2: bad degree `one`

    +1
    y1 >= 1 ;           ⟼   line 1: bad literal `y1`

The last is the exception: a literal is looked for on the line of its coefficient, and it may stand
on a later one. Every other word stands where the refusal says (`Opb.parse_flaw`).
-/

namespace PseudoBoolean

namespace Text

/-- Whether a text has a line of a number, counted from one. -/
def HasLine (text : String) (number : Nat) (line : String) : Prop :=
  0 < number ∧ (lines text)[number - 1]? = some line

section Lines
variable {text line line' : String} {number : Nat}

theorem hasLine_of_mem (h : (number, line) ∈ numberedLines text) : HasLine text number line := by
  obtain ⟨⟨l, n⟩, hmem, heq⟩ := List.mem_map.1 h
  obtain ⟨rfl, rfl⟩ := Prod.mk.inj heq
  exact List.mk_mem_zipIdx_iff_le_and_getElem?_sub.1 hmem

theorem HasLine.unique (h : HasLine text number line) (h' : HasLine text number line') :
    line = line' := Option.some.inj (h.2.symm.trans h'.2)

end Lines

/-- The first word of a text stands after blanks, and before another blank or at the end. -/
theorem exists_firstWord : ∀ cs : List Char, ∃ blanks after,
    cs = blanks ++ ((firstWord (String.ofList cs)).toList ++ after) ∧
      (∀ b ∈ blanks, isBlank b = true) ∧
      (∀ c ∈ (firstWord (String.ofList cs)).toList, isBlank c = false) ∧
      ∀ b ∈ after.head?, isBlank b = true
  | [] => ⟨[], [], rfl, nofun, nofun, nofun⟩
  | c :: cs => by
    cases hc : isBlank c with
    | true =>
      obtain ⟨blanks, after, hcs, hblanks, hword, hafter⟩ := exists_firstWord cs
      have hfirst : firstWord (String.ofList (c :: cs)) = firstWord (String.ofList cs) := by
        rw [firstWord, words, String.toList_ofList, wordsOf_cons hc, firstWord, words,
          String.toList_ofList]
      rw [hfirst]
      exact ⟨c :: blanks, after, congrArg (c :: ·) hcs, List.forall_mem_cons.2 ⟨hc, hblanks⟩, hword,
        hafter⟩
    | false =>
      rw [firstWord, words, String.toList_ofList]
      rcases splitOnP_cases isBlank (c :: cs) with ⟨hplain, _⟩ |
        ⟨word, b, after, hcs, hplain, hb, _⟩
      · rw [wordsOf_word ⟨List.cons_ne_nil c cs, hplain⟩, List.map_singleton, List.headD_cons,
          String.toList_ofList]
        exact ⟨[], [], (List.append_nil _).symm, nofun, hplain, nofun⟩
      · have hne : word ≠ [] := by
          rintro rfl
          obtain rfl := (List.cons.inj hcs).1
          exact absurd hb (by rw [hc]; exact Bool.false_ne_true)
        rw [hcs, wordsOf_append_blank ⟨hne, hplain⟩ hb, List.map_cons, List.headD_cons,
          String.toList_ofList]
        exact ⟨[], b :: after, rfl, nofun, hplain, fun d hd => Option.some.inj hd ▸ hb⟩

end Text

namespace Opb

/-! ### Words on a line -/

/-- Whether a character ends a word. -/
def endsWord (c : Char) : Bool := Text.isBlank c || c == ';'

/-- Whether a word stands on a line: it has no blank or semicolon in it, and has one, or an end of
the line, on either side. -/
structure StandsOn (word line : String) : Prop where
  plain : ∀ c ∈ word.toList, endsWord c = false
  around : ∃ before after, line.toList = before ++ (word.toList ++ after) ∧
    (∀ c ∈ before.getLast?, endsWord c = true) ∧ ∀ c ∈ after.head?, endsWord c = true
  ne_nil : word.toList ≠ []

section Line
variable {line word : String} {number : Nat} {l : Line}

theorem endsWord_eq_false {c : Char} : endsWord c = false ↔ Text.isBlank c = false ∧ c ≠ ';' := by
  rw [endsWord, Bool.or_eq_false_iff, beq_eq_false_iff_ne]

theorem endsWord_eq_true {c : Char} : endsWord c = true ↔ Text.isBlank c = true ∨ c = ';' := by
  rw [endsWord, Bool.or_eq_true, beq_iff_eq]

theorem eq_of_mem_wordsOf {cs w : List Char} (hcs : ∀ c ∈ cs, endsWord c = false)
    (h : w ∈ Text.wordsOf cs) : w = cs := by
  have hmem := List.mem_of_mem_filter h
  rw [List.splitOnP_eq_singleton fun c hc => (endsWord_eq_false.1 (hcs c hc)).1] at hmem
  exact List.mem_singleton.1 hmem

/-- Words do not go across a character that ends them, and a semicolon is a word of its own. -/
theorem mem_words_append_cons {first rest w : List Char} {c : Char}
    (hfirst : ∀ d ∈ first, endsWord d = false) (hc : endsWord c = true)
    (h : w ∈ Text.wordsOf (spread (first ++ c :: rest))) :
    w = first ∨ w = [';'] ∨ w ∈ Text.wordsOf (spread rest) := by
  rw [spread_append _ fun d hd => (endsWord_eq_false.1 (hfirst d hd)).2] at h
  rcases endsWord_eq_true.1 hc with hblank | rfl
  · rw [spread_blank hblank, Text.wordsOf_append_cons hblank] at h
    exact (List.mem_append.1 h).imp (eq_of_mem_wordsOf hfirst) .inr
  · have hspread : spread (';' :: rest) = ' ' :: ([';'] ++ ' ' :: spread rest) := rfl
    have hword : Text.IsWord [';'] := by decide
    rw [hspread, Text.wordsOf_append_cons (by decide),
      Text.wordsOf_append_blank hword (by decide)] at h
    exact (List.mem_append.1 h).imp (eq_of_mem_wordsOf hfirst) List.mem_cons.1

/-- A word is a semicolon, or a piece between characters that end words. -/
theorem mem_pieces_of_mem_words {cs w : List Char} (h : w ∈ Text.wordsOf (spread cs)) :
    w = [';'] ∨ w ∈ cs.splitOnP endsWord := by
  rcases splitOnP_cases endsWord cs with ⟨hplain, hsplit⟩ |
    ⟨first, c, rest, hcs, hfirst, hc, hsplit⟩
  · have hspread : spread cs = cs := by
      have happend := spread_append [] fun c hc => (endsWord_eq_false.1 (hplain c hc)).2
      rw [List.append_nil] at happend
      exact happend.trans (List.append_nil cs)
    rw [hspread] at h
    exact .inr (hsplit ▸ List.mem_singleton.2 (eq_of_mem_wordsOf hplain h))
  · have hlength : rest.length < cs.length := by
      rw [hcs, List.length_append, List.length_cons]
      omega
    rw [hsplit]
    rw [hcs] at h
    rcases mem_words_append_cons hfirst hc h with rfl | hsemicolon | hrest
    · exact .inr (List.mem_cons_self ..)
    · exact .inl hsemicolon
    · exact (mem_pieces_of_mem_words hrest).imp_right (List.mem_cons_of_mem _)
termination_by cs.length

theorem lineWords_trim (line : String) : lineWords (Text.trim line) = lineWords line := by
  rw [lineWords_eq, Text.trim, String.toList_ofList, wordsOf_spread_trimOf, lineWords_eq]

/-- A word of a line stands on it. -/
theorem standsOn_of_mem (hword : word ∈ lineWords line) (hne : word ≠ ";") : StandsOn word line := by
  rw [lineWords_eq] at hword
  obtain ⟨w, hw, rfl⟩ := List.mem_map.1 hword
  rcases mem_pieces_of_mem_words hw with rfl | hpiece
  · exact absurd rfl hne
  · obtain ⟨before, after, hline, hplain, hbefore, hafter⟩ := exists_around_of_mem_splitOnP hpiece
    have hnil : w ≠ [] := by simpa using List.of_mem_filter hw
    rw [← String.toList_ofList (l := w)] at hline hplain hnil
    exact ⟨hplain, ⟨before, after, hline, hbefore, hafter⟩, hnil⟩

/-- The tokens of a line bear its number, and are its words. -/
theorem eq_of_mem_tokens (h : readLine (number, line) = .ok l) {t : Token} (ht : t ∈ l.tokens) :
    t.line = number ∧ t.text ∈ lineWords line := by
  rw [readLine] at h
  split at h
  · obtain ⟨declared, _, rfl⟩ := map_eq_ok.1 h
    exact absurd ht List.not_mem_nil
  · obtain rfl := pure_eq_ok.1 h
    rw [Line.tokens] at ht
    obtain ⟨word, hword, rfl⟩ := List.mem_map.1 ht
    rw [lineWords_trim] at hword
    exact ⟨rfl, hword⟩

end Line

section Lines
variable {text : String} {lines : List Line}

/-- Tokens are read line after line. -/
theorem pairwise_line : ∀ {numbered : List String} {first : Nat} {lines : List Line},
    ((numbered.zipIdx first).map fun (line, number) => (number, line)).mapM readLine = .ok lines →
    (∀ t ∈ lines.flatMap Line.tokens, first ≤ t.line) ∧
      (lines.flatMap Line.tokens).Pairwise (·.line ≤ ·.line)
  | [], _, _, h => by
    obtain rfl := pure_eq_ok.1 h
    exact ⟨nofun, .nil⟩
  | line :: numbered, first, _, h => by
    rw [List.zipIdx_cons, List.map_cons, List.mapM_cons] at h
    obtain ⟨l, hl, h⟩ := bind_eq_ok.1 h
    obtain ⟨lines, hlines, h⟩ := bind_eq_ok.1 h
    obtain rfl := pure_eq_ok.1 h
    obtain ⟨hfirst, hpairwise⟩ := pairwise_line hlines
    have hl : ∀ t ∈ l.tokens, t.line = first := fun t ht => (eq_of_mem_tokens hl ht).1
    rw [List.flatMap_cons]
    refine ⟨fun t ht => ?_, List.pairwise_append.2 ⟨?_, hpairwise, fun t ht u hu => ?_⟩⟩
    · rcases List.mem_append.1 ht with ht | ht
      · exact (hl t ht).ge
      · exact Nat.le_of_succ_le (hfirst t ht)
    · exact List.pairwise_of_forall_mem_list fun t ht u hu => ((hl t ht).trans (hl u hu).symm).le
    · rw [hl t ht]
      exact Nat.le_of_succ_le (hfirst u hu)

/-- The words of statements stand on the lines of their text. -/
theorem exists_line_of_mem (hlines : readLines text = .ok lines) {piece : List Token}
    (hpiece : piece ∈ (lines.flatMap Line.tokens).splitOnP (·.text == ";")) {t : Token}
    (ht : t ∈ piece) : ∃ line, Text.HasLine text t.line line ∧ StandsOn t.text line := by
  obtain ⟨_, _, _, hplain, _⟩ := exists_around_of_mem_splitOnP hpiece
  have hmem : t ∈ lines.flatMap Line.tokens := mem_of_mem_splitOnP hpiece ht
  obtain ⟨l, hl, htl⟩ := List.mem_flatMap.1 hmem
  obtain ⟨⟨number, line⟩, hnumbered, hread⟩ := exists_mem_of_forall₂ (mapM_eq_ok.1 hlines) l hl
  obtain ⟨rfl, hword⟩ := eq_of_mem_tokens hread htl
  exact ⟨line, Text.hasLine_of_mem hnumbered, standsOn_of_mem hword (ne_of_beq_false (hplain t ht))⟩

end Lines

/-! ### Declared counts -/

/-- Whether a field ends where some text follows: at a blank, the mark of a declaration or the end
of the line. -/
def EndsField (after : List Char) : Prop :=
  (∀ b ∈ after.head?, Text.isBlank b = true) ∨ "#variable=".toList <+: after

theorem EndsField.append {after later : List Char} (h : EndsField after) (hlater : EndsField later) :
    EndsField (after ++ later) := by
  cases after with
  | nil => exact hlater
  | cons c after => exact h.imp id fun hmark => hmark.trans (List.prefix_append _ later)

/-- Whether a line declares a word as its count: it stands after the mark of a declaration and
blanks, as far as the field goes. -/
structure Declares (line : List Char) (word : String) : Prop where
  plain : ∀ c ∈ word.toList, Text.isBlank c = false
  around : ∃ before blanks after,
    line = before ++ ("#variable=".toList ++ (blanks ++ (word.toList ++ after))) ∧
      (∀ b ∈ blanks, Text.isBlank b = true) ∧ EndsField after

section Header
variable {number : Nat} {line word : String} {e : ParseError}

/-- A text is cut at its mark. -/
theorem eq_of_cut? {mark : List Char} : ∀ {cs before after : List Char},
    Text.cut? mark cs = some (before, after) → cs = before ++ (mark ++ after)
  | [], before, after, h => by
    rw [Text.cut?] at h
    split at h
    · next hmark =>
      cases h
      rw [hmark]
      rfl
    · cases h
  | c :: cs, before, after, h => by
    rw [Text.cut?] at h
    split at h
    · next hmark =>
      cases h
      exact (List.prefix_iff_eq_append.1 (List.isPrefixOf_iff_prefix.1 hmark)).symm
    · obtain ⟨⟨front, back⟩, hcut, hpair⟩ := Option.map_eq_some_iff.1 h
      cases hpair
      exact congrArg (c :: ·) (eq_of_cut? hcut)

/-- The first word between a mark and the next. -/
def fieldWord (rest : List Char) : String :=
  Text.firstWord (String.ofList (((Text.cut? "#variable=".toList rest).map (·.1)).getD rest))

theorem declaredCount?_eq (number : Nat) (comment : String) : declaredCount? number comment =
      match Text.cut? "#variable=".toList comment.toList with
      | none => .ok none
      | some (_, rest) =>
        match Decimal.uint32? (fieldWord rest) with
        | some count => .ok (some count)
        | none => .error (.onLine number (.badVariableCount (fieldWord rest))) := rfl

/-- The word of a field stands after blanks, and the field goes as far as the next mark. -/
theorem exists_fieldWord (rest : List Char) : ∃ blanks after,
    rest = blanks ++ ((fieldWord rest).toList ++ after) ∧
      (∀ b ∈ blanks, Text.isBlank b = true) ∧
      (∀ c ∈ (fieldWord rest).toList, Text.isBlank c = false) ∧ EndsField after := by
  obtain ⟨field, later, hrest, hlater, hword⟩ : ∃ field later, rest = field ++ later ∧
      EndsField later ∧ fieldWord rest = Text.firstWord (String.ofList field) := by
    cases h : Text.cut? "#variable=".toList rest with
    | none =>
      refine ⟨rest, [], (List.append_nil rest).symm, .inl nofun, ?_⟩
      rw [fieldWord, h, Option.map_none, Option.getD_none]
    | some cut =>
      refine ⟨cut.1, _, eq_of_cut? h, .inr (List.prefix_append _ cut.2), ?_⟩
      rw [fieldWord, h, Option.map_some, Option.getD_some]
  obtain ⟨blanks, after, hfield, hblanks, hplain, hafter⟩ := Text.exists_firstWord field
  rw [hword]
  refine ⟨blanks, after ++ later, ?_, hblanks, hplain, .append (.inl hafter) hlater⟩
  rw [hrest]
  conv_lhs => rw [hfield]
  simp only [List.append_assoc]

/-- What is refused on a comment is the word that it declares. -/
theorem exists_word_of_declaredCount? {comment : List Char}
    (h : declaredCount? number (String.ofList comment) = .error e) :
    ∃ word, e = .onLine number (.badVariableCount word) ∧ Declares comment word := by
  rw [declaredCount?_eq, String.toList_ofList (l := comment)] at h
  cases hcut : Text.cut? "#variable=".toList comment with
  | none =>
    rw [hcut] at h
    exact absurd h nofun
  | some cut =>
    obtain ⟨before, rest⟩ := cut
    rw [hcut] at h
    dsimp only at h
    split at h
    · exact absurd h nofun
    · obtain rfl := Except.error.inj h
      obtain ⟨blanks, after, hrest, hblanks, hplain, hafter⟩ := exists_fieldWord rest
      refine ⟨_, rfl, hplain, before, blanks, after, ?_, hblanks, hafter⟩
      rw [← hrest]
      exact eq_of_cut? hcut

/-- A comment declares what its line does. -/
theorem Declares.of_trim {comment : List Char} (h : Declares comment word)
    (htrim : (Text.trim line).toList = '*' :: comment) : Declares line.toList word := by
  obtain ⟨hplain, before, blanks, after, hcomment, hblanks, hafter⟩ := h
  obtain ⟨front, back, hline, _, hback⟩ := Text.exists_trimOf line.toList
  rw [Text.trim, String.toList_ofList, hcomment] at htrim
  refine ⟨hplain, front ++ '*' :: before, blanks, after ++ back, ?_, hblanks,
    hafter.append (.inl fun b hb => hback b (List.mem_of_mem_head? hb))⟩
  rw [hline, htrim]
  simp only [List.append_assoc, List.cons_append]

/-- What is refused on a line is the word that it declares as its count. -/
theorem exists_word_of_readLine (h : readLine (number, line) = .error e) :
    ∃ word, e = .onLine number (.badVariableCount word) ∧ Declares line.toList word := by
  rw [readLine] at h
  split at h
  · next comment htrim =>
    obtain ⟨word, rfl, hdeclares⟩ := exists_word_of_declaredCount? (map_eq_error.1 h)
    exact ⟨word, rfl, hdeclares.of_trim htrim⟩
  · exact absurd h pure_ne_error

end Header

/-! ### Refusals of a statement -/

/-- Whether a reading is refused for flaws on lines alone, each of them as `P` says. -/
def RefusesOnly {α : Type} (P : Nat → Flaw → Prop) (x : Reading α) : Prop :=
  ∀ e, x = .error (.parse e) → ∃ number flaw, e = .onLine number flaw ∧ P number flaw

namespace RefusesOnly
variable {α β : Type} {P Q : Nat → Flaw → Prop}

theorem pure (a : α) : RefusesOnly P (Pure.pure a : Reading α) := nofun

theorem checked (x : Checked α) : RefusesOnly P (liftM x : Reading α) := by
  intro e h
  cases x with
  | ok a => exact absurd h nofun
  | error fault => exact absurd h nofun

theorem refuse {t : Token} {flaw : Flaw} (h : P t.line flaw) :
    RefusesOnly P (liftM (t.refuse flaw : Except ParseError α) : Reading α) := by
  intro e he
  obtain rfl : .onLine t.line flaw = e := ReadError.parse.inj (Except.error.inj he)
  exact ⟨t.line, flaw, rfl, h⟩

theorem bind {x : Reading α} {f : α → Reading β} (hx : RefusesOnly P x)
    (hf : ∀ a, RefusesOnly P (f a)) : RefusesOnly P (x >>= f) := by
  intro e h
  rcases bind_eq_error.1 h with h | ⟨a, _, h⟩
  · exact hx e h
  · exact hf a e h

theorem mono {x : Reading α} (h : RefusesOnly P x)
    (hPQ : ∀ number flaw, P number flaw → Q number flaw) : RefusesOnly Q x := by
  intro e he
  obtain ⟨number, flaw, rfl, hP⟩ := h e he
  exact ⟨number, flaw, rfl, hPQ number flaw hP⟩

end RefusesOnly

/-- The word that a flaw quotes. -/
def quoted? : Flaw → Option String
  | .badVariableCount word | .badCoefficient word | .badLiteral word | .badDegree word
  | .badObjectiveValue word => some word
  | .badProblemLine line => some line
  | _ => none

/-- Where a flaw of a statement is found, and on which line. -/
inductive Located (statement : List Token) : Nat → Flaw → Prop
  | coefficient {t} (h : t ∈ statement) : Located statement t.line (.badCoefficient t.text)
  | degree {t} (h : t ∈ statement) : Located statement t.line (.badDegree t.text)
  /-- A literal is looked for on the line of the token before it. -/
  | literal {coeff literal} (h : [coeff, literal] <:+: statement) :
    Located statement coeff.line (.badLiteral literal.text)
  | shape {t flaw} (h : t ∈ statement) (hflaw : quoted? flaw = none) : Located statement t.line flaw

section Statements
variable {statement part : List Token} {number : Nat} {flaw : Flaw}

theorem Located.mono (h : Located part number flaw) (hpart : part <:+: statement) :
    Located statement number flaw := by
  cases h with
  | coefficient h => exact .coefficient (hpart.subset h)
  | degree h => exact .degree (hpart.subset h)
  | literal h => exact .literal (h.trans hpart)
  | shape h hflaw => exact .shape (hpart.subset h) hflaw

theorem RefusesOnly.within {α : Type} {x : Reading α} (h : RefusesOnly (Located part) x)
    (hpart : part <:+: statement) : RefusesOnly (Located statement) x :=
  h.mono fun _ _ hlocated => hlocated.mono hpart

theorem refusesOnly_readLit (coeff literal : Token) :
    RefusesOnly (Located [coeff, literal]) (readLit coeff literal) := by
  rw [readLit_eq]
  split
  · split
    · exact .checked _
    · exact .pure _
  · exact .refuse (.literal (List.infix_refl _))

theorem refusesOnly_readPairs : ∀ statement, RefusesOnly (Located statement) (readPairs statement)
  | [] => .pure _
  | [_] => .pure _
  | coeff :: literal :: rest => by
    rw [readPairs]
    split
    · exact .refuse (.coefficient (List.mem_cons_self ..))
    · have hpair : [coeff, literal] <:+: coeff :: literal :: rest := ⟨[], rest, rfl⟩
      have hrest : rest <:+: coeff :: literal :: rest := ⟨[coeff, literal], [], by simp⟩
      exact .bind ((refusesOnly_readLit coeff literal).within hpair) fun _ =>
        .bind ((refusesOnly_readPairs rest).within hrest) fun _ => .pure _

theorem refusesOnly_readTerms (statement : List Token) :
    RefusesOnly (Located statement) (readTerms statement) := by
  by_cases h : statement.length % 2 = 0
  · rw [readTerms_of_even h]
    exact refusesOnly_readPairs statement
  · obtain ⟨last, hmem, hlast⟩ := readTerms_of_odd h
    rw [hlast]
    exact .refuse (.shape hmem rfl)

theorem refusesOnly_readDegree (relation : Token) (rest : List Token) :
    RefusesOnly (Located (relation :: rest)) (readDegree relation rest) := by
  rw [readDegree.eq_def]
  split
  · split
    · exact .pure _
    · exact .refuse (.degree (List.mem_cons_of_mem _ (List.mem_singleton_self _)))
  · exact .refuse (.shape (List.mem_cons_self ..) rfl)

theorem refusesOnly_readWritten (first : Token) (words : List Token) :
    RefusesOnly (Located (first :: words)) (readWritten first words) := by
  have hshape : RefusesOnly (Located (first :: words))
      (liftM (first.refuse .missingRelation : Except ParseError Written) : Reading Written) :=
    .refuse (.shape (List.mem_cons_self ..) rfl)
  rw [readWritten]
  split
  · exact .bind ((refusesOnly_readTerms words).within (List.infix_cons (List.infix_refl _)))
      fun _ => .pure _
  · dsimp only
    split
    · exact hshape
    · next relation rest hdrop =>
      have hback : relation :: rest <:+: first :: words :=
        hdrop ▸ (List.dropWhile_suffix _).isInfix
      refine .bind ((refusesOnly_readTerms _).within (List.takeWhile_prefix _).isInfix) fun _ => ?_
      refine .bind ((refusesOnly_readDegree relation rest).within hback) fun _ => ?_
      split
      · exact hshape
      · exact .pure _

theorem refusesOnly_readStatement (hasObjective : Bool) (first : Token) (words : List Token) :
    RefusesOnly (Located (first :: words)) (readStatement hasObjective first words) := by
  rw [readStatement]
  split
  · exact .refuse (.shape (List.mem_cons_self ..) rfl)
  · exact .bind (refusesOnly_readWritten first words) fun _ => .checked _

/-- A flaw is found in one of the statements. -/
theorem refusesOnly_readStatements : ∀ (pieces : List (List Token)) (hasObjective : Bool),
    RefusesOnly (fun number flaw => ∃ piece ∈ pieces, Located piece number flaw)
      (readStatements hasObjective pieces)
  | [], _ => .pure _
  | [] :: rest, hasObjective => by
    rw [readStatements]
    refine (refusesOnly_readStatements rest hasObjective).mono ?_
    rintro number flaw ⟨piece, hpiece, hlocated⟩
    exact ⟨piece, List.mem_cons_of_mem _ hpiece, hlocated⟩
  | (first :: words) :: rest, hasObjective => by
    rw [readStatements_cons]
    refine .bind ((refusesOnly_readStatement hasObjective first words).mono ?_) fun _ =>
      .bind ((refusesOnly_readStatements rest _).mono ?_) fun _ => .pure _
    · intro number flaw hlocated
      exact ⟨first :: words, List.mem_cons_self .., hlocated⟩
    · rintro number flaw ⟨piece, hpiece, hlocated⟩
      exact ⟨piece, List.mem_cons_of_mem _ hpiece, hlocated⟩

end Statements

/-! ### Texts -/

/-- Whether a line shows a flaw: the word that is quoted stands on it, as a declared count or among
the words of statements. -/
def IsShown (line : String) : Flaw → Prop
  | .badVariableCount word => Declares line.toList word
  | flaw => ∃ word, StandsOn word line ∧ ∀ quote ∈ quoted? flaw, quote = word

/-- Whether a literal of a text comes right after a word of a line, its coefficient, and stands on a
later one. -/
def StandsBelow (text : String) (number : Nat) (line literal : String) : Prop :=
  ∃ lines coeff later below, readLines text = .ok lines ∧
    [⟨number, coeff⟩, ⟨later, literal⟩] <:+: lines.flatMap Line.tokens ∧ number < later ∧
    StandsOn coeff line ∧ Text.HasLine text later below ∧ StandsOn literal below

section Texts
variable {text : String} {lines : List Line} {number : Nat} {flaw : Flaw} {e : ParseError}

/-- What is refused is a line of a text, or what is written in its pieces. -/
theorem refused_cases (h : parse text = .error (.parse e)) :
    (∃ numbered ∈ Text.numberedLines text, readLine numbered = .error e) ∨
      ∃ lines, readLines text = .ok lines ∧ ∃ number flaw, e = .onLine number flaw ∧
        ∃ piece ∈ (lines.flatMap Line.tokens).splitOnP (·.text == ";"),
          Located piece number flaw := by
  rw [parse] at h
  rcases bind_eq_error.1 h with h | ⟨lines, hlines, h⟩
  · exact .inl (mapM_eq_error (liftParse_eq_parse.1 h))
  refine .inr ⟨lines, liftParse_eq_ok.1 hlines, ?_⟩
  dsimp only at h
  generalize (lines.flatMap Line.tokens).splitOnP (·.text == ";") = pieces at h ⊢
  refine RefusesOnly.bind ((refusesOnly_readStatements pieces.dropLast false).mono ?_)
    (fun statements => ?_) e h
  · rintro number flaw ⟨piece, hpiece, hlocated⟩
    exact ⟨piece, List.mem_of_mem_dropLast hpiece, hlocated⟩
  · split
    · next first hfirst =>
      obtain ⟨piece, hlast, hhead⟩ := Option.bind_eq_some_iff.1 hfirst
      exact .refuse ⟨piece, List.mem_of_getLast? hlast, .shape (List.mem_of_head? hhead) rfl⟩
    · exact .pure _

/-- The literal of a pair does not stand above its coefficient. -/
theorem line_le_of_pair (hlines : readLines text = .ok lines) {coeff literal : Token}
    (h : [coeff, literal] <:+: lines.flatMap Line.tokens) : coeff.line ≤ literal.line := by
  have hpairwise := (pairwise_line hlines).2.sublist h.sublist
  exact (List.pairwise_cons.1 hpairwise).1 literal (List.mem_singleton_self literal)

/-- A flaw of a statement is shown by its line, or it is a literal that stands on a later one. -/
theorem Located.isShown (hlines : readLines text = .ok lines) {piece : List Token}
    (hpiece : piece ∈ (lines.flatMap Line.tokens).splitOnP (·.text == ";"))
    (h : Located piece number flaw) : ∃ line, Text.HasLine text number line ∧
      (IsShown line flaw ∨
        ∃ literal, flaw = .badLiteral literal ∧ StandsBelow text number line literal) := by
  cases h with
  | @coefficient t ht =>
    obtain ⟨line, hline, hstands⟩ := exists_line_of_mem hlines hpiece ht
    exact ⟨line, hline, .inl ⟨t.text, hstands, fun _ hquote => (Option.some.inj hquote).symm⟩⟩
  | @degree t ht =>
    obtain ⟨line, hline, hstands⟩ := exists_line_of_mem hlines hpiece ht
    exact ⟨line, hline, .inl ⟨t.text, hstands, fun _ hquote => (Option.some.inj hquote).symm⟩⟩
  | @shape t _ ht hflaw =>
    obtain ⟨line, hline, hstands⟩ := exists_line_of_mem hlines hpiece ht
    refine ⟨line, hline, .inl ?_⟩
    cases flaw with
    | badVariableCount word => exact absurd hflaw nofun
    | _ => exact ⟨t.text, hstands, fun _ hquote => absurd (hflaw.symm.trans hquote) nofun⟩
  | @literal coeff literal hpair =>
    have htokens := hpair.trans (isInfix_of_mem_splitOnP hpiece)
    obtain ⟨line, hline, hcoeff⟩ : ∃ line, Text.HasLine text coeff.line line ∧
        StandsOn coeff.text line := exists_line_of_mem hlines hpiece (hpair.subset (by simp))
    obtain ⟨below, hbelow, hliteral⟩ : ∃ line, Text.HasLine text literal.line line ∧
        StandsOn literal.text line := exists_line_of_mem hlines hpiece (hpair.subset (by simp))
    refine ⟨line, hline, ?_⟩
    rcases (line_le_of_pair hlines htokens).eq_or_lt with heq | hlt
    · rw [heq] at hline
      obtain rfl := hbelow.unique hline
      exact .inl ⟨literal.text, hliteral, fun _ hquote => (Option.some.inj hquote).symm⟩
    · exact .inr ⟨literal.text, rfl, lines, coeff.text, literal.line, below, hlines, htokens, hlt,
        hcoeff, hbelow, hliteral⟩

/-- A text is refused on one of its lines, and the word that is quoted stands on it; but a literal
may stand on a later line than its coefficient, and is looked for there. -/
theorem parse_flaw (h : parse text = .error (.parse e)) :
    ∃ number line flaw, e = .onLine number flaw ∧ Text.HasLine text number line ∧
      (IsShown line flaw ∨
        ∃ literal, flaw = .badLiteral literal ∧ StandsBelow text number line literal) := by
  rcases refused_cases h with ⟨⟨number, line⟩, hmem, herror⟩ |
    ⟨lines, hlines, number, flaw, rfl, piece, hpiece, hlocated⟩
  · obtain ⟨word, rfl, hdeclares⟩ := exists_word_of_readLine herror
    exact ⟨number, line, _, rfl, Text.hasLine_of_mem hmem, .inl hdeclares⟩
  · obtain ⟨line, hline, hshown⟩ := hlocated.isShown hlines hpiece
    exact ⟨number, line, flaw, rfl, hline, hshown⟩

end Texts

/-- A degree on the line after its relation. -/
def lowDegree : String := "+1 x1 >=\none ;"

theorem parse_flaw_lowDegree :
    parse lowDegree = .error (.parse (.onLine 2 (.badDegree "one"))) ∧
      ∃ number line flaw, ParseError.onLine 2 (.badDegree "one") = .onLine number flaw ∧
        Text.HasLine lowDegree number line ∧
        (IsShown line flaw ∨
          ∃ literal, flaw = .badLiteral literal ∧ StandsBelow lowDegree number line literal) := by
  have h : parse lowDegree = .error (.parse (.onLine 2 (.badDegree "one"))) := by decide +kernel
  exact ⟨h, parse_flaw h⟩

/-- A literal on the line after its coefficient. -/
def lowLiteral : String := "+1\ny1 >= 1 ;"

/-- It is refused on the line of the coefficient, and stands on the other one alone. -/
theorem parse_lowLiteral : parse lowLiteral = .error (.parse (.onLine 1 (.badLiteral "y1"))) ∧
    Text.HasLine lowLiteral 1 "+1" ∧ ¬ StandsOn "y1" "+1" ∧
    Text.HasLine lowLiteral 2 "y1 >= 1 ;" ∧ StandsOn "y1" "y1 >= 1 ;" := by
  have hlines : Text.lines lowLiteral = ["+1", "y1 >= 1 ;"] := by decide
  have hplain : ∀ c ∈ "y1".toList, endsWord c = false :=
    List.forall_mem_cons.2 ⟨by decide, List.forall_mem_singleton.2 (by decide)⟩
  refine ⟨by decide +kernel, ⟨by decide, by rw [hlines]; rfl⟩, ?_, ⟨by decide, by rw [hlines]; rfl⟩,
    hplain, ⟨[], " >= 1 ;".toList, rfl, nofun, fun c hc => Option.some.inj hc ▸ by decide⟩,
    by decide⟩
  rintro ⟨_, ⟨before, after, hline, _⟩, _⟩
  have hinfix : "y1".toList <:+: "+1".toList := ⟨before, after, by rw [hline, List.append_assoc]⟩
  exact absurd hinfix (by decide)

end Opb

end PseudoBoolean
