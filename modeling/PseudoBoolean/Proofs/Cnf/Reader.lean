import PseudoBoolean.Cnf.Dimacs
import PseudoBoolean.Proofs.Checked

/-!
What the reader of clauses accepts, and what it refuses.

The lines that count are comments, problem lines and lines of numbers, in any order:

    c a comment       p cnf V C           1 -2 0 3
         │                │                   │
      nothing      V is declared     1, -2, 0, 3 join the numbers

How the numbers are spread over lines does not matter. The reader's state holds all of them so far
(`Progress.numbers`), so at the end its clauses are the runs between their zeros, and what is left
after the last zero is a clause without an end. A flaw of a line is found before any line after it
is read (`Progress.reads_or_hasFlaw`).
-/

namespace PseudoBoolean.Cnf

/-! ### Lines that count -/

/-- Whether a line begins with a character. -/
def begins (c : Char) (line : String) : Bool := line.toList.head? == some c

/-- Whether `lines` are the trimmed lines of a text, up to the first that begins with a percent
sign. -/
def IsContent (text : String) (lines : List String) : Prop :=
  ∃ rest, (Text.lines text).map Text.trim = lines ++ rest ∧
    (∀ line ∈ lines, begins '%' line = false) ∧ ∀ line ∈ rest.head?, begins '%' line = true

/-- The words of a line that belong to clauses: a comment and a problem line have none. -/
def clausePart (line : String) : List String :=
  if begins 'c' line || begins 'p' line then [] else Text.words line

/-- Whether a problem line declares `count` variables. -/
def Declares (line : String) (count : UInt32) : Prop :=
  ∃ vars clauses, Text.words line = ["p", "cnf", vars, clauses] ∧
    Decimal.uint32? vars = some count

/-- Whether words are the numerals of some numbers. -/
def AreNumerals (words : List String) (numbers : List Int32) : Prop :=
  List.Forall₂ (fun word number => Decimal.int32? word = some number) words numbers

/-! ### Formulas -/

/-- Whether lines are those of a formula: every problem line declares a number of variables, the
other words are numerals, and the last of these is a zero. -/
structure IsFormula (lines : List String) : Prop where
  problems : ∀ line ∈ lines, begins 'p' line = true → ∃ count, Declares line count
  numbers : ∃ numbers, AreNumerals (lines.flatMap clausePart) numbers ∧
    (numbers = [] ∨ numbers.getLast? = some 0)

/-- Whether `count` is what the last problem line declares, or the default if there is none. -/
inductive DeclaresLast (lines : List String) (default : UInt32) : UInt32 → Prop
  | none (h : ∀ line ∈ lines, begins 'p' line = false) : DeclaresLast lines default default
  | last {before after : List String} {line : String} {count : UInt32}
      (hlines : lines = before ++ line :: after) (hline : begins 'p' line = true)
      (hcount : Declares line count) (hafter : ∀ l ∈ after, begins 'p' l = false) :
      DeclaresLast lines default count

/-- Whether lines stand for a formula: its clauses are the runs between zeros, and its declared
variables those of the last problem line. -/
structure StandFor (lines : List String) (f : Cnf) : Prop where
  clauses : ∃ numbers runs, AreNumerals (lines.flatMap clausePart) numbers ∧
    numbers.splitOn 0 = runs ++ [[]] ∧ runs.mapM (·.mapM Lit.ofCode) = .ok f.clauses
  declared : DeclaresLast lines 0 f.declaredVars

/-! ### Flaws -/

/-- Whether nothing is wrong on a line. -/
def IsSound (line : String) : Prop :=
  (begins 'p' line = true → ∃ count, Declares line count) ∧
    ∃ numbers, AreNumerals (clausePart line) numbers

/-- The first thing that is wrong on a line. -/
inductive HasFlaw (line : String) : Flaw → Prop
  | problem (hproblem : begins 'p' line = true)
      (hwords : ∀ vars clauses, Text.words line ≠ ["p", "cnf", vars, clauses]) :
      HasFlaw line (.badProblemLine line)
  | count {vars clauses : String} (hproblem : begins 'p' line = true)
      (hwords : Text.words line = ["p", "cnf", vars, clauses])
      (hcount : Decimal.uint32? vars = none) : HasFlaw line (.badVariableCount vars)
  | literal {before after : List String} {word : String}
      (hwords : clausePart line = before ++ word :: after)
      (hbefore : ∃ numbers, AreNumerals before numbers)
      (hword : Decimal.int32? word = none) : HasFlaw line (.badLiteral word)

/-- Why lines are refused: for the flaw of the first line that has one, or for the numbers after the
last zero. -/
inductive IsRefused (lines : List String) : ParseError → Prop
  | flaw {before after : List String} {line : String} {flaw : Flaw}
      (hlines : lines = before ++ line :: after) (hbefore : ∀ l ∈ before, IsSound l)
      (hflaw : HasFlaw line flaw) : IsRefused lines (.onLine (before.length + 1) flaw)
  | unterminated {numbers : List Int32} {runs : List (List Int32)} {codes : List Int32}
      (hsound : ∀ line ∈ lines, IsSound line)
      (hnumbers : AreNumerals (lines.flatMap clausePart) numbers)
      (hruns : numbers.splitOn 0 = runs ++ [codes]) (hcodes : codes ≠ []) :
      IsRefused lines (.unterminatedClause codes)

/-! ### Numbers -/

/-- The numbers of a clause's literals. -/
def codes (clause : Clause) : List Int32 := clause.map (·.code)

/-- The numbers that were read: those of the closed clauses, each with its zero, and of the open
clause. -/
def Progress.numbers (p : Progress) : List Int32 :=
  p.closed.reverse.flatMap (codes · ++ [0]) ++ codes p.pending.reverse

theorem zero_notMem_codes (clause : Clause) : (0 : Int32) ∉ codes clause := by
  intro h
  obtain ⟨l, _, hl⟩ := List.mem_map.1 h
  exact l.code_ne_zero hl

/-- Clauses that are each ended by a zero are the runs between zeros. -/
theorem splitOn_codes (clauses : List Clause) (last : Clause) :
    (clauses.flatMap (codes · ++ [0]) ++ codes last).splitOn 0 =
      clauses.map codes ++ [codes last] := by
  induction clauses with
  | nil => exact List.splitOn_eq_singleton (zero_notMem_codes last)
  | cons clause clauses ih =>
    rw [List.flatMap_cons, List.append_assoc, List.append_assoc, List.singleton_append,
      List.splitOn_append_cons_self_of_not_mem (zero_notMem_codes clause), ih, List.map_cons,
      List.cons_append]

/-- Clauses come back from their numbers. -/
theorem mapM_codes (clauses : List Clause) :
    (clauses.map codes).mapM (·.mapM Lit.ofCode) = .ok clauses := by
  rw [mapM_eq_ok, List.forall₂_map_left_iff, List.forall₂_same]
  intro clause _
  rw [codes, mapM_eq_ok, List.forall₂_map_left_iff, List.forall₂_same]
  exact fun l _ => dif_neg l.code_ne_zero

/-- No clause is open exactly if no number was read or the last one was a zero. -/
theorem Progress.pending_eq_nil_iff (p : Progress) :
    p.pending = [] ↔ p.numbers = [] ∨ p.numbers.getLast? = some 0 := by
  obtain ⟨closed, pending, declared⟩ := p
  cases pending with
  | nil =>
    refine ⟨fun _ => ?_, fun _ => rfl⟩
    cases closed with
    | nil => exact Or.inl rfl
    | cons clause closed => exact Or.inr (by simp [numbers, codes])
  | cons l pending =>
    refine ⟨nofun, ?_⟩
    rintro (hnil | hlast)
    · simp [numbers, codes] at hnil
    · simp [numbers, codes] at hlast
      exact absurd hlast l.code_ne_zero

/-! ### Words -/

theorem AreNumerals.unique {words : List String} {a b : List Int32} (ha : AreNumerals words a)
    (hb : AreNumerals words b) : a = b :=
  List.right_unique_forall₂' (fun _ _ _ h h' => Option.some.inj (h.symm.trans h')) ha hb

/-- Words are numerals together if each of them is one. -/
theorem exists_areNumerals_iff {words : List String} : (∃ numbers, AreNumerals words numbers) ↔
    ∀ word ∈ words, ∃ number, Decimal.int32? word = some number := by
  constructor
  · rintro ⟨numbers, h⟩ word hword
    obtain ⟨number, _, hnumber⟩ := exists_mem_of_forall₂ h.flip word hword
    exact ⟨number, hnumber⟩
  · intro h
    induction words with
    | nil => exact ⟨[], .nil⟩
    | cons word words ih =>
      obtain ⟨number, hnumber⟩ := h word (List.mem_cons_self ..)
      obtain ⟨numbers, hnumbers⟩ := ih fun w hw => h w (List.mem_cons_of_mem _ hw)
      exact ⟨number :: numbers, .cons hnumber hnumbers⟩

section Words
variable (number : Nat) {word : String} {p : Progress}

/-- A numeral adds its number. -/
theorem Progress.word_of_numeral {code : Int32} (h : Decimal.int32? word = some code) :
    ∃ p', p.word number word = .ok p' ∧ p'.numbers = p.numbers ++ [code] ∧
      p'.declared = p.declared := by
  rw [Progress.word, h]
  by_cases hzero : code = 0
  · refine ⟨_, dif_pos hzero, ?_, rfl⟩
    simp [numbers, codes, hzero]
  · refine ⟨_, dif_neg hzero, ?_, rfl⟩
    simp [numbers, codes]

theorem Progress.word_of_none (h : Decimal.int32? word = none) :
    p.word number word = .error (.onLine number (.badLiteral word)) := by
  rw [Progress.word, h]

/-- Words are read up to the first that is no numeral. -/
theorem Progress.foldlM_words : ∀ (words : List String) (p : Progress),
    (∃ numbers p', AreNumerals words numbers ∧
        words.foldlM (Progress.word number) p = .ok p' ∧ p'.numbers = p.numbers ++ numbers ∧
        p'.declared = p.declared) ∨
      ∃ before word after, words = before ++ word :: after ∧
        (∃ numbers, AreNumerals before numbers) ∧ Decimal.int32? word = none ∧
        words.foldlM (Progress.word number) p = .error (.onLine number (.badLiteral word))
  | [], p => Or.inl ⟨[], p, .nil, rfl, (List.append_nil _).symm, rfl⟩
  | word :: words, p => by
    cases hword : Decimal.int32? word with
    | none =>
      refine Or.inr ⟨[], word, words, rfl, ⟨[], .nil⟩, hword, ?_⟩
      exact bind_eq_error.2 (Or.inl (word_of_none number hword))
    | some code =>
      obtain ⟨q, hq, hnumbers, hdeclared⟩ := word_of_numeral number (p := p) hword
      rcases foldlM_words words q with ⟨numbers, p', hread, hrest, hnumbers', hdeclared'⟩ |
        ⟨before, bad, after, rfl, ⟨numbers, hbefore⟩, hbad, hrest⟩
      · refine Or.inl ⟨code :: numbers, p', .cons hword hread, bind_eq_ok.2 ⟨q, hq, hrest⟩, ?_,
          hdeclared'.trans hdeclared⟩
        rw [hnumbers', hnumbers, List.append_assoc, List.singleton_append]
      · exact Or.inr ⟨word :: before, bad, after, rfl, ⟨code :: numbers, .cons hword hbefore⟩, hbad,
          bind_eq_error.2 (Or.inr ⟨q, hq, hrest⟩)⟩

end Words

/-! ### Lines -/

/-- What lines without a flaw make of what was read before them. -/
structure Progress.Reads (p : Progress) (lines : List String) (p' : Progress) : Prop where
  sound : ∀ line ∈ lines, IsSound line
  numbers : ∃ numbers, AreNumerals (lines.flatMap clausePart) numbers ∧
    p'.numbers = p.numbers ++ numbers
  declared : DeclaresLast lines p.declared p'.declared

theorem DeclaresLast.cons {line : String} {lines : List String} {a b c : UInt32}
    (hline : DeclaresLast [line] a b) (hlines : DeclaresLast lines b c) :
    DeclaresLast (line :: lines) a c := by
  cases hlines with
  | @last before _ _ _ hlines hproblem hcount hafter =>
    have hparts := (congrArg (line :: ·) hlines).trans List.cons_append.symm
    exact .last hparts hproblem hcount hafter
  | none hnone =>
    cases hline with
    | none h => exact .none (List.forall_mem_cons.2 ⟨h line (by simp), hnone⟩)
    | last h hproblem hcount _ =>
      -- a problem line alone is the last one
      obtain ⟨hbefore, hafter⟩ | ⟨_, hafter⟩ := List.append_eq_singleton_iff.1 h.symm
      · obtain ⟨rfl, _⟩ := List.cons.inj hafter
        exact .last (List.nil_append _).symm hproblem hcount hnone
      · exact absurd hafter (List.cons_ne_nil _ _)

/-- A line is read, and the lines after it. -/
theorem Progress.Reads.cons {p q p' : Progress} {line : String} {lines : List String}
    (hline : p.Reads [line] q) (hlines : q.Reads lines p') : p.Reads (line :: lines) p' := by
  obtain ⟨numbers, hread, hnumbers⟩ := hline.numbers
  obtain ⟨rest, hrest, hnumbers'⟩ := hlines.numbers
  rw [List.flatMap_singleton] at hread
  refine ⟨List.forall_mem_cons.2 ⟨hline.sound line (by simp), hlines.sound⟩,
    ⟨numbers ++ rest, ?_, ?_⟩, hline.declared.cons hlines.declared⟩
  · rw [List.flatMap_cons]
    exact List.rel_append hread hrest
  · rw [hnumbers', hnumbers, List.append_assoc]

section Line
variable {number : Nat} {line : String} {p : Progress}

/-- A line is read by the character that it begins with. -/
theorem Progress.line_eq : p.line (number, line) =
    if begins 'c' line then .ok p
    else if begins 'p' line then do return { p with declared := ← readProblem number line }
    else (Text.words line).foldlM (Progress.word number) p := by
  simp only [begins, beq_iff_eq]
  rw [Progress.line]
  split
  · next h => rw [if_pos h]
  · next h => rw [if_neg (by rw [h]; decide), if_pos h]
  · next hcomment hproblem => rw [if_neg hcomment, if_neg hproblem]

/-- A problem line declares a number of variables or has a flaw. -/
theorem readProblem_cases (number : Nat) (hproblem : begins 'p' line = true) :
    (∃ count, Declares line count ∧ readProblem number line = .ok count) ∨
      ∃ flaw, HasFlaw line flaw ∧ readProblem number line = .error (.onLine number flaw) := by
  simp only [readProblem]
  split
  · next vars clauses hwords =>
    cases hcount : Decimal.uint32? vars with
    | some count => exact Or.inl ⟨count, ⟨vars, clauses, hwords, hcount⟩, rfl⟩
    | none => exact Or.inr ⟨_, .count hproblem hwords hcount, rfl⟩
  · next hwords => exact Or.inr ⟨_, .problem hproblem hwords, rfl⟩

theorem begins_problem_of_comment (h : begins 'c' line = true) : begins 'p' line = false := by
  rw [begins, beq_iff_eq] at h
  rw [begins, h]
  decide

theorem clausePart_of_comment (h : begins 'c' line = true) : clausePart line = [] := by
  rw [clausePart, h, Bool.true_or, if_pos rfl]

theorem clausePart_of_problem (h : begins 'p' line = true) : clausePart line = [] := by
  rw [clausePart, h, Bool.or_true, if_pos rfl]

theorem clausePart_of_not (hcomment : ¬ begins 'c' line = true)
    (hproblem : ¬ begins 'p' line = true) : clausePart line = Text.words line := by
  rw [clausePart, if_neg (by simp [hcomment, hproblem])]

/-- A comment is passed over. -/
theorem Progress.reads_comment (h : begins 'c' line = true) : p.Reads [line] p := by
  have hproblem := begins_problem_of_comment h
  have hnone : AreNumerals (clausePart line) [] := clausePart_of_comment h ▸ .nil
  refine ⟨?_, ⟨[], ?_, (List.append_nil _).symm⟩, .none ?_⟩
  · rw [List.forall_mem_singleton, IsSound, hproblem]
    exact ⟨nofun, [], hnone⟩
  · rwa [List.flatMap_singleton]
  · rwa [List.forall_mem_singleton]

/-- A problem line changes what is declared. -/
theorem Progress.reads_problem {count : UInt32} (h : begins 'p' line = true)
    (hcount : Declares line count) : p.Reads [line] { p with declared := count } := by
  have hnone : AreNumerals (clausePart line) [] := clausePart_of_problem h ▸ .nil
  refine ⟨?_, ⟨[], ?_, (List.append_nil _).symm⟩,
    .last (List.nil_append [line]).symm h hcount nofun⟩
  · rw [List.forall_mem_singleton]
    exact ⟨fun _ => ⟨count, hcount⟩, [], hnone⟩
  · rwa [List.flatMap_singleton]

/-- A line is read, or it has a flaw. -/
theorem Progress.reads_or_hasFlaw (number : Nat) (line : String) (p : Progress) :
    (∃ p', p.line (number, line) = .ok p' ∧ p.Reads [line] p') ∨
      ∃ flaw, HasFlaw line flaw ∧ p.line (number, line) = .error (.onLine number flaw) := by
  rw [Progress.line_eq]
  by_cases hcomment : begins 'c' line = true
  · rw [if_pos hcomment]
    exact Or.inl ⟨p, rfl, reads_comment hcomment⟩
  rw [if_neg hcomment]
  by_cases hproblem : begins 'p' line = true
  · rw [if_pos hproblem]
    rcases readProblem_cases number hproblem with ⟨count, hcount, hread⟩ |
      ⟨flaw, hflaw, hread⟩
    · exact Or.inl ⟨_, bind_eq_ok.2 ⟨count, hread, rfl⟩, reads_problem hproblem hcount⟩
    · exact Or.inr ⟨flaw, hflaw, bind_eq_error.2 (Or.inl hread)⟩
  rw [if_neg hproblem]
  have hwords := clausePart_of_not hcomment hproblem
  rcases foldlM_words number (Text.words line) p with
    ⟨numbers, p', hnumerals, hread, hnumbers, hdeclared⟩ |
    ⟨before, word, after, hparts, hbefore, hword, hread⟩
  · rw [← hwords] at hnumerals
    refine Or.inl ⟨p', hread, ?_, ⟨numbers, ?_, hnumbers⟩, ?_⟩
    · rw [List.forall_mem_singleton]
      exact ⟨fun h => absurd h hproblem, numbers, hnumerals⟩
    · rwa [List.flatMap_singleton]
    · rw [hdeclared]
      exact .none (by simpa using hproblem)
  · exact Or.inr ⟨_, .literal (hwords.trans hparts) hbefore hword, hread⟩

/-- A line that has a flaw is not sound. -/
theorem HasFlaw.not_isSound {flaw : Flaw} (h : HasFlaw line flaw) : ¬ IsSound line := by
  rintro ⟨hdeclares, numbers, hnumerals⟩
  cases h with
  | problem hproblem hwords =>
    obtain ⟨count, vars, clauses, hshape, _⟩ := hdeclares hproblem
    exact hwords vars clauses hshape
  | @count vars _ hproblem hwords hcount =>
    obtain ⟨count, vars', clauses', hshape, hsome⟩ := hdeclares hproblem
    have hvars : vars = vars' := by
      rw [hshape] at hwords
      simp_all
    rw [← hvars, hcount] at hsome
    exact absurd hsome nofun
  | @literal _ _ word hwords _ hword =>
    obtain ⟨number, hsome⟩ :=
      exists_areNumerals_iff.1 ⟨numbers, hnumerals⟩ word (by simp [hwords])
    rw [hword] at hsome
    exact absurd hsome nofun

end Line

/-! ### Texts -/

/-- Lines are read to the end, or up to the first that has a flaw. -/
theorem Progress.reads_or_stops : ∀ (lines : List String) (first : Nat) (p : Progress),
    (∃ p', ((lines.zipIdx first).map fun (line, number) => (number, line)).foldlM
        Progress.line p = .ok p' ∧ p.Reads lines p') ∨
      ∃ before line after flaw, lines = before ++ line :: after ∧ (∀ l ∈ before, IsSound l) ∧
        HasFlaw line flaw ∧
        ((lines.zipIdx first).map fun (line, number) => (number, line)).foldlM
          Progress.line p = .error (.onLine (first + before.length) flaw)
  | [], first, p =>
    Or.inl ⟨p, rfl, nofun, ⟨[], .nil, (List.append_nil _).symm⟩, .none nofun⟩
  | line :: lines, first, p => by
    rw [List.zipIdx_cons, List.map_cons, List.foldlM_cons]
    rcases reads_or_hasFlaw first line p with ⟨q, hq, hline⟩ | ⟨flaw, hflaw, hline⟩
    · rcases reads_or_stops lines (first + 1) q with ⟨p', hp', hlines⟩ |
        ⟨before, bad, after, flaw, rfl, hbefore, hflaw, hstop⟩
      · exact Or.inl ⟨p', bind_eq_ok.2 ⟨q, hq, hp'⟩, hline.cons hlines⟩
      · refine Or.inr ⟨line :: before, bad, after, flaw, rfl,
          List.forall_mem_cons.2 ⟨hline.sound line (by simp), hbefore⟩, hflaw, ?_⟩
        rw [List.length_cons, Nat.add_comm before.length 1, ← Nat.add_assoc]
        exact bind_eq_error.2 (Or.inr ⟨q, hq, hstop⟩)
    · exact Or.inr ⟨[], line, lines, flaw, rfl, nofun, hflaw, bind_eq_error.2 (Or.inl hline)⟩

theorem takeWhile_numbered (lines : List String) (first : Nat) :
    (((lines.zipIdx first).map fun (line, number) => (number, line)).map
        fun (number, line) => (number, Text.trim line)).takeWhile
        (fun (_, line) => line.toList.head? ≠ some '%') =
      (((lines.map Text.trim).takeWhile (!begins '%' ·)).zipIdx first).map
        fun (line, number) => (number, line) := by
  induction lines generalizing first with
  | nil => rfl
  | cons line lines ih =>
    simp only [List.zipIdx_cons, List.map_cons, List.takeWhile_cons, ih]
    by_cases h : (Text.trim line).toList.head? = some '%'
    · simp [begins, h]
    · simp [begins, h]

/-- The lines that count are numbered from one. -/
theorem exists_isContent (text : String) : ∃ lines, IsContent text lines ∧
    contentLines text = (lines.zipIdx 1).map fun (line, number) => (number, line) := by
  refine ⟨((Text.lines text).map Text.trim).takeWhile (!begins '%' ·),
    ⟨((Text.lines text).map Text.trim).dropWhile (!begins '%' ·), ?_, ?_, ?_⟩, ?_⟩
  · exact List.takeWhile_append_dropWhile.symm
  · intro line hline
    simpa using List.mem_takeWhile_imp hline
  · intro line hline
    have hfirst := List.head?_dropWhile_not (!begins '%' ·) ((Text.lines text).map Text.trim)
    rw [Option.mem_def.1 hline] at hfirst
    simpa using hfirst
  · exact takeWhile_numbered (Text.lines text) 1

/-- The lines of a formula have no flaw. -/
theorem IsFormula.isSound {lines : List String} (h : IsFormula lines) :
    ∀ line ∈ lines, IsSound line := by
  intro line hline
  obtain ⟨numbers, hnumerals, _⟩ := h.numbers
  refine ⟨h.problems line hline, exists_areNumerals_iff.2 fun word hword => ?_⟩
  exact exists_areNumerals_iff.1 ⟨numbers, hnumerals⟩ word (List.mem_flatMap_of_mem hline hword)

section Whole
variable {lines : List String} {p : Progress}

/-- Lines without a flaw are those of a formula exactly if no clause is open after them. -/
theorem Progress.Reads.isFormula_iff (h : Progress.Reads ⟨[], [], 0⟩ lines p) :
    IsFormula lines ↔ p.pending = [] := by
  obtain ⟨numbers, hread, hnumbers⟩ := h.numbers
  obtain rfl : p.numbers = numbers := hnumbers
  rw [p.pending_eq_nil_iff]
  constructor
  · rintro ⟨_, numbers, hnumerals, hend⟩
    rwa [hread.unique hnumerals]
  · intro hend
    exact ⟨fun line hline => (h.sound line hline).1, p.numbers, hread, hend⟩

theorem Progress.Reads.standFor (h : Progress.Reads ⟨[], [], 0⟩ lines p) (hp : p.pending = []) :
    StandFor lines ⟨p.closed.reverse, p.declared⟩ := by
  obtain ⟨numbers, hread, hnumbers⟩ := h.numbers
  obtain rfl : p.numbers = numbers := hnumbers
  refine ⟨⟨p.numbers, p.closed.reverse.map codes, hread, ?_, mapM_codes _⟩, h.declared⟩
  rw [Progress.numbers, splitOn_codes, hp]
  rfl

theorem Progress.Reads.isRefused (h : Progress.Reads ⟨[], [], 0⟩ lines p) (hp : p.pending ≠ []) :
    IsRefused lines (.unterminatedClause (codes p.pending.reverse)) := by
  obtain ⟨numbers, hread, hnumbers⟩ := h.numbers
  obtain rfl : p.numbers = numbers := hnumbers
  exact .unterminated h.sound hread (splitOn_codes _ _) (by simpa [codes] using hp)

end Whole

/-- A text is read exactly if its lines are those of a formula. The clauses are then the runs
between zeros, however they were spread over lines; else the first flaw is reported, or the numbers
after the last zero if no line has one. -/
theorem parse_decides (text : String) : ∃ lines, IsContent text lines ∧
    ((∃ f, parse text = .ok f) ↔ IsFormula lines) ∧
    (∀ f, parse text = .ok f → StandFor lines f) ∧
    ∀ e, parse text = .error e → IsRefused lines e := by
  obtain ⟨lines, hcontent, hlines⟩ := exists_isContent text
  refine ⟨lines, hcontent, ?_⟩
  rcases Progress.reads_or_stops lines 1 ⟨[], [], 0⟩ with ⟨p, hp, hreads⟩ |
    ⟨before, line, after, flaw, hparts, hbefore, hflaw, hstop⟩
  · rw [← hlines] at hp
    by_cases hpending : p.pending = []
    · have hparse : parse text = .ok ⟨p.closed.reverse, p.declared⟩ :=
        bind_eq_ok.2 ⟨p, hp, if_pos hpending⟩
      rw [hparse]
      refine ⟨⟨fun _ => hreads.isFormula_iff.2 hpending, fun _ => ⟨_, rfl⟩⟩, ?_, nofun⟩
      rintro f ⟨⟩
      exact hreads.standFor hpending
    · have hparse : parse text = .error (.unterminatedClause (codes p.pending.reverse)) :=
        bind_eq_error.2 (Or.inr ⟨p, hp, if_neg hpending⟩)
      rw [hparse]
      refine ⟨⟨nofun, fun h => absurd (hreads.isFormula_iff.1 h) hpending⟩, nofun, ?_⟩
      rintro e ⟨⟩
      exact hreads.isRefused hpending
  · rw [← hlines] at hstop
    have hparse : parse text = .error (.onLine (1 + before.length) flaw) :=
      bind_eq_error.2 (Or.inl hstop)
    rw [hparse, Nat.add_comm]
    refine ⟨⟨nofun, fun h => ?_⟩, nofun, ?_⟩
    · exact absurd (h.isSound line (by simp [hparts])) hflaw.not_isSound
    · rintro e ⟨⟩
      exact .flaw hparts hbefore hflaw

/-- A clause may go on after a comment and a problem line, and two zeros in a row close an empty
one. -/
example : parse "1 -2\nc a comment\np cnf 4 2\n3 0 0\n%\nanything" =
    .ok ⟨[[⟨1, by decide⟩, ⟨-2, by decide⟩, ⟨3, by decide⟩], []], 4⟩ := rfl

end PseudoBoolean.Cnf
