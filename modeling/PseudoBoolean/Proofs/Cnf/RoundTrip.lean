import PseudoBoolean.Cnf.Dimacs
import PseudoBoolean.Proofs.Linear.Normal
import PseudoBoolean.Proofs.Text.Decimal

/-!
Written clauses are read as themselves.

A clause is written on one line, its literals and then a zero. Reading the literals piles them up,
latest first, and the zero closes the pile:

    -1 5 0      [] ──-1──▶ [-1] ──5──▶ [5, -1] ──0──▶ [], and the clause -1 5

So each line of a written text leaves the reader between clauses, where the next one finds it. What
comes back differs in one thing: the variables in use are declared, if fewer were.
-/

namespace PseudoBoolean.Cnf

/-! ### Words -/

/-- Every word of a clause is a numeral. -/
theorem exists_isInteger {clause : Clause} {w : String} (hw : w ∈ clauseWords clause) :
    ∃ n, Decimal.IsInteger n w.toList := by
  rcases List.mem_append.1 hw with hw | hw
  · obtain ⟨l, _, rfl⟩ := List.mem_map.1 hw
    exact ⟨l.code.toInt, Decimal.isInteger_ofInt _⟩
  · obtain rfl := List.mem_singleton.1 hw
    exact ⟨0, Decimal.isInteger_ofInt 0⟩

theorem isWord_of_mem_clauseWords (clause : Clause) :
    ∀ w ∈ clauseWords clause, Text.IsWord w.toList := by
  intro w hw
  obtain ⟨n, hn⟩ := exists_isInteger hw
  exact hn.isWord

theorem isWord_of_mem_problemWords (f : Cnf) : ∀ w ∈ f.problemWords, Text.IsWord w.toList := by
  have hnat : ∀ n : Nat, Text.IsWord (toString n).toList := fun n =>
    (Decimal.isNatural_repr n).isWord
  intro w hw
  simp only [problemWords, List.mem_cons, List.not_mem_nil, or_false] at hw
  rcases hw with rfl | rfl | rfl | rfl
  · decide
  · decide
  · exact hnat _
  · exact hnat _

/-- A clause begins with a digit or a minus: it is no comment, no problem line and no end. -/
theorem head_clauseWords (clause : Clause) : ∃ w ws c, clauseWords clause = w :: ws ∧
    w.toList.head? = some c ∧ c ≠ 'c' ∧ c ≠ 'p' ∧ c ≠ '%' := by
  obtain ⟨w, ws, hws⟩ := List.exists_cons_of_ne_nil (l := clauseWords clause) (by simp [clauseWords])
  obtain ⟨n, hn⟩ := exists_isInteger (hws ▸ List.mem_cons_self ..)
  obtain ⟨c, cs, hcs⟩ := List.exists_cons_of_ne_nil hn.ne_nil
  refine ⟨w, ws, c, hws, congrArg List.head? hcs, ?_⟩
  rcases hn.mem (hcs ▸ List.mem_cons_self ..) with hdigit | rfl | rfl
  · refine ⟨?_, ?_, ?_⟩ <;> rintro rfl <;> exact absurd hdigit (by decide)
  · decide
  · decide

/-! ### Lines -/

/-- A literal joins the open clause. -/
theorem word_literal (line : Nat) (p : Progress) (l : Lit) :
    p.word line (Decimal.ofInt l.code.toInt) = .ok { p with pending := l :: p.pending } := by
  rw [Progress.word, Decimal.int32?_of_isInteger (Decimal.isInteger_ofInt _)]
  exact dif_neg l.code_ne_zero

/-- A zero closes the open clause. -/
theorem word_zero (line : Nat) (p : Progress) :
    p.word line "0" = .ok ⟨p.pending.reverse :: p.closed, [], p.declared⟩ := by
  have hzero : Decimal.int32? "0" = some 0 := by decide
  rw [Progress.word, hzero]
  rfl

/-- The words of a clause close it. -/
theorem foldlM_clauseWords (line : Nat) (clause : Clause) (p : Progress) :
    (clauseWords clause).foldlM (Progress.word line) p =
      .ok ⟨(p.pending.reverse ++ clause) :: p.closed, [], p.declared⟩ := by
  induction clause generalizing p with
  | nil =>
    rw [clauseWords, List.map_nil, List.nil_append, List.foldlM_cons, word_zero, List.append_nil]
    rfl
  | cons l clause ih =>
    have ih := ih { p with pending := l :: p.pending }
    rw [clauseWords] at ih ⊢
    rw [List.map_cons, List.cons_append, List.foldlM_cons, word_literal]
    refine ih.trans ?_
    simp

/-- The line of a clause adds it. -/
theorem line_clause (number : Nat) (clause : Clause) {p : Progress} (hp : p.pending = []) :
    p.line (number, Text.joinWords (clauseWords clause)) =
      .ok ⟨clause :: p.closed, [], p.declared⟩ := by
  obtain ⟨w, ws, c, hws, hc, hcomment, hproblem, _⟩ := head_clauseWords clause
  have hwords := isWord_of_mem_clauseWords clause
  have hhead : (Text.joinWords (clauseWords clause)).toList.head? = some c := by
    rw [hws] at hwords ⊢
    rw [(Text.ends_joinWords hwords).1, hc]
  rw [Progress.line, hhead]
  split
  · next heq => exact absurd (Option.some.inj heq) hcomment
  · next heq => exact absurd (Option.some.inj heq) hproblem
  · rw [Text.words_joinWords hwords, foldlM_clauseWords, hp]
    rfl

/-- The problem line declares the number of variables. -/
theorem line_problem (f : Cnf) (number : Nat) (p : Progress) :
    p.line (number, Text.joinWords f.problemWords) = .ok { p with declared := f.numVars } := by
  have hwords := isWord_of_mem_problemWords f
  have hhead : (Text.joinWords f.problemWords).toList.head? = some 'p' :=
    (Text.ends_joinWords hwords).1
  have hcount : Decimal.uint32? (toString f.numVars.toNat) = some f.numVars := by
    have h := Decimal.uint32?_of_isNatural (Decimal.isNatural_repr f.numVars.toNat)
    rwa [String.ofList_toList] at h
  have hread : readProblem number (Text.joinWords f.problemWords) = .ok f.numVars := by
    simp only [readProblem, Text.words_joinWords hwords]
    simp only [problemWords, hcount]
  rw [Progress.line, hhead]
  exact bind_eq_ok.2 ⟨f.numVars, hread, rfl⟩

/-- The lines of clauses add them in order. -/
theorem foldlM_clauses (clauses : List Clause) (number : Nat) (closed : List Clause)
    (declared : UInt32) :
    (((clauses.map fun c => Text.joinWords (clauseWords c)).zipIdx number).map
        fun (line, number) => (number, line)).foldlM Progress.line ⟨closed, [], declared⟩ =
      .ok ⟨clauses.reverse ++ closed, [], declared⟩ := by
  induction clauses generalizing number closed with
  | nil => rfl
  | cons clause clauses ih =>
    rw [List.map_cons, List.zipIdx_cons, List.map_cons, List.foldlM_cons]
    refine bind_eq_ok.2 ⟨⟨clause :: closed, [], declared⟩, line_clause number clause rfl, ?_⟩
    rw [ih, List.reverse_cons, List.append_assoc, List.singleton_append]

/-! ### The whole text -/

/-- The words of each line. -/
def wordLines (f : Cnf) : List (List String) := f.problemWords :: f.clauses.map clauseWords

theorem exists_cons_of_mem_wordLines {f : Cnf} : ∀ words ∈ f.wordLines, ∃ w ws c,
    words = w :: ws ∧ (∀ u ∈ w :: ws, Text.IsWord u.toList) ∧ w.toList.head? = some c ∧ c ≠ '%' := by
  intro words hwords
  rcases List.mem_cons.1 hwords with rfl | hwords
  · exact ⟨"p", _, 'p', rfl, isWord_of_mem_problemWords f, rfl, by decide⟩
  · obtain ⟨clause, _, rfl⟩ := List.mem_map.1 hwords
    obtain ⟨w, ws, c, hws, hc, _, _, hend⟩ := head_clauseWords clause
    exact ⟨w, ws, c, hws, hws ▸ isWord_of_mem_clauseWords clause, hc, hend⟩

/-- The lines of a written text. -/
theorem lines_render (f : Cnf) : Text.lines f.render = f.wordLines.map Text.joinWords := by
  have hmap : f.render = String.join ((f.wordLines.map Text.joinWords).map (· ++ "\n")) := by
    rw [render, List.map_map]
    rfl
  rw [hmap]
  refine Text.lines_join fun line hline => ?_
  obtain ⟨words, hwords, rfl⟩ := List.mem_map.1 hline
  obtain ⟨w, ws, _, rfl, hword, _⟩ := exists_cons_of_mem_wordLines words hwords
  exact Text.isLine_joinWords hword

/-- All lines of a written text count, as they were written. -/
theorem contentLines_render (f : Cnf) : contentLines f.render = Text.numberedLines f.render := by
  have hmem : ∀ p ∈ Text.numberedLines f.render,
      Text.trim p.2 = p.2 ∧ p.2.toList.head? ≠ some '%' := by
    intro p hp
    obtain ⟨q, hq, rfl⟩ := List.mem_map.1 hp
    have hline := List.fst_mem_of_mem_zipIdx hq
    rw [lines_render] at hline
    obtain ⟨words, hwords, hline⟩ := List.mem_map.1 hline
    obtain ⟨w, ws, c, rfl, hword, hc, hend⟩ := exists_cons_of_mem_wordLines words hwords
    show Text.trim q.1 = q.1 ∧ q.1.toList.head? ≠ some '%'
    rw [← hline]
    refine ⟨Text.trim_joinWords hword, ?_⟩
    rw [(Text.ends_joinWords hword).1, hc]
    exact fun h => hend (Option.some.inj h)
  rw [contentLines, List.map_congr_left (g := id), List.map_id, List.takeWhile_eq_self_iff.2]
  · intro p hp
    simpa using (hmem p hp).2
  · intro p hp
    exact Prod.ext rfl (hmem p hp).1

/-- Written clauses are read as themselves, with their number of variables declared. -/
theorem parse_render (f : Cnf) : parse f.render = .ok ⟨f.clauses, f.numVars⟩ := by
  have hread : (contentLines f.render).foldlM Progress.line ⟨[], [], 0⟩ =
      .ok ⟨f.clauses.reverse, [], f.numVars⟩ := by
    rw [contentLines_render, Text.numberedLines, lines_render, wordLines, List.map_cons,
      List.zipIdx_cons, List.map_cons, List.foldlM_cons, List.map_map]
    refine bind_eq_ok.2 ⟨_, line_problem f 1 ⟨[], [], 0⟩, ?_⟩
    have hclauses := foldlM_clauses f.clauses 2 [] f.numVars
    rwa [List.append_nil] at hclauses
  refine bind_eq_ok.2 ⟨_, hread, ?_⟩
  rw [if_pos rfl, List.reverse_reverse]
  rfl

/-! ### Declared variables -/

/-- A formula with its number of variables declared. -/
def declaring (f : Cnf) : Cnf := { f with declaredVars := f.numVars }

/-- Enough are declared already if no variable in use is above the declared ones. -/
theorem declaring_eq_iff {f : Cnf} : f.declaring = f ↔ ∀ x ∈ f.vars, x.id ≤ f.declaredVars := by
  have hcount : f.declaring = f ↔ f.numVars = f.declaredVars :=
    ⟨fun h => congrArg declaredVars h, fun h => by rw [declaring, h]⟩
  rw [hcount, numVars, foldl_max_eq_iff, List.forall_mem_map]

/-- Declaring the variables does not make more of them. -/
theorem numVars_declaring (f : Cnf) : f.declaring.numVars = f.numVars :=
  foldl_max_self _ f.declaredVars

/-- A written formula is read as itself with its number of variables declared. That is the formula
itself exactly if no variable in use was above the declared ones, and it is written as the same text
in any case. -/
theorem parse_render_declares (f : Cnf) :
    parse f.render = .ok f.declaring ∧
      (parse f.render = .ok f ↔ ∀ x ∈ f.vars, x.id ≤ f.declaredVars) ∧
      f.declaring.render = f.render := by
  have hparse : parse f.render = .ok f.declaring := parse_render f
  refine ⟨hparse, ?_, ?_⟩
  · rw [hparse, Except.ok.injEq, declaring_eq_iff]
  · have hproblem : f.declaring.problemWords = f.problemWords := by
      rw [problemWords, problemWords, numVars_declaring]
      rfl
    rw [render, render, hproblem]
    rfl

/-- The least literal, an empty clause, and fewer variables declared than used. -/
example : parse (Cnf.mk [[⟨-2147483648, by decide⟩, x₁.pos], []] 3).render =
    .ok ⟨[[⟨-2147483648, by decide⟩, x₁.pos], []], 2147483648⟩ :=
  parse_render _

end PseudoBoolean.Cnf
