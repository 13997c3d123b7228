import PseudoBoolean.Proofs.Opb.Reader
import PseudoBoolean.Proofs.Opb.Words

/-!
A written formula is read as itself.

Each statement is on a line of its own, so the pieces between the semicolons are the statements that
were written. A normal row is read back from its words, since collecting its terms again changes
nothing; so a formula of normal rows is read as `Opb.reread`: the same rows and terms, every variable
declared, and no constant in the objective.
-/

namespace PseudoBoolean.Opb

/-- What a reader makes of a written formula. -/
def reread (f : Opb) : Opb := ⟨f.rows, f.objective.map LinearForm.withoutOffset, f.numVars⟩

/-- Whether the rows and the objective are normal. -/
structure IsNormal (f : Opb) : Prop where
  rows : ∀ r ∈ f.rows, r.IsNormal
  objective : ∀ g ∈ f.objective, g.IsNormal

/-! ### Rows -/

/-- A normal row is read back from its words. -/
theorem readRow_words {r : Row} (hr : r.IsNormal) (first : Token) {toks : List Token}
    (htoks : toks.map (·.text) = r.words) : readRow first toks = .ok r :=
  readRow_of_spelled (spelled_row r) (LinearForm.IsNormal.inRange hr) (constrain_signOf ..)
    hr.normalize first htoks

/-! ### Statements -/

theorem readStatements_rows : ∀ {rows : List Row} {pieces : List (List Token)} (hasObjective : Bool),
    (∀ r ∈ rows, r.IsNormal) → pieces.map (·.map (·.text)) = rows.map Row.words →
    readStatements hasObjective pieces = .ok (rows.map .row)
  | [], pieces, _, _, htoks => by
    obtain rfl : pieces = [] := by simpa using htoks
    rfl
  | r :: rows, pieces, hasObjective, hrows, htoks => by
    rw [List.map_cons, List.map_eq_cons_iff] at htoks
    obtain ⟨toks, pieces, rfl, htoks, hpieces⟩ := htoks
    have hr : r.IsNormal := hrows r (List.mem_cons_self ..)
    have ih := readStatements_rows hasObjective (fun q hq => hrows q (List.mem_cons_of_mem _ hq))
      hpieces
    exact readStatements_row (spelled_row r) htoks (fun first => readRow_words hr first htoks) ih

/-- A written formula's statements are read as what they say. -/
theorem readStatements_statements {f : Opb} (hf : f.IsNormal) {pieces : List (List Token)}
    (htoks : pieces.map (·.map (·.text)) = f.statements) :
    readStatements false pieces = .ok ((f.objective.toList.map fun g =>
      Statement.objective g.withoutOffset) ++ f.rows.map .row) := by
  simp only [statements] at htoks
  cases hobj : f.objective with
  | none =>
    rw [hobj] at htoks
    exact readStatements_rows false hf.rows htoks
  | some g =>
    rw [hobj, Option.toList_some, List.map_singleton, List.singleton_append,
      List.map_eq_cons_iff] at htoks
    obtain ⟨toks, pieces, rfl, htoks, hpieces⟩ := htoks
    have hg : g.IsNormal := hf.objective g hobj
    have hform : (Expression.raw g.terms).normalize = .ok g.withoutOffset := hg.collect 0
    exact readStatements_objective (.objective (spelled_terms g.terms)) hg.inRange
      hform htoks (readStatements_rows true hf.rows hpieces)

/-! ### The whole text -/

/-- The lines of statements are pieces that end in semicolons, and declare nothing. -/
theorem mapM_readLine_statements : ∀ {stmts : List (List String)} (n : Nat),
    (∀ words ∈ stmts, ∀ w ∈ words, IsWord w) → ∃ ls pieces,
      (((stmts.map fun words => Text.joinWords (words ++ [";"])).zipIdx n).map
        fun (line, number) => (number, line)).mapM readLine = .ok ls ∧
      ls.filterMap Line.declared? = [] ∧
      (ls.flatMap Line.tokens).splitOnP (·.text == ";") = pieces ++ [[]] ∧
      pieces.map (·.map (·.text)) = stmts
  | [], _, _ => ⟨[], [], rfl, rfl, rfl, rfl⟩
  | words :: stmts, n, h => by
    have hwords := h words (List.mem_cons_self ..)
    obtain ⟨ls, pieces, hls, hdeclared, hsplit, hpieces⟩ :=
      mapM_readLine_statements (n + 1) fun ws hws => h ws (List.mem_cons_of_mem _ hws)
    refine ⟨.content ((words ++ [";"]).map (Token.mk n)) :: ls, words.map (Token.mk n) :: pieces,
      ?_, hdeclared, ?_, ?_⟩
    · rw [List.map_cons, List.zipIdx_cons, List.map_cons, List.mapM_cons]
      exact bind_eq_ok.2 ⟨_, readLine_statement hwords n, bind_eq_ok.2 ⟨_, hls, rfl⟩⟩
    · have hnone : ∀ t ∈ words.map (Token.mk n), (t.text == ";") = false := by
        intro t ht
        obtain ⟨w, hw, rfl⟩ := List.mem_map.1 ht
        exact semicolon_ne (hwords w hw)
      have htokens : Line.tokens (.content ((words ++ [";"]).map (Token.mk n))) =
          words.map (Token.mk n) ++ [⟨n, ";"⟩] := by
        rw [Line.tokens, List.map_append]
        rfl
      rw [List.flatMap_cons, htokens, List.append_assoc, List.singleton_append,
        List.splitOnP_append_cons_of_forall_mem hnone _ (beq_self_eq_true ";"), hsplit,
        List.cons_append]
    · rw [List.map_cons, hpieces, List.map_map]
      exact congrArg (· :: stmts) (List.map_id words)

theorem isLine_of_mem_lines {f : Opb} : ∀ line ∈ f.lines, Text.IsLine line.toList := by
  intro line hline
  rcases List.mem_cons.1 hline with rfl | hline
  · rw [← joinWords_headerWords]
    exact Text.isLine_joinWords (isWord_of_mem_headerWords f)
  · obtain ⟨words, hwords, rfl⟩ := List.mem_map.1 hline
    exact Text.isLine_joinWords (isWord_statement (isWord_of_mem_statements words hwords))

theorem ofStatements_statements (f : Opb) (declared : UInt32) :
    ofStatements ((f.objective.toList.map fun g => Statement.objective g.withoutOffset) ++
      f.rows.map .row) declared = ⟨f.rows, f.objective.map LinearForm.withoutOffset, declared⟩ := by
  have hrows : (f.rows.map Statement.row).filterMap Statement.row? = f.rows := by
    rw [List.filterMap_map]
    exact List.filterMap_some
  have hnone : (f.rows.map Statement.row).findSome? Statement.objective? = none := by
    rw [List.findSome?_eq_none_iff]
    intro s hs
    obtain ⟨r, _, rfl⟩ := List.mem_map.1 hs
    rfl
  simp only [ofStatements]
  cases f.objective with
  | none => rw [Option.toList_none, List.map_nil, List.nil_append, hrows, hnone, Option.map_none]
  | some g =>
    rw [Option.toList_some, List.map_singleton, List.singleton_append, List.filterMap_cons_none rfl,
      hrows, List.findSome?_cons_of_isSome rfl]
    rfl

/-- A written formula of normal rows is read as itself, without the objective's constant. -/
theorem parse_render {f : Opb} (hf : f.IsNormal) : parse f.render = .ok f.reread := by
  obtain ⟨ls, pieces, hls, hdeclared, hsplit, hpieces⟩ :=
    mapM_readLine_statements 2 (isWord_of_mem_statements (f := f))
  have hlines : readLines f.render = .ok (.comment (some f.numVars) :: ls) := by
    rw [readLines, Text.numberedLines, render, Text.lines_join isLine_of_mem_lines, lines,
      List.zipIdx_cons, List.map_cons, List.mapM_cons]
    exact bind_eq_ok.2 ⟨_, readLine_header f 1, bind_eq_ok.2 ⟨_, hls, rfl⟩⟩
  have htokens : (Line.comment (some f.numVars) :: ls).flatMap Line.tokens =
      ls.flatMap Line.tokens := rfl
  have hcount : (Line.comment (some f.numVars) :: ls).filterMap Line.declared? = [f.numVars] :=
    congrArg (f.numVars :: ·) hdeclared
  refine parse_eq_ok.2 ⟨_, pieces, _, hlines, htokens ▸ hsplit,
    readStatements_statements hf hpieces, ?_⟩
  rw [hcount, ofStatements_statements]
  rfl

/-! ### Stability -/

/-- Whether the rows and the objective were collected from some terms and their variables fit
literals. -/
structure InRange (f : Opb) : Prop where
  rows : ∀ r ∈ f.rows, r.lhs.IsCollected ∧ ∀ x ∈ r.vars, x.InRange
  objective : ∀ g ∈ f.objective, g.IsCollected ∧ ∀ x ∈ g.vars, x.InRange

theorem InRange.isNormal {f : Opb} (hf : f.InRange) : f.IsNormal :=
  ⟨fun r hr => LinearForm.isNormal_iff.2 (hf.rows r hr),
    fun g hg => LinearForm.isNormal_iff.2 (hf.objective g hg)⟩

/-- What is reread declares the variables that were written. -/
theorem numVars_reread (f : Opb) : f.reread.numVars = f.numVars := by
  have hvars : f.reread.maxVars = f.maxVars := by
    simp only [maxVars, reread]
    cases f.objective <;> rfl
  rw [numVars, hvars]
  exact foldl_max_self _ f.minVars

/-- What is reread is written as the text that it came from. -/
theorem render_reread (f : Opb) : f.reread.render = f.render := by
  have hobjective : (f.objective.map LinearForm.withoutOffset).toList.map objectiveWords =
      f.objective.toList.map objectiveWords := by
    cases f.objective <;> rfl
  have hstatements : f.reread.statements = f.statements :=
    congrArg (· ++ f.rows.map Row.words) hobjective
  have hheader : f.reread.header = f.header := by
    rw [header, header, numVars_reread]
    rfl
  rw [render, render, lines, lines, hheader, hstatements]

/-- A written formula is read as itself, with its number of variables declared and without the
objective's constant; so what was read is written as the same text. -/
theorem parse_render_stable {f : Opb} (hf : f.InRange) :
    parse f.render = .ok ⟨f.rows, f.objective.map LinearForm.withoutOffset, f.numVars⟩ ∧
      ∀ g, parse f.render = .ok g → g.render = f.render := by
  have hparse := parse_render hf.isNormal
  refine ⟨hparse, fun g hg => ?_⟩
  obtain rfl : f.reread = g := Except.ok.inj (hparse.symm.trans hg)
  exact render_reread f

/-- Extreme words, a row without terms, an objective with a constant, and five variables of which
two occur. -/
def sampleOpb : Opb where
  rows := [
    .ofTerms [⟨Int64.minValue, x₁.pos⟩, ⟨Int64.maxValue, x₂.pos⟩] .eq Int64.minValue,
    .ofTerms [] .geq Int64.maxValue]
  objective := some ⟨[⟨-3, x₂.pos⟩], 7⟩
  minVars := 5

theorem isNormal_sampleOpb : sampleOpb.IsNormal := ⟨by decide, by decide⟩

theorem parse_render_stable_sample :
    parse sampleOpb.render =
        .ok ⟨sampleOpb.rows, some ⟨[⟨-3, x₂.pos⟩], 0⟩, 5⟩ ∧
      ∀ g, parse sampleOpb.render = .ok g → g.render = sampleOpb.render :=
  parse_render_stable
    ⟨fun r hr => LinearForm.isNormal_iff.1 (isNormal_sampleOpb.rows r hr),
      fun g hg => LinearForm.isNormal_iff.1 (isNormal_sampleOpb.objective g hg)⟩

end PseudoBoolean.Opb
