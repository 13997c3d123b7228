import PseudoBoolean.Proofs.Opb.Spelling

/-!
The words of a written formula.

Every statement is written in words that spell it, a word at a time with a space between, so a
written line is read as the words it was made of (`Opb.readLine_statement`), and the header as a
comment that declares the count.
-/

namespace PseudoBoolean.Opb

/-! ### The words that are written -/

theorem toList_varText (v : Var) : v.text.toList = 'x' :: v.id.toNat.repr.toList := by
  rw [Var.text, String.toList_append, Nat.toString_eq_repr]
  rfl

theorem isName_text (l : Lit) : l.IsName l.text := by
  refine ⟨l.var.id.toNat.repr.toList, Decimal.isNatural_repr _, ?_⟩
  rw [Lit.text, String.toList_append, toList_varText]
  cases l.isNegative <;> rfl

/-- Terms are written in words that spell them. -/
theorem spelled_terms (terms : List Term) : Term.Spelled terms (terms.flatMap Term.words) := by
  induction terms with
  | nil => exact .nil
  | cons t terms ih => exact .cons (Decimal.isInteger_signed _) (isName_text t.lit) ih

/-- The sign that a relation is written as. -/
def signOf : Relation → Sign
  | .geq => .geq
  | .eq => .eq

theorem word_signOf (r : Relation) : (signOf r).word = r.symbol := by
  cases r <;> rfl

theorem constrain_signOf (r : Relation) (e : Expression) (degree : Int64) :
    (signOf r).constrain e degree = .ok ⟨e, r, degree⟩ := by
  cases r <;> rfl

/-- A row is written in words that spell it. -/
theorem spelled_row (r : Row) :
    (Written.row r.terms (signOf r.relation) r.degree).Spelled r.words := by
  rw [Row.words, ← word_signOf]
  exact .row (spelled_terms r.terms) (Decimal.isInteger_ofInt r.degree.toInt)

/-- Every word of a written statement is one. -/
theorem isWord_of_mem_statements {f : Opb} : ∀ words ∈ f.statements, ∀ w ∈ words, IsWord w := by
  intro words hwords
  rcases List.mem_append.1 hwords with hwords | hwords
  · obtain ⟨g, _, rfl⟩ := List.mem_map.1 hwords
    exact isWord_of_mem_written (.objective (spelled_terms g.terms))
  · obtain ⟨r, _, rfl⟩ := List.mem_map.1 hwords
    exact isWord_of_mem_written (spelled_row r)

/-! ### A statement's line -/

theorem IsWord.ne_semicolon {w : String} (h : IsWord w) : ∀ c ∈ w.toList, c ≠ ';' :=
  fun c hc => (h.2 c hc).2.2.1

/-- Every semicolon stands alone. -/
def spread (cs : List Char) : List Char := cs.flatMap fun c => if c = ';' then [' ', ';', ' '] else [c]

theorem lineWords_eq (line : String) :
    lineWords line = (Text.wordsOf (spread line.toList)).map String.ofList := by
  rw [lineWords, Text.words, String.toList_ofList, spread]

/-- Text without a semicolon keeps its place. -/
theorem spread_append (cs : List Char) : ∀ {w : List Char}, (∀ c ∈ w, c ≠ ';') →
    spread (w ++ cs) = w ++ spread cs
  | [], _ => rfl
  | c :: w, h => by
    have hc : c ≠ ';' := h c (List.mem_cons_self ..)
    have ih := spread_append cs fun d hd => h d (List.mem_cons_of_mem _ hd)
    rw [spread] at ih ⊢
    rw [List.cons_append, List.flatMap_cons, if_neg hc, ih]
    rfl

/-- The words of a written line are those it was made of. -/
theorem lineWords_statement : ∀ {ws : List String}, (∀ w ∈ ws, IsWord w) →
    lineWords (Text.joinWords (ws ++ [";"])) = ws ++ [";"]
  | [], _ => by decide
  | w :: ws, h => by
    have hw : IsWord w := h w (List.mem_cons_self ..)
    have ih := lineWords_statement fun u hu => h u (List.mem_cons_of_mem _ hu)
    rw [lineWords_eq] at ih ⊢
    have hspread : spread (w.toList ++ ' ' :: (Text.joinWords (ws ++ [";"])).toList) =
        w.toList ++ ' ' :: spread (Text.joinWords (ws ++ [";"])).toList := by
      rw [spread_append _ hw.ne_semicolon]
      rfl
    rw [List.cons_append, Text.toList_joinWords_cons w (by simp), hspread,
      Text.wordsOf_append_blank hw.isWord (by decide), List.map_cons, ih, String.ofList_toList]

/-- The semicolon that ends a statement is a word on its line. -/
theorem isWord_statement {ws : List String} (h : ∀ w ∈ ws, IsWord w) :
    ∀ w ∈ ws ++ [";"], Text.IsWord w.toList := by
  intro w hw
  rcases List.mem_append.1 hw with hw | hw
  · exact (h w hw).isWord
  · obtain rfl := List.mem_singleton.1 hw
    decide

/-- No written statement begins as a comment does. -/
theorem head_statement {ws : List String} (h : ∀ w ∈ ws, IsWord w) :
    (Text.joinWords (ws ++ [";"])).toList.head? ≠ some '*' := by
  cases ws with
  | nil => decide
  | cons w ws =>
    have hw : IsWord w := h w (List.mem_cons_self ..)
    have hwords := isWord_statement h
    rw [List.cons_append] at hwords ⊢
    rw [(Text.ends_joinWords hwords).1]
    exact fun hstar => (hw.2 '*' (List.mem_of_head? hstar)).2.2.2 rfl

/-- A written statement is read as its words and the semicolon, all on its line. -/
theorem readLine_statement {ws : List String} (h : ∀ w ∈ ws, IsWord w) (number : Nat) :
    readLine (number, Text.joinWords (ws ++ [";"])) =
      .ok (.content ((ws ++ [";"]).map (Token.mk number))) := by
  have hhead := head_statement h
  rw [readLine, Text.trim_joinWords (isWord_statement h)]
  split
  · next heq => exact absurd (congrArg List.head? heq) hhead
  · rw [lineWords_statement h]
    rfl

/-! ### The header -/

/-- A mark does not occur where its first character does not. -/
theorem cut?_eq_none {m : Char} {mark : List Char} : ∀ {cs : List Char}, m ∉ cs →
    Text.cut? (m :: mark) cs = none
  | [], _ => rfl
  | c :: cs, h => by
    have hc : m ≠ c := fun e => h (e ▸ List.mem_cons_self ..)
    rw [Text.cut?, if_neg (by simp [List.isPrefixOf, hc]),
      cut?_eq_none fun hcs => h (List.mem_cons_of_mem _ hcs), Option.map_none]

/-- Characters other than the first of a mark are passed over. -/
theorem cut?_append {m : Char} {mark : List Char} (cs : List Char) : ∀ {before : List Char},
    m ∉ before → Text.cut? (m :: mark) (before ++ cs) =
      (Text.cut? (m :: mark) cs).map fun found => (before ++ found.1, found.2)
  | [], _ => (congrFun Option.map_id _).symm
  | c :: before, h => by
    have hc : m ≠ c := fun e => h (e ▸ List.mem_cons_self ..)
    rw [List.cons_append, Text.cut?, if_neg (by simp [List.isPrefixOf, hc]),
      cut?_append cs fun hbefore => h (List.mem_cons_of_mem _ hbefore), Option.map_map]
    rfl

theorem cut?_mark (mark cs : List Char) : Text.cut? mark (mark ++ cs) = some ([], cs) := by
  cases mark with
  | nil => cases cs <;> rfl
  | cons m mark =>
    have hprefix : (m :: mark).isPrefixOf (m :: (mark ++ cs)) = true :=
      List.isPrefixOf_iff_prefix.2 ⟨cs, rfl⟩
    rw [List.cons_append, Text.cut?, if_pos hprefix, ← List.cons_append, List.drop_left]

theorem hash_notMem_repr (n : Nat) : '#' ∉ n.repr.toList := fun h =>
  absurd (Decimal.isDigit_of_mem_repr h) (by decide)

theorem toList_header (f : Opb) :
    f.header.toList = '*' :: ([' '] ++ ("#variable=".toList ++ (f.numVars.toNat.repr.toList ++
      (' ' :: '#' :: ("constraint=".toList ++ f.rows.length.repr.toList))))) := by
  rw [header, Nat.toString_eq_repr, Nat.toString_eq_repr]
  simp only [String.toList_append, List.append_assoc]
  rfl

/-- The words of the header. -/
def headerWords (f : Opb) : List String :=
  ["*", "#variable=" ++ toString f.numVars.toNat, "#constraint=" ++ toString f.rows.length]

theorem joinWords_headerWords (f : Opb) : Text.joinWords f.headerWords = f.header := by
  rw [← String.toList_inj, headerWords, Text.toList_joinWords_cons _ (by simp),
    Text.toList_joinWords_cons _ (by simp), Text.joinWords_singleton, header]
  simp only [String.toList_append, List.append_assoc]
  rfl

theorem isWord_of_mem_headerWords (f : Opb) : ∀ w ∈ f.headerWords, Text.IsWord w.toList := by
  have hcount : ∀ (mark : String) (n : Nat), Text.IsWord mark.toList →
      Text.IsWord (mark ++ toString n).toList := by
    intro mark n hmark
    rw [String.toList_append]
    exact hmark.append (Decimal.isNatural_repr n).isWord
  intro w hw
  simp only [headerWords, List.mem_cons, List.not_mem_nil, or_false] at hw
  rcases hw with rfl | rfl | rfl
  · decide
  · exact hcount _ _ (by decide)
  · exact hcount _ _ (by decide)

/-- A count that stands between its mark and the next blank is declared. -/
theorem declaredCount?_eq_ok (line : Nat) {comment before rest : List Char} {n : UInt32}
    (hmark : Text.cut? "#variable=".toList comment = some (before, rest))
    (hnext : Text.cut? "#variable=".toList rest = none)
    (hcount : Decimal.uint32? (Text.firstWord (String.ofList rest)) = some n) :
    declaredCount? line (String.ofList comment) = .ok (some n) := by
  have hfound : Text.cut? "#variable=".toList (String.ofList comment).toList =
      some (before, rest) :=
    (congrArg _ String.toList_ofList).trans hmark
  dsimp only [declaredCount?]
  rw [hfound]
  dsimp only
  rw [hnext, Option.map_none, Option.getD_none, hcount]

theorem mark_eq : "#variable=".toList = '#' :: "variable=".toList := by decide

/-- The mark is found where it stands, after characters other than its first. -/
theorem cut?_variable {before : List Char} (h : '#' ∉ before) (rest : List Char) :
    Text.cut? "#variable=".toList (before ++ ("#variable=".toList ++ rest)) =
      some (before, rest) := by
  rw [mark_eq, cut?_append _ h, cut?_mark, Option.map_some, List.append_nil]

/-- The count of constraints bears another mark. -/
theorem cut?_constraint (n m : Nat) : Text.cut? "#variable=".toList
    (n.repr.toList ++ ' ' :: '#' :: ("constraint=".toList ++ m.repr.toList)) = none := by
  have hbefore : '#' ∉ n.repr.toList ++ [' '] := by
    rw [List.mem_append, not_or]
    exact ⟨hash_notMem_repr n, by decide⟩
  have hafter : '#' ∉ "constraint=".toList ++ m.repr.toList := by
    rw [List.mem_append, not_or]
    exact ⟨by decide, hash_notMem_repr m⟩
  have hother : Text.cut? ('#' :: "variable=".toList)
      ('#' :: ("constraint=".toList ++ m.repr.toList)) = none := by
    rw [Text.cut?, if_neg (by simp [List.isPrefixOf]), cut?_eq_none hafter, Option.map_none]
  rw [List.append_cons, mark_eq, cut?_append _ hbefore, hother, Option.map_none]

theorem firstWord_repr (n : Nat) (cs : List Char) :
    Text.firstWord (String.ofList (n.repr.toList ++ ' ' :: cs)) = String.ofList n.repr.toList := by
  rw [Text.firstWord, Text.words, String.toList_ofList,
    Text.wordsOf_append_blank (Decimal.isNatural_repr n).isWord (by decide)]
  rfl

/-- The header declares the number of variables. -/
theorem readLine_header (f : Opb) (number : Nat) :
    readLine (number, f.header) = .ok (.comment (some f.numVars)) := by
  have hvariable := cut?_variable (by decide : '#' ∉ [' ']) (f.numVars.toNat.repr.toList ++
    ' ' :: '#' :: ("constraint=".toList ++ f.rows.length.repr.toList))
  have hcount : Decimal.uint32? (Text.firstWord (String.ofList (f.numVars.toNat.repr.toList ++
      ' ' :: '#' :: ("constraint=".toList ++ f.rows.length.repr.toList)))) = some f.numVars := by
    rw [firstWord_repr, Decimal.uint32?_of_isNatural (Decimal.isNatural_repr _)]
  have hdeclared := declaredCount?_eq_ok number hvariable (cut?_constraint _ _) hcount
  have htrim : Text.trim f.header = f.header := by
    rw [← joinWords_headerWords, Text.trim_joinWords (isWord_of_mem_headerWords f)]
  rw [readLine, htrim, toList_header]
  show Line.comment <$> declaredCount? number _ = _
  rw [hdeclared]
  rfl

end PseudoBoolean.Opb
