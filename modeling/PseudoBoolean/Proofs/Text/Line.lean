import Mathlib
import PseudoBoolean.Text.Line

/-!
Lines and words come back as they were written.

Lines that are each ended by a newline are the lines of their text (`Text.lines_join`), and words
with a blank between any two are its words. Both go by the same step: what stands before the first
separator is the first piece, and the rest is read alike.
-/

namespace PseudoBoolean

/-! ### Pieces -/

section Pieces
variable {α : Type} {p : α → Bool}

/-- A list without a separator is one piece; else its first piece ends at the first of them. -/
theorem splitOnP_cases (p : α → Bool) (l : List α) :
    ((∀ a ∈ l, p a = false) ∧ l.splitOnP p = [l]) ∨
      ∃ first sep rest, l = first ++ sep :: rest ∧ (∀ a ∈ first, p a = false) ∧ p sep = true ∧
        l.splitOnP p = first :: rest.splitOnP p := by
  have hfirst : ∀ a ∈ l.takeWhile (!p ·), p a = false := fun a ha => by
    simpa using List.mem_takeWhile_imp ha
  have hl : l.takeWhile (!p ·) ++ l.dropWhile (!p ·) = l := List.takeWhile_append_dropWhile
  cases hrest : l.dropWhile (!p ·) with
  | nil =>
    rw [hrest, List.append_nil] at hl
    rw [hl] at hfirst
    exact .inl ⟨hfirst, List.splitOnP_eq_singleton hfirst⟩
  | cons sep rest =>
    have hsep : p sep = true := by
      have hhead := List.head?_dropWhile_not (!p ·) l
      rw [hrest] at hhead
      simpa using hhead
    rw [hrest] at hl
    refine .inr ⟨_, sep, rest, hl.symm, hfirst, hsep, ?_⟩
    rw [← List.splitOnP_append_cons_of_forall_mem hfirst sep hsep, hl]

/-- A piece stands between two separators or at an end, and has none in it. -/
theorem exists_around_of_mem_splitOnP {l piece : List α} (hpiece : piece ∈ l.splitOnP p) :
    ∃ before after, l = before ++ (piece ++ after) ∧ (∀ a ∈ piece, p a = false) ∧
      (∀ a ∈ before.getLast?, p a = true) ∧ ∀ a ∈ after.head?, p a = true := by
  rcases splitOnP_cases p l with ⟨hnone, hsplit⟩ | ⟨first, sep, rest, hl, hfirst, hsep, hsplit⟩
  · rw [hsplit, List.mem_singleton] at hpiece
    subst hpiece
    exact ⟨[], [], (List.append_nil _).symm, hnone, nofun, nofun⟩
  rw [hsplit] at hpiece
  rcases List.mem_cons.1 hpiece with rfl | hpiece
  · exact ⟨[], sep :: rest, hl, hfirst, nofun, fun a ha => Option.some.inj ha ▸ hsep⟩
  have hlength : rest.length < l.length := by
    rw [hl, List.length_append, List.length_cons]
    omega
  obtain ⟨before, after, rfl, hplain, hbefore, hafter⟩ := exists_around_of_mem_splitOnP hpiece
  refine ⟨first ++ sep :: before, after, ?_, hplain, fun a ha => ?_, hafter⟩
  · rw [hl, List.append_assoc, List.cons_append]
  · rcases List.eq_nil_or_concat before with rfl | ⟨front, last, rfl⟩
    · rw [List.getLast?_concat] at ha
      exact Option.some.inj ha ▸ hsep
    · refine hbefore a ?_
      rw [List.concat_eq_append] at ha ⊢
      rw [List.getLast?_concat]
      rwa [← List.cons_append, ← List.append_assoc, List.getLast?_concat] at ha
termination_by l.length

theorem isInfix_of_mem_splitOnP {l piece : List α} (h : piece ∈ l.splitOnP p) : piece <:+: l := by
  obtain ⟨before, after, rfl, _⟩ := exists_around_of_mem_splitOnP h
  exact ⟨before, after, List.append_assoc ..⟩

/-- The members of a piece are members of the list that was split. -/
theorem mem_of_mem_splitOnP {l piece : List α} {a : α} (hpiece : piece ∈ l.splitOnP p)
    (ha : a ∈ piece) : a ∈ l := (isInfix_of_mem_splitOnP hpiece).subset ha

end Pieces

namespace Text

/-! ### Lines -/

/-- A line that keeps its characters when it is read: no newline in it, no return at its end. -/
def IsLine (line : List Char) : Prop := '\n' ∉ line ∧ line.getLast? ≠ some '\r'

theorem dropReturn_eq_self {line : List Char} (h : line.getLast? ≠ some '\r') :
    dropReturn line = line := if_neg h

theorem splitOn_newline : ∀ {ls : List (List Char)}, (∀ l ∈ ls, '\n' ∉ l) →
    (ls.flatMap (· ++ ['\n'])).splitOn '\n' = ls ++ [[]]
  | [], _ => by simp
  | l :: ls, h => by
    have hl : '\n' ∉ l := h l (List.mem_cons_self ..)
    rw [List.flatMap_cons, List.append_assoc, List.singleton_append,
      List.splitOn_append_cons_self_of_not_mem hl,
      splitOn_newline fun m hm => h m (List.mem_cons_of_mem _ hm), List.cons_append]

theorem linesOf_flatMap {ls : List (List Char)} (h : ∀ l ∈ ls, IsLine l) :
    linesOf (ls.flatMap (· ++ ['\n'])) = ls := by
  have hdrop : ls.map dropReturn = ls := by
    rw [List.map_congr_left fun l hl => dropReturn_eq_self (h l hl).2]
    exact List.map_id' ls
  rw [linesOf, splitOn_newline fun l hl => (h l hl).1]
  simp [hdrop]

/-- Lines that are each ended by a newline are the lines of the text. -/
theorem lines_join {ls : List String} (h : ∀ l ∈ ls, IsLine l.toList) :
    lines (String.join (ls.map (· ++ "\n"))) = ls := by
  have htext : (String.join (ls.map (· ++ "\n"))).toList =
      (ls.map String.toList).flatMap (· ++ ['\n']) := by
    rw [String.toList_join, List.flatMap_map, List.flatMap_map]
    simp only [String.toList_append]
    rfl
  have hlines : ∀ l ∈ ls.map String.toList, IsLine l := by
    intro l hl
    obtain ⟨s, hs, rfl⟩ := List.mem_map.1 hl
    exact h s hs
  rw [lines, htext, linesOf_flatMap hlines, List.map_map]
  exact (List.map_congr_left fun s _ => String.ofList_toList).trans (List.map_id _)

/-! ### Words -/

/-- A run of characters without blanks. -/
def IsWord (w : List Char) : Prop := w ≠ [] ∧ ∀ c ∈ w, isBlank c = false

-- decided over the characters of the word, not over all characters
instance (w : List Char) : Decidable (IsWord w) :=
  haveI := List.decidableBAll (isBlank · = false) w
  instDecidableAnd

theorem IsWord.append {w u : List Char} (hw : IsWord w) (hu : IsWord u) : IsWord (w ++ u) := by
  refine ⟨List.append_ne_nil_of_left_ne_nil hw.1 u, fun c hc => ?_⟩
  exact (List.mem_append.1 hc).elim (hw.2 c) (hu.2 c)

theorem wordsOf_word {w : List Char} (h : IsWord w) : wordsOf w = [w] := by
  rw [wordsOf, List.splitOnP_eq_singleton h.2, List.filter_cons_of_pos, List.filter_nil]
  simp [h.1]

/-- No word goes across a blank. -/
theorem wordsOf_append_cons {b : Char} (hb : isBlank b = true) (xs ys : List Char) :
    wordsOf (xs ++ b :: ys) = wordsOf xs ++ wordsOf ys := by
  rw [wordsOf, List.splitOnP_append_cons _ _ hb, List.filter_append]
  rfl

/-- A word ends at the first blank. -/
theorem wordsOf_append_blank {w cs : List Char} {b : Char} (h : IsWord w) (hb : isBlank b = true) :
    wordsOf (w ++ b :: cs) = w :: wordsOf cs := by
  rw [wordsOf_append_cons hb, wordsOf_word h, List.singleton_append]

theorem wordsOf_cons {b : Char} (hb : isBlank b = true) (cs : List Char) :
    wordsOf (b :: cs) = wordsOf cs := wordsOf_append_cons hb [] cs

theorem wordsOf_blanks_append {bs cs : List Char} (h : ∀ b ∈ bs, isBlank b = true) :
    wordsOf (bs ++ cs) = wordsOf cs := by
  induction bs with
  | nil => rfl
  | cons b bs ih =>
    rw [List.cons_append, wordsOf_cons (h b (List.mem_cons_self ..))]
    exact ih fun c hc => h c (List.mem_cons_of_mem _ hc)

theorem wordsOf_append_blanks {cs bs : List Char} (h : ∀ b ∈ bs, isBlank b = true) :
    wordsOf (cs ++ bs) = wordsOf cs := by
  cases bs with
  | nil => rw [List.append_nil]
  | cons b bs =>
    have hrest : wordsOf (bs ++ []) = [] :=
      wordsOf_blanks_append fun c hc => h c (List.mem_cons_of_mem b hc)
    rw [List.append_nil] at hrest
    rw [wordsOf_append_cons (h b (List.mem_cons_self ..)), hrest]
    exact List.append_nil _

/-! ### Trimming -/

/-- Text with a character of a word at either end is not trimmed. -/
theorem trimOf_eq_self {cs : List Char} {first last : Char} (hfirst : cs.head? = some first)
    (hlast : cs.getLast? = some last) (hf : isBlank first = false) (hl : isBlank last = false) :
    trimOf cs = cs := by
  obtain ⟨rest, rfl⟩ := List.head?_eq_some_iff.1 hfirst
  have hdrop : (first :: rest).dropWhile isBlank = first :: rest := by
    rw [List.dropWhile_cons_of_neg]
    simp [hf]
  obtain ⟨front, hfront⟩ := List.getLast?_eq_some_iff.1 hlast
  rw [trimOf, hdrop, hfront, List.reverse_append, List.reverse_singleton, List.singleton_append,
    List.dropWhile_cons_of_neg (by simp [hl]), List.reverse_cons, List.reverse_reverse]

/-- Trimming takes blanks away at either end. -/
theorem exists_trimOf (cs : List Char) : ∃ before after, cs = before ++ (trimOf cs ++ after) ∧
    (∀ b ∈ before, isBlank b = true) ∧ ∀ b ∈ after, isBlank b = true := by
  have hall : ∀ l : List Char, ∀ b ∈ l.takeWhile isBlank, isBlank b = true := fun _ =>
    List.all_eq_true.1 List.all_takeWhile
  refine ⟨cs.takeWhile isBlank, ((cs.dropWhile isBlank).reverse.takeWhile isBlank).reverse, ?_,
    hall cs, fun b hb => hall _ b (List.mem_reverse.1 hb)⟩
  rw [trimOf, ← List.reverse_append, List.takeWhile_append_dropWhile, List.reverse_reverse,
    List.takeWhile_append_dropWhile]

/-- Text that begins with a character of a word keeps it, and loses blanks at its end only. -/
theorem trimOf_cons {c : Char} (hc : isBlank c = false) (cs : List Char) :
    ∃ cs', trimOf (c :: cs) = c :: cs' ∧ cs' <+: cs := by
  have hneg : ¬ isBlank c = true := by rw [hc]; exact Bool.false_ne_true
  refine ⟨(cs.reverse.dropWhile isBlank).reverse, ?_, ?_⟩
  · have hlast : (cs.reverse ++ [c]).dropWhile isBlank = cs.reverse.dropWhile isBlank ++ [c] := by
      rw [List.dropWhile_append]
      split
      · next h => rw [List.isEmpty_iff.1 h, List.dropWhile_cons_of_neg hneg, List.nil_append]
      · rfl
    rw [trimOf, List.dropWhile_cons_of_neg hneg, List.reverse_cons, hlast, List.reverse_append,
      List.reverse_singleton, List.singleton_append]
  · have hsuffix := (List.dropWhile_suffix isBlank (l := cs.reverse))
    have hprefix := List.reverse_prefix.2 hsuffix
    rwa [List.reverse_reverse] at hprefix

theorem trimOf_append_blank {b : Char} (hb : isBlank b = true) (cs : List Char) :
    trimOf (cs ++ [b]) = trimOf cs := by
  rw [trimOf, List.dropWhile_append, trimOf]
  split
  · next h =>
    rw [List.isEmpty_iff.1 h, List.dropWhile_cons_of_pos hb]
    rfl
  · rw [List.reverse_append, List.reverse_singleton, List.singleton_append,
      List.dropWhile_cons_of_pos hb]

/-- The return that ends a line is trimmed away. -/
theorem trimOf_dropReturn (line : List Char) : trimOf (dropReturn line) = trimOf line := by
  rw [dropReturn]
  split
  · next h =>
    obtain ⟨front, rfl⟩ := List.getLast?_eq_some_iff.1 h
    rw [List.dropLast_concat, trimOf_append_blank (by decide)]
  · rfl

/-! ### Words with a space between any two -/

theorem toList_joinWords_cons (w : String) {ws : List String} (h : ws ≠ []) :
    (joinWords (w :: ws)).toList = w.toList ++ ' ' :: (joinWords ws).toList := by
  rw [joinWords, String.intercalate_cons_of_ne_nil h, String.toList_append, String.toList_append,
    joinWords]
  simp

theorem joinWords_singleton (w : String) : joinWords [w] = w := by
  simp [joinWords]

/-- Words that are joined by spaces are read as themselves. -/
theorem words_joinWords {ws : List String} (h : ∀ w ∈ ws, IsWord w.toList) :
    words (joinWords ws) = ws := by
  induction ws with
  | nil => rfl
  | cons w ws ih =>
    have hw : IsWord w.toList := h w (List.mem_cons_self ..)
    have ih := ih fun u hu => h u (List.mem_cons_of_mem _ hu)
    cases ws with
    | nil =>
      rw [joinWords_singleton, words, wordsOf_word hw, List.map_singleton, String.ofList_toList]
    | cons u ws =>
      rw [words] at ih ⊢
      rw [toList_joinWords_cons w (List.cons_ne_nil u ws), wordsOf_append_blank hw (by decide),
        List.map_cons, ih, String.ofList_toList]

/-- Joined words begin as the first of them does, and do not end in a blank. -/
theorem ends_joinWords {w : String} {ws : List String} (h : ∀ u ∈ w :: ws, IsWord u.toList) :
    (joinWords (w :: ws)).toList.head? = w.toList.head? ∧
      ∃ last, (joinWords (w :: ws)).toList.getLast? = some last ∧ isBlank last = false := by
  have hw : IsWord w.toList := h w (List.mem_cons_self ..)
  induction ws generalizing w with
  | nil =>
    rw [joinWords_singleton]
    refine ⟨rfl, w.toList.getLast hw.1, List.getLast?_eq_some_getLast hw.1, ?_⟩
    exact hw.2 _ (List.getLast_mem hw.1)
  | cons u ws ih =>
    have hrest : ∀ v ∈ u :: ws, IsWord v.toList := fun v hv => h v (List.mem_cons_of_mem _ hv)
    obtain ⟨_, last, hlast, hblank⟩ := ih hrest (hrest u (List.mem_cons_self ..))
    rw [toList_joinWords_cons w (List.cons_ne_nil u ws)]
    constructor
    · obtain ⟨c, cs, hcs⟩ := List.exists_cons_of_ne_nil hw.1
      rw [hcs, List.cons_append, List.head?_cons, List.head?_cons]
    · refine ⟨last, ?_, hblank⟩
      rw [List.getLast?_append, List.getLast?_cons, hlast]
      rfl

/-- A character of joined words is a space or in one of them. -/
theorem mem_joinWords {ws : List String} {c : Char} (hc : c ∈ (joinWords ws).toList) :
    c = ' ' ∨ ∃ w ∈ ws, c ∈ w.toList := by
  induction ws with
  | nil => exact absurd hc (by simp [joinWords])
  | cons w ws ih =>
    cases ws with
    | nil =>
      rw [joinWords_singleton] at hc
      exact Or.inr ⟨w, List.mem_cons_self .., hc⟩
    | cons u ws =>
      rw [toList_joinWords_cons w (List.cons_ne_nil u ws), List.mem_append, List.mem_cons] at hc
      rcases hc with hc | hc | hc
      · exact Or.inr ⟨w, List.mem_cons_self .., hc⟩
      · exact Or.inl hc
      · rcases ih hc with hspace | ⟨v, hv, hcv⟩
        · exact Or.inl hspace
        · exact Or.inr ⟨v, List.mem_cons_of_mem _ hv, hcv⟩

theorem trim_joinWords {ws : List String} (h : ∀ w ∈ ws, IsWord w.toList) :
    trim (joinWords ws) = joinWords ws := by
  cases ws with
  | nil => rfl
  | cons w ws =>
    obtain ⟨hhead, last, hlast, hblank⟩ := ends_joinWords h
    have hw : IsWord w.toList := h w (List.mem_cons_self ..)
    obtain ⟨first, rest, hfirst⟩ := List.exists_cons_of_ne_nil hw.1
    rw [hfirst, List.head?_cons] at hhead
    have hf : isBlank first = false := hw.2 first (hfirst ▸ List.mem_cons_self ..)
    rw [trim, trimOf_eq_self hhead hlast hf hblank, String.ofList_toList]

theorem isLine_joinWords {ws : List String} (h : ∀ w ∈ ws, IsWord w.toList) :
    IsLine (joinWords ws).toList := by
  constructor
  · intro hc
    rcases mem_joinWords hc with hspace | ⟨u, hu, hcu⟩
    · exact absurd hspace (by decide)
    · exact absurd ((h u hu).2 _ hcu) (by decide)
  · cases ws with
    | nil => exact nofun
    | cons w ws =>
      obtain ⟨_, last, hlast, hblank⟩ := ends_joinWords h
      rw [hlast]
      rintro ⟨rfl⟩
      exact absurd hblank (by decide)

end Text

end PseudoBoolean
