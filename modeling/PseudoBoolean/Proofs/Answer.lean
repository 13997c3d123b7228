import PseudoBoolean.Answer
import PseudoBoolean.Proofs.Checked

/-!
What a solver's output reports.

Two kinds of lines count, in any order, and of each kind the last line:

    c a comment      o 7                 s OPTIMUM FOUND
         │            │                        │
      nothing     the value is 7      the status is OPTIMUM

The reader's state after some lines is what those lines report (`Progress.Reads`), so a line more
either replaces the value, or the status, or nothing, or is the first one that is wrong
(`Progress.line_cases`). Every line without one of the two marks may be left out
(`isReport_insert_iff`).
-/

namespace PseudoBoolean

/-! ### Statuses -/

theorem Status.text_inj {status status' : Status} :
    status.text = status'.text ↔ status = status' := by
  cases status <;> cases status' <;> decide

/-- A word is the text of a status, or it is unknown. -/
theorem Status.ofWord_cases (word : String) :
    (∃ status, word = Status.text status ∧ ofWord word = .ok status) ∨
      (∀ status, word ≠ Status.text status) ∧ ofWord word = .error (.unknownStatus word) := by
  unfold ofWord
  split
  · exact Or.inl ⟨.optimum, rfl, rfl⟩
  · exact Or.inl ⟨.satisfiable, rfl, rfl⟩
  · exact Or.inl ⟨.unsatisfiable, rfl, rfl⟩
  · next hoptimum hsatisfiable hunsatisfiable =>
    refine Or.inr ⟨fun status => ?_, rfl⟩
    cases status with
    | optimum => exact hoptimum
    | satisfiable => exact hsatisfiable
    | unsatisfiable => exact hunsatisfiable

namespace Answer

/-! ### Lines that count -/

/-- Whether a line has a given first word. -/
def begins (mark line : String) : Bool := (Text.words line).head? == some mark

/-- The last line with a given first word. -/
def lastMarked? (mark : String) (lines : List String) : Option String :=
  (lines.filter (begins mark)).getLast?

/-- Whether a line bounds the objective by a value. -/
def Bounds (line : String) (value : Int64) : Prop :=
  ∃ word rest, Text.words line = "o" :: word :: rest ∧ Decimal.int64? word = some value

/-- Whether a line states how the run ended. -/
def States (line : String) (status : Status) : Prop :=
  ∃ rest, Text.words line = "s" :: status.text :: rest

/-- Whether nothing is wrong on a line. -/
structure IsSound (line : String) : Prop where
  bound : begins "o" line = true → ∃ value, Bounds line value
  status : begins "s" line = true → ∃ status, States line status

/-- Whether an answer is what some lines report: no line is wrong, the value is that of the last
bound, if there is one, and the status the last one that is stated. -/
structure IsReport (lines : List String) (a : Answer) : Prop where
  sound : ∀ line ∈ lines, IsSound line
  value : Option.Rel Bounds (lastMarked? "o" lines) a.value
  status : Option.Rel States (lastMarked? "s" lines) (some a.status)

/-- What is wrong on the line with a given number: a bound without a value, or a status that is none
of the three. A word that is missing is empty. -/
inductive HasFlaw (number : Nat) (line : String) : ParseError → Prop
  | value {rest : List String} (hwords : Text.words line = "o" :: rest)
      (hvalue : Decimal.int64? (rest.headD "") = none) :
      HasFlaw number line (.onLine number (.badObjectiveValue (rest.headD "")))
  | status {rest : List String} (hwords : Text.words line = "s" :: rest)
      (hstatus : ∀ status : Status, rest.headD "" ≠ status.text) :
      HasFlaw number line (.unknownStatus (rest.headD ""))

/-- Why lines are refused: for the first of them that is wrong, or because none states a status. -/
inductive IsRefused (lines : List String) : ParseError → Prop
  | flaw {before after : List String} {line : String} {e : ParseError}
      (hlines : lines = before ++ line :: after) (hbefore : ∀ l ∈ before, IsSound l)
      (hflaw : HasFlaw (before.length + 1) line e) : IsRefused lines e
  | missing (hsound : ∀ line ∈ lines, IsSound line)
      (hnone : ∀ line ∈ lines, begins "s" line = false) : IsRefused lines .missingStatus

/-! ### One line -/

section Line
variable {line : String} {value value' : Int64} {status status' : Status}

theorem begins_iff {mark : String} : begins mark line = true ↔
    ∃ rest, Text.words line = mark :: rest := by
  rw [begins, beq_iff_eq, List.head?_eq_some_iff]

theorem begins_status_of_bound (h : begins "o" line = true) : begins "s" line = false := by
  obtain ⟨rest, hwords⟩ := begins_iff.1 h
  rw [begins, hwords]
  rfl

theorem Bounds.begins (h : Bounds line value) : begins "o" line = true := by
  obtain ⟨word, rest, hwords, _⟩ := h
  exact begins_iff.2 ⟨_, hwords⟩

theorem States.begins (h : States line status) : begins "s" line = true := by
  obtain ⟨rest, hwords⟩ := h
  exact begins_iff.2 ⟨_, hwords⟩

theorem Bounds.unique (h : Bounds line value) (h' : Bounds line value') : value = value' := by
  obtain ⟨word, rest, hwords, hvalue⟩ := h
  obtain ⟨word', rest', hwords', hvalue'⟩ := h'
  obtain ⟨_, hrest⟩ := List.cons.inj (hwords.symm.trans hwords')
  obtain ⟨rfl, _⟩ := List.cons.inj hrest
  exact Option.some.inj (hvalue.symm.trans hvalue')

theorem States.unique (h : States line status) (h' : States line status') : status = status' := by
  obtain ⟨rest, hwords⟩ := h
  obtain ⟨rest', hwords'⟩ := h'
  obtain ⟨_, hrest⟩ := List.cons.inj (hwords.symm.trans hwords')
  exact Status.text_inj.1 (List.cons.inj hrest).1

theorem Bounds.isSound (h : Bounds line value) : IsSound line := by
  refine ⟨fun _ => ⟨value, h⟩, fun hstatus => ?_⟩
  rw [begins_status_of_bound h.begins] at hstatus
  exact absurd hstatus Bool.false_ne_true

theorem States.isSound (h : States line status) : IsSound line := by
  refine ⟨fun hbound => ?_, fun _ => ⟨status, h⟩⟩
  have hstatus := begins_status_of_bound hbound
  rw [h.begins] at hstatus
  exact absurd hstatus.symm Bool.false_ne_true

/-- A line without a mark is not wrong. -/
theorem isSound_of_unmarked (hbound : begins "o" line = false) (hstatus : begins "s" line = false) :
    IsSound line := by
  refine ⟨fun h => ?_, fun h => ?_⟩
  · exact absurd (hbound.symm.trans h) Bool.false_ne_true
  · exact absurd (hstatus.symm.trans h) Bool.false_ne_true

/-- A line replaces the value, or the status, or nothing, or it is wrong. -/
theorem Progress.line_cases (p : Progress) (number : Nat) (line : String) :
    (∃ value, Bounds line value ∧ p.line (number, line) = .ok { p with value := some value }) ∨
    (∃ status, States line status ∧
      p.line (number, line) = .ok { p with status := some status }) ∨
    (begins "o" line = false ∧ begins "s" line = false ∧ p.line (number, line) = .ok p) ∨
    ∃ e, HasFlaw number line e ∧ p.line (number, line) = .error e := by
  simp only [Progress.line]
  split
  · next rest hwords =>
    split
    · next value hvalue =>
      cases rest with
      | nil => exact absurd hvalue nofun
      | cons word rest => exact Or.inl ⟨value, ⟨word, rest, hwords, hvalue⟩, rfl⟩
    · next hvalue => exact Or.inr (Or.inr (Or.inr ⟨_, .value hwords hvalue, rfl⟩))
  · next rest hwords =>
    rcases Status.ofWord_cases (rest.headD "") with ⟨status, hword, hread⟩ | ⟨hword, hread⟩
    · cases rest with
      | nil => cases status <;> exact absurd hword (by decide)
      | cons word rest =>
        obtain rfl : word = status.text := hword
        exact Or.inr (Or.inl ⟨status, ⟨rest, hwords⟩, bind_eq_ok.2 ⟨status, hread, rfl⟩⟩)
    · exact Or.inr (Or.inr (Or.inr ⟨_, .status hwords hword, bind_eq_error.2 (Or.inl hread)⟩))
  · next hbound hstatus =>
    refine Or.inr (Or.inr (Or.inl ⟨?_, ?_, rfl⟩))
    · rw [Bool.eq_false_iff]
      exact fun h => (begins_iff.1 h).elim hbound
    · rw [Bool.eq_false_iff]
      exact fun h => (begins_iff.1 h).elim hstatus

/-- A line that is wrong is not sound. -/
theorem HasFlaw.not_isSound {number : Nat} {e : ParseError} (h : HasFlaw number line e) :
    ¬ IsSound line := by
  rintro ⟨hbound, hstatus⟩
  cases h with
  | value hwords hnone =>
    obtain ⟨value, word, rest, hwords', hvalue⟩ := hbound (begins_iff.2 ⟨_, hwords⟩)
    obtain ⟨_, rfl⟩ := List.cons.inj (hwords.symm.trans hwords')
    exact absurd (hnone.symm.trans hvalue) nofun
  | status hwords hnone =>
    obtain ⟨status, rest, hwords'⟩ := hstatus (begins_iff.2 ⟨_, hwords⟩)
    obtain ⟨_, rfl⟩ := List.cons.inj (hwords.symm.trans hwords')
    exact hnone status rfl

end Line

/-! ### All lines -/

section Lines
variable {mark : String} {lines before after : List String} {line : String}

theorem lastMarked?_concat_of_begins (h : begins mark line = true) :
    lastMarked? mark (lines ++ [line]) = some line := by
  rw [lastMarked?, List.filter_append, List.filter_cons_of_pos h, List.filter_nil,
    List.getLast?_concat]

theorem lastMarked?_insert (h : begins mark line = false) :
    lastMarked? mark (before ++ line :: after) = lastMarked? mark (before ++ after) := by
  rw [lastMarked?, lastMarked?, List.filter_append, List.filter_append,
    List.filter_cons_of_neg (by simp [h])]

theorem lastMarked?_concat_of_not (h : begins mark line = false) :
    lastMarked? mark (lines ++ [line]) = lastMarked? mark lines := by
  rw [lastMarked?_insert h, List.append_nil]

theorem lastMarked?_eq_none_iff :
    lastMarked? mark lines = none ↔ ∀ l ∈ lines, begins mark l = false := by
  rw [lastMarked?, List.getLast?_eq_none_iff, List.filter_eq_nil_iff]
  simp

/-- A line without a mark changes nothing, wherever it stands. -/
theorem isReport_insert_iff {a : Answer} (hbound : begins "o" line = false)
    (hstatus : begins "s" line = false) :
    IsReport (before ++ line :: after) a ↔ IsReport (before ++ after) a := by
  have hline : IsSound line := isSound_of_unmarked hbound hstatus
  have hsound : (∀ l ∈ before ++ line :: after, IsSound l) ↔ ∀ l ∈ before ++ after, IsSound l := by
    simp only [List.forall_mem_append, List.forall_mem_cons, hline, true_and]
  constructor
  · rintro ⟨hs, hvalue, hlast⟩
    rw [lastMarked?_insert hbound] at hvalue
    rw [lastMarked?_insert hstatus] at hlast
    exact ⟨hsound.1 hs, hvalue, hlast⟩
  · rintro ⟨hs, hvalue, hlast⟩
    refine ⟨hsound.2 hs, ?_, ?_⟩
    · rwa [lastMarked?_insert hbound]
    · rwa [lastMarked?_insert hstatus]

/-- Whether a state of the reader is what some lines report. -/
structure Progress.Reads (p : Progress) (lines : List String) : Prop where
  sound : ∀ line ∈ lines, IsSound line
  value : Option.Rel Bounds (lastMarked? "o" lines) p.value
  status : Option.Rel States (lastMarked? "s" lines) p.status

namespace Progress.Reads
variable {p : Progress} {value : Int64} {status : Status}

theorem sound_concat (h : p.Reads lines) (hline : IsSound line) :
    ∀ l ∈ lines ++ [line], IsSound l :=
  List.forall_mem_append.2 ⟨h.sound, List.forall_mem_singleton.2 hline⟩

theorem bound (h : p.Reads lines) (hline : Bounds line value) :
    Progress.Reads { p with value := some value } (lines ++ [line]) := by
  refine ⟨h.sound_concat hline.isSound, ?_, ?_⟩
  · rw [lastMarked?_concat_of_begins hline.begins]
    exact .some hline
  · rw [lastMarked?_concat_of_not (begins_status_of_bound hline.begins)]
    exact h.status

theorem stated (h : p.Reads lines) (hline : States line status) :
    Progress.Reads { p with status := some status } (lines ++ [line]) := by
  have hbound : begins "o" line = false := by
    rw [Bool.eq_false_iff]
    intro hbound
    exact absurd (hline.begins.symm.trans (begins_status_of_bound hbound)) Bool.false_ne_true.symm
  refine ⟨h.sound_concat hline.isSound, ?_, ?_⟩
  · rw [lastMarked?_concat_of_not hbound]
    exact h.value
  · rw [lastMarked?_concat_of_begins hline.begins]
    exact .some hline

theorem unmarked (h : p.Reads lines) (hbound : begins "o" line = false)
    (hstatus : begins "s" line = false) : p.Reads (lines ++ [line]) := by
  refine ⟨h.sound_concat (isSound_of_unmarked hbound hstatus), ?_, ?_⟩
  · rw [lastMarked?_concat_of_not hbound]
    exact h.value
  · rw [lastMarked?_concat_of_not hstatus]
    exact h.status

/-- No status was read exactly if no line states one. -/
theorem status_eq_none_iff (h : p.Reads lines) :
    p.status = none ↔ ∀ line ∈ lines, begins "s" line = false := by
  have hstatus := h.status
  rw [← lastMarked?_eq_none_iff]
  generalize lastMarked? "s" lines = last at hstatus ⊢
  generalize p.status = status at hstatus ⊢
  cases hstatus with
  | none => exact iff_of_true rfl rfl
  | some _ => exact iff_of_false nofun nofun

end Progress.Reads

/-- Lines are read to the end, or up to the first that is wrong. -/
theorem Progress.reads_or_stops (lines : List String) :
    (∃ p, ((lines.zipIdx 1).map fun (line, number) => (number, line)).foldlM Progress.line
        ⟨none, none⟩ = .ok p ∧ p.Reads lines) ∨
      ∃ before line after e, lines = before ++ line :: after ∧ (∀ l ∈ before, IsSound l) ∧
        HasFlaw (before.length + 1) line e ∧
        ((lines.zipIdx 1).map fun (line, number) => (number, line)).foldlM Progress.line
          ⟨none, none⟩ = .error e := by
  -- the last line of a kind wins, so the lines are taken from the end
  induction lines using List.reverseRecOn with
  | nil => exact Or.inl ⟨_, rfl, nofun, .none, .none⟩
  | append_singleton lines line ih =>
    rw [List.zipIdx_append, List.map_append, List.foldlM_append, List.zipIdx_singleton,
      List.map_singleton, Nat.add_comm 1]
    rcases ih with ⟨p, hp, hreads⟩ | ⟨before, bad, after, e, rfl, hbefore, hflaw, hstop⟩
    · have hlast : ∀ {x : Except ParseError Progress}, p.line (lines.length + 1, line) = x →
          (Except.ok p >>= fun p => [(lines.length + 1, line)].foldlM Progress.line p) = x := by
        rintro x rfl
        exact bind_pure (p.line (lines.length + 1, line))
      rw [hp]
      rcases p.line_cases (lines.length + 1) line with ⟨value, hline, hq⟩ | ⟨status, hline, hq⟩ |
        ⟨hbound, hstatus, hq⟩ | ⟨e, hflaw, hq⟩
      · exact Or.inl ⟨_, hlast hq, hreads.bound hline⟩
      · exact Or.inl ⟨_, hlast hq, hreads.stated hline⟩
      · exact Or.inl ⟨p, hlast hq, hreads.unmarked hbound hstatus⟩
      · exact Or.inr ⟨lines, line, [], e, rfl, hreads.sound, hflaw, hlast hq⟩
    · refine Or.inr ⟨before, bad, after ++ [line], e, ?_, hbefore, hflaw, ?_⟩
      · rw [List.append_assoc, List.cons_append]
      · rw [hstop]
        rfl

end Lines

/-! ### The whole output -/

theorem rel_unique {α β : Type} {R : α → β → Prop} (hR : ∀ a b b', R a b → R a b' → b = b')
    {x : Option α} {y y' : Option β} (h : Option.Rel R x y) (h' : Option.Rel R x y') : y = y' := by
  cases h with
  | none => cases h' with | none => rfl
  | some hab => cases h' with | some hab' => rw [hR _ _ _ hab hab']

/-- A whole output is read, or refused at its first line that is wrong. -/
theorem parse_cases (output : String) :
    (∃ p : Progress, p.Reads (Text.lines output) ∧ parse output =
      match p.status with
      | some status => .ok ⟨status, p.value⟩
      | none => .error .missingStatus) ∨
    ∃ e, (∃ line ∈ Text.lines output, ¬ IsSound line) ∧ IsRefused (Text.lines output) e ∧
      parse output = .error e := by
  rcases Progress.reads_or_stops (Text.lines output) with ⟨p, hp, hreads⟩ |
    ⟨before, line, after, e, hlines, hbefore, hflaw, hstop⟩
  · refine Or.inl ⟨p, hreads, ?_⟩
    rw [parse, Text.numberedLines, hp]
    rfl
  · refine Or.inr ⟨e, ⟨line, ?_, hflaw.not_isSound⟩, .flaw hlines hbefore hflaw,
      bind_eq_error.2 (Or.inl hstop)⟩
    rw [hlines]
    exact List.mem_append_right _ (List.mem_cons_self ..)

/-- An output is read as the answer that its lines report, and as no other. -/
theorem parse_eq_ok_iff {output : String} {a : Answer} :
    parse output = .ok a ↔ IsReport (Text.lines output) a := by
  rcases parse_cases output with ⟨p, hreads, hparse⟩ | ⟨e, ⟨line, hmem, hline⟩, _, hparse⟩
  · rw [hparse]
    obtain ⟨status, value⟩ := a
    constructor
    · intro h
      cases hstatus : p.status with
      | none =>
        rw [hstatus] at h
        exact absurd h nofun
      | some last =>
        rw [hstatus] at h
        obtain ⟨rfl, rfl⟩ := Answer.mk.inj (Except.ok.inj h)
        exact ⟨hreads.sound, hreads.value, hstatus ▸ hreads.status⟩
    · intro h
      have hvalue := rel_unique (fun _ _ _ hv hv' => hv.unique hv') hreads.value h.value
      have hstatus := rel_unique (fun _ _ _ hs hs' => hs.unique hs') hreads.status h.status
      rw [hstatus, hvalue]
  · rw [hparse]
    exact ⟨nofun, fun h => absurd (h.sound line hmem) hline⟩

/-- A solver's output is read exactly if no line of it is wrong and one of them states a status. The
answer is then the last value and the last status, and lines with any other first word have no part
in it; else the first line that is wrong is reported, or that no status is stated. -/
theorem parse_reports_last (output : String) :
    ((∃ a, parse output = .ok a) ↔ (∀ line ∈ Text.lines output, IsSound line) ∧
      ∃ line ∈ Text.lines output, begins "s" line = true) ∧
    (∀ a, parse output = .ok a ↔ IsReport (Text.lines output) a) ∧
    (∀ e, parse output = .error e → IsRefused (Text.lines output) e) ∧
    ∀ (longer : String) (before after : List String) (line : String),
      Text.lines output = before ++ after → Text.lines longer = before ++ line :: after →
      begins "o" line = false → begins "s" line = false →
      ∀ a, parse longer = .ok a ↔ parse output = .ok a := by
  refine ⟨?_, fun a => parse_eq_ok_iff, fun e he => ?_, ?_⟩
  · rcases parse_cases output with ⟨p, hreads, hparse⟩ | ⟨e, ⟨line, hmem, hline⟩, _, hparse⟩
    · have hmarked : p.status ≠ none ↔ ∃ line ∈ Text.lines output, begins "s" line = true := by
        rw [ne_eq, hreads.status_eq_none_iff]
        simp
      rw [hparse, ← hmarked, and_iff_right hreads.sound]
      cases p.status with
      | none => exact ⟨fun ⟨_, h⟩ => absurd h nofun, fun h => absurd rfl h⟩
      | some status => exact ⟨fun _ => nofun, fun _ => ⟨_, rfl⟩⟩
    · rw [hparse]
      exact ⟨fun ⟨_, h⟩ => absurd h nofun, fun h => absurd (h.1 line hmem) hline⟩
  · rcases parse_cases output with ⟨p, hreads, hparse⟩ | ⟨e', _, hrefused, hparse⟩
    · rw [hparse] at he
      cases hstatus : p.status with
      | some status =>
        rw [hstatus] at he
        exact absurd he nofun
      | none =>
        rw [hstatus] at he
        obtain rfl := Except.error.inj he
        exact .missing hreads.sound (hreads.status_eq_none_iff.1 hstatus)
    · obtain rfl := Except.error.inj (hparse.symm.trans he)
      exact hrefused
  · intro longer before after line hlines hlonger hbound hstatus a
    rw [parse_eq_ok_iff, parse_eq_ok_iff, hlonger, hlines]
    exact isReport_insert_iff hbound hstatus

/-- A bound may come after the status, and of two statuses the last one counts. -/
example : parse "c start\ns UNSATISFIABLE\no 7\n\ns OPTIMUM FOUND\nover\n o -3 x" =
    .ok ⟨.optimum, some (-3)⟩ := rfl

end Answer

end PseudoBoolean
