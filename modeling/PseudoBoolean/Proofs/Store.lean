import PseudoBoolean.Proofs.Checked

/-!
What a write changes.

A file is never written over a directory, so a write changes no way through the tree: every path
leads where it led before (`Store.resolve_write`). The file that was written has its new content,
and every other file the one it had.
-/

namespace PseudoBoolean

namespace Store

theorem entry?_put {s : Store} {loc : Location} {content : ByteArray}
    (h : s.isDirectory loc = false) (loc' : Location) :
    entry? (s.put loc (.file content)) loc' =
      if loc' = loc then some (.file content) else s.entry? loc' := by
  have hloc : ¬ (isAbove loc ∨ loc = [['/']]) := by
    intro habove
    rw [isDirectory, entry?, if_pos habove] at h
    exact absurd h nofun
  rw [put, entry?, entry?]
  by_cases heq : loc' = loc
  · rw [heq, if_neg hloc, if_pos rfl, List.lookup_cons_self]
  · rw [if_neg heq]
    split
    · rfl
    · rw [List.lookup_cons, beq_false_of_ne heq]

/-- A file in the place of no directory leaves every directory one. -/
theorem isDirectory_put {s : Store} {loc : Location} {content : ByteArray}
    (h : s.isDirectory loc = false) : (s.put loc (.file content)).isDirectory = s.isDirectory := by
  funext loc'
  by_cases heq : loc' = loc
  · rw [heq, h, isDirectory, entry?_put h, if_pos rfl]
  · rw [isDirectory, entry?_put h, if_neg heq, isDirectory]

theorem enter_congr {s s' : Store} (h : s'.isDirectory = s.isDirectory) : s'.enter = s.enter := by
  funext loc piece
  rw [enter, enter, h]

theorem resolve_congr {s s' : Store} (h : s'.isDirectory = s.isDirectory) :
    s'.resolve = s.resolve := by
  funext p
  rw [resolve, resolve, enter_congr h]

/-- A write puts a file where its path leads. -/
theorem write_eq_some {s s' : Store} {p : Path} {content : ByteArray} :
    s.write p content = some s' ↔
      ∃ loc, s.resolve p = some loc ∧ s.isDirectory loc = false ∧
        s' = s.put loc (.file content) := by
  rw [write]
  simp only [bind, Option.bind_eq_some_iff, Option.ite_none_left_eq_some, Option.some.injEq,
    Bool.not_eq_true, eq_comm (a := s')]

/-- A write leaves every directory one. -/
theorem isDirectory_write {s s' : Store} {p : Path} {content : ByteArray}
    (h : s.write p content = some s') : s'.isDirectory = s.isDirectory := by
  obtain ⟨loc, _, hloc, rfl⟩ := write_eq_some.1 h
  exact isDirectory_put hloc

/-- A write changes no way through the tree. -/
theorem resolve_write {s s' : Store} {p : Path} {content : ByteArray}
    (h : s.write p content = some s') : s'.resolve = s.resolve := by
  exact resolve_congr (isDirectory_write h)

/-- What was written is read. -/
theorem read_write {s s' : Store} {p : Path} {content : ByteArray}
    (h : s.write p content = some s') : s'.read p = some content := by
  have hresolve := resolve_write h
  obtain ⟨loc, hp, hloc, rfl⟩ := write_eq_some.1 h
  rw [read, hresolve, hp, Option.bind_some, entry?_put hloc, if_pos rfl]

/-- Files elsewhere are as before. -/
theorem read_write_of_ne {s s' : Store} {p q : Path} {content : ByteArray}
    (h : s.write p content = some s') (hne : s.resolve q ≠ s.resolve p) : s'.read q = s.read q := by
  have hresolve := resolve_write h
  obtain ⟨loc, hp, hloc, rfl⟩ := write_eq_some.1 h
  rw [read, read, hresolve]
  cases hq : s.resolve q with
  | none => rfl
  | some loc' =>
    have hloc' : loc' ≠ loc := fun e => hne (by rw [hq, hp, e])
    rw [Option.bind_some, Option.bind_some, entry?_put hloc, if_neg hloc']

/-- Whether a file can be written, whatever its content. -/
def IsWritable (s : Store) (p : Path) : Prop := ∀ content, ∃ s', s.write p content = some s'

/-- A file can be written if its path leads to no directory. -/
theorem isWritable_iff {s : Store} {p : Path} :
    s.IsWritable p ↔ ∃ loc, s.resolve p = some loc ∧ s.isDirectory loc = false := by
  constructor
  · intro h
    obtain ⟨_, hwrite⟩ := h .empty
    obtain ⟨loc, hp, hloc, _⟩ := write_eq_some.1 hwrite
    exact ⟨loc, hp, hloc⟩
  · rintro ⟨loc, hp, hloc⟩ content
    exact ⟨_, write_eq_some.2 ⟨loc, hp, hloc, rfl⟩⟩

/-- Whether a file can be written does not depend on its content. -/
theorem write_eq_none {s : Store} {p : Path} (h : ¬ s.IsWritable p) (content : ByteArray) :
    s.write p content = none := by
  cases hwrite : s.write p content with
  | none => rfl
  | some s' =>
    obtain ⟨loc, hp, hloc, _⟩ := write_eq_some.1 hwrite
    exact absurd (isWritable_iff.2 ⟨loc, hp, hloc⟩) h

/-- What can be written can be written after any other file was. -/
theorem IsWritable.write {s s' : Store} {p q : Path} {content : ByteArray} (h : s.IsWritable p)
    (hwrite : s.write q content = some s') : s'.IsWritable p := by
  rw [isWritable_iff, resolve_write hwrite, isDirectory_write hwrite, ← isWritable_iff]
  exact h

end Store

/-! ### Text files -/

theorem fromUTF8?_toUTF8 (text : String) : String.fromUTF8? text.toUTF8 = some text := by
  rw [String.toUTF8_eq_toByteArray, String.fromUTF8?, dif_pos text.isValidUTF8]
  rfl

/-- The text of a file, if it has one. -/
def Store.text? (s : Store) (p : Path) : Option String := (s.read p).bind String.fromUTF8?

theorem Store.text?_of_read {s : Store} {p : Path} {text : String}
    (h : s.read p = some text.toUTF8) : s.text? p = some text := by
  rw [text?, h, Option.bind_some, fromUTF8?_toUTF8]

theorem Store.text?_write {s s' : Store} {p : Path} {text : String}
    (h : s.write p text.toUTF8 = some s') : s'.text? p = some text :=
  text?_of_read (read_write h)

namespace Action
variable {s s' : Store} {p : Path}

theorem readText_eq_ok {text : String} :
    readText p s = .ok text s' ↔ s.text? p = some text ∧ s = s' := by
  simp only [readText, Store.text?]
  split
  · next h => simp [h]
  · next h => simp [h]

theorem readText_eq_error {stop : Stop} :
    readText p s = .error stop s' ↔ s.text? p = none ∧ stop = .error (.io p) ∧ s = s' := by
  simp only [readText, Store.text?]
  split
  · next h => simp [h]
  · next h => simp [h, eq_comm]

/-- What follows on reading a file is about its text. -/
theorem readText_bind_eq_ok {α : Type} {f : String → Action α} {a : α} :
    (readText p >>= f) s = .ok a s' ↔ ∃ text, s.text? p = some text ∧ f text s = .ok a s' := by
  simp only [run_bind_eq_ok, readText_eq_ok]
  constructor
  · rintro ⟨text, _, ⟨htext, rfl⟩, h⟩
    exact ⟨text, htext, h⟩
  · rintro ⟨text, htext, h⟩
    exact ⟨text, s, ⟨htext, rfl⟩, h⟩

theorem writeFile_eq_ok {content : ByteArray} :
    writeFile p content s = .ok () s' ↔ s.write p content = some s' := by
  simp only [writeFile]
  split
  · next h => simp [h]
  · next h => simp [h]

theorem writeFile_eq_error {content : ByteArray} {stop : Stop} : writeFile p content s = .error stop s' ↔
    s.write p content = none ∧ stop = .error (.io p) ∧ s = s' := by
  simp only [writeFile]
  split
  · next h => simp [h]
  · next h => simp [h, eq_comm]

theorem writeText_eq_ok {text : String} :
    writeText p text s = .ok () s' ↔ s.write p text.toUTF8 = some s' :=
  writeFile_eq_ok

theorem makeDir_eq_ok : makeDir p s = .ok () s' ↔ s.makeDir p = some s' := by
  simp only [makeDir]
  split
  · next h => simp [h]
  · next h => simp [h]

theorem makeDir_eq_error {stop : Stop} : makeDir p s = .error stop s' ↔
    s.makeDir p = none ∧ stop = .error (.io p) ∧ s = s' := by
  simp only [makeDir]
  split
  · next h => simp [h]
  · next h => simp [h, eq_comm]

end Action

/-! ### Formulas in files -/

theorem Opb.save_eq_ok {f : Opb} {s s' : Store} {p : Path} :
    f.save p s = .ok () s' ↔ s.write p f.render.toUTF8 = some s' :=
  Action.writeText_eq_ok

theorem Cnf.save_eq_ok {f : Cnf} {s s' : Store} {p : Path} :
    f.save p s = .ok () s' ↔ s.write p f.render.toUTF8 = some s' :=
  Action.writeText_eq_ok

/-- A formula is loaded from a file of text that is read as it. -/
theorem Opb.load_eq_ok {s s' : Store} {p : Path} {f : Opb} : Opb.load p s = .ok f s' ↔
    ∃ text, s.text? p = some text ∧ Opb.parse text = .ok f ∧ s = s' := by
  refine Action.readText_bind_eq_ok.trans (exists_congr fun text => and_congr_right fun _ => ?_)
  cases Opb.parse text with
  | ok g => simp
  | error e => cases e <;> simp [Action.fail]

theorem Cnf.load_eq_ok {s s' : Store} {p : Path} {f : Cnf} : Cnf.load p s = .ok f s' ↔
    ∃ text, s.text? p = some text ∧ Cnf.parse text = .ok f ∧ s = s' := by
  refine Action.readText_bind_eq_ok.trans (exists_congr fun text => and_congr_right fun _ => ?_)
  cases Cnf.parse text with
  | ok g => simp
  | error e => simp [Action.fail]

end PseudoBoolean
