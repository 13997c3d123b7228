import PseudoBoolean.Proofs.Locality

/-!
The places that a path passes.

A walk comes to a place after each of its pieces, whatever stands in the tree:

    pieces     generated      a                ..             b
    places     [generated]    [generated, a]   [generated]    [generated, b]

A path leads to the last of them if all the others are directories. A directory can be made unless a
file stands in one of them; then all of them are directories, and everything else is as it was. The
files of an instance stand two names below its root: the name of the instance, and the name of the
file, which begins with it. So instances of different names share no place but the way to the root.
-/

namespace PseudoBoolean

namespace Store

/-! ### Walks -/

/-- The places that a walk comes to, one after each piece. -/
def places (loc : Location) : List (List Char) → List Location
  | [] => []
  | piece :: pieces => step loc piece :: places (step loc piece) pieces

/-- The places that a path passes, the one that it leads to included. -/
def way (p : Path) : List Location := places (start p).1 (start p).2

/-- The place that a path leads to, if it leads anywhere. -/
def place (p : Path) : Location := (start p).2.foldl step (start p).1

theorem places_append (loc : Location) : ∀ pieces pieces' : List (List Char),
    places loc (pieces ++ pieces') = places loc pieces ++ places (pieces.foldl step loc) pieces'
  | [], _ => rfl
  | piece :: pieces, pieces' => by
    rw [List.cons_append, places, places, places_append, List.foldl_cons, List.cons_append]

/-- A walk goes through directories only. -/
theorem foldlM_enter_eq_some {s : Store} {pieces : List (List Char)} {loc d : Location} :
    pieces.foldlM s.enter loc = some d ↔
      (∀ l ∈ places loc pieces, s.isDirectory l = true) ∧ pieces.foldl step loc = d := by
  induction pieces generalizing loc with
  | nil => simp [places]
  | cons piece pieces ih =>
    simp only [List.foldlM_cons, enter, bind, Option.bind_eq_some_iff, Option.ite_none_right_eq_some,
      Option.some.injEq]
    rw [places, List.forall_mem_cons, List.foldl_cons, and_assoc, ← ih]
    constructor
    · rintro ⟨_, ⟨hdir, rfl⟩, h⟩
      exact ⟨hdir, h⟩
    · rintro ⟨hdir, h⟩
      exact ⟨_, ⟨hdir, rfl⟩, h⟩

/-! ### Making directories -/

/-- Whether a file stands at a location. -/
def IsFile (s : Store) (loc : Location) : Prop := ∃ content, s.entry? loc = some (.file content)

/-- Whether directories were made in some places and nothing else was changed. -/
def Made (made : List Location) (s s' : Store) : Prop :=
  ∀ loc, s'.entry? loc = if loc ∈ made then some .directory else s.entry? loc

section Made
variable {s s₁ s' : Store} {loc : Location}

theorem not_isFile_of_isDirectory (h : s.isDirectory loc = true) : ¬ s.IsFile loc := by
  rintro ⟨content, hfile⟩
  rw [isDirectory, hfile] at h
  cases h

theorem entry?_put_directory (s : Store) (loc loc' : Location) :
    entry? (s.put loc .directory) loc' = if loc' = loc then some .directory else s.entry? loc' := by
  rw [put, entry?, entry?]
  by_cases heq : loc' = loc
  · rw [heq, if_pos rfl, List.lookup_cons_self]
    split <;> rfl
  · rw [if_neg heq, List.lookup_cons, beq_false_of_ne heq]

/-- A step makes a directory unless a file stands there. -/
theorem makeStep_cases (s : Store) (loc : Location) (piece : List Char) :
    (s.IsFile (step loc piece) ∧ s.makeStep loc piece = none) ∨
      (¬ s.IsFile (step loc piece) ∧ ∃ s', s.makeStep loc piece = some (s', step loc piece) ∧
        Made [step loc piece] s s') := by
  simp only [makeStep]
  cases h : s.entry? (step loc piece) with
  | none =>
    refine Or.inr ⟨fun hfile => ?_, _, rfl, fun l => ?_⟩
    · obtain ⟨content, hfile⟩ := hfile
      rw [h] at hfile
      cases hfile
    · rw [entry?_put_directory]
      simp only [List.mem_singleton]
  | some e =>
    cases e with
    | file content => exact Or.inl ⟨⟨content, h⟩, rfl⟩
    | directory =>
      refine Or.inr ⟨fun hfile => ?_, s, rfl, fun l => ?_⟩
      · obtain ⟨content, hfile⟩ := hfile
        rw [h] at hfile
        cases hfile
      · by_cases hl : l = step loc piece
        · rw [hl, h, if_pos (List.mem_singleton_self _)]
        · rw [if_neg (mt List.mem_singleton.1 hl)]

theorem Made.trans {made later : List Location} (h : Made made s s₁)
    (h' : Made later s₁ s') : Made (made ++ later) s s' := by
  intro loc
  rw [h' loc, h loc]
  by_cases hlater : loc ∈ later
  · rw [if_pos hlater, if_pos (List.mem_append_right _ hlater)]
  · simp only [List.mem_append, hlater, or_false, if_false]

theorem Made.isFile_iff {made : List Location} (h : Made made s s')
    (hfree : ∀ l ∈ made, ¬ s.IsFile l) (loc : Location) : s'.IsFile loc ↔ s.IsFile loc := by
  rw [IsFile, h loc]
  by_cases hmem : loc ∈ made
  · rw [if_pos hmem]
    exact ⟨nofun, fun hfile => absurd hfile (hfree loc hmem)⟩
  · rw [if_neg hmem, IsFile]

theorem Made.isDirectory {made : List Location} (h : Made made s s') :
    ∀ l ∈ made, s'.isDirectory l = true := by
  intro l hl
  rw [Store.isDirectory, h l, if_pos hl]

/-- Directories are made along a walk unless a file stands in one of its places. -/
theorem foldlM_makeStep (pieces : List (List Char)) (s : Store) (loc : Location) :
    ((∃ l ∈ places loc pieces, s.IsFile l) ∧
        pieces.foldlM (fun (s, loc) piece => s.makeStep loc piece) (s, loc) = none) ∨
      ((∀ l ∈ places loc pieces, ¬ s.IsFile l) ∧ ∃ s',
        pieces.foldlM (fun (s, loc) piece => s.makeStep loc piece) (s, loc) =
          some (s', pieces.foldl step loc) ∧ Made (places loc pieces) s s') := by
  induction pieces generalizing s loc with
  | nil => exact Or.inr ⟨nofun, s, rfl, fun l => (if_neg List.not_mem_nil).symm⟩
  | cons piece pieces ih =>
    simp only [List.foldlM_cons, places, List.foldl_cons, List.forall_mem_cons]
    rcases makeStep_cases s loc piece with ⟨hfile, hstep⟩ | ⟨hfree, s₁, hstep, hmade⟩
    · rw [hstep]
      exact Or.inl ⟨⟨_, List.mem_cons_self .., hfile⟩, rfl⟩
    have hsame := hmade.isFile_iff (by simpa using hfree)
    rw [hstep]
    rcases ih s₁ (step loc piece) with ⟨⟨l, hl, hfile⟩, hrest⟩ | ⟨hrestFree, s', hrest, hmade'⟩
    · exact Or.inl ⟨⟨l, List.mem_cons_of_mem _ hl, (hsame l).1 hfile⟩, hrest⟩
    · refine Or.inr ⟨⟨hfree, fun l hl => ?_⟩, s', hrest, hmade.trans hmade'⟩
      exact (hsame l).not.1 (hrestFree l hl)

/-- A directory is made with those above it unless a file stands in the way, or the path cannot be
used or ends in a dot. -/
theorem makeDir_cases (s : Store) (p : Path) :
    ((isUsable p = true → endsInDot (start p).2 = false → ∃ l ∈ way p, s.IsFile l) ∧
        s.makeDir p = none) ∨
      (isUsable p = true ∧ (∀ l ∈ way p, ¬ s.IsFile l) ∧
        ∃ s', s.makeDir p = some s' ∧ Made (way p) s s') := by
  rw [makeDir]
  by_cases husable : isUsable p = true
  · rw [if_pos husable]
    rcases foldlM_makeStep (start p).2 s (start p).1 with ⟨hfile, hmake⟩ | ⟨hfree, s', hmake, hmade⟩
    · refine Or.inl ⟨fun _ _ => hfile, ?_⟩
      simp only [hmake]
      rfl
    · simp only [hmake, Option.bind_eq_bind, Option.bind_some]
      split
      · next hdot =>
        refine Or.inl ⟨fun _ hname => ?_, rfl⟩
        rw [hname] at hdot
        exact absurd hdot nofun
      · exact Or.inr ⟨husable, hfree, s', rfl, hmade⟩
  · rw [if_neg husable]
    exact Or.inl ⟨fun h => absurd h husable, rfl⟩

end Made

/-! ### Paths below one root -/

/-- A separator at the end of a path adds nothing to its way. -/
theorem foldl_step_blank {blank : List (List Char)} (h : blank = [] ∨ blank = [[]])
    (pieces : List (List Char)) (loc : Location) :
    (pieces ++ blank).foldl step loc = pieces.foldl step loc := by
  rcases h with rfl | rfl
  · rw [List.append_nil]
  · rw [List.foldl_append]
    rfl

/-- The text of a path below a root that is not empty: the separator ends the root, or is put below
it. -/
theorem exists_text_join {root : Path} (h : root.text ≠ "") :
    ∃ (before : List Char) (blank : List (List Char)), (blank = [] ∨ blank = [[]]) ∧
      root.pieces = before.splitOn '/' ++ blank ∧
      root.isAbsolute = ((before ++ ['/']).head? == some '/') ∧
      ∀ name : String, '/' ∉ name.toList →
        (root.join name).text.toList = before ++ '/' :: name.toList := by
  by_cases hslash : root.text.toList.getLast? = some '/'
  · obtain ⟨before, hroot⟩ := List.getLast?_eq_some_iff.1 hslash
    refine ⟨before, [[]], Or.inr rfl, ?_, ?_, fun name hname => ?_⟩
    · rw [Path.pieces, hroot, List.splitOn_append_cons_self, List.splitOn_nil]
    · rw [Path.isAbsolute, hroot]
    · rw [Path.join, if_neg (Path.not_isAbsolute hname), if_pos (Or.inr hslash),
        String.toList_append, hroot, List.append_assoc]
      rfl
  · refine ⟨root.text.toList, [], Or.inl rfl, (List.append_nil _).symm, ?_, fun name hname =>
      Path.toList_join ⟨h, hslash⟩ hname⟩
    obtain ⟨c, cs, hc⟩ := List.exists_cons_of_ne_nil fun hnil => h (String.toList_inj.1 hnil)
    rw [Path.isAbsolute, hc]
    rfl

/-- The pieces of a root that is not empty come before a name below it. -/
theorem exists_pieces_join {root : Path} (h : root.text ≠ "") :
    ∃ front blank : List (List Char), front ≠ [] ∧ (blank = [] ∨ blank = [[]]) ∧
      root.pieces = front ++ blank ∧
      ∀ name : String, '/' ∉ name.toList →
        (root.join name).pieces = front ++ [name.toList] ∧
          (root.join name).isAbsolute = root.isAbsolute := by
  obtain ⟨before, blank, hblank, hroot, habsolute, hbefore⟩ := exists_text_join h
  refine ⟨before.splitOn '/', blank, List.splitOn_ne_nil _ _, hblank, hroot, fun name hname => ?_⟩
  constructor
  · rw [Path.pieces, hbefore name hname, List.splitOn_append_cons_self,
      List.splitOn_eq_singleton hname]
  · rw [habsolute, Path.isAbsolute, hbefore name hname]
    cases before <;> rfl

/-- Whatever stands below a root is reached from the same place by the same pieces, which lead to the
place of the root first. -/
theorem exists_start_join (root : Path) : ∃ loc front, front.foldl step loc = place root ∧
    ∀ name : String, '/' ∉ name.toList →
      start (root.join name) = (loc, front ++ [name.toList]) := by
  by_cases hempty : root.text = ""
  · obtain rfl : root = ⟨""⟩ := congrArg Path.mk hempty
    refine ⟨[], [], by decide, fun name hname => ?_⟩
    have hjoin : Path.join ⟨""⟩ name = ⟨name⟩ := by
      rw [Path.join, if_neg (Path.not_isAbsolute hname), if_pos (Or.inl rfl), String.empty_append]
    rw [hjoin, start, if_neg (Path.not_isAbsolute hname), Path.pieces, List.splitOn_eq_singleton hname]
    rfl
  obtain ⟨front, blank, hne, hblank, hroot, hjoin⟩ := exists_pieces_join hempty
  have hdrop : ∀ later : List (List Char), (front ++ later).drop 1 = front.drop 1 ++ later :=
    fun later => List.drop_append_of_le_length (List.length_pos_iff.2 hne)
  by_cases habsolute : root.isAbsolute = true
  · refine ⟨[['/']], front.drop 1, ?_, fun name hname => ?_⟩
    · rw [place, start, if_pos habsolute, hroot, hdrop]
      exact (foldl_step_blank hblank _ _).symm
    · obtain ⟨hpieces, hsame⟩ := hjoin name hname
      rw [start, hsame, if_pos habsolute, hpieces, hdrop]
  · refine ⟨[], front, ?_, fun name hname => ?_⟩
    · rw [place, start, if_neg habsolute, hroot]
      exact (foldl_step_blank hblank _ _).symm
    · obtain ⟨hpieces, hsame⟩ := hjoin name hname
      rw [start, hsame, if_neg habsolute, hpieces]

/-- A name below a root is one step from the place of the root. -/
theorem place_join (root : Path) {name : String} (hname : '/' ∉ name.toList) :
    place (root.join name) = step (place root) name.toList := by
  obtain ⟨loc, front, hfront, hstart⟩ := exists_start_join root
  rw [place, hstart name hname, List.foldl_append, hfront]
  rfl

/-- A path ends as the name below its root does. -/
theorem endsInDot_join (root : Path) {name : String} (hslash : '/' ∉ name.toList) (hne : name ≠ "")
    (hdot : name ≠ ".") : endsInDot (start (root.join name)).2 = false := by
  obtain ⟨loc, front, _, hstart⟩ := exists_start_join root
  have hkept : name.toList ≠ [] := fun h => hne (String.toList_inj.1 h)
  rw [hstart name hslash, endsInDot, List.filter_append, List.filter_cons_of_pos (by simpa using hne),
    List.filter_nil, List.getLast?_concat, beq_eq_false_iff_ne]
  exact fun h => hdot (String.toList_inj.1 (Option.some.inj h))

theorem step_name {name : String} (hne : name ≠ "") (hdot : name ≠ ".") (hup : name ≠ "..")
    (loc : Location) : step loc name.toList = loc ++ [name.toList] := by
  have hhere : Path.isHere name.toList = false := by
    rw [Path.isHere, Bool.or_eq_false_iff, decide_eq_false_iff_not, decide_eq_false_iff_not]
    exact ⟨fun h => hne (String.toList_inj.1 h), fun h => hdot (String.toList_inj.1 h)⟩
  exact step_eq_concat hhere (fun h => hup (String.toList_inj.1 h)) loc

/-- Different names lead from a root to different places. -/
theorem nodup_places (root : Path) {names : List String} (hnodup : names.Nodup)
    (hproper : ∀ name ∈ names, '/' ∉ name.toList ∧ name ≠ "" ∧ name ≠ "." ∧ name ≠ "..") :
    (names.map fun name => place (root.join name)).Nodup := by
  refine hnodup.map_on fun name hname name' hname' heq => ?_
  obtain ⟨hslash, hne, hdot, hup⟩ := hproper name hname
  obtain ⟨hslash', hne', hdot', hup'⟩ := hproper name' hname'
  rw [place_join root hslash, place_join root hslash', step_name hne hdot hup,
    step_name hne' hdot' hup'] at heq
  exact String.toList_inj.1 (List.cons.inj (List.append_cancel_left heq)).1

end Store

/-! ### The files of an instance -/

namespace Artifacts
variable {root : Path} {name name' : String} {a b : Artifacts} {p : Path}

theorem eq_of_ofName (h : ofName root name = .ok a) : a = ⟨root.join name, name⟩ := by
  rw [ofName] at h
  split at h
  · exact (Except.ok.inj h).symm
  · cases h

/-- A file of an instance is named after it. -/
theorem exists_file (ha : a.IsValid) (hp : p ∈ a.files) : ∃ file : String,
    '/' ∉ file.toList ∧ 3 ≤ file.toList.length ∧ p = a.dir.join file := by
  have hrole : ∀ role : String, '/' ∉ role.toList → role ≠ "" → ∃ file : String,
      '/' ∉ file.toList ∧ 3 ≤ file.toList.length ∧ a.file role = a.dir.join file :=
    fun role hslash hne => ⟨_, ha.slash_notMem_file hslash, Path.length_file ha.ne_empty hne, rfl⟩
  simp only [files, List.mem_cons, List.not_mem_nil, or_false] at hp
  rcases hp with rfl | rfl | rfl | rfl | rfl <;> exact hrole _ (by decide) (by decide)

/-- A file of an instance is reached through the way to its directory. -/
theorem resolve_eq_some (ha : a.IsValid) (hp : p ∈ a.files) {s : Store} {loc : Location} :
    s.resolve p = some loc ↔ Store.isUsable p = true ∧
      (∀ l ∈ Store.way a.dir, s.isDirectory l = true) ∧ Store.place p = loc := by
  obtain ⟨file, hslash, _, rfl⟩ := exists_file ha hp
  have hstart := Store.start_join ha.isNamed hslash
  rw [Store.resolve, Store.place, hstart]
  simp only [List.dropLast_concat, List.getLast?_concat, List.foldl_concat, Option.bind_eq_bind,
    Option.ite_none_right_eq_some, Option.bind_eq_some_iff, Option.map_some, Option.some.injEq,
    Store.foldlM_enter_eq_some]
  constructor
  · rintro ⟨husable, _, ⟨hway, rfl⟩, rfl⟩
    exact ⟨husable, hway, rfl⟩
  · rintro ⟨husable, hway, rfl⟩
    exact ⟨husable, _, ⟨hway, rfl⟩, rfl⟩

/-- The directory of an instance is one step from the place of its root. -/
theorem place_dir (h : ofName root name = .ok a) :
    Store.place a.dir = Store.step (Store.place root) name.toList := by
  have ha := isValid_of_ofName h
  obtain rfl := eq_of_ofName h
  exact Store.place_join root ha.slash_notMem

/-- Only the name `.` ends a directory in a dot. -/
theorem endsInDot_dir (h : ofName root name = .ok a) (hdot : name ≠ ".") :
    Store.endsInDot (Store.start a.dir).2 = false := by
  have ha := isValid_of_ofName h
  obtain rfl := eq_of_ofName h
  exact Store.endsInDot_join root ha.slash_notMem ha.ne_empty hdot

/-- The files of an instance stand one name below its directory. -/
theorem exists_place_file (ha : a.IsValid) (hp : p ∈ a.files) : ∃ file : String,
    p = a.dir.join file ∧ Store.place p = Store.place a.dir ++ [file.toList] := by
  obtain ⟨file, hslash, hlen, rfl⟩ := exists_file ha hp
  refine ⟨file, rfl, ?_⟩
  rw [Store.place_join a.dir hslash]
  exact Store.step_eq_concat (Path.isHere_eq_false hlen) (Path.ne_up hlen) _

/-- Below one root, the directory of an instance stands one name below the place of the root, at the
end of the same way, and its files one name below that. -/
theorem exists_place (root : Path) : ∃ above : List Location, ∀ {name : String} {a : Artifacts},
    ofName root name = .ok a → name ≠ "." → name ≠ ".." →
      Store.way a.dir = above ++ [Store.place root ++ [name.toList]] ∧
        ∀ p ∈ a.files, ∃ file : String, p = a.dir.join file ∧
          Store.place p = Store.place root ++ [name.toList, file.toList] := by
  obtain ⟨loc, front, hfront, hstart⟩ := Store.exists_start_join root
  refine ⟨Store.places loc front, fun {name a} h hdot hup => ?_⟩
  have ha := isValid_of_ofName h
  have hplace := place_dir h
  obtain rfl := eq_of_ofName h
  have hname := Store.step_name ha.ne_empty hdot hup (Store.place root)
  refine ⟨?_, fun p hp => ?_⟩
  · have hdir : Store.start (root.join name) = (loc, front ++ [name.toList]) :=
      hstart name ha.slash_notMem
    rw [Store.way, hdir, Store.places_append, Store.places, Store.places, hfront, hname]
  · obtain ⟨file, hfile, hp⟩ := exists_place_file ha hp
    refine ⟨file, hfile, ?_⟩
    rw [hp, hplace, hname, List.append_assoc]
    rfl

/-- Whether two instances share no place but those on the way to both their directories. -/
structure Apart (a b : Artifacts) : Prop where
  files : ∀ p ∈ a.files, ∀ q ∈ b.files, Store.place p ≠ Store.place q
  way : ∀ p ∈ a.files, Store.place p ∈ Store.way b.dir → Store.place p ∈ Store.way a.dir
  way' : ∀ q ∈ b.files, Store.place q ∈ Store.way a.dir → Store.place q ∈ Store.way b.dir

/-- Instances of different names are apart, unless a name leads back. -/
theorem apart_of_ne (ha : ofName root name = .ok a) (hb : ofName root name' = .ok b)
    (hne : name ≠ name') (hdot : name ≠ "." ∧ name ≠ "..") (hdot' : name' ≠ "." ∧ name' ≠ "..") :
    a.Apart b := by
  obtain ⟨above, hplace⟩ := exists_place root
  obtain ⟨hway, hfiles⟩ := hplace ha hdot.1 hdot.2
  obtain ⟨hway', hfiles'⟩ := hplace hb hdot'.1 hdot'.2
  generalize Store.place root = base at hway hfiles hway' hfiles'
  -- a file stands lower than any directory of an instance
  have hlower : ∀ dir file file' : List Char, base ++ [dir, file] ≠ base ++ [file'] :=
    fun dir file file' h => absurd (List.append_cancel_left h) nofun
  have hshared : ∀ dir file name name' : List Char, base ++ [dir, file] ∈ above ++ [base ++ [name]] →
      base ++ [dir, file] ∈ above ++ [base ++ [name']] := by
    intro dir file name name' h
    rcases List.mem_append.1 h with h | h
    · exact List.mem_append_left _ h
    · exact absurd (List.mem_singleton.1 h) (hlower dir file name)
  refine ⟨fun p hp q hq heq => ?_, fun p hp h => ?_, fun q hq h => ?_⟩
  · obtain ⟨file, _, hp⟩ := hfiles p hp
    obtain ⟨file', _, hq⟩ := hfiles' q hq
    rw [hp, hq] at heq
    exact hne (String.toList_inj.1 (List.cons.inj (List.append_cancel_left heq)).1)
  · obtain ⟨file, _, hp⟩ := hfiles p hp
    rw [hp, hway'] at h
    rw [hp, hway]
    exact hshared _ _ _ _ h
  · obtain ⟨file, _, hq⟩ := hfiles' q hq
    rw [hq, hway] at h
    rw [hq, hway']
    exact hshared _ _ _ _ h

end Artifacts

end PseudoBoolean
