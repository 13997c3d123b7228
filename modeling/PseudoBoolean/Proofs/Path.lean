import PseudoBoolean.Artifact
import PseudoBoolean.Proofs.Store

/-!
Files of one directory, and their extensions.

A file below a directory has the pieces of the directory and one more, its name. Replacing the
extension changes that piece alone, so the files beside a source are found from the proof as well as
from the source (`Artifacts.cnf_beside_proof`).
-/

namespace PseudoBoolean

namespace Path
variable {dir : Path} {file : String}

/-- A directory whose text ends in a name, so that a separator must be added below it. -/
def IsNamed (dir : Path) : Prop := dir.text ≠ "" ∧ dir.text.toList.getLast? ≠ some '/'

/-- Text that ends in a name does not end in a separator. -/
theorem isNamed_append {before name : String} (hname : name ≠ "") (hslash : '/' ∉ name.toList) :
    IsNamed ⟨before ++ name⟩ := by
  obtain ⟨last, hlast⟩ := Option.isSome_iff_exists.1
    (List.getLast?_isSome.2 fun h => hname (String.toList_inj.1 h))
  refine ⟨fun h => ?_, fun h => ?_⟩
  · exact hname (String.append_eq_empty_iff.1 h).2
  · rw [String.toList_append, List.getLast?_append, hlast] at h
    obtain rfl := Option.some.inj h
    exact hslash (List.mem_of_getLast? hlast)

theorem not_isAbsolute {file : String} (h : '/' ∉ file.toList) : ¬ (Path.mk file).isAbsolute = true := by
  rw [isAbsolute, beq_iff_eq]
  exact fun hhead => h (List.mem_of_head? hhead)

theorem join_eq (hdir : dir.IsNamed) (hfile : '/' ∉ file.toList) :
    dir.join file = ⟨dir.text ++ "/" ++ file⟩ := by
  rw [join, if_neg (not_isAbsolute hfile), if_neg (not_or.2 hdir)]

theorem toList_join (hdir : dir.IsNamed) (hfile : '/' ∉ file.toList) :
    (dir.join file).text.toList = dir.text.toList ++ '/' :: file.toList := by
  rw [join_eq hdir hfile]
  simp only [String.toList_append, List.append_assoc]
  rfl

/-- A file below a directory has one more piece: its name. -/
theorem pieces_join (hdir : dir.IsNamed) (hfile : '/' ∉ file.toList) :
    (dir.join file).pieces = dir.pieces ++ [file.toList] := by
  rw [pieces, toList_join hdir hfile, List.splitOn_append_cons_self, List.splitOn_eq_singleton hfile,
    pieces]

/-- The pieces of a directory and a name make up the file of that name. -/
theorem ofList_intercalate (hdir : dir.IsNamed) {name : List Char} (hname : '/' ∉ name) :
    (⟨String.ofList (['/'].intercalate (dir.pieces ++ [name]))⟩ : Path) =
      dir.join (String.ofList name) := by
  have hfile : '/' ∉ (String.ofList name).toList := by rwa [String.toList_ofList]
  have hpieces := pieces_join hdir hfile
  rw [String.toList_ofList] at hpieces
  rw [← hpieces, pieces, List.intercalate_splitOn, String.ofList_toList]

theorem stem_append {name old : List Char} (hname : name ≠ []) (hold : '.' ∉ old) :
    stem (name ++ '.' :: old) = name := by
  obtain ⟨front, last, rfl⟩ := (List.eq_nil_or_concat name).resolve_left hname
  have hdrop : (front.concat last ++ '.' :: old).reverse.dropWhile (· ≠ '.') =
      '.' :: last :: front.reverse := by
    rw [List.reverse_append, List.reverse_cons, List.append_assoc,
      List.dropWhile_append_of_pos fun c hc => ?_]
    · simp
    · have hne : c ≠ '.' := fun e => hold (e ▸ List.mem_reverse.1 hc)
      simpa using hne
  rw [stem, hdrop]
  simp

theorem splitLast?_join (hdir : dir.IsNamed) (hfile : '/' ∉ file.toList)
    (hhere : isHere file.toList = false) (hup : file.toList ≠ up) :
    (dir.join file).splitLast? = some (file.toList, dir.pieces.reverse) := by
  rw [splitLast?, pieces_join hdir hfile, List.reverse_append, List.reverse_singleton,
    List.singleton_append, List.dropWhile_cons_of_neg (by rw [hhere]; exact nofun)]
  exact if_neg hup

/-- A name and an extension have at least three characters with the dot between them. -/
theorem length_file {name extension : String} (hname : name ≠ "") (hext : extension ≠ "") :
    3 ≤ (name ++ "." ++ extension).toList.length := by
  have hpos : ∀ t : String, t ≠ "" → 0 < t.toList.length := fun t ht =>
    List.length_pos_iff.2 fun h => ht (String.toList_inj.1 h)
  have hdot : ".".toList.length = 1 := rfl
  have hname := hpos name hname
  have hext := hpos extension hext
  simp only [String.toList_append, List.length_append, hdot]
  omega

theorem isHere_eq_false {piece : List Char} (h : 3 ≤ piece.length) : isHere piece = false := by
  rw [isHere, Bool.or_eq_false_iff, decide_eq_false_iff_not, decide_eq_false_iff_not]
  constructor <;> rintro rfl <;> exact absurd h (by decide)

theorem ne_up {piece : List Char} (h : 3 ≤ piece.length) : piece ≠ up := by
  rintro rfl
  exact absurd h (by decide)

/-- The name of a file after its extension was replaced. A name that is a single dot is swallowed
with the old extension. -/
def renamed (name extension : String) : String :=
  if name = "." then ".." else name ++ "." ++ extension

theorem slash_notMem_renamed {name extension : String} (hname : '/' ∉ name.toList)
    (hext : '/' ∉ extension.toList) : '/' ∉ (renamed name extension).toList := by
  simp only [renamed]
  split
  · decide
  · simp only [String.toList_append, List.mem_append, not_or]
    exact ⟨⟨hname, by decide⟩, hext⟩

theorem renameLast_append {name old extension : String} (hname : name ≠ "")
    (hold : '.' ∉ old.toList) :
    String.ofList (renameLast (name ++ "." ++ old).toList extension.toList true) =
      renamed name extension := by
  have hlist : (name ++ "." ++ old).toList = name.toList ++ '.' :: old.toList := by
    simp only [String.toList_append, List.append_assoc]
    rfl
  have hne : name.toList ≠ [] := fun h => hname (String.toList_inj.1 h)
  rw [hlist, renameLast, stem_append hne hold, renamed]
  by_cases hdot : name = "."
  · rw [if_pos hdot, hdot]
    rfl
  · have hstem : ¬ (true && name.toList == ['.']) = true := by
      rw [Bool.true_and, beq_iff_eq]
      exact fun h => hdot (String.toList_inj.1 h)
    rw [if_neg hdot, if_neg hstem, ← String.toList_inj, String.toList_ofList]
    simp only [String.toList_append, List.append_assoc]
    rfl

/-- Replacing the extension of a file changes its name alone. -/
theorem withExtension_join (hdir : dir.IsNamed) {name old extension : String} (hname : name ≠ "")
    (hslash : '/' ∉ name.toList) (hold : old ≠ "") (hdot : '.' ∉ old.toList)
    (hslash' : '/' ∉ old.toList) (hext : '/' ∉ extension.toList) :
    (dir.join (name ++ "." ++ old)).withExtension extension =
      dir.join (renamed name extension) := by
  have hfile : '/' ∉ (name ++ "." ++ old).toList := by
    simp only [String.toList_append, List.mem_append, not_or]
    exact ⟨⟨hslash, by decide⟩, hslash'⟩
  have hlen := length_file hname hold
  have hhere := isHere_eq_false hlen
  have hup := ne_up hlen
  have hlast : ((dir.join (name ++ "." ++ old)).pieces.getLast? ==
      some (name ++ "." ++ old).toList) = true := by
    rw [pieces_join hdir hfile, List.getLast?_concat, beq_self_eq_true]
  have hrenamed := slash_notMem_renamed hslash hext
  rw [← renameLast_append hname hdot, String.toList_ofList] at hrenamed
  rw [withExtension, splitLast?_join hdir hfile hhere hup]
  dsimp only
  rw [hlast, List.reverse_cons, List.reverse_reverse, ofList_intercalate hdir hrenamed,
    renameLast_append hname hdot]

/-- A path that ends in `..` has no extension to replace. -/
theorem withExtension_up (hdir : dir.IsNamed) (extension : String) :
    (dir.join "..").withExtension extension = dir.join ".." := by
  have hsplit : (dir.join "..").splitLast? = none := by
    rw [splitLast?, pieces_join hdir (by decide), List.reverse_append, List.reverse_singleton,
      List.singleton_append, List.dropWhile_cons_of_neg (by decide)]
    rfl
  rw [withExtension, hsplit]

end Path

/-! ### Artifacts -/

@[simp] theorem EncoderOutput.cnf_beside (source : Path) :
    (beside source).cnf = source.withExtension "cnf" := rfl

@[simp] theorem EncoderOutput.proof_beside (source : Path) :
    (beside source).proof = source.withExtension "pbp" := rfl

namespace Artifacts
variable {root : Path} {name : String} {a : Artifacts}

/-- Whether the files of an instance stand in a directory of its name. -/
structure IsValid (a : Artifacts) : Prop where
  isNamed : a.dir.IsNamed
  ne_empty : a.testName ≠ ""
  slash_notMem : '/' ∉ a.testName.toList

theorem isValid_of_ofName (h : ofName root name = .ok a) : a.IsValid := by
  simp only [ofName] at h
  split at h
  · next hvalid =>
    obtain rfl := Except.ok.inj h
    simp only [isValidName, Bool.and_eq_true, decide_eq_true_eq, Bool.not_eq_true',
      List.contains_eq_mem, decide_eq_false_iff_not] at hvalid
    obtain ⟨⟨hne, hslash⟩, _⟩ := hvalid
    refine ⟨?_, hne, hslash⟩
    show (root.join name).IsNamed
    rw [Path.join, if_neg (Path.not_isAbsolute hslash)]
    split <;> exact Path.isNamed_append hne hslash
  · exact absurd h nofun

theorem IsValid.slash_notMem_file (h : a.IsValid) {role : String} (hrole : '/' ∉ role.toList) :
    '/' ∉ (a.testName ++ "." ++ role).toList := by
  simp only [String.toList_append, List.mem_append, not_or]
  exact ⟨⟨h.slash_notMem, by decide⟩, hrole⟩

/-- Files of different roles are different. -/
theorem file_ne (h : a.IsValid) {role role' : String} (hrole : '/' ∉ role.toList)
    (hrole' : '/' ∉ role'.toList) (hne : role ≠ role') : a.file role ≠ a.file role' := by
  rw [file, file, Path.join_eq h.isNamed (h.slash_notMem_file hrole),
    Path.join_eq h.isNamed (h.slash_notMem_file hrole')]
  intro heq
  have htext := (String.append_right_inj _).1 (Path.mk.inj heq)
  exact hne ((String.append_right_inj _).1 htext)

/-- What stands beside a file with another extension has the name of the instance. -/
theorem file_withExtension (h : a.IsValid) {role extension : String} (hrole : role ≠ "")
    (hdot : '.' ∉ role.toList) (hslash : '/' ∉ role.toList) (hext : '/' ∉ extension.toList) :
    (a.file role).withExtension extension = a.dir.join (Path.renamed a.testName extension) :=
  Path.withExtension_join h.isNamed h.ne_empty h.slash_notMem hrole hdot hslash hext

theorem source_withExtension (h : a.IsValid) {extension : String}
    (hext : '/' ∉ extension.toList) :
    a.source.withExtension extension = a.dir.join (Path.renamed a.testName extension) :=
  file_withExtension h (by decide) (by decide) (by decide) hext

/-- The clauses beside the proof are the clauses beside the source. -/
theorem cnf_beside_proof (h : a.IsValid) :
    (EncoderOutput.beside a.source).proof.withExtension "cnf" =
      (EncoderOutput.beside a.source).cnf := by
  rw [EncoderOutput.proof_beside, EncoderOutput.cnf_beside,
    source_withExtension h (by decide), source_withExtension h (by decide)]
  by_cases hdot : a.testName = "."
  · rw [hdot]
    exact Path.withExtension_up h.isNamed "cnf"
  · have hpbp : Path.renamed a.testName "pbp" = a.testName ++ "." ++ "pbp" := if_neg hdot
    rw [hpbp]
    exact file_withExtension h (by decide) (by decide) (by decide) (by decide)

end Artifacts

/-! ### Where the files of a directory stand -/

namespace Store
variable {dir : Path} {file file' : String}

/-- The walk to a file below a directory is the walk to the directory, then one step. -/
theorem start_join (hdir : dir.IsNamed) (hfile : '/' ∉ file.toList) :
    start (dir.join file) = ((start dir).1, (start dir).2 ++ [file.toList]) := by
  have hhead : (dir.join file).isAbsolute = dir.isAbsolute := by
    obtain ⟨c, rest, hc⟩ := List.exists_cons_of_ne_nil fun h => hdir.1 (String.toList_inj.1 h)
    rw [Path.isAbsolute, Path.isAbsolute, Path.toList_join hdir hfile, hc]
    rfl
  have hpieces : dir.pieces ≠ [] := fun h => List.splitOn_ne_nil _ _ h
  have hdrop : (dir.pieces ++ [file.toList]).drop 1 = dir.pieces.drop 1 ++ [file.toList] :=
    List.drop_append_of_le_length (List.length_pos_iff.2 hpieces)
  rw [start, start, hhead, Path.pieces_join hdir hfile, hdrop]
  split <;> rfl

/-- A file stands one step below its directory. -/
theorem resolve_join {s : Store} (hdir : dir.IsNamed) (hfile : '/' ∉ file.toList) {loc : Location}
    (h : s.resolve (dir.join file) = some loc) :
    ∃ d, (start dir).2.foldlM s.enter (start dir).1 = some d ∧ loc = step d file.toList := by
  rw [resolve, start_join hdir hfile] at h
  split at h
  · simp only [List.dropLast_concat, List.getLast?_concat, Option.bind_eq_bind,
      Option.bind_eq_some_iff, Option.map_some, Option.some.injEq] at h
    obtain ⟨d, hd, rfl⟩ := h
    exact ⟨d, hd, rfl⟩
  · cases h

/-- A step stays, goes on to one more name, or goes back by one. -/
theorem step_cases (loc : Location) (piece : List Char) :
    step loc piece = loc ∨ step loc piece = loc ++ [piece] ∨ step loc piece = loc.dropLast := by
  rw [step]
  split
  · exact Or.inl rfl
  · split
    · split
      · exact Or.inl rfl
      · split
        · exact Or.inr (Or.inl rfl)
        · exact Or.inr (Or.inr rfl)
    · exact Or.inr (Or.inl rfl)

/-- A name leads one place further. -/
theorem step_eq_concat {name : List Char} (hhere : Path.isHere name = false) (hup : name ≠ Path.up)
    (loc : Location) : step loc name = loc ++ [name] := by
  rw [step, hhere, if_neg nofun, if_neg hup]

/-- No other piece leads to where a name leads. -/
theorem step_ne {piece name : List Char} (hhere : Path.isHere name = false) (hup : name ≠ Path.up)
    (hne : name ≠ piece) (d : Location) : step d name ≠ step d piece := by
  have hname := step_eq_concat hhere hup d
  have hlonger : ∀ l : Location, l.length ≤ d.length → d ++ [name] ≠ l := by
    rintro l hl rfl
    rw [List.length_append, List.length_singleton] at hl
    omega
  rw [hname]
  rcases step_cases d piece with h | h | h <;> rw [h]
  · exact hlonger d (Nat.le_refl _)
  · exact fun h => hne (List.singleton_inj.1 (List.append_cancel_left h))
  · exact hlonger _ (List.dropLast_sublist d).length_le

/-- Files of different names in one directory stand at different places. -/
theorem resolve_join_ne {s : Store} (hdir : dir.IsNamed) (hfile : '/' ∉ file.toList)
    (hfile' : '/' ∉ file'.toList) (hhere : Path.isHere file.toList = false)
    (hup : file.toList ≠ Path.up) (hne : file ≠ file') {loc : Location}
    (h : s.resolve (dir.join file') = some loc) :
    s.resolve (dir.join file) ≠ s.resolve (dir.join file') := by
  rw [h]
  intro hsame
  obtain ⟨d, hd, rfl⟩ := resolve_join hdir hfile' h
  obtain ⟨d', hd', heq⟩ := resolve_join hdir hfile hsame
  rw [hd] at hd'
  obtain rfl := Option.some.inj hd'
  exact step_ne hhere hup (fun e => hne (String.toList_inj.1 e)) d heq.symm

/-- What lies above the end of a step lies above its begin, the end itself apart. -/
theorem prefix_step {loc p : Location} {piece : List Char} (h : p <+: step loc piece) :
    p <+: loc ∨ p = step loc piece := by
  rcases step_cases loc piece with heq | heq | heq <;> rw [heq] at h ⊢
  · exact Or.inl h
  · exact (List.prefix_concat_iff.1 h).symm
  · exact Or.inl (h.trans (List.dropLast_prefix loc))

/-- A walk through directories ends in one, and every place above its end is one. -/
theorem isDirectory_of_walk {s : Store} {pieces : List (List Char)} {loc d : Location}
    (hloc : ∀ p, p <+: loc → s.isDirectory p = true) (h : pieces.foldlM s.enter loc = some d) :
    ∀ p, p <+: d → s.isDirectory p = true := by
  induction pieces generalizing loc with
  | nil =>
    obtain rfl := Option.some.inj h
    exact hloc
  | cons piece pieces ih =>
    rw [List.foldlM_cons] at h
    obtain ⟨next, hnext, h⟩ := Option.bind_eq_some_iff.1 h
    simp only [enter, Option.ite_none_right_eq_some, Option.some.injEq] at hnext
    obtain ⟨hdir, rfl⟩ := hnext
    refine ih (fun p hp => ?_) h
    rcases prefix_step hp with hp | rfl
    · exact hloc p hp
    · exact hdir

/-- The directory above is no place for a file. -/
theorem not_isWritable_up {s : Store} (hdir : dir.IsNamed) : ¬ s.IsWritable (dir.join "..") := by
  intro h
  obtain ⟨loc, hloc, hfile⟩ := isWritable_iff.1 h
  obtain ⟨d, hd, rfl⟩ := resolve_join hdir (by decide) hloc
  have habove : ∀ p : Location, isAbove p = true ∨ p = [['/']] → s.isDirectory p = true := by
    intro p hp
    rw [isDirectory, entry?, if_pos hp]
  have hstart : ∀ p, p <+: (start dir).1 → s.isDirectory p = true := by
    intro p hp
    refine habove p ?_
    rw [start] at hp
    split at hp
    · rcases List.prefix_cons_iff.1 hp with rfl | ⟨t, rfl, ht⟩
      · exact Or.inl rfl
      · rw [List.prefix_nil.1 ht]
        exact Or.inr rfl
    · rw [List.prefix_nil.1 hp]
      exact Or.inl rfl
  have hwalk := isDirectory_of_walk hstart hd
  have hup : s.isDirectory (step d Path.up) = true := by
    rw [step, if_neg (by decide), if_pos rfl]
    split
    · exact hwalk d (List.prefix_refl d)
    · split
      · next hall =>
        refine habove _ (Or.inl ?_)
        rw [isAbove, List.all_append, Bool.and_eq_true]
        exact ⟨hall, by decide⟩
      · exact hwalk _ (List.dropLast_prefix d)
  exact Bool.false_ne_true (hfile.symm.trans hup)

end Store

/-- A file of another name in the same directory is left alone. -/
theorem Store.read_join_write {dir : Path} {file file' : String} (hdir : dir.IsNamed)
    (hfile : '/' ∉ file.toList) (hfile' : '/' ∉ file'.toList) (hlen : 3 ≤ file.toList.length)
    (hne : file ≠ file') {s s' : Store} {content : ByteArray}
    (h : s.write (dir.join file') content = some s') :
    s'.read (dir.join file) = s.read (dir.join file) := by
  obtain ⟨loc, hloc, _⟩ := Store.write_eq_some.1 h
  exact Store.read_write_of_ne h (Store.resolve_join_ne hdir hfile hfile' (Path.isHere_eq_false hlen)
    (Path.ne_up hlen) hne hloc)

namespace Artifacts
variable {a : Artifacts} {s s' : Store} {content : ByteArray}

/-- A file of another extension beside the source is not the source. -/
theorem read_source_write (ha : a.IsValid) {extension : String} (hext : '/' ∉ extension.toList)
    (hne : extension ≠ "opb") (h : s.write (a.source.withExtension extension) content = some s') :
    s'.read a.source = s.read a.source := by
  have hother : a.testName ++ "." ++ "opb" ≠ Path.renamed a.testName extension := by
    simp only [Path.renamed]
    split
    · next hdot =>
      rw [hdot]
      decide
    · intro heq
      exact hne ((String.append_right_inj _).1 heq).symm
  rw [source_withExtension ha hext] at h
  exact Store.read_join_write ha.isNamed (ha.slash_notMem_file (by decide))
    (Path.slash_notMem_renamed ha.slash_notMem hext) (Path.length_file ha.ne_empty (by decide))
    hother h

/-- The proof beside a source is not the clauses beside it, where these can be written at all: under
the name of a single dot both would be the directory above. -/
theorem read_cnf_write (ha : a.IsValid)
    (hcnf : s.IsWritable (EncoderOutput.beside a.source).cnf)
    (h : s.write (EncoderOutput.beside a.source).proof content = some s') :
    s'.read (EncoderOutput.beside a.source).cnf = s.read (EncoderOutput.beside a.source).cnf := by
  rw [EncoderOutput.cnf_beside, source_withExtension ha (by decide)] at hcnf ⊢
  rw [EncoderOutput.proof_beside, source_withExtension ha (by decide)] at h
  by_cases hdot : a.testName = "."
  · rw [Path.renamed, if_pos hdot] at hcnf
    exact absurd hcnf (Store.not_isWritable_up ha.isNamed)
  · rw [Path.renamed, if_neg hdot] at h ⊢
    have hne : a.testName ++ "." ++ "cnf" ≠ a.testName ++ "." ++ "pbp" := fun heq =>
      absurd ((String.append_right_inj _).1 heq) (by decide)
    exact Store.read_join_write ha.isNamed (ha.slash_notMem_file (by decide))
      (ha.slash_notMem_file (by decide)) (Path.length_file ha.ne_empty (by decide)) hne h

end Artifacts

end PseudoBoolean
