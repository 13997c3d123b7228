import PseudoBoolean.Proofs.Directories

/-!
Under which names the files of an instance stand, and where.

An encoder leaves its files beside the source and names them by replacing the extension of the source;
a run looks for them under the name of the instance with an extension added:

    name     source       extension replaced    extension added
    a.b      a.b.opb      a.b.cnf               a.b.cnf
    ..       ...opb       ...cnf                ...cnf
    .        ..opb        ..                    ..cnf

So both rules name the same files for every name but the single dot (`Artifacts.encoder_files_agree`).
The directory of an instance stands one name below its root unless the name leads nowhere or back,
which two names do (`Artifacts.dir_isBelow_iff`).
-/

namespace PseudoBoolean

namespace Path
variable {dir : Path} {file file' name extension : String}

/-! ### Files of one directory -/

/-- A file below a directory has one more component: its name. -/
theorem components_join (hdir : dir.IsNamed) (hfile : '/' ∉ file.toList)
    (hhere : isHere file.toList = false) :
    (dir.join file).components = dir.components ++ [file.toList] := by
  have habsolute : (dir.join file).isAbsolute = dir.isAbsolute := by
    obtain ⟨c, cs, hc⟩ := List.exists_cons_of_ne_nil fun h => hdir.1 (String.toList_inj.1 h)
    rw [isAbsolute, isAbsolute, toList_join hdir hfile, hc]
    rfl
  obtain ⟨first, rest, hpieces⟩ := List.exists_cons_of_ne_nil (l := dir.pieces) fun h =>
    List.splitOn_ne_nil _ _ h
  have hkept : [file.toList].filter (!isHere ·) = [file.toList] :=
    List.filter_cons_of_pos (by rw [hhere]; rfl)
  rw [components, components, pieces_join hdir hfile, habsolute, hpieces]
  simp only [List.cons_append, List.filter_append, hkept, List.append_assoc]

/-- Files of one directory are the same exactly if their names are. -/
theorem same_join_iff (hdir : dir.IsNamed) (hfile : '/' ∉ file.toList)
    (hhere : isHere file.toList = false) (hfile' : '/' ∉ file'.toList)
    (hhere' : isHere file'.toList = false) :
    (dir.join file).same (dir.join file') = true ↔ file = file' := by
  rw [same, beq_iff_eq, components_join hdir hfile hhere, components_join hdir hfile' hhere',
    List.append_cancel_left_eq, List.singleton_inj, String.toList_inj]

/-- A file is named by what its path ends in. -/
theorem fileName?_join (hdir : dir.IsNamed) (hfile : '/' ∉ file.toList)
    (hhere : isHere file.toList = false) (hup : file.toList ≠ up) :
    (dir.join file).fileName? = some file := by
  rw [fileName?, splitLast?_join hdir hfile hhere hup, Option.map_some]
  exact congrArg some String.ofList_toList

/-! ### Extensions -/

/-- Replacing an extension is adding one to the rest of the name, unless the rest is a single dot. -/
theorem renamed_eq_iff (hext : extension ≠ "") :
    renamed name extension = name ++ "." ++ extension ↔ name ≠ "." := by
  rw [renamed]
  split
  · next hdot =>
    rw [hdot]
    refine iff_of_false (fun h => hext ?_) (fun h => h rfl)
    exact (String.append_eq_left_iff.1 h.symm)
  · next hdot => exact iff_of_true rfl hdot

theorem isHere_renamed (hname : name ≠ "") (hext : extension ≠ "") :
    isHere (renamed name extension).toList = false := by
  rw [renamed]
  split
  · decide
  · exact isHere_eq_false (length_file hname hext)

end Path

/-! ### Files of one instance -/

namespace Artifacts
variable {root : Path} {name role role' : String} {a : Artifacts}

/-- What the files of an instance end in, after its name. -/
def roles : List String := ["opb", "pbp", "cnf", "min.opt.opb", "max.opt.opb"]

theorem files_eq_map (a : Artifacts) : a.files = roles.map a.file := rfl

section Files
variable (ha : a.IsValid)
include ha

theorem isHere_file (hrole : role ≠ "") : Path.isHere (a.testName ++ "." ++ role).toList = false :=
  Path.isHere_eq_false (Path.length_file ha.ne_empty hrole)

/-- Files of different roles have different paths, however these are compared. -/
theorem same_file_iff (hslash : '/' ∉ role.toList) (hslash' : '/' ∉ role'.toList)
    (hrole : role ≠ "") (hrole' : role' ≠ "") :
    (a.file role).same (a.file role') = true ↔ role = role' := by
  rw [file, file, Path.same_join_iff ha.isNamed (ha.slash_notMem_file hslash)
    (isHere_file ha hrole) (ha.slash_notMem_file hslash') (isHere_file ha hrole'),
    String.append_right_inj]

/-- What replacing an extension leads to is the file of that role, unless the name is a dot. -/
theorem same_renamed_iff {extension : String} (hne : extension ≠ "")
    (hext : '/' ∉ extension.toList) :
    (a.dir.join (Path.renamed a.testName extension)).same (a.file extension) = true ↔
      a.testName ≠ "." := by
  rw [file, Path.same_join_iff ha.isNamed (Path.slash_notMem_renamed ha.slash_notMem hext)
    (Path.isHere_renamed ha.ne_empty hne) (ha.slash_notMem_file hext) (isHere_file ha hne),
    Path.renamed_eq_iff hne]

/-- A file of an instance is one component below the directory. -/
theorem components_of_mem_files {p : Path} (hp : p ∈ a.files) : ∃ file : String,
    p = a.dir.join file ∧ p.fileName? = some file ∧
      p.components = a.dir.components ++ [file.toList] := by
  obtain ⟨file, hslash, hlen, rfl⟩ := exists_file ha hp
  have hhere := Path.isHere_eq_false hlen
  exact ⟨file, rfl, Path.fileName?_join ha.isNamed hslash hhere (Path.ne_up hlen),
    Path.components_join ha.isNamed hslash hhere⟩

/-- No two files of an instance are the same. -/
theorem pairwise_files : a.files.Pairwise fun p q => p.same q = false := by
  have hroles : ∀ role ∈ roles, '/' ∉ role.toList ∧ role ≠ "" := by decide
  have hdistinct : roles.Pairwise (· ≠ ·) := by decide
  rw [files_eq_map, List.pairwise_map]
  refine hdistinct.imp_of_mem fun {role role'} hmem hmem' hne => Bool.eq_false_iff.2 fun h => ?_
  obtain ⟨hslash, hrole⟩ := hroles role hmem
  obtain ⟨hslash', hrole'⟩ := hroles role' hmem'
  exact hne ((same_file_iff ha hslash hslash' hrole hrole').1 h)

end Files

/-- Where an encoder leaves its files and where a run looks for them. Both are the same, also from the
proof on, exactly if the name is no single dot; even then the clauses beside the proof are those
beside the source. The five files are five paths, each one component below the directory. -/
theorem encoder_files_agree (h : ofName root name = .ok a) :
    ((EncoderOutput.beside a.source).same a.encoderOutput = true ↔ name ≠ ".") ∧
    ((a.proof.withExtension "cnf").same a.cnf = true ↔ name ≠ ".") ∧
    (name ≠ "." →
      EncoderOutput.beside a.source = a.encoderOutput ∧ a.proof.withExtension "cnf" = a.cnf) ∧
    (EncoderOutput.beside a.source).proof.withExtension "cnf" =
      (EncoderOutput.beside a.source).cnf ∧
    (∀ p ∈ a.files, ∃ file : String, p = a.dir.join file ∧ p.fileName? = some file ∧
      p.components = a.dir.components ++ [file.toList]) ∧
    a.files.Pairwise fun p q => p.same q = false := by
  have ha := isValid_of_ofName h
  obtain rfl : name = a.testName := by rw [eq_of_ofName h]
  have hsource : ∀ extension : String, '/' ∉ extension.toList →
      a.source.withExtension extension = a.dir.join (Path.renamed a.testName extension) :=
    fun _ hext => source_withExtension ha hext
  have hproof : a.proof.withExtension "cnf" = a.dir.join (Path.renamed a.testName "cnf") :=
    file_withExtension ha (by decide) (by decide) (by decide) (by decide)
  have hcnf : (a.dir.join (Path.renamed a.testName "cnf")).same a.cnf = true ↔ a.testName ≠ "." :=
    same_renamed_iff ha (by decide) (by decide)
  have hpbp : (a.dir.join (Path.renamed a.testName "pbp")).same a.proof = true ↔ a.testName ≠ "." :=
    same_renamed_iff ha (by decide) (by decide)
  refine ⟨?_, ?_, fun hdot => ⟨?_, ?_⟩, cnf_beside_proof ha, fun p => components_of_mem_files ha,
    pairwise_files ha⟩
  · rw [EncoderOutput.same, Bool.and_eq_true, EncoderOutput.cnf_beside, EncoderOutput.proof_beside,
      hsource _ (by decide), hsource _ (by decide)]
    exact (and_congr hcnf hpbp).trans (and_self_iff)
  · rw [hproof]
    exact hcnf
  · rw [EncoderOutput.beside, hsource _ (by decide), hsource _ (by decide),
      (Path.renamed_eq_iff (by decide)).2 hdot, (Path.renamed_eq_iff (by decide)).2 hdot]
    rfl
  · rw [hproof, (Path.renamed_eq_iff (by decide)).2 hdot]
    rfl

/-- The clauses of the instance `..` below `g`. -/
theorem encoder_files_agree_up :
    let a : Artifacts := ⟨⟨"g/.."⟩, ".."⟩
    ofName ⟨"g"⟩ ".." = .ok a ∧ ".." ≠ "." ∧
      EncoderOutput.beside a.source = a.encoderOutput ∧ a.proof.withExtension "cnf" = a.cnf ∧
        a.cnf = ⟨"g/../...cnf"⟩ := by
  intro a
  have h : ofName ⟨"g"⟩ ".." = .ok a := by decide
  obtain ⟨_, _, hagree, _⟩ := encoder_files_agree h
  obtain ⟨hbeside, hcnf⟩ := hagree (by decide)
  exact ⟨h, by decide, hbeside, hcnf, by decide⟩

/-- The instance named by a dot has a file of clauses, and its encoder leaves none there: beside its
source and beside its proof the name of the clauses is lost. -/
theorem dot_encoder_files : ∃ a, ofName ⟨"generated"⟩ "." = .ok a ∧
    a.cnf = ⟨"generated/./..cnf"⟩ ∧ (EncoderOutput.beside a.source).cnf = ⟨"generated/./.."⟩ ∧
    (EncoderOutput.beside a.source).same a.encoderOutput = false ∧
    (a.proof.withExtension "cnf").same a.cnf = false := by
  refine ⟨⟨⟨"generated/."⟩, "."⟩, ?_⟩
  decide +kernel

end Artifacts

/-! ### Below the root -/

namespace Store
variable {base loc : Location} {piece : List Char}

/-- Whether a place lies strictly below another: one name or more leads there, and none leads back. -/
def IsBelow (base loc : Location) : Prop :=
  ∃ names, names ≠ [] ∧ (∀ name ∈ names, name ≠ Path.up) ∧ base ++ names = loc

/-- One step leads below where it begins exactly if the piece is a name. -/
theorem isBelow_step_iff :
    IsBelow base (step base piece) ↔ Path.isHere piece = false ∧ piece ≠ Path.up := by
  constructor
  · rintro ⟨names, hne, hnames, hstep⟩
    have hlonger : base.length < (step base piece).length := by
      rw [← hstep, List.length_append]
      exact Nat.lt_add_of_pos_right (List.length_pos_iff.2 hne)
    rcases step_cases base piece with heq | heq | heq <;> rw [heq] at hlonger
    · exact absurd hlonger (Nat.lt_irrefl _)
    · refine ⟨Bool.eq_false_iff.2 fun hhere => ?_, ?_⟩
      · have hstay : step base piece = base := by rw [step, if_pos hhere]
        exact absurd (congrArg List.length (heq.symm.trans hstay)) (by simp)
      · obtain rfl : names = [piece] := List.append_cancel_left (hstep.trans heq)
        exact hnames piece (List.mem_singleton_self _)
    · exact absurd hlonger (Nat.not_lt.2 (List.dropLast_sublist base).length_le)
  · rintro ⟨hhere, hup⟩
    refine ⟨[piece], List.cons_ne_nil _ _, fun name hname => ?_, (step_eq_concat hhere hup base).symm⟩
    exact List.mem_singleton.1 hname ▸ hup

theorem IsBelow.trans {loc' : Location} (h : IsBelow base loc) (h' : IsBelow loc loc') :
    IsBelow base loc' := by
  obtain ⟨names, hne, hnames, rfl⟩ := h
  obtain ⟨later, _, hlater, rfl⟩ := h'
  refine ⟨names ++ later, List.append_ne_nil_of_left_ne_nil hne _, fun name hname => ?_,
    (List.append_assoc ..).symm⟩
  exact (List.mem_append.1 hname).elim (hnames name) (hlater name)

theorem IsBelow.isPrefix (h : IsBelow base loc) : base <+: loc := by
  obtain ⟨names, _, _, h⟩ := h
  exact ⟨names, h⟩

end Store

namespace Artifacts
variable {root : Path} {name : String} {a : Artifacts}

/-- A name that is accepted leads one step further unless it is made of one or two dots. -/
theorem isBelow_name_iff (ha : a.IsValid) (base : Location) :
    Store.IsBelow base (Store.step base a.testName.toList) ↔
      a.testName ≠ "." ∧ a.testName ≠ ".." := by
  have hdot : a.testName.toList = ['.'] ↔ a.testName = "." := @String.toList_inj a.testName "."
  have hup : a.testName.toList = Path.up ↔ a.testName = ".." := @String.toList_inj a.testName ".."
  have hne : a.testName.toList ≠ [] := fun h => ha.ne_empty (String.toList_inj.1 h)
  rw [Store.isBelow_step_iff, Path.isHere, Bool.or_eq_false_iff, decide_eq_false_iff_not,
    decide_eq_false_iff_not, hdot, ne_eq, hup]
  exact and_congr_left fun _ => and_iff_right hne

/-- The files of an instance stand in its directory. -/
theorem isBelow_file (ha : a.IsValid) {p : Path} (hp : p ∈ a.files) :
    Store.IsBelow (Store.place a.dir) (Store.place p) := by
  obtain ⟨file, hslash, hlen, rfl⟩ := exists_file ha hp
  rw [Store.place_join a.dir hslash]
  exact Store.isBelow_step_iff.2 ⟨Path.isHere_eq_false hlen, Path.ne_up hlen⟩

/-- Where the directory of an instance stands: strictly below the root exactly if its name is made of
neither one nor two dots. Then it is the root and one component, the name; the files stand strictly
below it; and no other name has the same directory. -/
theorem dir_isBelow_iff (h : ofName root name = .ok a) :
    (Store.IsBelow (Store.place root) (Store.place a.dir) ↔ name ≠ "." ∧ name ≠ "..") ∧
    (name ≠ "." ∧ name ≠ ".." →
      Store.place a.dir = Store.place root ++ [name.toList] ∧
      (∀ p ∈ a.files, Store.IsBelow (Store.place a.dir) (Store.place p) ∧
        Store.IsBelow (Store.place root) (Store.place p)) ∧
      ∀ name' b, ofName root name' = .ok b → name' ≠ name →
        Store.place b.dir ≠ Store.place a.dir) := by
  have ha := isValid_of_ofName h
  have hdir := place_dir h
  obtain rfl : name = a.testName := by rw [eq_of_ofName h]
  have hbelow := isBelow_name_iff ha (Store.place root)
  refine ⟨hdir ▸ hbelow, fun hproper => ?_⟩
  obtain ⟨hhere, hup⟩ := Store.isBelow_step_iff.1 (hbelow.2 hproper)
  refine ⟨hdir.trans (Store.step_eq_concat hhere hup _), fun p hp => ?_, fun name' b hb hne => ?_⟩
  · have hfile := isBelow_file ha hp
    exact ⟨hfile, Store.IsBelow.trans (hdir ▸ hbelow.2 hproper) hfile⟩
  · rw [place_dir hb, hdir]
    exact (Store.step_ne hhere hup (fun h => hne (String.toList_inj.1 h.symm)) _).symm

/-- The name `a..b` holds two dots and leads to a directory of its own. -/
theorem dir_isBelow_dots :
    let a : Artifacts := ⟨⟨"/tmp/./gen/a..b"⟩, "a..b"⟩
    ofName ⟨"/tmp/./gen"⟩ "a..b" = .ok a ∧ ("a..b" ≠ "." ∧ "a..b" ≠ "..") ∧
      Store.place a.dir = ["/".toList, "tmp".toList, "gen".toList, "a..b".toList] := by
  intro a
  have h : ofName ⟨"/tmp/./gen"⟩ "a..b" = .ok a := by decide
  have hproper : "a..b" ≠ "." ∧ "a..b" ≠ ".." := by decide
  obtain ⟨_, hbelow⟩ := dir_isBelow_iff h
  exact ⟨h, hproper, (hbelow hproper).1⟩

/-- Two names are accepted and lead out of the directory that an instance would have to itself: one
dot to the root, two dots above it, where the files stand beside the root. -/
theorem dots_not_isBelow :
    (∃ a, ofName ⟨"generated"⟩ "." = .ok a ∧
      Store.place a.dir = Store.place ⟨"generated"⟩) ∧
    ∃ a, ofName ⟨"generated"⟩ ".." = .ok a ∧ Store.place a.dir = [] ∧
      Store.place a.source = ["...opb".toList] ∧
      ¬ Store.IsBelow (Store.place ⟨"generated"⟩) (Store.place a.dir) ∧
      ¬ Store.IsBelow (Store.place ⟨"generated"⟩) (Store.place a.source) := by
  have hroot : Store.place ⟨"generated"⟩ = ["generated".toList] := by decide
  have hdir : Store.place ⟨"generated/.."⟩ = [] := by decide
  have hsource : Store.place (Artifacts.source ⟨⟨"generated/.."⟩, ".."⟩) = ["...opb".toList] := by
    decide
  refine ⟨⟨⟨⟨"generated/."⟩, "."⟩, by decide, by decide⟩, ⟨⟨"generated/.."⟩, ".."⟩, by decide, hdir,
    hsource, fun h => ?_, fun h => ?_⟩
  · have hstarts := h.isPrefix
    rw [hroot, hdir] at hstarts
    exact absurd hstarts (by decide)
  · have hstarts := h.isPrefix
    rw [hroot, hsource] at hstarts
    exact absurd hstarts (by decide)

end Artifacts

end PseudoBoolean
