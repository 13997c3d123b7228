import PseudoBoolean.Proofs.Soundness

/-!
Actions on some files only.

An action is local to some files if it ends alike in any two trees where these files lead to the same
places with the same in them, and if it changes nothing but what stands there:

    s ── x ──▶ s'        s, t agree on the files   ⟹   same end, s', t' agree on them
    t ── x ──▶ t'        s, s' differ on the files at most, and have the same directories

Sequences of local actions are local, so an instance with local tools is local to its own files from
the point on where its directory stands.
-/

namespace PseudoBoolean

/-! ### Trees that agree -/

namespace Store
variable {files : List Path} {s s' s'' t : Store}

/-- Whether some paths lead to the same places in two trees, and to the same there. -/
def Agree (files : List Path) (s t : Store) : Prop := ∀ p ∈ files, s.resolve p = t.resolve p ∧
  ∀ loc, s.resolve p = some loc → s.entry? loc = t.entry? loc

/-- Whether a tree came from another by changes where some paths lead, with every directory kept. -/
structure ChangesOnly (files : List Path) (s s' : Store) : Prop where
  isDirectory : s'.isDirectory = s.isDirectory
  entries : ∀ loc, (∀ p ∈ files, s.resolve p ≠ some loc) → s'.entry? loc = s.entry? loc

theorem ChangesOnly.refl (files : List Path) (s : Store) : ChangesOnly files s s :=
  ⟨rfl, fun _ _ => rfl⟩

theorem ChangesOnly.trans (h : ChangesOnly files s s') (h' : ChangesOnly files s' s'') :
    ChangesOnly files s s'' where
  isDirectory := h'.isDirectory.trans h.isDirectory
  entries loc hloc := by
    have hloc' : ∀ p ∈ files, s'.resolve p ≠ some loc := by
      rw [resolve_congr h.isDirectory]
      exact hloc
    rw [h'.entries loc hloc', h.entries loc hloc]

theorem Agree.read (h : Agree files s t) {p : Path} (hp : p ∈ files) : s.read p = t.read p := by
  obtain ⟨hresolve, hentries⟩ := h p hp
  have hsame : (s.resolve p).bind s.entry? = (t.resolve p).bind t.entry? := by
    rw [← hresolve]
    cases hloc : s.resolve p with
    | none => rfl
    | some loc => exact hentries loc hloc
  rw [Store.read, Store.read, hsame]

theorem Agree.isDirectory (h : Agree files s t) {p : Path} (hp : p ∈ files) {loc : Location}
    (hloc : s.resolve p = some loc) : s.isDirectory loc = t.isDirectory loc := by
  rw [Store.isDirectory, Store.isDirectory, (h p hp).2 loc hloc]

theorem changesOnly_write {p : Path} (hp : p ∈ files) {content : ByteArray}
    (h : s.write p content = some s') : ChangesOnly files s s' where
  isDirectory := isDirectory_write h
  entries loc hloc := by
    obtain ⟨place, hplace, hfree, rfl⟩ := write_eq_some.1 h
    have hne : loc ≠ place := fun heq => hloc p hp (heq ▸ hplace)
    rw [entry?_put hfree, if_neg hne]

/-- Trees that agree on a file agree on whether it can be written, and then after it was. -/
theorem Agree.write (h : Agree files s t) {p : Path} (hp : p ∈ files) {content : ByteArray}
    (hs : s.write p content = some s') :
    ∃ t', t.write p content = some t' ∧ Agree files s' t' := by
  have hsame := isDirectory_write hs
  obtain ⟨place, hplace, hfree, rfl⟩ := write_eq_some.1 hs
  have hplace' : t.resolve p = some place := (h p hp).1 ▸ hplace
  have hfree' : t.isDirectory place = false := h.isDirectory hp hplace ▸ hfree
  have ht : t.write p content = some (t.put place (.file content)) :=
    write_eq_some.2 ⟨place, hplace', hfree', rfl⟩
  refine ⟨_, ht, fun q hq => ?_⟩
  rw [resolve_write hs, resolve_write ht]
  refine ⟨(h q hq).1, fun loc hloc => ?_⟩
  rw [entry?_put hfree, entry?_put hfree']
  split
  · rfl
  · exact (h q hq).2 loc hloc

theorem Agree.symm (h : Agree files s t) : Agree files t s := by
  intro p hp
  obtain ⟨hresolve, hentries⟩ := h p hp
  refine ⟨hresolve.symm, fun loc hloc => ?_⟩
  rw [← hresolve] at hloc
  exact (hentries loc hloc).symm

end Store

/-! ### Local computations -/

section Local
variable {σ α β : Type}

/-- How a computation ended. -/
def ending : EStateM.Result Stop σ α → Except Stop α
  | .ok a _ => .ok a
  | .error stop _ => .error stop

/-- The state that a computation left. -/
def leaves : EStateM.Result Stop σ α → σ
  | .ok _ s => s
  | .error _ s => s

/-- Computations that ended alike, as far as a view of the stops tells, both gave one value, or were
both stopped by stops of one view. -/
theorem ending_cases_view {ε : Type} {view : Stop → ε} {r r' : EStateM.Result Stop σ α}
    (h : (ending r).mapError view = (ending r').mapError view) :
    (∃ a s s', r = .ok a s ∧ r' = .ok a s') ∨ ∃ stop stop' s s', r = .error stop s ∧
      r' = .error stop' s' ∧ view stop = view stop' := by
  cases r with
  | ok a s =>
    cases r' with
    | ok a' s' =>
      obtain rfl := Except.ok.inj h
      exact Or.inl ⟨a, s, s', rfl, rfl⟩
    | error stop s' => cases h
  | error stop s =>
    cases r' with
    | ok a s' => cases h
    | error stop' s' => exact Or.inr ⟨stop, stop', s, s', rfl, rfl, Except.error.inj h⟩

/-- Computations that ended alike both gave one value, or were both stopped by one stop. -/
theorem ending_cases {r r' : EStateM.Result Stop σ α} (h : ending r = ending r') :
    (∃ a s s', r = .ok a s ∧ r' = .ok a s') ∨ ∃ stop s s', r = .error stop s ∧ r' = .error stop s' := by
  have hview : (ending r).mapError id = (ending r').mapError id := by rw [h]
  rcases ending_cases_view hview with hok | ⟨stop, stop', s, s', hr, hr', hstop⟩
  · exact Or.inl hok
  · obtain rfl : stop = stop' := hstop
    exact Or.inr ⟨stop, s, s', hr, hr'⟩

/-- Whether a computation depends on some files of the tree in its state, and changes only them. -/
structure IsLocal (tree : σ → Store) (files : List Path) (x : EStateM Stop σ α) : Prop where
  changes : ∀ s, (tree s).ChangesOnly files (tree (leaves (x s)))
  agrees : ∀ s t, (tree s).Agree files (tree t) →
    ending (x s) = ending (x t) ∧ (tree (leaves (x s))).Agree files (tree (leaves (x t)))

namespace IsLocal
variable {tree : σ → Store} {files : List Path} {x : EStateM Stop σ α}

/-- A computation that leaves the state, and ends alike wherever the files agree, is local. -/
theorem of_leaves (hleaves : ∀ s, leaves (x s) = s)
    (hending : ∀ s t, (tree s).Agree files (tree t) → ending (x s) = ending (x t)) :
    IsLocal tree files x where
  changes s := by
    rw [hleaves s]
    exact .refl files (tree s)
  agrees s t h := by
    rw [hleaves s, hleaves t]
    exact ⟨hending s t h, h⟩

theorem pure (a : α) : IsLocal tree files (Pure.pure a : EStateM Stop σ α) :=
  of_leaves (fun _ => rfl) fun _ _ _ => rfl

theorem throw (stop : Stop) : IsLocal tree files (MonadExcept.throw stop : EStateM Stop σ α) :=
  of_leaves (fun _ => rfl) fun _ _ _ => rfl

theorem lift (x : Checked α) : IsLocal tree files (liftM x : EStateM Stop σ α) := by
  cases x with
  | ok a => exact pure a
  | error f => exact throw (.fault f)

/-- What follows a local computation is about the values that it gives. -/
theorem bind_of_ok (hx : IsLocal tree files x) {f : α → EStateM Stop σ β}
    (hf : ∀ a, (∃ s s', x s = .ok a s') → IsLocal tree files (f a)) :
    IsLocal tree files (x >>= f) where
  changes s := by
    have hfirst := hx.changes s
    cases h : x s with
    | ok a s₁ =>
      rw [h] at hfirst
      rw [run_bind_of_ok h]
      exact hfirst.trans ((hf a ⟨s, s₁, h⟩).changes s₁)
    | error stop s₁ =>
      rw [h] at hfirst
      rw [run_bind_eq_error.2 (Or.inl h)]
      exact hfirst
  agrees s t hst := by
    obtain ⟨hending, hagree⟩ := hx.agrees s t hst
    rcases ending_cases hending with ⟨a, s₁, t₁, h, h'⟩ | ⟨stop, s₁, t₁, h, h'⟩
    · rw [h, h'] at hagree
      rw [run_bind_of_ok h, run_bind_of_ok h']
      exact (hf a ⟨s, s₁, h⟩).agrees s₁ t₁ hagree
    · rw [h, h'] at hagree
      rw [run_bind_eq_error.2 (Or.inl h), run_bind_eq_error.2 (Or.inl h')]
      exact ⟨rfl, hagree⟩

theorem bind (hx : IsLocal tree files x) {f : α → EStateM Stop σ β}
    (hf : ∀ a, IsLocal tree files (f a)) : IsLocal tree files (x >>= f) :=
  bind_of_ok hx fun a _ => hf a

theorem mapM {f : α → EStateM Stop σ β} (hf : ∀ a, IsLocal tree files (f a)) :
    ∀ l : List α, IsLocal tree files (l.mapM f)
  | [] => pure []
  | a :: l => by
    rw [List.mapM_cons]
    exact bind (hf a) fun b => bind (mapM hf l) fun bs => pure (b :: bs)

end IsLocal

end Local

/-! ### Local actions -/

section Action
variable {α : Type} {files : List Path} {p : Path}

theorem Action.isLocal_readText (hp : p ∈ files) : IsLocal id files (readText p) := by
  refine .of_leaves (fun s => ?_) fun s t h => ?_
  · rw [readText]
    split <;> rfl
  · have hread : s.read p = t.read p := h.read hp
    rw [readText, readText, hread]
    split <;> rfl

theorem Action.isLocal_writeFile (hp : p ∈ files) (content : ByteArray) :
    IsLocal id files (writeFile p content) where
  changes s := by
    rw [writeFile]
    split
    · next hwrite => exact Store.changesOnly_write hp hwrite
    · exact .refl files s
  agrees s t hst := by
    have h : Store.Agree files s t := hst
    cases hs : s.write p content with
    | some s' =>
      obtain ⟨t', ht, hagree⟩ := h.write hp hs
      rw [writeFile, writeFile, hs, ht]
      exact ⟨rfl, hagree⟩
    | none =>
      cases ht : t.write p content with
      | some t' =>
        obtain ⟨s', hs', _⟩ := h.symm.write hp ht
        rw [hs] at hs'
        cases hs'
      | none =>
        rw [writeFile, writeFile, hs, ht]
        exact ⟨rfl, h⟩

theorem Action.isLocal_fail (e : PipelineError) : IsLocal id files (fail e : Action α) :=
  .throw (.error e)

theorem Opb.isLocal_save (f : Opb) (hp : p ∈ files) : IsLocal id files (f.save p) :=
  Action.isLocal_writeFile hp _

theorem Cnf.isLocal_save (f : Cnf) (hp : p ∈ files) : IsLocal id files (f.save p) :=
  Action.isLocal_writeFile hp _

theorem Opb.isLocal_load (hp : p ∈ files) : IsLocal id files (Opb.load p) := by
  refine (Action.isLocal_readText hp).bind fun text => ?_
  cases Opb.parse text with
  | ok f => exact .pure f
  | error e =>
    cases e with
    | parse e => exact Action.isLocal_fail (.parse p e)
    | fault f => exact .throw (.fault f)

theorem Cnf.isLocal_load (hp : p ∈ files) : IsLocal id files (Cnf.load p) := by
  refine (Action.isLocal_readText hp).bind fun text => ?_
  cases Cnf.parse text with
  | ok f => exact .pure f
  | error e => exact Action.isLocal_fail (.parse p e)

/-- An effect is local if its action is: the journal is no file. -/
theorem isLocal_perform {x : Action α} (hx : IsLocal id files x) (e : Effect) :
    IsLocal Session.store files (perform e x) where
  changes s := by
    have hchanges : s.store.ChangesOnly files (leaves (x s.store)) := hx.changes s.store
    rw [perform]
    cases h : x s.store with
    | ok a store =>
      rw [h] at hchanges
      exact hchanges
    | error stop store =>
      rw [h] at hchanges
      exact hchanges
  agrees s t hst := by
    obtain ⟨hending, hagree⟩ := hx.agrees s.store t.store hst
    rw [perform, perform]
    rcases ending_cases hending with ⟨a, s₁, t₁, h, h'⟩ | ⟨stop, s₁, t₁, h, h'⟩
    all_goals
      rw [h, h'] at hagree
      rw [h, h']
      exact ⟨rfl, hagree⟩

end Action

/-! ### Local tools -/

/-- The files of an instance. -/
def Artifacts.files (a : Artifacts) : List Path :=
  [a.source, a.proof, a.cnf, a.query .minimize, a.query .maximize]

theorem Artifacts.source_mem_files (a : Artifacts) : a.source ∈ a.files := by simp [files]

theorem Artifacts.proof_mem_files (a : Artifacts) : a.proof ∈ a.files := by simp [files]

theorem Artifacts.cnf_mem_files (a : Artifacts) : a.cnf ∈ a.files := by simp [files]

theorem Artifacts.query_mem_files (a : Artifacts) : ∀ q, a.query q ∈ a.files
  | .minimize => by simp [files]
  | .maximize => by simp [files]

/-- Whether the tools depend on the files of an instance only, and change only these: each tool in the
calls that a run makes of it, where the clauses and the proof are those that the encoder left. -/
structure Toolchain.IsLocal (tools : Toolchain) (strategy : Strategy) (a : Artifacts) : Prop where
  encode : PseudoBoolean.IsLocal id a.files (tools.encode a.source strategy)
  load : ∀ s s' output, tools.encode a.source strategy s = .ok output s' →
    PseudoBoolean.IsLocal id a.files (Cnf.load output.cnf)
  check : ∀ s s' output, tools.encode a.source strategy s = .ok output s' →
    PseudoBoolean.IsLocal id a.files (tools.check a.source output.proof)
  solve : ∀ q, PseudoBoolean.IsLocal id a.files (tools.solve (a.query q))

section Pipeline
variable {tools : Toolchain} {strategy : Strategy} {a : Artifacts}

theorem Pipeline.isLocal_solve (h : tools.IsLocal strategy a) (cnf : Cnf) (q : Query)
    (form : LinearForm) : IsLocal Session.store a.files (solve tools ⟨a, cnf⟩ q form) := by
  refine (IsLocal.lift _).bind fun formula => ?_
  refine (isLocal_perform (formula.isLocal_save (a.query_mem_files q)) _).bind fun _ => ?_
  exact (isLocal_perform (h.solve q) _).bind fun answer => .lift _

theorem Pipeline.isLocal_answer (h : tools.IsLocal strategy a) (cnf : Cnf) (e : Expression) :
    ∀ q, IsLocal Session.store a.files (answer tools ⟨a, cnf⟩ e q)
  | .minimize => (IsLocal.lift _).bind fun form => isLocal_solve h cnf .minimize form
  | .maximize => (IsLocal.lift _).bind fun _ => (IsLocal.lift _).bind fun form =>
      (isLocal_solve h cnf .maximize form).bind fun _ => .lift _

/-- What is left of a check once the directory of the instance stands. -/
def checkRows (tools : Toolchain) (a : Artifacts) (strategy : Strategy) (i : Instance)
    (rows : List Row) : Run (List Mismatch) := do
  perform (.write a.source) ((Opb.ofRows rows).save a.source)
  let output ← perform (.encode a.source) (tools.encode a.source strategy)
  perform (.check a.source output.proof) (tools.check a.source output.proof)
  let cnf ← perform (.load output.cnf) (Cnf.load output.cnf)
  return (← i.queries.mapM (checkQuery tools ⟨a, cnf⟩ i)).flatten

theorem isLocal_checkRows (h : tools.IsLocal strategy a) (i : Instance) (rows : List Row) :
    IsLocal Session.store a.files (checkRows tools a strategy i rows) := by
  refine (isLocal_perform ((Opb.ofRows rows).isLocal_save a.source_mem_files) _).bind fun _ => ?_
  refine (isLocal_perform h.encode _).bind_of_ok fun output houtput => ?_
  obtain ⟨s, s', houtput⟩ := houtput
  obtain ⟨store, hencode, _⟩ := perform_eq_ok.1 houtput
  refine (isLocal_perform (h.check _ _ _ hencode) _).bind fun _ => ?_
  refine (isLocal_perform (h.load _ _ _ hencode) _).bind fun cnf => ?_
  refine IsLocal.bind (.mapM (fun q => ?_) _) fun found => .pure _
  exact (Pipeline.isLocal_answer h cnf _ q).bind fun _ => (IsLocal.lift _).bind fun _ => .pure _

/-- A check makes the directory first. -/
theorem checkInstance_of_rows {i : Instance} {vars : Nat} {rows : List Row} (s : Session)
    (hvars : i.oracleVars = .ok vars) (hle : vars ≤ maxEnumerated) (hrows : i.rows = .ok rows) :
    checkInstance tools a strategy i s = (perform (.makeDir a.dir) (Action.makeDir a.dir) >>=
      fun _ => checkRows tools a strategy i rows) s := by
  rw [checkInstance_of_le hvars hle, run_lift_bind_of_ok hrows]
  simp only [Pipeline.encode, checkRows, bind_assoc, pure_bind]

end Pipeline

/-! ### The exhaustive tools -/

/-- The files beside a source are those that the layout names, unless the name is a single dot. -/
theorem Artifacts.beside_source {a : Artifacts} (ha : a.IsValid) (hdot : a.testName ≠ ".") :
    EncoderOutput.beside a.source = a.encoderOutput := by
  have hfile : ∀ role : String, '/' ∉ role.toList → a.source.withExtension role = a.file role := by
    intro role hrole
    rw [source_withExtension ha hrole, Path.renamed, if_neg hdot, file]
  rw [EncoderOutput.beside, hfile "cnf" (by decide), hfile "pbp" (by decide)]
  rfl

namespace Exhaustive
variable {a : Artifacts}

theorem isLocal_encode (ha : a.IsValid) (hdot : a.testName ≠ ".") (strategy : Strategy) :
    IsLocal id a.files (encode a.source strategy) := by
  have hbeside := Artifacts.beside_source ha hdot
  simp only [encode, hbeside]
  refine (Opb.isLocal_load a.source_mem_files).bind fun f => (IsLocal.lift _).bind fun cnf => ?_
  refine (Cnf.isLocal_save _ a.cnf_mem_files).bind fun _ => ?_
  exact (Action.isLocal_writeFile a.proof_mem_files _).bind fun _ => .pure _

theorem isLocal_check (ha : a.IsValid) (hdot : a.testName ≠ ".") :
    IsLocal id a.files (check a.source (EncoderOutput.beside a.source).proof) := by
  have hcnf : (EncoderOutput.beside a.source).proof.withExtension "cnf" = a.cnf := by
    rw [Artifacts.cnf_beside_proof ha, Artifacts.beside_source ha hdot]
    rfl
  have hproof : (EncoderOutput.beside a.source).proof ∈ a.files := by
    rw [Artifacts.beside_source ha hdot]
    exact a.proof_mem_files
  refine (Action.isLocal_readText hproof).bind fun text => ?_
  dsimp only
  rw [hcnf]
  split
  · exact Action.isLocal_fail _
  · refine (Opb.isLocal_load a.source_mem_files).bind fun f => ?_
    refine (Cnf.isLocal_load a.cnf_mem_files).bind fun cnf => (IsLocal.lift _).bind fun found => ?_
    cases found with
    | none => exact .pure ()
    | some assignment => exact (IsLocal.lift _).bind fun _ => Action.isLocal_fail _

/-- The exhaustive tools read and write the files of the instance only. -/
theorem isLocal_toolchain (ha : a.IsValid) (hdot : a.testName ≠ ".") (strategy : Strategy) :
    toolchain.IsLocal strategy a where
  encode := isLocal_encode ha hdot strategy
  load s s' output h := by
    rw [(encode_leavesSource ha strategy s output s' h).1, Artifacts.beside_source ha hdot]
    exact Cnf.isLocal_load a.cnf_mem_files
  check s s' output h := by
    rw [(encode_leavesSource ha strategy s output s' h).1]
    exact isLocal_check ha hdot
  solve q := by
    refine (Opb.isLocal_load (a.query_mem_files q)).bind fun f => (IsLocal.lift _).bind fun best => ?_
    cases best <;> exact .pure _

end Exhaustive

end PseudoBoolean
