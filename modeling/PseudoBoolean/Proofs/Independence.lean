import PseudoBoolean.Proofs.Directories
import PseudoBoolean.Proofs.Pool

/-!
Instances that keep apart.

What an instance with local tools reports depends on two things: whether a file stands in the way to
its directory, and what stands in the places of its own files (`Artifacts.Alike`). Another instance
makes no file on that way, and its own files are elsewhere:

    way to a    …  root  root/a        files of a    root/a/a.opb  root/a/a.cnf  …
    way to b    …  root  root/b        files of b    root/b/b.opb  root/b/b.cnf  …

So an instance finds the same before and after a run of another (`Artifacts.Alike.of_check`), and
reports, whatever ran before it, what it reports on its own (`Pool.Ran.report_eq`).
-/

namespace PseudoBoolean

/-! ### What an instance finds -/

/-- Whether an instance finds the same in two trees: files in the way to its directory, and what
stands in the places of its own files. -/
structure Artifacts.Alike (a : Artifacts) (s t : Store) : Prop where
  way : ∀ l ∈ Store.way a.dir, s.IsFile l ↔ t.IsFile l
  own : ∀ p ∈ a.files, Store.place p ∉ Store.way a.dir →
    s.entry? (Store.place p) = t.entry? (Store.place p)

namespace Artifacts.Alike
variable {a b : Artifacts} {s s' t t' u : Store}

theorem refl (a : Artifacts) (s : Store) : a.Alike s s := ⟨fun _ _ => Iff.rfl, fun _ _ _ => rfl⟩

theorem trans (h : a.Alike s t) (h' : a.Alike t u) : a.Alike s u where
  way l hl := (h.way l hl).trans (h'.way l hl)
  own p hp hout := (h.own p hp hout).trans (h'.own p hp hout)

/-- Once its directory was made in both, the trees agree on the files of the instance. -/
theorem agree (h : a.Alike s t) (ha : a.IsValid) (hs : Store.Made (Store.way a.dir) s s')
    (ht : Store.Made (Store.way a.dir) t t') : s'.Agree a.files t' := by
  intro p hp
  have hways : (∀ l ∈ Store.way a.dir, s'.isDirectory l = true) ↔
      ∀ l ∈ Store.way a.dir, t'.isDirectory l = true := iff_of_true hs.isDirectory ht.isDirectory
  refine ⟨Option.ext fun loc => ?_, fun loc hloc => ?_⟩
  · rw [resolve_eq_some ha hp, resolve_eq_some ha hp, hways]
  · obtain ⟨_, _, rfl⟩ := (resolve_eq_some ha hp).1 hloc
    rw [hs, ht]
    split
    · rfl
    · next hout => exact h.own p hp hout

/-- The directory of an instance is made in both trees or in none. -/
theorem makeDir (h : a.Alike s t) (ha : a.IsValid)
    (hdot : Store.endsInDot (Store.start a.dir).2 = false) :
    (s.makeDir a.dir = none ∧ t.makeDir a.dir = none) ∨
      ∃ s' t', s.makeDir a.dir = some s' ∧ t.makeDir a.dir = some t' ∧ s'.Agree a.files t' := by
  rcases s.makeDir_cases a.dir with ⟨hfile, hs⟩ | ⟨husable, hfree, s', hs, hmade⟩
  · rcases t.makeDir_cases a.dir with ⟨_, ht⟩ | ⟨husable, hfree, _⟩
    · exact Or.inl ⟨hs, ht⟩
    · obtain ⟨l, hl, hfile⟩ := hfile husable hdot
      exact absurd ((h.way l hl).1 hfile) (hfree l hl)
  · rcases t.makeDir_cases a.dir with ⟨hfile, _⟩ | ⟨_, _, t', ht, hmade'⟩
    · obtain ⟨l, hl, hfile⟩ := hfile husable hdot
      exact absurd ((h.way l hl).2 hfile) (hfree l hl)
    · exact Or.inr ⟨s', t', hs, ht, h.agree ha hmade hmade'⟩

/-- Another instance's directory is no concern. -/
theorem of_made (hapart : a.Apart b) (hfree : ∀ l ∈ Store.way b.dir, ¬ s.IsFile l)
    (h : Store.Made (Store.way b.dir) s s') : a.Alike s s' where
  way l _ := (h.isFile_iff hfree l).symm
  own p hp hout := by
    rw [h, if_neg fun hmem => hout (hapart.way p hp hmem)]

/-- Another instance's files are no concern once its directory stands: one that would stand in the way
is a directory already, and stays one. -/
theorem of_changesOnly (hapart : a.Apart b) (hb : b.IsValid)
    (hway : ∀ l ∈ Store.way b.dir, s.isDirectory l = true) (h : s.ChangesOnly b.files s') :
    a.Alike s s' where
  way l hl := by
    by_cases hown : ∃ q ∈ b.files, s.resolve q = some l
    · obtain ⟨q, hq, hresolve⟩ := hown
      obtain ⟨_, _, rfl⟩ := (resolve_eq_some hb hq).1 hresolve
      have hdir := hway _ (hapart.way' q hq hl)
      have hdir' : s'.isDirectory (Store.place q) = true := by rw [h.isDirectory, hdir]
      exact iff_of_false (Store.not_isFile_of_isDirectory hdir)
        (Store.not_isFile_of_isDirectory hdir')
    · have hother : ∀ q ∈ b.files, s.resolve q ≠ some l := fun q hq h => hown ⟨q, hq, h⟩
      rw [Store.IsFile, Store.IsFile, h.entries l hother]
  own p hp _ := by
    refine (h.entries _ fun q hq hresolve => ?_).symm
    obtain ⟨_, _, hplace⟩ := (resolve_eq_some hb hq).1 hresolve
    exact hapart.files p hp q hq hplace.symm

end Artifacts.Alike

/-! ### Runs of an instance -/

section Check
variable {tools : Toolchain} {strategy : Strategy} {a b : Artifacts} {s t : Session}

/-- A directory that cannot be made ends a run. -/
theorem perform_makeDir_of_none {α : Type} {p : Path} (h : s.store.makeDir p = none)
    (f : Unit → Run α) : (perform (.makeDir p) (Action.makeDir p) >>= f) s =
      .error (.error (.io p)) ⟨s.store, s.journal ++ [⟨.makeDir p, false⟩]⟩ :=
  run_bind_eq_error.2 (Or.inl (perform_eq_error.2
    ⟨s.store, Action.makeDir_eq_error.2 ⟨h, rfl, rfl⟩, rfl⟩))

theorem perform_makeDir_of_some {α : Type} {p : Path} {store : Store}
    (h : s.store.makeDir p = some store) (f : Unit → Run α) :
    (perform (.makeDir p) (Action.makeDir p) >>= f) s =
      f () ⟨store, s.journal ++ [⟨.makeDir p, true⟩]⟩ :=
  run_bind_of_ok (perform_eq_ok.2 ⟨store, Action.makeDir_eq_ok.2 h, rfl⟩)

/-- An instance is refused in every session, or its directory is made in every session first. -/
theorem checkInstance_cases (tools : Toolchain) (a : Artifacts) (strategy : Strategy) (i : Instance) :
    (∃ stop, ∀ s, checkInstance tools a strategy i s = .error stop s) ∨
      ∃ rows, ∀ s, checkInstance tools a strategy i s =
        (perform (.makeDir a.dir) (Action.makeDir a.dir) >>=
          fun _ => checkRows tools a strategy i rows) s := by
  cases hvars : i.oracleVars with
  | error f => exact Or.inl ⟨_, fun s => checkInstance_of_error hvars⟩
  | ok vars =>
    rcases Nat.lt_or_ge maxEnumerated vars with hlt | hle
    · exact Or.inl ⟨_, fun s => checkInstance_of_lt hvars hlt⟩
    · cases hrows : i.rows with
      | ok rows => exact Or.inr ⟨rows, fun s => checkInstance_of_rows s hvars hle hrows⟩
      | error f =>
        refine Or.inl ⟨.fault f, fun s => ?_⟩
        rw [checkInstance_of_le hvars hle]
        exact run_bind_eq_error.2 (Or.inl (run_lift_eq_error.2 ⟨f, hrows, rfl, rfl⟩))

/-- An instance ends alike wherever it finds the same. -/
theorem ending_checkInstance (ha : a.IsValid)
    (hdot : Store.endsInDot (Store.start a.dir).2 = false) (hlocal : tools.IsLocal strategy a)
    (h : a.Alike s.store t.store) (i : Instance) :
    ending (checkInstance tools a strategy i s) = ending (checkInstance tools a strategy i t) := by
  rcases checkInstance_cases tools a strategy i with ⟨stop, hrefused⟩ | ⟨rows, hrun⟩
  · rw [hrefused, hrefused]
    rfl
  rw [hrun, hrun]
  rcases h.makeDir ha hdot with ⟨hs, ht⟩ | ⟨s', t', hs, ht, hagree⟩
  · rw [perform_makeDir_of_none hs, perform_makeDir_of_none ht]
    rfl
  · rw [perform_makeDir_of_some hs, perform_makeDir_of_some ht]
    exact ((isLocal_checkRows hlocal i rows).agrees _ _ hagree).1

/-- A run of another instance changes nothing that an instance finds. -/
theorem Artifacts.Alike.of_check (hapart : a.Apart b) (hb : b.IsValid)
    (hlocal : tools.IsLocal strategy b) (i : Instance) (s : Session) :
    a.Alike s.store (leaves (checkInstance tools b strategy i s)).store := by
  rcases checkInstance_cases tools b strategy i with ⟨stop, hrefused⟩ | ⟨rows, hrun⟩
  · rw [hrefused]
    exact .refl a s.store
  rw [hrun]
  rcases s.store.makeDir_cases b.dir with ⟨_, hs⟩ | ⟨_, hfree, made, hs, hmade⟩
  · rw [perform_makeDir_of_none hs]
    exact .refl a s.store
  · rw [perform_makeDir_of_some hs]
    have hchanges := (isLocal_checkRows hlocal i rows).changes
      ⟨made, s.journal ++ [⟨.makeDir b.dir, true⟩]⟩
    exact (of_made hapart hfree hmade).trans
      (of_changesOnly hapart hb hmade.isDirectory hchanges)

end Check

/-! ### Reports -/

/-- Reports are decided by how a run ends. -/
theorem Outcome.ofRun_eq (r : EStateM.Result Stop Session (List Mismatch)) :
    Outcome.ofRun r = (match ending r with
      | .ok [] => .passed
      | .ok found => .failed found
      | .error stop => .aborted stop.report, leaves r) := by
  cases r with
  | ok found s => cases found <;> rfl
  | error stop s => rfl

section Report
variable {tools : Toolchain} {root : Path} {strategy : Strategy} {i j : Instance} {s t : Session}

/-- Whether an instance finds the same in two sessions, if its name is valid. -/
def Instance.Alike (root : Path) (i : Instance) (s t : Session) : Prop :=
  ∀ a, Artifacts.ofName root i.name = .ok a → a.Alike s.store t.store

/-- An instance reports alike wherever it finds the same. -/
theorem Instance.Alike.report_eq (h : i.Alike root s t) (hdot : i.name ≠ ".")
    (hlocal : ∀ a, Artifacts.ofName root i.name = .ok a → tools.IsLocal strategy a) :
    (runInstance tools root strategy i s).1 = (runInstance tools root strategy i t).1 := by
  cases ha : Artifacts.ofName root i.name with
  | error e => rw [runInstance_of_error ha, runInstance_of_error ha]
  | ok a =>
    have hvalid := Artifacts.isValid_of_ofName ha
    have hdot := Artifacts.endsInDot_dir ha hdot
    have hending := ending_checkInstance hvalid hdot (hlocal a ha) (h a ha) i
    rw [runInstance_of_ok ha, runInstance_of_ok ha, Outcome.ofRun_eq, Outcome.ofRun_eq, hending]

/-- An instance finds the same after a run of another one. -/
theorem Instance.alike_runInstance (hne : i.name ≠ j.name)
    (hi : i.name ≠ "." ∧ i.name ≠ "..") (hj : j.name ≠ "." ∧ j.name ≠ "..")
    (hlocal : ∀ a, Artifacts.ofName root j.name = .ok a → tools.IsLocal strategy a) :
    i.Alike root s (runInstance tools root strategy j s).2 := by
  intro a ha
  cases hb : Artifacts.ofName root j.name with
  | error e =>
    rw [runInstance_of_error hb]
    exact .refl a s.store
  | ok b =>
    rw [runInstance_of_ok hb, Outcome.ofRun_eq]
    exact .of_check (Artifacts.apart_of_ne ha hb hne hi hj) (Artifacts.isValid_of_ofName hb)
      (hlocal b hb) j s

end Report

/-! ### Runs of a suite -/

/-- Whether the instances of a suite keep to themselves: each has a name of its own that leads into a
directory of its own, and tools that depend on its files only and change only these. -/
structure KeepApart (tools : Toolchain) (root : Path) (strategy : Strategy)
    (instances : List Instance) : Prop where
  distinct : (instances.map Instance.name).Nodup
  proper : ∀ i ∈ instances, i.name ≠ "." ∧ i.name ≠ ".."
  isLocal : ∀ i ∈ instances, ∀ a, Artifacts.ofName root i.name = .ok a → tools.IsLocal strategy a

namespace Pool.Ran
variable {tools : Toolchain} {root : Path} {strategy : Strategy} {instances : List Instance}
  {s s' : Session} {ran : List (Nat × Report)} {i : Instance}

/-- An instance that was not run finds what it found at first. -/
theorem alike (h : Ran (runInstance tools root strategy) instances s ran s')
    (hapart : KeepApart tools root strategy instances) {k : Nat} (hi : instances[k]? = some i)
    (hk : k ∉ ran.map Prod.fst) : i.Alike root s s' := by
  induction h with
  | nil => exact fun a _ => .refl a s.store
  | @cons ran s₁ index j _ hj ih =>
    rw [List.map_cons, List.mem_cons, not_or] at hk
    have hne : i.name ≠ j.name := by
      intro heq
      have hlt : k < (instances.map Instance.name).length := by
        rw [List.length_map]
        exact (List.getElem?_eq_some_iff.1 hi).1
      refine hk.1 ((List.getElem?_inj hlt hapart.distinct).1 ?_)
      rw [List.getElem?_map, List.getElem?_map, hi, hj, Option.map_some, Option.map_some, heq]
    have hmem := List.mem_of_getElem? hi
    have hmem' := List.mem_of_getElem? hj
    have hstep : i.Alike root s₁ (runInstance tools root strategy j s₁).2 :=
      Instance.alike_runInstance hne (hapart.proper i hmem) (hapart.proper j hmem')
        (hapart.isLocal j hmem')
    exact fun a ha => (ih hk.2 a ha).trans (hstep a ha)

/-- What was reported of an instance is what it reports at first. -/
theorem report_eq (h : Ran (runInstance tools root strategy) instances s ran s')
    (hapart : KeepApart tools root strategy instances) (hnodup : (ran.map Prod.fst).Nodup) {k : Nat}
    {r : Report} (hr : (k, r) ∈ ran) (hi : instances[k]? = some i) :
    r = (runInstance tools root strategy i s).1 := by
  induction h with
  | nil => exact absurd hr List.not_mem_nil
  | @cons ran s₁ index j hran hj ih =>
    obtain ⟨hindex, hnodup⟩ := List.nodup_cons.1 hnodup
    rcases List.mem_cons.1 hr with heq | hr
    · obtain ⟨rfl, rfl⟩ := Prod.mk.inj heq
      obtain rfl := Option.some.inj (hi.symm.trans hj)
      have hmem := List.mem_of_getElem? hi
      exact ((hran.alike hapart hi hindex).report_eq (hapart.proper i hmem).1
        (hapart.isLocal i hmem)).symm
    · exact ih hnodup hr

end Pool.Ran

end PseudoBoolean
