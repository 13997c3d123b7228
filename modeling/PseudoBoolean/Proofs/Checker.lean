import PseudoBoolean.Proofs.Enumeration
import PseudoBoolean.Proofs.Opb.Statement
import PseudoBoolean.Proofs.Optimum
import PseudoBoolean.Proofs.Store
import PseudoBoolean.Toolchain.Exhaustive

/-!
The exhaustive checker compares models.

A formula of `n` variables and some clauses agree at a valuation if the formula holds there exactly
when the clauses can be made true by changing variables above `n` only:

    x₁ … xₙ  from the valuation of the formula  │  xₙ₊₁ …  from any other valuation

Both searches are exhaustive. The inner one sees every setting of the auxiliary variables, so it
decides one valuation (`Exhaustive.extends?_eq_ok`); the outer one sees every setting of the
formula's variables, so it finds the first disagreement or none (`Exhaustive.difference?`).
-/

namespace PseudoBoolean

/-! ### Clauses -/

/-- The variables of clauses are numbered up to their number of variables. -/
theorem Cnf.le_numVars {f : Cnf} {x : Var} (h : x ∈ f.vars) : x.id ≤ f.numVars :=
  (le_foldl_max _ f.declaredVars).2 x.id (List.mem_map_of_mem h)

theorem Cnf.isSatisfied_congr {f : Cnf} {v w : Valuation} (h : ∀ x ∈ f.vars, v x = w x) :
    f.isSatisfied v = f.isSatisfied w := by
  have hlit : ∀ clause ∈ f.clauses, ∀ l ∈ clause, l.holds v = l.holds w := by
    intro clause hclause l hl
    rw [Lit.holds, Lit.holds, h l.var (List.mem_map_of_mem (List.mem_flatten_of_mem hclause hl))]
  rw [Cnf.isSatisfied, Cnf.isSatisfied, Bool.eq_iff_iff, List.all_eq_true, List.all_eq_true]
  refine forall₂_congr fun clause hclause => ?_
  rw [List.any_eq_true, List.any_eq_true]
  exact exists_congr fun l => and_congr_right fun hl => by rw [hlit clause hclause l hl]

namespace Exhaustive

/-- Whether `w` differs from `v` on variables above `n` at most. -/
def SameUpTo (n : UInt32) (v w : Valuation) : Prop := ∀ x : Var, x.id ≤ n → w x = v x

/-- Whether clauses can be made true by changing variables above `n` only. -/
def Extends (n : UInt32) (cnf : Cnf) (v : Valuation) : Prop :=
  ∃ w, SameUpTo n v w ∧ cnf.isSatisfied w = true

/-- Whether a formula holds at a valuation exactly when the clauses can be made true there. -/
def Agree (f : Opb) (cnf : Cnf) (v : Valuation) : Prop :=
  (∀ r ∈ f.rows, r.Holds v) ↔ Extends f.numVars cnf v

theorem SameUpTo.extends_iff {n : UInt32} {v w : Valuation} (h : SameUpTo n v w) (cnf : Cnf) :
    Extends n cnf v ↔ Extends n cnf w := by
  constructor
  · rintro ⟨u, hu, hsat⟩
    exact ⟨u, fun x hx => (hu x hx).trans (h x hx).symm, hsat⟩
  · rintro ⟨u, hu, hsat⟩
    exact ⟨u, fun x hx => (hu x hx).trans (h x hx), hsat⟩

/-- Agreement is about the formula's own variables. -/
theorem SameUpTo.agree_iff {f : Opb} {cnf : Cnf} {v w : Valuation}
    (hvars : ∀ r ∈ f.rows, ∀ x ∈ r.vars, x.id ≤ f.numVars) (h : SameUpTo f.numVars v w) :
    Agree f cnf v ↔ Agree f cnf w := by
  have hrows : (∀ r ∈ f.rows, r.Holds v) ↔ ∀ r ∈ f.rows, r.Holds w :=
    forall₂_congr fun r hr => Row.holds_congr fun x hx => (h x (hvars r hr x hx)).symm
  rw [Agree, Agree, hrows, h.extends_iff]

/-! ### One valuation -/

section Extends
variable {n : UInt32} {cnf : Cnf} {aux : List Var}

/-- The auxiliary variables are those above `n`, few enough to enumerate. -/
theorem auxiliary_eq_ok (h : auxiliary n cnf = .ok aux) :
    cnf.numVars.toNat ≤ n.toNat + maxEnumerated ∧ aux.length ≤ maxEnumerated ∧
      ∀ x, x ∈ aux ↔ n < x.id ∧ x.id ≤ cnf.numVars := by
  simp only [auxiliary] at h
  obtain ⟨_, hcap, h⟩ := bind_eq_ok.1 h
  obtain rfl := pure_eq_ok.1 h
  rw [enumerable_eq_ok] at hcap
  have hn := n.toNat_lt
  have hcnf := cnf.numVars.toNat_lt
  refine ⟨by omega, ?_, fun x => ?_⟩
  · rcases Nat.lt_or_ge n.toNat cnf.numVars.toNat with hlt | hge
    · rw [Var.length_run (by omega) (by omega)]
      exact hcap
    · rw [Nat.sub_eq_zero_of_le hge]
      exact Nat.zero_le _
  · rw [UInt32.lt_iff_toNat_lt, UInt32.le_iff_toNat_le]
    rcases Nat.lt_or_ge n.toNat cnf.numVars.toNat with hlt | hge
    · rw [Var.mem_run (by omega)]
      omega
    · rw [Nat.sub_eq_zero_of_le hge]
      simp
      omega

theorem exists_auxiliary (h : cnf.numVars.toNat ≤ n.toNat + maxEnumerated) :
    ∃ aux, auxiliary n cnf = .ok aux :=
  ⟨_, bind_eq_ok.2 ⟨(), enumerable_eq_ok.2 (by omega), rfl⟩⟩

/-- The inner search decides whether the clauses can be made true. -/
theorem extends?_eq_ok (haux : auxiliary n cnf = .ok aux) {a : Assignment} {b : Bool}
    (h : extends? n cnf aux a = .ok b) : b = true ↔ Extends n cnf a.value := by
  obtain ⟨_, _, hmem⟩ := auxiliary_eq_ok haux
  simp only [extends?] at h
  obtain ⟨found, hfound, h⟩ := bind_eq_ok.1 h
  obtain rfl := pure_eq_ok.1 h
  cases found with
  | some b =>
    obtain ⟨_, _, _, hsat, _⟩ := Assignment.search?_eq_some hfound
    refine ⟨fun _ => ⟨glue n a.value b.value, fun x hx => if_pos hx, ?_⟩, fun _ => rfl⟩
    exact pure_eq_ok.1 hsat
  | none =>
    refine ⟨nofun, ?_⟩
    rintro ⟨w, hw, hsat⟩
    -- the auxiliary part of `w` is one of the masks that were tried
    obtain ⟨mask, hmask, hagree⟩ := exists_assignment w aux
    have hmiss := pure_eq_ok.1 (Assignment.search?_eq_none hfound mask hmask)
    have hglue : cnf.isSatisfied (glue n a.value (Assignment.mk aux mask).value) =
        cnf.isSatisfied w := by
      refine Cnf.isSatisfied_congr fun x hx => ?_
      simp only [glue]
      split
      · next hle => exact (hw x hle).symm
      · next hgt => exact hagree x ((hmem x).2 ⟨UInt32.not_le.1 hgt, Cnf.le_numVars hx⟩)
    rw [hglue, hsat] at hmiss
    exact absurd hmiss nofun

theorem exists_extends? (haux : auxiliary n cnf = .ok aux) (a : Assignment) :
    ∃ b, extends? n cnf aux a = .ok b := by
  obtain ⟨_, hcap, _⟩ := auxiliary_eq_ok haux
  have hsearch : ∃ found, Assignment.search? aux
      (fun b => return cnf.isSatisfied (glue n a.value b.value)) = .ok found :=
    Assignment.exists_search? hcap fun _ _ => ⟨_, rfl⟩
  obtain ⟨found, hfound⟩ := hsearch
  exact ⟨_, bind_eq_ok.2 ⟨found, hfound, rfl⟩⟩

end Extends

/-! ### All valuations -/

section Difference
variable {f : Opb} {cnf : Cnf}

/-- The test of the outer search. -/
def differs (f : Opb) (cnf : Cnf) (a : Assignment) : Checked Bool := do
  let encoded ← extends? f.numVars cnf (← auxiliary f.numVars cnf) a
  return (← f.isSatisfied a.value) != encoded

theorem difference?_eq_search : difference? f cnf = (do
    let _ ← Word.checkedCount .add (f.numVars.toNat + 1)
    enumerable f.numVars.toNat
    Assignment.search? (Var.range f.numVars) (differs f cnf)) := rfl

/-- The test tells whether the two sides differ. -/
theorem differs_eq_ok {a : Assignment} {b : Bool} (h : differs f cnf a = .ok b) :
    b = true ↔ ¬ Agree f cnf a.value := by
  obtain ⟨aux, haux, h⟩ := bind_eq_ok.1 h
  obtain ⟨encoded, hencoded, h⟩ := bind_eq_ok.1 h
  obtain ⟨sat, hsat, h⟩ := bind_eq_ok.1 h
  obtain rfl := pure_eq_ok.1 h
  rw [Agree, ← Row.allSatisfied_eq_ok hsat, ← extends?_eq_ok haux hencoded, bne_iff_ne, ne_eq,
    Bool.eq_iff_iff]

theorem exists_differs (haux : cnf.numVars.toNat ≤ f.numVars.toNat + maxEnumerated)
    {a : Assignment} (hsat : ∃ b, f.isSatisfied a.value = .ok b) : ∃ b, differs f cnf a = .ok b := by
  obtain ⟨aux, haux⟩ := exists_auxiliary haux
  obtain ⟨encoded, hencoded⟩ := exists_extends? haux a
  obtain ⟨sat, hsat⟩ := hsat
  exact ⟨_, bind_eq_ok.2 ⟨aux, haux, bind_eq_ok.2 ⟨encoded, hencoded,
    bind_eq_ok.2 ⟨sat, hsat, rfl⟩⟩⟩⟩

/-- The comparison answers on formulas that can be enumerated and evaluated. -/
theorem exists_difference? (hn : f.numVars.toNat ≤ maxEnumerated)
    (haux : cnf.numVars.toNat ≤ f.numVars.toNat + maxEnumerated)
    (hsat : ∀ v, ∃ b, f.isSatisfied v = .ok b) : ∃ found, difference? f cnf = .ok found := by
  have hcap : (Var.range f.numVars).length ≤ maxEnumerated := by rwa [Var.length_range]
  have hcount : f.numVars.toNat + 1 < 0x100000000 :=
    Nat.lt_of_le_of_lt (Nat.succ_le_succ hn) (by decide)
  obtain ⟨found, hfound⟩ := Assignment.exists_search? hcap fun mask _ =>
    exists_differs haux (hsat (Assignment.mk (Var.range f.numVars) mask).value)
  rw [difference?_eq_search]
  exact ⟨found, bind_eq_ok.2 ⟨_, if_pos hcount, bind_eq_ok.2 ⟨(), enumerable_eq_ok.2 hn, hfound⟩⟩⟩

/-- No difference found: the two sides agree at every valuation. -/
theorem difference?_eq_none (hvars : ∀ r ∈ f.rows, ∀ x ∈ r.vars, x.id ≤ f.numVars)
    (h : difference? f cnf = .ok none) :
    cnf.numVars.toNat ≤ f.numVars.toNat + maxEnumerated ∧ f.numVars.toNat ≤ maxEnumerated ∧
      ∀ v, Agree f cnf v := by
  rw [difference?_eq_search] at h
  obtain ⟨_, _, h⟩ := bind_eq_ok.1 h
  obtain ⟨_, hcap, h⟩ := bind_eq_ok.1 h
  have hmiss := Assignment.search?_eq_none h
  refine ⟨?_, enumerable_eq_ok.1 hcap, fun v => ?_⟩
  · obtain ⟨aux, haux, _⟩ := bind_eq_ok.1 (hmiss 0 (Nat.two_pow_pos _))
    exact (auxiliary_eq_ok haux).1
  · obtain ⟨mask, hmask, hagree⟩ := exists_assignment v (Var.range f.numVars)
    have hsame : SameUpTo f.numVars v (Assignment.mk (Var.range f.numVars) mask).value :=
      fun x hx => hagree x (Var.mem_range.2 hx)
    rw [hsame.agree_iff hvars]
    by_contra hdiffer
    exact absurd ((differs_eq_ok (hmiss mask hmask)).2 hdiffer) nofun

/-- The difference that is found is the first one. -/
theorem difference?_eq_some {a : Assignment} (h : difference? f cnf = .ok (some a)) :
    ∃ mask, mask < Nat.pow 2 f.numVars.toNat ∧ a = ⟨Var.range f.numVars, mask⟩ ∧
      ¬ Agree f cnf a.value ∧
      ∀ m, m < mask → Agree f cnf (Assignment.mk (Var.range f.numVars) m).value := by
  rw [difference?_eq_search] at h
  obtain ⟨_, _, h⟩ := bind_eq_ok.1 h
  obtain ⟨_, _, h⟩ := bind_eq_ok.1 h
  obtain ⟨mask, hmask, ha, hhit, hbefore⟩ := Assignment.search?_eq_some h
  rw [Var.length_range] at hmask
  refine ⟨mask, hmask, ha, (differs_eq_ok hhit).1 rfl, fun m hm => ?_⟩
  by_contra hdiffer
  exact absurd ((differs_eq_ok (hbefore m hm)).2 hdiffer) nofun

end Difference

/-! ### The check -/

/-- The literals that are true at a valuation, as words. -/
def literalsText (vars : List Var) (v : Valuation) : String :=
  Text.joinWords (vars.map fun x => if v x then x.text else "~" ++ x.text)

theorem Var.text_pos {x : Var} (h : x.InRange) : x.pos.text = x.text := by
  have hneg : x.pos.isNegative = false := by
    have hpos := Lit.isPositive_iff.1 (Var.isPositive_pos h)
    rw [← Bool.not_eq_true, Lit.isNegative_iff]
    omega
  rw [Lit.text, hneg, Var.var_pos h]
  exact String.empty_append

theorem Var.exists_neg_text {x : Var} (h : x.InRange) :
    ∃ l, x.neg = .ok l ∧ l.text = "~" ++ x.text := by
  obtain ⟨l, hl, hvar, hneg⟩ := Var.exists_neg h
  refine ⟨l, hl, ?_⟩
  rw [Lit.text, hneg, hvar]
  rfl

theorem exists_literals (v : Valuation) : ∀ {vars : List Var}, (∀ x ∈ vars, x.InRange) →
    ∃ ls, vars.mapM (fun x => if v x then return x.pos else x.neg : Var → Checked Lit) = .ok ls ∧
      ls.map Lit.text = vars.map fun x => if v x then x.text else "~" ++ x.text
  | [], _ => ⟨[], rfl, rfl⟩
  | x :: vars, h => by
    have hx : x.InRange := h x (List.mem_cons_self ..)
    obtain ⟨ls, hls, htext⟩ := exists_literals v fun y hy => h y (List.mem_cons_of_mem _ hy)
    obtain ⟨l, hl, hneg⟩ := Var.exists_neg_text hx
    by_cases hv : v x = true
    · refine ⟨x.pos :: ls, ?_, ?_⟩
      · rw [List.mapM_cons, if_pos hv]
        exact bind_eq_ok.2 ⟨_, rfl, bind_eq_ok.2 ⟨_, hls, rfl⟩⟩
      · rw [List.map_cons, List.map_cons, htext, if_pos hv, Var.text_pos hx]
    · refine ⟨l :: ls, ?_, ?_⟩
      · rw [List.mapM_cons, if_neg hv]
        exact bind_eq_ok.2 ⟨_, hl, bind_eq_ok.2 ⟨_, hls, rfl⟩⟩
      · rw [List.map_cons, List.map_cons, htext, if_neg hv, hneg]

theorem witnessText_eq_ok {a : Assignment} (h : ∀ x ∈ a.support, x.InRange) :
    witnessText a = .ok (literalsText a.support a.value) := by
  obtain ⟨ls, hls, htext⟩ := exists_literals a.value h
  refine bind_eq_ok.2 ⟨ls, hls, ?_⟩
  rw [htext]
  rfl

section Check
variable {source proof : Path} {s s' : Store} {header : String} {f : Opb} {cnf : Cnf}

/-- A check that accepts has read both sides, found no difference and left the files alone. -/
theorem check_eq_ok (h : check source proof s = .ok () s') :
    s' = s ∧ ∃ f cnf, Opb.load source s = .ok f s ∧
      Cnf.load (proof.withExtension "cnf") s = .ok cnf s ∧ difference? f cnf = .ok none := by
  simp only [check] at h
  obtain ⟨header, s₁, hread, h⟩ := run_bind_eq_ok.1 h
  obtain ⟨_, rfl⟩ := Action.readText_eq_ok.1 hread
  split at h
  · exact absurd h run_throw_ne_ok
  · obtain ⟨f, s₂, hsource, h⟩ := run_bind_eq_ok.1 h
    obtain ⟨_, _, _, rfl⟩ := Opb.load_eq_ok.1 hsource
    obtain ⟨cnf, s₃, hcnf, h⟩ := run_bind_eq_ok.1 h
    obtain ⟨_, _, _, rfl⟩ := Cnf.load_eq_ok.1 hcnf
    obtain ⟨found, hsame, h⟩ := run_lift_bind_eq_ok.1 h
    cases found with
    | none =>
      obtain ⟨_, rfl⟩ := run_pure_eq_ok.1 h
      exact ⟨rfl, f, cnf, hsource, hcnf, hsame⟩
    | some a =>
      obtain ⟨text, _, h⟩ := run_lift_bind_eq_ok.1 h
      exact absurd h run_throw_ne_ok

/-- A check of files that can be read ends as the comparison does. -/
theorem check_of_loads (hheader : s.text? proof = some header)
    (hstarts : proofHeader.toList <+: header.toList) (hsource : Opb.load source s = .ok f s)
    (hcnf : Cnf.load (proof.withExtension "cnf") s = .ok cnf s) {found : Option Assignment}
    (hfound : difference? f cnf = .ok found) (hr : ∀ a ∈ found, ∀ x ∈ a.support, x.InRange) :
    check source proof s = match found with
      | none => .ok () s
      | some a => .error (.error (.verificationFailure source proof
          ("models differ at " ++ literalsText a.support a.value))) s := by
  have hread : Action.readText proof s = .ok header s := Action.readText_eq_ok.2 ⟨hheader, rfl⟩
  have hlift : (liftM (difference? f cnf) : Action (Option Assignment)) s = .ok found s :=
    run_lift_eq_ok.2 ⟨hfound, rfl⟩
  have htest : ¬ (!proofHeader.toList.isPrefixOf header.toList) = true := by
    rw [List.isPrefixOf_iff_prefix.2 hstarts]
    exact nofun
  simp only [check]
  rw [run_bind_of_ok hread, if_neg htest, run_bind_of_ok hsource, run_bind_of_ok hcnf,
    run_bind_of_ok hlift]
  cases found with
  | none => rfl
  | some a =>
    have htext : (liftM (witnessText a) : Action String) s =
        .ok (literalsText a.support a.value) s :=
      run_lift_eq_ok.2 ⟨witnessText_eq_ok (hr a rfl), rfl⟩
    exact run_bind_of_ok htext

/-- The check accepts exactly if the clauses, projected onto the variables of the formula, have its
models; else it names the first valuation, in the order of the masks, where they differ. -/
theorem check_decides (hheader : s.text? proof = some header)
    (hstarts : proofHeader.toList <+: header.toList) (hsource : Opb.load source s = .ok f s)
    (hcnf : Cnf.load (proof.withExtension "cnf") s = .ok cnf s) (hn : f.numVars.toNat ≤ 24)
    (haux : cnf.numVars.toNat ≤ f.numVars.toNat + 24)
    (heval : ∀ v, ∃ b, f.isSatisfied v = .ok b) :
    (check source proof s = .ok () s ↔ ∀ v, Agree f cnf v) ∧
      ∀ stop s', check source proof s = .error stop s' → s' = s ∧
        ∃ mask, mask < Nat.pow 2 f.numVars.toNat ∧
          stop = .error (.verificationFailure source proof ("models differ at " ++
            literalsText (Var.range f.numVars) (Assignment.mk (Var.range f.numVars) mask).value)) ∧
          ¬ Agree f cnf (Assignment.mk (Var.range f.numVars) mask).value ∧
          ∀ m, m < mask → Agree f cnf (Assignment.mk (Var.range f.numVars) m).value := by
  obtain ⟨text, _, hparse, _⟩ := Opb.load_eq_ok.1 hsource
  have hvars : ∀ r ∈ f.rows, ∀ x ∈ r.vars, x.id ≤ f.numVars := fun r hr x hx =>
    Opb.le_numVars_of_parse hparse hr hx
  have hr : ∀ x ∈ Var.range f.numVars, x.InRange := by
    intro x hx
    have hle := UInt32.le_iff_toNat_le.1 (Var.mem_range.1 hx)
    exact Nat.lt_of_le_of_lt (Nat.le_trans hle hn) (by decide)
  obtain ⟨found, hfound⟩ := exists_difference? hn haux heval
  cases found with
  | none =>
    have hcheck := check_of_loads hheader hstarts hsource hcnf hfound nofun
    obtain ⟨_, _, hagree⟩ := difference?_eq_none hvars hfound
    refine ⟨⟨fun _ => hagree, fun _ => hcheck⟩, fun stop s' h => ?_⟩
    rw [hcheck] at h
    exact absurd h nofun
  | some a =>
    obtain ⟨mask, hmask, rfl, hdiffer, hbefore⟩ := difference?_eq_some hfound
    have hcheck := check_of_loads hheader hstarts hsource hcnf hfound fun b hb => by
      obtain rfl := Option.some.inj hb
      exact hr
    constructor
    · constructor
      · intro h
        rw [hcheck] at h
        exact absurd h nofun
      · intro h
        exact absurd (h _) hdiffer
    · intro stop s' h
      rw [hcheck] at h
      cases h
      exact ⟨rfl, mask, hmask, rfl, hdiffer, hbefore⟩

end Check

/-! ### A formula and clauses with an auxiliary variable -/

def sampleFormula : Opb :=
  .ofRows [.ofTerms [⟨1, ⟨1, by decide⟩⟩, ⟨1, ⟨2, by decide⟩⟩] .geq 1]

def sampleClauses : Cnf :=
  .ofClauses [[⟨1, by decide⟩, ⟨2, by decide⟩, ⟨3, by decide⟩], [⟨-3, by decide⟩]]

def sampleFiles : Store where
  entries := [
    (["t.opb".toList], .file "+1 x1 +1 x2 >= 1 ;\n".toUTF8),
    (["t.pbp".toList], .file proofHeader.toUTF8),
    (["t.cnf".toList], .file "1 2 3 0\n-3 0\n".toUTF8)]

theorem check_decides_sample :
    check ⟨"t.opb"⟩ ⟨"t.pbp"⟩ sampleFiles = .ok () sampleFiles ↔
      ∀ v, Agree sampleFormula sampleClauses v := by
  have hsource : sampleFiles.text? ⟨"t.opb"⟩ = some "+1 x1 +1 x2 >= 1 ;\n" :=
    Store.text?_of_read rfl
  have hcnf : sampleFiles.text? ⟨"t.cnf"⟩ = some "1 2 3 0\n-3 0\n" := Store.text?_of_read rfl
  have hload : Opb.load ⟨"t.opb"⟩ sampleFiles = .ok sampleFormula sampleFiles :=
    Opb.load_eq_ok.2 ⟨_, hsource, rfl, rfl⟩
  have hclauses : Cnf.load ((Path.mk "t.pbp").withExtension "cnf") sampleFiles =
      .ok sampleClauses sampleFiles := Cnf.load_eq_ok.2 ⟨_, hcnf, rfl, rfl⟩
  have heval : ∀ v, ∃ b, sampleFormula.isSatisfied v = .ok b := by
    intro v
    refine ⟨v (Lit.var ⟨1, by decide⟩) || v (Lit.var ⟨2, by decide⟩), ?_⟩
    cases h₁ : v (Lit.var ⟨1, by decide⟩) <;> cases h₂ : v (Lit.var ⟨2, by decide⟩) <;>
      simp [sampleFormula, Opb.ofRows, Opb.isSatisfied, Row.allSatisfied, Row.isSatisfied,
        LinearForm.evaluate, Row.ofTerms, h₁, h₂] <;> rfl
  exact (check_decides (Store.text?_of_read rfl) (List.prefix_refl _) hload hclauses (by decide)
    (by decide) heval).1

end Exhaustive

end PseudoBoolean
