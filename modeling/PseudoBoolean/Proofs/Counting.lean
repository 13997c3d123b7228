import PseudoBoolean.Cnf.Models
import PseudoBoolean.Proofs.Checker

/-!
Counting models.

The first variable of a list splits its assignments in two halves, by its value
(`modelsOver_cons`):

    y z             00  10  01  11
    x y z          000 010 001 011   100 110 101 111

A property that does not read the variable has as many models in one half as in the other. So the
models over the variables that occur, doubled for each variable that does not, are the models over
all variables (`modelsOver_sublist`), and both counts, of rows and of clauses, count the models over
all variables (`Oracle.countModels_eq`, `Cnf.countModels_eq`).
-/

namespace PseudoBoolean

/-- The number of assignments of some variables at which a property holds. -/
def modelsOver (vars : List Var) (p : Valuation → Bool) : Nat :=
  (assignments vars).countP fun a => p a.value

/-- Whether a property is about the values of some variables only. -/
def OnlyReads (vars : List Var) (p : Valuation → Bool) : Prop :=
  ∀ v w : Valuation, (∀ x ∈ vars, v x = w x) → p v = p w

/-! ### One variable more -/

theorem countP_range_two_mul (p : Nat → Bool) (n : Nat) : (List.range (2 * n)).countP p =
    (List.range n).countP (fun m => p (2 * m)) + (List.range n).countP fun m => p (2 * m + 1) := by
  induction n with
  | zero => rfl
  | succ n ih =>
    rw [Nat.mul_succ, List.range_succ, List.range_succ, List.range_succ]
    simp only [List.countP_append, List.countP_singleton, ih]
    omega

/-- The lowest bit of a mask is the value of the first variable, the others are those of the
rest. -/
theorem Assignment.value_cons (x : Var) (vars : List Var) (m : Nat) (b : Bool) :
    (Assignment.mk (x :: vars) (2 * m + b.toNat)).value =
      Function.update (Assignment.mk vars m).value x b := by
  funext y
  show (if x = y then (2 * m + b.toNat).testBit 0
    else Assignment.bitOf y vars ((2 * m + b.toNat) / 2)) = _
  rw [Nat.add_comm, testBit_zero_bit, half_bit, Function.update_apply]
  by_cases h : x = y
  · rw [if_pos h, if_pos h.symm]
  · rw [if_neg h, if_neg fun e => h e.symm]
    rfl

/-- The models in which the first variable is false, and those in which it is true. -/
theorem modelsOver_cons (x : Var) (vars : List Var) (p : Valuation → Bool) :
    modelsOver (x :: vars) p = modelsOver vars (fun v => p (Function.update v x false)) +
      modelsOver vars fun v => p (Function.update v x true) := by
  have hsize : Nat.pow 2 (x :: vars).length = 2 * Nat.pow 2 vars.length := Nat.mul_comm _ 2
  have hhalf : ∀ (m : Nat) (b : Bool), p (Assignment.mk (x :: vars) (2 * m + b.toNat)).value =
      p (Function.update (Assignment.mk vars m).value x b) :=
    fun m b => congrArg p (Assignment.value_cons x vars m b)
  simp only [modelsOver, assignments, List.countP_map, hsize, countP_range_two_mul]
  congr 1
  · exact List.countP_congr fun m _ => Bool.eq_iff_iff.1 (hhalf m false)
  · exact List.countP_congr fun m _ => Bool.eq_iff_iff.1 (hhalf m true)

/-! ### Variables that are not read -/

theorem OnlyReads.update_of_notMem {support : List Var} {p : Valuation → Bool} {x : Var}
    (hp : OnlyReads support p) (hx : x ∉ support) (b : Bool) :
    (fun v => p (Function.update v x b)) = p := by
  funext v
  refine hp _ _ fun y hy => Function.update_of_ne ?_ b v
  rintro rfl
  exact hx hy

theorem OnlyReads.update {support : List Var} {p : Valuation → Bool} {x : Var}
    (hp : OnlyReads (x :: support) p) (b : Bool) :
    OnlyReads support fun v => p (Function.update v x b) := by
  intro v w h
  refine hp _ _ fun y hy => ?_
  rw [Function.update_apply, Function.update_apply]
  by_cases hyx : y = x
  · rw [if_pos hyx, if_pos hyx]
  · rw [if_neg hyx, if_neg hyx]
    exact h y ((List.mem_cons.1 hy).resolve_left hyx)

/-- Every variable that is not read doubles the number of models. -/
theorem modelsOver_sublist {support vars : List Var} (hsub : support.Sublist vars)
    (hdup : vars.Nodup) {p : Valuation → Bool} (hp : OnlyReads support p) :
    modelsOver vars p = modelsOver support p * Nat.pow 2 (vars.length - support.length) := by
  -- setting a variable that is read leaves a property of the others, so `p` varies on the way
  induction hsub generalizing p with
  | slnil => exact (Nat.mul_one _).symm
  | @cons support vars x hsub ih =>
    obtain ⟨hx, hdup⟩ := List.nodup_cons.1 hdup
    have hx : x ∉ support := fun h => hx (hsub.subset h)
    have hexp : (x :: vars).length - support.length = vars.length - support.length + 1 := by
      have hle := hsub.length_le
      rw [List.length_cons]
      omega
    rw [modelsOver_cons, hp.update_of_notMem hx, hp.update_of_notMem hx, ih hdup hp, hexp]
    exact (Nat.mul_two _).symm.trans (Nat.mul_assoc _ _ 2)
  | cons_cons x hsub ih =>
    obtain ⟨_, hdup⟩ := List.nodup_cons.1 hdup
    rw [modelsOver_cons, modelsOver_cons, ih hdup (hp.update false), ih hdup (hp.update true),
      List.length_cons, List.length_cons, Nat.add_sub_add_right, Nat.add_mul]

/-! ### The counts -/

theorem scaleModels_eq (models free : Nat) : scaleModels models free = models * Nat.pow 2 free := by
  rw [scaleModels]
  split
  · next h => rw [h, Nat.zero_mul]
  · rfl

theorem all_sortedVars {vars : List Var} {n : UInt32} (h : ∀ x ∈ vars, x.id ≤ n) :
    (sortedVars vars).all (·.id ≤ n) = true :=
  List.all_eq_true.2 fun x hx => decide_eq_true (h x (mem_sortedVars.1 hx))

/-- A support is subtracted from the variables that it is among. -/
theorem Assignment.countOver_eq {support : List Var} {total : Nat} (h : support.length ≤ total)
    (p : Assignment → Checked Bool) : countOver support total p = (do
      let models ← count support p
      return scaleModels models (total - support.length)) := by
  rw [countOver, if_neg (Nat.not_lt.2 h)]

/-- A count over the variables that occur, scaled to all variables, counts the models over all of
them. -/
theorem countOver_eq_ok {vars : List Var} {n : UInt32} {p : Assignment → Checked Bool}
    {q : Valuation → Bool} (hcap : (sortedVars vars).length ≤ maxEnumerated)
    (hvars : ∀ x ∈ vars, x.id ≤ n) (hq : OnlyReads vars q) (hp : ∀ a, p a = .ok (q a.value)) :
    Assignment.countOver (sortedVars vars) n.toNat p = .ok (modelsOver (Var.range n) q) := by
  have hsub : (sortedVars vars).Sublist (Var.range n) :=
    sublist_of_ascending (ascending_sortedVars vars) (Var.ascending_range n) fun x hx =>
      Var.mem_range.2 (hvars x (mem_sortedVars.1 hx))
  have hq : OnlyReads (sortedVars vars) q := fun v w h =>
    hq v w fun x hx => h x (mem_sortedVars.2 hx)
  rw [Assignment.countOver_eq (length_sortedVars_le hvars)]
  refine bind_eq_ok.2 ⟨_, Assignment.count_eq_countP hcap hp, ?_⟩
  have hdup := Var.nodup_range n
  rw [pure_eq_ok, scaleModels_eq, modelsOver_sublist hsub hdup hq, Var.length_range]
  rfl

/-- The count of rows is the number of models over all variables. -/
theorem Oracle.countModels_eq {rows : List Row} {n : UInt32} {sat : Valuation → Bool}
    (hcap : (sortedVars (rows.flatMap Row.vars)).length ≤ maxEnumerated)
    (hvars : ∀ x ∈ rows.flatMap Row.vars, x.id ≤ n)
    (hsat : ∀ v, Row.allSatisfied rows v = .ok (sat v)) :
    countModels rows n = .ok (modelsOver (Var.range n) sat) := by
  have hreads : OnlyReads (rows.flatMap Row.vars) sat := by
    intro v w h
    rw [Bool.eq_iff_iff, Row.allSatisfied_eq_ok (hsat v), Row.allSatisfied_eq_ok (hsat w)]
    exact forall₂_congr fun r hr => Row.holds_congr fun x hx => h x (List.mem_flatMap_of_mem hr hx)
  rw [countModels, support_rows]
  exact (if_pos (all_sortedVars hvars)).trans (countOver_eq_ok hcap hvars hreads fun a => hsat a.value)

/-- The count of clauses is the number of models over all variables. -/
theorem Cnf.countModels_eq {f : Cnf} {n : UInt32}
    (hcap : (sortedVars f.vars).length ≤ maxEnumerated) (hvars : ∀ x ∈ f.vars, x.id ≤ n) :
    f.countModels n = .ok (modelsOver (Var.range n) f.isSatisfied) :=
  (if_pos (all_sortedVars hvars)).trans
    (countOver_eq_ok hcap hvars (fun _ _ => Cnf.isSatisfied_congr) fun _ => rfl)

end PseudoBoolean
