import PseudoBoolean.Literal

/-!
All assignments of a few variables.

An assignment of `k` variables is a mask below `2^k`: bit `i` is the value of the variable at place
`i`. Masks are visited in ascending order without building the list of them, and `visit_eq_foldlM`
and `search_eq_findM?` say that a visit is a fold over that list, and a search the first hit in it.
-/

namespace PseudoBoolean

/-- The largest number of variables that is enumerated. -/
def maxEnumerated : Nat := 24

/-- Refuses to enumerate too many variables. -/
def enumerable (vars : Nat) : Checked Unit :=
  if vars ≤ maxEnumerated then .ok () else .error (.tooManyAssignments vars)

/-! ### Masks -/

namespace Mask

/-- Folds over `count` masks in ascending order, from `mask` on, until one faults. -/
@[specialize] def visit {β : Type} (f : β → Nat → Checked β) : (count mask : Nat) → β → Checked β
  | 0, _, b => .ok b
  | count + 1, mask, b =>
    match f b mask with
    | .ok b => visit f count (mask + 1) b
    | .error fault => .error fault

/-- The first of `count` masks that passes, from `mask` on, unless one before it faults. -/
@[specialize] def search (p : Nat → Checked Bool) : (count mask : Nat) → Checked (Option Nat)
  | 0, _ => .ok none
  | count + 1, mask =>
    match p mask with
    | .ok true => .ok (some mask)
    | .ok false => search p count (mask + 1)
    | .error fault => .error fault

theorem visit_eq_foldlM {β : Type} (f : β → Nat → Checked β) (count mask : Nat) (b : β) :
    visit f count mask b = (List.range' mask count).foldlM f b := by
  induction count generalizing mask b with
  | zero => rfl
  | succ n ih =>
    rw [visit, List.range'_succ, List.foldlM_cons]
    cases f b mask with
    | ok b => exact ih (mask + 1) b
    | error fault => rfl

theorem search_eq_findM? (p : Nat → Checked Bool) (count mask : Nat) :
    search p count mask = (List.range' mask count).findM? p := by
  induction count generalizing mask with
  | zero => rfl
  | succ n ih =>
    rw [search, List.range'_succ, List.findM?]
    cases p mask with
    | ok hit =>
      cases hit with
      | true => rfl
      | false => exact ih (mask + 1)
    | error fault => rfl

end Mask

/-! ### Assignments -/

/-- Values for the variables of an ascending list, as a mask. -/
structure Assignment where
  support : List Var
  mask : Nat

/-- Every assignment of some variables, in ascending order of the masks. -/
def assignments (support : List Var) : List Assignment :=
  (List.range (Nat.pow 2 support.length)).map (Assignment.mk support)

namespace Assignment

/-- The bit of a mask at the place of `v` in a list, false if it has no place there. -/
def bitOf (v : Var) : List Var → Nat → Bool
  | [], _ => false
  | w :: rest, mask => if w = v then mask.testBit 0 else bitOf v rest (mask / 2)

/-- The value of a variable. One outside the support is false. -/
def value (a : Assignment) : Valuation := fun v => bitOf v a.support a.mask

/-- Folds over the assignments of a support. -/
@[specialize] def visit {β : Type} (support : List Var) (f : β → Assignment → Checked β)
    (init : β) : Checked β := do
  enumerable support.length
  Mask.visit (fun b mask => f b ⟨support, mask⟩) (Nat.pow 2 support.length) 0 init

/-- The first assignment of a support that passes. -/
@[specialize] def search? (support : List Var) (p : Assignment → Checked Bool) :
    Checked (Option Assignment) := do
  enumerable support.length
  let found ← Mask.search (fun mask => p ⟨support, mask⟩) (Nat.pow 2 support.length) 0
  return found.map (.mk support)

/-- The assignments of a support that pass, in order. -/
def select (support : List Var) (p : Assignment → Checked Bool) : Checked (List Assignment) := do
  let found ← visit support (fun found a => do return if ← p a then a :: found else found) []
  return found.reverse

/-- How many assignments of a support pass. -/
def count (support : List Var) (p : Assignment → Checked Bool) : Checked Nat :=
  visit support (fun n a => do return if ← p a then n + 1 else n) 0

end Assignment

/-! ### Supports -/

/-- Puts a variable into an ascending list, once. -/
def insertVar (v : Var) : List Var → List Var
  | [] => [v]
  | w :: rest =>
    if v.id < w.id then v :: w :: rest else if v = w then w :: rest else w :: insertVar v rest

/-- The variables of a list, ascending and each once. -/
def sortedVars (vars : List Var) : List Var := vars.foldr insertVar []

/-! ### Counts over more variables -/

/-- A number of models with so many free variables besides: each of them doubles it. -/
def scaleModels (models free : Nat) : Nat :=
  if models = 0 then 0 else models * Nat.pow 2 free

/-- How many assignments of `total` variables pass, of which those of a support are read and the
others are free. -/
def Assignment.countOver (support : List Var) (total : Nat) (p : Assignment → Checked Bool) :
    Checked Nat := do
  if total < support.length then throw (.overflow .subtract)
  let models ← count support p
  return scaleModels models (total - support.length)

end PseudoBoolean
