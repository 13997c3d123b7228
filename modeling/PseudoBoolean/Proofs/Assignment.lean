import PseudoBoolean.Proofs.Enumeration

/-!
Masks and assignments, one to one.

Bit `i` of a mask is the value of the variable at place `i`, so counting up through the masks of `k`
variables meets each choice of values for them once (`assignments_exhaustive`):

    mask          0     1     2     3     4     5     6     7
    x₂ x₅ x₉     000   100   010   110   001   101   011   111

The value of a variable is the bit at its place. `Assignment.value` walks along the support to that
place. Every support that is enumerated ascends (`ascending_sortedVars`, `Var.ascending_range`), so
halving it leads there as well (`Assignment.value_eq_place?`), and to no place for a variable outside.
-/

namespace PseudoBoolean

/-! ### Places -/

/-- The place of a variable from `start` up to `stop` in an ascending list, found by halving. -/
def placeIn (vars : List Var) (x : Var) (start stop : Nat) (hstop : stop ≤ vars.length) :
    Option Nat :=
  if h : start < stop then
    let mid := start + (stop - start) / 2
    have hmid : mid < stop := by omega
    if vars[mid].id < x.id then placeIn vars x (mid + 1) stop hstop
    else if x.id < vars[mid].id then placeIn vars x start mid (by omega)
    else some mid
  else none
termination_by stop - start

/-- The place of a variable in an ascending list. -/
def place? (vars : List Var) (x : Var) : Option Nat :=
  placeIn vars x 0 vars.length (Nat.le_refl _)

section Places
variable {vars : List Var} {x : Var} {start stop i : Nat} {hstop : stop ≤ vars.length}

/-- What is found stands there, in whatever order the variables are. -/
theorem getElem?_of_placeIn (h : placeIn vars x start stop hstop = some i) :
    vars[i]? = some x := by
  fun_induction placeIn vars x start stop hstop with
  | case1 start stop hstop hlt mid hmid hbelow ih => exact ih h
  | case2 start stop hstop hlt mid hmid hbelow habove ih => exact ih h
  | case3 start stop hstop hlt mid hmid hbelow habove =>
    obtain rfl : mid = i := Option.some.inj h
    have hid : vars[mid].id = x.id :=
      UInt32.le_antisymm (UInt32.not_lt.1 habove) (UInt32.not_lt.1 hbelow)
    rw [List.getElem?_eq_getElem (Nat.lt_of_lt_of_le hmid hstop), Var.ext_id hid]
  | case4 => cases h

/-- What stands between the bounds is found: the half that is left out is too low or too high. -/
theorem placeIn_of_getElem? (hasc : vars.Pairwise fun x y => x.id < y.id)
    (hx : vars[i]? = some x) (hle : start ≤ i) (hlt : i < stop) :
    placeIn vars x start stop hstop = some i := by
  obtain ⟨hi, rfl⟩ := List.getElem?_eq_some_iff.1 hx
  have hids : ∀ j k (hj : j < vars.length) (hk : k < vars.length), j < k →
      vars[j].id < vars[k].id := List.pairwise_iff_getElem.1 hasc
  fun_induction placeIn vars vars[i] start stop hstop with
  | case1 start stop hstop hlt' mid hmid hbelow ih =>
    refine ih (Nat.lt_of_not_le fun him => ?_) hlt
    rcases Nat.lt_or_eq_of_le him with him | rfl
    · exact UInt32.lt_asymm hbelow (hids i mid hi _ him)
    · exact UInt32.lt_irrefl _ hbelow
  | case2 start stop hstop hlt' mid hmid hbelow habove ih =>
    refine ih hle (Nat.lt_of_not_le fun hmi => ?_)
    rcases Nat.lt_or_eq_of_le hmi with hmi | rfl
    · exact UInt32.lt_asymm habove (hids mid i _ hi hmi)
    · exact UInt32.lt_irrefl _ habove
  | case3 start stop hstop hlt' mid hmid hbelow habove =>
    rcases Nat.lt_trichotomy mid i with hmi | hmi | him
    · exact absurd (hids mid i _ hi hmi) hbelow
    · rw [hmi]
    · exact absurd (hids i mid hi _ him) habove
  | case4 start stop hstop hge => exact absurd (Nat.lt_of_le_of_lt hle hlt) hge

theorem place?_eq_some_iff (hasc : vars.Pairwise fun x y => x.id < y.id) :
    place? vars x = some i ↔ vars[i]? = some x := by
  refine ⟨getElem?_of_placeIn, fun hx => ?_⟩
  obtain ⟨hi, _⟩ := List.getElem?_eq_some_iff.1 hx
  exact placeIn_of_getElem? hasc hx (Nat.zero_le i) hi

theorem place?_eq_none_iff (hasc : vars.Pairwise fun x y => x.id < y.id) :
    place? vars x = none ↔ x ∉ vars := by
  rw [Option.eq_none_iff_forall_ne_some, List.mem_iff_getElem?, not_exists]
  exact forall_congr' fun i => not_congr (place?_eq_some_iff hasc)

end Places

/-! ### Values -/

section Values
variable {support : List Var}

theorem Assignment.value_of_getElem? {x : Var} {mask i : Nat} (hdup : support.Nodup)
    (hx : support[i]? = some x) : (Assignment.mk support mask).value x = mask.testBit i := by
  induction support generalizing mask i with
  | nil => cases hx
  | cons w rest ih =>
    obtain ⟨hw, hrest⟩ := List.nodup_cons.1 hdup
    cases i with
    | zero =>
      obtain rfl : w = x := Option.some.inj hx
      exact if_pos rfl
    | succ i =>
      have hne : w ≠ x := fun e => hw (e ▸ List.mem_of_getElem? hx)
      rw [Nat.testBit_succ]
      exact (if_neg hne).trans (ih hrest hx)

/-- The value of a variable is the bit at the place that halving finds. -/
theorem Assignment.value_eq_place? (hasc : support.Pairwise fun x y => x.id < y.id) (mask : Nat)
    (x : Var) : (Assignment.mk support mask).value x = (place? support x).any mask.testBit := by
  cases hplace : place? support x with
  | some i => exact value_of_getElem? (nodup_of_ascending hasc) ((place?_eq_some_iff hasc).1 hplace)
  | none => exact bitOf_of_notMem ((place?_eq_none_iff hasc).1 hplace)

/-- Two assignments of a support differ somewhere on it. -/
theorem pairwise_assignments (hdup : support.Nodup) :
    (assignments support).Pairwise fun a b => ∃ x ∈ support, a.value x ≠ b.value x := by
  refine List.pairwise_map.2 ?_
  refine (List.Pairwise.and_mem.1 List.pairwise_lt_range).imp ?_
  rintro m k ⟨hm, hk, hlt⟩
  by_contra hsame
  push Not at hsame
  have hmask := Assignment.mask_inj hdup (List.mem_range.1 hm) (List.mem_range.1 hk) hsame
  exact absurd hmask (Nat.ne_of_lt hlt)

/-- Each choice of values for a support is made at one place of the enumeration: its mask. -/
theorem existsUnique_assignment (hdup : support.Nodup) (v : {x // x ∈ support} → Bool) :
    ∃! m : Nat, ∃ a : Assignment, (assignments support)[m]? = some a ∧
      ∀ x, a.value x.1 = v x := by
  -- the choice as a valuation, false outside
  let w : Valuation := fun x => if hx : x ∈ support then v ⟨x, hx⟩ else false
  have hw : ∀ x : {x // x ∈ support}, w x.1 = v x := fun x => dif_pos x.2
  refine ⟨maskOf w support, ⟨_, getElem?_assignments.2 ⟨maskOf_lt w support, rfl⟩, fun x => ?_⟩, ?_⟩
  · rw [← hw x]
    exact bitOf_maskOf w x.2
  · rintro m ⟨a, ha, hv⟩
    obtain ⟨hm, rfl⟩ := getElem?_assignments.1 ha
    refine Assignment.mask_inj hdup hm (maskOf_lt w support) fun x hx => ?_
    exact (hv ⟨x, hx⟩).trans ((hw ⟨x, hx⟩).symm.trans (bitOf_maskOf w hx).symm)

/-! ### The enumeration -/

/-- Whether a list of assignments has every choice of values for some variables, each of them once,
and counts up. -/
structure IsEnumeration (support : List Var) (all : List Assignment) : Prop where
  length_eq : all.length = Nat.pow 2 support.length
  /-- Two of them differ on the variables. -/
  apart : all.Pairwise fun a b => ∃ x ∈ support, a.value x ≠ b.value x
  /-- Other variables are false. -/
  outside : ∀ a ∈ all, ∀ x, x ∉ support → a.value x = false
  /-- Every choice is made by one of them. -/
  choices : ∀ v : {x // x ∈ support} → Bool,
    ∃! m : Nat, ∃ a : Assignment, all[m]? = some a ∧ ∀ x, a.value x.1 = v x
  /-- The values of the one at place `m` are the bits of `m`. -/
  bits : ∀ (m : Nat) (a : Assignment), all[m]? = some a →
    a.mask = m ∧ ∀ (i : Nat) (x : Var), support[i]? = some x → a.value x = m.testBit i
  /-- A value is the bit at the place that halving finds, and false if it finds none. -/
  lookup : ∀ a ∈ all, ∀ x, a.value x = (place? support x).any a.mask.testBit

/-- Up to 24 ascending variables are enumerated. Whatever is done at their assignments is done along
one list, in its order, and that list has every choice of values once: the masks in ascending order,
bit `i` the value of the `i`-th smallest variable. -/
theorem assignments_exhaustive (hasc : support.Pairwise fun x y => x.id < y.id)
    (hcap : support.length ≤ 24) :
    (∀ {β : Type} (f : β → Assignment → Checked β) (b : β),
      Assignment.visit support f b = (assignments support).foldlM f b) ∧
    (∀ p, Assignment.search? support p = (assignments support).findM? p) ∧
    IsEnumeration support (assignments support) := by
  have hdup := nodup_of_ascending hasc
  refine ⟨fun f b => Assignment.visit_eq_foldlM hcap f b, Assignment.search?_eq_findM? hcap, ?_⟩
  exact
    { length_eq := length_assignments support
      apart := pairwise_assignments hdup
      outside := by
        intro a ha x hx
        obtain ⟨m, _, rfl⟩ := mem_assignments.1 ha
        exact Assignment.bitOf_of_notMem hx
      choices := existsUnique_assignment hdup
      bits := by
        intro m a ha
        obtain ⟨_, rfl⟩ := getElem?_assignments.1 ha
        exact ⟨rfl, fun i x hx => Assignment.value_of_getElem? hdup hx⟩
      lookup := by
        intro a ha x
        obtain ⟨m, _, rfl⟩ := mem_assignments.1 ha
        exact Assignment.value_eq_place? hasc m x }

end Values

/-- Three variables far apart, the last one with the greatest number. -/
def sampleSupport : List Var := [x₂, ⟨40, by decide⟩, ⟨0xffffffff, by decide⟩]

theorem assignments_exhaustive_sample :
    sampleSupport.Pairwise (fun x y => x.id < y.id) ∧ sampleSupport.length ≤ 24 ∧
    IsEnumeration sampleSupport (assignments sampleSupport) ∧
    Assignment.search? sampleSupport (fun a => .ok (a.value ⟨0xffffffff, by decide⟩)) =
      .ok (some ⟨sampleSupport, 4⟩) := by
  have hasc : sampleSupport.Pairwise fun x y => x.id < y.id := by decide
  have hcap : sampleSupport.length ≤ 24 := by decide
  obtain ⟨_, hsearch, hall⟩ := assignments_exhaustive hasc hcap
  refine ⟨hasc, hcap, hall, ?_⟩
  rw [hsearch]
  rfl

end PseudoBoolean
