import PseudoBoolean.Enumeration
import PseudoBoolean.Proofs.Checked
import PseudoBoolean.Proofs.Literal

/-!
Enumeration is exhaustive.

Every valuation of a support is one of its masks (`bitOf_maskOf`), so what holds at all masks holds
at all valuations. A search gives the first hit and has seen every mask before it; a visit keeps
whatever each of its steps keeps (`Mask.visit_induction`).
-/

namespace PseudoBoolean

/-! ### Masks of valuations -/

/-- The mask of a valuation on a list of variables, the first of them at bit 0. -/
def maskOf (v : Valuation) : List Var → Nat
  | [] => 0
  | w :: rest => (v w).toNat + 2 * maskOf v rest

theorem maskOf_lt (v : Valuation) : ∀ support : List Var,
    maskOf v support < Nat.pow 2 support.length
  | [] => Nat.one_pos
  | w :: rest => by
    have ih := maskOf_lt v rest
    have hbit : (v w).toNat ≤ 1 := Bool.toNat_le _
    show (v w).toNat + 2 * maskOf v rest < Nat.pow 2 rest.length * 2
    omega

theorem testBit_zero_bit (b : Bool) (m : Nat) : (b.toNat + 2 * m).testBit 0 = b := by
  rw [Nat.testBit_zero]
  cases b <;> simp

theorem half_bit (b : Bool) (m : Nat) : (b.toNat + 2 * m) / 2 = m := by
  have hle : b.toNat ≤ 1 := Bool.toNat_le b
  omega

/-- The bit of a mask at a variable's place is the variable's value. -/
theorem bitOf_maskOf (v : Valuation) {x : Var} : ∀ {support : List Var}, x ∈ support →
    Assignment.bitOf x support (maskOf v support) = v x
  | w :: rest, h => by
    simp only [Assignment.bitOf, maskOf]
    split
    · next hw => rw [hw, testBit_zero_bit]
    · next hw =>
      have hx : x ∈ rest := (List.mem_cons.1 h).resolve_left fun e => hw e.symm
      rw [half_bit]
      exact bitOf_maskOf v hx

/-- Some assignment of a support agrees with a valuation on it. -/
theorem exists_assignment (v : Valuation) (support : List Var) :
    ∃ mask, mask < Nat.pow 2 support.length ∧
      ∀ x ∈ support, (Assignment.mk support mask).value x = v x :=
  ⟨maskOf v support, maskOf_lt v support, fun _ hx => bitOf_maskOf v hx⟩

theorem mem_assignments {a : Assignment} {support : List Var} :
    a ∈ assignments support ↔ ∃ mask, mask < Nat.pow 2 support.length ∧ a = ⟨support, mask⟩ := by
  simp [assignments, eq_comm]

theorem length_assignments (support : List Var) :
    (assignments support).length = Nat.pow 2 support.length := by
  rw [assignments, List.length_map, List.length_range]

theorem getElem?_assignments {support : List Var} {m : Nat} {a : Assignment} :
    (assignments support)[m]? = some a ↔ m < Nat.pow 2 support.length ∧ ⟨support, m⟩ = a := by
  simp only [assignments, List.getElem?_map, Option.map_eq_some_iff, List.getElem?_eq_some_iff,
    List.getElem_range, List.length_range, exists_prop]
  constructor
  · rintro ⟨_, ⟨hm, rfl⟩, ha⟩
    exact ⟨hm, ha⟩
  · rintro ⟨hm, ha⟩
    exact ⟨m, ⟨hm, rfl⟩, ha⟩

theorem maskOf_congr {v w : Valuation} : ∀ {support : List Var}, (∀ x ∈ support, v x = w x) →
    maskOf v support = maskOf w support
  | [], _ => rfl
  | x :: rest, h => by
    simp only [maskOf]
    rw [h x (List.mem_cons_self ..), maskOf_congr fun y hy => h y (List.mem_cons_of_mem _ hy)]

/-- Every mask over distinct variables is the mask of its own assignment. -/
theorem maskOf_value : ∀ {support : List Var} {mask : Nat}, support.Nodup →
    mask < Nat.pow 2 support.length → maskOf (Assignment.mk support mask).value support = mask
  | [], mask, _, hm => by
    obtain rfl : mask = 0 := Nat.lt_one_iff.1 hm
    rfl
  | w :: rest, mask, hdup, hm => by
    obtain ⟨hw, hrest⟩ := List.nodup_cons.1 hdup
    have hhalf : mask / 2 < Nat.pow 2 rest.length :=
      Nat.div_lt_of_lt_mul (Nat.mul_comm _ 2 ▸ hm)
    have hhead : (Assignment.mk (w :: rest) mask).value w = mask.testBit 0 := if_pos rfl
    have htail : maskOf (Assignment.mk (w :: rest) mask).value rest = mask / 2 := by
      refine (maskOf_congr fun x hx => ?_).trans (maskOf_value hrest hhalf)
      exact if_neg fun (e : w = x) => hw (e ▸ hx)
    simp only [maskOf]
    rw [hhead, htail, Nat.testBit_zero]
    rcases Nat.mod_two_eq_zero_or_one mask with h | h <;> simp [h] <;> omega

/-- Assignments that agree on their support have one mask. -/
theorem Assignment.mask_inj {support : List Var} (hdup : support.Nodup) {m k : Nat}
    (hm : m < Nat.pow 2 support.length) (hk : k < Nat.pow 2 support.length)
    (h : ∀ x ∈ support, (Assignment.mk support m).value x = (Assignment.mk support k).value x) :
    m = k := by
  have hmask := maskOf_congr h
  rwa [maskOf_value hdup hm, maskOf_value hdup hk] at hmask

theorem Assignment.bitOf_of_notMem {x : Var} : ∀ {support : List Var} {mask : Nat}, x ∉ support →
    bitOf x support mask = false
  | [], _, _ => rfl
  | w :: rest, mask, h => by
    have hne : w ≠ x := fun e => h (e ▸ List.mem_cons_self ..)
    rw [bitOf, if_neg hne]
    exact bitOf_of_notMem fun hx => h (List.mem_cons_of_mem _ hx)

/-- A valuation that is false outside a list is the assignment of its mask. -/
theorem Assignment.value_maskOf {v : Valuation} {support : List Var}
    (h : ∀ x, x ∉ support → v x = false) :
    (Assignment.mk support (maskOf v support)).value = v := by
  funext x
  by_cases hx : x ∈ support
  · exact bitOf_maskOf v hx
  · rw [h x hx]
    exact bitOf_of_notMem hx

/-! ### Searches -/

namespace Mask

theorem search_eq_some {p : Nat → Checked Bool} : ∀ {count mask m : Nat},
    search p count mask = .ok (some m) → mask ≤ m ∧ m < mask + count ∧ p m = .ok true ∧
      ∀ k, mask ≤ k → k < m → p k = .ok false
  | 0, mask, m, h => by simp [search] at h
  | count + 1, mask, m, h => by
    simp only [search] at h
    split at h
    · next hp =>
      obtain rfl : mask = m := by simpa using h
      exact ⟨Nat.le_refl _, by omega, hp, fun k hk hlt => absurd hlt (by omega)⟩
    · next hp =>
      obtain ⟨hle, hlt, hm, hbefore⟩ := search_eq_some h
      refine ⟨by omega, by omega, hm, fun k hk hkm => ?_⟩
      rcases Nat.eq_or_lt_of_le hk with rfl | hk
      · exact hp
      · exact hbefore k hk hkm
    · cases h

theorem search_eq_none {p : Nat → Checked Bool} : ∀ {count mask : Nat},
    search p count mask = .ok none → ∀ k, mask ≤ k → k < mask + count → p k = .ok false
  | 0, mask, _, k, hk, hlt => absurd hlt (by omega)
  | count + 1, mask, h, k, hk, hlt => by
    simp only [search] at h
    split at h
    · cases h
    · next hp =>
      rcases Nat.eq_or_lt_of_le hk with rfl | hk
      · exact hp
      · exact search_eq_none h k hk (by omega)
    · cases h

/-- A search answers if its test does at every mask. -/
theorem exists_search {p : Nat → Checked Bool} : ∀ {count mask : Nat},
    (∀ k, mask ≤ k → k < mask + count → ∃ b, p k = .ok b) → ∃ r, search p count mask = .ok r
  | 0, mask, _ => ⟨none, rfl⟩
  | count + 1, mask, h => by
    obtain ⟨b, hb⟩ := h mask (Nat.le_refl _) (by omega)
    simp only [search]
    rw [hb]
    cases b with
    | true => exact ⟨some mask, rfl⟩
    | false => exact exists_search fun k hk hlt => h k (by omega) (by omega)

/-- What every step of a visit keeps, the visit keeps. -/
theorem visit_induction {β : Type} {f : β → Nat → Checked β} {motive : Nat → β → Prop}
    (hstep : ∀ m b b', motive m b → f b m = .ok b' → motive (m + 1) b') :
    ∀ {count mask : Nat} {b b' : β}, motive mask b → visit f count mask b = .ok b' →
      motive (mask + count) b'
  | 0, mask, b, b', hb, h => by
    obtain rfl : b = b' := by simpa [visit] using h
    exact hb
  | count + 1, mask, b, b', hb, h => by
    simp only [visit] at h
    split at h
    · next c hc =>
      have hrest := visit_induction hstep (hstep mask b c hb hc) h
      rwa [Nat.add_assoc, Nat.add_comm 1 count] at hrest
    · cases h

/-- A visit answers if each of its steps does. -/
theorem exists_visit {β : Type} {f : β → Nat → Checked β} (hf : ∀ b m, ∃ b', f b m = .ok b')
    (count mask : Nat) (b : β) : ∃ b', visit f count mask b = .ok b' := by
  induction count generalizing mask b with
  | zero => exact ⟨b, rfl⟩
  | succ count ih =>
    obtain ⟨c, hc⟩ := hf b mask
    simp only [visit]
    rw [hc]
    exact ih (mask + 1) c

theorem overflowsOnly_visit {β : Type} {f : β → Nat → Checked β}
    (hf : ∀ b m, OverflowsOnly (f b m)) (count mask : Nat) (b : β) :
    OverflowsOnly (visit f count mask b) := by
  rw [visit_eq_foldlM]
  exact .foldlM hf _ _

theorem overflowsOnly_search {p : Nat → Checked Bool} (hp : ∀ m, OverflowsOnly (p m))
    (count mask : Nat) : OverflowsOnly (search p count mask) := by
  induction count generalizing mask with
  | zero => exact .ok none
  | succ count ih =>
    intro fault h
    simp only [search] at h
    cases hm : p mask with
    | ok hit =>
      rw [hm] at h
      cases hit with
      | true => cases h
      | false => exact ih (mask + 1) fault h
    | error f =>
      rw [hm] at h
      obtain rfl := Except.error.inj h
      exact hp mask f hm

end Mask

theorem enumerable_eq_ok {vars : Nat} {u : Unit} : enumerable vars = .ok u ↔ vars ≤ maxEnumerated := by
  simp only [enumerable]
  split <;> simp_all

theorem overflowsOnly_enumerable {vars : Nat} (h : vars ≤ maxEnumerated) :
    OverflowsOnly (enumerable vars) := by
  rw [(enumerable_eq_ok (u := ())).2 h]
  exact .ok ()

namespace Assignment
variable {support : List Var} {p : Assignment → Checked Bool}

theorem search?_eq_ok {r : Option Assignment} : search? support p = .ok r ↔
    support.length ≤ maxEnumerated ∧ ∃ found,
      Mask.search (fun mask => p ⟨support, mask⟩) (Nat.pow 2 support.length) 0 = .ok found ∧
        found.map (.mk support) = r := by
  simp only [search?]
  simp only [bind_eq_ok, enumerable_eq_ok, pure_eq_ok, exists_and_left]
  simp

/-- A search without a hit has tested every assignment. -/
theorem search?_eq_none (h : search? support p = .ok none) :
    ∀ mask, mask < Nat.pow 2 support.length → p ⟨support, mask⟩ = .ok false := by
  obtain ⟨_, found, hfound, hnone⟩ := search?_eq_ok.1 h
  obtain rfl : found = none := by simpa using hnone
  intro mask hmask
  exact Mask.search_eq_none hfound mask (Nat.zero_le _) (by omega)

/-- A search gives the first hit. -/
theorem search?_eq_some {a : Assignment} (h : search? support p = .ok (some a)) :
    ∃ mask, mask < Nat.pow 2 support.length ∧ a = ⟨support, mask⟩ ∧ p a = .ok true ∧
      ∀ m, m < mask → p ⟨support, m⟩ = .ok false := by
  obtain ⟨_, found, hfound, hsome⟩ := search?_eq_ok.1 h
  obtain ⟨mask, rfl, rfl⟩ := Option.map_eq_some_iff.1 hsome
  obtain ⟨_, hlt, hhit, hbefore⟩ := Mask.search_eq_some hfound
  exact ⟨mask, by omega, rfl, hhit, fun m hm => hbefore m (Nat.zero_le _) hm⟩

/-- A search over few enough variables answers if its test always does. -/
theorem exists_search? (hcap : support.length ≤ maxEnumerated)
    (hp : ∀ mask, mask < Nat.pow 2 support.length → ∃ b, p ⟨support, mask⟩ = .ok b) :
    ∃ r, search? support p = .ok r := by
  have hsearch : ∃ found,
      Mask.search (fun mask => p ⟨support, mask⟩) (Nat.pow 2 support.length) 0 = .ok found :=
    Mask.exists_search fun k _ hk => hp k (by omega)
  obtain ⟨found, hfound⟩ := hsearch
  exact ⟨_, search?_eq_ok.2 ⟨hcap, found, hfound, rfl⟩⟩

/-- What every step of a visit keeps, the visit keeps: from before mask 0 to after the last one. -/
theorem visit_induction {β : Type} {f : β → Assignment → Checked β} {motive : Nat → β → Prop}
    (hstep : ∀ m b b', motive m b → f b ⟨support, m⟩ = .ok b' → motive (m + 1) b') {b b' : β}
    (hb : motive 0 b) (h : visit support f b = .ok b') :
    motive (Nat.pow 2 support.length) b' := by
  obtain ⟨_, _, h⟩ := bind_eq_ok.1 h
  have hend := Mask.visit_induction hstep hb h
  rwa [Nat.zero_add] at hend

/-- A visit of few enough variables answers if each of its steps does. -/
theorem exists_visit {β : Type} {f : β → Assignment → Checked β}
    (hcap : support.length ≤ maxEnumerated) (hf : ∀ b a, ∃ b', f b a = .ok b') (b : β) :
    ∃ b', visit support f b = .ok b' := by
  obtain ⟨b', hb'⟩ :=
    Mask.exists_visit (fun b m => hf b ⟨support, m⟩) (Nat.pow 2 support.length) 0 b
  exact ⟨b', bind_eq_ok.2 ⟨(), enumerable_eq_ok.2 hcap, hb'⟩⟩

/-- A visit of few enough variables faults in no other way than its steps do. -/
theorem overflowsOnly_visit {β : Type} {f : β → Assignment → Checked β}
    (hcap : support.length ≤ maxEnumerated) (hf : ∀ b a, OverflowsOnly (f b a)) (b : β) :
    OverflowsOnly (visit support f b) :=
  .bind (overflowsOnly_enumerable hcap) fun _ =>
    Mask.overflowsOnly_visit (fun b m => hf b ⟨support, m⟩) _ _ b

/-- A visit of few enough variables goes over the assignments, in the order of their masks. -/
theorem visit_eq_foldlM {β : Type} (hcap : support.length ≤ maxEnumerated)
    (f : β → Assignment → Checked β) (b : β) :
    visit support f b = (assignments support).foldlM f b := by
  rw [visit, (enumerable_eq_ok (u := ())).2 hcap, assignments, List.foldlM_map,
    List.range_eq_range', ← Mask.visit_eq_foldlM]
  rfl

/-- So does a search, up to the first hit. -/
theorem search?_eq_findM? (hcap : support.length ≤ maxEnumerated)
    (p : Assignment → Checked Bool) : search? support p = (assignments support).findM? p := by
  rw [search?, (enumerable_eq_ok (u := ())).2 hcap, assignments, findM?_map,
    List.range_eq_range', ← Mask.search_eq_findM?]
  rfl

/-- A visit whose steps all answer is a fold over the assignments. -/
theorem visit_eq_foldl {β : Type} {f : β → Assignment → Checked β} {g : β → Assignment → β}
    (hcap : support.length ≤ maxEnumerated) (hf : ∀ b a, f b a = .ok (g b a)) (b : β) :
    visit support f b = .ok ((assignments support).foldl g b) := by
  have hsteps : f = fun b a => pure (g b a) := by
    funext b a
    exact hf b a
  rw [visit_eq_foldlM hcap, hsteps, List.foldlM_pure]
  rfl

section Total
variable {q : Assignment → Bool}

/-- The assignments that pass are selected, in the order of their masks. -/
theorem select_eq_filter (hcap : support.length ≤ maxEnumerated) (hp : ∀ a, p a = .ok (q a)) :
    select support p = .ok ((assignments support).filter q) := by
  have hvisit : visit support (fun found a => do return if ← p a then a :: found else found) [] =
      .ok ((assignments support).foldl (fun found a => if q a then a :: found else found) []) := by
    refine visit_eq_foldl hcap (fun found a => ?_) []
    exact bind_eq_ok.2 ⟨_, hp a, rfl⟩
  have hfold : ((assignments support).filter q).foldl (fun found a => a :: found) [] =
      ((assignments support).filter q).reverse := by simp
  rw [List.foldl_filter] at hfold
  refine bind_eq_ok.2 ⟨_, hvisit, ?_⟩
  rw [hfold, List.reverse_reverse]
  rfl

/-- The assignments that pass are counted. -/
theorem count_eq_countP (hcap : support.length ≤ maxEnumerated) (hp : ∀ a, p a = .ok (q a)) :
    count support p = .ok ((assignments support).countP q) := by
  have hvisit : count support p =
      .ok ((assignments support).foldl (fun n a => if q a then n + 1 else n) 0) := by
    refine visit_eq_foldl hcap (fun n a => ?_) 0
    exact bind_eq_ok.2 ⟨_, hp a, rfl⟩
  have hfold : ((assignments support).filter q).foldl (fun n _ => n + 1) 0 =
      (assignments support).countP q := by
    rw [List.foldl_add_const, List.countP_eq_length_filter, Nat.zero_add, Nat.one_mul]
  rw [List.foldl_filter] at hfold
  rw [hvisit, hfold]

end Total

end Assignment

/-! ### Runs of variables -/

section Run
variable {first count : Nat}

/-- The variables numbered from `first` on, `count` of them. -/
theorem Var.mem_run (hlast : first + count ≤ 0x100000000) {v : Var} :
    v ∈ (List.range' first count).filterMap Var.ofNat? ↔
      first ≤ v.id.toNat ∧ v.id.toNat < first + count := by
  rw [List.mem_filterMap]
  constructor
  · rintro ⟨n, hn, hv⟩
    obtain ⟨hlo, hhi⟩ := List.mem_range'_1.1 hn
    rw [Var.ofNat?_eq_some (by omega)] at hv
    omega
  · rintro ⟨hlo, hhi⟩
    exact ⟨v.id.toNat, List.mem_range'_1.2 ⟨hlo, hhi⟩, (Var.ofNat?_eq_some (by omega)).2 rfl⟩

theorem Var.length_run (hfirst : 0 < first) (hlast : first + count ≤ 0x100000000) :
    ((List.range' first count).filterMap Var.ofNat?).length = count := by
  induction count generalizing first with
  | zero => rfl
  | succ count ih =>
    obtain ⟨v, hv⟩ := Var.exists_ofNat? hfirst (by omega)
    rw [List.range'_succ, List.filterMap_cons_some hv, List.length_cons,
      ih (by omega) (by omega)]

end Run

theorem Var.mem_range {n : UInt32} {v : Var} : v ∈ Var.range n ↔ v.id ≤ n := by
  have hn := n.toNat_lt
  have hv : v.id.toNat ≠ 0 := fun e => v.id_ne_zero (UInt32.toNat_inj.1 e)
  rw [Var.range, Var.mem_run (by omega), UInt32.le_iff_toNat_le]
  omega

theorem Var.length_range (n : UInt32) : (Var.range n).length = n.toNat := by
  have hn := n.toNat_lt
  exact Var.length_run (by omega) (by omega)

theorem Var.ascending_range (n : UInt32) : (Var.range n).Pairwise fun x y => x.id < y.id := by
  have hn := n.toNat_lt
  refine List.Pairwise.filterMap _ ?_ (List.Pairwise.and_mem.1 (List.pairwise_lt_range' 1))
  rintro k l ⟨hk, hl, hlt⟩ x hx y hy
  have hk := List.mem_range'_1.1 hk
  have hl := List.mem_range'_1.1 hl
  rw [Var.ofNat?_eq_some (by omega)] at hx hy
  rw [UInt32.lt_iff_toNat_lt]
  omega

/-! ### Supports -/

theorem mem_insertVar {v x : Var} : ∀ {vars : List Var}, x ∈ insertVar v vars ↔ x = v ∨ x ∈ vars
  | [] => by simp [insertVar]
  | w :: rest => by
    simp only [insertVar]
    split
    · simp
    · split
      · next hv => simp [hv]
      · rw [List.mem_cons, mem_insertVar, List.mem_cons]
        exact or_left_comm

/-- A support has the variables that occur. -/
theorem mem_sortedVars {x : Var} : ∀ {vars : List Var}, x ∈ sortedVars vars ↔ x ∈ vars
  | [] => Iff.rfl
  | v :: rest => by
    show x ∈ insertVar v (sortedVars rest) ↔ _
    rw [mem_insertVar, mem_sortedVars, List.mem_cons]

theorem ascending_insertVar (v : Var) {vars : List Var}
    (h : vars.Pairwise fun x y => x.id < y.id) :
    (insertVar v vars).Pairwise fun x y => x.id < y.id := by
  induction vars with
  | nil => exact List.pairwise_singleton ..
  | cons w rest ih =>
    obtain ⟨hw, hrest⟩ := List.pairwise_cons.1 h
    simp only [insertVar]
    split
    · next hlt =>
      refine List.pairwise_cons.2 ⟨fun x hx => ?_, h⟩
      rcases List.mem_cons.1 hx with rfl | hx
      · exact hlt
      · exact UInt32.lt_trans hlt (hw x hx)
    · next hge =>
      split
      · exact h
      · next hne =>
        have hlt : w.id < v.id := by
          have hid : v.id.toNat ≠ w.id.toNat := fun e =>
            hne (Var.ext_id (UInt32.toNat_inj.1 e))
          rw [UInt32.lt_iff_toNat_lt] at hge ⊢
          omega
        refine List.pairwise_cons.2 ⟨fun x hx => ?_, ih hrest⟩
        rcases mem_insertVar.1 hx with rfl | hx
        · exact hlt
        · exact hw x hx

/-- A support ascends. -/
theorem ascending_sortedVars (vars : List Var) :
    (sortedVars vars).Pairwise fun x y => x.id < y.id := by
  induction vars with
  | nil => exact .nil
  | cons v rest ih => exact ascending_insertVar v ih

theorem nodup_of_ascending {vars : List Var} (h : vars.Pairwise fun x y => x.id < y.id) :
    vars.Nodup := by
  refine h.imp fun {x y} hlt e => ?_
  rw [e] at hlt
  exact absurd hlt (UInt32.lt_irrefl _)

theorem nodup_sortedVars (vars : List Var) : (sortedVars vars).Nodup :=
  nodup_of_ascending (ascending_sortedVars vars)

theorem Var.nodup_range (n : UInt32) : (Var.range n).Nodup :=
  nodup_of_ascending (Var.ascending_range n)

/-- Ascending variables are a sublist of every ascending list that has them. -/
theorem sublist_of_ascending {vars vars' : List Var} (h : vars.Pairwise fun x y => x.id < y.id)
    (h' : vars'.Pairwise fun x y => x.id < y.id) (hsub : vars ⊆ vars') : vars.Sublist vars' := by
  have : Std.Antisymm fun x y : Var => x.id < y.id :=
    ⟨fun x y hxy hyx => absurd (UInt32.lt_trans hxy hyx) (UInt32.lt_irrefl _)⟩
  have hperm := List.subperm_of_subset (nodup_of_ascending h) hsub
  exact List.sublist_of_subperm_of_pairwise hperm h h'

/-- A support is given by its members. -/
theorem sortedVars_congr {vars vars' : List Var} (h : ∀ x, x ∈ vars ↔ x ∈ vars') :
    sortedVars vars = sortedVars vars' := by
  have hasc := ascending_sortedVars vars
  have hasc' := ascending_sortedVars vars'
  refine (sublist_of_ascending hasc hasc' fun x hx => ?_).antisymm
    (sublist_of_ascending hasc' hasc fun x hx => ?_)
  · exact mem_sortedVars.2 ((h x).1 (mem_sortedVars.1 hx))
  · exact mem_sortedVars.2 ((h x).2 (mem_sortedVars.1 hx))

/-- A support has as many variables as occur. -/
theorem length_sortedVars (vars : List Var) : (sortedVars vars).length = vars.dedup.length := by
  refine List.Perm.length_eq ?_
  rw [List.perm_ext_iff_of_nodup (nodup_sortedVars _) vars.nodup_dedup]
  intro x
  rw [mem_sortedVars, List.mem_dedup]

/-- Distinct variables numbered up to `n` are at most `n`. -/
theorem Var.length_le_of_nodup {vars : List Var} {n : UInt32} (hdup : vars.Nodup)
    (h : ∀ x ∈ vars, x.id ≤ n) : vars.length ≤ n.toNat := by
  have hsub : vars ⊆ Var.range n := fun x hx => Var.mem_range.2 (h x hx)
  rw [← Var.length_range]
  exact (List.subperm_of_subset hdup hsub).length_le

theorem length_sortedVars_le {vars : List Var} {n : UInt32} (h : ∀ x ∈ vars, x.id ≤ n) :
    (sortedVars vars).length ≤ n.toNat :=
  Var.length_le_of_nodup (nodup_sortedVars vars) fun x hx => h x (mem_sortedVars.1 hx)

end PseudoBoolean
