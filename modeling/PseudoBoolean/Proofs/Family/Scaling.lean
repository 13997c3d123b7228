import PseudoBoolean.Proofs.Family.Bounds
import PseudoBoolean.Proofs.Family.Uniform

/-!
The scaling family is minimally infeasible.

    x1 + x2 + ... + x2n >= n + 1        more than n in all
    -x1 - x2 >= -1,  -x3 - x4 >= -1     at most one of each pair

At most one of each pair is at most `n` in all, so no assignment satisfies every row. But each row is
needed: without the first one nothing has to be true, and without that of a pair both of the pair may
be, together with the first of each other pair.
-/

namespace PseudoBoolean

/-! ### Pairs -/

namespace Family
variable {α : Type} {l : List α}

/-- A list of even length is made of the first and the second members of its pairs. -/
theorem perm_pairs : ∀ {l : List α}, l.length % 2 = 0 →
    ((pairs l).map (·.1) ++ (pairs l).map (·.2)).Perm l
  | [], _ => .refl _
  | [_], h => absurd h (by simp)
  | a :: b :: rest, h => by
    rw [List.length_cons, List.length_cons] at h
    have ih := perm_pairs (l := rest) (by omega)
    rw [pairs, List.map_cons, List.map_cons, List.cons_append]
    exact .cons a (List.perm_middle.trans (.cons b ih))

theorem length_pairs (h : l.length % 2 = 0) : 2 * (pairs l).length = l.length := by
  have hlength := (perm_pairs h).length_eq
  rw [List.length_append, List.length_map, List.length_map] at hlength
  omega

/-- A sum over a list is a sum over its pairs. -/
theorem sum_map_pairs (h : l.length % 2 = 0) (f : α → Int) :
    (l.map f).sum = ((pairs l).map fun p => f p.1 + f p.2).sum := by
  rw [← ((perm_pairs h).map f).sum_eq, List.map_append, List.sum_append, List.map_map,
    List.map_map, ← List.sum_map_add]
  rfl

theorem nodup_seconds (h : l.length % 2 = 0) (hdup : l.Nodup) : ((pairs l).map (·.2)).Nodup :=
  ((List.nodup_append.1 ((perm_pairs h).nodup_iff.2 hdup)).2).1

theorem second_notMem_firsts (h : l.length % 2 = 0) (hdup : l.Nodup) {p : α × α}
    (hp : p ∈ pairs l) : p.2 ∉ (pairs l).map (·.1) := by
  intro hfirst
  have hdisjoint := (List.nodup_append.1 ((perm_pairs h).nodup_iff.2 hdup)).2.2
  exact hdisjoint _ hfirst _ (List.mem_map_of_mem hp) rfl

end Family

/-! ### Rows -/

/-- Whether a variable is true, as a number. -/
def Valuation.bit (v : Valuation) (x : Var) : Int := if v x then 1 else 0

namespace Valuation
variable {v : Valuation} {x : Var}

theorem bit_of_true (h : v x = true) : v.bit x = 1 := if_pos h

theorem bit_nonneg (v : Valuation) (x : Var) : 0 ≤ v.bit x := by
  rw [bit]
  split <;> simp

/-- Two variables are not both true if they add up to one at most. -/
theorem bit_add_bit_le {y : Var} : v.bit x + v.bit y ≤ 1 ↔ ¬ (v x = true ∧ v y = true) := by
  simp only [bit]
  split <;> split <;> simp_all

end Valuation

namespace Family

/-- At most one of each pair is at most as many as there are pairs. -/
theorem sum_bit_le {l : List Var} (h : l.length % 2 = 0) {v : Valuation}
    (hpairs : ∀ p ∈ pairs l, ¬ (v p.1 = true ∧ v p.2 = true)) :
    (l.map v.bit).sum ≤ (pairs l).length := by
  have hbound : ∀ x ∈ (pairs l).map fun p => v.bit p.1 + v.bit p.2, x ≤ 1 := by
    rintro _ hx
    obtain ⟨p, hp, rfl⟩ := List.mem_map.1 hx
    exact Valuation.bit_add_bit_le.2 (hpairs p hp)
  have hsum := List.sum_le_card_nsmul _ 1 hbound
  rw [sum_map_pairs h]
  simpa using hsum

/-- The valuation that makes the first of each pair true, and one more variable. -/
def firstsAnd (l : List Var) (x : Var) : Valuation :=
  fun y => decide (y ∈ (pairs l).map (·.1)) || decide (y = x)

section Firsts
variable {l : List Var} (h : l.length % 2 = 0) {p q : Var × Var}
include h

/-- The first of each pair and the second of one are more than there are pairs. -/
theorem lt_sum_bit_firstsAnd (hq : q ∈ pairs l) :
    (pairs l).length < (l.map (firstsAnd l q.2).bit).sum := by
  have hfirst : ∀ p ∈ pairs l, (firstsAnd l q.2).bit p.1 = 1 := by
    intro p hp
    refine Valuation.bit_of_true ?_
    simp only [firstsAnd, Bool.or_eq_true, decide_eq_true_eq]
    exact Or.inl (List.mem_map_of_mem hp)
  have hsecond : (firstsAnd l q.2).bit q.2 = 1 := by
    refine Valuation.bit_of_true ?_
    simp [firstsAnd]
  -- every pair has its first, and one pair has its second besides
  have hlt : ((pairs l).map fun _ => (1 : Int)).sum <
      ((pairs l).map fun p => (firstsAnd l q.2).bit p.1 + (firstsAnd l q.2).bit p.2).sum := by
    refine List.sum_lt_sum _ _ (fun p hp => ?_) ⟨q, hq, ?_⟩
    · have hnonneg := (firstsAnd l q.2).bit_nonneg p.2
      rw [hfirst p hp]
      omega
    · rw [hfirst q hq, hsecond]
      decide
  rw [sum_map_pairs h]
  simpa using hlt

/-- No other pair is true as a whole. -/
theorem firstsAnd_second (hdup : l.Nodup) (hp : p ∈ pairs l) (hq : q ∈ pairs l) (hne : p ≠ q) :
    firstsAnd l q.2 p.2 = false := by
  have hsecond : p.2 ≠ q.2 := fun e => hne (List.inj_on_of_nodup_map (nodup_seconds h hdup) hp hq e)
  simp only [firstsAnd, Bool.or_eq_false_iff, decide_eq_false_iff_not]
  exact ⟨second_notMem_firsts h hdup hp, hsecond⟩

end Firsts

end Family

/-! ### Rows -/

theorem Term.value_pos {x : Var} (hx : x.InRange) (c : Int64) (v : Valuation) :
    (Term.mk c x.pos).value v = c.toInt * v.bit x := by
  rw [Term.value, Lit.holds_pos hx, Valuation.bit]
  split <;> simp

/-- Terms with equal coefficients weigh the number of variables that are true. -/
theorem Term.total_replicate (c : Int64) (v : Valuation) : ∀ {vars : List Var},
    (∀ x ∈ vars, x.InRange) →
      Term.total ((List.replicate vars.length c).zipWith (fun c x => ⟨c, x.pos⟩) vars) v =
        c.toInt * (vars.map v.bit).sum
  | [], _ => (mul_zero _).symm
  | x :: vars, hr => by
    obtain ⟨hx, hrest⟩ := List.forall_mem_cons.1 hr
    rw [List.length_cons, List.replicate_succ, List.zipWith_cons_cons, Term.total_cons,
      total_replicate c v hrest, Term.value_pos hx, List.map_cons, List.sum_cons, mul_add]

/-- Whether every valuation violates some of the rows, but each row can be left out. -/
structure Row.MinimallyInfeasible (rows : List Row) : Prop where
  violated : ∀ v, Row.allSatisfied rows v = .ok false
  minimal : ∀ k < rows.length, ∃ v, Row.allSatisfied (rows.eraseIdx k) v = .ok true

/-- Rows whose left-hand sides fit are minimally infeasible if what they say is. -/
theorem Row.minimallyInfeasible_of_holds {rows : List Row}
    (hweight : ∀ r ∈ rows, Term.weight r.terms ≤ Word.largest)
    (hviolated : ∀ v, ¬ ∀ r ∈ rows, r.Holds v)
    (hminimal : ∀ k < rows.length, ∃ v, ∀ r ∈ rows.eraseIdx k, r.Holds v) :
    MinimallyInfeasible rows := by
  constructor
  · intro v
    obtain ⟨b, hb, hiff⟩ := Row.exists_allSatisfied hweight v
    rwa [Bool.eq_false_iff.2 fun h => hviolated v (hiff.1 h)] at hb
  · intro k hk
    obtain ⟨v, hv⟩ := hminimal k hk
    obtain ⟨b, hb, hiff⟩ := Row.exists_allSatisfied
      (fun r hr => hweight r (List.mem_of_mem_eraseIdx hr)) v
    exact ⟨v, by rwa [hiff.2 hv] at hb⟩

namespace Family

section AtMostOne
variable {x y : Var} {row : Row} (h : atMostOne x y = .ok row)
include h

theorem holds_atMostOne (hx : x.InRange) (hy : y.InRange) (v : Valuation) :
    row.Holds v ↔ ¬ (v x = true ∧ v y = true) := by
  have hvalue : Term.total [⟨-1, x.pos⟩, ⟨-1, y.pos⟩] v = -(v.bit x + v.bit y) := by
    rw [Term.total_cons, Term.total_cons, Term.total_nil, Term.value_pos hx, Term.value_pos hy]
    show -1 * v.bit x + (-1 * v.bit y + 0) = _
    ring
  rw [Constraint.holds_normalize h, ← Valuation.bit_add_bit_le]
  show -1 ≤ Term.total [⟨-1, x.pos⟩, ⟨-1, y.pos⟩] v ↔ _
  rw [hvalue]
  omega

theorem weight_atMostOne : Term.weight row.terms ≤ 2 := by
  obtain ⟨row', hrow, hle⟩ := exists_atMostOne x y
  obtain rfl : row' = row := Except.ok.inj (hrow.symm.trans h)
  exact hle

end AtMostOne

/-! ### Members -/

section Member
variable {label : String} {n : Nat} {i : Instance} (h : IsScaling label n i)
include h

theorem IsScaling.length_vars : i.vars.length = 2 * n := by
  obtain ⟨count, hcount, hvars⟩ := h.vars_eq
  rw [hvars, Var.length_range, hcount]

theorem IsScaling.length_vars_mod : i.vars.length % 2 = 0 := by
  rw [h.length_vars]
  exact Nat.mul_mod_right 2 n

theorem IsScaling.length_pairs : (pairs i.vars).length = n := by
  have hpairs := Family.length_pairs h.length_vars_mod
  rw [h.length_vars] at hpairs
  omega

theorem IsScaling.length_sideRows : i.sideRows.length = n :=
  h.sideRows_eq.length_eq.symm.trans h.length_pairs

theorem IsScaling.nodup_vars : i.vars.Nodup := by
  obtain ⟨count, _, hvars⟩ := h.vars_eq
  exact hvars ▸ Var.nodup_range count

variable (hn : 2 * n ≤ 2 ^ 31 - 1)
include hn

theorem IsScaling.inRange : ∀ x ∈ i.vars, x.InRange := by
  obtain ⟨count, hcount, hvars⟩ := h.vars_eq
  intro x hx
  rw [hvars] at hx
  exact Var.inRange_of_le (Var.mem_range.1 hx) (by omega)

/-- The main constraint asks for more variables than there are pairs. -/
theorem IsScaling.holds_iff (v : Valuation) :
    i.constraint.Holds v ↔ n < (i.vars.map v.bit).sum := by
  have hvalue : i.objective.value v = (i.vars.map v.bit).sum := by
    have htotal := Term.total_replicate 1 v (h.inRange hn)
    rw [h.length_vars, ← h.coeffs_eq] at htotal
    exact htotal.trans (one_mul _)
  rw [Constraint.Holds, Instance.constraint, hvalue, h.relation_eq, h.degree_eq]
  rfl

/-- A side constraint allows its pair to be half true. -/
theorem IsScaling.holds_sideRow {k : Nat} (hk : k < i.sideRows.length)
    (hk' : k < (pairs i.vars).length) (v : Valuation) :
    i.sideRows[k].Holds v ↔
      ¬ (v (pairs i.vars)[k].1 = true ∧ v (pairs i.vars)[k].2 = true) := by
  obtain ⟨hfirst, hsecond⟩ := mem_pairs (List.getElem_mem hk')
  exact holds_atMostOne (h.sideRows_eq.get hk' hk) (h.inRange hn _ hfirst) (h.inRange hn _ hsecond) v

/-- A member has a row for its main constraint and one for each pair, and none overflows. -/
theorem IsScaling.exists_rows : ∃ row, i.constraint.normalize = .ok row ∧
    i.rows = .ok (row :: i.sideRows) ∧
    ∀ r ∈ row :: i.sideRows, Term.weight r.terms ≤ Word.largest := by
  have hone : ∀ c ∈ i.coeffs, c.toInt.natAbs ≤ 1 := by
    intro c hc
    rw [h.coeffs_eq] at hc
    rw [List.eq_of_mem_replicate hc]
    decide
  have hcoeffs := Word.weight_le hone
  rw [h.coeffs_eq, List.length_replicate, ← h.coeffs_eq] at hcoeffs
  have hdegree := h.degree_eq
  obtain ⟨row, hrow, hle⟩ : ∃ row, i.constraint.normalize = .ok row ∧ _ :=
    Instance.exists_row (by rw [Word.largest]; omega)
  refine ⟨row, hrow, bind_eq_ok.2 ⟨row, hrow, rfl⟩, List.forall_mem_cons.2 ⟨?_, fun r hr => ?_⟩⟩
  · rw [Word.largest]
    omega
  · obtain ⟨p, _, hp⟩ := exists_mem_of_forall₂ h.sideRows_eq r hr
    exact Nat.le_trans (weight_atMostOne hp) (by decide)

/-- At most one of each pair is not more than there are pairs. -/
theorem IsScaling.not_holds (v : Valuation) : ¬ i.Holds v := by
  rintro ⟨hmain, hside⟩
  have hpairs : ∀ p ∈ pairs i.vars, ¬ (v p.1 = true ∧ v p.2 = true) := by
    intro p hp
    obtain ⟨k, hk, rfl⟩ := List.getElem_of_mem hp
    have hk' : k < i.sideRows.length := h.sideRows_eq.length_eq ▸ hk
    exact (h.holds_sideRow hn hk' hk v).1 (hside _ (List.getElem_mem hk'))
  have hsum := sum_bit_le h.length_vars_mod hpairs
  rw [h.length_pairs] at hsum
  have hlt := (h.holds_iff hn v).1 hmain
  omega

/-- Nothing has to be true if the main constraint is left out. -/
theorem IsScaling.holds_sideRows : ∀ r ∈ i.sideRows, r.Holds fun _ => false := by
  intro r hr
  obtain ⟨k, hk, rfl⟩ := List.getElem_of_mem hr
  exact (h.holds_sideRow hn hk (h.sideRows_eq.length_eq ▸ hk) _).2 nofun

/-- A pair may be true as a whole if its row is left out, and every other row still holds. -/
theorem IsScaling.holds_firstsAnd {k : Nat} (hk : k < (pairs i.vars).length) :
    i.constraint.Holds (firstsAnd i.vars (pairs i.vars)[k].2) ∧
      ∀ r ∈ i.sideRows.eraseIdx k, r.Holds (firstsAnd i.vars (pairs i.vars)[k].2) := by
  constructor
  · have hlt := lt_sum_bit_firstsAnd h.length_vars_mod (List.getElem_mem hk)
    rw [h.length_pairs] at hlt
    exact (h.holds_iff hn _).2 hlt
  · intro r hr
    obtain ⟨j, hj, hne, rfl⟩ := List.mem_eraseIdx_iff_getElem.1 hr
    have hj' : j < (pairs i.vars).length := h.sideRows_eq.length_eq ▸ hj
    have hnodup : (pairs i.vars).Nodup := (nodup_seconds h.length_vars_mod h.nodup_vars).of_map
    have hother : (pairs i.vars)[j] ≠ (pairs i.vars)[k] := fun e => hne (hnodup.getElem_inj_iff.1 e)
    have hsecond := firstsAnd_second h.length_vars_mod h.nodup_vars (List.getElem_mem hj')
      (List.getElem_mem hk) hother
    refine (h.holds_sideRow hn hj hj' _).2 fun hboth => ?_
    rw [hsecond] at hboth
    exact absurd hboth.2 nofun

end Member

/-- The scaling family is minimally infeasible, whatever the number of its pairs: no assignment
satisfies all rows, and without any one of them some assignment does. So where the oracle can
enumerate the variables there is no answer to either query. -/
theorem scaling_minimally_infeasible (label : String) (n : UInt32)
    (hn : 2 * n.toNat ≤ 2 ^ 31 - 1) :
    ∃ i rows, scaling label n = .ok i ∧ i.rows = .ok rows ∧ rows.length = n.toNat + 1 ∧
      Row.MinimallyInfeasible rows ∧ (n ≤ 12 → ∀ q, i.expected q = .ok none) := by
  obtain ⟨i, hi⟩ : ∃ i, scaling label n = .ok i := exists_scaling (by omega)
  have h := isScaling_of_scaling hi
  obtain ⟨row, hrow, hrows, hweight⟩ := h.exists_rows hn
  refine ⟨i, _, hi, hrows, ?_, ?_, fun hle q => ?_⟩
  · rw [List.length_cons, h.length_sideRows]
  · refine Row.minimallyInfeasible_of_holds hweight (fun v hv => ?_) fun k hk => ?_
    · exact h.not_holds hn v ((Instance.holds_rows hrows v).1 hv)
    · -- row 0 is the main constraint, and row `k + 1` is the side constraint of pair `k`
      cases k with
      | zero => exact ⟨_, h.holds_sideRows hn⟩
      | succ k =>
        have hpair : k < (pairs i.vars).length := by
          rw [h.sideRows_eq.length_eq]
          exact Nat.lt_of_succ_lt_succ hk
        obtain ⟨hmain, hside⟩ := h.holds_firstsAnd hn hpair
        refine ⟨firstsAnd i.vars (pairs i.vars)[k].2, ?_⟩
        rw [List.eraseIdx_cons_succ, List.forall_mem_cons, Constraint.holds_normalize hrow]
        exact ⟨hmain, hside⟩
  · have hsmall := Recipe.isSmall_of_isScaling (UInt32.le_iff_toNat_le.1 hle) h
    have hvalues : i.values = ∅ := Query.values_eq_empty_iff.2 (h.not_holds hn)
    obtain ⟨best, hbest, hnone⟩ : i.Expects q none := hsmall.expects_none hvalues
    rw [hbest, Option.map_eq_none_iff.1 hnone]

theorem scaling_minimally_infeasible_sample :
    2 * (1000000 : UInt32).toNat ≤ 2 ^ 31 - 1 ∧ ∃ i rows, scaling "adder" 1000000 = .ok i ∧
      i.rows = .ok rows ∧ rows.length = 1000001 ∧ Row.MinimallyInfeasible rows := by
  have hn : 2 * (1000000 : UInt32).toNat ≤ 2 ^ 31 - 1 := by decide
  obtain ⟨i, rows, hi, hrows, hlength, hminimal, _⟩ :=
    scaling_minimally_infeasible "adder" 1000000 hn
  exact ⟨hn, i, rows, hi, hrows, hlength, hminimal⟩

end Family

end PseudoBoolean
