import PseudoBoolean.Proofs.Linear.Canonical

/-!
Arithmetic trees: sums, differences and negations of term lists.

A node may be marked, and its linear form is then taken as soon as the node is computed. While the
absolute coefficients of the leaves sum to a word at most, no node overflows and each stands for the
integer that its subtree computes. A normal form is determined by its values, so the form at the
root is the same wherever the marks are (`Tree.build_normalizes`).
-/

namespace PseudoBoolean

/-! ### Bounded expressions -/

/-- Whether an expression in range has the values `value`, and neither they nor the absolute
coefficients in sum nor the constant exceed a bound. -/
structure Expression.Stands (e : Expression) (bound : Nat) (value : Valuation → Int) : Prop where
  inRange : e.InRange
  value_eq : ∀ v, e.value v = value v
  value_le : ∀ v, (value v).natAbs ≤ bound
  parts_le : match e with
    | .raw terms => Term.weight terms ≤ bound
    | .normal form => Term.weight form.terms ≤ bound ∧ form.offset.toInt.natAbs ≤ bound

theorem LinearForm.IsNormal.value_eq_total {f : LinearForm} (h : f.IsNormal) (v : Valuation) :
    f.value v = Term.total f.terms v + f.offset.toInt :=
  LinearForm.value_collect (h.collect f.offset) v

theorem Term.total_append (terms terms' : List Term) (v : Valuation) :
    Term.total (terms ++ terms') v = Term.total terms v + Term.total terms' v := by
  simp [Term.total]

theorem LinearForm.IsNormal.value_plus {f g h : LinearForm} (hf : f.IsNormal) (hg : g.IsNormal)
    (hsum : f.plus g = .ok h) (v : Valuation) : h.value v = f.value v + g.value v := by
  obtain ⟨offset, hadd, hcollect⟩ := bind_eq_ok.1 hsum
  have hoffset := Word.add_eq_ok_iff.1 hadd
  rw [LinearForm.value_collect hcollect, Term.total_append, hf.value_eq_total, hg.value_eq_total]
  omega

namespace Expression.Stands
variable {e e' : Expression} {f g : LinearForm} {bound bound' : Nat} {value value' : Valuation → Int}

theorem raw {terms : List Term} (hr : ∀ t ∈ terms, t.lit.InRange) :
    (Expression.raw terms).Stands (Term.weight terms) (Term.total terms) :=
  ⟨hr, fun _ => rfl, Term.natAbs_total_le terms, Nat.le_refl _⟩

/-- The form of an expression stands for what the expression stands for. -/
theorem exists_normalize (h : e.Stands bound value) (hbound : bound ≤ Word.largest) :
    ∃ f, e.normalize = .ok f ∧ (Expression.normal f).Stands bound value := by
  cases e with
  | raw terms =>
    have hweight : Term.weight terms ≤ bound := h.parts_le
    have hmoved := Term.weight_negatives_le terms
    have hzero : (0 : Int64).toInt.natAbs = 0 := rfl
    have hfits : (0 : Int64).toInt.natAbs + Term.weight (Term.negatives terms) ≤ Word.largest := by
      omega
    obtain ⟨f, hf, hterms, hoffset⟩ :=
      LinearForm.exists_collect_of_negatives (Nat.le_trans hweight hbound) hfits
    refine ⟨f, hf, LinearForm.isNormal_collect h.inRange hf, fun v => ?_, h.value_le, ?_, ?_⟩
    · exact (value_normalize (e := .raw terms) hf v).trans (h.value_eq v)
    · exact Nat.le_trans hterms hweight
    · omega
  | normal form => exact ⟨form, rfl, h⟩

/-- Forms can be added: positive literals leave the constants' sum alone. -/
theorem exists_plus (hf : (Expression.normal f).Stands bound value)
    (hg : (Expression.normal g).Stands bound' value') (hbound : bound + bound' ≤ Word.largest) :
    ∃ s, f.plus g = .ok s ∧
      (Expression.normal s).Stands (bound + bound') fun v => value v + value' v := by
  have hfnormal : f.IsNormal := hf.inRange
  have hgnormal : g.IsNormal := hg.inRange
  obtain ⟨hfweight, hfoffset⟩ := hf.parts_le
  obtain ⟨hgweight, hgoffset⟩ := hg.parts_le
  obtain ⟨offset, hadd, hoffset⟩ := Word.exists_add (a := f.offset) (c := g.offset) (by omega)
  have hpos : ∀ t ∈ f.terms ++ g.terms, t.lit.isPositive = true := fun t ht =>
    (List.mem_append.1 ht).elim (hfnormal.positive t) (hgnormal.positive t)
  have hweight : Term.weight (f.terms ++ g.terms) ≤ bound + bound' := by
    rw [Term.weight_append]
    omega
  have hmoved : Term.weight (Term.negatives (f.terms ++ g.terms)) = 0 := by
    rw [Term.negatives_of_positive hpos, Term.weight_nil]
  have hfits : offset.toInt.natAbs + Term.weight (Term.negatives (f.terms ++ g.terms)) ≤
      Word.largest := by omega
  obtain ⟨s, hs, hterms, hle⟩ :=
    LinearForm.exists_collect_of_negatives (Nat.le_trans hweight hbound) hfits
  have hplus : f.plus g = .ok s := bind_eq_ok.2 ⟨offset, hadd, hs⟩
  refine ⟨s, hplus, ?_, fun v => ?_, fun v => ?_, ?_, ?_⟩
  · exact hfnormal.plus hgnormal hplus
  · have hv : f.value v = value v := hf.value_eq v
    have hv' : g.value v = value' v := hg.value_eq v
    have hsum : s.value v = f.value v + g.value v := hfnormal.value_plus hgnormal hplus v
    rw [Expression.value, hsum, hv, hv']
  · have hv := hf.value_le v
    have hv' := hg.value_le v
    omega
  · exact Nat.le_trans hterms hweight
  · omega

/-- Expressions can be added, in either representation. -/
theorem exists_add (h : e.Stands bound value) (h' : e'.Stands bound' value')
    (hbound : bound + bound' ≤ Word.largest) :
    ∃ s, e.add e' = .ok s ∧ s.Stands (bound + bound') fun v => value v + value' v := by
  have hforms : ∃ s, (do
      let left ← e.normalize
      let right ← e'.normalize
      return .normal (← left.plus right) : Checked Expression) = .ok s ∧
      s.Stands (bound + bound') fun v => value v + value' v := by
    obtain ⟨f, hf, hfstands⟩ := h.exists_normalize (by omega)
    obtain ⟨g, hg, hgstands⟩ := h'.exists_normalize (by omega)
    obtain ⟨s, hs, hstands⟩ := hfstands.exists_plus hgstands hbound
    exact ⟨.normal s, bind_eq_ok.2 ⟨f, hf, bind_eq_ok.2 ⟨g, hg, bind_eq_ok.2 ⟨s, hs, rfl⟩⟩⟩,
      hstands⟩
  cases e with
  | normal form => exact hforms
  | raw terms =>
    cases e' with
    | normal form => exact hforms
    | raw terms' =>
      refine ⟨.raw (terms ++ terms'), rfl, fun t ht => ?_, fun v => ?_, fun v => ?_, ?_⟩
      · exact (List.mem_append.1 ht).elim (h.inRange t) (h'.inRange t)
      · have hv : Term.total terms v = value v := h.value_eq v
        have hv' : Term.total terms' v = value' v := h'.value_eq v
        rw [Expression.value, Term.total_append, hv, hv']
      · have hv := h.value_le v
        have hv' := h'.value_le v
        omega
      · have hweight : Term.weight terms ≤ bound := h.parts_le
        have hweight' : Term.weight terms' ≤ bound' := h'.parts_le
        show Term.weight (terms ++ terms') ≤ bound + bound'
        rw [Term.weight_append]
        omega

/-- Expressions can be negated. -/
theorem exists_neg (h : e.Stands bound value) (hbound : bound ≤ Word.largest) :
    ∃ n, e.neg = .ok n ∧ n.Stands bound fun v => -value v := by
  have hle : ∀ v, (-value v).natAbs ≤ bound := fun v => by
    rw [Int.natAbs_neg]
    exact h.value_le v
  cases e with
  | raw terms =>
    have hweight : Term.weight terms ≤ bound := h.parts_le
    obtain ⟨terms', hterms, hweight'⟩ := Term.exists_mapM_neg (Nat.le_trans hweight hbound)
    have hneg := mapM_neg_coeff hterms
    refine ⟨.raw terms', bind_eq_ok.2 ⟨terms', hterms, rfl⟩, fun u hu => ?_, fun v => ?_, hle, ?_⟩
    · obtain ⟨t, ht, hlit, _⟩ := exists_mem_of_forall₂ hneg u hu
      rw [hlit]
      exact h.inRange t ht
    · have hv : Term.total terms v = value v := h.value_eq v
      rw [Expression.value, Term.total_neg hneg, hv]
    · show Term.weight terms' ≤ bound
      omega
  | normal form =>
    have hnormal : form.IsNormal := h.inRange
    obtain ⟨hweight, hoffset⟩ := h.parts_le
    obtain ⟨terms', hterms, hweight'⟩ := Term.exists_mapM_neg (Nat.le_trans hweight hbound)
    have hfits : (-form.offset.toInt).natAbs ≤ Word.largest := by omega
    obtain ⟨offset, hneg, hvalue⟩ := Word.exists_checked .negate hfits
    have hnegate : form.negate = .ok ⟨terms', offset⟩ :=
      bind_eq_ok.2 ⟨terms', hterms, bind_eq_ok.2 ⟨offset, hneg, rfl⟩⟩
    refine ⟨.normal ⟨terms', offset⟩, bind_eq_ok.2 ⟨_, hnegate, rfl⟩, hnormal.negate hnegate,
      fun v => ?_, hle, ?_, ?_⟩
    · have hv : form.value v = value v := h.value_eq v
      rw [Expression.value, LinearForm.value_negate hnegate, hv]
    · exact hweight'.trans_le hweight
    · show offset.toInt.natAbs ≤ bound
      omega

/-- Bounded expressions can be evaluated. -/
theorem exists_evaluate (h : e.Stands bound value) (hbound : bound ≤ Word.largest)
    (v : Valuation) : ∃ a, e.evaluate v = .ok a ∧ a.toInt = value v := by
  cases e with
  | raw terms =>
    obtain ⟨a, ha, hvalue⟩ := exists_evaluate_raw (Nat.le_trans h.parts_le hbound) v
    exact ⟨a, ha, hvalue.trans (h.value_eq v)⟩
  | normal form =>
    have hv : form.value v = value v := h.value_eq v
    have hle : (form.value v).natAbs ≤ Word.largest := hv ▸ Nat.le_trans (h.value_le v) hbound
    obtain ⟨a, ha, hvalue⟩ :=
      LinearForm.exists_evaluate (Nat.le_trans h.parts_le.1 hbound) hle
    exact ⟨a, ha, hvalue.trans hv⟩

end Expression.Stands

/-! ### Trees -/

/-- Arithmetic over term lists, with marks where the linear form is taken. -/
inductive Tree where
  | leaf (terms : List Term)
  | add (left right : Tree)
  | sub (left right : Tree)
  | neg (tree : Tree)
  | sum (trees : List Tree)
  | marked (tree : Tree)

namespace Tree

mutual

/-- The expression of a tree, computed from the leaves up. -/
def build : Tree → Checked Expression
  | leaf terms => .ok (.raw terms)
  | add left right => do (← left.build).add (← right.build)
  | sub left right => do (← left.build).sub (← right.build)
  | neg tree => do (← tree.build).neg
  | sum trees => do Expression.sum (← buildAll trees)
  | marked tree => do return .normal (← (← tree.build).normalize)

/-- The expressions of some trees, from left to right. -/
def buildAll : List Tree → Checked (List Expression)
  | [] => return []
  | tree :: trees => do return (← tree.build) :: (← buildAll trees)

end

mutual

/-- The integer that a tree computes, its leaves read literally. -/
def value (v : Valuation) : Tree → Int
  | leaf terms => Term.total terms v
  | add left right => left.value v + right.value v
  | sub left right => left.value v - right.value v
  | neg tree => -tree.value v
  | sum trees => total v trees
  | marked tree => tree.value v

def total (v : Valuation) : List Tree → Int
  | [] => 0
  | tree :: trees => tree.value v + total v trees

end

mutual

/-- The terms of all leaves. -/
def terms : Tree → List Term
  | leaf terms => terms
  | add left right => left.terms ++ right.terms
  | sub left right => left.terms ++ right.terms
  | neg tree => tree.terms
  | sum trees => termsOfAll trees
  | marked tree => tree.terms

def termsOfAll : List Tree → List Term
  | [] => []
  | tree :: trees => tree.terms ++ termsOfAll trees

end

mutual

/-- The tree without its marks. -/
def plain : Tree → Tree
  | leaf terms => leaf terms
  | add left right => add left.plain right.plain
  | sub left right => sub left.plain right.plain
  | neg tree => neg tree.plain
  | sum trees => sum (plainAll trees)
  | marked tree => tree.plain

def plainAll : List Tree → List Tree
  | [] => []
  | tree :: trees => tree.plain :: plainAll trees

end

/-- The linear form at the root of a tree. -/
def form (tree : Tree) : Checked LinearForm := do (← tree.build).normalize

/-! ### Marks change neither the leaves nor the integer -/

mutual

theorem terms_plain : ∀ tree : Tree, tree.plain.terms = tree.terms
  | leaf terms => rfl
  | add left right => by rw [plain, terms, terms, terms_plain left, terms_plain right]
  | sub left right => by rw [plain, terms, terms, terms_plain left, terms_plain right]
  | neg tree => by rw [plain, terms, terms, terms_plain tree]
  | sum trees => by rw [plain, terms, terms, termsOfAll_plainAll trees]
  | marked tree => by rw [plain, terms, terms_plain tree]

theorem termsOfAll_plainAll : ∀ trees : List Tree, termsOfAll (plainAll trees) = termsOfAll trees
  | [] => rfl
  | tree :: trees => by
    rw [plainAll, termsOfAll, termsOfAll, terms_plain tree, termsOfAll_plainAll trees]

end

mutual

theorem value_plain (v : Valuation) : ∀ tree : Tree, tree.plain.value v = tree.value v
  | leaf terms => rfl
  | add left right => by rw [plain, value, value, value_plain v left, value_plain v right]
  | sub left right => by rw [plain, value, value, value_plain v left, value_plain v right]
  | neg tree => by rw [plain, value, value, value_plain v tree]
  | sum trees => by rw [plain, value, value, total_plainAll v trees]
  | marked tree => by rw [plain, value, value_plain v tree]

theorem total_plainAll (v : Valuation) : ∀ trees : List Tree,
    total v (plainAll trees) = total v trees
  | [] => rfl
  | tree :: trees => by rw [plainAll, total, total, value_plain v tree, total_plainAll v trees]

end

/-! ### Every node is bounded by its leaves -/

mutual

/-- A tree is computed, and stands for its integer within the weight of its leaves. -/
theorem exists_build : ∀ tree : Tree, (∀ t ∈ tree.terms, t.lit.InRange) →
    Term.weight tree.terms ≤ Word.largest → ∃ e, tree.build = .ok e ∧
      e.Stands (Term.weight tree.terms) fun v => tree.value v
  | leaf ts, hr, _ => ⟨.raw ts, rfl, .raw hr⟩
  | add left right, hr, hfits => by
    rw [terms, List.forall_mem_append] at hr
    rw [terms, Term.weight_append] at hfits ⊢
    obtain ⟨e, he, hstands⟩ := exists_build left hr.1 (by omega)
    obtain ⟨e', he', hstands'⟩ := exists_build right hr.2 (by omega)
    obtain ⟨s, hs, hsum⟩ := hstands.exists_add hstands' hfits
    exact ⟨s, bind_eq_ok.2 ⟨e, he, bind_eq_ok.2 ⟨e', he', hs⟩⟩, hsum⟩
  | sub left right, hr, hfits => by
    rw [terms, List.forall_mem_append] at hr
    rw [terms, Term.weight_append] at hfits ⊢
    obtain ⟨e, he, hstands⟩ := exists_build left hr.1 (by omega)
    obtain ⟨e', he', hstands'⟩ := exists_build right hr.2 (by omega)
    obtain ⟨n, hn, hneg⟩ := hstands'.exists_neg (by omega)
    obtain ⟨s, hs, hsum⟩ := hstands.exists_add hneg hfits
    exact ⟨s, bind_eq_ok.2 ⟨e, he, bind_eq_ok.2 ⟨e', he', bind_eq_ok.2 ⟨n, hn, hs⟩⟩⟩, hsum⟩
  | neg tree, hr, hfits => by
    rw [terms] at hr hfits ⊢
    obtain ⟨e, he, hstands⟩ := exists_build tree hr hfits
    obtain ⟨n, hn, hneg⟩ := hstands.exists_neg hfits
    exact ⟨n, bind_eq_ok.2 ⟨e, he, hn⟩, hneg⟩
  | sum trees, hr, hfits => by
    rw [terms] at hr hfits ⊢
    have hnone : ∀ t ∈ ([] : List Term), t.lit.InRange := nofun
    have hempty : Expression.empty.Stands 0 fun _ => 0 := .raw hnone
    obtain ⟨es, s, hes, hs, hstands⟩ := exists_foldlM trees hempty hr (by omega)
    refine ⟨s, bind_eq_ok.2 ⟨es, hes, hs⟩, ?_⟩
    simpa [value] using hstands
  | marked tree, hr, hfits => by
    rw [terms] at hr hfits ⊢
    obtain ⟨e, he, hstands⟩ := exists_build tree hr hfits
    obtain ⟨f, hf, hnormal⟩ := hstands.exists_normalize hfits
    exact ⟨.normal f, bind_eq_ok.2 ⟨e, he, bind_eq_ok.2 ⟨f, hf, rfl⟩⟩, hnormal⟩

/-- Trees are computed and added to a bounded expression, one after another. -/
theorem exists_foldlM : ∀ (trees : List Tree) {acc : Expression} {bound : Nat}
    {accValue : Valuation → Int}, acc.Stands bound accValue →
    (∀ t ∈ termsOfAll trees, t.lit.InRange) →
    bound + Term.weight (termsOfAll trees) ≤ Word.largest → ∃ es s,
      buildAll trees = .ok es ∧ es.foldlM Expression.add acc = .ok s ∧
      s.Stands (bound + Term.weight (termsOfAll trees)) fun v => accValue v + total v trees
  | [], acc, bound, accValue, hacc, _, _ => by
    refine ⟨[], acc, rfl, rfl, ?_⟩
    simpa [termsOfAll, total] using hacc
  | tree :: trees, acc, bound, accValue, hacc, hr, hfits => by
    rw [termsOfAll, List.forall_mem_append] at hr
    rw [termsOfAll, Term.weight_append] at hfits ⊢
    obtain ⟨e, he, hstands⟩ := exists_build tree hr.1 (by omega)
    obtain ⟨next, hnext, hsum⟩ := hacc.exists_add hstands (by omega)
    obtain ⟨es, s, hes, hs, hall⟩ := exists_foldlM trees hsum hr.2 (by omega)
    refine ⟨e :: es, s, bind_eq_ok.2 ⟨e, he, bind_eq_ok.2 ⟨es, hes, rfl⟩⟩,
      bind_eq_ok.2 ⟨next, hnext, hs⟩, ?_⟩
    simpa [total, Nat.add_assoc, Int.add_assoc] using hall

end

/-! ### The form at the root -/

/-- A marked node that was computed is the form of the tree under the mark. -/
theorem exists_form_of_marked {tree : Tree} {e : Expression} (h : (marked tree).build = .ok e) :
    ∃ f, tree.form = .ok f ∧ e = .normal f := by
  rw [build] at h
  obtain ⟨e', he', h⟩ := bind_eq_ok.1 h
  obtain ⟨f, hf, h⟩ := bind_eq_ok.1 h
  exact ⟨f, bind_eq_ok.2 ⟨e', he', hf⟩, (pure_eq_ok.1 h).symm⟩

/-- Wherever linear forms are taken, a tree whose leaves fit a word is computed, evaluates to its
integer and has one linear form, which is the sum of the forms of two subtrees that it adds and the
negation of the form of one that it negates. -/
theorem build_normalizes (tree : Tree) (hr : ∀ t ∈ tree.terms, t.lit.InRange)
    (hfits : Term.weight tree.terms ≤ Word.largest) :
    ∃ f, (∀ other : Tree, other.plain = tree.plain → ∃ e, other.build = .ok e ∧
        e.normalize = .ok f ∧
        ∀ v, ∃ a, e.evaluate v = .ok a ∧ f.evaluate v = .ok a ∧ a.toInt = tree.value v) ∧
      (∀ left right, tree = add left right → ∃ g h, left.form = .ok g ∧ right.form = .ok h ∧
        g.plus h = .ok f) ∧
      (∀ operand, tree = neg operand → ∃ g, operand.form = .ok g ∧ g.negate = .ok f) := by
  -- every choice of marks computes a form that stands for the same values
  have hcomputes : ∀ other : Tree, other.plain = tree.plain → ∃ e g, other.build = .ok e ∧
      e.normalize = .ok g ∧ e.Stands (Term.weight tree.terms) (fun v => tree.value v) ∧
      (Expression.normal g).Stands (Term.weight tree.terms) fun v => tree.value v := by
    intro other hplain
    have hterms : other.terms = tree.terms := by
      rw [← terms_plain other, hplain, terms_plain]
    have hvalue : ∀ v, other.value v = tree.value v := fun v => by
      rw [← value_plain v other, hplain, value_plain]
    obtain ⟨e, he, hstands⟩ := other.exists_build (hterms ▸ hr) (hterms ▸ hfits)
    simp only [hterms, hvalue] at hstands
    obtain ⟨g, hg, hnormal⟩ := hstands.exists_normalize hfits
    exact ⟨e, g, he, hg, hstands, hnormal⟩
  obtain ⟨_, f, _, _, _, hf⟩ := hcomputes tree rfl
  have hall : ∀ other : Tree, other.plain = tree.plain → ∃ e, other.build = .ok e ∧
      e.normalize = .ok f ∧
      ∀ v, ∃ a, e.evaluate v = .ok a ∧ f.evaluate v = .ok a ∧ a.toInt = tree.value v := by
    intro other hplain
    obtain ⟨e, g, he, hg, hstands, hnormal⟩ := hcomputes other hplain
    have hgf : g = f := hnormal.inRange.eq_of_value hf.inRange fun v =>
      (hnormal.value_eq v).trans (hf.value_eq v).symm
    refine ⟨e, he, hgf ▸ hg, fun v => ?_⟩
    obtain ⟨a, ha, hvalue⟩ := hstands.exists_evaluate hfits v
    obtain ⟨b, hb, hvalue'⟩ := hf.exists_evaluate hfits v
    obtain rfl : a = b := Int64.toInt_inj.1 (hvalue.trans hvalue'.symm)
    exact ⟨a, ha, hb, hvalue⟩
  refine ⟨f, hall, ?_, ?_⟩
  · rintro left right rfl
    obtain ⟨e, he, hef, _⟩ := hall (add (marked left) (marked right)) (by simp only [plain])
    rw [build] at he
    obtain ⟨el, hel, he⟩ := bind_eq_ok.1 he
    obtain ⟨er, her, he⟩ := bind_eq_ok.1 he
    obtain ⟨g, hg, rfl⟩ := exists_form_of_marked hel
    obtain ⟨h, hh, rfl⟩ := exists_form_of_marked her
    have hadd : (do return .normal (← g.plus h) : Checked Expression) = .ok e := he
    obtain ⟨s, hs, he⟩ := bind_eq_ok.1 hadd
    obtain rfl := pure_eq_ok.1 he
    obtain rfl : s = f := Except.ok.inj hef
    exact ⟨g, h, hg, hh, hs⟩
  · rintro operand rfl
    obtain ⟨e, he, hef, _⟩ := hall (neg (marked operand)) (by simp only [plain])
    rw [build] at he
    obtain ⟨eo, heo, he⟩ := bind_eq_ok.1 he
    obtain ⟨g, hg, rfl⟩ := exists_form_of_marked heo
    obtain ⟨n, hn, he⟩ := bind_eq_ok.1 he
    obtain rfl := pure_eq_ok.1 he
    obtain rfl : n = f := Except.ok.inj hef
    exact ⟨g, hg, hn⟩

/-- `(3 ~x1 + x2) - sum(2 x1, -(5 ~x2), x3 - x3)`, with marks on the first operand, on one child
and on the child's difference. -/
def sampleTree : Tree :=
  sub (marked (leaf [⟨3, x₁.negative⟩, ⟨1, x₂.pos⟩]))
    (sum [leaf [⟨2, x₁.pos⟩], marked (neg (leaf [⟨5, x₂.negative⟩])),
      marked (sub (leaf [⟨1, x₃.pos⟩]) (leaf [⟨1, x₃.pos⟩]))])

theorem build_normalizes_sample :
    ∃ f, (∀ other : Tree, other.plain = sampleTree.plain → ∃ e, other.build = .ok e ∧
        e.normalize = .ok f ∧
        ∀ v, ∃ a, e.evaluate v = .ok a ∧ f.evaluate v = .ok a ∧ a.toInt = sampleTree.value v) ∧
      (∀ left right, sampleTree = add left right → ∃ g h, left.form = .ok g ∧ right.form = .ok h ∧
        g.plus h = .ok f) ∧
      (∀ operand, sampleTree = neg operand → ∃ g, operand.form = .ok g ∧ g.negate = .ok f) :=
  build_normalizes sampleTree (by decide) (by decide)

example : sampleTree.form = .ok ⟨[⟨-5, x₁.pos⟩, ⟨-4, x₂.pos⟩], 8⟩ := by decide

end Tree

end PseudoBoolean
