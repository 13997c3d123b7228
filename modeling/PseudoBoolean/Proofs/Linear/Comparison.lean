import PseudoBoolean.Proofs.Linear.Canonical
import PseudoBoolean.Proofs.Opb.Layout

/-!
Comparisons: what the row of `>=`, `=` or `<=` says of the expression it was made from.

    e <= d  ──negate──▶  -e >= -d  ──normalize──▶  Σ c · x >= -d - k,   where  -e = Σ c · x + k

`<=` turns both sides around first, and the constant of the left-hand side then moves to the right
with its sign changed. Each step keeps what the constraint says of every valuation, so the row is
satisfied exactly where the expression compares with the degree.
-/

namespace PseudoBoolean

theorem Expression.value_neg {e e' : Expression} (h : e.neg = .ok e') (v : Valuation) :
    e'.value v = -e.value v := by
  cases e with
  | raw terms =>
    obtain ⟨terms', hterms, h⟩ := bind_eq_ok.1 h
    obtain rfl := pure_eq_ok.1 h
    exact Term.total_neg (mapM_neg_coeff hterms) v
  | normal form =>
    obtain ⟨form', hform, h⟩ := bind_eq_ok.1 h
    obtain rfl := pure_eq_ok.1 h
    exact LinearForm.value_negate hform v

theorem Expression.overflowsOnly_neg (e : Expression) : OverflowsOnly e.neg := by
  cases e with
  | raw terms =>
    exact .bind (.mapM (fun _ => .bind (.checked _ _) fun _ => .pure _) _) fun _ => .pure _
  | normal form => exact .bind form.overflowsOnly_negate fun _ => .pure _

theorem Row.overflowsOnly_isSatisfied (r : Row) (v : Valuation) : OverflowsOnly (r.isSatisfied v) :=
  .bind (r.lhs.overflowsOnly_evaluate v) fun _ => .pure _

namespace Opb.Sign

/-- The row that an expression, a sign and a degree are normalized to. -/
def row (sign : Sign) (e : Expression) (degree : Int64) : Checked Row := do
  (← sign.constrain e degree).normalize

section Row
variable {sign : Sign} {e : Expression} {degree : Int64} {c : Constraint} {r : Row}

theorem holds_constrain (h : sign.constrain e degree = .ok c) (v : Valuation) :
    c.Holds v ↔ sign.Holds (e.value v) degree.toInt := by
  cases sign with
  | geq =>
    obtain rfl := Except.ok.inj h
    exact Iff.rfl
  | eq =>
    obtain rfl := Except.ok.inj h
    exact Iff.rfl
  | leq =>
    obtain ⟨lhs, hlhs, h⟩ := bind_eq_ok.1 h
    obtain ⟨negated, hnegated, h⟩ := bind_eq_ok.1 h
    obtain rfl := pure_eq_ok.1 h
    have hdegree := Word.neg_eq_ok_iff.1 hnegated
    simp only [Constraint.Holds, Relation.Holds, Sign.Holds, Expression.value_neg hlhs, hdegree]
    exact neg_le_neg_iff

theorem overflowsOnly_row (sign : Sign) (e : Expression) (degree : Int64) :
    OverflowsOnly (sign.row e degree) := by
  refine .bind ?_ fun c => c.overflowsOnly_normalize
  cases sign with
  | geq => exact .ok _
  | eq => exact .ok _
  | leq => exact .bind e.overflowsOnly_neg fun _ => .bind (.checked _ _) fun _ => .pure _

theorem holds_row (h : sign.row e degree = .ok r) (v : Valuation) :
    r.Holds v ↔ sign.Holds (e.value v) degree.toInt := by
  obtain ⟨c, hc, hr⟩ := bind_eq_ok.1 h
  exact (Constraint.holds_normalize hr v).trans (holds_constrain hc v)

/-- Terms that fit beside the degree have a row, and it fits too. -/
theorem exists_row {terms : List Term} (sign : Sign)
    (h : Term.weight terms + degree.toInt.natAbs ≤ Word.largest) :
    ∃ r, sign.row (.raw terms) degree = .ok r ∧ Term.weight r.terms ≤ Word.largest := by
  obtain ⟨terms', relation, degree', hc, hfits, _⟩ := exists_constrain sign h
  obtain ⟨r, hr, hweight⟩ := Constraint.exists_normalize hfits
  exact ⟨r, bind_eq_ok.2 ⟨_, hc, hr⟩, by omega⟩

end Row

/-- Terms that fit beside the degree make a row that every valuation decides as the sum of the true
terms compares with the degree. For every expression, collected or not and whatever its constant, the
row says the same unless an overflow stops it. -/
theorem row_compares (sign : Sign) (degree : Int64) :
    (∀ terms, Term.weight terms + degree.toInt.natAbs ≤ Word.largest →
      ∃ r, sign.row (.raw terms) degree = .ok r ∧
        ∀ v, ∃ lhs b, (Expression.raw terms).evaluate v = .ok lhs ∧ r.isSatisfied v = .ok b ∧
          (b = true ↔ sign.Holds lhs.toInt degree.toInt)) ∧
    ∀ e v,
      (∃ op, (sign.row e degree >>= fun r => r.isSatisfied v) = .error (.overflow op)) ∨
      ∃ b, (sign.row e degree >>= fun r => r.isSatisfied v) = .ok b ∧
        (b = true ↔ sign.Holds (e.value v) degree.toInt) ∧
        ∀ lhs, e.evaluate v = .ok lhs → lhs.toInt = e.value v := by
  constructor
  · intro terms hfits
    obtain ⟨r, hr, hweight⟩ := exists_row sign hfits
    refine ⟨r, hr, fun v => ?_⟩
    have hterms : Term.weight terms ≤ Word.largest := by omega
    obtain ⟨lhs, hlhs, hvalue⟩ := Expression.exists_evaluate_raw hterms v
    obtain ⟨b, hb, hiff⟩ := Row.exists_isSatisfied hweight v
    refine ⟨lhs, b, hlhs, hb, hiff.trans ?_⟩
    rw [hvalue]
    exact holds_row hr v
  · intro e v
    cases hrun : sign.row e degree >>= fun r => r.isSatisfied v with
    | error f =>
      have honly := (overflowsOnly_row sign e degree).bind fun r => r.overflowsOnly_isSatisfied v
      obtain ⟨op, rfl⟩ := honly f hrun
      exact .inl ⟨op, rfl⟩
    | ok b =>
      obtain ⟨r, hr, hb⟩ := bind_eq_ok.1 hrun
      have hiff := (Row.isSatisfied_eq_ok hb).trans (holds_row hr v)
      exact .inr ⟨b, rfl, hiff, fun lhs hlhs => Expression.evaluate_eq_ok hlhs⟩

theorem row_compares_sample : ∃ r, leq.row (.raw Term.sampleSum) 5 = .ok r ∧
    ∀ v, ∃ lhs b, (Expression.raw Term.sampleSum).evaluate v = .ok lhs ∧ r.isSatisfied v = .ok b ∧
      (b = true ↔ leq.Holds lhs.toInt (5 : Int64).toInt) :=
  (row_compares leq 5).1 Term.sampleSum (by decide)

/-- `4 x1 - 2 x2 + 2 <= 5`. -/
example : leq.row (.normal ⟨[⟨4, x₁.pos⟩, ⟨-2, x₂.pos⟩], 2⟩) 5 =
    .ok (.ofTerms [⟨-4, x₁.pos⟩, ⟨2, x₂.pos⟩] .geq (-3)) := by
  decide

end Opb.Sign

end PseudoBoolean
