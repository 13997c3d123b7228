import PseudoBoolean.Proofs.Cnf.Rows
import PseudoBoolean.Proofs.Opb.RoundTrip
import PseudoBoolean.Proofs.Opb.Statement

/-!
Whatever is built of literals in range is normal.

Expressions, forms, constraints and rows are built of each other by the operations of
`Built.Reachable`. Collecting makes a normal form of terms in range, and no other operation leaves
the normal forms, so every form that is reached is normal (`Built.isSound_of_reachable`). A normal
form is collected to itself and ends in its largest variable; a row of one is normalized to itself.
-/

namespace PseudoBoolean

namespace Opb

/-! ### Texts -/

/-- A statement whose form or row is normal. -/
def Statement.IsNormal : Statement → Prop
  | objective form => form.IsNormal
  | row r => r.IsNormal

theorem inRange_constrain {sign : Sign} {e : Expression} {degree : Int64} {c : Constraint}
    (he : e.InRange) (h : sign.constrain e degree = .ok c) : c.lhs.InRange := by
  cases sign with
  | geq =>
    obtain rfl := Except.ok.inj h
    exact he
  | eq =>
    obtain rfl := Except.ok.inj h
    exact he
  | leq => exact Expression.inRange_leq he h

/-- What is computed from terms in range is normal. -/
theorem isNormal_of_compute {written : Written} {statement : Statement}
    (hr : ∀ t ∈ written.terms, t.lit.InRange) (h : written.compute = .ok statement) :
    statement.IsNormal := by
  cases written with
  | objective terms =>
    obtain ⟨form, hform, h⟩ := bind_eq_ok.1 h
    obtain rfl := pure_eq_ok.1 h
    exact Expression.isNormal_normalize (e := .raw terms) hr hform
  | row terms sign degree =>
    obtain ⟨c, hc, h⟩ := bind_eq_ok.1 h
    obtain ⟨r, hrow, h⟩ := bind_eq_ok.1 h
    obtain rfl := pure_eq_ok.1 h
    exact Constraint.isNormal_normalize (inRange_constrain (e := .raw terms) hr hc) hrow

/-- A text that names variables in range is read as normal rows and a normal objective. -/
theorem isNormal_of_parse {text : String} {f : Opb} (hr : NamesInRange text)
    (h : parse text = .ok f) : f.IsNormal := by
  obtain ⟨lines, hlines, hrows, hobjective⟩ := isComputed_of_parse h
  have hnormal : ∀ s, IsComputed lines s → s.IsNormal := by
    rintro s ⟨first, words, written, hpiece, hread, hcompute⟩
    refine isNormal_of_compute (fun t ht => ?_) hcompute
    obtain ⟨coeff, _, literal, hliteral, hlit⟩ := exists_token_of_readWritten hread t ht
    exact inRange_of_readLit (hr lines hlines literal (mem_of_mem_splitOnP hpiece hliteral)) hlit
  exact ⟨fun r hrow => hnormal _ (hrows r hrow), fun g hg => hnormal _ (hobjective g hg)⟩

end Opb

/-! ### What can be built -/

/-- An expression, a form, a constraint or a row. -/
inductive Built where
  | expression (e : Expression)
  | form (f : LinearForm)
  | constraint (c : Constraint)
  | row (r : Row)

namespace Built

/-- What some sequence of operations on literals in range gives, where none of them faults. -/
inductive Reachable : Built → Prop
  -- lists of terms
  | terms {ts} (hr : ∀ t ∈ ts, t.lit.InRange) : Reachable (expression (.raw ts))
  | weightedSum {coeffs vars e} (hr : ∀ x ∈ vars, x.InRange)
      (h : Expression.weightedSum coeffs vars = .ok e) : Reachable (expression e)
  | timesLit {coeff l} (hr : l.InRange) : Reachable (expression (.ofTerm coeff l))
  | timesVar {coeff} {x : Var} (hr : x.InRange) : Reachable (expression (.ofTerm coeff x.pos))
  -- arithmetic on expressions
  | add {e e' s} (he : Reachable (expression e)) (he' : Reachable (expression e'))
      (h : e.add e' = .ok s) : Reachable (expression s)
  | sub {e e' s} (he : Reachable (expression e)) (he' : Reachable (expression e'))
      (h : e.sub e' = .ok s) : Reachable (expression s)
  | neg {e s} (he : Reachable (expression e)) (h : e.neg = .ok s) : Reachable (expression s)
  | sum {es s} (hes : ∀ e ∈ es, Reachable (expression e)) (h : Expression.sum es = .ok s) :
      Reachable (expression s)
  -- forms
  | zero : Reachable (form .zero)
  | normalize {e f} (he : Reachable (expression e)) (h : e.normalize = .ok f) : Reachable (form f)
  | plus {f g s} (hf : Reachable (form f)) (hg : Reachable (form g)) (h : f.plus g = .ok s) :
      Reachable (form s)
  | negate {f g} (hf : Reachable (form f)) (h : f.negate = .ok g) : Reachable (form g)
  | withoutOffset {f} (hf : Reachable (form f)) : Reachable (form f.withoutOffset)
  | ofForm {f} (hf : Reachable (form f)) : Reachable (expression (.normal f))
  -- constraints and rows
  | geq {e degree} (he : Reachable (expression e)) : Reachable (constraint (e.geq degree))
  | equals {e degree} (he : Reachable (expression e)) : Reachable (constraint (e.equals degree))
  | leq {e c} (degree : Int64) (he : Reachable (expression e)) (h : e.leq degree = .ok c) :
      Reachable (constraint c)
  | normalizeRow {c r} (hc : Reachable (constraint c)) (h : c.normalize = .ok r) : Reachable (row r)
  | ofRow {r} (hr : Reachable (row r)) : Reachable (constraint r.toConstraint)
  | constraintLhs {c} (hc : Reachable (constraint c)) : Reachable (expression c.lhs)
  | rowLhs {r} (hr : Reachable (row r)) : Reachable (form r.lhs)
  -- clauses and texts
  | clauses {cnf : Cnf} {rows r} (hcnf : cnf.InRange) (h : cnf.toRows = .ok rows) (hr : r ∈ rows) :
      Reachable (row r)
  | parsedRow {text} {f : Opb} {r} (htext : Opb.NamesInRange text) (h : Opb.parse text = .ok f)
      (hr : r ∈ f.rows) : Reachable (row r)
  | parsedObjective {text} {f : Opb} {g} (htext : Opb.NamesInRange text)
      (h : Opb.parse text = .ok f) (hg : g ∈ f.objective) : Reachable (form g)

/-- Terms in range, and normal forms. -/
def IsSound : Built → Prop
  | expression e => e.InRange
  | form f => f.IsNormal
  | constraint c => c.lhs.InRange
  | row r => r.IsNormal

/-- Every operation keeps terms in range and forms normal. -/
theorem isSound_of_reachable {b : Built} (h : b.Reachable) : b.IsSound := by
  induction h with
  | terms hr => exact hr
  | weightedSum hr h => exact Expression.inRange_weightedSum hr h
  | timesLit hr => exact fun t ht => List.mem_singleton.1 ht ▸ hr
  | timesVar hr => exact Expression.inRange_ofVar hr _
  | add _ _ h ihe ihe' => exact Expression.inRange_add ihe ihe' h
  | sub _ _ h ihe ihe' => exact Expression.inRange_sub ihe ihe' h
  | neg _ h ih => exact Expression.inRange_neg ih h
  | sum _ h ih => exact Expression.inRange_sum ih h
  | zero => exact ⟨nofun, nofun, .nil⟩
  | normalize _ h ih => exact Expression.isNormal_normalize ih h
  | plus _ _ h ihf ihg => exact LinearForm.IsNormal.plus ihf ihg h
  | negate _ h ih => exact LinearForm.IsNormal.negate ih h
  | withoutOffset _ ih => exact LinearForm.IsNormal.withOffset ih 0
  | ofForm _ ih => exact ih
  | geq _ ih => exact ih
  | equals _ ih => exact ih
  | leq _ _ h ih => exact Expression.inRange_leq ih h
  | normalizeRow _ h ih => exact Constraint.isNormal_normalize ih h
  | ofRow _ ih => exact ih
  | constraintLhs _ ih => exact ih
  | rowLhs _ ih => exact ih
  | clauses hcnf h hr => exact Cnf.isNormal_toRows hcnf h _ hr
  | parsedRow htext h hr => exact (Opb.isNormal_of_parse htext h).rows _ hr
  | parsedObjective htext h hg => exact (Opb.isNormal_of_parse htext h).objective _ hg

/-- The forms in what was built. -/
def forms : Built → List LinearForm
  | expression (.normal f) => [f]
  | expression (.raw _) => []
  | form f => [f]
  | constraint ⟨.normal f, _, _⟩ => [f]
  | constraint ⟨.raw _, _, _⟩ => []
  | row r => [r.lhs]

theorem IsSound.isNormal {b : Built} (hb : b.IsSound) : ∀ f ∈ b.forms, f.IsNormal := by
  intro f hf
  match b, hb with
  | expression (.normal g), hb => exact List.mem_singleton.1 hf ▸ hb
  | expression (.raw _), _ => exact absurd hf List.not_mem_nil
  | form g, hb => exact List.mem_singleton.1 hf ▸ hb
  | constraint ⟨.normal g, _, _⟩, hb => exact List.mem_singleton.1 hf ▸ hb
  | constraint ⟨.raw _, _, _⟩, _ => exact absurd hf List.not_mem_nil
  | row r, hb => exact List.mem_singleton.1 hf ▸ hb

/-- Whatever is built of literals in range has normal forms only. Each ends in its largest variable,
normalizing leaves it as it is, and so does collecting its terms again; a row, which has no
constant, is normalized to itself. -/
theorem canonical_of_reachable {b : Built} (h : b.Reachable) :
    (∀ f ∈ b.forms, f.IsNormal ∧
      (∀ w, f.maxVar? = some w ↔ w ∈ f.vars ∧ ∀ v ∈ f.vars, v.id ≤ w.id) ∧
      (Expression.normal f).normalize = .ok f ∧
      (Expression.raw f.terms).normalize = .ok f.withoutOffset) ∧
    ∀ r, b = row r → r.lhs.offset = 0 ∧ r.toConstraint.normalize = .ok r := by
  have hnormal := (isSound_of_reachable h).isNormal
  constructor
  · intro f hf
    have hfn : f.IsNormal := hnormal f hf
    have hcollect : (Expression.raw f.terms).normalize = .ok f.withoutOffset := hfn.collect 0
    exact ⟨hfn, fun w => hfn.ascending.maxVar?_eq_some, rfl, hcollect⟩
  · rintro r rfl
    exact ⟨r.offset_eq, Constraint.normalize_of_offset (c := r.toConstraint) rfl r.offset_eq⟩

/-- The row of `(3 x1 + 2 ~x2 + x1) + 5 ~x3 <= 6`, whose first operand was normalized. -/
def sampleRow : Row := .ofTerms [⟨-4, x₁.pos⟩, ⟨2, x₂.pos⟩, ⟨5, x₃.pos⟩] .geq 1

theorem reachable_sampleRow : (row sampleRow).Reachable := by
  have hleft : Reachable (expression (.raw [⟨3, x₁.pos⟩, ⟨2, x₂.negative⟩, ⟨1, x₁.pos⟩])) :=
    .terms (by decide)
  have hform : Reachable (form ⟨[⟨4, x₁.pos⟩, ⟨-2, x₂.pos⟩], 2⟩) := hleft.normalize (by decide)
  have hright : Reachable (expression (.ofTerm 5 x₃.negative)) := .timesLit (by decide)
  have hsum : Reachable (expression (.normal
      ⟨[⟨4, x₁.pos⟩, ⟨-2, x₂.pos⟩, ⟨-5, x₃.pos⟩], 7⟩)) := hform.ofForm.add hright (by decide)
  have hleq : Reachable (constraint
      ⟨.normal ⟨[⟨-4, x₁.pos⟩, ⟨2, x₂.pos⟩, ⟨5, x₃.pos⟩], -7⟩, .geq, -6⟩) :=
    hsum.leq 6 (by decide)
  exact hleq.normalizeRow (by decide)

theorem canonical_of_reachable_sample :
    (row sampleRow).Reachable ∧
      (∀ f ∈ (row sampleRow).forms, f.IsNormal ∧
        (∀ w, f.maxVar? = some w ↔ w ∈ f.vars ∧ ∀ v ∈ f.vars, v.id ≤ w.id) ∧
        (Expression.normal f).normalize = .ok f ∧
        (Expression.raw f.terms).normalize = .ok f.withoutOffset) ∧
      ∀ r, row sampleRow = row r → r.lhs.offset = 0 ∧ r.toConstraint.normalize = .ok r :=
  ⟨reachable_sampleRow, canonical_of_reachable reachable_sampleRow⟩

end Built

end PseudoBoolean
