import PseudoBoolean.Cnf.Basic
import PseudoBoolean.Proofs.Linear.Bound

/-!
Clauses as rows.

The literals of a clause, each counted as zero or one, sum to the number of those that are true. So
the row of a clause holds exactly where the clause does, also where a literal occurs twice or with
its opposite.
-/

namespace PseudoBoolean

/-- Literals with coefficient one sum to the number of them that are true. -/
theorem Clause.total_terms (clause : Clause) (v : Valuation) :
    Term.total (clause.map fun l => ⟨1, l⟩) v = clause.countP (·.holds v) := by
  induction clause with
  | nil => rfl
  | cons l clause ih =>
    have hone : (1 : Int64).toInt = 1 := rfl
    rw [List.map_cons, Term.total_cons, ih, Term.value, hone, List.countP_cons]
    split <;> omega

/-- The row of a clause holds where some literal of the clause is true. -/
theorem Clause.holds_toRow {clause : Clause} {row : Row} (h : clause.toRow = .ok row)
    (v : Valuation) : row.Holds v ↔ clause.any (·.holds v) = true := by
  have hone : (1 : Int64).toInt = 1 := rfl
  have hvalue : (Expression.raw (clause.map fun l => ⟨1, l⟩)).value v =
      clause.countP (·.holds v) := clause.total_terms v
  rw [Constraint.holds_normalize h, Constraint.Holds, Expression.geq, hvalue, Relation.Holds, hone,
    List.any_eq_true, ← List.countP_pos_iff]
  omega

/-- The rows of the clauses have the models of the clauses. -/
theorem Cnf.holds_toRows {f : Cnf} {rows : List Row} (h : f.toRows = .ok rows) (v : Valuation) :
    (∀ r ∈ rows, r.Holds v) ↔ f.isSatisfied v = true := by
  rw [Cnf.toRows, mapM_eq_ok] at h
  rw [Cnf.isSatisfied, List.all_eq_true]
  generalize f.clauses = clauses at h
  induction h with
  | nil => simp
  | cons hclause _ ih =>
    rw [List.forall_mem_cons, List.forall_mem_cons, ih, Clause.holds_toRow hclause]

theorem Clause.weight_terms (clause : Clause) :
    Term.weight (clause.map fun l => ⟨1, l⟩) = clause.length := by
  induction clause with
  | nil => rfl
  | cons l clause ih =>
    have hone : (1 : Int64).toInt.natAbs = 1 := rfl
    rw [List.map_cons, Term.weight_cons, ih, hone, List.length_cons, Nat.add_comm]

/-- A clause has a row over some of its variables. -/
theorem Clause.exists_row {clause : Clause} (hlen : clause.length < Word.largest) :
    ∃ r, clause.toRow = .ok r ∧ Term.weight r.terms ≤ Word.largest ∧
      ∀ x ∈ r.vars, ∃ l ∈ clause, l.var = x := by
  have hone : (1 : Int64).toInt.natAbs = 1 := rfl
  have hfits : Term.weight (clause.map fun l => ⟨1, l⟩) + (1 : Int64).toInt.natAbs ≤
      Word.largest := by
    rw [clause.weight_terms, hone]
    exact hlen
  obtain ⟨r, hr, hle⟩ := Constraint.exists_normalize hfits
  refine ⟨r, hr, by omega, fun x hx => ?_⟩
  obtain ⟨form, hform, hr⟩ := bind_eq_ok.1 hr
  obtain ⟨degree, _, hr⟩ := bind_eq_ok.1 hr
  obtain rfl := pure_eq_ok.1 hr
  obtain ⟨t, ht, rfl⟩ := LinearForm.exists_term_of_collect hform hx
  obtain ⟨l, hl, rfl⟩ := List.mem_map.1 ht
  exact ⟨l, hl, rfl⟩

/-- Whether every literal of the clauses has an opposite. -/
def Cnf.InRange (f : Cnf) : Prop := ∀ clause ∈ f.clauses, ∀ l ∈ clause, l.InRange

instance (f : Cnf) : Decidable f.InRange :=
  inferInstanceAs (Decidable (∀ clause ∈ f.clauses, ∀ l ∈ clause, l.InRange))

theorem Cnf.isNormal_toRows {f : Cnf} {rows : List Row} (hr : f.InRange) (h : f.toRows = .ok rows) :
    ∀ r ∈ rows, r.IsNormal := by
  intro r hrow
  obtain ⟨clause, hclause, hr'⟩ := exists_mem_of_forall₂ (mapM_eq_ok.1 h) r hrow
  refine Constraint.isNormal_normalize ?_ hr'
  intro t ht
  obtain ⟨l, hl, rfl⟩ := List.mem_map.1 ht
  exact hr clause hclause l hl

theorem Cnf.overflowsOnly_toRows (f : Cnf) : OverflowsOnly f.toRows :=
  .mapM (fun _ => Constraint.overflowsOnly_normalize _) _

/-! ### Clause by clause -/

/-- What the row of a clause is decided to be, if it can be decided, is what the clause is. -/
theorem Clause.eq_of_isSatisfied {clause : Clause} {r : Row} (h : clause.toRow = .ok r)
    {v : Valuation} {b : Bool} (hb : r.isSatisfied v = .ok b) : b = clause.any (·.holds v) :=
  Bool.eq_iff_iff.2 ((Row.isSatisfied_eq_ok hb).trans (Clause.holds_toRow h v))

/-- A clause that a word can count has a row, which every valuation decides as the clause. -/
theorem Clause.exists_row_decides {clause : Clause} (hlen : clause.length < Word.largest) :
    ∃ r, clause.toRow = .ok r ∧ ∀ v, r.isSatisfied v = .ok (clause.any (·.holds v)) := by
  obtain ⟨r, hr, hweight, _⟩ := Clause.exists_row hlen
  refine ⟨r, hr, fun v => ?_⟩
  obtain ⟨b, hb, _⟩ := Row.exists_isSatisfied hweight v
  rw [hb, Clause.eq_of_isSatisfied hr hb]

/-- Rows that decide some tests one by one decide all of them at once. -/
theorem Row.allSatisfied_of_forall₂ {α : Type} {test : α → Bool} {v : Valuation} {l : List α}
    {rows : List Row} (h : List.Forall₂ (fun a r => r.isSatisfied v = .ok (test a)) l rows) :
    Row.allSatisfied rows v = .ok (l.all test) := by
  induction h with
  | nil => rfl
  | @cons a r l rows hr _ ih =>
    rw [Row.allSatisfied] at ih ⊢
    rw [List.allM_cons, hr, List.all_cons]
    cases test a with
    | false => rfl
    | true => exact ih

/-- The rows of a formula are satisfied exactly where the formula is, and each row exactly where its
clause is, whatever literals a clause repeats or contradicts and also if it has none.

A clause has fewer literals than a word can count, so the rows exist and can be decided everywhere.
Of clauses of any length, the rows that there are say the same over the integers, and nothing else
is ever decided of them. -/
theorem Cnf.rows_decide_clauses (f : Cnf) :
    ((∀ clause ∈ f.clauses, clause.length < Word.largest) →
      ∃ rows, f.toRows = .ok rows ∧ ∀ v,
        Row.allSatisfied rows v = .ok (f.isSatisfied v) ∧
        List.Forall₂ (fun clause r => r.isSatisfied v = .ok (clause.any (·.holds v)))
          f.clauses rows) ∧
    ∀ rows, f.toRows = .ok rows → ∀ v,
      ((∀ r ∈ rows, r.Holds v) ↔ f.isSatisfied v = true) ∧
      (∀ b, Row.allSatisfied rows v = .ok b → b = f.isSatisfied v) ∧
      List.Forall₂ (fun clause r => (r.Holds v ↔ clause.any (·.holds v) = true) ∧
        ∀ b, r.isSatisfied v = .ok b → b = clause.any (·.holds v)) f.clauses rows := by
  constructor
  · intro hlen
    obtain ⟨rows, hrows, hall⟩ :=
      exists_mapM fun clause hclause => Clause.exists_row_decides (hlen clause hclause)
    refine ⟨rows, hrows, fun v => ?_⟩
    have hclauses : List.Forall₂ (fun clause r => r.isSatisfied v = .ok (clause.any (·.holds v)))
        f.clauses rows := hall.imp fun _ _ hr => hr v
    exact ⟨Row.allSatisfied_of_forall₂ hclauses, hclauses⟩
  · intro rows hrows v
    have hholds := Cnf.holds_toRows hrows v
    refine ⟨hholds, fun b hb => ?_, (mapM_eq_ok.1 hrows).imp fun clause r hr => ?_⟩
    · exact Bool.eq_iff_iff.2 ((Row.allSatisfied_eq_ok hb).trans hholds)
    · exact ⟨Clause.holds_toRow hr v, fun b hb => Clause.eq_of_isSatisfied hr hb⟩

/-- `(x1 ∨ x1 ∨ ~x1) ∧ (~x2 ∨ ~x2) ∧ ()`. -/
def Cnf.sampleRepeating : Cnf :=
  .ofClauses [[x₁.pos, x₁.pos, x₁.negative], [x₂.negative, x₂.negative], []]

theorem Cnf.rows_decide_clauses_sample :
    ∃ rows, sampleRepeating.toRows = .ok rows ∧ ∀ v,
      Row.allSatisfied rows v = .ok (sampleRepeating.isSatisfied v) ∧
      List.Forall₂ (fun clause r => r.isSatisfied v = .ok (clause.any (·.holds v)))
        sampleRepeating.clauses rows :=
  (rows_decide_clauses sampleRepeating).1 (by decide)

/-- `x1 >= 0`, `-2 x2 >= -1` and `0 >= 1`. -/
example : Cnf.sampleRepeating.toRows =
    .ok [.ofTerms [⟨1, x₁.pos⟩] .geq 0, .ofTerms [⟨-2, x₂.pos⟩] .geq (-1), .ofTerms [] .geq 1] := by
  decide

end PseudoBoolean
