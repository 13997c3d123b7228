import PseudoBoolean.Opb.Reader
import PseudoBoolean.Proofs.Linear.Normal

/-!
What a reader makes of a text.

A text is a formula exactly when each of its lines and statements is read and nothing is left after
the last semicolon (`Opb.parse_eq_ok`). A row that is made of terms ascends, and no ascending row has
a variable above the number of variables of the formula (`Opb.le_numVars`).
-/

namespace PseudoBoolean

/-- Rows made of term lists ascend. -/
theorem Constraint.isAscending_normalize {c : Constraint} {terms : List Term} {r : Row}
    (hraw : c.lhs = .raw terms) (h : c.normalize = .ok r) : r.lhs.IsAscending := by
  obtain ⟨form, hform, h⟩ := bind_eq_ok.1 h
  obtain ⟨degree, _, h⟩ := bind_eq_ok.1 h
  obtain rfl := pure_eq_ok.1 h
  rw [hraw] at hform
  have hasc : form.IsAscending := LinearForm.isAscending_collect hform
  exact hasc

namespace Opb

/-- A checked computation inside a reading. -/
theorem lift_eq_ok {α : Type} {x : Checked α} {a : α} :
    (liftM x : Reading α) = .ok a ↔ x = .ok a := by
  show x.mapError ReadError.fault = _ ↔ _
  cases x <;> simp [Except.mapError]

theorem liftParse_eq_ok {α : Type} {x : Except ParseError α} {a : α} :
    (liftM x : Reading α) = .ok a ↔ x = .ok a := by
  show x.mapError ReadError.parse = _ ↔ _
  cases x <;> simp [Except.mapError]

theorem liftParse_eq_parse {α : Type} {x : Except ParseError α} {e : ParseError} :
    (liftM x : Reading α) = .error (.parse e) ↔ x = .error e := by
  show x.mapError ReadError.parse = _ ↔ _
  cases x <;> simp [Except.mapError]

@[simp] theorem liftParse_ne_fault {α : Type} {x : Except ParseError α} {fault : Fault} :
    (liftM x : Reading α) ≠ .error (.fault fault) := by
  show x.mapError ReadError.parse ≠ _
  cases x <;> simp [Except.mapError]

@[simp] theorem Token.refuse_ne_ok {α : Type} {t : Token} {flaw : Flaw} {a : α} :
    (liftM (t.refuse flaw : Except ParseError α) : Reading α) ≠ .ok a := by
  simp [liftParse_eq_ok, refuse]

/-! ### Statements -/

/-- Every sign makes a constraint of a term list out of a term list, on the same variables. -/
theorem exists_lhs_of_constrain {sign : Sign} {terms : List Term} {degree : Int64} {c : Constraint}
    (h : sign.constrain (.raw terms) degree = .ok c) : ∃ terms', c.lhs = .raw terms' ∧
      terms'.map (·.lit.var) = terms.map (·.lit.var) := by
  cases sign with
  | geq =>
    obtain rfl := Except.ok.inj h
    exact ⟨terms, rfl, rfl⟩
  | eq =>
    obtain rfl := Except.ok.inj h
    exact ⟨terms, rfl, rfl⟩
  | leq =>
    obtain ⟨lhs, hlhs, h⟩ := bind_eq_ok.1 h
    obtain ⟨negated, _, h⟩ := bind_eq_ok.1 h
    obtain rfl := pure_eq_ok.1 h
    obtain ⟨terms', hneg, hterms⟩ := bind_eq_ok.1 hlhs
    exact ⟨terms', (pure_eq_ok.1 hterms).symm, vars_neg_coeff (mapM_neg_coeff hneg)⟩

/-! ### Texts -/

/-- A text is read line by line and statement by statement; the last piece must be empty. -/
theorem parse_eq_ok {text : String} {f : Opb} : parse text = .ok f ↔
    ∃ lines pieces statements, readLines text = .ok lines ∧
      (lines.flatMap Line.tokens).splitOnP (·.text == ";") = pieces ++ [[]] ∧
      readStatements false pieces = .ok statements ∧
      f = ofStatements statements ((lines.filterMap Line.declared?).getLast?.getD 0) := by
  simp only [parse]
  simp only [bind_eq_ok, liftParse_eq_ok]
  refine exists_congr fun lines => ?_
  obtain ⟨pieces, last, hsplit⟩ :=
    (List.eq_nil_or_concat ((lines.flatMap Line.tokens).splitOnP (·.text == ";"))).resolve_left
      (List.splitOnP_ne_nil _ _)
  rw [List.concat_eq_append] at hsplit
  rw [hsplit, List.dropLast_concat, List.getLast?_concat, Option.bind_some]
  constructor
  · rintro ⟨hlines, statements, hstatements, hlast⟩
    cases last with
    | nil => exact ⟨pieces, statements, hlines, rfl, hstatements, (pure_eq_ok.1 hlast).symm⟩
    | cons first rest => exact absurd hlast nofun
  · rintro ⟨pieces', statements, hlines, hpieces, hstatements, rfl⟩
    obtain ⟨rfl, hlast⟩ := List.append_inj' hpieces rfl
    obtain rfl := List.cons.inj hlast |>.1
    exact ⟨hlines, statements, hstatements, rfl⟩

/-- No ascending row has a variable above the number of variables. -/
theorem le_numVars {f : Opb} {r : Row} (hr : r ∈ f.rows) (hasc : r.lhs.IsAscending) {v : Var}
    (hv : v ∈ r.vars) : v.id ≤ f.numVars := by
  obtain ⟨w, hw⟩ := Option.isSome_iff_exists.1
    (List.getLast?_isSome.2 (List.ne_nil_of_mem hv))
  have hmem : w ∈ f.maxVars := List.mem_append_left _ (List.mem_filterMap.2 ⟨r, hr, hw⟩)
  exact UInt32.le_trans (hasc.le_maxVar hw hv)
    ((le_foldl_max _ f.minVars).2 w.id (List.mem_map_of_mem hmem))

/-- Rows over few variables alone make a formula of few variables. -/
theorem numVars_ofRows_le {rows : List Row} {n : UInt32} (h : ∀ r ∈ rows, ∀ x ∈ r.vars, x.id ≤ n) :
    (ofRows rows).numVars ≤ n := by
  refine foldl_max_le (UInt32.le_iff_toNat_le.2 (Nat.zero_le _)) fun id hid => ?_
  obtain ⟨x, hx, rfl⟩ := List.mem_map.1 hid
  have hx : x ∈ rows.filterMap (·.maxVar?) := by simpa [maxVars, ofRows] using hx
  obtain ⟨r, hr, hmax⟩ := List.mem_filterMap.1 hx
  exact h r hr x (List.mem_of_getLast? hmax)

end Opb

end PseudoBoolean
