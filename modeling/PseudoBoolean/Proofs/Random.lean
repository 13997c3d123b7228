import PseudoBoolean.Proofs.Checked
import PseudoBoolean.Random.Stream

/-!
What random draws can give.

A statement about a draw is about every stream and every place in it: what it gives meets a
condition, and it gives something for sure under another one (`Draw.Yields`). Then a number drawn
from a range lies in the range (`Draw.yields_range`), whichever words the stream holds, and a
shuffled list is a permutation (`Draw.yields_shuffle`).
-/

namespace PseudoBoolean.Draw

/-- Whether a draw gives nothing but what meets `P`, and never faults if `sure` holds. -/
def Yields {α : Type} (sure : Prop) (x : Draw α) (P : α → Prop) : Prop :=
  ∀ s, (∃ a s', x s = .ok (a, s') ∧ P a) ∨ ∃ fault, x s = .error fault ∧ ¬ sure

section Yields
variable {α β : Type} {sure sure' : Prop} {P : α → Prop} {Q : β → Prop}

/-! ### Sequences -/

theorem Yields.of_eq_ok {x : Draw α} (h : Yields sure x P) {s s' : Stream} {a : α}
    (hx : x s = .ok (a, s')) : P a := by
  rcases h s with ⟨b, t, hb, hP⟩ | ⟨fault, hfault, _⟩
  · obtain ⟨rfl, _⟩ := Prod.mk.inj (Except.ok.inj (hb.symm.trans hx))
    exact hP
  · exact absurd (hfault.symm.trans hx) nofun

theorem Yields.exists_ok {x : Draw α} (h : Yields sure x P) (hsure : sure) (s : Stream) :
    ∃ a s', x s = .ok (a, s') ∧ P a :=
  (h s).resolve_right fun ⟨_, _, hnot⟩ => hnot hsure

theorem Yields.mono {P' : α → Prop} {x : Draw α} (h : Yields sure x P) (hsure : sure' → sure)
    (hP : ∀ a, P a → P' a) : Yields sure' x P' := by
  intro s
  rcases h s with ⟨a, s', hx, ha⟩ | ⟨fault, hx, hnot⟩
  · exact Or.inl ⟨a, s', hx, hP a ha⟩
  · exact Or.inr ⟨fault, hx, fun h => hnot (hsure h)⟩

theorem Yields.pure {a : α} (h : P a) : Yields sure (Pure.pure a) P :=
  fun s => Or.inl ⟨a, s, rfl, h⟩

/-- What follows a draw goes on where the draw stopped. -/
theorem bind_of_ok {x : Draw α} {s s' : Stream} {a : α} (hx : x s = .ok (a, s')) (f : α → Draw β) :
    (x >>= f) s = f a s' := by
  show (x s >>= fun r => f r.1 r.2) = _
  rw [hx]
  rfl

theorem bind_of_error {x : Draw α} {s : Stream} {fault : Fault} (hx : x s = .error fault)
    (f : α → Draw β) : (x >>= f) s = .error fault := by
  show (x s >>= fun r => f r.1 r.2) = _
  rw [hx]
  rfl

/-- What follows a draw is about what the draw gives. -/
theorem Yields.bind {x : Draw α} {f : α → Draw β} (hx : Yields sure x P)
    (hf : ∀ a, P a → Yields sure (f a) Q) : Yields sure (x >>= f) Q := by
  intro s
  rcases hx s with ⟨a, s', hx, ha⟩ | ⟨fault, hx, hnot⟩
  · rw [bind_of_ok hx]
    exact hf a ha s'
  · exact Or.inr ⟨fault, bind_of_error hx f, hnot⟩

/-- A checked computation draws nothing. -/
theorem Yields.lift {x : Checked α} (hP : ∀ a, x = .ok a → P a) (hsure : sure → ∃ a, x = .ok a) :
    Yields sure (liftM x) P := by
  intro s
  cases x with
  | ok a => exact Or.inl ⟨a, s, rfl, hP a rfl⟩
  | error fault => exact Or.inr ⟨fault, rfl, fun h => (hsure h).elim fun _ => nofun⟩

theorem Yields.throw {fault : Fault} (h : ¬ sure) :
    Yields sure (MonadExcept.throw fault : Draw α) P :=
  fun _ => Or.inr ⟨fault, rfl, h⟩

/-- A list of draws yields a list, related one by one. -/
theorem Yields.mapM {f : α → Draw β} {R : α → β → Prop} {l : List α}
    (h : ∀ a ∈ l, Yields sure (f a) (R a)) : Yields sure (l.mapM f) (List.Forall₂ R l) := by
  induction l with
  | nil => exact .pure .nil
  | cons a l ih =>
    rw [List.mapM_cons]
    refine .bind (h a (List.mem_cons_self ..)) fun b hb => ?_
    refine .bind (ih fun c hc => h c (List.mem_cons_of_mem _ hc)) fun bs hbs => ?_
    exact .pure (.cons hb hbs)

end Yields

section Draws
variable {sure : Prop}

/-! ### Words -/

theorem yields_word : Yields sure word (· < 0x100000000) :=
  fun s => Or.inl ⟨_, _, rfl, (ChaCha.word s.key s.place).toNat_lt⟩

theorem yields_doubleWord : Yields sure doubleWord (· < 0x10000000000000000) := by
  refine .bind yields_word fun low hlow => .bind yields_word fun high hhigh => .pure ?_
  omega

theorem yields_draw (w : Width) : Yields sure w.draw (· < w.size) := by
  cases w with
  | bits32 => exact yields_word
  | bits64 => exact yields_doubleWord

theorem yields_coin : Yields sure coin fun _ => True :=
  .bind yields_doubleWord fun _ _ => .pure trivial

/-! ### Ranges -/

/-- A scaled word stays below the size, the carry included: if the low part leaves room for a carry,
the word was not among the largest. -/
theorem yields_below {w : Width} {size : Nat} :
    Yields sure (below w size) fun x => 0 < size → size < w.size → x < size := by
  refine .bind (yields_draw w) fun raw hraw => ?_
  have hscaled : raw * size + size ≤ w.size * size := by
    rw [← Nat.succ_mul]
    exact Nat.mul_le_mul_right size hraw
  have hparts := Nat.div_add_mod (raw * size) w.size
  have hhigh : 0 < size → raw * size / w.size < size := fun hsize =>
    Nat.div_lt_of_lt_mul (by omega)
  show Yields sure (if raw * size % w.size > w.size - size then _ else _) _
  split
  · next hcarry =>
    refine .bind (yields_draw w) fun raw' _ => .pure fun hsize hlt => ?_
    have hhigh := hhigh hsize
    have hroom : raw * size / w.size + 1 < size := by
      by_contra hnot
      have hlast : raw * size / w.size = size - 1 := by omega
      rw [hlast, Nat.mul_sub_one] at hparts
      have hle : w.size ≤ w.size * size := Nat.le_mul_of_pos_right _ hsize
      omega
    split <;> omega
  · exact .pure fun hsize _ => hhigh hsize

/-- Whether a range is narrower than a width, or within its signed numbers. -/
def Width.Spans (w : Width) (lo hi : Int) : Prop :=
  hi - lo + 1 < w.size ∨ -w.size ≤ 2 * lo ∧ 2 * hi < w.size

/-- A number drawn from a range lies in the range, and there is one unless the range is empty. -/
theorem yields_range {w : Width} {lo hi : Int} :
    Yields (lo ≤ hi) (range w lo hi) fun x => w.Spans lo hi → lo ≤ x ∧ x ≤ hi := by
  rw [range]
  split
  · next hempty => exact .bind (.throw (P := fun _ => False) (by omega)) nofun
  · next hnonempty =>
    show Yields _ (if (hi - lo + 1).toNat = w.size then _ else _) _
    split
    · next hfull =>
      refine .bind (yields_draw w) fun raw hraw => .pure fun hspans => ?_
      have hpos : 0 < w.size := by omega
      have hlo := Int.le_bmod (x := raw) hpos
      have hhi := Int.bmod_lt (x := raw) hpos
      rcases hspans with hspans | ⟨hspans, hspans'⟩ <;> omega
    · next hsize =>
      refine .bind yields_below fun offset hoffset => .pure fun hspans => ?_
      have hlt : (hi - lo + 1).toNat < w.size := by
        rcases hspans with hspans | ⟨hspans, hspans'⟩ <;> omega
      have hoffset := hoffset (by omega) hlt
      omega

/-! ### Shuffles -/

theorem grow_pos {product : Nat} (factor : Nat) (h : 0 < product) : 0 < (grow product factor).1 := by
  fun_induction grow product factor with
  | case1 product factor hgrow ih => exact ih (Nat.mul_pos h (by omega))
  | case2 => exact h

/-- A place is drawn whenever there is one. -/
theorem yields_place {m : Nat} (hm : 0 < m) (p : Places) :
    Yields sure (place m p) fun _ => True := by
  have hlast : ∀ p : Places, Yields sure (if p.remaining - 1 = 0
      then pure (p.chunk, ⟨p.chunk, p.remaining - 1⟩)
      else pure (p.chunk % m, ⟨p.chunk / m, p.remaining - 1⟩) : Draw (Nat × Places))
      fun _ => True := by
    intro p
    split <;> exact .pure trivial
  rw [place]
  split
  · have hpos := grow_pos (m + 1) hm
    refine .bind (P := fun _ => True) (yields_range.mono (fun _ => by omega) fun _ _ => trivial)
      fun chunk _ => ?_
    exact .bind (P := fun _ => True) (.pure trivial) fun p _ => hlast p
  · exact .bind (P := fun _ => True) (.pure trivial) fun p _ => hlast p

theorem perm_swapIfInBounds {α : Type} (a : Array α) (i j : Nat) :
    (a.swapIfInBounds i j).toList.Perm a.toList := by
  rw [Array.swapIfInBounds]
  split
  · split
    · exact (Array.swap_perm _ _).toList
    · exact .refl _
  · exact .refl _

/-- A shuffled list is a permutation, wherever the elements are swapped to. -/
theorem yields_shuffleFrom {α : Type} (count i : Nat) (p : Places) (a : Array α) :
    Yields sure (shuffleFrom count i p a) fun b => b.toList.Perm a.toList := by
  induction count generalizing i p a with
  | zero => exact .pure (.refl _)
  | succ count ih =>
    refine .bind (yields_place (Nat.succ_pos i) p) fun (j, p) _ => ?_
    exact (ih (i + 1) p _).mono id fun b hb => hb.trans (perm_swapIfInBounds a i j)

theorem yields_shuffle {α : Type} (xs : List α) : Yields sure (shuffle xs) (·.Perm xs) := by
  rw [shuffle]
  split
  · exact .pure (.refl _)
  · exact .bind (yields_shuffleFrom xs.length 0 ⟨0, 1⟩ xs.toArray) fun a ha => .pure ha

end Draws

end PseudoBoolean.Draw
