import PseudoBoolean.Instance.Room
import PseudoBoolean.Proofs.Checked

/-!
When lists of instances have room.

A list never has more room than the limit, and a grown one has at most twice what it holds, or four
places. So lots are put in if twice as many instances are within the limit (`Room.exists_fill`), and
none of the lots that were put in is beyond the limit (`Room.le_limit_of_fill`).
-/

namespace PseudoBoolean.Room
variable {count room needed r : Nat} {lots : List Nat} {f : Fault}

theorem take_eq_ok : take count = .ok r ↔ count ≤ limit ∧ count = r := by
  rw [take]
  split <;> simp_all

theorem take_eq_error : take count = .error f ↔ limit < count ∧ f = .capacity := by
  rw [take]
  split <;> simp_all [eq_comm]

/-! ### One lot -/

/-- A list has room for what it has grown for, within the limit. -/
theorem bounds_of_grow (hroom : room ≤ limit) (h : grow room needed = .ok r) :
    needed ≤ r ∧ r ≤ limit := by
  rw [grow] at h
  split at h
  · next hle =>
    obtain rfl := Except.ok.inj h
    exact ⟨hle, hroom⟩
  · obtain ⟨hle, rfl⟩ := take_eq_ok.1 h
    exact ⟨by omega, hle⟩

/-- A list grows to four places, or to at most twice what it held or is to hold. -/
theorem exists_grow (hroom : room ≤ max 4 (2 * count)) (hle : count ≤ needed)
    (h : 2 * needed ≤ limit) : ∃ r, grow room needed = .ok r ∧ r ≤ max 4 (2 * needed) := by
  have hfour : 4 ≤ limit := by decide
  rw [grow]
  split
  · exact ⟨room, rfl, by omega⟩
  · exact ⟨_, take_eq_ok.2 ⟨by omega, rfl⟩, by omega⟩

/-! ### All lots -/

/-- Lots are put into a list if twice its final number of instances is within the limit. -/
theorem exists_fill (hroom : room ≤ max 4 (2 * count)) (h : 2 * (count + lots.sum) ≤ limit) :
    ∃ r, fill lots count room = .ok r := by
  induction lots generalizing count room with
  | nil => exact ⟨room, rfl⟩
  | cons lot lots ih =>
    rw [List.sum_cons] at h
    have hsum : 2 * (count + lot) ≤ limit := by omega
    obtain ⟨room', hgrow, hroom'⟩ := exists_grow hroom (Nat.le_add_right count lot) hsum
    obtain ⟨r, hfill⟩ := ih hroom' (by omega)
    exact ⟨r, bind_eq_ok.2 ⟨room', hgrow, hfill⟩⟩

/-- The list of twelve instances in the table of `Room`. -/
example : fillNew [1, 1, 1, 1, 1, 7] = .ok 16 := by decide

/-- A lot that was put in had room: the list has grown for it within the limit. -/
theorem le_limit_of_fill {lot : Nat} (hroom : room ≤ limit)
    (h : fill (lot :: lots) count room = .ok r) : lot ≤ limit := by
  obtain ⟨room', hgrow, _⟩ := bind_eq_ok.1 h
  have hbounds := bounds_of_grow hroom hgrow
  omega

/-- Instances are put into a new list one by one if twice as many are within the limit. -/
theorem exists_fillNew_ones (h : 2 * count ≤ limit) :
    ∃ r, fillNew (List.replicate count 1) = .ok r := by
  refine exists_fill (Nat.zero_le _) ?_
  rwa [List.sum_replicate, smul_eq_mul, mul_one, zero_add]

end PseudoBoolean.Room
