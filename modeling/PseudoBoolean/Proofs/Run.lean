import PseudoBoolean.Pipeline
import PseudoBoolean.Proofs.Store

/-!
Runs of the pipeline, taken apart.

An effect ends as its action ends, and leaves one entry in the journal. `Completes` says that a run
answers unless some arithmetic overflows; it passes through sequences, so a run that is proved not to
overflow is proved to answer.
-/

namespace PseudoBoolean

section Perform
variable {α β : Type} {e : Effect} {x : Action α} {s s' : Session}

theorem perform_eq_ok {a : α} : perform e x s = .ok a s' ↔
    ∃ store, x s.store = .ok a store ∧ s' = ⟨store, s.journal ++ [⟨e, true⟩]⟩ := by
  simp only [perform]
  split
  · next h => simp [h, eq_comm]
  · next h => simp [h]

theorem perform_eq_error {stop : Stop} : perform e x s = .error stop s' ↔
    ∃ store, x s.store = .error stop store ∧ s' = ⟨store, s.journal ++ [⟨e, false⟩]⟩ := by
  simp only [perform]
  split
  · next h => simp [h]
  · next h => simp [h, eq_comm]

theorem perform_bind_eq_ok {f : α → Run β} {b : β} : (perform e x >>= f) s = .ok b s' ↔
    ∃ a store, x s.store = .ok a store ∧ f a ⟨store, s.journal ++ [⟨e, true⟩]⟩ = .ok b s' := by
  rw [run_bind_eq_ok]
  constructor
  · rintro ⟨a, s₁, hx, h⟩
    obtain ⟨store, hx', rfl⟩ := perform_eq_ok.1 hx
    exact ⟨a, store, hx', h⟩
  · rintro ⟨a, store, hx, h⟩
    exact ⟨a, _, perform_eq_ok.2 ⟨store, hx, rfl⟩, h⟩

end Perform

/-! ### Runs that stop by overflow only -/

/-- Whether a run answers, or stops because some arithmetic overflows. -/
def Completes {σ α : Type} (r : EStateM.Result Stop σ α) : Prop :=
  (∃ op s, r = .error (.fault (.overflow op)) s) ∨ ∃ a s, r = .ok a s

namespace Completes
variable {σ α β : Type}

theorem bind {x : EStateM Stop σ α} {f : α → EStateM Stop σ β} {s : σ} (hx : Completes (x s))
    (hf : ∀ a s', x s = .ok a s' → Completes (f a s')) : Completes ((x >>= f) s) := by
  rcases hx with ⟨op, s', h⟩ | ⟨a, s', h⟩
  · exact Or.inl ⟨op, s', run_bind_eq_error.2 (Or.inl h)⟩
  · rw [run_bind_of_ok h]
    exact hf a s' h

theorem lift {x : Checked α} (hx : OverflowsOnly x) (s : σ) :
    Completes ((liftM x : EStateM Stop σ α) s) := by
  cases h : x with
  | ok a => exact Or.inr ⟨a, s, rfl⟩
  | error f =>
    obtain ⟨op, rfl⟩ := hx f h
    exact Or.inl ⟨op, s, rfl⟩

theorem lift_bind {x : Checked α} {f : α → EStateM Stop σ β} {s : σ} (hx : OverflowsOnly x)
    (hf : ∀ a, x = .ok a → Completes (f a s)) :
    Completes (((liftM x : EStateM Stop σ α) >>= f) s) := by
  refine .bind (.lift hx s) fun a s' h => ?_
  obtain ⟨ha, rfl⟩ := run_lift_eq_ok.1 h
  exact hf a ha

theorem perform {e : Effect} {x : Action α} {s : Session} (hx : Completes (x s.store)) :
    Completes (perform e x s) := by
  rcases hx with ⟨op, store, h⟩ | ⟨a, store, h⟩
  · exact Or.inl ⟨op, _, perform_eq_error.2 ⟨store, h, rfl⟩⟩
  · exact Or.inr ⟨a, _, perform_eq_ok.2 ⟨store, h, rfl⟩⟩

/-- A run without overflow answers. -/
theorem exists_ok {r : EStateM.Result Stop σ α} (h : Completes r)
    (hr : ∀ op s, r ≠ .error (.fault (.overflow op)) s) : ∃ a s, r = .ok a s := by
  rcases h with ⟨op, s, h⟩ | h
  · exact absurd h (hr op s)
  · exact h

end Completes

end PseudoBoolean
