import Mathlib
import PseudoBoolean.Action

/-!
Computations that may stop, taken apart.

A sequence answers exactly when each of its steps answers (`bind_eq_ok`, `run_bind_eq_ok`), and it
stops with the stop of the first step that does (`bind_eq_error`, `run_bind_eq_error`). So a proof
about a computation names what every step gave and never opens the sequence again.
-/

namespace PseudoBoolean

/-! ### Values or errors -/

section Except
variable {ε α β : Type}

theorem bind_eq_ok {x : Except ε α} {f : α → Except ε β} {b : β} :
    x >>= f = .ok b ↔ ∃ a, x = .ok a ∧ f a = .ok b := by
  cases x <;> simp [bind, Except.bind]

theorem bind_eq_error {x : Except ε α} {f : α → Except ε β} {e : ε} :
    x >>= f = .error e ↔ x = .error e ∨ ∃ a, x = .ok a ∧ f a = .error e := by
  cases x <;> simp [bind, Except.bind]

@[simp] theorem pure_eq_ok {a b : α} : (pure a : Except ε α) = .ok b ↔ a = b := by
  simp [pure, Except.pure]

@[simp] theorem pure_ne_error {a : α} {e : ε} : (pure a : Except ε α) ≠ .error e := nofun

theorem map_eq_ok {x : Except ε α} {f : α → β} {b : β} :
    f <$> x = .ok b ↔ ∃ a, x = .ok a ∧ f a = b := by
  cases x <;> simp [Functor.map, Except.map]

theorem map_eq_error {x : Except ε α} {f : α → β} {e : ε} :
    f <$> x = .error e ↔ x = .error e := by
  cases x <;> simp [Functor.map, Except.map]

/-- What is done with a result does not decide whether there is one. -/
theorem exists_bind_pure {x : Except ε α} {f : α → β} :
    (∃ b, (x >>= fun a => pure (f a)) = .ok b) ↔ ∃ a, x = .ok a := by
  simp only [bind_eq_ok, pure_eq_ok]
  rw [exists_comm]
  exact exists_congr fun a => ⟨fun h => h.choose_spec.1, fun h => ⟨f a, h, rfl⟩⟩

/-- A list is mapped to a list exactly when its members are mapped one by one. -/
theorem mapM_eq_ok {f : α → Except ε β} {l : List α} {l' : List β} :
    l.mapM f = .ok l' ↔ List.Forall₂ (fun a b => f a = .ok b) l l' := by
  induction l generalizing l' with
  | nil => rw [List.mapM_nil, pure_eq_ok, List.forall₂_nil_left_iff, eq_comm]
  | cons a l ih =>
    simp only [List.mapM_cons, bind_eq_ok, pure_eq_ok, ih, List.forall₂_cons_left_iff]
    constructor
    · rintro ⟨b, hb, bs, hbs, rfl⟩
      exact ⟨b, bs, hb, hbs, rfl⟩
    · rintro ⟨b, bs, hb, hbs, rfl⟩
      exact ⟨b, hb, bs, hbs, rfl⟩

/-- A related list has nothing but what its members are related to. -/
theorem exists_mem_of_forall₂ {R : α → β → Prop} {l : List α} {l' : List β}
    (h : List.Forall₂ R l l') : ∀ b ∈ l', ∃ a ∈ l, R a b := by
  induction h with
  | nil => exact nofun
  | cons hab _ ih =>
    rintro c hc
    rcases List.mem_cons.1 hc with rfl | hc
    · exact ⟨_, List.mem_cons_self .., hab⟩
    · obtain ⟨a, ha, hac⟩ := ih c hc
      exact ⟨a, List.mem_cons_of_mem _ ha, hac⟩

/-- A list related to distinct members is one of distinct members, if no two are related to one. -/
theorem nodup_of_forall₂ {R : α → β → Prop} {l : List α} {l' : List β} (h : List.Forall₂ R l l')
    (hl : l.Nodup) (hR : ∀ a ∈ l, ∀ a' ∈ l, ∀ b, R a b → R a' b → a = a') : l'.Nodup := by
  induction h with
  | nil => exact .nil
  | cons hab hrest ih =>
    obtain ⟨ha, hl⟩ := List.nodup_cons.1 hl
    refine List.nodup_cons.2 ⟨fun hb => ?_, ih hl fun a ha a' ha' => ?_⟩
    · obtain ⟨a', ha', ha'b⟩ := exists_mem_of_forall₂ hrest _ hb
      obtain rfl := hR _ (List.mem_cons_self ..) a' (List.mem_cons_of_mem _ ha') _ hab ha'b
      exact ha ha'
    · exact hR a (List.mem_cons_of_mem _ ha) a' (List.mem_cons_of_mem _ ha')

/-- A list is mapped if each of its members is, and related if each of them is. -/
theorem exists_mapM {f : α → Except ε β} {R : α → β → Prop} {l : List α}
    (h : ∀ a ∈ l, ∃ b, f a = .ok b ∧ R a b) : ∃ l', l.mapM f = .ok l' ∧ List.Forall₂ R l l' := by
  induction l with
  | nil => exact ⟨[], rfl, .nil⟩
  | cons a l ih =>
    obtain ⟨b, hb, hab⟩ := h a (List.mem_cons_self ..)
    obtain ⟨bs, hbs, hrest⟩ := ih fun c hc => h c (List.mem_cons_of_mem _ hc)
    rw [List.mapM_cons]
    exact ⟨b :: bs, bind_eq_ok.2 ⟨b, hb, bind_eq_ok.2 ⟨bs, hbs, rfl⟩⟩, .cons hab hrest⟩

/-- A member that cannot be mapped stops the list. -/
theorem mapM_eq_error {f : α → Except ε β} {l : List α} {e : ε} (h : l.mapM f = .error e) :
    ∃ a ∈ l, f a = .error e := by
  induction l with
  | nil => exact absurd h pure_ne_error
  | cons a l ih =>
    rw [List.mapM_cons, bind_eq_error] at h
    rcases h with ha | ⟨b, _, h⟩
    · exact ⟨a, by simp, ha⟩
    · rcases bind_eq_error.1 h with hl | ⟨_, _, h⟩
      · obtain ⟨c, hc, he⟩ := ih hl
        exact ⟨c, by simp [hc], he⟩
      · exact absurd h pure_ne_error

/-- A search through images is a search through what they are images of. -/
theorem findM?_map (g : α → β) (p : β → Except ε Bool) : ∀ l : List α,
    (l.map g).findM? p = (fun found => found.map g) <$> l.findM? fun a => p (g a)
  | [] => rfl
  | a :: l => by
    rw [List.map_cons, List.findM?, List.findM?]
    cases p (g a) with
    | error e => rfl
    | ok hit =>
      cases hit with
      | true => rfl
      | false => exact findM?_map g p l

end Except

/-! ### Runs over a state -/

section State
variable {ε σ α β : Type}

theorem run_bind_eq_ok {x : EStateM ε σ α} {f : α → EStateM ε σ β} {s s' : σ} {b : β} :
    (x >>= f) s = .ok b s' ↔ ∃ a s₁, x s = .ok a s₁ ∧ f a s₁ = .ok b s' := by
  show EStateM.bind x f s = _ ↔ _
  simp only [EStateM.bind]
  cases x s <;> simp

theorem run_bind_eq_error {x : EStateM ε σ α} {f : α → EStateM ε σ β} {s s' : σ} {e : ε} :
    (x >>= f) s = .error e s' ↔
      x s = .error e s' ∨ ∃ a s₁, x s = .ok a s₁ ∧ f a s₁ = .error e s' := by
  show EStateM.bind x f s = _ ↔ _
  simp only [EStateM.bind]
  cases x s <;> simp

/-- A step that answers is followed by the rest. -/
theorem run_bind_of_ok {x : EStateM ε σ α} {f : α → EStateM ε σ β} {s s' : σ} {a : α}
    (h : x s = .ok a s') : (x >>= f) s = f a s' := by
  show EStateM.bind x f s = _
  simp only [EStateM.bind]
  rw [h]

@[simp] theorem run_pure_eq_ok {a b : α} {s s' : σ} :
    (pure a : EStateM ε σ α) s = .ok b s' ↔ a = b ∧ s = s' := by
  show EStateM.Result.ok a s = _ ↔ _
  simp

@[simp] theorem run_throw_ne_ok {e : ε} {a : α} {s s' : σ} :
    (throw e : EStateM ε σ α) s ≠ .ok a s' := nofun

/-- A checked computation inside a run leaves the state. -/
@[simp] theorem run_lift_eq_ok {x : Checked α} {a : α} {s s' : σ} :
    (liftM x : EStateM Stop σ α) s = .ok a s' ↔ x = .ok a ∧ s = s' := by
  show Checked.toAction x s = _ ↔ _
  simp only [Checked.toAction]
  cases x <;> simp

@[simp] theorem run_lift_eq_error {x : Checked α} {stop : Stop} {s s' : σ} :
    (liftM x : EStateM Stop σ α) s = .error stop s' ↔
      ∃ f, x = .error f ∧ stop = .fault f ∧ s = s' := by
  show Checked.toAction x s = _ ↔ _
  simp only [Checked.toAction]
  cases x <;> simp [eq_comm]

theorem run_lift_bind_eq_ok {x : Checked α} {f : α → EStateM Stop σ β} {s s' : σ} {b : β} :
    ((liftM x : EStateM Stop σ α) >>= f) s = .ok b s' ↔ ∃ a, x = .ok a ∧ f a s = .ok b s' := by
  rw [run_bind_eq_ok]
  constructor
  · rintro ⟨a, s₁, hx, h⟩
    obtain ⟨hx', rfl⟩ := run_lift_eq_ok.1 hx
    exact ⟨a, hx', h⟩
  · rintro ⟨a, hx, h⟩
    exact ⟨a, s, run_lift_eq_ok.2 ⟨hx, rfl⟩, h⟩

theorem run_lift_bind_of_ok {x : Checked α} {f : α → EStateM Stop σ β} {s : σ} {a : α}
    (h : x = .ok a) : ((liftM x : EStateM Stop σ α) >>= f) s = f a s :=
  run_bind_of_ok (run_lift_eq_ok.2 ⟨h, rfl⟩)

/-- Two checked computations in sequence may be lifted one by one. -/
theorem lift_bind (x : Checked α) (f : α → Checked β) :
    (liftM (x >>= f) : EStateM Stop σ β) = liftM x >>= fun a => liftM (f a) := by
  funext s
  cases x <;> rfl

/-- What a list of runs gives, some run of a member gives. -/
theorem exists_run_of_mem_mapM {f : α → EStateM ε σ β} : ∀ {l : List α} {l' : List β} {s s' : σ},
    l.mapM f s = .ok l' s' → ∀ b ∈ l', ∃ a ∈ l, ∃ s₁ s₂, f a s₁ = .ok b s₂
  | [], l', s, s', h, b, hb => by
    rw [List.mapM_nil] at h
    obtain ⟨rfl, _⟩ := run_pure_eq_ok.1 h
    exact absurd hb List.not_mem_nil
  | a :: l, l', s, s', h, b, hb => by
    rw [List.mapM_cons] at h
    obtain ⟨first, s₁, hfirst, h⟩ := run_bind_eq_ok.1 h
    obtain ⟨rest, s₂, hrest, h⟩ := run_bind_eq_ok.1 h
    obtain ⟨rfl, _⟩ := run_pure_eq_ok.1 h
    rcases List.mem_cons.1 hb with rfl | hb
    · exact ⟨a, List.mem_cons_self .., s, s₁, hfirst⟩
    · obtain ⟨c, hc, hrun⟩ := exists_run_of_mem_mapM hrest b hb
      exact ⟨c, List.mem_cons_of_mem _ hc, hrun⟩

end State

/-! ### Overflow as the only fault -/

/-- Whether a computation can end in no fault but an overflow. -/
def OverflowsOnly {α : Type} (x : Checked α) : Prop := ∀ f, x = .error f → ∃ op, f = .overflow op

namespace OverflowsOnly
variable {α β : Type}

theorem ok (a : α) : OverflowsOnly (.ok a) := nofun

theorem pure (a : α) : OverflowsOnly (Pure.pure a : Checked α) := nofun

theorem bind {x : Checked α} {f : α → Checked β} (hx : OverflowsOnly x)
    (hf : ∀ a, OverflowsOnly (f a)) : OverflowsOnly (x >>= f) := by
  intro fault h
  rcases bind_eq_error.1 h with h | ⟨a, _, h⟩
  · exact hx fault h
  · exact hf a fault h

/-- What follows a computation is about the values that it gives. -/
theorem bind_of_ok {x : Checked α} {f : α → Checked β} (hx : OverflowsOnly x)
    (hf : ∀ a, x = .ok a → OverflowsOnly (f a)) : OverflowsOnly (x >>= f) := by
  intro fault h
  rcases bind_eq_error.1 h with h | ⟨a, ha, h⟩
  · exact hx fault h
  · exact hf a ha fault h

theorem foldlM {f : β → α → Checked β} (hf : ∀ b a, OverflowsOnly (f b a)) (l : List α) (b : β) :
    OverflowsOnly (l.foldlM f b) := by
  induction l generalizing b with
  | nil => exact pure b
  | cons a l ih => exact bind (hf b a) ih

theorem mapM {f : α → Checked β} (hf : ∀ a, OverflowsOnly (f a)) (l : List α) :
    OverflowsOnly (l.mapM f) := by
  intro fault h
  obtain ⟨a, _, h⟩ := mapM_eq_error h
  exact hf a fault h

theorem checked (op : Arithmetic) (value : Int) : OverflowsOnly (Word.checked op value) := by
  intro f h
  exact ⟨op, (Word.checked_eq_error_iff.1 h).2⟩

end OverflowsOnly

end PseudoBoolean
