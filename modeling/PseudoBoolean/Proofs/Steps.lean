import PseudoBoolean.Proofs.Run

/-!
Runs that follow a plan.

A plan is a list of steps: effects, which the journal notes, and computations, which it does not. A
run takes the steps from the left, each on the files that the one before it left, and ends at the
first one that is stopped:

    done, each with success  │  the step that is stopped  │  never attempted

What later steps are depends on what earlier ones gave, so a run follows one of many plans, one for
each way in which its steps can answer (`Planned`).
-/

namespace PseudoBoolean

/-- A step: what the journal notes of it, and how it may end on some files. -/
structure Step where
  effect? : Option Effect
  Ends : Store → Option Stop → Store → Prop

namespace Step

/-- An effect that gives a value or is stopped. -/
def perform {α : Type} (e : Effect) (x : Action α) (value : α) : Step where
  effect? := some e
  Ends
    | s, none, s' => x s = .ok value s'
    | s, some stop, s' => x s = .error stop s'

/-- A computation that gives a value or ends in a fault; it leaves the files alone. -/
def compute {α : Type} (x : Checked α) (value : α) : Step where
  effect? := none
  Ends
    | s, none, s' => x = .ok value ∧ s' = s
    | s, some stop, s' => (∃ f, x = .error f ∧ stop = .fault f) ∧ s' = s

/-- What the journal notes of an attempt. -/
def record (step : Step) (succeeded : Bool) : List JournalEntry :=
  step.effect?.toList.map (⟨·, succeeded⟩)

end Step

/-! ### Sessions -/

/-- Whether the steps of a plan were taken one after the other, all with success. -/
def Performed : List Step → Session → Session → Prop
  | [], s, s' => s' = s
  | step :: plan, s, s' => ∃ store, step.Ends s.store none store ∧
      Performed plan ⟨store, s.journal ++ step.record true⟩ s'

/-- Whether a run was cut in a plan: one step was stopped after all before it succeeded. -/
inductive Cut (plan : List Step) (s : Session) (stop : Stop) : Session → Prop
  | intro {done step s₁ store} (hfirst : done ++ [step] <+: plan) (hdone : Performed done s s₁)
      (hend : step.Ends s₁.store (some stop) store) :
      Cut plan s stop ⟨store, s₁.journal ++ step.record false⟩

/-- Whether a run took all of a plan and answers with a value, or was cut in it. -/
def Follows {α : Type} (plan : List Step) (s : Session) (value : α) :
    EStateM.Result Stop Session α → Prop
  | .ok a s' => a = value ∧ Performed plan s s'
  | .error stop s' => Cut plan s stop s'

theorem performed_append : ∀ {plan plan' : List Step} {s s' : Session},
    Performed (plan ++ plan') s s' ↔ ∃ s₁, Performed plan s s₁ ∧ Performed plan' s₁ s'
  | [], _, s, s' => by
    constructor
    · intro h
      exact ⟨s, rfl, h⟩
    · rintro ⟨s₁, rfl, h⟩
      exact h
  | step :: plan, plan', s, s' => by
    constructor
    · rintro ⟨store, hend, h⟩
      obtain ⟨s₁, h₁, h₂⟩ := performed_append.1 h
      exact ⟨s₁, ⟨store, hend, h₁⟩, h₂⟩
    · rintro ⟨s₁, ⟨store, hend, h₁⟩, h₂⟩
      exact ⟨store, hend, performed_append.2 ⟨s₁, h₁, h₂⟩⟩

/-- Plans that can each be performed, and that keep what they need, can be performed in sequence. -/
theorem performed_flatMap {α : Type} {plan : α → List Step} {P : Session → Prop} {l : List α}
    (h : ∀ a ∈ l, ∀ s, P s → ∃ s', Performed (plan a) s s' ∧ P s') {s : Session} (hs : P s) :
    ∃ s', Performed (l.flatMap plan) s s' := by
  induction l generalizing s with
  | nil => exact ⟨s, rfl⟩
  | cons a l ih =>
    obtain ⟨s₁, hfirst, hs₁⟩ := h a (List.mem_cons_self ..) s hs
    obtain ⟨s', hrest⟩ := ih (fun b hb => h b (List.mem_cons_of_mem _ hb)) hs₁
    rw [List.flatMap_cons]
    exact ⟨s', performed_append.2 ⟨s₁, hfirst, hrest⟩⟩

/-- Every step of a plan that was performed ended with success on some files. -/
theorem Performed.exists_ends {plan : List Step} {s s' : Session} (h : Performed plan s s') :
    ∀ step ∈ plan, ∃ store store', step.Ends store none store' := by
  induction plan generalizing s with
  | nil => exact nofun
  | cons step plan ih =>
    obtain ⟨store, hend, h⟩ := h
    intro other hother
    rcases List.mem_cons.1 hother with rfl | hother
    · exact ⟨s.store, store, hend⟩
    · exact ih h other hother

section Cut
variable {plan plan' : List Step} {s s₁ s' : Session} {stop : Stop}

theorem Cut.singleton {step : Step} {store : Store} (hend : step.Ends s.store (some stop) store) :
    Cut [step] s stop ⟨store, s.journal ++ step.record false⟩ :=
  have hdone : Performed [] s s := rfl
  .intro (List.prefix_refl [step]) hdone hend

/-- A cut in the first part of a plan is a cut in the plan. -/
theorem Cut.append_right (h : Cut plan s stop s') : Cut (plan ++ plan') s stop s' := by
  obtain ⟨hfirst, hdone, hend⟩ := h
  exact ⟨hfirst.trans (List.prefix_append ..), hdone, hend⟩

/-- A cut in what is left of a plan is a cut in the plan. -/
theorem Cut.append_left (hbefore : Performed plan s s₁) (h : Cut plan' s₁ stop s') :
    Cut (plan ++ plan') s stop s' := by
  obtain ⟨hfirst, hdone, hend⟩ := h
  refine ⟨?_, performed_append.2 ⟨s₁, hbefore, hdone⟩, hend⟩
  rw [List.append_assoc]
  exact (List.prefix_append_right_inj plan).2 hfirst

end Cut

/-! ### The journal -/

/-- The effects of a plan, in order. -/
def effectsOf (plan : List Step) : List Effect := plan.filterMap Step.effect?

theorem effectsOf_append (plan plan' : List Step) :
    effectsOf (plan ++ plan') = effectsOf plan ++ effectsOf plan' :=
  List.filterMap_append

theorem Step.record_eq (step : Step) (succeeded : Bool) :
    step.record succeeded = (effectsOf [step]).map (⟨·, succeeded⟩) := by
  cases h : step.effect? <;> simp [record, effectsOf, h]

/-- The journal grows by the effects of what was performed. -/
theorem Performed.journal_eq : ∀ {plan : List Step} {s s' : Session}, Performed plan s s' →
    s'.journal = s.journal ++ (effectsOf plan).map (⟨·, true⟩)
  | [], s, s', h => by
    obtain rfl : s' = s := h
    exact (List.append_nil _).symm
  | step :: plan, s, s', ⟨store, _, h⟩ => by
    have hcons : effectsOf (step :: plan) = effectsOf [step] ++ effectsOf plan :=
      effectsOf_append [step] plan
    rw [Performed.journal_eq h, Step.record_eq, hcons, List.map_append, List.append_assoc]

/-- The journal of a cut run: the effects of a first part of the plan, the last of them without
success if the step that was stopped is an effect. -/
theorem Cut.journal_eq {plan : List Step} {s s' : Session} {stop : Stop}
    (h : Cut plan s stop s') :
    ∃ done last, done ++ last <+: effectsOf plan ∧ last.length ≤ 1 ∧
      s'.journal = s.journal ++ (done.map (⟨·, true⟩) ++ last.map (⟨·, false⟩)) := by
  obtain @⟨done, step, s₁, store, hfirst, hdone, hend⟩ := h
  refine ⟨effectsOf done, effectsOf [step], ?_, ?_, ?_⟩
  · rw [← effectsOf_append]
    exact hfirst.filterMap _
  · exact List.length_filterMap_le _ [step]
  · show s₁.journal ++ step.record false = _
    rw [hdone.journal_eq, Step.record_eq, List.append_assoc]

/-! ### Runs -/

/-- Whether a run, from every session, follows one of some plans and answers with its value. -/
def Planned {γ α : Type} (plan : γ → List Step) (value : γ → α) (x : Run α) : Prop :=
  ∀ s, ∃ c, Follows (plan c) s (value c) (x s)

namespace Planned
variable {α β γ δ : Type}

theorem pure (a : α) : Planned (fun _ : Unit => []) (fun _ => a) (Pure.pure a) :=
  fun _ => ⟨(), rfl, rfl⟩

/-- An effect is performed with what it gives, or the run is cut there. -/
theorem perform [Nonempty α] (e : Effect) (x : Action α) :
    Planned (fun a => [.perform e x a]) (fun a => a) (PseudoBoolean.perform e x) := by
  intro s
  cases h : x s.store with
  | ok a store =>
    refine ⟨a, ?_⟩
    rw [perform_eq_ok.2 ⟨store, h, rfl⟩]
    exact ⟨rfl, store, h, rfl⟩
  | error stop store =>
    refine ⟨Classical.arbitrary α, ?_⟩
    rw [perform_eq_error.2 ⟨store, h, rfl⟩]
    exact Cut.singleton h

/-- A computation gives a value, or its fault cuts the run. -/
theorem compute [Nonempty α] (x : Checked α) :
    Planned (fun a => [.compute x a]) (fun a => a) (liftM x : Run α) := by
  intro s
  have hsame : Session.mk s.store (s.journal ++ []) = s := by rw [List.append_nil]
  cases h : x with
  | ok a => exact ⟨a, rfl, s.store, ⟨rfl, rfl⟩, hsame.symm⟩
  | error f =>
    refine ⟨Classical.arbitrary α, ?_⟩
    have hcut : Cut [.compute (.error f) (Classical.arbitrary α)] s (.fault f)
        ⟨s.store, s.journal ++ []⟩ := Cut.singleton ⟨⟨f, rfl, rfl⟩, rfl⟩
    rw [hsame] at hcut
    exact hcut

/-- Two runs in sequence follow their plans in sequence. -/
theorem bind {x : Run α} {f : α → Run β} {plan : γ → List Step} {value : γ → α}
    {plan' : α → δ → List Step} {value' : α → δ → β} (hx : Planned plan value x)
    (hf : ∀ a, Planned (plan' a) (value' a) (f a)) :
    Planned (fun c : γ × δ => plan c.1 ++ plan' (value c.1) c.2)
      (fun c => value' (value c.1) c.2) (x >>= f) := by
  intro s
  obtain ⟨c, hc⟩ := hx s
  cases h : x s with
  | ok a s₁ =>
    rw [h] at hc
    obtain ⟨rfl, hdone⟩ := hc
    obtain ⟨d, hd⟩ := hf (value c) s₁
    refine ⟨(c, d), ?_⟩
    rw [run_bind_of_ok h]
    cases hrun : f (value c) s₁ with
    | ok b s₂ =>
      rw [hrun] at hd
      exact ⟨hd.1, performed_append.2 ⟨s₁, hdone, hd.2⟩⟩
    | error stop s₂ =>
      rw [hrun] at hd
      exact Cut.append_left hdone hd
  | error stop s₁ =>
    rw [h] at hc
    obtain ⟨d, _⟩ := hf (value c) s
    refine ⟨(c, d), ?_⟩
    rw [run_bind_eq_error.2 (Or.inl h)]
    exact Cut.append_right hc

/-- Runs of different members, one after the other, follow their plans in that order. -/
theorem mapM [DecidableEq α] {f : α → Run β} {plan : α → γ → List Step} {value : α → γ → β}
    (hf : ∀ a, Planned (plan a) (value a) (f a)) : ∀ {l : List α}, l.Nodup →
    Planned (fun c : α → γ => l.flatMap fun a => plan a (c a)) (fun c => l.map fun a => value a (c a))
      (l.mapM f)
  | [], _ => by
    intro s
    obtain ⟨c, _⟩ := Classical.skolem.1 fun a => hf a s
    exact ⟨c, rfl, rfl⟩
  | a :: l, h => by
    obtain ⟨ha, hl⟩ := List.nodup_cons.1 h
    have hplan := bind (hf a) fun b => bind (mapM hf hl) fun bs => pure (b :: bs)
    intro s
    obtain ⟨⟨c, cs, _⟩, hc⟩ := hplan s
    -- the choice for the first member does not touch the others
    have hrest : ∀ x ∈ l, (if x = a then c else cs x) = cs x := by
      intro x hx
      refine if_neg ?_
      rintro rfl
      exact ha hx
    have hplan : ((a :: l).flatMap fun x => plan x (if x = a then c else cs x)) =
        plan a c ++ ((l.flatMap fun x => plan x (cs x)) ++ []) := by
      rw [List.flatMap_cons, if_pos rfl, List.append_nil,
        List.flatMap_congr fun x hx => congrArg (plan x) (hrest x hx)]
    have hvalue : ((a :: l).map fun x => value x (if x = a then c else cs x)) =
        value a c :: l.map fun x => value x (cs x) := by
      rw [List.map_cons, if_pos rfl,
        List.map_congr_left fun x hx => congrArg (value x) (hrest x hx)]
    refine ⟨fun x => if x = a then c else cs x, ?_⟩
    show Follows ((a :: l).flatMap fun x => plan x (if x = a then c else cs x)) s
      ((a :: l).map fun x => value x (if x = a then c else cs x)) _
    rw [hplan, hvalue, List.mapM_cons]
    exact hc

end Planned

/-! ### Plans that can be performed -/

/-- Whether a run answers, from every session in which one of some plans can be performed, with the
value of that plan. -/
def Realizes {γ α : Type} (plan : γ → List Step) (value : γ → α) (x : Run α) : Prop :=
  ∀ c s s', Performed (plan c) s s' → x s = .ok (value c) s'

namespace Realizes
variable {α β γ δ : Type}

theorem pure (a : α) : Realizes (fun _ : Unit => []) (fun _ => a) (Pure.pure a) := by
  rintro _ s s' rfl
  rfl

theorem perform (e : Effect) (x : Action α) :
    Realizes (fun a => [.perform e x a]) (fun a => a) (PseudoBoolean.perform e x) := by
  rintro a s s' ⟨store, hx, rfl⟩
  exact perform_eq_ok.2 ⟨store, hx, rfl⟩

theorem compute (x : Checked α) :
    Realizes (fun a => [.compute x a]) (fun a => a) (liftM x : Run α) := by
  rintro a s s' ⟨store, ⟨hx, rfl⟩, rfl⟩
  have hsame : Session.mk s.store (s.journal ++ []) = s := by rw [List.append_nil]
  exact run_lift_eq_ok.2 ⟨hx, hsame.symm⟩

/-- Two runs in sequence realize their plans in sequence. -/
theorem bind {x : Run α} {f : α → Run β} {plan : γ → List Step} {value : γ → α}
    {plan' : α → δ → List Step} {value' : α → δ → β} (hx : Realizes plan value x)
    (hf : ∀ a, Realizes (plan' a) (value' a) (f a)) :
    Realizes (fun c : γ × δ => plan c.1 ++ plan' (value c.1) c.2)
      (fun c => value' (value c.1) c.2) (x >>= f) := by
  rintro ⟨c, d⟩ s s' h
  obtain ⟨s₁, hfirst, hrest⟩ := performed_append.1 h
  rw [run_bind_of_ok (hx c s s₁ hfirst)]
  exact hf (value c) d s₁ s' hrest

theorem mapM {f : α → Run β} {plan : α → γ → List Step} {value : α → γ → β}
    (hf : ∀ a, Realizes (plan a) (value a) (f a)) (l : List α) :
    Realizes (fun c : α → γ => l.flatMap fun a => plan a (c a)) (fun c => l.map fun a => value a (c a))
      (l.mapM f) := by
  induction l with
  | nil =>
    rintro c s s' rfl
    rfl
  | cons a l ih =>
    intro c s s' h
    simp only [List.flatMap_cons] at h
    obtain ⟨s₁, hfirst, hrest⟩ := performed_append.1 h
    rw [List.mapM_cons, run_bind_of_ok (hf a (c a) s s₁ hfirst), run_bind_of_ok (ih c s₁ s' hrest)]
    rfl

end Realizes

end PseudoBoolean
