import RoutePlugins.Proofs.Motion

/-!
# Computations in lockstep

Two computations go in lockstep if from related states they end alike: both succeed, with related
values, or both fail, with the same fault, and either way in related states.
-/

namespace RoutePlugins

variable {ε σ α β γ δ : Type}

/-- Two results are alike: both are values, and related, or both are the same fault. -/
inductive ResultsAlike (V : α → β → Prop) : Except ε α → Except ε β → Prop
  | ok {a : α} {b : β} (hv : V a b) : ResultsAlike V (.ok a) (.ok b)
  | error (e : ε) : ResultsAlike V (.error e) (.error e)

theorem ResultsAlike.refl (x : Except ε α) : ResultsAlike Eq x x := by
  cases x with
  | ok a => exact .ok rfl
  | error e => exact .error e

theorem ResultsAlike.ok_or_error {V : α → β → Prop} {x : Except ε α} {y : Except ε β}
    (h : ResultsAlike V x y) :
    (∃ a b, x = .ok a ∧ y = .ok b ∧ V a b) ∨ ∃ e, x = .error e ∧ y = .error e := by
  cases h with
  | ok hv => exact .inl ⟨_, _, rfl, rfl, hv⟩
  | error e => exact .inr ⟨e, rfl, rfl⟩

/-- Two runs end alike. -/
inductive EndAlike (R : σ → σ → Prop) (V : α → β → Prop) :
    EStateM.Result ε σ α → EStateM.Result ε σ β → Prop
  | ok {a : α} {b : β} {s t : σ} (hv : V a b) (hr : R s t) : EndAlike R V (.ok a s) (.ok b t)
  | error {e : ε} {s t : σ} (hr : R s t) : EndAlike R V (.error e s) (.error e t)

/-- Two computations end alike from related states. -/
def Lockstep (R : σ → σ → Prop) (V : α → β → Prop) (m : EStateM ε σ α) (m' : EStateM ε σ β) :
    Prop :=
  ∀ s t, R s t → EndAlike R V (m s) (m' t)

variable {R : σ → σ → Prop} {V W : α → β → Prop} {x : EStateM.Result ε σ α}
  {y : EStateM.Result ε σ β}

theorem EndAlike.ok_or_error (h : EndAlike R V x y) :
    (∃ a b s t, x = .ok a s ∧ y = .ok b t ∧ V a b ∧ R s t) ∨
      ∃ e s t, x = .error e s ∧ y = .error e t ∧ R s t := by
  cases h with
  | ok hv hr => exact .inl ⟨_, _, _, _, rfl, rfl, hv, hr⟩
  | error hr => exact .inr ⟨_, _, _, rfl, rfl, hr⟩

theorem EndAlike.mono (hxy : EndAlike R V x y) (h : ∀ a b, V a b → W a b) : EndAlike R W x y := by
  cases hxy with
  | ok hv hr => exact .ok (h _ _ hv) hr
  | error hr => exact .error hr

namespace Lockstep

variable {m n : EStateM ε σ α} {m' n' : EStateM ε σ β} {a : α} {b : β} {s s' t t' : σ} {e : ε}

theorem pure (h : V a b) :
    Lockstep R V (pure a : EStateM ε σ α) (pure b) := fun _ _ hr => .ok h hr

theorem throw (e : ε) : Lockstep R V (throw e : EStateM ε σ α) (throw e) := fun _ _ hr => .error hr

theorem get : Lockstep R R (MonadState.get : EStateM ε σ σ) MonadState.get :=
  fun _ _ hr => .ok hr hr

theorem lift {R : σ → σ → Prop} {x : Except Fault α} {y : Except Fault β}
    (h : ResultsAlike V x y) :
    Lockstep R V (Files.lift x : EStateM Fault σ α) (Files.lift y) := by
  intro s t hr
  cases h with
  | ok hv => exact .ok hv hr
  | error e => exact .error hr

/-- The values of computations in lockstep may be less closely related. -/
theorem mono (hm : Lockstep R V m m') (h : ∀ a b, V a b → W a b) : Lockstep R W m m' :=
  fun s t hr => (hm s t hr).mono h

/-- One after the other. -/
theorem bind {W : γ → δ → Prop} {f : α → EStateM ε σ γ} {f' : β → EStateM ε σ δ}
    (hm : Lockstep R V m m')
    (hf : ∀ a b, V a b → Lockstep R W (f a) (f' b)) : Lockstep R W (m >>= f) (m' >>= f') := by
  intro s t hr
  obtain ⟨a, b, u, v, hs, ht, hv, hu⟩ | ⟨e, u, v, hs, ht, hu⟩ := (hm s t hr).ok_or_error
  · rw [bind_of_ok hs, bind_of_ok ht]
    exact hf a b hv u v hu
  · rw [bind_of_error hs, bind_of_error ht]
    exact .error hu

/-- One after the other, where the first gives both the same value. -/
theorem bind_eq {W : γ → δ → Prop} {m m' : EStateM ε σ α} {f : α → EStateM ε σ γ}
    {f' : α → EStateM ε σ δ} (hm : Lockstep R Eq m m')
    (hf : ∀ a, Lockstep R W (f a) (f' a)) : Lockstep R W (m >>= f) (m' >>= f') :=
  hm.bind fun a _ hab => hab ▸ hf a

theorem ite {c : Prop} [Decidable c]
    (hm : Lockstep R V m m') (hn : Lockstep R V n n') :
    Lockstep R V (if c then m else n) (if c then m' else n') := by
  split
  · exact hm
  · exact hn

/-- One after the other over lists, where what is given is related item by item. -/
theorem mapM {W : γ → δ → Prop} {f : α → EStateM ε σ γ} {f' : β → EStateM ε σ δ} {as : List α}
    {bs : List β} (hl : List.Forall₂ V as bs) (h : ∀ a b, V a b → Lockstep R W (f a) (f' b)) :
    Lockstep R (List.Forall₂ W) (as.mapM f) (bs.mapM f') := by
  induction hl with
  | nil => exact .pure .nil
  | cons hv _ ih =>
    rw [List.mapM_cons, List.mapM_cons]
    exact (h _ _ hv).bind fun _ _ hw => ih.bind fun _ _ hws => .pure (.cons hw hws)

/-- What the first of two computations in lockstep always gives may be added to the relation. -/
theorem and_left (hm : Lockstep R V m m') {P : α → Prop}
    (h : ∀ s a s', m s = .ok a s' → P a) : Lockstep R (fun a b => V a b ∧ P a) m m' := by
  intro s t hr
  obtain ⟨a, b, u, v, hs, ht, hv, hu⟩ | ⟨e, u, v, hs, ht, hu⟩ := (hm s t hr).ok_or_error
  · rw [hs, ht]
    exact .ok ⟨hv, h s a u hs⟩ hu
  · rw [hs, ht]
    exact .error hu

/-- Where the first of two computations in lockstep succeeds, so does the second. -/
theorem of_ok (hm : Lockstep R V m m') (hr : R s t) (hs : m s = .ok a s') :
    ∃ b t', m' t = .ok b t' ∧ V a b ∧ R s' t' := by
  have halike := hm s t hr
  rw [hs] at halike
  generalize m' t = y at halike
  cases halike with
  | ok hv hr' => exact ⟨_, _, rfl, hv, hr'⟩

/-- Where the first of two computations in lockstep fails, so does the second, with its fault. -/
theorem of_error (hm : Lockstep R V m m') (hr : R s t) (hs : m s = .error e s') :
    ∃ t', m' t = .error e t' ∧ R s' t' := by
  have halike := hm s t hr
  rw [hs] at halike
  generalize m' t = y at halike
  cases halike with
  | error hr' => exact ⟨_, rfl, hr'⟩

/-- The values that two computations in lockstep give are related. -/
theorem related (hm : Lockstep R V m m') (hr : R s t) (hs : m s = .ok a s')
    (ht : m' t = .ok b t') : V a b := by
  obtain ⟨b', u, hb, hv, -⟩ := hm.of_ok hr hs
  cases hb.symm.trans ht
  exact hv

end Lockstep

end RoutePlugins
