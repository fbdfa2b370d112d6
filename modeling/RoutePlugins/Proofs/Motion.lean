import Mathlib.Data.List.Forall2
import Mathlib.Order.Defs.Unbundled
import RoutePlugins.World

/-!
# Motions of a state

A computation that may fail moves its state along a relation if it does so on every run, whether the
run succeeds or fails. For a reflexive and transitive relation, computations that move along it may
be put one after the other. What a run leaves alone, and what it keeps true, are both said in this
way.
-/

namespace RoutePlugins

variable {ε σ α β : Type} {s t u : σ} {a : α} {b : β} {e : ε}

/-- The state in which a run ends, whether it failed or not. -/
def endState : EStateM.Result ε σ α → σ
  | .ok _ s => s
  | .error _ s => s

@[simp] theorem endState_ok (a : α) (s : σ) : endState (.ok a s : EStateM.Result ε σ α) = s := rfl

@[simp] theorem endState_error (e : ε) (s : σ) :
    endState (.error e s : EStateM.Result ε σ α) = s := rfl

/-- What a run gives, whatever its state: a value or a fault. -/
def outcome : EStateM.Result ε σ α → Except ε α
  | .ok a _ => .ok a
  | .error e _ => .error e

@[simp] theorem outcome_ok (a : α) (s : σ) :
    outcome (.ok a s : EStateM.Result ε σ α) = .ok a := rfl

@[simp] theorem outcome_error (e : ε) (s : σ) :
    outcome (.error e s : EStateM.Result ε σ α) = .error e := rfl

section

variable {x : EStateM.Result ε σ α}

theorem eq_ok_of_outcome (h : outcome x = .ok a) : x = .ok a (endState x) := by
  cases x with
  | ok b s =>
    cases h
    rfl
  | error e s => cases h

theorem eq_error_of_outcome (h : outcome x = .error e) : x = .error e (endState x) := by
  cases x with
  | ok b s => cases h
  | error e' s =>
    cases h
    rfl

/-- What is seen of a run that succeeds. -/
def observe (view : α → σ → β) : EStateM.Result ε σ α → Option β
  | .ok a s => some (view a s)
  | .error .. => none

theorem ok_of_observe {view : α → σ → β} (h : observe view x = some b) :
    ∃ a s, x = .ok a s ∧ view a s = b := by
  cases x with
  | ok a s => exact ⟨a, s, rfl, Option.some.inj h⟩
  | error e s => cases h

theorem ok_of_toOption {x : Except ε α} (h : x.toOption = some a) : x = .ok a := by
  cases x with
  | ok b => exact congrArg Except.ok (Option.some.inj h)
  | error e => cases h

/-- What is seen of a run that fails. -/
def observeFault (view : ε → σ → β) : EStateM.Result ε σ α → Option β
  | .ok .. => none
  | .error e s => some (view e s)

theorem error_of_observeFault {view : ε → σ → β} (h : observeFault view x = some b) :
    ∃ e s, x = .error e s ∧ view e s = b := by
  cases x with
  | ok a s => cases h
  | error e s => exact ⟨e, s, rfl, Option.some.inj h⟩

end

variable {m : EStateM ε σ α} {f : α → EStateM ε σ β} {l : List α}

/-- A result that is handed on is the result of a computation, turned into another. -/
theorem outcome_bind_pure (m : EStateM ε σ α) (f : α → β) (s : σ) :
    outcome ((m >>= fun a => pure (f a)) s) = (outcome (m s)).map f := by
  change outcome (EStateM.bind m _ s) = _
  unfold EStateM.bind
  cases m s with
  | ok a t => rfl
  | error e t => rfl

/-- Two computations in a row succeed if the first gives the second what it needs to succeed. -/
theorem bind_eq_ok :
    (m >>= f) s = .ok b t ↔ ∃ a u, m s = .ok a u ∧ f a u = .ok b t := by
  change EStateM.bind m f s = _ ↔ _
  unfold EStateM.bind
  cases m s with
  | ok a u =>
    constructor
    · intro h
      exact ⟨a, u, rfl, h⟩
    · rintro ⟨a', u', ⟨⟩, h⟩
      exact h
  | error e u => simp

/-- A computation whose value is changed succeeds if it does. -/
theorem map_eq_ok {f : α → β} :
    (f <$> m) s = .ok b t ↔ ∃ a, m s = .ok a t ∧ f a = b := by
  rw [map_eq_pure_bind, bind_eq_ok]
  constructor
  · rintro ⟨a, u, hm, ⟨⟩⟩
    exact ⟨a, hm, rfl⟩
  · rintro ⟨a, hm, rfl⟩
    exact ⟨a, t, hm, rfl⟩

/-- What comes after a computation that succeeds. -/
theorem bind_of_ok (h : m s = .ok a u) : (m >>= f) s = f a u := by
  change EStateM.bind m f s = _
  simp only [EStateM.bind, h]

/-- Nothing comes after a computation that fails. -/
theorem bind_of_error (h : m s = .error e u) : (m >>= f) s = .error e u := by
  change EStateM.bind m f s = _
  simp only [EStateM.bind, h]

/-- Two computations in a row fail if the first does, or else the second. -/
theorem bind_eq_error : (m >>= f) s = .error e t ↔
    m s = .error e t ∨ ∃ a u, m s = .ok a u ∧ f a u = .error e t := by
  cases h : m s with
  | ok a u =>
    rw [bind_of_ok h]
    simp
  | error e' u =>
    rw [bind_of_error h]
    simp

/-- A run ends where it did if what is added to it changes no state. -/
theorem endState_bind (hf : ∀ a t, endState (f a t) = t) (s : σ) :
    endState ((m >>= f) s) = endState (m s) := by
  cases h : m s with
  | ok a t =>
    rw [bind_of_ok h]
    exact hf a t
  | error e t =>
    rw [bind_of_error h]
    rfl

/-- Two results in a row succeed if the first gives the second what it needs to succeed. -/
theorem bind_ok_iff {x : Except ε α} {f : α → Except ε β} :
    (x >>= f) = .ok b ↔ ∃ a, x = .ok a ∧ f a = .ok b := by
  cases x with
  | ok a => simp [bind, Except.bind]
  | error e => simp [bind, Except.bind]

@[simp] theorem lift_ok (a : α) (s : σ) :
    (Files.lift (.ok a) : EStateM Fault σ α) s = .ok a s := rfl

@[simp] theorem lift_error (e : Fault) (s : σ) :
    (Files.lift (.error e) : EStateM Fault σ α) s = .error e s := rfl

/-- Raising the fault of a result leaves the state alone. -/
theorem lift_eq_ok {x : Except Fault α} :
    (Files.lift x : EStateM Fault σ α) s = .ok a t ↔ x = .ok a ∧ s = t := by
  cases x with
  | ok b => simp
  | error e => simp

/-- A computation after the raise of a result succeeds if both do. -/
theorem lift_bind_eq_ok {x : Except Fault α} {f : α → EStateM Fault σ β} :
    ((Files.lift x : EStateM Fault σ α) >>= f) s = .ok b t ↔
      ∃ a, x = .ok a ∧ f a s = .ok b t := by
  cases x with
  | ok a =>
    rw [bind_of_ok (lift_ok a s)]
    simp
  | error e =>
    rw [bind_of_error (lift_error e s)]
    simp

/-- Two lists item by item through a third. -/
theorem forall_mem_concat {P : α → Prop} : (∀ x ∈ l ++ [a], P x) ↔ (∀ x ∈ l, P x) ∧ P a := by
  rw [List.forall_mem_append, List.forall_mem_singleton]

theorem forall₂_chain {γ : Type} {A : α → β → Prop} {B : β → γ → Prop} {T : α → γ → Prop}
    (ht : ∀ a b c, A a b → B b c → T a c) {m : List β} {n : List γ}
    (h : List.Forall₂ A l m) (h' : List.Forall₂ B m n) : List.Forall₂ T l n := by
  induction h generalizing n with
  | nil =>
    cases h'
    exact .nil
  | cons hab _ ih =>
    cases h' with
    | cons hbc hrest => exact .cons (ht _ _ _ hab hbc) (ih hrest)

theorem exists_of_forall₂_left {A : α → β → Prop} {m : List β}
    (h : List.Forall₂ A l m) (ha : a ∈ l) : ∃ b ∈ m, A a b := by
  induction h with
  | nil => simp at ha
  | cons hab _ ih =>
    obtain rfl | ha := List.mem_cons.mp ha
    · exact ⟨_, by simp, hab⟩
    · obtain ⟨b, hb, hab⟩ := ih ha
      exact ⟨b, by simp [hb], hab⟩

/-- A traversal of results succeeds item by item. -/
theorem forall₂_of_except_mapM {f : α → Except ε β} {m : List β}
    (h : l.mapM f = .ok m) : List.Forall₂ (fun a b => f a = .ok b) l m := by
  induction l generalizing m with
  | nil =>
    cases h
    exact .nil
  | cons a l ih =>
    rw [List.mapM_cons] at h
    obtain ⟨b, hb, h⟩ := bind_ok_iff.mp h
    obtain ⟨bs, hbs, h⟩ := bind_ok_iff.mp h
    cases h
    exact .cons hb (ih hbs)

/-- What a search finds is in the list and passes the test. -/
theorem mem_of_findM? {f : α → Except ε Bool}
    (h : l.findM? f = .ok (some a)) : a ∈ l ∧ f a = .ok true := by
  induction l with
  | nil => cases h
  | cons b rest ih =>
    rw [List.findM?] at h
    obtain ⟨found, hb, h⟩ := bind_ok_iff.mp h
    cases found with
    | true =>
      cases h
      exact ⟨by simp, hb⟩
    | false =>
      obtain ⟨hm, ha⟩ := ih h
      exact ⟨by simp [hm], ha⟩

theorem findM?_congr {f g : α → Except ε Bool} (h : ∀ a ∈ l, f a = g a) :
    l.findM? f = l.findM? g := by
  induction l with
  | nil => rfl
  | cons a rest ih =>
    rw [List.findM?, List.findM?, h a (by simp), ih fun b hb => h b (by simp [hb])]

/-- A property holds after a motion if it held before. -/
def Keeps (P : σ → Prop) (s t : σ) : Prop := P s → P t

instance (P : σ → Prop) : IsPreorder σ (Keeps P) where
  refl _ := id
  trans _ _ _ h h' := h' ∘ h

/-- Every run of `m` moves the state along `R`. -/
def Moves (R : σ → σ → Prop) (m : EStateM ε σ α) : Prop := ∀ s, R s (endState (m s))

namespace Moves

variable {R : σ → σ → Prop}

/-- A computation that moves along a relation moves along a wider one. -/
theorem mono {R' : σ → σ → Prop} (h : ∀ s t, R s t → R' s t)
    (hm : Moves R m) : Moves R' m := fun s => h s _ (hm s)

theorem of_ok (hm : Moves R m) (h : m s = .ok a t) : R s t := by
  have hs := hm s
  rwa [h] at hs

theorem of_error (hm : Moves R m) (h : m s = .error e t) : R s t := by
  have hs := hm s
  rwa [h] at hs

/-- What is done with the state that was looked up may be judged at that state. -/
theorem get_bind {f : σ → EStateM ε σ β} (h : ∀ s, R s (endState (f s s))) :
    Moves R (MonadState.get >>= f) := h

theorem modify {f : σ → σ} (h : ∀ s, R s (f s)) :
    Moves R (modify f : EStateM ε σ Unit) := h

theorem ite {c : Prop} [Decidable c] {m m' : EStateM ε σ α} (h : Moves R m)
    (h' : Moves R m') : Moves R (if c then m else m') := by
  split
  · exact h
  · exact h'

variable [IsPreorder σ R]

theorem pure (a : α) : Moves R (pure a : EStateM ε σ α) := fun s => refl_of R s

theorem throw (e : ε) : Moves R (throw e : EStateM ε σ α) := fun s => refl_of R s

theorem get : Moves R (MonadState.get : EStateM ε σ σ) := fun s => refl_of R s

theorem lift {R : σ → σ → Prop} [IsPreorder σ R] (x : Except Fault α) :
    Moves R (Files.lift x : EStateM Fault σ α) := by
  intro s
  cases x with
  | ok a => exact refl_of R s
  | error e => exact refl_of R s

/-- What follows a step from a state starts from what the step gives there. -/
theorem bind_at (hm : Moves R m) (hf : ∀ a t, m s = .ok a t → R t (endState (f a t))) :
    R s (endState ((m >>= f) s)) := by
  cases h : m s with
  | error e u =>
    rw [bind_of_error h]
    exact hm.of_error h
  | ok a u =>
    rw [bind_of_ok h]
    exact trans_of R (hm.of_ok h) (hf a u h)

/-- What follows a step starts from what the step can give. -/
theorem bind_from (hm : Moves R m) (hf : ∀ s a t, m s = .ok a t → R t (endState (f a t))) :
    Moves R (m >>= f) := fun s => hm.bind_at (hf s)

theorem bind (hm : Moves R m) (hf : ∀ a, Moves R (f a)) : Moves R (m >>= f) :=
  hm.bind_from fun _ a t _ => hf a t

theorem forM {f : α → EStateM ε σ PUnit} (h : ∀ a ∈ l, Moves R (f a)) :
    Moves R (l.forM f) := by
  induction l with
  | nil => exact pure _
  | cons a l ih =>
    change Moves R (f a >>= fun _ => l.forM f)
    exact (h a (by simp)).bind fun _ => ih fun b hb => h b (by simp [hb])

theorem mapM (h : ∀ a ∈ l, Moves R (f a)) : Moves R (l.mapM f) := by
  induction l with
  | nil => exact pure _
  | cons a l ih =>
    rw [List.mapM_cons]
    refine (h a (by simp)).bind fun b => ?_
    exact (ih fun c hc => h c (by simp [hc])).bind fun bs => pure _

theorem foldlM {f : β → α → EStateM ε σ β} (b : β)
    (h : ∀ b, ∀ a ∈ l, Moves R (f b a)) : Moves R (l.foldlM f b) := by
  induction l generalizing b with
  | nil => exact pure _
  | cons a l ih =>
    rw [List.foldlM_cons]
    exact (h b a (by simp)).bind fun c => ih c fun d e he => h d e (by simp [he])

/-- What a traversal gives for each item, it gives after a motion from where it began. -/
theorem forall₂_of_mapM (hf : ∀ a, Moves R (f a)) {l' : List β} (h : l.mapM f s = .ok l' t) :
    List.Forall₂ (fun a b => ∃ u v, R s u ∧ f a u = .ok b v) l l' := by
  induction l generalizing l' s with
  | nil =>
    cases h
    exact .nil
  | cons a l ih =>
    rw [List.mapM_cons] at h
    obtain ⟨b, u, hb, h⟩ := bind_eq_ok.mp h
    obtain ⟨bs, v, hbs, h⟩ := bind_eq_ok.mp h
    cases h
    refine .cons ⟨s, u, refl_of R s, hb⟩ ((ih hbs).imp fun a' b' hab => ?_)
    obtain ⟨u', v', hu, hv⟩ := hab
    exact ⟨u', v', trans_of R ((hf a).of_ok hb) hu, hv⟩

end Moves

/-- From every state with a property, a run gives `x` and ends in a state with the property. -/
def Gives (P : σ → Prop) (m : EStateM ε σ α) (x : Except ε α) : Prop :=
  ∀ s, P s → outcome (m s) = x ∧ P (endState (m s))

namespace Gives

variable {P : σ → Prop}

theorem of_ok (h : Gives P m (.ok a)) (hs : P s) : ∃ t, m s = .ok a t ∧ P t := by
  obtain ⟨hm, hp⟩ := h s hs
  exact ⟨_, eq_ok_of_outcome hm, hp⟩

theorem of_error (h : Gives P m (.error e)) (hs : P s) : ∃ t, m s = .error e t ∧ P t := by
  obtain ⟨hm, hp⟩ := h s hs
  exact ⟨_, eq_error_of_outcome hm, hp⟩

theorem lift {P : σ → Prop} (x : Except Fault α) :
    Gives P (Files.lift x : EStateM Fault σ α) x := by
  intro s hs
  cases x with
  | ok a => exact ⟨rfl, hs⟩
  | error e => exact ⟨rfl, hs⟩

theorem bind {x : Except ε α} {y : α → Except ε β} (h : Gives P m x)
    (hf : ∀ a, Gives P (f a) (y a)) : Gives P (m >>= f) (x >>= y) := by
  intro s hs
  cases x with
  | ok a =>
    obtain ⟨t, ht, hp⟩ := h.of_ok hs
    rw [bind_of_ok ht]
    exact hf a t hp
  | error e =>
    obtain ⟨t, ht, hp⟩ := h.of_error hs
    rw [bind_of_error ht]
    exact ⟨rfl, hp⟩

theorem map {x : Except ε α} (h : Gives P m x) (f : α → β) :
    Gives P (m >>= fun a => pure (f a)) (x.map f) :=
  h.bind (y := fun a => .ok (f a)) fun _ _ hs => ⟨rfl, hs⟩

end Gives

end RoutePlugins
