import Mathlib.Logic.Function.Basic
import RoutePlugins.Proofs.Store.Reads

/-!
# Stores that share a history

Any number of stores may share one history, and their operations may come in any order. Only the
operation that ends a store adds to the history, and it adds the snapshot that it gives. So the
history is the snapshots of the stores that were ended, newest first, and a snapshot stays at its
place from the end, with all that can be read from it.
-/

namespace RoutePlugins

/-! ### Calls and the history -/

namespace StoreCall

/-- A snapshot of the history is read as it is. -/
theorem outcome_snapshot {s : StoreState} {index : Int} {taken : Snapshot}
    (h : itemAt? s.history index = some taken) (src : Sources) (path : Value) :
    outcome ((StoreCall.snapshot index path).run src s) = taken.get path := by
  have hget : (MonadState.get : CallM StoreState) s = .ok s s := rfl
  rw [run, bind_of_ok hget, h]
  dsimp only
  cases taken.get path with
  | ok v => rfl
  | error e => rfl

/-- Ending an open store gives its snapshot, and puts it in front of the history. -/
theorem endStore_active (title : Text) (a : Arena) (history : List Snapshot) :
    endStore ⟨.active title a, history⟩ = .ok ⟨title, a⟩ ⟨.ended title, ⟨title, a⟩ :: history⟩ :=
  rfl

end StoreCall

namespace StoreStep

/-- The snapshot that a step gives: one that ends the store does, if it succeeds. -/
def taken? : StoreStep → StoreState → Option Snapshot
  | .call _ .finish, s => (outcome (StoreCall.endStore s)).toOption
  | _, _ => none

/-- A step puts the snapshot that it gives in front of the history. -/
theorem history_run (step : StoreStep) (s : StoreState) :
    (endState (step.run s)).history = (step.taken? s).toList ++ s.history := by
  obtain ⟨src, operation⟩ := step
  by_cases hfinish : operation = .finish
  · subst hfinish
    obtain ⟨store, history⟩ := s
    cases store with
    | _ => rfl
  · have hnone : (StoreStep.call src operation).taken? s = none := by
      cases operation with
      | finish => exact absurd rfl hfinish
      | _ => rfl
    rw [run, hnone]
    obtain he | halters := StoreCall.endState_run src operation s
    · rw [he]
      rfl
    · generalize endState (operation.run src s) = t at halters ⊢
      cases halters with
      | finish => exact absurd rfl hfinish
      | _ => rfl

end StoreStep

/-! ### Many stores -/

/-- Stores that share a history. -/
structure SharedStores (ι : Type) where
  store : ι → Store
  history : List Snapshot

namespace SharedStores

variable {ι : Type}

/-- Stores that were never started, with nothing in their history. -/
def fresh : SharedStores ι := ⟨fun _ => .fresh, []⟩

/-- What one of the stores works on. -/
def view (s : SharedStores ι) (i : ι) : StoreState := ⟨s.store i, s.history⟩

variable [DecidableEq ι]

/-- The stores after a step of one of them, which may have failed. -/
def step (s : SharedStores ι) (e : ι × StoreStep) : SharedStores ι :=
  let t := endState (e.2.run (s.view e.1))
  ⟨Function.update s.store e.1 t.store, t.history⟩

/-- The stores after steps of any of them. -/
def runAll (steps : List (ι × StoreStep)) (s : SharedStores ι) : SharedStores ι :=
  steps.foldl step s

/-- The snapshots that steps give, in the order of the steps. -/
def taken : List (ι × StoreStep) → SharedStores ι → List Snapshot
  | [], _ => []
  | e :: rest, s => (e.2.taken? (s.view e.1)).toList ++ taken rest (s.step e)

theorem history_step (s : SharedStores ι) (e : ι × StoreStep) :
    (s.step e).history = (e.2.taken? (s.view e.1)).toList ++ s.history :=
  e.2.history_run (s.view e.1)

/-- Steps put their snapshots in front of the history, the newest first. -/
theorem history_runAll (steps : List (ι × StoreStep)) (s : SharedStores ι) :
    (runAll steps s).history = (taken steps s).reverse ++ s.history := by
  induction steps generalizing s with
  | nil => rfl
  | cons e rest ih =>
    have hfirst : (e.2.taken? (s.view e.1)).toList.reverse = (e.2.taken? (s.view e.1)).toList := by
      cases e.2.taken? (s.view e.1) with
      | none => rfl
      | some snapshot => rfl
    change (runAll rest (s.step e)).history = _
    rw [ih, history_step, taken, List.reverse_append, hfirst, List.append_assoc]

/-- The item in front of the last `n` items has the place `n + 1` from the end. -/
theorem itemAt?_fromEnd {α : Type} (newer older : List α) (x : α) :
    itemAt? (newer ++ x :: older) (-(older.length + 1)) = some x := by
  have hneg : ¬ (0 : Int) ≤ -(older.length + 1) := by omega
  have habs : (-(older.length + 1) : Int).natAbs = older.length + 1 := by omega
  have hplace : (newer ++ x :: older).length - (older.length + 1) = newer.length := by simp
  have hlength : older.length + 1 ≤ (newer ++ x :: older).length := by simp
  rw [itemAt?, if_neg hneg, habs, if_pos hlength, hplace, List.getElem?_append_right (by simp)]
  simp

/-- Whatever steps stores that share a history have taken, in any order and whether they succeeded
or failed: the history is the snapshots that ending stores gave, in reverse order. Ending an open
store gives a snapshot that lists the registered paths of the store and reads every path, value or
fault, as the store read it just before. After any later steps of any of the stores the snapshot is
in the history, before the ones it was put in front of, and is read there as before. -/
theorem snapshots_endure (steps : List (ι × StoreStep)) :
    (runAll steps fresh).history = (taken steps fresh).reverse ∧
    ∀ i, ((runAll steps fresh).store i).state = "open" →
      ∃ snapshot, ∀ src, (StoreStep.call src .finish).taken? ((runAll steps fresh).view i) =
          some snapshot ∧
        .ok snapshot.paths = ((runAll steps fresh).store i).registrations ∧
        (∀ path, snapshot.get path = ((runAll steps fresh).store i).get path) ∧
        ∀ later : List (ι × StoreStep),
          let after := runAll later ((runAll steps fresh).step (i, .call src .finish))
          (∃ newer, after.history = newer ++ snapshot :: (runAll steps fresh).history) ∧
          ∀ j src' path, outcome ((StoreCall.snapshot
              (-((runAll steps fresh).history.length + 1)) path).run src' (after.view j)) =
            ((runAll steps fresh).store i).get path := by
  refine ⟨?_, fun i hopen => ?_⟩
  · rw [history_runAll]
    exact List.append_nil _
  generalize runAll steps fresh = s at hopen ⊢
  obtain ⟨name, a, hs⟩ := Store.exists_active hopen
  have hget (path : Value) : Snapshot.get ⟨name, a⟩ path = (s.store i).get path := by
    rw [hs]
    rfl
  refine ⟨⟨name, a⟩, fun src => ?_⟩
  have htaken : (StoreStep.call src .finish).taken? (s.view i) = some ⟨name, a⟩ := by
    rw [StoreStep.taken?, view, hs, StoreCall.endStore_active]
    rfl
  refine ⟨htaken, by rw [hs]; rfl, hget, fun later => ?_⟩
  intro after
  have hhistory : after.history = (taken later (s.step (i, .call src .finish))).reverse ++
      ⟨name, a⟩ :: s.history := by
    rw [history_runAll, history_step, htaken]
    rfl
  refine ⟨⟨_, hhistory⟩, fun j src' path => ?_⟩
  have hplace : itemAt? (after.view j).history (-(s.history.length + 1)) = some ⟨name, a⟩ := by
    rw [view, hhistory, itemAt?_fromEnd]
  rw [StoreCall.outcome_snapshot hplace, hget]

namespace Sample

/-- One store that holds a number, and another that was only started. -/
def opened : List (Bool × StoreStep) :=
  [(false, .call StoreStep.Sample.nowhere (.start (.str "s") .null)),
    (false, .call StoreStep.Sample.nowhere (.register (.str "k") (.int 1))),
    (true, .call StoreStep.Sample.nowhere (.start (.str "t") .null))]

/-- The other store is ended, and the first is started again and holds another number. -/
def restarted : List (Bool × StoreStep) :=
  [(true, .call StoreStep.Sample.nowhere .finish),
    (false, .call StoreStep.Sample.nowhere (.start (.str "s") .null)),
    (false, .call StoreStep.Sample.nowhere (.register (.str "k") (.int 2)))]

/-- The stores after the first was ended and then started again. -/
def afterwards : SharedStores Bool :=
  runAll restarted ((runAll opened fresh).step (false, .call StoreStep.Sample.nowhere .finish))

end Sample

open Sample

/-- The snapshot of a store that was ended and started again is read as the store was, and the
store itself as it is now. -/
theorem snapshots_endure_restarted :
    outcome ((StoreCall.snapshot (-1) (.str "k")).run StoreStep.Sample.nowhere
      (afterwards.view true)) = .ok (.int 1) ∧
    (afterwards.store false).get (.str "k") = .ok (.int 2) := by
  obtain ⟨snapshot, hsnapshot⟩ := (snapshots_endure opened).2 false (by decide)
  obtain ⟨-, -, -, hlater⟩ := hsnapshot StoreStep.Sample.nowhere
  exact ⟨(hlater restarted).2 true StoreStep.Sample.nowhere (.str "k"), rfl⟩

end SharedStores

end RoutePlugins
