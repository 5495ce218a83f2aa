import LibRest.Handover

/-!
# Start after Shutdown

`mActive` is meant to tell whether the wrapper is active, and `Start` may be called again after
`Shutdown`. The worker thread is created once, by the constructor, and does not come back after it
has left its loop.

- `HasConsumer`: while `mActive` is true, the worker has not left its loop.
- `StartsAlive`: the store of `Start` finds the worker in its loop, or before it. No other step
  makes `mActive` true, and the worker leaves its loop only when it reads false, so the states of a
  run all have `HasConsumer` exactly when the steps of the run all meet `StartsAlive`.
-/

namespace LibRest

open Lib

namespace St

variable {T : Type} {s s' : St T} {t : T}

/-- While `mActive` is true, the worker has not left its loop. -/
def HasConsumer (s : St T) : Prop := s.mActive = true → s.worker ≠ .done

/-- If the step is the store of a `Start`, the worker has not left its loop. -/
def StartsAlive (s : St T) (a : Act T) : Prop :=
  ∀ t, a.thread = .client t → s.client t = .startStore → s.worker ≠ .done

theorem WorkerStep.hasConsumer (h : s.WorkerStep s') : s'.HasConsumer := by
  cases h with
  | leave hw ha =>
    intro ha'
    rw [show s.mActive = true from ha'] at ha
    cases ha
  | @lock pc ha =>
    rintro - rfl
    rcases WorkerPc.afterLock_cases ha with e | e | e | e <;> cases e
  | _ => exact fun _ => nofun

theorem notify_done {w : WorkerPc} : w.notify = .done ↔ w = .done := by
  cases w <;> simp [WorkerPc.notify]

variable [DecidableEq T]

/-- The step of a client that is at the store of `Start`. -/
theorem ClientStep.startStore_eq (h : s.ClientStep t s') (hc : s.client t = .startStore) :
    s'.mActive = true ∧ s'.worker = s.worker := by
  cases h with
  | startStore => exact ⟨rfl, rfl⟩
  | lock ha => rw [hc] at ha; cases ha
  | notify ha => rw [hc] at ha; cases ha
  | unlock hu => rw [hc] at hu; rcases hu with e | e <;> cases e
  | call _ e | startSkip e | startGo e | stopSkip e | stopGo e | stopStore e | pushItem e
  | pushUnlock e | throwLock e | throwItem e =>
    rw [hc] at e; cases e

/-- The step of a client that is not at the store of `Start`. -/
theorem ClientStep.hasConsumer (h : s.ClientStep t s') (hc : s.client t ≠ .startStore)
    (hi : s.HasConsumer) : s'.HasConsumer := by
  cases h with
  | startStore e => exact absurd e hc
  | stopStore => exact nofun
  | notify => exact fun ha e => hi ha (notify_done.mp e)
  | _ => exact hi

/-- **Restart.** In every state of a run, an active wrapper has a worker, if and only if in the run
every store of a `Start` finds the worker before the end of its loop. -/
theorem active_has_worker {as : List (Act T)} {s : St T}
    (hr : (wrapper T).run .init as = some s) :
    (wrapper T).Throughout HasConsumer .init as ↔ (wrapper T).Along StartsAlive .init as := by
  refine Sys.throughout_iff_along (I := fun _ => True) (fun _ _ _ _ _ => trivial) ?_ trivial nofun
    hr
  intro s a s' _ hi hn
  rcases next_step hn with ⟨hth, hs⟩ | ⟨t, hth, hs⟩
  · refine ⟨fun _ t ht => ?_, fun _ => hs.hasConsumer⟩
    rw [hth] at ht; cases ht
  · constructor
    · intro hi' u hu hc
      rw [hth] at hu
      obtain rfl : t = u := by cases hu; rfl
      obtain ⟨ha, hw⟩ := hs.startStore_eq hc
      exact hw ▸ hi' ha
    · intro hg
      by_cases hc : s.client t = .startStore
      · obtain ⟨-, hw⟩ := hs.startStore_eq hc
        exact fun _ => hw ▸ hg t hth hc
      · exact hs.hasConsumer hc hi

/-- A run that starts the wrapper, lets the worker enter its loop, and stops the wrapper. -/
def stopped : List (Act Unit) :=
  .call () .start :: List.replicate 5 (.client ()) ++ List.replicate 2 .worker ++
    .call () .shutdown :: List.replicate 5 (.client ())

/-- The equivalence at a run with a quick restart: the worker reads `mActive` after the second
`Start`. -/
theorem active_has_worker_quick :
    (wrapper Unit).Throughout HasConsumer .init
        (stopped ++ .call () .start :: List.replicate 5 (.client ())) ↔
      (wrapper Unit).Along StartsAlive .init
        (stopped ++ .call () .start :: List.replicate 5 (.client ())) :=
  active_has_worker (Option.some_get (by decide)).symm

/-- After `Shutdown` the worker leaves its loop; the next `Start` activates a wrapper without a
worker, and a request is accepted that nobody will take. -/
theorem restart_without_worker :
    ∃ s : St Unit, (wrapper Unit).Reach Sys.Any s ∧ ¬ s.HasConsumer ∧
      s.returned = [(.createDeviceData [97] ⟨[123], .typeJson⟩, .success)] := by
  obtain ⟨s, hr, hs⟩ := Sys.Reach.observe (S := wrapper Unit)
    (b := (true, .done, [(.createDeviceData [97] ⟨[123], .typeJson⟩, .success)]))
    (fun s => (s.mActive, s.worker, s.returned))
    (stopped ++ [.worker] ++ .call () .start :: List.replicate 5 (.client ()) ++
      .call () (.data (.createDeviceData [97] ⟨[123], .typeJson⟩)) ::
        List.replicate 4 (.client ())) rfl (by decide)
  simp only [Prod.mk.injEq] at hs
  obtain ⟨ha, hw, hret⟩ := hs
  exact ⟨s, hr, fun hc => hc ha hw, hret⟩

end St

end LibRest
