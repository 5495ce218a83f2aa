import LibRest.Handover

/-!
# Traffic after Shutdown

`Shutdown` stores `false` into `mActive` (`CurlHttpWrapper.cpp`), and clients may go on queueing
requests. How much the worker still takes out of the queue, until a `Start` stores `true` again.

- **Pops** (`pops`). What a step takes out of the queue. What the worker has taken grows by the pops
  of a run (`taken_pops`).
- **The budget** (`popBudget`). The worker reads `mActive` outside the mutex, so the store may come
  between the loop test and the pop section; then one pop is left to it. From everywhere else the
  worker comes to the loop test first.
-/

namespace LibRest

open Lib

/-- How often the worker can still pop, if `mActive` stays `false`: once, if it has passed the loop
test. -/
def WorkerPc.popBudget : WorkerPc → Nat
  | .popLock | .popSection => 1
  | _ => 0

@[simp] theorem WorkerPc.notify_popBudget (w : WorkerPc) : w.notify.popBudget = w.popBudget := by
  cases w <;> rfl

theorem WorkerPc.afterLock_popBudget {w pc : WorkerPc} (h : w.afterLock = some pc) :
    pc.popBudget = w.popBudget := by
  cases w <;> cases h <;> rfl

theorem WorkerPc.popBudget_le (w : WorkerPc) : w.popBudget ≤ 1 := by
  cases w <;> simp [popBudget]

namespace St

variable {T : Type} {s s' : St T} {t : T} {a : Act T}

/-- What the step takes out of the queue. -/
def pops (s : St T) (a : Act T) : List Payload :=
  match a.thread, s.worker with
  | .worker, .popSection => s.mHttpDataQueue.take 1
  | _, _ => []

/-- The step is not the store of a `Start`. -/
def NoStartStore (s : St T) : Act T → Prop
  | .client t => s.client t ≠ .startStore
  | _ => True

instance NoStartStore.decidable (s : St T) : (a : Act T) → Decidable (s.NoStartStore a)
  | .client t => inferInstanceAs (Decidable (s.client t ≠ .startStore))
  | .worker | .workerReturns _ | .call .. | .clientThrows _ => .isTrue trivial

theorem pops_client (ha : a.thread = .client t) : s.pops a = [] := by
  simp [pops, ha]

theorem pops_elsewhere (hw : s.worker ≠ .popSection) : s.pops a = [] := by
  unfold pops
  split
  · rename_i e; exact absurd e hw
  · rfl

theorem pops_section (ha : a.thread = .worker) (hw : s.worker = .popSection) :
    s.pops a = s.mHttpDataQueue.take 1 := by
  simp [pops, ha, hw]

theorem pops_length_le : (s.pops a).length ≤ 1 := by
  unfold pops
  split
  · exact List.length_take_le ..
  · exact Nat.zero_le _

/-! ## What the worker takes -/

/-- A step of the worker takes what it pops. -/
theorem WorkerStep.taken_pops {c : Channel Payload} (hc : s.Carries c) (h : s.WorkerStep s')
    (ha : a.thread = .worker) : s'.taken = s.taken ++ s.pops a := by
  cases h with
  | @lock pc hl =>
    have hw : s.worker ≠ .popSection := fun e => by rw [e] at hl; cases hl
    rw [pops_elsewhere hw, List.append_nil]
    exact congrArg (s.dispatched ++ ·) (WorkerPc.afterLock_popped hl)
  | @pop pl rest hw hq =>
    rw [pops_section ha hw]
    simp [taken, workerUnlock, hw, hq, WorkerPc.popped]
  | popNone hw hq =>
    rw [pops_section ha hw]
    simp [taken, workerUnlock, hw, hq, WorkerPc.popped]
  | @dispatch pl hw =>
    rw [pops_elsewhere (by simp [hw])]
    simp [taken, hw, WorkerPc.popped]
  | @invalid pl hw hpost hput =>
    obtain ⟨d, -, rfl⟩ := hc.popped hw
    rcases d.payload_method with hm | hm
    · exact absurd hm hpost
    · exact absurd hm hput
  | ready hw | notReady hw | readyPark hw | loop hw | leave hw | returns hw | recheck hw
  | empty hw | nonempty hw | data hw | noData hw | dataPark hw =>
    rw [pops_elsewhere (by simp [hw])]
    simp [taken, workerUnlock, hw, WorkerPc.popped]

variable [DecidableEq T]

/-- What the worker has taken after a run: what it had taken, and the pops of the run. -/
theorem taken_pops {as : List (Act T)} (h : (wrapper T).Reach Sys.Any s)
    (hr : (wrapper T).run s as = some s') :
    s'.taken = s.taken ++ (wrapper T).shows pops s as := by
  refine Sys.shows_record (I := (wrapper T).Reach Sys.Any) ?_ h hr
  intro s a s' hreach hn
  refine ⟨.step hreach trivial hn, ?_⟩
  obtain ⟨c, -, hc⟩ := carries_reach hreach
  rcases next_step hn with ⟨ha, hs⟩ | ⟨t, ha, hs⟩
  · exact hs.taken_pops hc ha
  · rw [pops_client ha, List.append_nil]
    exact hs.taken.1

/-! ## After the store -/

omit [DecidableEq T] in
/-- While `mActive` is `false`, a pop uses up the budget, and nothing gives it back. -/
theorem WorkerStep.popBudget (h : s.WorkerStep s') (ha : s.mActive = false) :
    (s.pops a).length + s'.worker.popBudget ≤ s.worker.popBudget := by
  have hout : s.worker ≠ .popSection → s'.worker.popBudget ≤ s.worker.popBudget →
      (s.pops a).length + s'.worker.popBudget ≤ s.worker.popBudget := fun hw hle => by
    rw [pops_elsewhere hw]
    simpa using hle
  cases h with
  | @lock pc hl =>
    refine hout (fun e => ?_) (Nat.le_of_eq (WorkerPc.afterLock_popBudget hl))
    rw [e] at hl; cases hl
  | loop hw hact =>
    rw [ha] at hact; cases hact
  | pop hw | popNone hw =>
    rw [hw]
    exact pops_length_le
  | ready hw | notReady hw | readyPark hw | leave hw | dispatch hw | invalid hw | returns hw
  | recheck hw | empty hw | nonempty hw | data hw | noData hw | dataPark hw =>
    exact hout (by rw [hw]; nofun) (Nat.zero_le _)

/-- The store of `Shutdown`. -/
theorem stopStore_eq (ht : s.client t = .stopStore)
    (hn : (wrapper T).next s (.client t) = some s') :
    s' = { s with mActive := false }.goto t .stopNotify := by
  simp only [wrapper, clientNext, ht] at hn
  exact (Option.some.inj hn).symm

/-- From a state with `mActive` false, without a store of `Start`. -/
theorem pops_le_budget {as : List (Act T)} (ha : s.mActive = false)
    (hg : (wrapper T).Along NoStartStore s as) (hr : (wrapper T).run s as = some s') :
    ((wrapper T).shows pops s as).length ≤ s.worker.popBudget := by
  refine Sys.shows_le (I := fun s => s.mActive = false) (b := fun s => s.worker.popBudget) ?_ ha
    hg hr
  intro s a s' ha hg hn
  rcases next_step hn with ⟨-, hs⟩ | ⟨t, hth, hs⟩
  · exact ⟨hs.frame.1.trans ha, hs.popBudget ha⟩
  · have hstore : s.client t = .startStore → False := fun hc => by
      cases a <;> cases hth
      · simp [wrapper, callNext, hc] at hn
      · exact hg hc
      · simp [wrapper, clientThrows, hc] at hn
    obtain ⟨hw, hact⟩ := hs.frame
    constructor
    · rcases hact with e | ⟨hc, -⟩ | ⟨-, e⟩
      · exact e.trans ha
      · exact (hstore hc).elim
      · exact e
    · rw [pops_client hth]
      rcases hw with e | e <;> rw [e] <;> simp

/-- **Shutdown stops the traffic.** After the store of `Shutdown`, and until a `Start` stores again,
the worker pops at most one payload, and none if it was not just between its loop test and its pop
section. What was popped before the store and that one are all that is handed over. -/
theorem shutdown_stops_traffic {s s₁ s₂ : St T} {as : List (Act T)}
    (h : (wrapper T).Reach Sys.Any s) (ht : s.client t = .stopStore)
    (hn : (wrapper T).next s (.client t) = some s₁)
    (hr : (wrapper T).run s₁ as = some s₂) (hg : (wrapper T).Along NoStartStore s₁ as) :
    ((wrapper T).shows pops s₁ as).length ≤ 1 ∧
    (s.worker ≠ .popLock → (wrapper T).shows pops s₁ as = []) ∧
    s₂.dispatched <+: s.dispatched ++ s.worker.popped ++ (wrapper T).shows pops s₁ as := by
  have h₁ : (wrapper T).Reach Sys.Any s₁ := .step h trivial hn
  have htaken := taken_pops h₁ hr
  obtain rfl := stopStore_eq ht hn
  have hle := pops_le_budget rfl hg hr
  refine ⟨hle.trans (WorkerPc.popBudget_le _), fun hw => ?_, ?_⟩
  · -- the client is in its section, so the worker is not in the pop section
    have hout := (locked_reach h).worker_out (t := t) (by rw [ht]; rfl)
    have hzero : s.worker.popBudget = 0 := by
      cases e : s.worker <;> simp_all [WorkerPc.popBudget, WorkerPc.holds]
    exact List.eq_nil_of_length_eq_zero (Nat.le_zero.mp (hzero ▸ hle))
  · exact ⟨s₂.worker.popped, htaken⟩

/-- A client queues two requests and calls `Shutdown`, whose store comes when the worker has passed
its loop test. -/
def stopInTime : List (Act Unit) :=
  .call () .start :: List.replicate 5 (.client ()) ++ List.replicate 2 .worker ++
    .call () (.data (.createDeviceData [97] ⟨[123], .typeJson⟩)) ::
      List.replicate 4 (.client ()) ++
    .call () (.data (.updateDeviceData [98] ⟨[125], .typeWwwForm⟩)) ::
      List.replicate 4 (.client ()) ++
    .worker :: .call () .shutdown :: List.replicate 2 (.client ())

/-- Another request follows the store; the worker pops the first of the three and terminates. -/
def afterStop : List (Act Unit) :=
  List.replicate 2 (.client ()) ++
    .call () (.data (.createDeviceData [99] ⟨[], .typeJson⟩)) :: List.replicate 4 (.client ()) ++
    List.replicate 3 .worker ++ .workerReturns .success :: List.replicate 4 .worker

theorem shutdown_stops_traffic_one :
    ∃ s s₁ s₂ : St Unit, s.worker = .popLock ∧
      (wrapper Unit).run s₁ afterStop = some s₂ ∧
      (s₂.worker, s₂.dispatched, s₂.mHttpDataQueue.length) =
        (.done, [⟨.post, [97], some ⟨[123], .typeJson⟩⟩], 2) ∧
      ((wrapper Unit).shows pops s₁ afterStop).length ≤ 1 ∧
      (s.worker ≠ .popLock → (wrapper Unit).shows pops s₁ afterStop = []) ∧
      s₂.dispatched <+: s.dispatched ++ s.worker.popped ++
        (wrapper Unit).shows pops s₁ afterStop := by
  let s : St Unit := ((wrapper Unit).run .init stopInTime).get (by decide)
  let s₁ : St Unit := ((wrapper Unit).next s (.client ())).get (by decide)
  let s₂ : St Unit := ((wrapper Unit).run s₁ afterStop).get (by decide)
  have h : (wrapper Unit).run .init stopInTime = some s := (Option.some_get _).symm
  have hr : (wrapper Unit).run s₁ afterStop = some s₂ := (Option.some_get _).symm
  exact ⟨s, s₁, s₂, by decide, hr, by decide,
    shutdown_stops_traffic (Sys.Reach.run (.init rfl) h) (t := ()) (by decide)
      (Option.some_get _).symm hr (by decide)⟩

end St

end LibRest
