import LibRest.Worker
import LibRest.Lib.Channel
import LibRest.Lib.Mutex

/-!
# What holds in every run of the queue

- **The mutex** (`Locked`). Exactly the owner of `mHttpQueueMutex` is in a section that it locked.
- **No lost wake-up** (`Wakes`). A worker that parked without a notification found its predicate
  false; a client that makes the predicate true holds the mutex until it has notified.
- **The channel** (`Carries`). The queue carries the payloads as a reliable channel does: a push
  sends, a pop receives, all other steps leave the channel alone. So what was pushed is what was
  handed over, what the worker has popped, and what is queued, in this order. A payload is one that
  a call built, so the `switch` finds its method and `Post` and `Put` find its data.
-/

namespace LibRest

open Lib

variable {T : Type} {s s' : St T} {t u : T}

/-! ## The mutex -/

/-- The thread is in a section that it locked. -/
def St.holds (s : St T) : Thread T → Bool
  | .worker => s.worker.holds
  | .client t => (s.client t).holds

/-- The mutex and the sections agree. -/
def St.Locked (s : St T) : Prop := Excl s.mHttpQueueMutex s.holds

@[simp] theorem WorkerPc.notify_holds (w : WorkerPc) : w.notify.holds = w.holds := by
  cases w <;> rfl

theorem WorkerPc.afterLock_cases {w pc : WorkerPc} (h : w.afterLock = some pc) :
    pc = .readyTest ∨ pc = .popSection ∨ pc = .recheckSection ∨ pc = .dataTest := by
  cases w <;> cases h <;> simp

theorem WorkerPc.afterLock_holds {w pc : WorkerPc} (h : w.afterLock = some pc) :
    w.holds = false ∧ pc.holds = true := by
  cases w <;> cases h <;> exact ⟨rfl, rfl⟩

theorem ClientPc.afterLock_holds {c pc : ClientPc} (h : c.afterLock = some pc) :
    c.holds = false ∧ pc.holds = true := by
  cases c <;> cases h <;> exact ⟨rfl, rfl⟩

theorem ClientPc.afterLock_notify {c pc : ClientPc} (h : c.afterLock = some pc) :
    c.afterNotify = none := by
  cases c <;> cases h <;> rfl

theorem ClientPc.afterNotify_holds {c pc : ClientPc} (h : c.afterNotify = some pc) :
    c.holds = true ∧ pc.holds = true := by
  cases c <;> cases h <;> exact ⟨rfl, rfl⟩

@[simp] theorem WorkerPc.notify_popped (w : WorkerPc) : w.notify.popped = w.popped := by
  cases w <;> rfl

@[simp] theorem WorkerPc.notify_waitsReady (w : WorkerPc) :
    w.notify.waitsReady = w.waitsReady := by
  cases w <;> rfl

theorem WorkerPc.afterLock_popped {w pc : WorkerPc} (h : w.afterLock = some pc) :
    pc.popped = w.popped := by
  cases w <;> cases h <;> rfl

namespace St

theorem locked_init : (init : St T).Locked := Excl.free fun th => by cases th <;> rfl

/-- A step of the worker that keeps the mutex. -/
theorem Locked.workerKeep (h : s.Locked) (hm : s'.mHttpQueueMutex = s.mHttpQueueMutex)
    (hw : s'.worker.holds = s.worker.holds) (hc : s'.client = s.client) : s'.Locked := by
  unfold Locked; rw [hm]
  exact Excl.keep h fun th => by cases th <;> simp [holds, hw, hc]

/-- A step of the worker that releases the mutex. -/
theorem Locked.workerUnlock {pc : WorkerPc} (h : s.Locked) (hs : s.worker.holds = true)
    (hc : s'.client = s.client) (hpc : pc.holds = false) : (s'.workerUnlock pc).Locked := by
  refine Excl.unlock (i := .worker) h hs hpc fun th hth => ?_
  cases th with
  | worker => exact absurd rfl hth
  | client t => simp [holds, St.workerUnlock, hc]

theorem Locked.workerStep (h : s.Locked) (hs : s.WorkerStep s') : s'.Locked := by
  cases hs with
  | lock ha hm =>
    unfold Locked at h; rw [hm] at h
    refine Excl.lock (i := .worker) h ?_ fun th hth => ?_
    · exact (WorkerPc.afterLock_holds ha).2
    · cases th with
      | worker => exact absurd rfl hth
      | client t => rfl
  | ready hw | popNone hw | recheck hw | data hw | readyPark hw | dataPark hw | pop hw =>
    exact h.workerUnlock (by rw [hw]; rfl) rfl rfl
  | notReady hw | loop hw | leave hw | dispatch hw | invalid hw | returns hw | empty hw
  | nonempty hw | noData hw =>
    exact h.workerKeep rfl (by rw [hw]; rfl) rfl

variable [DecidableEq T]

@[simp] theorem goto_client (s : St T) (t : T) (pc : ClientPc) : (s.goto t pc).client t = pc :=
  Function.update_self ..

theorem goto_client_ne (s : St T) (pc : ClientPc) (h : u ≠ t) :
    (s.goto t pc).client u = s.client u :=
  Function.update_of_ne h ..

/-- A step of a client leaves the other clients where they are. -/
theorem ClientStep.others (h : s.ClientStep t s') (hu : u ≠ t) : s'.client u = s.client u := by
  cases h <;> exact goto_client_ne _ _ hu

/-- What a step of a client does to the worker's place and to `mActive`. -/
theorem ClientStep.frame (h : s.ClientStep t s') :
    (s'.worker = s.worker ∨ s'.worker = s.worker.notify) ∧
      (s'.mActive = s.mActive ∨ (s.client t = .startStore ∧ s'.mActive = true) ∨
        (s.client t = .stopStore ∧ s'.mActive = false)) := by
  cases h with
  | notify => exact ⟨.inr rfl, .inl rfl⟩
  | startStore hc => exact ⟨.inl rfl, .inr (.inl ⟨hc, rfl⟩)⟩
  | stopStore hc => exact ⟨.inl rfl, .inr (.inr ⟨hc, rfl⟩)⟩
  | _ => exact ⟨.inl rfl, .inl rfl⟩

/-- The other threads' sections, when the client `t` goes on. -/
theorem goto_holds (pc : ClientPc) (hw : s'.worker.holds = s.worker.holds)
    (hc : s'.client = s.client) {th : Thread T} (hth : th ≠ .client t) :
    (s'.goto t pc).holds th = s.holds th := by
  cases th with
  | worker => exact hw
  | client u =>
    have hu : u ≠ t := fun e => hth (by rw [e])
    simp only [holds, goto_client_ne s' pc hu, hc]

/-- A step of the client `t` that keeps the mutex. -/
theorem Locked.clientKeep {pc : ClientPc} (h : s.Locked)
    (hm : s'.mHttpQueueMutex = s.mHttpQueueMutex) (hw : s'.worker.holds = s.worker.holds)
    (hc : s'.client = s.client) (hpc : pc.holds = (s.client t).holds) : (s'.goto t pc).Locked := by
  show Excl s'.mHttpQueueMutex _
  rw [hm]
  refine Excl.keep h fun th => ?_
  by_cases hth : th = .client t
  · subst hth; simp [holds, hpc]
  · exact goto_holds pc hw hc hth

/-- A step of the client `t` that releases the mutex. -/
theorem Locked.clientUnlock (h : s.Locked) (hs : (s.client t).holds = true)
    (hw : s'.worker = s.worker) (hc : s'.client = s.client) : (s'.clientUnlock t).Locked := by
  refine Excl.unlock (i := .client t) h hs ?_ fun th hth => ?_
  · simp [holds, St.clientUnlock, ClientPc.holds]
  · unfold St.clientUnlock
    exact goto_holds .idle (by rw [← hw]) hc hth

theorem Locked.clientStep (h : s.Locked) (hs : s.ClientStep t s') : s'.Locked := by
  cases hs with
  | lock ha hm =>
    have hl := h
    unfold Locked at hl; rw [hm] at hl
    refine Excl.lock (i := .client t) hl ?_ fun th hth => ?_
    · simpa [holds] using (ClientPc.afterLock_holds ha).2
    · exact goto_holds _ rfl rfl hth
  | notify ha =>
    obtain ⟨h1, h2⟩ := ClientPc.afterNotify_holds ha
    exact h.clientKeep rfl (by simp [notifyOne]) rfl (by rw [h1, h2])
  | unlock hc => exact h.clientUnlock (by rcases hc with hc | hc <;> rw [hc] <;> rfl) rfl rfl
  | pushUnlock hc => exact h.clientUnlock (by rw [hc]; rfl) rfl rfl
  | call c hc => exact h.clientKeep rfl rfl rfl (by rw [hc]; cases c <;> rfl)
  | startSkip hc | startGo hc | stopSkip hc | stopGo hc | startStore hc | stopStore hc
  | pushItem hc | throwLock hc | throwItem hc =>
    exact h.clientKeep rfl rfl rfl (by rw [hc]; rfl)

theorem locked_reach {G : St T → Act T → Prop} (h : (wrapper T).Reach G s) : s.Locked :=
  h.inv (fun s hs => by subst hs; exact locked_init) fun s a s' _ _ hn hi => by
    rcases next_step hn with ⟨-, hs⟩ | ⟨t, -, hs⟩
    · exact hi.workerStep hs
    · exact hi.clientStep hs

omit [DecidableEq T] in
/-- While the client `t` is in a locked section, the worker is in none. -/
theorem Locked.worker_out (h : s.Locked) (hc : (s.client t).holds = true) :
    s.worker.holds = false := by
  cases hw : s.worker.holds with
  | false => rfl
  | true =>
    have e := Excl.unique h (show s.holds .worker = true from hw)
      (show s.holds (.client t) = true from hc)
    cases e

/-! ## The worker's place -/

omit [DecidableEq T] in
/-- What a step of the worker leaves alone. -/
theorem WorkerStep.frame (h : s.WorkerStep s') :
    s'.mActive = s.mActive ∧ s'.client = s.client ∧ s'.pushed = s.pushed := by
  cases h <;> exact ⟨rfl, rfl, rfl⟩

omit [DecidableEq T] in
/-- Unless its predicate reads `true`, the worker does not pass its first wait. -/
theorem WorkerStep.waitsReady (h : s.WorkerStep s')
    (ha : s.worker = .readyTest → s.mActive = false) (hw : s.worker.waitsReady = true) :
    s'.worker.waitsReady = true := by
  cases h with
  | lock hl => cases hc : s.worker <;> rw [hc] at hl hw <;> cases hl <;> first | rfl | cases hw
  | ready e ha' => rw [ha e] at ha'; cases ha'
  | notReady | readyPark => rfl
  | loop e | leave e | popNone e | pop e | dispatch e | invalid e | returns e | recheck e
  | empty e | nonempty e | data e | noData e | dataPark e =>
    rw [e] at hw; cases hw

omit [DecidableEq T] in
/-- The worker does not come back to its first wait. -/
theorem WorkerStep.pastReady (h : s.WorkerStep s') (hw : s.worker.waitsReady = false) :
    s'.worker.waitsReady = false := by
  cases h with
  | lock hl => cases hc : s.worker <;> rw [hc] at hl hw <;> cases hl <;> first | rfl | cases hw
  | notReady e | readyPark e => rw [e] at hw; cases hw
  | _ => rfl

/-! ## No lost wake-up -/

/-- A parked worker without a notification: its predicate is false, or a client that made it true
has yet to notify. -/
structure Wakes (s : St T) : Prop where
  readyPark : s.worker = .readyPark → s.mActive = false
  readyParked : s.worker = .readyParked false →
    s.mActive = false ∨ ∃ t, s.client t = .startNotify
  dataPark : s.worker = .dataPark → s.mHttpDataQueue = [] ∧ s.mActive = true
  dataParked : s.worker = .dataParked false →
    (s.mHttpDataQueue = [] ∧ s.mActive = true) ∨
      ∃ t, s.client t = .stopNotify ∨ ∃ d, s.client t = .pushNotify d

omit [DecidableEq T] in
theorem wakes_init : (init : St T).Wakes := ⟨nofun, nofun, nofun, nofun⟩

omit [DecidableEq T] in
theorem Wakes.workerStep (h : s.Wakes) (hs : s.WorkerStep s') : s'.Wakes := by
  cases hs with
  | notReady hw ha => exact ⟨fun _ => ha, nofun, nofun, nofun⟩
  | readyPark hw => exact ⟨nofun, fun _ => .inl (h.readyPark hw), nofun, nofun⟩
  | noData hw hq ha => exact ⟨nofun, nofun, fun _ => ⟨hq, ha⟩, nofun⟩
  | dataPark hw => exact ⟨nofun, nofun, nofun, fun _ => .inl (h.dataPark hw)⟩
  | lock ha hm =>
    rcases WorkerPc.afterLock_cases ha with rfl | rfl | rfl | rfl <;>
      exact ⟨nofun, nofun, nofun, nofun⟩
  | _ => exact ⟨nofun, nofun, nofun, nofun⟩

/-- A client that has yet to notify stays where it is, when another client goes on. -/
theorem goto_notifying {pc q : ClientPc} (hc : s'.client = s.client)
    (hn : (s.client t).afterNotify = none) (hu : s.client u = q) (hq : q.afterNotify ≠ none) :
    (s'.goto t pc).client u = q := by
  have hut : u ≠ t := fun e => hq (by rw [← hu, e, hn])
  rw [goto_client_ne s' pc hut, hc, hu]

/-- The client `t` goes on and changes nothing else; it had nothing to notify. -/
theorem Wakes.goto {pc : ClientPc} (h : s.Wakes) (ha : s'.mActive = s.mActive)
    (hq : s'.mHttpDataQueue = s.mHttpDataQueue) (hw : s'.worker = s.worker)
    (hc : s'.client = s.client) (hn : (s.client t).afterNotify = none) : (s'.goto t pc).Wakes := by
  refine ⟨fun e => ?_, fun e => ?_, fun e => ?_, fun e => ?_⟩
  · exact ha ▸ h.readyPark (hw ▸ e)
  · rcases h.readyParked (hw ▸ e) with h1 | ⟨u, hu⟩
    · exact .inl (ha ▸ h1)
    · exact .inr ⟨u, goto_notifying hc hn hu nofun⟩
  · exact ha ▸ hq ▸ h.dataPark (hw ▸ e)
  · rcases h.dataParked (hw ▸ e) with h1 | ⟨u, hu | ⟨d, hu⟩⟩
    · exact .inl (ha ▸ hq ▸ h1)
    · exact .inr ⟨u, .inl (goto_notifying hc hn hu nofun)⟩
    · exact .inr ⟨u, .inr ⟨d, goto_notifying hc hn hu nofun⟩⟩

/-- After a notification by a client, which holds the mutex. -/
theorem Wakes.notify {pc : ClientPc} (hl : s.Locked) (hc : (s.client t).holds = true) :
    (s.notifyOne.goto t pc).Wakes := by
  have hw := hl.worker_out hc
  have hn : ∀ {w}, w = s.worker → w.holds = false → (w.notify ≠ .readyPark ∧
      w.notify ≠ .readyParked false) ∧ w.notify ≠ .dataPark ∧ w.notify ≠ .dataParked false := by
    rintro w - hw
    cases w <;> simp_all [WorkerPc.notify, WorkerPc.holds]
  obtain ⟨⟨h1, h2⟩, h3, h4⟩ := hn rfl hw
  exact ⟨fun e => absurd e h1, fun e => absurd e h2, fun e => absurd e h3, fun e => absurd e h4⟩

theorem Wakes.clientStep (hl : s.Locked) (h : s.Wakes) (hs : s.ClientStep t s') : s'.Wakes := by
  cases hs with
  | call c hc => exact h.goto rfl rfl rfl rfl (by rw [hc]; rfl)
  | startSkip hc | startGo hc | stopSkip hc | stopGo hc | throwLock hc | throwItem hc
  | pushUnlock hc =>
    exact h.goto rfl rfl rfl rfl (by rw [hc]; rfl)
  | unlock hc => exact h.goto rfl rfl rfl rfl (by rcases hc with hc | hc <;> rw [hc] <;> rfl)
  | lock ha hm => exact h.goto rfl rfl rfl rfl (ClientPc.afterLock_notify ha)
  | notify ha => exact .notify hl (ClientPc.afterNotify_holds ha).1
  -- the client holds the mutex, so the worker is not about to park
  | startStore hc =>
    have hw := hl.worker_out (t := t) (by rw [hc]; rfl)
    refine ⟨fun e => ?_, fun _ => .inr ⟨t, goto_client ..⟩, fun e => ?_, fun e => ?_⟩
    · rw [show s.worker = .readyPark from e] at hw; cases hw
    · rw [show s.worker = .dataPark from e] at hw; cases hw
    · have hn : (s.client t).afterNotify = none := by rw [hc]; rfl
      rcases h.dataParked e with ⟨hq, -⟩ | ⟨u, hu | ⟨d, hu⟩⟩
      · exact .inl ⟨hq, rfl⟩
      · exact .inr ⟨u, .inl (goto_notifying rfl hn hu nofun)⟩
      · exact .inr ⟨u, .inr ⟨d, goto_notifying rfl hn hu nofun⟩⟩
  | stopStore hc =>
    have hw := hl.worker_out (t := t) (by rw [hc]; rfl)
    refine ⟨fun _ => rfl, fun _ => .inl rfl, fun e => ?_, fun _ => .inr ⟨t, .inl (goto_client ..)⟩⟩
    rw [show s.worker = .dataPark from e] at hw; cases hw
  | @pushItem d hc =>
    have hw := hl.worker_out (t := t) (by rw [hc]; rfl)
    refine ⟨fun e => h.readyPark e, fun e => ?_, fun e => ?_,
      fun _ => .inr ⟨t, .inr ⟨d, goto_client ..⟩⟩⟩
    · rcases h.readyParked e with h1 | ⟨u, hu⟩
      · exact .inl h1
      · exact .inr ⟨u, goto_notifying rfl (by rw [hc]; rfl) hu nofun⟩
    · rw [show s.worker = .dataPark from e] at hw; cases hw

theorem wakes_reach {G : St T → Act T → Prop} (h : (wrapper T).Reach G s) : s.Wakes :=
  h.inv (fun s hs => by subst hs; exact wakes_init) fun s a s' hr _ hn hi => by
    rcases next_step hn with ⟨-, hs⟩ | ⟨t, -, hs⟩
    · exact hi.workerStep hs
    · exact hi.clientStep (locked_reach hr) hs

/-- **No lost wake-up.** A worker that is parked without a notification has nothing to wake up for,
or the client that changed this holds the mutex and has yet to notify. -/
theorem no_lost_wakeup (h : (wrapper T).Reach Sys.Any s) :
    (s.worker = .readyParked false →
      s.mActive = false ∨
        ∃ t, s.client t = .startNotify ∧ s.mHttpQueueMutex = some (.client t)) ∧
    (s.worker = .dataParked false →
      (s.mHttpDataQueue = [] ∧ s.mActive = true) ∨
        ∃ t, (s.client t = .stopNotify ∨ ∃ d, s.client t = .pushNotify d) ∧
          s.mHttpQueueMutex = some (.client t)) := by
  have hw := wakes_reach h
  have hl : ∀ {t}, (s.client t).holds = true → s.mHttpQueueMutex = some (.client t) :=
    fun {t} hc => Excl.owner (locked_reach h) (show s.holds (.client t) = true from hc)
  constructor
  · intro e
    rcases hw.readyParked e with h1 | ⟨t, ht⟩
    · exact .inl h1
    · exact .inr ⟨t, ht, hl (by rw [ht]; rfl)⟩
  · intro e
    rcases hw.dataParked e with h1 | ⟨t, ht⟩
    · exact .inl h1
    · refine .inr ⟨t, ht, hl ?_⟩
      rcases ht with ht | ⟨d, ht⟩ <;> rw [ht] <;> rfl

/-- The worker parks, then `Start` stores `true` and has yet to notify. -/
theorem no_lost_wakeup_starting :
    ∃ s : St Unit, (s.worker, s.mActive, s.client ()) = (.readyParked false, true, .startNotify) ∧
      (s.worker = .readyParked false →
        s.mActive = false ∨
          ∃ t, s.client t = .startNotify ∧ s.mHttpQueueMutex = some (.client t)) ∧
      (s.worker = .dataParked false →
        (s.mHttpDataQueue = [] ∧ s.mActive = true) ∨
          ∃ t, (s.client t = .stopNotify ∨ ∃ d, s.client t = .pushNotify d) ∧
            s.mHttpQueueMutex = some (.client t)) := by
  obtain ⟨s, hr, hs⟩ := Sys.Reach.observe (S := wrapper Unit)
    (b := (.readyParked false, true, .startNotify)) (fun s => (s.worker, s.mActive, s.client ()))
    (List.replicate 3 .worker ++ .call () .start :: List.replicate 3 (.client ())) rfl (by decide)
  exact ⟨s, hs, no_lost_wakeup hr⟩

/-! ## The channel -/

/-- The state shows the channel `c`. -/
structure Carries (s : St T) (c : Channel Payload) : Prop where
  sent : c.sent = s.pushed.map DataCall.payload
  received : c.received = s.dispatched ++ s.worker.popped
  pending : c.pending = s.mHttpDataQueue
  invalid : s.invalid = []

omit [DecidableEq T] in
theorem carries_init : (init : St T).Carries .empty := ⟨rfl, rfl, rfl, rfl⟩

omit [DecidableEq T] in
/-- A step that neither pushes nor pops nor hands over. -/
theorem Carries.keep {c : Channel Payload} (h : s.Carries c) (hp : s'.pushed = s.pushed)
    (hd : s'.dispatched = s.dispatched) (hw : s'.worker.popped = s.worker.popped)
    (hq : s'.mHttpDataQueue = s.mHttpDataQueue) (hi : s'.invalid = s.invalid) : s'.Carries c :=
  ⟨by rw [hp, h.sent], by rw [hd, hw, h.received], by rw [hq, h.pending], by rw [hi, h.invalid]⟩

omit [DecidableEq T] in
/-- A payload that the worker has popped was built by a call. -/
theorem Carries.popped {c : Channel Payload} (h : s.Carries c) {pl : Payload}
    (hw : s.worker = .dispatch pl) : ∃ d ∈ s.pushed, pl = d.payload := by
  have hmem : pl ∈ c.received := by rw [h.received, hw]; simp [WorkerPc.popped]
  have hsent := c.ordered.subset hmem
  rw [h.sent] at hsent
  obtain ⟨d, hd, e⟩ := List.mem_map.mp hsent
  exact ⟨d, hd, e.symm⟩

omit [DecidableEq T] in
theorem Carries.workerStep {c : Channel Payload} (h : s.Carries c) (hs : s.WorkerStep s') :
    s'.Carries c ∨ ∃ c', c.receive = some c' ∧ s'.Carries c' := by
  cases hs with
  | lock ha => exact .inl (h.keep rfl rfl (WorkerPc.afterLock_popped ha) rfl rfl)
  | ready hw | notReady hw | readyPark hw | loop hw | leave hw | popNone hw | returns hw
  | recheck hw | empty hw | nonempty hw | data hw | noData hw | dataPark hw =>
    exact .inl (h.keep rfl rfl (by rw [hw]; rfl) rfl rfl)
  | @pop pl rest hw hq =>
    obtain ⟨c', hr, hsent, hrec, hpend⟩ := Channel.receive_eq (h.pending.trans hq)
    refine .inr ⟨c', hr, hsent.trans h.sent, ?_, hpend, h.invalid⟩
    rw [hrec, h.received, hw]
    simp [St.workerUnlock, WorkerPc.popped]
  | @dispatch pl hw =>
    refine .inl ⟨h.sent, ?_, h.pending, h.invalid⟩
    rw [h.received, hw]
    simp [WorkerPc.popped]
  | @invalid pl hw hpost hput =>
    obtain ⟨d, -, rfl⟩ := h.popped hw
    rcases d.payload_method with hm | hm
    · exact absurd hm hpost
    · exact absurd hm hput

theorem Carries.clientStep {c : Channel Payload} (h : s.Carries c) (hs : s.ClientStep t s') :
    s'.Carries c ∨ ∃ pl, s'.Carries (c.send pl) := by
  cases hs with
  | notify => exact .inl (h.keep rfl rfl (WorkerPc.notify_popped _) rfl rfl)
  | @pushItem d hc =>
    refine .inr ⟨d.payload, ?_, h.received, ?_, h.invalid⟩
    · show c.sent ++ [d.payload] = (s.pushed ++ [d]).map DataCall.payload
      rw [h.sent, List.map_append]; rfl
    · show (c.send d.payload).pending = s.mHttpDataQueue ++ [d.payload]
      rw [Channel.send_pending, h.pending]
  | _ => exact .inl (h.keep rfl rfl rfl rfl rfl)

/-- What the worker has taken out of the queue. -/
def taken (s : St T) : List Payload := s.dispatched ++ s.worker.popped

omit [DecidableEq T] in
/-- What was pushed is what was taken, and what is queued. -/
theorem Carries.taken_queue {c : Channel Payload} (h : s.Carries c) :
    s.taken ++ s.mHttpDataQueue = s.pushed.map DataCall.payload := by
  unfold taken
  rw [← h.received, ← h.pending, ← h.sent, Channel.received_pending]

omit [DecidableEq T] in
theorem Carries.taken_worker {c : Channel Payload} (h : s.Carries c) (hs : s.WorkerStep s') :
    s.taken <+: s'.taken := by
  unfold taken
  rcases h.workerStep hs with h' | ⟨c', hr, h'⟩
  · rw [← h.received, ← h'.received]
  · rw [← h.received, ← h'.received]; exact Channel.receive_prefix hr

theorem ClientStep.taken (h : s.ClientStep t s') :
    s'.taken = s.taken ∧ s.pushed <+: s'.pushed := by
  cases h with
  | notify => exact ⟨congrArg (s.dispatched ++ ·) (WorkerPc.notify_popped _), List.prefix_rfl⟩
  | pushItem => exact ⟨rfl, List.prefix_append ..⟩
  | _ => exact ⟨rfl, List.prefix_rfl⟩

/-- The queue refines a reliable channel. -/
theorem carries_reach {G : St T → Act T → Prop} (h : (wrapper T).Reach G s) :
    ∃ c, (Channel.sys Payload).Reach Sys.Any c ∧ s.Carries c :=
  h.sim (fun s hs => ⟨.empty, rfl, by subst hs; exact carries_init⟩) fun s a s' c _ _ hn hc => by
    rcases next_step hn with ⟨-, hs⟩ | ⟨t, -, hs⟩
    · rcases hc.workerStep hs with hk | ⟨c', hr, hc'⟩
      · exact .inl hk
      · exact .inr ⟨.receive, c', trivial, hr, hc'⟩
    · rcases hc.clientStep hs with hk | ⟨pl, hc'⟩
      · exact .inl hk
      · exact .inr ⟨.send pl, _, trivial, rfl, hc'⟩

end St

end LibRest
