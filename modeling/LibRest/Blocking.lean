import LibRest.Lib.Progress
import LibRest.Polling
import LibRest.Progress
import LibRest.Stopping

/-!
# Who waits for whom

- **Protection** (`changed_by_owner`). Only the owner of `mHttpQueueMutex` changes the queue or
  `mActive`.
- **Short sections** (`section_ends`). The owner gives the mutex back within three of its steps,
  whatever the others do, and it waits for nothing in between.
- **Leaving** (`leaves_within`). While no `Start` stores `true`, the worker of an inactive wrapper
  leaves its loop within ten of its steps, if it has passed its first wait.
- **No thread is stuck** (`worker_goes_on`, `clients_go_on`). In the whole wrapper, a thread that is
  not at rest can step, or a thread that can step owns the mutex.
-/

namespace LibRest

open Lib CurlHttpWrapper

/-! ## Sections -/

/-- How many steps the worker makes until it gives the mutex back. -/
def WorkerPc.sectionLeft : WorkerPc → Nat
  | .readyTest | .dataTest => 2
  | .readyPark | .popSection | .recheckSection | .dataPark => 1
  | _ => 0

/-- How many steps a client makes until it gives the mutex back. -/
def ClientPc.sectionLeft : ClientPc → Nat
  | .startStore | .stopStore | .pushItem _ => 3
  | .startNotify | .stopNotify | .pushNotify _ => 2
  | .startUnlock | .stopUnlock | .pushUnlock _ => 1
  | _ => 0

@[simp] theorem WorkerPc.notify_sectionLeft (w : WorkerPc) :
    w.notify.sectionLeft = w.sectionLeft := by
  cases w <;> rfl

theorem ClientPc.afterNotify_sectionLeft {c pc : ClientPc} (h : c.afterNotify = some pc) :
    pc.sectionLeft + 1 = c.sectionLeft := by
  cases c <;> cases h <;> rfl

namespace St

variable {T : Type} {s s' : St T} {th : Thread T} {t u : T} {a : Act T}

def sectionLeft (s : St T) : Thread T → Nat
  | .worker => s.worker.sectionLeft
  | .client t => (s.client t).sectionLeft

theorem sectionLeft_le (s : St T) (th : Thread T) : s.sectionLeft th ≤ 3 := by
  cases th with
  | worker => cases h : s.worker <;> simp [sectionLeft, h, WorkerPc.sectionLeft]
  | client t => cases h : s.client t <;> simp [sectionLeft, h, ClientPc.sectionLeft]

/-- A thread in a locked section has the mutex, and no other has. -/
theorem Locked.is_owner (h : s.Locked) (hm : s.mHttpQueueMutex = some th) {th' : Thread T}
    (hs : s.holds th' = true) : th' = th := by
  have e := Excl.owner h hs
  rw [hm] at e
  exact (Option.some.inj e).symm

/-- A step of the worker, by what it does to the mutex of `th`. -/
theorem WorkerStep.section (hl : s.Locked) (hm : s.mHttpQueueMutex = some th)
    (hs : s.WorkerStep s') :
    (th = .worker ∧ s'.mHttpQueueMutex = none) ∨
      s'.mHttpQueueMutex = some th ∧
        (th = .worker ∧ s'.sectionLeft th + 1 ≤ s.sectionLeft th ∨
          th ≠ .worker ∧ s'.sectionLeft th = s.sectionLeft th) := by
  have howner : s.worker.holds = true → th = .worker := fun h =>
    (hl.is_owner hm (show s.holds .worker = true from h)).symm
  have hother : s.worker.holds = false → th ≠ .worker := by
    rintro h rfl
    have e : s.worker.holds = true := (hl .worker).mp hm
    rw [h] at e; cases e
  have hclient : s'.client = s.client := hs.frame.2.1
  have hsame : th ≠ .worker → s'.sectionLeft th = s.sectionLeft th := fun hne => by
    cases th with
    | worker => exact absurd rfl hne
    | client t => simp only [sectionLeft, hclient]
  cases hs with
  | lock _ hfree => rw [hm] at hfree; cases hfree
  | ready e | readyPark e | popNone e | pop e | recheck e | data e | dataPark e =>
    exact .inl ⟨howner (by rw [e]; rfl), rfl⟩
  | notReady e | noData e =>
    have hw := howner (by rw [e]; rfl)
    subst hw
    refine .inr ⟨hm, .inl ⟨rfl, ?_⟩⟩
    simp [sectionLeft, e, WorkerPc.sectionLeft]
  | loop e | leave e | dispatch e | invalid e | returns e | empty e | nonempty e =>
    have hne := hother (by rw [e]; rfl)
    exact .inr ⟨hm, .inr ⟨hne, hsame hne⟩⟩

variable [DecidableEq T]

/-- A step of the client `t`, by what it does to the mutex of `th`. -/
theorem ClientStep.section (hl : s.Locked) (hm : s.mHttpQueueMutex = some th)
    (hs : s.ClientStep t s') :
    (th = .client t ∧ s'.mHttpQueueMutex = none) ∨
      s'.mHttpQueueMutex = some th ∧
        (th = .client t ∧ s'.sectionLeft th + 1 ≤ s.sectionLeft th ∨
          th ≠ .client t ∧ s'.sectionLeft th = s.sectionLeft th) := by
  have howner : (s.client t).holds = true → th = .client t := fun h =>
    (hl.is_owner hm (show s.holds (.client t) = true from h)).symm
  have hother : (s.client t).holds = false → th ≠ .client t := by
    rintro h rfl
    have e : (s.client t).holds = true := (hl (.client t)).mp hm
    rw [h] at e; cases e
  have hsame : th ≠ .client t → s'.sectionLeft th = s.sectionLeft th := fun hne => by
    cases th with
    | worker =>
      rcases hs.frame.1 with e | e <;> simp [sectionLeft, e]
    | client u =>
      have hu : u ≠ t := fun e => hne (by rw [e])
      simp only [sectionLeft, hs.others hu]
  cases hs with
  | lock _ hfree => rw [hm] at hfree; cases hfree
  | unlock e =>
    have hw := howner (by rcases e with e | e <;> rw [e] <;> rfl)
    exact .inl ⟨hw, rfl⟩
  | pushUnlock e => exact .inl ⟨howner (by rw [e]; rfl), rfl⟩
  | notify e =>
    have hw := howner (ClientPc.afterNotify_holds e).1
    subst hw
    refine .inr ⟨hm, .inl ⟨rfl, ?_⟩⟩
    simp [sectionLeft, ClientPc.afterNotify_sectionLeft e]
  | startStore e | stopStore e | pushItem e | throwItem e =>
    have hw := howner (by rw [e]; rfl)
    subst hw
    refine .inr ⟨hm, .inl ⟨rfl, ?_⟩⟩
    simp [sectionLeft, e, ClientPc.sectionLeft]
  | call _ e | startSkip e | startGo e | stopSkip e | stopGo e | throwLock e =>
    have hne := hother (by rw [e]; rfl)
    exact .inr ⟨hm, .inr ⟨hne, hsame hne⟩⟩

/-- What a step does to the section of the owner `th`. -/
theorem section_step (hl : s.Locked) (hm : s.mHttpQueueMutex = some th)
    (hn : (wrapper T).next s a = some s') :
    (a.thread = th ∧ s'.mHttpQueueMutex = none) ∨
      s'.mHttpQueueMutex = some th ∧
        s'.sectionLeft th + (decide (a.thread = th)).toNat ≤ s.sectionLeft th := by
  have hcount : ∀ th', a.thread = th' →
      (th = th' ∧ s'.mHttpQueueMutex = none) ∨
        s'.mHttpQueueMutex = some th ∧
          (th = th' ∧ s'.sectionLeft th + 1 ≤ s.sectionLeft th ∨
            th ≠ th' ∧ s'.sectionLeft th = s.sectionLeft th) →
      (a.thread = th ∧ s'.mHttpQueueMutex = none) ∨
        s'.mHttpQueueMutex = some th ∧
          s'.sectionLeft th + (decide (a.thread = th)).toNat ≤ s.sectionLeft th := by
    rintro th' ha (⟨rfl, h⟩ | ⟨h, ⟨rfl, hle⟩ | ⟨hne, e⟩⟩)
    · exact .inl ⟨ha, h⟩
    · exact .inr ⟨h, by simpa [ha] using hle⟩
    · have hne' : a.thread ≠ th := fun h => hne (h.symm.trans ha)
      exact .inr ⟨h, by simp [hne', e]⟩
  rcases next_step hn with ⟨ha, hs⟩ | ⟨t, ha, hs⟩
  · exact hcount _ ha (hs.section hl hm)
  · exact hcount _ ha (hs.section hl hm)

/-- **Short sections.** In every run from a reachable state in which `th` has the mutex, three steps
of `th` are enough for it to give the mutex back. -/
theorem section_ends (h : (wrapper T).Reach Sys.Any s) (hm : s.mHttpQueueMutex = some th)
    {as : List (Act T)} (hr : (wrapper T).run s as = some s')
    (hc : 3 ≤ as.countP fun a => a.thread = th) :
    ¬ (wrapper T).Throughout (fun s => s.mHttpQueueMutex = some th) s as := by
  have hmeet := Sys.meets (S := wrapper T) (G := Sys.Any) (I := (wrapper T).Reach Sys.Any)
    (P := fun s => s.mHttpQueueMutex ≠ some th) (W := fun a => a.thread = th)
    (M := fun s n => s.mHttpQueueMutex = some th → s.sectionLeft th ≤ n)
    (fun _ _ _ hi hg hn => .step hi hg hn) ?_ ?_ h (fun _ => s.sectionLeft_le th)
    (Sys.along_of_labels (P := fun _ => True) (fun _ _ _ => trivial) (fun _ _ => trivial)) hr hc
  · simpa using hmeet
  · intro s hi hM hm
    have hle := hM hm
    have hpos : 0 < s.sectionLeft th := by
      have hs : s.holds th = true := (locked_reach hi th).mp hm
      cases th with
      | worker => cases hw : s.worker <;> simp_all [holds, sectionLeft, WorkerPc.holds,
          WorkerPc.sectionLeft]
      | client t => cases hw : s.client t <;> simp_all [holds, sectionLeft, ClientPc.holds,
          ClientPc.sectionLeft]
    omega
  · intro s a s' n hi hp _ hM hn
    have hm : s.mHttpQueueMutex = some th := not_not.mp hp
    rcases section_step (locked_reach hi) hm hn with ⟨-, e⟩ | ⟨-, hle⟩
    · exact .inl (by rw [e]; simp)
    · refine .inr ⟨n - (decide (a.thread = th)).toNat, fun _ => ?_, ?_⟩
      · have := hM hm
        omega
      · have := hM hm
        omega

/-- A client has the mutex at the store of `Start`: it stores, notifies and unlocks. -/
theorem section_ends_start :
    ∃ s : St Unit, s.mHttpQueueMutex = some (.client ()) ∧
      ¬ (wrapper Unit).Throughout (fun s => s.mHttpQueueMutex = some (.client ())) s
        [.client (), .client (), .client ()] := by
  obtain ⟨s, hr, hs⟩ := Option.map_eq_some_iff.mp (show ((wrapper Unit).run .init
    [.call () .start, .client (), .client ()]).map (fun s => s.mHttpQueueMutex) =
      some (some (.client ())) by decide)
  have hall : ((wrapper Unit).run .init ([.call () .start, .client (), .client ()] ++
      [.client (), .client (), .client ()])).map (fun s => s.mActive) = some true := by decide
  rw [Sys.run_append, hr, Option.bind_some] at hall
  obtain ⟨t, ht, -⟩ := Option.map_eq_some_iff.mp hall
  exact ⟨s, hs, section_ends (Sys.Reach.run (.init rfl) hr) hs ht (by decide)⟩

/-- **Protection.** In every run, a step that changes the queue or `mActive` is one of the owner of
the mutex. -/
theorem changed_by_owner (h : (wrapper T).Reach Sys.Any s) (hn : (wrapper T).next s a = some s')
    (hc : s'.mHttpDataQueue ≠ s.mHttpDataQueue ∨ s'.mActive ≠ s.mActive) :
    s.mHttpQueueMutex = some a.thread := by
  have hl := locked_reach h
  have howner : s.holds a.thread = true → s.mHttpQueueMutex = some a.thread := Excl.owner hl
  rcases next_step hn with ⟨ha, hs⟩ | ⟨t, ha, hs⟩
  · rw [ha] at howner ⊢
    refine howner ?_
    cases hs with
    | pop hw => simp [holds, hw, WorkerPc.holds]
    | _ => simp [St.workerUnlock] at hc
  · rw [ha] at howner ⊢
    refine howner ?_
    cases hs with
    | pushItem e | startStore e | stopStore e => simp [holds, e, ClientPc.holds]
    | _ => simp [goto, St.clientUnlock, notifyOne, returns] at hc

/-- The store of `Start` is made by the owner. -/
theorem changed_by_owner_start :
    ∃ s s' : St Unit, s'.mActive ≠ s.mActive ∧
      (wrapper Unit).next s (.client ()) = some s' ∧
        s.mHttpQueueMutex = some (Act.client ()).thread := by
  obtain ⟨s, hr, hs⟩ := Option.map_eq_some_iff.mp (show ((wrapper Unit).run .init
    [.call () .start, .client (), .client ()]).map (fun s => (s.client (), s.mActive)) =
      some (.startStore, false) by decide)
  obtain ⟨hc, ha⟩ := Prod.mk.inj hs
  have hn : (wrapper Unit).next s (.client ()) =
      some ({ s with mActive := true }.goto () .startNotify) := by
    simp only [wrapper, clientNext, hc]
  have hne : ({ s with mActive := true }.goto () .startNotify).mActive ≠ s.mActive := by
    rw [ha]; simp [goto]
  exact ⟨s, _, hne, hn, changed_by_owner (Sys.Reach.run (.init rfl) hr) hn (.inr hne)⟩

end St

/-! ## Leaving the loop -/

/-- How many steps the worker makes until it leaves its loop, if the wrapper stays inactive and the
worker has passed its first wait. It does not park then. -/
def WorkerPc.exitDistance : WorkerPc → Nat
  | .loopTest => 1
  | .dataTest | .emptyTest false => 2
  | .dataLock | .dataParked _ => 3
  | .emptyTest true => 4
  | .recheckSection => 5
  | .recheckLock => 6
  | .running _ => 7
  | .dispatch _ => 8
  | .popSection => 9
  | .popLock => 10
  | .done | .dataPark | .readyLock | .readyTest | .readyPark | .readyParked _ => 0

theorem WorkerPc.exitDistance_le (w : WorkerPc) : w.exitDistance ≤ 10 := by
  cases w with
  | emptyTest b => cases b <;> simp [exitDistance]
  | _ => simp [exitDistance]

@[simp] theorem WorkerPc.notify_exitDistance (w : WorkerPc) :
    w.notify.exitDistance = w.exitDistance := by
  cases w <;> rfl

theorem WorkerPc.afterLock_exitDistance {w pc : WorkerPc} (h : w.afterLock = some pc)
    (hr : w.waitsReady = false) : pc.exitDistance + 1 = w.exitDistance := by
  cases w <;> simp [waitsReady] at hr <;> cases h <;> rfl

namespace St

variable {T : Type} {s s' : St T} {a : Act T}

/-- The worker of an inactive wrapper gets nearer to the end of its loop. -/
theorem WorkerStep.exitDistance (hw : s.Wakes) (ha : s.mActive = false)
    (hr : s.worker.waitsReady = false) (hs : s.WorkerStep s') :
    s'.worker.exitDistance + 1 ≤ s.worker.exitDistance := by
  cases hs with
  | lock hl _ => exact Nat.le_of_eq (WorkerPc.afterLock_exitDistance hl hr)
  | ready _ h | loop _ h => rw [ha] at h; cases h
  | noData _ _ h => rw [ha] at h; cases h
  | notReady e | readyPark e => rw [e] at hr; cases hr
  | dataPark e =>
    have h := (hw.dataPark e).2
    rw [ha] at h; cases h
  | recheck e =>
    rw [e]
    cases s.mHttpDataQueue.isEmpty <;> simp [St.workerUnlock, WorkerPc.exitDistance]
  | leave e | popNone e | pop e | dispatch e | invalid e | returns e | empty e | nonempty e
  | data e =>
    rw [e]
    simp [St.workerUnlock, WorkerPc.exitDistance]

variable [DecidableEq T]

/-- The wrapper is inactive, and its worker has passed its first wait. -/
structure Leaving (s : St T) : Prop where
  wakes : s.Wakes
  locked : s.Locked
  inactive : s.mActive = false
  past : s.worker.waitsReady = false

theorem Leaving.step (h : s.Leaving) (hg : s.NoStartStore a)
    (hn : (wrapper T).next s a = some s') : s'.Leaving := by
  rcases next_step hn with ⟨-, hs⟩ | ⟨t, ht, hs⟩
  · exact ⟨h.wakes.workerStep hs, h.locked.workerStep hs, hs.frame.1.trans h.inactive,
      hs.pastReady h.past⟩
  · refine ⟨h.wakes.clientStep h.locked hs, h.locked.clientStep hs, ?_, ?_⟩
    · rcases hs.frame.2 with e | ⟨hc, -⟩ | ⟨-, e⟩
      · exact e.trans h.inactive
      · cases a with
        | client u =>
          obtain rfl : u = t := by simpa [Act.thread] using ht
          exact absurd hc hg
        | call u c =>
          obtain rfl : u = t := by simpa [Act.thread] using ht
          simp [wrapper, callNext, hc] at hn
        | clientThrows u =>
          obtain rfl : u = t := by simpa [Act.thread] using ht
          simp [wrapper, clientThrows, hc] at hn
        | _ => cases ht
      · exact e
    · rcases hs.frame.1 with e | e <;> rw [e]
      · exact h.past
      · rw [WorkerPc.notify_waitsReady]; exact h.past

/-- **Leaving.** While no `Start` stores `true`, the worker of an inactive wrapper leaves its loop
within ten of its steps, if it has passed its first wait: the longest way is to hand over the
payload that it is about to pop. -/
theorem leaves_within (h : (wrapper T).Reach Sys.Any s) (ha : s.mActive = false)
    (hw : s.worker.waitsReady = false) {as : List (Act T)}
    (hg : (wrapper T).Along NoStartStore s as) (hr : (wrapper T).run s as = some s')
    (hc : 10 ≤ as.countP fun a => a.thread = .worker) : s'.worker = .done := by
  refine Sys.within (S := wrapper T) (I := Leaving) (P := fun s => s.worker = .done)
    (G := NoStartStore) (W := fun a => a.thread = .worker)
    (M := fun s n => s.worker.exitDistance ≤ n) (fun _ _ _ hi hg hn => hi.step hg hn)
    ?_ ?_ ?_ ⟨wakes_reach h, locked_reach h, ha, hw⟩ s.worker.exitDistance_le hg hr hc
  · intro s a s' _ hd _ hn
    rcases next_step hn with ⟨-, hs⟩ | ⟨t, -, hs⟩
    · cases hs <;> simp_all [WorkerPc.afterLock]
    · rcases hs.frame.1 with e | e <;> rw [e]
      · exact hd
      · rw [hd]; rfl
  · intro s hi hM
    have hpast := hi.past
    have hpark := hi.wakes.dataPark
    have hact := hi.inactive
    cases e : s.worker with
    | emptyTest b => cases b <;> simp [e, WorkerPc.exitDistance] at hM
    | _ => simp_all [WorkerPc.exitDistance, WorkerPc.waitsReady]
  · intro s a s' n hi _ _ hM hn
    have hM' : s.worker.exitDistance ≤ n := hM
    rcases next_step hn with ⟨ht, hs⟩ | ⟨t, ht, hs⟩
    · have hnear := hs.exitDistance hi.wakes hi.inactive hi.past
      exact .inr ⟨n - 1, by show s'.worker.exitDistance ≤ n - 1; omega, by simp [ht]; omega⟩
    · refine .inr ⟨n, ?_, by simp [ht]⟩
      show s'.worker.exitDistance ≤ n
      rcases hs.frame.1 with e | e <;> rw [e]
      · exact hM'
      · rw [WorkerPc.notify_exitDistance]; exact hM'

/-- The worker is at its pop section when `Shutdown` stores `false`: it sends one more payload. -/
theorem leaves_within_popping :
    ∃ s s' : St Unit, s.worker = .popLock ∧ s.mActive = false ∧
      (wrapper Unit).run s (List.replicate 3 .worker ++ [.workerReturns .success] ++
        List.replicate 6 .worker) = some s' ∧ s'.worker = .done := by
  obtain ⟨s, hr, hs⟩ := Option.map_eq_some_iff.mp (show ((wrapper Unit).run .init
    (.call () .start :: List.replicate 5 (.client ()) ++
      .call () (.data (.createDeviceData [97] ⟨[123], .typeJson⟩)) ::
        List.replicate 4 (.client ()) ++ List.replicate 3 .worker ++
      .call () .shutdown :: List.replicate 5 (.client ()))).map (fun s => (s.worker, s.mActive)) =
      some (.popLock, false) by decide)
  obtain ⟨hw, ha⟩ := Prod.mk.inj hs
  have hall : ((wrapper Unit).run .init
    ((.call () .start :: List.replicate 5 (.client ()) ++
      .call () (.data (.createDeviceData [97] ⟨[123], .typeJson⟩)) ::
        List.replicate 4 (.client ()) ++ List.replicate 3 .worker ++
      .call () .shutdown :: List.replicate 5 (.client ())) ++
      (List.replicate 3 .worker ++ [.workerReturns .success] ++
        List.replicate 6 .worker))).map (fun s => s.mActive) = some false := by decide
  rw [Sys.run_append, hr, Option.bind_some] at hall
  obtain ⟨t, ht, -⟩ := Option.map_eq_some_iff.mp hall
  have hlabels : ∀ a ∈ List.replicate 3 Act.worker ++ [.workerReturns .success] ++
      List.replicate 6 .worker, a.thread = (Thread.worker : Thread Unit) := by decide
  refine ⟨s, t, hw, ha, ht, leaves_within (Sys.Reach.run (.init rfl) hr) ha (by rw [hw]; rfl)
    (Sys.along_of_labels (P := fun a => a.thread = .worker) ?_ hlabels) ht (by decide)⟩
  intro s a e
  cases a <;> trivial

end St

/-! ## The whole wrapper -/

/-- The worker is parked, and has no notification. -/
def WorkerPc.sleeps : WorkerPc → Bool
  | .readyParked notified | .dataParked notified => !notified
  | _ => false

/-- The worker sleeps, and has nothing to do. -/
def St.Rests {T : Type} (s : St T) : Prop :=
  s.worker = .readyParked false ∧ s.mActive = false ∨
    s.worker = .dataParked false ∧ s.mHttpDataQueue = [] ∧ s.mActive = true

namespace Service

variable {T C : Type} [DecidableEq T] [DecidableEq C] {s s' : Service T C} {t : T}

/-- The client `t` is between the store and the notification of `Start`: its options are being set.
-/
def Starts (s : Service T C) : Prop :=
  ∀ t, s.queue.client t = .startNotify → ∃ c p, s.starting t = some c ∧
    s.pool.calls (.client c) = some p ∧ p.All fun o => ∃ opt a, o = .setopt (some mCurl) opt a

/-- Where a client came from that has yet to notify for `Start`. -/
theorem starting_next {q q' : St T} {b : LibRest.Act T} (hn : (wrapper T).next q b = some q')
    (ht : q'.client t = .startNotify) :
    q.client t = .startNotify ∨ b = .client t ∧ q.client t = .startStore := by
  rcases St.next_step hn with ⟨-, hs⟩ | ⟨u, hu, hs⟩
  · rw [hs.frame.2.1] at ht
    exact .inl ht
  · by_cases htu : t = u
    · subst htu
      have hstore : q.client t = .startStore := by
        cases hs with
        | startStore hc => exact hc
        | call c hc => cases c <;> simp [ClientCall.enter] at ht
        | @lock pc hl _ =>
          rw [St.goto_client] at ht
          subst ht
          cases hq : q.client t <;> rw [hq] at hl <;> cases hl
        | @notify pc hl =>
          rw [St.goto_client] at ht
          subst ht
          cases hq : q.client t <;> rw [hq] at hl <;> cases hl
        | _ => simp [St.clientUnlock] at ht
      refine .inr ⟨?_, hstore⟩
      cases b with
      | client v =>
        obtain rfl : v = t := by simpa [LibRest.Act.thread] using hu
        rfl
      | call v c =>
        obtain rfl : v = t := by simpa [LibRest.Act.thread] using hu
        simp [wrapper, St.callNext, hstore] at hn
      | clientThrows v =>
        obtain rfl : v = t := by simpa [LibRest.Act.thread] using hu
        simp [wrapper, St.clientThrows, hstore] at hn
      | _ => cases hu
    · rw [hs.others htu] at ht
      exact .inl ht

theorem starts_reach {G : Service T C → Act T C → Prop} (h : (service T C).Reach G s) :
    s.Starts := by
  refine h.inv ?_ ?_
  · rintro s ⟨hq, -, -⟩ t ht
    have hq' : s.queue = .init := hq
    rw [hq'] at ht
    cases ht
  · intro s a s' hreach _ hn hi t ht
    -- the call of `t` goes on as long as no call with its number is made
    have hkeep : ∀ (i : RequestId C) (q : Request Reply), s.queue.client t = .startNotify →
        s'.starting t = s.starting t → (∀ c, i = .client c → s.pool.calls i = none ∨
          ∃ o k, s.pool.calls i = some (.op o k) ∧ ∀ P : Op → Prop, Prog.All P (.op o k) →
            q.All P) → s'.pool.calls = Function.update s.pool.calls i (some q) →
        ∃ c p, s'.starting t = some c ∧ s'.pool.calls (.client c) = some p ∧
          p.All fun o => ∃ opt a, o = .setopt (some mCurl) opt a := by
      intro i q hold hst hcall hcalls
      obtain ⟨c, p, hc, hp, hall⟩ := hi t hold
      by_cases hic : i = .client c
      · subst hic
        refine ⟨c, q, hst.trans hc, by rw [hcalls, Function.update_self], ?_⟩
        rcases hcall c rfl with hnone | ⟨o, k, hcur, hq⟩
        · rw [hnone] at hp; cases hp
        · rw [hcur] at hp
          obtain rfl := Option.some.inj hp
          exact hq _ hall
      · refine ⟨c, p, hst.trans hc, ?_, hall⟩
        rw [hcalls, Function.update_of_ne (Ne.symm hic)]
        exact hp
    cases next_step hn with
    | queue hq hb =>
      rcases starting_next hb ht with hold | ⟨rfl, hstore⟩
      · exact hi t hold
      · simp [quiet, hstore] at hq
    | @dispatch pl g hw hreq hnone =>
      exact hkeep (.worker s.queue.dispatched.length) g.body ht rfl (by simp) rfl
    | returns => exact hi t ht
    | @startStore u c q hb hu hnone =>
      by_cases htu : t = u
      · subst htu
        refine ⟨c, Job.startOptions.body, Function.update_self .., Function.update_self .., ?_⟩
        exact ⟨⟨_, _, rfl⟩, fun _ => ⟨⟨_, _, rfl⟩, fun _ => trivial⟩⟩
      · rcases starting_next hb ht with hold | ⟨e, -⟩
        · exact hkeep (.client c) _ hold (Function.update_of_ne htu ..) (fun _ _ => .inl hnone) rfl
        · exact absurd (by simpa using e.symm) htu
    | @call c g hnone _ => exact hkeep (.client c) g.body ht rfl (fun _ _ => .inl hnone) rfl
    | @step i ch o k r w hcur hr =>
      refine hkeep i (Pool.rest o k r) ht rfl (fun _ _ => .inr ⟨o, k, hcur, fun P hP => ?_⟩) rfl
      cases r with
      | none => exact hP
      | some r => exact hP.2 r

/-- The step is one of the client `t`, or of the options that its `Start` sets. -/
def OfClient (s : Service T C) (t : T) : Act T C → Prop
  | .queue (.client u) | .startStore u _ => u = t
  | .step (.client c) _ => s.starting t = some c
  | _ => False

/-- A client that owns the mutex can step. `c` is the number of a call that is not made yet. -/
theorem holder_goes_on {G : Service T C → Act T C → Prop} (h : (service T C).Reach G s) {c : C}
    (hc : s.pool.calls (.client c) = none) (hm : s.queue.mHttpQueueMutex = some (.client t)) :
    ∃ a, s.OfClient t a ∧ ((service T C).next s a).isSome = true := by
  have hholds : (s.queue.client t).holds = true :=
    (St.locked_reach (wrapper_reach h) (.client t)).mp hm
  have hstep : s.quiet (.client t) = true → (s.queue.clientNext t).isSome = true →
      ∃ a, s.OfClient t a ∧ ((service T C).next s a).isSome = true := fun hq hn => by
    refine ⟨.queue (.client t), rfl, ?_⟩
    simp only [service, hq, if_true, Option.isSome_map]
    exact hn
  cases ht : s.queue.client t with
  | startStore =>
    refine ⟨.startStore t c, rfl, ?_⟩
    simp [service, wrapper, St.clientNext, ht, jobs, Pool.sys, hc, mayRun]
  | startNotify =>
    obtain ⟨c', p, hst, hp, hall⟩ := starts_reach h t ht
    cases p with
    | ret r =>
      refine hstep ?_ (by simp [St.clientNext, ht])
      simp [quiet, ht, hst, hp, Pool.returned, Pool.result]
    | op o k =>
      obtain ⟨opt, a, rfl⟩ := hall.1
      refine ⟨.step (.client c') .ok, hst, ?_⟩
      simp [service, jobs, Pool.sys, Pool.stepNext, hp, handle]
  | startUnlock | stopStore | stopNotify | stopUnlock | pushItem | pushNotify | pushUnlock =>
    exact hstep (by simp [quiet, ht]) (by simp [St.clientNext, ht])
  | idle | startTest | startLock | stopTest | stopLock | pushLock => rw [ht] at hholds; cases hholds

/-- A step of the worker that calls no libcurl function. -/
theorem worker_step (hq : s.quiet .worker = true) (hn : s.queue.workerNext.isSome = true) :
    ∃ a, ofWorker a = true ∧ ((service T C).next s a).isSome = true := by
  refine ⟨.queue .worker, rfl, ?_⟩
  simp only [service, hq, if_true, Option.isSome_map]
  exact hn

/-- A worker that owns the mutex can step. -/
theorem worker_holder_goes_on (hw : s.queue.worker.holds = true) :
    ∃ a, ofWorker a = true ∧ ((service T C).next s a).isSome = true := by
  cases h : s.queue.worker with
  | readyTest | readyPark | popSection | recheckSection | dataTest | dataPark =>
    refine worker_step (by simp [quiet, h]) ?_
    simp only [St.workerNext, h]
    first | rfl | (split <;> rfl)
  | _ => rw [h] at hw; cases hw

/-- A worker that is at no lock and in its loop can step, or its request can. -/
theorem worker_free_goes_on (h : (service T C).Reach Sys.Any s)
    (hl : s.queue.worker.afterLock = none) (hd : s.queue.worker ≠ .done) :
    ∃ a, ofWorker a = true ∧ ((service T C).next s a).isSome = true := by
  have hcoupled : Coupled False s := coupled_reach (fun _ _ _ => False.elim) h
  cases hw : s.queue.worker with
  | done => exact absurd hw hd
  | readyTest | readyPark | popSection | recheckSection | dataTest | dataPark =>
    exact worker_holder_goes_on (by rw [hw]; rfl)
  | loopTest =>
    refine worker_step (by simp [quiet, hw]) ?_
    simp only [St.workerNext, hw]
    split <;> rfl
  | emptyTest b =>
    refine worker_step (by simp [quiet, hw]) ?_
    cases b <;> simp [St.workerNext, hw]
  | dispatch pl =>
    obtain ⟨ch, -, hcar⟩ := St.carries_reach (wrapper_reach h)
    obtain ⟨d, -, rfl⟩ := hcar.popped hw
    obtain ⟨g, hreq⟩ : ∃ g, d.payload.request = some g := by
      cases d <;> exact ⟨_, rfl⟩
    have hnone := hcoupled.made _ (Nat.le_refl _)
    have hmay : mayRun s.pool.calls (.worker s.queue.dispatched.length) (.call g) = true := by
      cases d <;> cases hreq <;> rfl
    refine ⟨.dispatch, rfl, ?_⟩
    simp [service, hw, hreq, dispatch_next hw hreq, jobs, Pool.sys, hnone, hmay]
  | running pl =>
    cases hcoupled.current with
    | resting hno => exact absurd hw (hno pl)
    | @sending pl' p hrun hd hp _ =>
      cases p with
      | ret r =>
        have hlen : s.queue.dispatched.length - 1 = s.results.length := by simp [hd]
        refine ⟨.returns, rfl, ?_⟩
        simp [service, wrapper, St.workerReturns, hw, hlen, hp, Pool.result]
      | op o k =>
        obtain ⟨x, hchunk, hx⟩ := handle_enabled (.worker s.results.length) s.pool.shared
          fun e => absurd e (unlocked_reach h hp).1.1
        refine ⟨.step (.worker s.results.length) x, by simp [ofWorker, hchunk], ?_⟩
        simp only [service, jobs, Pool.sys, Pool.stepNext, hp, Option.isSome_map]
        exact hx
  | _ => rw [hw] at hl; cases hl

/-- At a lock, the worker takes the mutex, or it waits for the owner, which is a client. -/
theorem worker_at_lock (h : (service T C).Reach Sys.Any s) {c : C}
    (hc : s.pool.calls (.client c) = none) {pc : WorkerPc}
    (hl : s.queue.worker.afterLock = some pc) :
    (∃ a, ofWorker a = true ∧ ((service T C).next s a).isSome = true) ∨
      ∃ t, s.queue.mHttpQueueMutex = some (.client t) ∧
        ∃ a, s.OfClient t a ∧ ((service T C).next s a).isSome = true := by
  have hlocked := St.locked_reach (wrapper_reach h)
  have hnext : s.quiet .worker = true ∧ s.queue.workerNext = s.queue.workerLock pc := by
    cases hw : s.queue.worker <;> rw [hw] at hl <;> cases hl <;> simp [quiet, St.workerNext, hw]
  cases hm : s.queue.mHttpQueueMutex with
  | none => exact .inl (worker_step hnext.1 (by rw [hnext.2]; simp [St.workerLock, hm]))
  | some th =>
    cases th with
    | worker =>
      have hin : s.queue.worker.holds = true := (hlocked .worker).mp hm
      rw [(WorkerPc.afterLock_holds hl).1] at hin
      cases hin
    | client t => exact .inr ⟨t, rfl, holder_goes_on h hc hm⟩

/-- A worker that sleeps has nothing to do, or a client that has yet to notify owns the mutex. -/
theorem sleeper_rests (h : (service T C).Reach Sys.Any s) (hs : s.queue.worker.sleeps = true) :
    s.queue.Rests ∨ ∃ t, s.queue.mHttpQueueMutex = some (.client t) := by
  have hlocked := St.locked_reach (wrapper_reach h)
  have hwakes := St.wakes_reach (wrapper_reach h)
  have howner : ∀ t, (s.queue.client t).holds = true →
      ∃ t, s.queue.mHttpQueueMutex = some (.client t) := fun t hin =>
    ⟨t, (hlocked (.client t)).mpr hin⟩
  cases hw : s.queue.worker with
  | readyParked notified =>
    obtain rfl : notified = false := by simpa [hw, WorkerPc.sleeps] using hs
    rcases hwakes.readyParked hw with hact | ⟨t, ht⟩
    · exact .inl (.inl ⟨hw, hact⟩)
    · exact .inr (howner t (by rw [ht]; rfl))
  | dataParked notified =>
    obtain rfl : notified = false := by simpa [hw, WorkerPc.sleeps] using hs
    rcases hwakes.dataParked hw with hrest | ⟨t, ht | ⟨d, ht⟩⟩
    · exact .inl (.inr ⟨hw, hrest⟩)
    · exact .inr (howner t (by rw [ht]; rfl))
    · exact .inr (howner t (by rw [ht]; rfl))
  | _ => rw [hw] at hs; cases hs

/-- **The worker is never stuck.** In every reachable state of the whole wrapper, one of these
holds: the worker has left its loop; it rests; it or its request can step, without a spurious
wake-up; it waits for the mutex, a client owns the mutex, and the client can step. So the data
behind a popped payload is never null when `Post` or `Put` reads it. `c` is the number of a call
that is not made yet. -/
theorem worker_goes_on (h : (service T C).Reach Sys.Any s) {c : C}
    (hc : s.pool.calls (.client c) = none) :
    s.queue.worker = .done ∨ s.queue.Rests ∨
      (s.queue.worker.sleeps = false ∧
        ∃ a, ofWorker a = true ∧ ((service T C).next s a).isSome = true) ∨
      s.queue.worker.afterLock ≠ none ∧ ∃ t, s.queue.mHttpQueueMutex = some (.client t) ∧
        ∃ a, s.OfClient t a ∧ ((service T C).next s a).isSome = true := by
  by_cases hd : s.queue.worker = .done
  · exact .inl hd
  cases hs : s.queue.worker.sleeps with
  | true =>
    have hl : s.queue.worker.afterLock ≠ none := by
      cases hw : s.queue.worker <;> simp_all [WorkerPc.sleeps, WorkerPc.afterLock]
    rcases sleeper_rests h hs with hrest | ⟨t, hm⟩
    · exact .inr (.inl hrest)
    · exact .inr (.inr (.inr ⟨hl, t, hm, holder_goes_on h hc hm⟩))
  | false =>
    cases hl : s.queue.worker.afterLock with
    | none => exact .inr (.inr (.inl ⟨rfl, worker_free_goes_on h hl hd⟩))
    | some pc =>
      rcases worker_at_lock h hc hl with hgo | hclient
      · exact .inr (.inr (.inl ⟨rfl, hgo⟩))
      · exact .inr (.inr (.inr ⟨by simp, hclient⟩))

/-- The worker waits for a client that pushes, and this client can step. -/
theorem worker_goes_on_pushing :
    ∃ s : Service Unit Bool, s.queue.worker = .readyLock ∧
      s.queue.mHttpQueueMutex = some (.client ()) ∧
        (s.queue.worker = .done ∨ s.queue.Rests ∨
          (s.queue.worker.sleeps = false ∧
            ∃ a, ofWorker a = true ∧ ((service Unit Bool).next s a).isSome = true) ∨
          s.queue.worker.afterLock ≠ none ∧ ∃ t, s.queue.mHttpQueueMutex = some (.client t) ∧
            ∃ a, s.OfClient t a ∧ ((service Unit Bool).next s a).isSome = true) := by
  obtain ⟨s, hr, hs⟩ := Option.map_eq_some_iff.mp (show ((service Unit Bool).run (start Unit Bool)
    queued.dropLast).map (fun s => (s.queue.worker, s.queue.mHttpQueueMutex,
      (s.pool.calls (.client true)).isSome)) =
      some (.readyLock, some (.client ()), false) by decide)
  simp only [Prod.mk.injEq] at hs
  obtain ⟨hw, hm, hc⟩ := hs
  exact ⟨s, hw, hm, worker_goes_on (Sys.Reach.run (.init start_init) hr)
    (Option.isNone_iff_eq_none.mp (Option.isSome_eq_false_iff.mp hc))⟩

/-- The step is one of the thread. -/
def OfThread (s : Service T C) : Thread T → Act T C → Prop
  | .worker, a => ofWorker a = true
  | .client u, a => s.OfClient u a

/-- **No client is stuck.** In every reachable state of the whole wrapper, a client in a call of
`Start`, `Shutdown`, `CreateDeviceData` or `UpdateDeviceData` can step, or it waits for the mutex,
and the thread that owns the mutex is another one and can step. `c` is the number of a call that is
not made yet. -/
theorem clients_go_on (h : (service T C).Reach Sys.Any s) {c : C}
    (hc : s.pool.calls (.client c) = none) (ht : s.queue.client t ≠ .idle) :
    (∃ a, s.OfClient t a ∧ ((service T C).next s a).isSome = true) ∨
      (s.queue.client t).afterLock ≠ none ∧
        ∃ th, s.queue.mHttpQueueMutex = some th ∧ th ≠ .client t ∧
          ∃ a, s.OfThread th a ∧ ((service T C).next s a).isSome = true := by
  have hlocked := St.locked_reach (wrapper_reach h)
  have hstep : s.quiet (.client t) = true → (s.queue.clientNext t).isSome = true →
      ∃ a, s.OfClient t a ∧ ((service T C).next s a).isSome = true := fun hq hn => by
    refine ⟨.queue (.client t), rfl, ?_⟩
    simp only [service, hq, if_true, Option.isSome_map]
    exact hn
  by_cases hholds : (s.queue.client t).holds = true
  · exact .inl (holder_goes_on h hc ((hlocked (.client t)).mpr hholds))
  · cases hpc : s.queue.client t with
    | idle => exact absurd hpc ht
    | startTest | stopTest =>
      refine .inl (hstep (by simp [quiet, hpc]) ?_)
      simp only [St.clientNext, hpc]
      split <;> rfl
    | startLock | stopLock | pushLock =>
      cases hm : s.queue.mHttpQueueMutex with
      | none =>
        refine .inl (hstep (by simp [quiet, hpc]) ?_)
        simp [St.clientNext, hpc, St.clientLock, hm]
      | some th =>
        refine .inr ⟨by simp [ClientPc.afterLock], th, rfl, ?_, ?_⟩
        · rintro rfl
          exact hholds ((hlocked (.client t)).mp hm)
        · cases th with
          | worker => exact worker_holder_goes_on ((hlocked .worker).mp hm)
          | client u => exact holder_goes_on h hc hm
    | _ => exact absurd (by rw [hpc]; rfl) hholds

/-- The worker is in its first test, and a push waits for it. -/
theorem clients_go_on_waiting :
    ∃ s : Service Unit Bool, s.queue.client () ≠ .idle ∧ s.queue.mHttpQueueMutex = some .worker ∧
      ((∃ a, s.OfClient () a ∧ ((service Unit Bool).next s a).isSome = true) ∨
        (s.queue.client ()).afterLock ≠ none ∧
          ∃ th, s.queue.mHttpQueueMutex = some th ∧ th ≠ .client () ∧
            ∃ a, s.OfThread th a ∧ ((service Unit Bool).next s a).isSome = true) := by
  obtain ⟨s, hr, hs⟩ := Option.map_eq_some_iff.mp (show ((service Unit Bool).run (start Unit Bool)
    [.queue .worker, .queue (.call () (.data (.createDeviceData [97] ⟨[123], .typeJson⟩)))]).map
      (fun s => (decide (s.queue.client () = .idle), s.queue.mHttpQueueMutex,
        (s.pool.calls (.client true)).isSome)) = some (false, some .worker, false) by decide)
  simp only [Prod.mk.injEq, decide_eq_false_iff_not] at hs
  obtain ⟨hcall, hm, hc⟩ := hs
  exact ⟨s, hcall, hm, clients_go_on (Sys.Reach.run (.init start_init) hr)
    (Option.isNone_iff_eq_none.mp (Option.isSome_eq_false_iff.mp hc)) hcall⟩

end Service

end LibRest
