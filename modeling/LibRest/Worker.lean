import Mathlib.Logic.Function.Basic
import LibRest.CommonDefs
import LibRest.Lib.System

/-!
# The request queue and its worker

The threads of `CurlHttpWrapper` (`CurlHttpWrapper.cpp`): clients that call `CreateDeviceData`,
`UpdateDeviceData`, `Start` and `Shutdown`, any number of them, and the worker that runs
`HandleHttpRequest`. They share `mHttpQueueMutex`, `mActive`, `mHttpDataQueue` and
`cvHttpDataQueue`.

- **Steps.** A step is one access to what the threads share: a lock, a read or a store of `mActive`,
  a push, a pop section, a notification, an unlock, the evaluation of a wait's predicate. A wait
  unlocks and parks in one step. `Post` and `Put` are one step that returns any status.
- **The condition variable.** Only the worker waits on it, so `notify_one` reaches the worker if it
  is parked and is lost otherwise. A parked worker has the notification that is pending for it
  (`true`) or none; it may wake without one.
- **History.** `pushed`, `dispatched`, `invalid` and `returned` record what was pushed, what was
  handed to `Post` and `Put`, what took the `default` branch, and which calls returned.
-/

namespace LibRest

open Lib

/-- A call that queues a request. -/
inductive DataCall where
  | createDeviceData (deviceUri : Str) (data : RestData)
  | updateDeviceData (deviceUri : Str) (data : RestData)
  deriving DecidableEq, Repr

/-- The payload that the call builds: a copy of the data, behind a new pointer. -/
def DataCall.payload : DataCall → Payload
  | .createDeviceData uri data => ⟨.post, uri, some data⟩
  | .updateDeviceData uri data => ⟨.put, uri, some data⟩

theorem DataCall.payload_method (d : DataCall) :
    d.payload.method = .post ∨ d.payload.method = .put := by
  cases d with
  | createDeviceData => exact .inl rfl
  | updateDeviceData => exact .inr rfl

/-- A call of a client. -/
inductive ClientCall where
  | start
  | shutdown
  | data (d : DataCall)
  deriving DecidableEq, Repr

/-- Where a client is: the next step of its call. -/
inductive ClientPc where
  | idle
  /-- `Start`: the unlocked test of `mActive`. -/
  | startTest
  | startLock
  | startStore
  | startNotify
  | startUnlock
  /-- `Shutdown`: the unlocked test of `mActive`. -/
  | stopTest
  | stopLock
  | stopStore
  | stopNotify
  | stopUnlock
  /-- `PostData` and `UpdateDeviceData`. -/
  | pushLock (d : DataCall)
  | pushItem (d : DataCall)
  | pushNotify (d : DataCall)
  | pushUnlock (d : DataCall)
  deriving DecidableEq, Repr

/-- The first step of a call. -/
def ClientCall.enter : ClientCall → ClientPc
  | .start => .startTest
  | .shutdown => .stopTest
  | .data d => .pushLock d

/-- The client holds `mHttpQueueMutex`. -/
def ClientPc.holds : ClientPc → Bool
  | .startStore | .startNotify | .startUnlock | .stopStore | .stopNotify | .stopUnlock
  | .pushItem _ | .pushNotify _ | .pushUnlock _ => true
  | _ => false

/-- Where the worker is in `HandleHttpRequest`. -/
inductive WorkerPc where
  /-- The first wait, for `mActive`. -/
  | readyLock
  | readyTest
  | readyPark
  | readyParked (notified : Bool)
  /-- The test of the `while` loop. -/
  | loopTest
  /-- The pop section. -/
  | popLock
  | popSection
  /-- The `switch`: the payload is popped and not yet handed over. -/
  | dispatch (pl : Payload)
  /-- In `Post` or `Put`. -/
  | running (pl : Payload)
  /-- The second emptiness check. -/
  | recheckLock
  | recheckSection
  /-- `if (queueEmpty)`. -/
  | emptyTest (queueEmpty : Bool)
  /-- The second wait, for a request or the end of `mActive`. -/
  | dataLock
  | dataTest
  | dataPark
  | dataParked (notified : Bool)
  /-- The loop is left, the thread has terminated. -/
  | done
  deriving DecidableEq, Repr

/-- The worker holds `mHttpQueueMutex`. -/
def WorkerPc.holds : WorkerPc → Bool
  | .readyTest | .readyPark | .popSection | .recheckSection | .dataTest | .dataPark => true
  | _ => false

/-- The worker has not passed its first wait. -/
def WorkerPc.waitsReady : WorkerPc → Bool
  | .readyLock | .readyTest | .readyPark | .readyParked _ => true
  | _ => false

/-- `notify_one`: a parked worker has a notification. -/
def WorkerPc.notify : WorkerPc → WorkerPc
  | .readyParked _ => .readyParked true
  | .dataParked _ => .dataParked true
  | w => w

/-- The payload that the worker has popped and not yet handed over. -/
def WorkerPc.popped : WorkerPc → List Payload
  | .dispatch pl => [pl]
  | _ => []

inductive Thread (T : Type) where
  | worker
  | client (t : T)
  deriving DecidableEq, Repr

/-- The state of a wrapper and its threads; the clients are the threads `T`. -/
structure St (T : Type) where
  mActive : Bool
  mHttpQueueMutex : Option (Thread T)
  mHttpDataQueue : List Payload
  worker : WorkerPc
  client : T → ClientPc
  pushed : List DataCall
  dispatched : List Payload
  invalid : List Payload
  returned : List (DataCall × HttpStatus)

/-- A fully constructed wrapper: the worker has started, no client has called. -/
def St.init {T : Type} : St T where
  mActive := false
  mHttpQueueMutex := none
  mHttpDataQueue := []
  worker := .readyLock
  client _ := .idle
  pushed := []
  dispatched := []
  invalid := []
  returned := []

namespace St

variable {T : Type}

/-- The worker takes the mutex, if it is free, and goes on at `pc`. -/
def workerLock (s : St T) (pc : WorkerPc) : Option (St T) :=
  if s.mHttpQueueMutex.isNone then
    some { s with mHttpQueueMutex := some .worker, worker := pc }
  else none

/-- The worker releases the mutex and goes on at `pc`. -/
def workerUnlock (s : St T) (pc : WorkerPc) : St T :=
  { s with mHttpQueueMutex := none, worker := pc }

/-- The next step of `HandleHttpRequest`. It has none in `Post` and `Put`, and at the end. -/
def workerNext (s : St T) : Option (St T) :=
  match s.worker with
  | .readyLock => s.workerLock .readyTest
  | .readyTest =>
    if s.mActive then some (s.workerUnlock .loopTest) else some { s with worker := .readyPark }
  | .readyPark => some (s.workerUnlock (.readyParked false))
  | .readyParked _ => s.workerLock .readyTest
  | .loopTest =>
    if s.mActive then some { s with worker := .popLock } else some { s with worker := .done }
  | .popLock => s.workerLock .popSection
  | .popSection =>
    match s.mHttpDataQueue with
    | [] => some (s.workerUnlock (.emptyTest true))
    | pl :: rest => some ({ s with mHttpDataQueue := rest }.workerUnlock (.dispatch pl))
  | .dispatch pl =>
    match pl.method with
    | .post | .put => some { s with dispatched := s.dispatched ++ [pl], worker := .running pl }
    | _ => some { s with invalid := s.invalid ++ [pl], worker := .recheckLock }
  | .running _ => none
  | .recheckLock => s.workerLock .recheckSection
  | .recheckSection => some (s.workerUnlock (.emptyTest s.mHttpDataQueue.isEmpty))
  | .emptyTest queueEmpty =>
    if queueEmpty then some { s with worker := .dataLock } else some { s with worker := .loopTest }
  | .dataLock => s.workerLock .dataTest
  | .dataTest =>
    if !s.mHttpDataQueue.isEmpty || !s.mActive then some (s.workerUnlock .loopTest)
    else some { s with worker := .dataPark }
  | .dataPark => some (s.workerUnlock (.dataParked false))
  | .dataParked _ => s.workerLock .dataTest
  | .done => none

variable [DecidableEq T]

/-- The client `t` goes on at `pc`. -/
def goto (s : St T) (t : T) (pc : ClientPc) : St T :=
  { s with client := Function.update s.client t pc }

/-- The client takes the mutex, if it is free, and goes on at `pc`. -/
def clientLock (s : St T) (t : T) (pc : ClientPc) : Option (St T) :=
  if s.mHttpQueueMutex.isNone then
    some ({ s with mHttpQueueMutex := some (.client t) }.goto t pc)
  else none

/-- The client releases the mutex and its call returns. -/
def clientUnlock (s : St T) (t : T) : St T := { s with mHttpQueueMutex := none }.goto t .idle

/-- `cvHttpDataQueue.notify_one()`. -/
def notifyOne (s : St T) : St T := { s with worker := s.worker.notify }

/-- `CreateDeviceData` or `UpdateDeviceData` returns; its status is `SUCCESS` from the start. -/
def returns (s : St T) (d : DataCall) : St T := { s with returned := s.returned ++ [(d, .success)] }

/-- The next step of the client `t`'s call. -/
def clientNext (s : St T) (t : T) : Option (St T) :=
  match s.client t with
  | .idle => none
  | .startTest => if s.mActive then some (s.goto t .idle) else some (s.goto t .startLock)
  | .startLock => s.clientLock t .startStore
  | .startStore => some ({ s with mActive := true }.goto t .startNotify)
  | .startNotify => some (s.notifyOne.goto t .startUnlock)
  | .startUnlock => some (s.clientUnlock t)
  | .stopTest => if s.mActive then some (s.goto t .stopLock) else some (s.goto t .idle)
  | .stopLock => s.clientLock t .stopStore
  | .stopStore => some ({ s with mActive := false }.goto t .stopNotify)
  | .stopNotify => some (s.notifyOne.goto t .stopUnlock)
  | .stopUnlock => some (s.clientUnlock t)
  | .pushLock d => s.clientLock t (.pushItem d)
  | .pushItem d =>
    some ({ s with mHttpDataQueue := s.mHttpDataQueue ++ [d.payload],
                   pushed := s.pushed ++ [d] }.goto t (.pushNotify d))
  | .pushNotify d => some (s.notifyOne.goto t (.pushUnlock d))
  | .pushUnlock d => some ((s.returns d).clientUnlock t)

/-- The next step of the client `t`'s call throws: the lock, the copy of the data or the push. The
`catch` swallows the exception, and the guard releases the mutex if it was taken. -/
def clientThrows (s : St T) (t : T) : Option (St T) :=
  match s.client t with
  | .pushLock d => some ((s.returns d).goto t .idle)
  | .pushItem d => some (s.goto t (.pushUnlock d))
  | _ => none

/-- The client `t`, which is in no call, makes the call `c`. -/
def callNext (s : St T) (t : T) (c : ClientCall) : Option (St T) :=
  if s.client t = .idle then some (s.goto t c.enter) else none

/-- `Post` or `Put` returns. A failure is logged, and nothing else depends on the status. -/
def workerReturns (s : St T) (_status : HttpStatus) : Option (St T) :=
  match s.worker with
  | .running _ => some { s with worker := .recheckLock }
  | _ => none

end St

/-- A step: of the worker, of the request in `Post` or `Put`, or of a client. -/
inductive Act (T : Type) where
  | worker
  | workerReturns (status : HttpStatus)
  | call (t : T) (c : ClientCall)
  | client (t : T)
  | clientThrows (t : T)
  deriving DecidableEq, Repr

/-- The thread whose step it is. -/
def Act.thread {T : Type} : Act T → Thread T
  | .worker | .workerReturns _ => .worker
  | .call t _ | .client t | .clientThrows t => .client t

/-- A wrapper and its threads, from a fully constructed wrapper. -/
def wrapper (T : Type) [DecidableEq T] : Sys (St T) (Act T) where
  init s := s = .init
  next s
    | .worker => s.workerNext
    | .workerReturns status => s.workerReturns status
    | .call t c => s.callNext t c
    | .client t => s.clientNext t
    | .clientThrows t => s.clientThrows t

/-! ## What a step can do -/

/-- Where the worker goes on when it has taken the mutex. -/
def WorkerPc.afterLock : WorkerPc → Option WorkerPc
  | .readyLock | .readyParked _ => some .readyTest
  | .popLock => some .popSection
  | .recheckLock => some .recheckSection
  | .dataLock | .dataParked _ => some .dataTest
  | _ => none

/-- Where a client goes on when it has taken the mutex. -/
def ClientPc.afterLock : ClientPc → Option ClientPc
  | .startLock => some .startStore
  | .stopLock => some .stopStore
  | .pushLock d => some (.pushItem d)
  | _ => none

/-- Where a client goes on when it has notified. -/
def ClientPc.afterNotify : ClientPc → Option ClientPc
  | .startNotify => some .startUnlock
  | .stopNotify => some .stopUnlock
  | .pushNotify d => some (.pushUnlock d)
  | _ => none

namespace St

variable {T : Type} {s s' : St T}

/-- The steps of the worker. -/
inductive WorkerStep (s : St T) : St T → Prop where
  | lock {pc : WorkerPc} : s.worker.afterLock = some pc → s.mHttpQueueMutex = none →
      WorkerStep s { s with mHttpQueueMutex := some .worker, worker := pc }
  | ready : s.worker = .readyTest → s.mActive = true → WorkerStep s (s.workerUnlock .loopTest)
  | notReady : s.worker = .readyTest → s.mActive = false →
      WorkerStep s { s with worker := .readyPark }
  | readyPark : s.worker = .readyPark → WorkerStep s (s.workerUnlock (.readyParked false))
  | loop : s.worker = .loopTest → s.mActive = true → WorkerStep s { s with worker := .popLock }
  | leave : s.worker = .loopTest → s.mActive = false → WorkerStep s { s with worker := .done }
  | popNone : s.worker = .popSection → s.mHttpDataQueue = [] →
      WorkerStep s (s.workerUnlock (.emptyTest true))
  | pop {pl : Payload} {rest : List Payload} : s.worker = .popSection →
      s.mHttpDataQueue = pl :: rest →
      WorkerStep s ({ s with mHttpDataQueue := rest }.workerUnlock (.dispatch pl))
  | dispatch {pl : Payload} : s.worker = .dispatch pl → pl.method = .post ∨ pl.method = .put →
      WorkerStep s { s with dispatched := s.dispatched ++ [pl], worker := .running pl }
  | invalid {pl : Payload} : s.worker = .dispatch pl → pl.method ≠ .post → pl.method ≠ .put →
      WorkerStep s { s with invalid := s.invalid ++ [pl], worker := .recheckLock }
  | returns {pl : Payload} : s.worker = .running pl → WorkerStep s { s with worker := .recheckLock }
  | recheck : s.worker = .recheckSection →
      WorkerStep s (s.workerUnlock (.emptyTest s.mHttpDataQueue.isEmpty))
  | empty : s.worker = .emptyTest true → WorkerStep s { s with worker := .dataLock }
  | nonempty : s.worker = .emptyTest false → WorkerStep s { s with worker := .loopTest }
  | data : s.worker = .dataTest → s.mHttpDataQueue ≠ [] ∨ s.mActive = false →
      WorkerStep s (s.workerUnlock .loopTest)
  | noData : s.worker = .dataTest → s.mHttpDataQueue = [] → s.mActive = true →
      WorkerStep s { s with worker := .dataPark }
  | dataPark : s.worker = .dataPark → WorkerStep s (s.workerUnlock (.dataParked false))

theorem workerLock_eq {pc : WorkerPc} (h : s.workerLock pc = some s') :
    s.mHttpQueueMutex = none ∧ s' = { s with mHttpQueueMutex := some .worker, worker := pc } := by
  unfold workerLock at h
  split at h
  · rename_i hm; exact ⟨Option.isNone_iff_eq_none.mp hm, (Option.some.inj h).symm⟩
  · cases h

theorem workerNext_step (h : s.workerNext = some s') : s.WorkerStep s' := by
  have hlock : ∀ {pc}, s.worker.afterLock = some pc → s.workerLock pc = some s' →
      s.WorkerStep s' := fun hpc hl => by
    obtain ⟨hm, rfl⟩ := workerLock_eq hl; exact .lock hpc hm
  cases hw : s.worker <;> simp only [workerNext, hw] at h
  case readyLock | readyParked | popLock | recheckLock | dataLock | dataParked =>
    exact hlock (by rw [hw]; rfl) h
  case readyTest =>
    split at h <;> rename_i ha <;> obtain rfl := Option.some.inj h
    · exact .ready hw ha
    · exact .notReady hw (Bool.eq_false_iff.mpr ha)
  case readyPark => obtain rfl := Option.some.inj h; exact .readyPark hw
  case loopTest =>
    split at h <;> rename_i ha <;> obtain rfl := Option.some.inj h
    · exact .loop hw ha
    · exact .leave hw (Bool.eq_false_iff.mpr ha)
  case popSection =>
    split at h <;> obtain rfl := Option.some.inj h
    · exact .popNone hw ‹_›
    · exact .pop hw ‹_›
  case dispatch pl =>
    split at h <;> obtain rfl := Option.some.inj h
    · exact .dispatch hw (.inl ‹_›)
    · exact .dispatch hw (.inr ‹_›)
    · exact .invalid hw ‹_› ‹_›
  case running | done => cases h
  case recheckSection => obtain rfl := Option.some.inj h; exact .recheck hw
  case emptyTest e =>
    split at h <;> rename_i he <;> obtain rfl := Option.some.inj h
    · exact .empty (by rw [hw, he])
    · exact .nonempty (by rw [hw, Bool.eq_false_iff.mpr he])
  case dataTest =>
    split at h <;> rename_i hc <;> obtain rfl := Option.some.inj h
    · exact .data hw (by simpa using hc)
    · obtain ⟨hq, ha⟩ : s.mHttpDataQueue = [] ∧ s.mActive = true := by simpa using hc
      exact .noData hw hq ha
  case dataPark => obtain rfl := Option.some.inj h; exact .dataPark hw

theorem workerReturns_step (status : HttpStatus) (h : s.workerReturns status = some s') :
    s.WorkerStep s' := by
  unfold workerReturns at h
  split at h
  · obtain rfl := Option.some.inj h; exact .returns ‹_›
  · cases h

variable [DecidableEq T] {t : T}

/-- The steps of the client `t`. -/
inductive ClientStep (s : St T) (t : T) : St T → Prop where
  | call (c : ClientCall) : s.client t = .idle → ClientStep s t (s.goto t c.enter)
  | startSkip : s.client t = .startTest → s.mActive = true → ClientStep s t (s.goto t .idle)
  | startGo : s.client t = .startTest → s.mActive = false → ClientStep s t (s.goto t .startLock)
  | stopSkip : s.client t = .stopTest → s.mActive = false → ClientStep s t (s.goto t .idle)
  | stopGo : s.client t = .stopTest → s.mActive = true → ClientStep s t (s.goto t .stopLock)
  | lock {pc : ClientPc} : (s.client t).afterLock = some pc → s.mHttpQueueMutex = none →
      ClientStep s t ({ s with mHttpQueueMutex := some (.client t) }.goto t pc)
  | startStore : s.client t = .startStore →
      ClientStep s t ({ s with mActive := true }.goto t .startNotify)
  | stopStore : s.client t = .stopStore →
      ClientStep s t ({ s with mActive := false }.goto t .stopNotify)
  | pushItem {d : DataCall} : s.client t = .pushItem d →
      ClientStep s t ({ s with mHttpDataQueue := s.mHttpDataQueue ++ [d.payload],
                               pushed := s.pushed ++ [d] }.goto t (.pushNotify d))
  | notify {pc : ClientPc} : (s.client t).afterNotify = some pc →
      ClientStep s t (s.notifyOne.goto t pc)
  | unlock : s.client t = .startUnlock ∨ s.client t = .stopUnlock →
      ClientStep s t (s.clientUnlock t)
  | pushUnlock {d : DataCall} : s.client t = .pushUnlock d →
      ClientStep s t ((s.returns d).clientUnlock t)
  | throwLock {d : DataCall} : s.client t = .pushLock d →
      ClientStep s t ((s.returns d).goto t .idle)
  | throwItem {d : DataCall} : s.client t = .pushItem d → ClientStep s t (s.goto t (.pushUnlock d))

theorem clientLock_eq {pc : ClientPc} (h : s.clientLock t pc = some s') :
    s.mHttpQueueMutex = none ∧
      s' = { s with mHttpQueueMutex := some (.client t) }.goto t pc := by
  unfold clientLock at h
  split at h
  · rename_i hm; exact ⟨Option.isNone_iff_eq_none.mp hm, (Option.some.inj h).symm⟩
  · cases h

theorem clientNext_step (h : s.clientNext t = some s') : s.ClientStep t s' := by
  cases hc : s.client t <;> simp only [clientNext, hc] at h
  case idle => cases h
  case startTest =>
    split at h <;> rename_i ha <;> obtain rfl := Option.some.inj h
    · exact .startSkip hc ha
    · exact .startGo hc (Bool.eq_false_iff.mpr ha)
  case stopTest =>
    split at h <;> rename_i ha <;> obtain rfl := Option.some.inj h
    · exact .stopGo hc ha
    · exact .stopSkip hc (Bool.eq_false_iff.mpr ha)
  case startLock | stopLock | pushLock =>
    obtain ⟨hm, rfl⟩ := clientLock_eq h
    exact .lock (by rw [hc]; rfl) hm
  case startStore => obtain rfl := Option.some.inj h; exact .startStore hc
  case stopStore => obtain rfl := Option.some.inj h; exact .stopStore hc
  case pushItem => obtain rfl := Option.some.inj h; exact .pushItem hc
  case startNotify | stopNotify | pushNotify =>
    obtain rfl := Option.some.inj h
    exact .notify (by rw [hc]; rfl)
  case startUnlock => obtain rfl := Option.some.inj h; exact .unlock (.inl hc)
  case stopUnlock => obtain rfl := Option.some.inj h; exact .unlock (.inr hc)
  case pushUnlock => obtain rfl := Option.some.inj h; exact .pushUnlock hc

theorem clientThrows_step (h : s.clientThrows t = some s') : s.ClientStep t s' := by
  unfold clientThrows at h
  split at h
  · obtain rfl := Option.some.inj h; exact .throwLock ‹_›
  · obtain rfl := Option.some.inj h; exact .throwItem ‹_›
  · cases h

theorem callNext_step {c : ClientCall} (h : s.callNext t c = some s') : s.ClientStep t s' := by
  unfold callNext at h
  split at h
  · obtain rfl := Option.some.inj h; exact .call c ‹_›
  · cases h

/-- A step is a step of the worker or of a client. -/
theorem next_step {a : Act T} (h : (wrapper T).next s a = some s') :
    (a.thread = .worker ∧ s.WorkerStep s') ∨ ∃ t, a.thread = .client t ∧ s.ClientStep t s' := by
  cases a with
  | worker => exact .inl ⟨rfl, workerNext_step h⟩
  | workerReturns status => exact .inl ⟨rfl, workerReturns_step status h⟩
  | call t c => exact .inr ⟨t, rfl, callNext_step h⟩
  | client t => exact .inr ⟨t, rfl, clientNext_step h⟩
  | clientThrows t => exact .inr ⟨t, rfl, clientThrows_step h⟩

end St

end LibRest
