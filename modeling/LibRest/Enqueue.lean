import LibRest.Handover

/-!
# The status of an enqueue

`CreateDeviceData`, `PostData` and `UpdateDeviceData` (`CurlHttpWrapper.cpp`) with the points at
which they may throw.

- **One call** (`Queueing`). The lock, the copies into the payload and the push are in a `try`
  block, whose `catch` swallows every exception; the status is `SUCCESS` from the start. So the
  status says that the payload is in the queue exactly when nothing in the block throws
  (`truthful_iff`).
- **The steps** (`DataCall.steps`). The calls of a client of `wrapper` compute the same.
- **All calls** (`Accounted`). What returned, and the calls that are about to return, are together
  what was pushed and what was thrown.
-/

namespace LibRest

open Lib

/-- Where a call may throw: at the copy of `deviceUri` for the parameter of `PostData`; and in the
`try` block at the lock, at the copies of the url and of the data into the payload, at the push. -/
inductive ThrowPoint where
  | argument
  | lock
  | url
  | restData
  | push
  deriving DecidableEq, Repr

namespace CurlHttpWrapper

/-- Code that may throw, on `mHttpDataQueue`. What it did before it throws stays. -/
abbrev Queueing (α : Type) := ExceptT ThrowPoint (StateM (List Payload)) α

namespace Queueing

/-- The result, or the exception, and the queue afterwards. -/
def on {α : Type} (p : Queueing α) (q : List Payload) : Except ThrowPoint α × List Payload :=
  StateT.run (ExceptT.run p) q

variable {α β : Type} {q q' : List Payload} {p : Queueing α}

theorem bind_ok {f : α → Queueing β} {a : α} (h : p.on q = (.ok a, q')) :
    (p >>= f).on q = (f a).on q' := by
  have hp : StateT.run (ExceptT.run p) q = (.ok a, q') := h
  simp only [on, ExceptT.run_bind, StateT.run_bind, hp]
  rfl

theorem bind_error {f : α → Queueing β} {e : ThrowPoint} (h : p.on q = (.error e, q')) :
    (p >>= f).on q = (.error e, q') := by
  have hp : StateT.run (ExceptT.run p) q = (.error e, q') := h
  simp only [on, ExceptT.run_bind, StateT.run_bind, hp]
  rfl

theorem catch_ok {f : ThrowPoint → Queueing α} {a : α} (h : p.on q = (.ok a, q')) :
    Queueing.on (tryCatch p f) q = (.ok a, q') := by
  have hp : StateT.run (ExceptT.run p) q = (.ok a, q') := h
  simp only [on, ExceptT.run_tryCatch, StateT.run_bind, hp]
  rfl

theorem catch_error {f : ThrowPoint → Queueing α} {e : ThrowPoint} (h : p.on q = (.error e, q')) :
    Queueing.on (tryCatch p f) q = (f e).on q' := by
  have hp : StateT.run (ExceptT.run p) q = (.error e, q') := h
  simp only [on, ExceptT.run_tryCatch, StateT.run_bind, hp]
  rfl

end Queueing

/-- A point that throws if `throws` says so. -/
def mayThrow (throws : ThrowPoint → Bool) (p : ThrowPoint) : Queueing Unit :=
  if throws p then throw p else pure ()

/-- The `try` block: lock, build the payload, push it. -/
def pushPayload (throws : ThrowPoint → Bool) (pl : Payload) : Queueing Unit := do
  mayThrow throws .lock
  mayThrow throws .url
  mayThrow throws .restData
  mayThrow throws .push
  modify fun q => q ++ [pl]

/-- The common code of `PostData` and `UpdateDeviceData`. The `catch` only logs. -/
def queueRequest (throws : ThrowPoint → Bool) (pl : Payload) : Queueing HttpStatus := do
  let status := HttpStatus.success
  tryCatch (pushPayload throws pl) fun _ => pure ()
  return status

/-- `CurlHttpWrapper::PostData`. -/
def postData (throws : ThrowPoint → Bool) (deviceUri : Str) (data : RestData) :
    Queueing HttpStatus := queueRequest throws ⟨.post, deviceUri, some data⟩

/-- `CurlHttpWrapper::CreateDeviceData`. `PostData` takes `deviceUri` by value. -/
def createDeviceData (throws : ThrowPoint → Bool) (deviceUri : Str) (data : RestData) :
    Queueing HttpStatus := do
  mayThrow throws .argument
  postData throws deviceUri data

/-- `CurlHttpWrapper::UpdateDeviceData`. -/
def updateDeviceData (throws : ThrowPoint → Bool) (deviceUri : Str) (data : RestData) :
    Queueing HttpStatus := queueRequest throws ⟨.put, deviceUri, some data⟩

end CurlHttpWrapper

namespace DataCall

/-- The function that the call runs. -/
def body (throws : ThrowPoint → Bool) : DataCall → CurlHttpWrapper.Queueing HttpStatus
  | .createDeviceData uri data => CurlHttpWrapper.createDeviceData throws uri data
  | .updateDeviceData uri data => CurlHttpWrapper.updateDeviceData throws uri data

/-- The call throws before its `try` block, so the exception leaves it. -/
def escapes (throws : ThrowPoint → Bool) : DataCall → Bool
  | .createDeviceData .. => throws .argument
  | .updateDeviceData .. => false

end DataCall

/-- The lock, the copies into the payload or the push throws. -/
def blockThrows (throws : ThrowPoint → Bool) : Bool :=
  throws .lock || throws .url || throws .restData || throws .push

namespace CurlHttpWrapper

variable {throws : ThrowPoint → Bool} {q : List Payload} {pl : Payload} {d : DataCall}

/-- A point before the rest of a block. -/
theorem mayThrow_on {α : Type} (p : ThrowPoint) (k : Unit → Queueing α) :
    (mayThrow throws p >>= k).on q = if throws p then (.error p, q) else (k ()).on q := by
  unfold mayThrow
  split
  · exact Queueing.bind_error rfl
  · exact Queueing.bind_ok rfl

/-- The block pushes the payload, or throws and leaves the queue as it is. -/
theorem pushPayload_on (throws : ThrowPoint → Bool) (pl : Payload) (q : List Payload) :
    (blockThrows throws = false ∧ (pushPayload throws pl).on q = (.ok (), q ++ [pl])) ∨
      ∃ p, blockThrows throws = true ∧ (pushPayload throws pl).on q = (.error p, q) := by
  unfold pushPayload blockThrows
  simp only [mayThrow_on]
  cases throws .lock
  case true => exact .inr ⟨.lock, rfl, rfl⟩
  cases throws .url
  case true => exact .inr ⟨.url, rfl, rfl⟩
  cases throws .restData
  case true => exact .inr ⟨.restData, rfl, rfl⟩
  cases throws .push
  case true => exact .inr ⟨.push, rfl, rfl⟩
  exact .inl ⟨rfl, rfl⟩

/-- The status is `SUCCESS`, whatever the block does. -/
theorem queueRequest_on :
    (queueRequest throws pl).on q =
      (.ok .success, if blockThrows throws then q else q ++ [pl]) := by
  unfold queueRequest
  rcases pushPayload_on throws pl q with ⟨hb, h⟩ | ⟨p, hb, h⟩
  · rw [hb, Queueing.bind_ok (Queueing.catch_ok h)]
    rfl
  · rw [hb, Queueing.bind_ok ((Queueing.catch_error h).trans rfl)]
    rfl

end CurlHttpWrapper

/-! ## One call -/

namespace DataCall

variable {throws : ThrowPoint → Bool} {d : DataCall} {q : List Payload}

/-- A call whose exception leaves it has not touched the queue. -/
theorem body_escapes (h : d.escapes throws = true) :
    (d.body throws).on q = (.error .argument, q) := by
  cases d with
  | createDeviceData uri data => exact (CurlHttpWrapper.mayThrow_on _ _).trans (if_pos h)
  | updateDeviceData uri data => cases h

/-- A call that returns. -/
theorem body_returns (h : d.escapes throws = false) :
    (d.body throws).on q =
      (.ok .success, if blockThrows throws then q else q ++ [d.payload]) := by
  cases d with
  | createDeviceData uri data =>
    have hne : ¬ throws .argument = true := by
      rw [show throws .argument = false from h]; exact Bool.false_ne_true
    exact ((CurlHttpWrapper.mayThrow_on _ _).trans (if_neg hne)).trans
      CurlHttpWrapper.queueRequest_on
  | updateDeviceData uri data => exact CurlHttpWrapper.queueRequest_on

/-- The status of the call tells whether its payload is in the queue. -/
structure Truthful (d : DataCall) (throws : ThrowPoint → Bool) (q : List Payload) : Prop where
  success : ((d.body throws).on q).1 = .ok .success ↔ ((d.body throws).on q).2 = q ++ [d.payload]
  thrown : d.escapes throws = true ∨ blockThrows throws = true →
    ((d.body throws).on q).1 ≠ .ok .success ∧ ((d.body throws).on q).2 = q

/-- A call tells the truth if its exception leaves it, or if its `try` block does not throw. -/
theorem truthful_iff :
    d.Truthful throws q ↔ d.escapes throws = true ∨ blockThrows throws = false := by
  have hne : q ≠ q ++ [d.payload] := by simp
  cases he : d.escapes throws with
  | true =>
    refine iff_of_true ⟨?_, fun _ => ?_⟩ (.inl rfl) <;> rw [body_escapes he]
    · exact iff_of_false nofun hne
    · exact ⟨nofun, rfl⟩
  | false =>
    cases hb : blockThrows throws with
    | true =>
      refine iff_of_false (fun ht => ?_) (by simp)
      obtain ⟨hst, -⟩ := ht.thrown (.inr hb)
      rw [body_returns he] at hst
      exact hst rfl
    | false =>
      refine iff_of_true ⟨?_, fun h => ?_⟩ (.inr rfl)
      · rw [body_returns he, hb]
        exact iff_of_true rfl rfl
      · rw [he, hb] at h
        rcases h with h | h <;> cases h

end DataCall

/-! ## The steps of a call -/

/-- The steps of the call, made by the client `t` with no other thread in between. -/
def DataCall.steps {T : Type} (throws : ThrowPoint → Bool) (t : T) (d : DataCall) : List (Act T) :=
  .call t (.data d) ::
    if throws .lock then [.clientThrows t]
    else if blockThrows throws then [.client t, .clientThrows t, .client t]
    else List.replicate 4 (.client t)

namespace St

variable {T : Type} {s s' : St T} {t : T}

section

variable [DecidableEq T]

/-- The steps of a call that returns do what its function does. -/
theorem steps_body {throws : ThrowPoint → Bool} {d : DataCall} (he : d.escapes throws = false)
    (hc : s.client t = .idle) (hm : s.mHttpQueueMutex = none) :
    ∃ s', (wrapper T).run s (d.steps throws t) = some s' ∧ s'.client t = .idle ∧
      s'.mHttpQueueMutex = none ∧ s'.returned = s.returned ++ [(d, .success)] ∧
      (d.body throws).on s.mHttpDataQueue = (.ok .success, s'.mHttpDataQueue) := by
  rw [DataCall.body_returns he]
  unfold DataCall.steps
  cases hl : throws .lock with
  | true =>
    have hb : blockThrows throws = true := by simp [blockThrows, hl]
    simp [Sys.run, wrapper, callNext, hc, ClientCall.enter, clientThrows, goto, returns, hm, hb]
  | false =>
    cases hb : blockThrows throws with
    | true =>
      simp [Sys.run, wrapper, callNext, hc, ClientCall.enter, clientNext, clientThrows, goto,
        clientLock, hm, returns, clientUnlock]
    | false =>
      simp [Sys.run, wrapper, callNext, hc, ClientCall.enter, clientNext, goto, clientLock, hm,
        notifyOne, returns, clientUnlock, List.replicate]

end

end St

/-! ## All calls -/

/-- The call has pushed or has thrown, and is about to return. -/
def ClientPc.returning : ClientPc → Nat
  | .pushNotify _ | .pushUnlock _ => 1
  | _ => 0

theorem ClientPc.afterLock_returning {c pc : ClientPc} (h : c.afterLock = some pc) :
    pc.returning = 0 := by
  cases c <;> cases h <;> rfl

theorem ClientPc.afterNotify_returning {c pc : ClientPc} (h : c.afterNotify = some pc) :
    pc.returning = c.returning := by
  cases c <;> cases h <;> rfl

/-- The step throws. -/
def Act.isThrow {T : Type} : Act T → Bool
  | .clientThrows _ => true
  | _ => false

namespace St

variable {T : Type} {s s' : St T} {t : T} {n : Nat}

/-- How many calls are about to return. Such a call holds the mutex. -/
def returning (s : St T) : Nat :=
  match s.mHttpQueueMutex with
  | some (.client t) => (s.client t).returning
  | _ => 0

/-- What returned and what is about to return: what was pushed, and `n` calls that threw. -/
def Accounted (n : Nat) (s : St T) : Prop :=
  s.returned.length + s.returning = s.pushed.length + n

theorem returning_owner (hl : s.Locked) (hc : (s.client t).holds = true) :
    s.returning = (s.client t).returning := by
  have ho : s.mHttpQueueMutex = some (.client t) :=
    Excl.owner hl (show s.holds (.client t) = true from hc)
  simp [returning, ho]

theorem returning_free (hm : s.mHttpQueueMutex = none) : s.returning = 0 := by
  simp [returning, hm]

theorem returning_worker (hm : s.mHttpQueueMutex = some .worker) : s.returning = 0 := by
  simp [returning, hm]

theorem WorkerStep.returning (hl : s.Locked) (h : s.WorkerStep s') :
    s'.returning = s.returning := by
  have hunlock : s.worker.holds = true → s'.mHttpQueueMutex = none →
      s'.returning = s.returning := fun hw hm => by
    have ho : s.mHttpQueueMutex = some .worker :=
      Excl.owner hl (show s.holds .worker = true from hw)
    rw [returning_free hm, returning_worker ho]
  cases h with
  | lock hpc hm => rw [returning_free hm, returning_worker rfl]
  | ready hw | popNone hw | recheck hw | data hw | readyPark hw | dataPark hw | pop hw =>
    exact hunlock (by rw [hw]; rfl) rfl
  | notReady hw | loop hw | leave hw | dispatch hw | invalid hw | returns hw | empty hw
  | nonempty hw | noData hw =>
    rfl

theorem WorkerStep.accounted (hl : s.Locked) (h : s.WorkerStep s') (hi : s.Accounted n) :
    s'.Accounted n := by
  have hret := h.returning hl
  have hsame : s'.returned = s.returned := by cases h <;> rfl
  unfold Accounted at *
  rw [hret, hsame, h.frame.2.2]
  exact hi

variable [DecidableEq T]

/-- The client `t` goes on with the mutex as it is, and returns as little as before. -/
theorem goto_returning {pc : ClientPc} (hm : s'.mHttpQueueMutex = s.mHttpQueueMutex)
    (hc : s'.client = s.client) (hpc : pc.returning = (s.client t).returning) :
    (s'.goto t pc).returning = s.returning := by
  show (match s'.mHttpQueueMutex with
    | some (.client u) => ((s'.goto t pc).client u).returning
    | _ => 0) = s.returning
  rw [hm]
  unfold St.returning
  split
  · rename_i u _
    by_cases hu : u = t
    · subst hu; rw [goto_client, hpc]
    · rw [goto_client_ne s' pc hu, hc]
  · rfl

/-- The client `t` goes on, and neither pushes nor returns. -/
theorem Accounted.goto {pc : ClientPc} (hi : s.Accounted n)
    (hm : s'.mHttpQueueMutex = s.mHttpQueueMutex) (hc : s'.client = s.client)
    (hr : s'.returned = s.returned) (hp : s'.pushed = s.pushed)
    (hpc : pc.returning = (s.client t).returning) : (s'.goto t pc).Accounted n := by
  unfold Accounted at *
  rw [goto_returning hm hc hpc]
  show s'.returned.length + _ = s'.pushed.length + n
  rw [hr, hp]
  exact hi

/-- The client `t`, in its section, is about to return: it has pushed, or it throws. -/
theorem Accounted.gotoReturn {pc : ClientPc} {m : Nat} (hi : s.Accounted n) (hl : s.Locked)
    (hc : (s.client t).holds = true) (hzero : (s.client t).returning = 0)
    (hm : s'.mHttpQueueMutex = s.mHttpQueueMutex) (hr : s'.returned = s.returned)
    (hp : s'.pushed.length + m = s.pushed.length + n + 1) (hpc : pc.returning = 1) :
    (s'.goto t pc).Accounted m := by
  have ho : (s'.goto t pc).mHttpQueueMutex = some (.client t) :=
    hm.trans (Excl.owner hl (show s.holds (.client t) = true from hc))
  have hone : (s'.goto t pc).returning = 1 := by simp [St.returning, ho, hpc]
  unfold Accounted at *
  rw [returning_owner hl hc, hzero] at hi
  rw [hone]
  show s'.returned.length + 1 = s'.pushed.length + m
  rw [hr]
  omega

/-- A step of a client that does not throw: what it pushes is about to return. -/
theorem clientNext_accounted (hl : s.Locked) (h : s.clientNext t = some s')
    (hi : s.Accounted n) : s'.Accounted n := by
  cases clientNext_step h with
  | call c hc => simp [clientNext, hc] at h
  | startSkip hc | startGo hc | stopSkip hc | stopGo hc | startStore hc | stopStore hc =>
    exact hi.goto rfl rfl rfl rfl (by rw [hc]; rfl)
  | notify ha => exact hi.goto rfl rfl rfl rfl (ClientPc.afterNotify_returning ha)
  | @lock pc ha hm =>
    unfold Accounted at *
    rw [returning_free hm] at hi
    have hr : ({ s with mHttpQueueMutex := some (.client t) }.goto t pc).returning = 0 := by
      simp [St.returning, St.goto, ClientPc.afterLock_returning ha]
    rw [hr]
    exact hi
  | @pushItem d hc =>
    refine hi.gotoReturn hl (by rw [hc]; rfl) (by rw [hc]; rfl) rfl rfl ?_ rfl
    rw [List.length_append, List.length_singleton]
    omega
  | unlock hc =>
    have hhold : (s.client t).holds = true := by rcases hc with hc | hc <;> rw [hc] <;> rfl
    have hzero : (s.client t).returning = 0 := by rcases hc with hc | hc <;> rw [hc] <;> rfl
    unfold Accounted at *
    rw [returning_owner hl hhold, hzero] at hi
    rw [returning_free rfl]
    exact hi
  | @pushUnlock d hc =>
    have hhold : (s.client t).holds = true := by rw [hc]; rfl
    have hone : (s.client t).returning = 1 := by rw [hc]; rfl
    unfold Accounted at *
    rw [returning_owner hl hhold, hone] at hi
    rw [returning_free rfl]
    simp only [clientUnlock, St.goto, returns, List.length_append, List.length_singleton]
    omega
  -- these two are no steps of `clientNext`
  | throwLock hc =>
    simp only [clientNext, hc] at h
    obtain ⟨-, e⟩ := clientLock_eq h
    have hlen := congrArg (fun s : St T => s.returned.length) e
    simp [St.goto, returns] at hlen
  | throwItem hc =>
    simp only [clientNext, hc] at h
    have hlen := congrArg (fun s : St T => s.pushed.length) (Option.some.inj h)
    simp [St.goto] at hlen

/-- A step of a client that throws: one more call returns, or is about to, without a push. -/
theorem clientThrows_accounted (hl : s.Locked) (h : s.clientThrows t = some s')
    (hi : s.Accounted n) : s'.Accounted (n + 1) := by
  unfold clientThrows at h
  split at h
  · rename_i d hc
    obtain rfl := Option.some.inj h
    have hr : ((s.returns d).goto t .idle).returning = s.returning :=
      goto_returning rfl rfl (by rw [hc]; rfl)
    unfold Accounted at *
    rw [hr]
    simp only [St.goto, returns, List.length_append, List.length_singleton]
    omega
  · rename_i d hc
    obtain rfl := Option.some.inj h
    exact hi.gotoReturn hl (by rw [hc]; rfl) (by rw [hc]; rfl) rfl rfl (Nat.add_assoc ..).symm rfl
  · cases h

/-- Each step accounts for itself. -/
theorem next_accounted {a : Act T} (hl : s.Locked) (h : (wrapper T).next s a = some s')
    (hi : s.Accounted n) : s'.Accounted (n + if a.isThrow then 1 else 0) := by
  cases a with
  | worker => exact (workerNext_step h).accounted hl hi
  | workerReturns status => exact (workerReturns_step status h).accounted hl hi
  | call t c =>
    simp only [wrapper, callNext] at h
    split at h
    · rename_i hc
      obtain rfl := Option.some.inj h
      exact hi.goto rfl rfl rfl rfl (by rw [hc]; cases c <;> rfl)
    · cases h
  | client t => exact clientNext_accounted hl h hi
  | clientThrows t => exact clientThrows_accounted hl h hi

/-- **Accounts.** After a run that throws `k` times. -/
theorem run_accounted {as : List (Act T)} (h : (wrapper T).Reach Sys.Any s)
    (hr : (wrapper T).run s as = some s') (hi : s.Accounted n) :
    s'.Accounted (n + as.countP Act.isThrow) := by
  induction as generalizing s n with
  | nil =>
    obtain rfl := Option.some.inj hr
    exact hi
  | cons a as ih =>
    obtain ⟨s₁, hn, hr'⟩ := Sys.run_cons_eq.mp hr
    have h₁ := ih (.step h trivial hn) hr' (next_accounted (locked_reach h) hn hi)
    rw [List.countP_cons, Nat.add_comm (as.countP _), ← Nat.add_assoc]
    exact h₁

omit [DecidableEq T] in
theorem accounted_init : (init : St T).Accounted 0 := rfl

/-- No call is between its push, or its throw, and its return. -/
def Settled (s : St T) : Prop :=
  ∀ t d, s.client t ≠ .pushNotify d ∧ s.client t ≠ .pushUnlock d

omit [DecidableEq T] in
theorem Settled.returning (h : s.Settled) : s.returning = 0 := by
  unfold St.returning
  split
  · rename_i t _
    cases hc : s.client t with
    | pushNotify d => exact absurd hc (h t d).1
    | pushUnlock d => exact absurd hc (h t d).2
    | _ => rfl
  · rfl

theorem ClientStep.returned (h : s.ClientStep t s') :
    s'.returned = s.returned ∨ ∃ d, s'.returned = s.returned ++ [(d, .success)] := by
  cases h with
  | pushUnlock | throwLock => exact .inr ⟨_, rfl⟩
  | _ => exact .inl rfl

/-- Every call that returned has the status `SUCCESS`. -/
def ReportsSuccess (s : St T) : Prop := ∀ r ∈ s.returned, r.2 = .success

/-- The status is initialised, and nothing sets it. -/
theorem reportsSuccess_reach {G : St T → Act T → Prop} (h : (wrapper T).Reach G s) :
    s.ReportsSuccess :=
  h.inv (fun s hs => by subst hs; exact nofun) fun s a s' _ _ hn hi => by
    rcases next_step hn with ⟨-, hs⟩ | ⟨t, -, hs⟩
    · have hsame : s'.returned = s.returned := by cases hs <;> rfl
      unfold ReportsSuccess
      rw [hsame]
      exact hi
    · rcases hs.returned with e | ⟨d, e⟩ <;> unfold ReportsSuccess <;> rw [e]
      · exact hi
      · intro r hr
        rcases List.mem_append.mp hr with hr | hr
        · exact hi r hr
        · obtain rfl := List.mem_singleton.mp hr
          rfl

/-- After a run, as many calls returned `SUCCESS` as payloads were pushed, if and only if no step of
the run threw. -/
theorem returns_pushes_iff {as : List (Act T)} (hr : (wrapper T).run .init as = some s)
    (hs : s.Settled) :
    s.returned.countP (fun r => r.2 = .success) = s.pushed.length ↔
      ∀ a ∈ as, a.isThrow = false := by
  have hall : s.returned.countP (fun r => r.2 = .success) = s.returned.length := by
    rw [List.countP_eq_length]
    intro r hm
    exact decide_eq_true (reportsSuccess_reach (Sys.Reach.run (.init rfl) hr) r hm)
  have hacc := run_accounted (.init rfl) hr accounted_init
  unfold Accounted at hacc
  rw [hs.returning, Nat.add_zero, Nat.zero_add] at hacc
  rw [hall, hacc, Nat.add_eq_left, List.countP_eq_zero]
  simp only [Bool.not_eq_true]

end St

/-- **The status of an enqueue.** A call tells the truth exactly when its exception leaves it or
nothing in its `try` block throws; and as many calls return `SUCCESS` as payloads are pushed exactly
when no call throws there. -/
theorem enqueue_tells_truth (T : Type) [DecidableEq T] :
    (∀ (throws : ThrowPoint → Bool) (d : DataCall) (q : List Payload),
      d.Truthful throws q ↔ d.escapes throws = true ∨ blockThrows throws = false) ∧
    ∀ (as : List (Act T)) (s : St T), (wrapper T).run .init as = some s → s.Settled →
      (s.returned.countP (fun r => r.2 = .success) = s.pushed.length ↔
        ∀ a ∈ as, a.isThrow = false) :=
  ⟨fun _ _ _ => DataCall.truthful_iff, fun _ _ hr hs => St.returns_pushes_iff hr hs⟩

/-- A POST is queued; the copy of the data of a PUT throws, and the PUT is reported as queued. -/
def oneLost : List (Act Unit) :=
  DataCall.steps (fun _ => false) () (.createDeviceData [97] ⟨[123], .typeJson⟩) ++
    DataCall.steps (fun p => p = .restData) () (.updateDeviceData [98] ⟨[125], .typeWwwForm⟩)

theorem enqueue_tells_truth_put :
    (DataCall.createDeviceData [97] ⟨[123], .typeJson⟩).Truthful (fun _ => false) [] ∧
    ¬ (DataCall.updateDeviceData [98] ⟨[125], .typeWwwForm⟩).Truthful (fun p => p = .restData)
      [⟨.post, [97], some ⟨[123], .typeJson⟩⟩] ∧
    ∃ s : St Unit, (wrapper Unit).run .init oneLost = some s ∧
      s.returned = [(.createDeviceData [97] ⟨[123], .typeJson⟩, .success),
        (.updateDeviceData [98] ⟨[125], .typeWwwForm⟩, .success)] ∧
      s.mHttpDataQueue = [⟨.post, [97], some ⟨[123], .typeJson⟩⟩] ∧
      (s.returned.countP (fun r => r.2 = .success) = s.pushed.length ↔
        ∀ a ∈ oneLost, a.isThrow = false) := by
  obtain ⟨htruth, hcount⟩ := enqueue_tells_truth Unit
  refine ⟨(htruth _ _ _).mpr (.inr rfl), fun h => ?_, ?_⟩
  · rcases (htruth _ _ _).mp h with he | he <;> cases he
  · obtain ⟨s, hr, hs⟩ := Option.map_eq_some_iff.mp (show ((wrapper Unit).run .init oneLost).map
      (fun s => (s.client (), s.returned, s.mHttpDataQueue)) =
        some (.idle, [(.createDeviceData [97] ⟨[123], .typeJson⟩, .success),
          (.updateDeviceData [98] ⟨[125], .typeWwwForm⟩, .success)],
          [⟨.post, [97], some ⟨[123], .typeJson⟩⟩]) by decide)
    simp only [Prod.mk.injEq] at hs
    obtain ⟨hc, hret, hq⟩ := hs
    refine ⟨s, hr, hret, hq, hcount _ s hr fun t d => ?_⟩
    rw [hc]
    exact ⟨nofun, nofun⟩

/-- The allocation of the copy fails: the status is `SUCCESS`, and nothing is queued. -/
theorem update_reports_lost :
    ((DataCall.updateDeviceData [98] ⟨[125], .typeWwwForm⟩).body (fun p => p = .restData)).on [] =
        (.ok .success, []) ∧
      ¬ (DataCall.updateDeviceData [98] ⟨[125], .typeWwwForm⟩).Truthful
        (fun p => p = .restData) [] :=
  ⟨rfl, fun h => (h.thrown (.inr rfl)).1 rfl⟩

end LibRest
