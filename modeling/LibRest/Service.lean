import LibRest.Handover
import LibRest.Sharing

/-!
# The whole wrapper

The request queue with its threads, and the libcurl calls that they make, as one system. The worker
hands a payload over by calling `Post` or `Put`, which runs an operation at a time among the direct
calls of clients (`GetDeviceData`, `PostPollingData`, `SetCertificateAttributes`, `UpdateTLSInfo`)
and the `curl_easy_setopt` calls of `Start`; the worker goes on when its request has returned.

- **Steps.** A step of the queue's threads (`queue`), the call and the return of the worker's
  request (`dispatch`, `returns`), the store of `Start` with the call of its options (`startStore`),
  a direct call (`call`) and a step of a libcurl call (`step`).
- **Two views.** What the queue does is a run of the queue alone (`wrapper_reach`), where `Post` and
  `Put` are one step with any status, and what happens on libcurl is a run of the calls alone
  (`jobs_reach`). So what holds of either in every run holds here.
-/

namespace LibRest

open Lib CurlHttpWrapper

/-- What a thread runs on libcurl: a request, or the `curl_easy_setopt` calls of `Start`. -/
inductive Job where
  | call (g : Call)
  | startOptions

def Job.body : Job → Request Reply
  | .call g => g.body
  | .startOptions => do
    CurlHttpWrapper.startOptions
    return (.success, none)

/-- `Post(pl)` or `Put(pl)`, as the `switch` of `HandleHttpRequest` has it. Both read the data
behind the pointer, which must not be null. -/
def Payload.request : Payload → Option Call
  | ⟨.post, url, some data⟩ => some (.post url data)
  | ⟨.put, url, some data⟩ => some (.put url data)
  | _ => none

/-- Each thread makes its kinds of calls. -/
def mayRun {C : Type} (_ : RequestId C → Option (Request Reply)) : RequestId C → Job → Bool
  | .worker _, .call (.post ..) | .worker _, .call (.put ..) => true
  | .client _, .call (.getDeviceData _) | .client _, .call (.postPollingData ..)
  | .client _, .call (.setCertificateAttributes _) | .client _, .call .updateTLSInfo
  | .client _, .startOptions => true
  | _, _ => false

/-- The calls on libcurl, from a wrapper on which no transfer has run. -/
def jobs (C : Type) [DecidableEq C] :
    Sys (Pool Op.Res (RequestId C) (World (RequestId C)) Reply)
      (Pool.Act (RequestId C) Job Choice) :=
  Pool.sys handle Job.body mayRun fun w =>
    w.performs = [] ∧ mCurl < w.easyCount ∧ w.mPollingMutex = none

/-- The wrapper with its clients' threads `T` and their direct calls `C`. `starting` has the call
that sets the options for a `Start`; `results` has what `Post` and `Put` returned. -/
structure Service (T C : Type) where
  queue : St T
  pool : Pool Op.Res (RequestId C) (World (RequestId C)) Reply
  starting : T → Option C
  results : List (Payload × HttpStatus)

namespace Service

variable {T C : Type}

/-- The state that the libcurl calls share. -/
def world (s : Service T C) : World (RequestId C) := s.pool.shared

/-- The step of the queue's threads calls no libcurl function and waits for none: it is not the
hand-over of a request, and neither the store of `Start` nor what comes before its options are set.
-/
def quiet (s : Service T C) : LibRest.Act T → Bool
  | .worker =>
    match s.queue.worker with
    | .dispatch pl => pl.method ≠ .post ∧ pl.method ≠ .put
    | _ => true
  | .workerReturns _ => false
  | .client t =>
    match s.queue.client t with
    | .startStore => false
    | .startNotify => (s.starting t).any fun c => Pool.returned (s.pool.calls (.client c))
    | _ => true
  | _ => true

/-- A step of the whole wrapper. -/
inductive Act (T C : Type) where
  | queue (a : LibRest.Act T)
  | dispatch
  | returns
  | startStore (t : T) (c : C)
  | call (c : C) (g : Call)
  | step (i : RequestId C) (c : Choice)
  deriving DecidableEq, Repr

end Service

section

variable (T C : Type) [DecidableEq T] [DecidableEq C]

/-- The runs of the whole wrapper. -/
def service : Sys (Service T C) (Service.Act T C) where
  init s := (wrapper T).init s.queue ∧ (jobs C).init s.pool ∧ s.results = []
  next s
    | .queue a =>
      if s.quiet a then ((wrapper T).next s.queue a).map fun q => { s with queue := q } else none
    | .dispatch =>
      match s.queue.worker with
      | .dispatch pl =>
        pl.request.bind fun g =>
          ((wrapper T).next s.queue .worker).bind fun q =>
            ((jobs C).next s.pool (.call (.worker s.queue.dispatched.length) (.call g))).map
              fun p => { s with queue := q, pool := p }
      | _ => none
    | .returns =>
      match s.queue.worker with
      | .running pl =>
        (Pool.result (s.pool.calls (.worker (s.queue.dispatched.length - 1)))).bind fun r =>
          ((wrapper T).next s.queue (.workerReturns r.1)).map fun q =>
            { s with queue := q, results := s.results ++ [(pl, r.1)] }
      | _ => none
    | .startStore t c =>
      if s.queue.client t = .startStore then
        ((wrapper T).next s.queue (.client t)).bind fun q =>
          ((jobs C).next s.pool (.call (.client c) .startOptions)).map fun p =>
            { s with queue := q, pool := p, starting := Function.update s.starting t (some c) }
      else none
    | .call c g =>
      ((jobs C).next s.pool (.call (.client c) (.call g))).map fun p => { s with pool := p }
    | .step i c => ((jobs C).next s.pool (.step i c)).map fun p => { s with pool := p }

end

namespace Service

variable {T C : Type} [DecidableEq T] [DecidableEq C] {s s' : Service T C}

/-! ## What a step can do -/

/-- The steps of the whole wrapper, by what they do to the queue and to the calls. -/
inductive Step (s : Service T C) : Act T C → Service T C → Prop where
  | queue {a : LibRest.Act T} {q : St T} : s.quiet a = true → (wrapper T).next s.queue a = some q →
      Step s (.queue a) { s with queue := q }
  | dispatch {pl : Payload} {g : Call} : s.queue.worker = .dispatch pl → pl.request = some g →
      s.pool.calls (.worker s.queue.dispatched.length) = none →
      Step s .dispatch { s with
        queue := { s.queue with
          dispatched := s.queue.dispatched ++ [pl]
          worker := .running pl }
        pool := { s.pool with
          calls := Function.update s.pool.calls (.worker s.queue.dispatched.length)
            (some g.body) } }
  | returns {pl : Payload} {r : Reply} : s.queue.worker = .running pl →
      s.pool.calls (.worker (s.queue.dispatched.length - 1)) = some (.ret r) →
      Step s .returns { s with
        queue := { s.queue with worker := .recheckLock }
        results := s.results ++ [(pl, r.1)] }
  | startStore {t : T} {c : C} {q : St T} : (wrapper T).next s.queue (.client t) = some q →
      s.queue.client t = .startStore → s.pool.calls (.client c) = none →
      Step s (.startStore t c) { s with
        queue := q
        pool := { s.pool with
          calls := Function.update s.pool.calls (.client c) (some Job.startOptions.body) }
        starting := Function.update s.starting t (some c) }
  | call {c : C} {g : Call} : s.pool.calls (.client c) = none →
      mayRun s.pool.calls (.client c) (.call g) = true →
      Step s (.call c g) { s with
        pool := { s.pool with calls := Function.update s.pool.calls (.client c) (some g.body) } }
  | step {i : RequestId C} {c : Choice} {o : Op} {k : o.Res → Request Reply} {r : Option o.Res}
      {w : World (RequestId C)} : s.pool.calls i = some (.op o k) →
      handle i o s.world c = some (r, w) →
      Step s (.step i c) { s with
        pool := ⟨w, Function.update s.pool.calls i (some (Pool.rest o k r))⟩ }

omit [DecidableEq T] [DecidableEq C] in
theorem request_method {pl : Payload} {g : Call} (h : pl.request = some g) :
    pl.method = .post ∨ pl.method = .put := by
  obtain ⟨method, url, data⟩ := pl
  cases method <;> cases data <;> simp_all [Payload.request]

omit [DecidableEq C] in
/-- The hand-over of a request, as a step of the queue. -/
theorem dispatch_next {q : St T} {pl : Payload} {g : Call} (hw : q.worker = .dispatch pl)
    (hg : pl.request = some g) :
    (wrapper T).next q .worker =
      some { q with dispatched := q.dispatched ++ [pl], worker := .running pl } := by
  rcases request_method hg with hm | hm <;> simp [wrapper, St.workerNext, hw, hm]

theorem next_step {a : Act T C} (h : (service T C).next s a = some s') : s.Step a s' := by
  cases a with
  | queue a =>
    simp only [service] at h
    split at h
    · rename_i hq
      obtain ⟨q, hn, rfl⟩ := Option.map_eq_some_iff.mp h
      exact .queue hq hn
    · cases h
  | dispatch =>
    simp only [service] at h
    split at h
    · rename_i pl hw
      obtain ⟨g, hg, h⟩ := Option.bind_eq_some_iff.mp h
      rw [dispatch_next hw hg] at h
      obtain ⟨p, hp, rfl⟩ := Option.map_eq_some_iff.mp h
      obtain ⟨hnone, -, rfl⟩ := Pool.call_eq hp
      exact .dispatch hw hg hnone
    · cases h
  | returns =>
    simp only [service] at h
    split at h
    · rename_i pl hw
      obtain ⟨r, hr, h⟩ := Option.bind_eq_some_iff.mp h
      obtain ⟨q, hq, rfl⟩ := Option.map_eq_some_iff.mp h
      simp only [wrapper, St.workerReturns, hw, Option.some.injEq] at hq
      subst hq
      exact .returns hw (Pool.result_eq_some.mp hr)
    · cases h
  | startStore t c =>
    simp only [service] at h
    split at h
    · rename_i ht
      obtain ⟨q, hq, h⟩ := Option.bind_eq_some_iff.mp h
      obtain ⟨p, hp, rfl⟩ := Option.map_eq_some_iff.mp h
      obtain ⟨hnone, -, rfl⟩ := Pool.call_eq hp
      exact .startStore hq ht hnone
    · cases h
  | call c g =>
    obtain ⟨p, hp, rfl⟩ := Option.map_eq_some_iff.mp h
    obtain ⟨hnone, hmay, rfl⟩ := Pool.call_eq hp
    exact .call hnone hmay
  | step i c =>
    obtain ⟨p, hp, rfl⟩ := Option.map_eq_some_iff.mp h
    obtain ⟨o, k, r, w, hcur, hr, rfl⟩ := Pool.step_eq hp
    exact .step hcur hr

/-! ## The two views -/

/-- A step leaves the queue alone, or is a step of the queue. -/
theorem Step.queue_next {a : Act T C} (h : s.Step a s') :
    s'.queue = s.queue ∨ ∃ b, (wrapper T).next s.queue b = some s'.queue := by
  cases h with
  | queue _ hn => exact .inr ⟨_, hn⟩
  | dispatch hw hg => exact .inr ⟨.worker, dispatch_next hw hg⟩
  | @returns pl r hw =>
    refine .inr ⟨.workerReturns r.1, ?_⟩
    simp [wrapper, St.workerReturns, hw]
  | startStore hn => exact .inr ⟨_, hn⟩
  | call | step => exact .inl rfl

/-- The queue of a run is in a state that it reaches alone. -/
theorem wrapper_reach {G : Service T C → Act T C → Prop} (h : (service T C).Reach G s) :
    (wrapper T).Reach Sys.Any s.queue := by
  refine h.map queue ?_ ?_
  · rintro s ⟨hq, -⟩
    exact hq
  · intro s a s' _ _ hn
    rcases (next_step hn).queue_next with e | ⟨b, hb⟩
    · exact .inl e
    · exact .inr ⟨b, trivial, hb⟩

/-- A step leaves the calls alone, or makes one, or is a step of one. -/
theorem Step.pool_next {a : Act T C} (h : s.Step a s') :
    s'.pool = s.pool ∨ ∃ b, (jobs C).next s.pool b = some s'.pool := by
  cases h with
  | queue | returns => exact .inl rfl
  | @dispatch pl g hw hg hnone =>
    refine .inr ⟨.call (.worker s.queue.dispatched.length) (.call g), ?_⟩
    have hmay : mayRun s.pool.calls (.worker s.queue.dispatched.length) (.call g) = true := by
      obtain ⟨method, url, data⟩ := pl
      cases method <;> cases data <;> simp_all [Payload.request] <;> (subst hg; rfl)
    simp [jobs, Pool.sys, hnone, hmay, Job.body]
  | @startStore t c q hn ht hnone =>
    exact .inr ⟨.call (.client c) .startOptions, by simp [jobs, Pool.sys, hnone, mayRun]⟩
  | @call c g hnone hmay =>
    exact .inr ⟨.call (.client c) (.call g), by simp [jobs, Pool.sys, hnone, hmay, Job.body]⟩
  | @step i c o k r w hcur hr =>
    have hr' : handle i o s.pool.shared c = some (r, w) := hr
    exact .inr ⟨.step i c, by simp [jobs, Pool.sys, Pool.stepNext, hcur, hr']⟩

/-- The calls of a run are in a state that they reach with steps from states of such runs. -/
theorem jobs_within {G : Service T C → Act T C → Prop} (h : (service T C).Reach G s) :
    (jobs C).Reach (fun p _ => ∃ s, (service T C).Reach G s ∧ s.pool = p) s.pool := by
  refine h.map pool ?_ ?_
  · rintro s ⟨-, hp, -⟩
    exact hp
  · intro s a s' hreach _ hn
    rcases (next_step hn).pool_next with e | ⟨b, hb⟩
    · exact .inl e
    · exact .inr ⟨b, ⟨s, hreach, rfl⟩, hb⟩

/-- The calls of a run are in a state that they reach alone. -/
theorem jobs_reach {G : Service T C → Act T C → Prop} (h : (service T C).Reach G s) :
    (jobs C).Reach Sys.Any s.pool :=
  (jobs_within h).mono fun _ _ _ _ => trivial

end Service

end LibRest
