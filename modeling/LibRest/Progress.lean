import LibRest.Delivery
import LibRest.Lib.Progress

/-!
# Every accepted request is settled

How the worker gets on, in the whole wrapper and whatever the clients do.

- **Requests are short** (`within_request`). `Post` and `Put` make at most 14 libcurl calls.
- **Bounded progress** (`settled_within`). While no `Shutdown` stores `false`, an active wrapper
  whose worker is alive settles the payloads in turn: the worker needs at most 22 steps for each. A
  chunk that arrives is no step of the worker here.
-/

namespace LibRest

open Lib CurlHttpWrapper

/-! ## Requests are short -/

section Requests

variable {α : Type} {n : Nat}

theorem within_call {o : Op} {k : o.Res → Request α} (h : ∀ r, (k r).Within n) :
    (Prog.call o >>= k).Within (n + 1) :=
  ⟨Nat.succ_pos n, h⟩

theorem within_checked {h : Option EasyId} {o : CurlOpt} {a : Arg} {c k : Request α}
    (hc : c.Within n) (hk : k.Within n) :
    (setopt h o a >>= fun res => if res ≠ .ok then c else k).Within (n + 1) := by
  refine within_call fun (r : CurlCode) => ?_
  show Prog.Within (if r ≠ .ok then c else k) n
  split
  · exact hc
  · exact hk

theorem within_appendAll (headers : Option SlistId) (ss : List Str) :
    (appendAll headers ss).Within ss.length := by
  induction ss generalizing headers with
  | nil => trivial
  | cons s ss ih => exact within_call fun headers => ih headers

theorem within_freeHeader {headers : Option SlistId} {status : HttpStatus} :
    (freeHeader headers >>= fun _ => pure status).Within 1 := by
  cases headers with
  | none => trivial
  | some l => exact within_call fun _ => trivial

theorem within_sendBody (method url content : Str) (type : RestContentType) :
    (sendBody method url content type).Within 14 := by
  have hstop : ∀ headers n, (catchRequest headers).Within (n + 1) := fun headers n =>
    within_freeHeader.mono (Nat.le_add_left ..)
  unfold sendBody
  refine within_call fun _ => within_call fun _ => within_checked (hstop none 10) ?_
  rw [addSecurityHeaders_eq]
  refine (within_appendAll none _).bind (n := 6) fun headers => ?_
  refine within_checked (hstop headers 4) (within_checked (hstop headers 3) ?_)
  refine within_checked (hstop headers 2) (within_checked (hstop headers 1) ?_)
  refine within_call fun (r : CurlCode) => ?_
  show Prog.Within (if r ≠ .ok then catchRequest headers else _) 1
  split
  · exact hstop headers 0
  · exact within_freeHeader

end Requests

/-- `Post` and `Put` are what the worker calls. -/
theorem request_body {pl : Payload} {g : Call} (hg : pl.request = some g) :
    ∃ method url content type, g.body = withoutData (sendBody method url content type) := by
  obtain ⟨m, url, data⟩ := pl
  cases m <;> cases data <;> cases hg
  · exact ⟨_, _, _, _, rfl⟩
  · exact ⟨_, _, _, _, rfl⟩

theorem within_request {pl : Payload} {g : Call} (hg : pl.request = some g) :
    g.body.Within 14 := by
  obtain ⟨method, url, content, type, e⟩ := request_body hg
  rw [e]
  exact (within_sendBody ..).bind (n := 0) fun _ => trivial

/-! ## Bounded progress -/

/-- How many steps the worker needs to hand over the next payload, when there is one and the wrapper
is active. The worker does not park then. -/
def WorkerPc.distance : WorkerPc → Nat
  | .dispatch _ => 1
  | .popSection => 2
  | .popLock => 3
  | .loopTest => 4
  | .readyTest | .dataTest | .emptyTest false => 5
  | .readyLock | .readyParked _ | .dataLock | .dataParked _ | .recheckSection => 6
  | .emptyTest true | .recheckLock => 7
  | .readyPark | .dataPark | .running _ | .done => 0

theorem WorkerPc.distance_le (w : WorkerPc) : w.distance ≤ 7 := by
  cases w with
  | emptyTest b => cases b <;> simp [distance]
  | _ => simp [distance]

@[simp] theorem WorkerPc.notify_distance (w : WorkerPc) : w.notify.distance = w.distance := by
  cases w <;> rfl

theorem WorkerPc.afterLock_distance {w pc : WorkerPc} (h : w.afterLock = some pc) :
    pc.distance + 1 = w.distance := by
  cases w <;> cases h <;> rfl

namespace St

variable {T : Type} {s s' : St T}

/-- A payload waits, and the worker is in its loop or on its way there. -/
structure Busy (s : St T) : Prop where
  active : s.mActive = true
  waits : s.mHttpDataQueue ≠ [] ∨ ∃ pl, s.worker = .dispatch pl

/-- The worker of a busy wrapper gets on: it hands a payload over, or is nearer to that. -/
theorem Busy.workerStep (hb : s.Busy) (hw : s.Wakes) (hs : s.WorkerStep s') :
    (∃ pl, s.worker = .dispatch pl) ∨ (∃ pl, s.worker = .running pl) ∨
      s'.worker.distance + 1 ≤ s.worker.distance := by
  have hq : (∀ pl, s.worker ≠ .dispatch pl) → s.mHttpDataQueue ≠ [] := fun hno =>
    hb.waits.resolve_right fun ⟨pl, e⟩ => hno pl e
  cases hs with
  | lock ha => exact .inr (.inr (Nat.le_of_eq (WorkerPc.afterLock_distance ha)))
  | dispatch e | invalid e => exact .inl ⟨_, e⟩
  | returns e => exact .inr (.inl ⟨_, e⟩)
  | notReady e ha | leave e ha => rw [hb.active] at ha; cases ha
  | readyPark e =>
    have ha := hw.readyPark e
    rw [hb.active] at ha; cases ha
  | dataPark e => exact absurd (hw.dataPark e).1 (hq (by simp [e]))
  | noData e hnil => exact absurd hnil (hq (by simp [e]))
  | popNone e hnil => exact absurd hnil (hq (by simp [e]))
  | recheck e =>
    have hne : s.mHttpDataQueue.isEmpty = false := by
      have := hq (by simp [e])
      simpa using this
    rw [e, hne]
    exact .inr (.inr (Nat.le_refl _))
  | ready e | loop e | pop e | empty e | nonempty e | data e =>
    rw [e]
    exact .inr (.inr (by simp [St.workerUnlock, WorkerPc.distance]))

end St

/-- The choice lets a transfer go on. -/
def Choice.isChunk : Choice → Bool
  | .chunk _ => true
  | _ => false

/-- Only a chunk lets a call go on. -/
theorem handle_returns {ι : Type} [DecidableEq ι] {i : ι} {o : Op} {w w' : World ι} {c : Choice}
    {r : Option o.Res} (hs : handle i o w c = some (r, w')) (hc : c.isChunk = false) :
    ∃ x, r = some x := by
  cases World.handle_outcome hs with
  | chunk => cases hc
  | _ => exact ⟨_, rfl⟩

namespace Service

variable {T C : Type} [DecidableEq T] [DecidableEq C] {s s' : Service T C} {k n : Nat}
  {d : DataCall}

/-- The steps of the worker and of its request; a chunk that arrives is a step of the network. -/
def ofWorker : Act T C → Bool
  | .queue .worker | .dispatch | .returns => true
  | .step (.worker _) c => !c.isChunk
  | _ => false

/-- The step is no store of `Shutdown`. -/
def NoStop (s : Service T C) (a : Act T C) : Prop :=
  ∀ t, a = .queue (.client t) → s.queue.client t ≠ .stopStore

/-- The worker needs at most `n` steps until the `k`-th payload is settled. -/
def Left (k : Nat) (s : Service T C) (n : Nat) : Prop :=
  (∃ pl p j, s.queue.worker = .running pl ∧ s.pool.calls (.worker s.results.length) = some p ∧
    p.Within j ∧ j + 1 + 22 * (k - s.results.length) ≤ n) ∨
  (∀ pl, s.queue.worker ≠ .running pl) ∧
    s.queue.worker.distance + 15 + 22 * (k - s.results.length) ≤ n

/-- The wrapper is active, its worker is alive, and `d` was the `k`-th push. -/
structure Awaits (k : Nat) (d : DataCall) (s : Service T C) : Prop where
  reach : (service T C).Reach Sys.Any s
  active : s.queue.mActive = true
  alive : s.queue.worker ≠ .done
  pushed : s.queue.pushed[k]? = some d

theorem Awaits.coupled (h : Awaits k d s) : Coupled False s :=
  coupled_reach (fun _ _ _ => False.elim) h.reach

/-- A payload that is not settled waits for the worker, or is in its request. -/
theorem Awaits.busy (h : Awaits k d s) (hk : s.results.length ≤ k)
    (hrun : ∀ pl, s.queue.worker ≠ .running pl) : s.queue.Busy := by
  refine ⟨h.active, ?_⟩
  obtain ⟨c, -, hc⟩ := St.carries_reach (wrapper_reach h.reach)
  have htaken := congrArg List.length hc.taken_queue
  have hd : s.queue.dispatched.length = s.results.length := by
    cases h.coupled.current with
    | resting _ hd => rw [hd, List.length_map]
    | sending hw => exact absurd hw (hrun _)
  have hpushed : k < s.queue.pushed.length := (List.getElem?_eq_some_iff.mp h.pushed).1
  by_cases hq : s.queue.mHttpDataQueue = []
  · rw [hq, St.taken] at htaken
    simp at htaken
    cases hw : s.queue.worker with
    | dispatch pl => exact .inr ⟨pl, rfl⟩
    | _ => simp [hw, WorkerPc.popped] at htaken; omega
  · exact .inl hq

omit [DecidableEq C] in
/-- A step of the queue's threads keeps an active wrapper active, unless it is the store of
`Shutdown`, and its worker in the loop. -/
theorem active_next {q q' : St T} {b : LibRest.Act T} (hn : (wrapper T).next q b = some q')
    (hg : ∀ t, b = .client t → q.client t ≠ .stopStore) (ha : q.mActive = true)
    (hw : q.worker ≠ .done) : q'.mActive = true ∧ q'.worker ≠ .done := by
  rcases St.next_step hn with ⟨-, hs⟩ | ⟨t, ht, hs⟩
  · refine ⟨hs.frame.1.trans ha, ?_⟩
    cases hs with
    | leave _ hf => rw [ha] at hf; cases hf
    | lock hl => rcases WorkerPc.afterLock_cases hl with rfl | rfl | rfl | rfl <;> simp
    | _ => simp [St.workerUnlock]
  · have hact : q'.mActive = true := by
      rcases hs.frame.2 with e | ⟨-, e⟩ | ⟨hstop, e⟩
      · exact e.trans ha
      · exact e
      · cases b with
        | client u =>
          obtain rfl : u = t := by simpa [LibRest.Act.thread] using ht
          exact absurd hstop (hg u rfl)
        | call u c =>
          obtain rfl : u = t := by simpa [LibRest.Act.thread] using ht
          simp [wrapper, St.callNext, hstop] at hn
        | clientThrows u =>
          obtain rfl : u = t := by simpa [LibRest.Act.thread] using ht
          simp only [wrapper, St.clientThrows, hstop] at hn
          cases hn
        | _ => cases ht
    refine ⟨hact, ?_⟩
    rcases hs.frame.1 with e | e
    · rw [e]; exact hw
    · rw [e]; cases hq : q.worker <;> simp_all [WorkerPc.notify]

theorem Awaits.step {a : Act T C} (h : Awaits k d s) (hg : s.NoStop a)
    (hn : (service T C).next s a = some s') : Awaits k d s' := by
  have hreach : (service T C).Reach Sys.Any s' := .step h.reach trivial hn
  have hqueue : ∀ {b q}, (wrapper T).next s.queue b = some q →
      (∀ t, b = .client t → s.queue.client t ≠ .stopStore) → s'.queue = q → Awaits k d s' := by
    rintro b q hb hno rfl
    obtain ⟨ha, hw⟩ := active_next hb hno h.active h.alive
    refine ⟨hreach, ha, hw, ?_⟩
    rcases pushed_next hb with e | ⟨d', e⟩ <;> rw [e]
    · exact h.pushed
    · have hlt : k < s.queue.pushed.length := (List.getElem?_eq_some_iff.mp h.pushed).1
      rw [List.getElem?_append_left hlt]
      exact h.pushed
  cases next_step hn with
  | queue _ hb => exact hqueue hb (fun t e => hg t (by rw [e])) rfl
  | startStore hb ht => exact hqueue hb (fun t e => by cases e; rw [ht]; simp) rfl
  | dispatch hw hreq => exact hqueue (dispatch_next hw hreq) (by simp) rfl
  | @returns pl r hw =>
    refine hqueue (b := .workerReturns r.1) ?_ (by simp) rfl
    simp [wrapper, St.workerReturns, hw]
  | call | step => exact ⟨hreach, h.active, h.alive, h.pushed⟩

/-- A quiet step: of the worker outside its request, or of a client. -/
theorem Left.quiet {a : LibRest.Act T} {q : St T} (h : Left k s n) (ha : Awaits k d s)
    (hk : s.results.length ≤ k) (hq : s.quiet a = true) (hn : (wrapper T).next s.queue a = some q) :
    ∃ n', Left k { s with queue := q } n' ∧ n' + (ofWorker (.queue a : Act T C)).toNat ≤ n := by
  obtain ⟨-, hrun⟩ := quiet_next hq hn
  rcases h with ⟨pl, p, j, hw, hp, hj, hle⟩ | ⟨hno, hle⟩
  · have hclient : ofWorker (.queue a : Act T C) = false := by
      cases a with
      | worker => simp [wrapper, St.workerNext, hw] at hn
      | _ => rfl
    rw [hclient]
    exact ⟨n, .inl ⟨pl, p, j, (hrun pl).mpr hw, hp, hj, hle⟩, Nat.le_refl _⟩
  · have hno' : ∀ pl, q.worker ≠ .running pl := fun pl e => hno pl ((hrun pl).mp e)
    rcases St.next_step hn with ⟨ht, hs⟩ | ⟨t, ht, hs⟩
    · have hworker : a = .worker := by
        cases a with
        | worker => rfl
        | workerReturns => cases hq
        | _ => cases ht
      subst hworker
      have hnear : q.worker.distance + 1 ≤ s.queue.worker.distance := by
        rcases (ha.busy hk hno).workerStep (St.wakes_reach (wrapper_reach ha.reach)) hs with
          ⟨pl, e⟩ | ⟨pl, e⟩ | hle'
        · -- a payload that was pushed has the method of a request
          obtain ⟨c, -, hc⟩ := St.carries_reach (wrapper_reach ha.reach)
          obtain ⟨d, -, rfl⟩ := hc.popped e
          rcases d.payload_method with hm | hm <;> simp [Service.quiet, e, hm] at hq
        · exact absurd e (hno pl)
        · exact hle'
      refine ⟨n - 1, .inr ⟨hno', ?_⟩, ?_⟩
      · show q.worker.distance + 15 + 22 * (k - s.results.length) ≤ n - 1
        omega
      · show n - 1 + 1 ≤ n
        omega
    · have hclient : ofWorker (.queue a : Act T C) = false := by
        cases a with
        | worker => cases ht
        | _ => rfl
      have hd : q.worker.distance = s.queue.worker.distance := by
        rcases hs.frame.1 with e | e <;> rw [e]
        exact WorkerPc.notify_distance _
      rw [hclient]
      refine ⟨n, .inr ⟨hno', ?_⟩, Nat.le_refl _⟩
      show q.worker.distance + 15 + 22 * (k - s.results.length) ≤ n
      rw [hd]; exact hle

omit [DecidableEq T] [DecidableEq C] in
/-- A step that leaves the worker and its requests alone. -/
theorem Left.keep (h : Left k s n) (hw : s'.queue.worker = s.queue.worker)
    (hr : s'.results = s.results) (hc : ∀ m, s'.pool.calls (.worker m) = s.pool.calls (.worker m)) :
    Left k s' n := by
  rcases h with ⟨pl, p, j, hrun, hp, hj, hle⟩ | ⟨hno, hle⟩
  · exact .inl ⟨pl, p, j, hw.trans hrun, by rw [hc, hr]; exact hp, hj, by rw [hr]; exact hle⟩
  · exact .inr ⟨fun pl e => hno pl (hw.symm.trans e), by rw [hw, hr]; exact hle⟩

/-- A step of the worker's request. -/
theorem Left.request {m : Nat} {c : Choice} {o : Op} {f : o.Res → Request Reply}
    {r : Option o.Res} {w : World (RequestId C)} (h : Left k s n) (ha : Awaits k d s)
    (hcur : s.pool.calls (.worker m) = some (.op o f))
    (hr : handle (.worker m) o s.world c = some (r, w)) :
    ∃ n', Left k { s with
      pool := ⟨w, Function.update s.pool.calls (.worker m) (some (Pool.rest o f r))⟩ } n' ∧
        n' + (!c.isChunk).toNat ≤ n := by
  obtain ⟨rfl, pl, hrun, -⟩ := ha.coupled.steps hcur
  rcases h with ⟨pl', p, j, hw, hp, hj, hle⟩ | ⟨hno, -⟩
  · obtain rfl := Option.some.inj (hp.symm.trans hcur)
    have hself : ∀ q : Request Reply, Function.update s.pool.calls (.worker s.results.length)
        (some q) (.worker s.results.length) = some q := fun q => Function.update_self ..
    cases hc : c.isChunk with
    | true =>
      have hstay : (Pool.rest o f r).Within j := by
        cases r with
        | none => exact hj
        | some x => exact (hj.2 x).mono (Nat.sub_le ..)
      exact ⟨n, .inl ⟨pl', _, j, hw, hself _, hstay, hle⟩, Nat.le_refl _⟩
    | false =>
      obtain ⟨x, rfl⟩ := handle_returns hr hc
      have hpos := hj.1
      refine ⟨n - 1, .inl ⟨pl', _, j - 1, hw, hself _, hj.2 x, ?_⟩, ?_⟩
      · show j - 1 + 1 + 22 * (k - s.results.length) ≤ n - 1
        omega
      · show n - 1 + 1 ≤ n
        omega
  · exact absurd hrun (hno pl)

theorem Left.step {a : Act T C} (h : Left k s n) (ha : Awaits k d s) (hk : s.results.length ≤ k)
    (hn : s.Step a s') :
    k < s'.results.length ∨ ∃ n', Left k s' n' ∧ n' + (ofWorker a).toNat ≤ n := by
  cases hn with
  | queue hq hb => exact .inr (h.quiet ha hk hq hb)
  | @startStore t c q hb ht hnone =>
    have hw : q.worker = s.queue.worker := by
      have e : s.queue.clientNext t = some q := hb
      rw [St.clientNext, ht] at e
      obtain rfl := Option.some.inj e
      rfl
    refine .inr ⟨n, h.keep hw rfl fun m => ?_, Nat.le_refl _⟩
    exact worker_calls s.pool.calls c Job.startOptions.body m
  | @call c g =>
    refine .inr ⟨n, h.keep rfl rfl fun m => ?_, Nat.le_refl _⟩
    exact worker_calls s.pool.calls c g.body m
  | @step i c o f r w hcur hr =>
    cases i with
    | worker m => exact .inr (h.request ha hcur hr)
    | client c' =>
      refine .inr ⟨n, h.keep rfl rfl fun m => ?_, Nat.le_refl _⟩
      exact worker_calls s.pool.calls c' (Pool.rest o f r) m
  | @dispatch pl g hw hreq hnone =>
    rcases h with ⟨pl', p, j, hrun, -⟩ | ⟨-, hle⟩
    · rw [hw] at hrun; cases hrun
    · have hlen : s.queue.dispatched.length = s.results.length := by
        cases ha.coupled.current with
        | resting _ hd => rw [hd, List.length_map]
        | sending hrun => rw [hw] at hrun; cases hrun
      rw [hw, WorkerPc.distance] at hle
      refine .inr ⟨n - 1, .inl ⟨pl, g.body, 14, rfl, ?_, within_request hreq, ?_⟩, ?_⟩
      · show Function.update s.pool.calls (.worker s.queue.dispatched.length) (some g.body)
          (.worker s.results.length) = _
        rw [hlen, Function.update_self]
      · show 14 + 1 + 22 * (k - s.results.length) ≤ n - 1
        omega
      · show n - 1 + 1 ≤ n
        omega
  | @returns pl r hw hret =>
    rcases h with ⟨pl', p, j, hrun, hp, hj, hle⟩ | ⟨hno, -⟩
    · by_cases hlast : k = s.results.length
      · refine .inl ?_
        simp [hlast]
      · have hlen : (s.results ++ [(pl, r.1)]).length = s.results.length + 1 := by simp
        refine .inr ⟨n - 1, .inr ⟨by simp, ?_⟩, ?_⟩
        · show 7 + 15 + 22 * (k - (s.results ++ [(pl, r.1)]).length) ≤ n - 1
          rw [hlen]
          omega
        · show n - 1 + 1 ≤ n
          omega
    · exact absurd hw (hno pl)

/-- The requests of the worker are short. -/
theorem within_reach {G : Service T C → Act T C → Prop} (h : (service T C).Reach G s) {m : Nat}
    {p : Request Reply} (hp : s.pool.calls (.worker m) = some p) : p.Within 14 := by
  have hinv := Pool.inv (J := fun _ : World (RequestId C) => True)
    (L := fun i q _ => ∀ m, i = .worker m → ∀ p, q = some p → p.Within 14) ?_ ?_ ?_ (jobs_reach h)
  · exact hinv.2 (.worker m) m rfl p hp
  · rintro w -
    exact ⟨trivial, fun i m _ p e => by cases e⟩
  · rintro calls i g w hmay - - m rfl p e
    obtain rfl := Option.some.inj e
    have hsend : ∀ method url content type,
        (withoutData (sendBody method url content type)).Within 14 := fun _ _ _ _ =>
      (within_sendBody ..).bind (n := 0) fun _ => trivial
    cases g with
    | startOptions => cases hmay
    | call g =>
      cases g with
      | post => exact hsend ..
      | put => exact hsend ..
      | _ => cases hmay
  · rintro s i c o f r w - hcur hs - hL
    refine ⟨trivial, fun m hm p e => ?_, fun j _ => hL j⟩
    obtain rfl := Option.some.inj e
    have hw := hL i m hm _ hcur
    cases r with
    | none => exact hw
    | some x => exact (hw.2 x).mono (by decide)

/-- At first the worker needs at most 22 steps for each payload up to the `k`-th. -/
theorem Awaits.left (h : Awaits k d s) (hk : s.results.length ≤ k) :
    Left k s (22 * (k + 1 - s.results.length)) := by
  have hdist := s.queue.worker.distance_le
  cases h.coupled.current with
  | resting hno => exact .inr ⟨hno, by omega⟩
  | @sending pl p hrun _ hp =>
    exact .inl ⟨pl, p, 14, hrun, hp, within_reach h.reach hp, by omega⟩

/-- What was returned stays returned. -/
theorem Step.results {a : Act T C} (h : s.Step a s') : s.results.length ≤ s'.results.length := by
  cases h with
  | returns => simp
  | _ => exact Nat.le_refl _

/-- **Bounded progress.** From a reachable state in which the wrapper is active and its worker is
alive, while no `Shutdown` stores `false`, the `k`-th payload that was pushed is settled within 22
steps of the worker for each payload that is not. So `Post` or `Put` has returned for it. -/
theorem settled_within (h : (service T C).Reach Sys.Any s) (ha : s.queue.mActive = true)
    (hw : s.queue.worker ≠ .done) (hd : s.queue.pushed[k]? = some d) {as : List (Act T C)}
    {t : Service T C} (hg : (service T C).Along NoStop s as) (hr : (service T C).run s as = some t)
    (hc : 22 * (k + 1 - s.results.length) ≤ as.countP ofWorker) :
    ∃ st, t.results[k]? = some (d.payload, st) := by
  have hs : Awaits k d s := ⟨h, ha, hw, hd⟩
  have ht : Awaits k d t := Sys.stays (I := fun _ => True) (fun _ _ _ _ _ _ => trivial)
    (fun _ _ _ _ hi hg hn => hi.step hg hn) trivial hs hg hr
  have hlen : k < t.results.length := by
    by_cases hk : s.results.length ≤ k
    · refine Sys.within (I := Awaits k d) (P := fun s => k < s.results.length) (M := Left k)
        (fun _ _ _ hi hg hn => hi.step hg hn) ?_ ?_ ?_ hs (hs.left hk) hg hr hc
      · intro s a s' _ hp _ hn
        have hgrow := (next_step hn).results
        omega
      · rintro s - (⟨pl, p, j, -, -, -, hle⟩ | ⟨-, hle⟩) <;> omega
      · intro s a s' n hi hp _ hm hn
        exact hm.step hi (by omega) (next_step hn)
    · refine Sys.stays (I := fun _ => True) (P := fun s => k < s.results.length) (G := NoStop)
        (fun _ _ _ _ _ _ => trivial) ?_ trivial (by omega) hg hr
      intro s a s' _ hp _ hn
      have hgrow := (next_step hn).results
      omega
  obtain ⟨c, -, hcar⟩ := St.carries_reach (wrapper_reach ht.reach)
  have htaken := hcar.taken_queue
  obtain ⟨rest, hrest⟩ := ht.coupled.names
  have hget : (t.results.map Prod.fst)[k]? = some d.payload := by
    have e : (t.queue.pushed.map DataCall.payload)[k]? = some d.payload := by
      rw [List.getElem?_map, ht.pushed]; rfl
    rw [← htaken, St.taken, ← hrest, List.append_assoc, List.append_assoc,
      List.getElem?_append_left (by simpa using hlen)] at e
    exact e
  obtain ⟨⟨pl, st⟩, hres, rfl⟩ := Option.map_eq_some_iff.mp ((List.getElem?_map ..).symm.trans hget)
  exact ⟨st, hres⟩

/-- The queued POST is settled within 22 steps of the worker. -/
theorem settled_within_one :
    ∃ s t : Service Unit Bool, s.results = [] ∧
      (service Unit Bool).run s (relayed ++ [.queue .worker]) = some t ∧
        ∃ st, t.results[0]? = some (somePayload, st) := by
  obtain ⟨s, hr, hs⟩ := Option.map_eq_some_iff.mp (show ((service Unit Bool).run (start Unit Bool)
    queued).map (fun s => (s.queue.mActive, s.queue.worker, s.queue.pushed, s.results)) =
      some (true, .readyLock, [.createDeviceData [97] ⟨[123], .typeJson⟩], []) by decide)
  simp only [Prod.mk.injEq] at hs
  obtain ⟨hact, hw, hpushed, hres⟩ := hs
  have hall : ((service Unit Bool).run (start Unit Bool)
      (queued ++ (relayed ++ [.queue .worker]))).map (fun s => s.results.length) = some 1 := by
    decide
  rw [Sys.run_append, hr, Option.bind_some] at hall
  obtain ⟨t, ht, -⟩ := Option.map_eq_some_iff.mp hall
  have hclients : ∀ a ∈ relayed ++ [.queue .worker], a ≠ .queue (.client ()) := by decide
  have hcount : 22 ≤ (relayed ++ [Act.queue .worker]).countP ofWorker := by decide
  refine ⟨s, t, hres, ht, settled_within (k := 0) (d := .createDeviceData [97] ⟨[123], .typeJson⟩)
    (Sys.Reach.run (.init start_init) hr) hact (by rw [hw]; simp) (by rw [hpushed]; rfl) ?_ ht ?_⟩
  · exact Sys.along_of_labels (fun _ _ h t e => absurd e h) hclients
  · rw [hres]; exact hcount

end Service

end LibRest
