import LibRest.Direct
import LibRest.Lib.Relay

/-!
# What reaches the server

The whole wrapper as a relay of the payloads that were pushed: its wire is what the worker's
requests transferred.

- **The worker's requests** (`Coupled`). The `n`-th payload that was handed over is sent by the
  `n`-th request of the worker; at most the last one is running, and keeps its guarantee among the
  other calls (`Prog.rg`).
- **Refinement** (`Shows`, `relays_reach`). Each transfer of the worker settles the next payload of
  a relay, and so does a request that returns without one.
- **Order** (`settled_in_order`), for all runs: a payload is transferred at most once, in the order
  of the pushes, and what `Post` or `Put` returned for it says how its transfer ended.
- **Content** (`conveyed_in_order`), for runs in which no direct call changes what the worker's
  request sends (`Unmixed`): what reaches the server are the payloads themselves.
-/

namespace LibRest

open Lib CurlHttpWrapper

/-- The method that `Post` and `Put` send. -/
def HttpMethod.sent : HttpMethod → Option Str
  | .post => some (str "POST")
  | .put => some (str "PUT")
  | .get | .delete => none

/-- The transfer has the method, the url and the content of the payload, and the last ones of the
header lines for its type: all of them, unless an append failed. -/
def Conveys {ι : Type} (p : Performed ι) (pl : Payload) : Prop :=
  ∃ method data, pl.method.sent = some method ∧ pl.restData = some data ∧
    Sends p method pl.url data.restContent ∧ p.headers <:+ requestHeaders data.type

/-- What the transfer uses of the options of its own call is of the payload. -/
def ConveysOwn {ι : Type} (p : Performed ι) (pl : Payload) : Prop :=
  ∃ method data, pl.method.sent = some method ∧ pl.restData = some data ∧
    SendsOwn p method pl.url data.restContent

/-- What the transfer for a payload has in all runs, and if `K`. -/
def Delivers {ι : Type} (K : Prop) (pl : Payload) (p : Performed ι) : Prop :=
  ConveysOwn p pl ∧ (K → Conveys p pl)

/-- A request of the worker, among other calls. -/
theorem rg_request {ι : Type} [DecidableEq ι] {i : ι} {w : World ι} {K : Prop} {pl : Payload}
    {g : Call} (hg : pl.request = some g) (h : transfersOf w i = []) :
    Prog.rg (handle i) (Others K i) (Makes (Delivers K pl) i) g.body (fun r => Reports i r.1)
      w := by
  have hsend : ∀ method (data : RestData), pl.method.sent = some method →
      pl.restData = some data →
      g.body = withoutData (sendBody method pl.url data.getContent data.getType) →
      Prog.rg (handle i) (Others K i) (Makes (Delivers K pl) i) g.body
        (fun r => Reports i r.1) w := by
    intro method data hm hd e
    rw [e]
    refine Prog.rg_bind (Prog.rg_mono (rg_sendBody (K := K) h) ?_ ?_)
    · rintro w w' (hp | ⟨hf, p, hp, hi, he, hown, hall⟩)
      · exact .inl hp
      · refine .inr ⟨hf, p, hp, hi, he, ⟨method, data, hm, hd, hown⟩, fun hK => ?_⟩
        obtain ⟨hsends, hlines⟩ := hall hK
        exact ⟨method, data, hm, hd, hsends, securityHeaders_eq data.type ▸ hlines⟩
    · intro status w' hr
      exact Prog.rg_ret (fun _ _ hs hr => hr.of_eq hs.1) hr
  obtain ⟨m, url, data⟩ := pl
  cases m <;> cases data <;> cases hg
  · exact hsend _ _ rfl rfl rfl
  · exact hsend _ _ rfl rfl rfl

/-- The call is one of the worker. -/
def CurlHttpWrapper.RequestId.isWorker {C : Type} : RequestId C → Bool
  | .worker _ => true
  | .client _ => false

namespace Service

variable {T C : Type} [DecidableEq T] [DecidableEq C] {s s' : Service T C} {K : Prop}

/-! ## The worker and its requests -/

/-- The worker is in `Post` or `Put`. -/
def Running (q : St T) : Prop := ∃ pl, q.worker = .running pl

omit [DecidableEq C] in
/-- A step of the queue's threads that is quiet hands nothing over and lets no request return. -/
theorem quiet_next {a : LibRest.Act T} {q : St T} (hq : s.quiet a = true)
    (hn : (wrapper T).next s.queue a = some q) :
    q.dispatched = s.queue.dispatched ∧
      ∀ pl, q.worker = .running pl ↔ s.queue.worker = .running pl := by
  rcases St.next_step hn with ⟨ha, hs⟩ | ⟨t, -, hs⟩
  · have hworker : a = .worker := by
      cases a with
      | worker => rfl
      | workerReturns => cases hq
      | _ => cases ha
    subst hworker
    have hn' : s.queue.workerNext = some q := hn
    cases hs with
    | dispatch hw hm =>
      rcases hm with hm | hm <;> simp [quiet, hw, hm] at hq
    | returns hw => simp [St.workerNext, hw] at hn'
    | @lock pc ha _ =>
      refine ⟨rfl, fun pl => ⟨fun e => ?_, fun e => ?_⟩⟩
      · rcases WorkerPc.afterLock_cases ha with rfl | rfl | rfl | rfl <;> cases e
      · rw [e] at ha; cases ha
    | _ => simp_all [St.workerUnlock]
  · have hd : q.dispatched = s.queue.dispatched := by cases hs <;> rfl
    refine ⟨hd, fun pl => ?_⟩
    rcases hs.frame.1 with e | e
    · rw [e]
    · rw [e]; cases s.queue.worker <;> simp [WorkerPc.notify]

/-- What the worker's last request is doing. -/
inductive Current (K : Prop) (s : Service T C) : Prop where
  | resting : (∀ pl, s.queue.worker ≠ .running pl) →
      s.queue.dispatched = s.results.map Prod.fst → Current K s
  | sending {pl : Payload} {p : Request Reply} : s.queue.worker = .running pl →
      s.queue.dispatched = s.results.map Prod.fst ++ [pl] →
      s.pool.calls (.worker s.results.length) = some p →
      Prog.rg (handle (.worker s.results.length)) (Others K (.worker s.results.length))
        (Makes (Delivers K pl) (.worker s.results.length)) p
        (fun r => Reports (.worker s.results.length) r.1) s.world → Current K s

/-- The worker's requests are the payloads that were handed over. -/
structure Coupled (K : Prop) (s : Service T C) : Prop where
  made : ∀ n, s.queue.dispatched.length ≤ n → s.pool.calls (.worker n) = none
  fresh : ∀ n, s.pool.calls (.worker n) = none → transfersOf s.world (.worker n) = []
  once : ∀ n, (transfersOf s.world (.worker n)).length ≤ 1
  delivers : ∀ n pl, s.queue.dispatched[n]? = some pl →
    ∀ p ∈ transfersOf s.world (.worker n), Delivers K pl p
  ended : ∀ n pl st, s.results[n]? = some (pl, st) →
    (∃ r, s.pool.calls (.worker n) = some (.ret r)) ∧ Reports (.worker n) st s.world
  current : Current K s

omit [DecidableEq T] in
/-- Only the request that is running steps. -/
theorem Coupled.steps {n : Nat} {o : Op} {k : o.Res → Request Reply} (h : Coupled K s)
    (hcur : s.pool.calls (.worker n) = some (.op o k)) :
    n = s.results.length ∧ ∃ pl, s.queue.worker = .running pl ∧
      s.queue.dispatched = s.results.map Prod.fst ++ [pl] ∧
      Prog.rg (handle (.worker n)) (Others K (.worker n)) (Makes (Delivers K pl) (.worker n))
        (.op o k) (fun r => Reports (.worker n) r.1) s.world := by
  have hlt : n < s.queue.dispatched.length := by
    by_contra hge
    rw [h.made n (Nat.le_of_not_lt hge)] at hcur
    cases hcur
  have hge : s.results.length ≤ n := by
    by_contra hn
    have hget := List.getElem?_eq_getElem (Nat.lt_of_not_le hn)
    obtain ⟨⟨r, hr⟩, -⟩ := h.ended n _ _ hget
    rw [hr] at hcur
    cases hcur
  cases h.current with
  | resting _ hd =>
    rw [hd, List.length_map] at hlt
    omega
  | @sending pl p hw hd hp hrg =>
    rw [hd, List.length_append, List.length_map, List.length_singleton] at hlt
    obtain rfl : n = s.results.length := by omega
    obtain rfl := Option.some.inj (hp.symm.trans hcur)
    exact ⟨rfl, pl, hw, hd, hrg⟩

omit [DecidableEq T] in
/-- What a client's call does to the worker's requests. -/
theorem worker_calls (calls : RequestId C → Option (Request Reply)) (c : C) (p : Request Reply)
    (n : Nat) : Function.update calls (.client c) (some p) (.worker n) = calls (.worker n) :=
  Function.update_of_ne (by simp) ..

omit [DecidableEq T] in
theorem coupled_init (hp : (jobs C).init s.pool) (hq : s.queue = .init) (hr : s.results = []) :
    Coupled K s := by
  obtain ⟨⟨hperf, -, -⟩, hcalls⟩ := hp
  have hnone : ∀ n, transfersOf s.world (.worker n) = [] := fun n => by
    simp [transfersOf, world, hperf]
  refine ⟨fun n _ => by rw [hcalls], fun n _ => hnone n, fun n => ?_, fun n pl _ p hp => ?_,
    fun n pl st e => ?_, .resting ?_ ?_⟩
  · rw [hnone]; exact Nat.zero_le _
  · rw [hnone] at hp; cases hp
  · rw [hr] at e; simp at e
  · rw [hq]; simp [St.init]
  · rw [hq, hr]; rfl

omit [DecidableEq T] in
/-- A step that leaves the transfers, the worker's requests and its place alone. -/
theorem Coupled.keep (h : Coupled K s) (hd : s'.queue.dispatched = s.queue.dispatched)
    (hw : ∀ pl, s'.queue.worker = .running pl ↔ s.queue.worker = .running pl)
    (hr : s'.results = s.results) (hc : ∀ n, s'.pool.calls (.worker n) = s.pool.calls (.worker n))
    (ho : ∀ n, Others False (.worker n) s.world s'.world)
    (hk : Running s.queue → Others K (.worker s.results.length) s.world s'.world) :
    Coupled K s' := by
  refine ⟨fun n hn => ?_, fun n hn => ?_, fun n => ?_, fun n pl e p hp => ?_,
    fun n pl st e => ?_, ?_⟩
  · rw [hc, h.made n (by rw [← hd]; exact hn)]
  · rw [(ho n).1, h.fresh n (by rw [← hc]; exact hn)]
  · rw [(ho n).1]; exact h.once n
  · rw [hd] at e
    rw [(ho n).1] at hp
    exact h.delivers n pl e p hp
  · rw [hr] at e
    obtain ⟨hret, hrep⟩ := h.ended n pl st e
    exact ⟨by rw [hc]; exact hret, hrep.of_eq (ho n).1⟩
  · cases h.current with
    | resting hrest hdis =>
      exact .resting (fun pl e => hrest pl ((hw pl).mp e)) (by rw [hd, hr]; exact hdis)
    | @sending pl p hrun hdis hp hrg =>
      refine Current.sending ((hw pl).mpr hrun) (p := p) ?_ ?_ ?_
      · rw [hd, hr]; exact hdis
      · rw [hc, hr]; exact hp
      · rw [hr]
        exact Prog.rg_stable hrg (hk ⟨pl, hrun⟩)

omit [DecidableEq T] in
/-- A step of a direct call. -/
theorem Coupled.clientStep {c : C} {ch : Choice} {o : Op} {k : o.Res → Request Reply}
    {r : Option o.Res} {w : World (RequestId C)} (h : Coupled K s) (hl : mCurl < s.world.easyCount)
    (hg : K → s.Unmixed (.step (.client c) ch))
    (hcur : s.pool.calls (.client c) = some (.op o k))
    (hs : handle (.client c) o s.world ch = some (r, w)) :
    Coupled K { s with
      pool := ⟨w, Function.update s.pool.calls (.client c) (some (Pool.rest o k r))⟩ } := by
  have hne : ∀ n, RequestId.client c ≠ .worker n := by simp
  refine h.keep rfl (fun _ => Iff.rfl) rfl (fun n => ?_) (fun n => ?_) fun hrun => ?_
  · exact worker_calls s.pool.calls c (Pool.rest o k r) n
  · exact .of_step (hne n) hs hl False.elim
  · refine .of_step (hne _) hs hl fun hk ht => ?_
    obtain ⟨pl, hw⟩ := hrun
    exact hg hk o k hcur ht pl hw

omit [DecidableEq T] in
/-- A step of the worker's request. -/
theorem Coupled.workerStep {n : Nat} {ch : Choice} {o : Op} {k : o.Res → Request Reply}
    {r : Option o.Res} {w : World (RequestId C)} (h : Coupled K s) (hl : mCurl < s.world.easyCount)
    (hcur : s.pool.calls (.worker n) = some (.op o k))
    (hs : handle (.worker n) o s.world ch = some (r, w)) :
    Coupled K { s with
      pool := ⟨w, Function.update s.pool.calls (.worker n) (some (Pool.rest o k r))⟩ } := by
  obtain ⟨rfl, pl, hrun, hd, hrg⟩ := h.steps hcur
  obtain ⟨hmakes, hrest⟩ := Prog.rg_step hrg hs
  have hsame : ∀ m, m ≠ s.results.length →
      transfersOf w (.worker m) = transfersOf s.world (.worker m) := fun m hm =>
    (Others.of_step (K := False) (by simpa using Ne.symm hm) hs hl False.elim).1
  have hcalls : ∀ m, m ≠ s.results.length → Function.update s.pool.calls
      (.worker s.results.length) (some (Pool.rest o k r)) (.worker m) =
        s.pool.calls (.worker m) := fun m hm => Function.update_of_ne (by simpa using hm) ..
  refine ⟨fun m hm => ?_, fun m hm => ?_, fun m => ?_, fun m pl' e p hp => ?_,
    fun m pl st e => ?_, .sending hrun hd ?_ hrest⟩
  · have hlen : s.queue.dispatched.length ≤ m := hm
    rw [hd] at hlen
    have hne : m ≠ s.results.length := by simp at hlen; omega
    exact (hcalls m hne).trans (h.made m hm)
  · by_cases hne : m = s.results.length
    · subst hne
      simp at hm
    · exact (hsame m hne).trans (h.fresh m ((hcalls m hne).symm.trans hm))
  · by_cases hne : m = s.results.length
    · subst hne
      show (transfersOf w _).length ≤ 1
      rcases hmakes with e | ⟨hf, p, e, hcall, -, -⟩
      · rw [transfersOf_of_eq e]; exact h.once _
      · rw [transfersOf_snoc e, hf, if_pos hcall]; exact Nat.le_refl _
    · show (transfersOf w _).length ≤ 1
      rw [hsame m hne]; exact h.once m
  · have e' : s.queue.dispatched[m]? = some pl' := e
    have hp' : p ∈ transfersOf w (.worker m) := hp
    by_cases hne : m = s.results.length
    · subst hne
      obtain rfl : pl = pl' := by simpa [hd] using e'
      rcases hmakes with ew | ⟨hf, q, ew, hcall, -, hS⟩
      · rw [transfersOf_of_eq ew] at hp'
        exact h.delivers _ pl e' p hp'
      · rw [transfersOf_snoc ew, hf, if_pos hcall] at hp'
        obtain rfl := List.mem_singleton.mp hp'
        exact hS
    · rw [hsame m hne] at hp'
      exact h.delivers m pl' e' p hp'
  · have hlt : m < s.results.length := by
      obtain ⟨hlt, -⟩ := List.getElem?_eq_some_iff.mp e
      exact hlt
    have hne : m ≠ s.results.length := Nat.ne_of_lt hlt
    obtain ⟨hret, hrep⟩ := h.ended m pl st e
    exact ⟨hret.imp fun r hr => (hcalls m hne).trans hr, hrep.of_eq (hsame m hne)⟩
  · exact Function.update_self ..

theorem Coupled.step {a : Act T C} (h : Coupled K s) (hl : mCurl < s.world.easyCount)
    (hg : K → s.Unmixed a) (hs : s.Step a s') : Coupled K s' := by
  cases hs with
  | queue hq hn =>
    obtain ⟨hd, hw⟩ := quiet_next hq hn
    exact h.keep hd hw rfl (fun _ => rfl) (fun _ => Std.Refl.refl _) fun _ => Std.Refl.refl _
  | @startStore t c q hn ht hnone =>
    have hquiet : q.dispatched = s.queue.dispatched ∧
        ∀ pl, q.worker = .running pl ↔ s.queue.worker = .running pl := by
      have e : s.queue.clientNext t = some q := hn
      rw [St.clientNext, ht] at e
      obtain rfl := Option.some.inj e
      exact ⟨rfl, fun _ => Iff.rfl⟩
    refine h.keep hquiet.1 hquiet.2 rfl (fun n => ?_) (fun _ => Std.Refl.refl _)
      fun _ => Std.Refl.refl s.world
    exact worker_calls s.pool.calls c Job.startOptions.body n
  | @call c g =>
    refine h.keep rfl (fun _ => Iff.rfl) rfl (fun n => ?_) (fun _ => Std.Refl.refl _)
      fun _ => Std.Refl.refl s.world
    exact worker_calls s.pool.calls c g.body n
  | @step i c o k r w hcur hr =>
    cases i with
    | worker n => exact h.workerStep hl hcur hr
    | client c => exact h.clientStep hl hg hcur hr
  | @dispatch pl g hw hreq hnone =>
    have hd : s.queue.dispatched = s.results.map Prod.fst := by
      cases h.current with
      | resting _ hd => exact hd
      | sending hrun => rw [hw] at hrun; cases hrun
    have hlen : s.queue.dispatched.length = s.results.length := by rw [hd, List.length_map]
    have hcalls : ∀ m, m ≠ s.results.length → Function.update s.pool.calls
        (.worker s.queue.dispatched.length) (some g.body) (.worker m) =
          s.pool.calls (.worker m) := fun m hm =>
      Function.update_of_ne (by rw [hlen]; simpa using hm) ..
    refine ⟨fun m hm => ?_, fun m hm => ?_, h.once, fun m pl' e p hp => ?_,
      fun m pl st e => ?_, ?_⟩
    · have hm' : s.queue.dispatched.length + 1 ≤ m := by simpa using hm
      exact (hcalls m (by omega)).trans (h.made m (by omega))
    · by_cases hne : m = s.results.length
      · subst hne
        simp [hlen] at hm
      · exact h.fresh m ((hcalls m hne).symm.trans hm)
    · have e' : (s.queue.dispatched ++ [pl])[m]? = some pl' := e
      have hp' : p ∈ transfersOf s.world (.worker m) := hp
      by_cases hlt : m < s.queue.dispatched.length
      · rw [List.getElem?_append_left hlt] at e'
        exact h.delivers m pl' e' p hp'
      · rw [h.fresh m (h.made m (Nat.le_of_not_lt hlt))] at hp'
        cases hp'
    · have hlt : m < s.results.length := by
        obtain ⟨hlt, -⟩ := List.getElem?_eq_some_iff.mp e
        exact hlt
      obtain ⟨hret, hrep⟩ := h.ended m pl st e
      exact ⟨hret.imp fun r hr => (hcalls m (Nat.ne_of_lt hlt)).trans hr, hrep⟩
    · refine Current.sending (show _ = WorkerPc.running pl from rfl) (p := g.body) ?_ ?_ ?_
      · show s.queue.dispatched ++ [pl] = _
        rw [hd]
      · show Function.update s.pool.calls (.worker s.queue.dispatched.length) (some g.body)
          (.worker s.results.length) = _
        rw [hlen, Function.update_self]
      · exact rg_request hreq (h.fresh _ (by rw [← hlen]; exact hnone))
  | @returns pl r hw hret =>
    cases h.current with
    | resting hrest => exact absurd hw (hrest pl)
    | @sending pl' p hrun hd hp hrg =>
      obtain rfl : pl = pl' := by rw [hw] at hrun; cases hrun; rfl
      have hlen : s.queue.dispatched.length - 1 = s.results.length := by simp [hd]
      rw [hlen] at hret
      obtain rfl := Option.some.inj (hp.symm.trans hret)
      have hrep := Prog.rg_result hrg
      refine ⟨h.made, h.fresh, h.once, h.delivers, fun m pl' st e => ?_, .resting (by simp) ?_⟩
      · have e' : (s.results ++ [(pl, r.1)])[m]? = some (pl', st) := e
        by_cases hlt : m < s.results.length
        · rw [List.getElem?_append_left hlt] at e'
          exact h.ended m pl' st e'
        · have hm : m = s.results.length := by
            obtain ⟨hlt', -⟩ := List.getElem?_eq_some_iff.mp e'
            simp at hlt'
            omega
          subst hm
          simp at e'
          obtain ⟨rfl, rfl⟩ := e'
          exact ⟨⟨r, hret⟩, hrep⟩
      · show s.queue.dispatched = _
        rw [hd, List.map_append]
        rfl

theorem coupled_reach {G : Service T C → Act T C → Prop} (hG : ∀ s a, G s a → K → s.Unmixed a)
    (h : (service T C).Reach G s) : Coupled K s := by
  refine h.inv (I := Coupled K) ?_ ?_
  · rintro s ⟨hq, hp, hr⟩
    exact coupled_init hp hq hr
  · intro s a s' hreach hg hn hi
    exact hi.step (live_reach hreach) (hG s a hg) (next_step hn)

/-! ## The wrapper as a relay -/

/-- The transfers of the worker's requests. -/
def transfers (s : Service T C) : List (Performed (RequestId C)) :=
  s.world.performs.filter fun p => p.call.isWorker

/-- How the transfer for the `n`-th payload ended, if there was one. -/
def outcome (s : Service T C) (n : Nat) : Option CurlCode :=
  (transfersOf s.world (.worker n)).head?.map (·.code)

/-- How many payloads are settled: their requests have returned, or have made their transfer. -/
def settled (s : Service T C) : Nat :=
  s.results.length + if (transfersOf s.world (.worker s.results.length)).isEmpty then 0 else 1

/-- The state shows the relay `r`: its transfers are those of different requests of the worker, in
their order, and deliver the messages of `r`. -/
structure Shows (K : Prop) (s : Service T C) (r : Relay Payload CurlCode) : Prop where
  accepted : r.accepted = s.queue.pushed.map DataCall.payload
  outcomes : r.outcomes = (List.range s.settled).map s.outcome
  order : (s.transfers.map (·.call)).Sublist ((List.range s.settled).map RequestId.worker)
  wire : List.Forall₂ (fun p m => p.code = m.2 ∧ Delivers K m.1 p) s.transfers r.wire

variable {r : Relay Payload CurlCode}

omit [DecidableEq T] in
theorem Shows.length (h : Shows K s r) : r.outcomes.length = s.settled := by
  rw [h.outcomes, List.length_map, List.length_range]

omit [DecidableEq T] in
/-- A step that pushes nothing, transfers nothing and returns nothing. -/
theorem Shows.keep (h : Shows K s r) (hp : s'.queue.pushed = s.queue.pushed)
    (hr : s'.results = s.results)
    (hn : ∀ n, transfersOf s'.world (.worker n) = transfersOf s.world (.worker n))
    (ht : s'.transfers = s.transfers) : Shows K s' r := by
  have hset : s'.settled = s.settled := by simp only [settled, hr, hn]
  have hout : s'.outcome = s.outcome := by funext n; simp only [outcome, hn]
  refine ⟨?_, ?_, ?_, ?_⟩
  · rw [h.accepted, hp]
  · rw [h.outcomes, hset, hout]
  · rw [ht, hset]; exact h.order
  · rw [ht]; exact h.wire

omit [DecidableEq C] in
/-- What a step of the queue's threads pushes. -/
theorem pushed_next {q q' : St T} {b : LibRest.Act T} (h : (wrapper T).next q b = some q') :
    q'.pushed = q.pushed ∨ ∃ d, q'.pushed = q.pushed ++ [d] := by
  rcases St.next_step h with ⟨-, hs⟩ | ⟨t, -, hs⟩
  · exact .inl hs.frame.2.2
  · cases hs with
    | @pushItem d => exact .inr ⟨d, rfl⟩
    | _ => exact .inl rfl

omit [DecidableEq T] in
/-- A push is accepted. -/
theorem Shows.accept {d : DataCall} (h : Shows K s r) (hp : s'.queue.pushed = s.queue.pushed ++ [d])
    (hr : s'.results = s.results) (hw : s'.world = s.world) : Shows K s' (r.accept d.payload) := by
  have hset : s'.settled = s.settled := by simp only [settled, hr, hw]
  have hout : s'.outcome = s.outcome := by funext n; simp only [outcome, hw]
  have ht : s'.transfers = s.transfers := by simp only [transfers, hw]
  refine ⟨?_, ?_, ?_, ?_⟩
  · show r.accepted ++ [d.payload] = _
    rw [h.accepted, hp, List.map_append]; rfl
  · show r.outcomes = _
    rw [h.outcomes, hset, hout]
  · rw [ht, hset]; exact h.order
  · rw [Relay.accept_wire, ht]; exact h.wire

/-- The payload of the request that is running was accepted next. -/
theorem Shows.next {pl : Payload} (h : Shows K s r) (hreach : (wrapper T).Reach Sys.Any s.queue)
    (hd : s.queue.dispatched = s.results.map Prod.fst ++ [pl]) :
    r.accepted[s.results.length]? = some pl := by
  obtain ⟨c, -, hc⟩ := St.carries_reach hreach
  have htaken := hc.taken_queue
  rw [St.taken, hd] at htaken
  rw [h.accepted, ← htaken]
  simp

omit [DecidableEq T] in
/-- The transfer of the request that is running settles its payload. -/
theorem Shows.transfer {pl : Payload} {p : Performed (RequestId C)} (h : Shows K s r)
    (hnext : r.accepted[s.results.length]? = some pl)
    (hf : transfersOf s.world (.worker s.results.length) = [])
    (hperf : s'.world.performs = s.world.performs ++ [p])
    (hcall : p.call = .worker s.results.length) (hK : Delivers K pl p)
    (hq : s'.queue = s.queue) (hr : s'.results = s.results) :
    ∃ b r', (Relay.sys Payload CurlCode).next r b = some r' ∧ Shows K s' r' := by
  have hset : s.settled = s.results.length := by simp [settled, hf]
  have hlen : r.outcomes.length = s.results.length := h.length.trans hset
  obtain ⟨r', hs, hacc, hout, hwire⟩ := Relay.settle_eq (some p.code) (by rw [hlen]; exact hnext)
  have hnew : ∀ n, transfersOf s'.world (.worker n) =
      transfersOf s.world (.worker n) ++ if n = s.results.length then [p] else [] := by
    intro n
    rw [transfersOf_snoc hperf, hcall]
    by_cases hn : n = s.results.length
    · simp [hn]
    · rw [if_neg hn, if_neg (by simpa using Ne.symm hn)]
  have hset' : s'.settled = s.results.length + 1 := by
    simp [settled, hr, hnew]
  have ht : s'.transfers = s.transfers ++ [p] := by
    simp [transfers, hperf, hcall, RequestId.isWorker]
  refine ⟨.settle (some p.code), r', hs, ?_, ?_, ?_, ?_⟩
  · rw [hacc, h.accepted, hq]
  · rw [hout, h.outcomes, hset, hset', List.range_succ, List.map_append]
    congr 1
    · refine List.map_congr_left fun n hn => ?_
      have hne : n ≠ s.results.length := Nat.ne_of_lt (List.mem_range.mp hn)
      simp [outcome, hnew, hne]
    · simp [outcome, hnew, hf]
  · rw [ht, hset', List.range_succ, List.map_append, List.map_append, ← hset]
    exact h.order.append (by rw [List.map_singleton, List.map_singleton, hcall, hset])
  · rw [ht, hwire]
    exact List.rel_append h.wire (.cons ⟨rfl, hK⟩ .nil)

omit [DecidableEq T] in
/-- A request that returns without a transfer gives its payload up. -/
theorem Shows.returns {pl : Payload} {st : HttpStatus} (h : Shows K s r)
    (hnext : r.accepted[s.results.length]? = some pl)
    (hfresh : transfersOf s.world (.worker (s.results.length + 1)) = [])
    (hq : s'.queue.pushed = s.queue.pushed) (hr : s'.results = s.results ++ [(pl, st)])
    (hw : s'.world = s.world) :
    Shows K s' r ∨ ∃ b r', (Relay.sys Payload CurlCode).next r b = some r' ∧ Shows K s' r' := by
  have hset' : s'.settled = s.results.length + 1 := by
    simp [settled, hr, hw, hfresh]
  have hout' : s'.outcome = s.outcome := by funext n; simp only [outcome, hw]
  have ht : s'.transfers = s.transfers := by simp only [transfers, hw]
  by_cases hf : transfersOf s.world (.worker s.results.length) = []
  · have hset : s.settled = s.results.length := by simp [settled, hf]
    have hlen : r.outcomes.length = s.results.length := h.length.trans hset
    obtain ⟨r', hs, hacc, hout, hwire⟩ := Relay.settle_eq none (by rw [hlen]; exact hnext)
    refine .inr ⟨.settle none, r', hs, ?_, ?_, ?_, ?_⟩
    · rw [hacc, h.accepted, hq]
    · rw [hout, h.outcomes, hset, hset', hout', List.range_succ, List.map_append]
      simp [outcome, hf]
    · rw [ht, hset', ← hset, List.range_succ, List.map_append]
      exact h.order.trans (List.sublist_append_left ..)
    · rw [ht, hwire]
      simpa using h.wire
  · have hset : s.settled = s.results.length + 1 := by simp [settled, hf]
    refine .inl ⟨?_, ?_, ?_, ?_⟩
    · rw [h.accepted, hq]
    · rw [h.outcomes, hset, hset', hout']
    · rw [ht, hset', ← hset]; exact h.order
    · rw [ht]; exact h.wire

omit [DecidableEq T] in
/-- A step of a client's call is no transfer of the worker. -/
theorem Shows.clientStep {c : C} {ch : Choice} {o : Op} {k : o.Res → Request Reply}
    {x : Option o.Res} {w : World (RequestId C)} (h : Shows K s r) (hl : mCurl < s.world.easyCount)
    (hs : handle (.client c) o s.world ch = some (x, w)) :
    Shows K { s with
      pool := ⟨w, Function.update s.pool.calls (.client c) (some (Pool.rest o k x))⟩ } r := by
  refine h.keep rfl rfl (fun n => ?_) ?_
  · exact (Others.of_step (K := False) (by simp) hs hl False.elim).1
  · show w.performs.filter _ = s.world.performs.filter _
    rcases (World.handle_effect hs).performs with e | ⟨h, chunks, code, -, e⟩
    · rw [e]
    · rw [e]; simp [World.performed, RequestId.isWorker]

/-- Each step leaves the relay alone, or is one of its steps. -/
theorem Shows.step {a : Act T C} (h : Shows K s r) (hreach : (wrapper T).Reach Sys.Any s.queue)
    (hl : mCurl < s.world.easyCount) (hc : Coupled K s) (hs : s.Step a s') :
    Shows K s' r ∨ ∃ b r', (Relay.sys Payload CurlCode).next r b = some r' ∧ Shows K s' r' := by
  have hqueue : ∀ {b q}, (wrapper T).next s.queue b = some q → ∀ {t}, t.queue = q →
      t.results = s.results → t.world = s.world → Shows K t r ∨
        ∃ b r', (Relay.sys Payload CurlCode).next r b = some r' ∧ Shows K t r' := by
    rintro b q hb t rfl hr hw
    rcases pushed_next hb with e | ⟨d, e⟩
    · refine .inl (h.keep e hr (fun n => by rw [hw]) ?_)
      simp only [transfers, hw]
    · exact .inr ⟨.accept d.payload, _, rfl, h.accept e hr hw⟩
  cases hs with
  | queue hq hn => exact hqueue hn rfl rfl rfl
  | startStore hn => exact hqueue hn rfl rfl rfl
  | dispatch hw hreq => exact hqueue (dispatch_next hw hreq) rfl rfl rfl
  | call => exact .inl (h.keep rfl rfl (fun _ => rfl) rfl)
  | @step i ch o k x w hcur hr =>
    cases i with
    | client c => exact .inl (h.clientStep hl hr)
    | worker n =>
      obtain ⟨rfl, pl, hrun, hd, hrg⟩ := hc.steps hcur
      rcases (Prog.rg_step hrg hr).1 with e | ⟨hf, p, e, hcall, -, hK⟩
      · refine .inl (h.keep rfl rfl (fun n => transfersOf_of_eq e _) ?_)
        show w.performs.filter _ = s.world.performs.filter _
        rw [e]
      · exact .inr (h.transfer (h.next hreach hd) hf e hcall hK rfl rfl)
  | @returns pl x hw hret =>
    cases hc.current with
    | resting hrest => exact absurd hw (hrest pl)
    | @sending pl' p hrun hd hp hrg =>
      obtain rfl : pl = pl' := by rw [hw] at hrun; cases hrun; rfl
      have hfresh : transfersOf s.world (.worker (s.results.length + 1)) = [] := by
        refine hc.fresh _ (hc.made _ ?_)
        rw [hd]; simp
      exact h.returns (h.next hreach hd) hfresh rfl rfl rfl

/-- The wrapper refines a relay of what is pushed. -/
theorem relays_reach {G : Service T C → Act T C → Prop} (hG : ∀ s a, G s a → K → s.Unmixed a)
    (h : (service T C).Reach G s) :
    ∃ r, (Relay.sys Payload CurlCode).Reach Sys.Any r ∧ Shows K s r := by
  refine h.sim (R := Shows K) ?_ ?_
  · rintro s ⟨hq, ⟨⟨hperf, -, -⟩, -⟩, hr⟩
    have hq' : s.queue = .init := hq
    refine ⟨.empty, rfl, ?_, ?_, ?_, ?_⟩
    · rw [hq']; rfl
    · simp [settled, hr, transfersOf, world, hperf, Relay.empty]
    · simp [transfers, world, hperf]
    · simp [transfers, world, hperf, Relay.wire, Relay.empty]
  · intro s a s' r hreach hg hn hr
    rcases hr.step (wrapper_reach hreach) (live_reach hreach) (coupled_reach hG hreach)
      (next_step hn) with hk | ⟨b, r', hb, hr'⟩
    · exact .inl hk
    · exact .inr ⟨b, r', trivial, hb, hr'⟩

/-! ## Main results -/

omit [DecidableEq T] in
/-- What was handed over first has returned. -/
theorem Coupled.names (h : Coupled K s) : s.results.map Prod.fst <+: s.queue.dispatched := by
  cases h.current with
  | resting _ hd => rw [hd]
  | sending _ hd => rw [hd]; exact List.prefix_append ..

/-- The payload of the run below. -/
def somePayload : Payload := ⟨.post, [97], some ⟨[123], .typeJson⟩⟩

/-- A client starts the wrapper and queues a POST. -/
def queued : List (Act Unit Bool) :=
  [.queue (.call () .start), .queue (.client ()), .queue (.client ()), .startStore () false,
    .step (.client false) .ok, .step (.client false) .ok, .queue (.client ()), .queue (.client ()),
    .queue (.call () (.data (.createDeviceData [97] ⟨[123], .typeJson⟩)))] ++
  List.replicate 4 (.queue (.client ()))

/-- The worker sends it; while its request runs, another thread makes a GET. -/
def relayed : List (Act Unit Bool) :=
  List.replicate 5 (.queue .worker) ++ [.dispatch] ++
  List.replicate 5 (.step (.worker 0) .ok) ++ [.call true (.getDeviceData [99])] ++
  List.replicate 3 (.step (.client true) .ok) ++ List.replicate 7 (.step (.worker 0) .ok) ++
  [.step (.worker 0) (.transfer [[100]] .ok), .step (.worker 0) .ok, .returns]

/-- A wrapper on which no call was made. -/
def start (T C : Type) : Service T C := ⟨.init, noCalls C, fun _ => none, []⟩

theorem start_init : (service T C).init (start T C) := ⟨rfl, requests_init C, rfl⟩

/-- The second payload of the run below. -/
def otherPayload : Payload := ⟨.put, [98], some ⟨[125, 125], .typeWwwForm⟩⟩

/-- A POST and a PUT are queued; the transfer of the PUT fails. -/
def relayedTwo : List (Act Unit Bool) :=
  queued ++ [.queue (.call () (.data (.updateDeviceData [98] ⟨[125, 125], .typeWwwForm⟩)))] ++
  List.replicate 4 (.queue (.client ())) ++ relayed ++ List.replicate 6 (.queue .worker) ++
  [.dispatch] ++ List.replicate 12 (.step (.worker 1) .ok) ++
  [.step (.worker 1) (.transfer [] (.error 7)), .step (.worker 1) .ok, .returns]

/-- What the two transfers of the run send, and how they end. -/
def sentTwo : List (RequestId Bool × SentRequest × CurlCode) :=
  [(.worker 0, ⟨some (.text [97]), some (.text (str "POST")), some (.long 1), some (.text [123]),
      [str "cache-control: no-cache", str "public_key: ", str "sstm: MA==",
        str "token: 5feceb66ffc86f38d952786c6d696c79c2dbc239dd4e91b46729d73a27fb57e9",
        str "content-type: application/json"]⟩, .ok),
    (.worker 1, ⟨some (.text [98]), some (.text (str "PUT")), some (.long 2),
      some (.text [125, 125]),
      [str "cache-control: no-cache", str "public_key: ", str "sstm: MA==",
        str "token: 5feceb66ffc86f38d952786c6d696c79c2dbc239dd4e91b46729d73a27fb57e9",
        str "content-type: application/x-www-form-urlencoded"]⟩, .error 7)]

/-- The run ends with a POST and a PUT that have returned, without a poll on the way. -/
theorem relayedTwo_reach : ∃ s : Service Unit Bool, (service Unit Bool).Reach Unpolled s ∧
    s.results = [(somePayload, .success), (otherPayload, .failure)] ∧
      s.transfers.map (fun p => (p.call, sentRequest p, p.code)) = sentTwo := by
  obtain ⟨s, hreach, hobs⟩ := Sys.Reach.observe_along (S := service Unit Bool) (G := Unpolled)
    (fun s => (s.results, s.transfers.map fun p => (p.call, sentRequest p, p.code))) relayedTwo
    start_init (b := ([(somePayload, .success), (otherPayload, .failure)], sentTwo))
    (Sys.along_of_labels (P := fun a => Unpolled (start Unit Bool) a) (fun _ _ h => h) (by decide))
    (by decide +kernel)
  obtain ⟨hres, htr⟩ := Prod.mk.inj hobs
  exact ⟨s, hreach, hres, htr⟩

omit [DecidableEq C] in
/-- What was handed over is what was pushed first. -/
theorem dispatched_pushed {q : St T} (h : (wrapper T).Reach Sys.Any q) :
    q.dispatched <+: q.pushed.map DataCall.payload := by
  obtain ⟨c, -, hcar⟩ := St.carries_reach h
  rw [← hcar.taken_queue, St.taken]
  exact (List.prefix_append ..).trans (List.prefix_append ..)

omit [DecidableEq C] in
/-- The `n`-th payload that was handed over is the one of the `n`-th push. -/
theorem pushed_of_dispatched {q : St T} {n : Nat} {pl : Payload}
    (h : (wrapper T).Reach Sys.Any q) (e : q.dispatched[n]? = some pl) :
    ∃ d, q.pushed[n]? = some d ∧ d.payload = pl := by
  obtain ⟨rest, hrest⟩ := dispatched_pushed h
  have hget : (q.pushed.map DataCall.payload)[n]? = some pl := by
    rw [← hrest, List.getElem?_append_left (List.getElem?_eq_some_iff.mp e).1]
    exact e
  rwa [List.getElem?_map, Option.map_eq_some_iff] at hget

omit [DecidableEq T] in
/-- At most one transfer for each payload, in the order of the pushes. -/
theorem Shows.calls (h : Shows K s r) : (s.transfers.map (·.call)).Sublist
    ((List.range r.accepted.length).map RequestId.worker) := by
  refine h.order.trans (List.Sublist.map _ (List.range_sublist.mpr ?_))
  rw [← h.length]
  exact r.within

omit [DecidableEq T] in
/-- A transfer of the worker's `n`-th request settles and delivers the `n`-th payload. -/
theorem Shows.of_call {p : Performed (RequestId C)} {n : Nat} (h : Shows K s r)
    (hc : Coupled K s) (hp : p ∈ s.transfers) (hn : p.call = .worker n) :
    r.outcomes[n]? = some (some p.code) ∧
      ∃ pl, s.queue.dispatched[n]? = some pl ∧ Delivers K pl p := by
  have hof : p ∈ transfersOf s.world (.worker n) :=
    List.mem_filter.mpr ⟨(List.mem_filter.mp hp).1, decide_eq_true hn⟩
  have hlt : n < s.settled := by
    have hmem := h.order.subset (List.mem_map_of_mem hp)
    simpa [hn] using hmem
  have hdis : n < s.queue.dispatched.length := by
    by_contra hge
    rw [hc.fresh n (hc.made n (Nat.le_of_not_lt hge))] at hof
    cases hof
  constructor
  · obtain ⟨q, hone⟩ := List.length_eq_one_iff.mp
      (Nat.le_antisymm (hc.once n) (List.length_pos_of_mem hof))
    rw [hone] at hof
    obtain rfl := List.mem_singleton.mp hof
    rw [h.outcomes]
    simp [hlt, outcome, hone]
  · have hget := List.getElem?_eq_getElem hdis
    exact ⟨_, hget, hc.delivers n _ hget p hof⟩

omit [DecidableEq T] in
/-- A payload that was settled with a code has a transfer with this code. -/
theorem Shows.of_outcome {n : Nat} {code : CurlCode} (h : Shows K s r)
    (ho : r.outcomes[n]? = some (some code)) :
    ∃ p ∈ s.transfers, p.call = .worker n ∧ p.code = code := by
  rw [h.outcomes, List.getElem?_map, Option.map_eq_some_iff] at ho
  obtain ⟨m, hm, ho⟩ := ho
  obtain ⟨hlt, hm⟩ := List.getElem?_eq_some_iff.mp hm
  obtain rfl : n = m := (List.getElem_range hlt).symm.trans hm
  obtain ⟨p, hp, rfl⟩ := Option.map_eq_some_iff.mp ho
  obtain ⟨hmem, hcall⟩ := List.mem_filter.mp (List.mem_of_mem_head? hp)
  have hcall' : p.call = .worker n := of_decide_eq_true hcall
  exact ⟨p, List.mem_filter.mpr ⟨hmem, by rw [hcall']; rfl⟩, hcall', rfl⟩

/-- The relay is what the wrapper does. The worker's `n`-th request is the one for the `n`-th
payload that was pushed. -/
structure Relays (s : Service T C) (r : Relay Payload CurlCode) : Prop where
  accepted : r.accepted = s.queue.pushed.map DataCall.payload
  /-- At most one transfer for each payload, in the order of the pushes. -/
  order : (s.transfers.map (·.call)).Sublist ((List.range r.accepted.length).map RequestId.worker)
  /-- A transfer settles the payload of its request, and takes what it sends from this payload, up
  to options that other calls have set. -/
  transfer : ∀ p ∈ s.transfers, ∀ n, p.call = .worker n →
    ∃ pl, r.accepted[n]? = some pl ∧ r.outcomes[n]? = some (some p.code) ∧ ConveysOwn p pl
  outcome : ∀ n code, r.outcomes[n]? = some (some code) →
    ∃ p ∈ s.transfers, p.call = .worker n ∧ p.code = code
  wire : r.wire.map Prod.snd = s.transfers.map (·.code)
  /-- What `Post` and `Put` returned. -/
  results : ∀ (n : Nat) (pl : Payload) (st : HttpStatus), s.results[n]? = some (pl, st) →
    r.accepted[n]? = some pl ∧ ∃ o : Option CurlCode,
      r.outcomes[n]? = some o ∧ (st = .success ↔ o = some .ok)

omit [DecidableEq T] in
/-- What a request has returned says how its payload was settled. -/
theorem Shows.of_result {n : Nat} {pl : Payload} {st : HttpStatus} (h : Shows K s r)
    (hc : Coupled K s) (e : s.results[n]? = some (pl, st)) :
    ∃ o : Option CurlCode, r.outcomes[n]? = some o ∧ (st = .success ↔ o = some .ok) := by
  obtain ⟨-, hrep⟩ := hc.ended n pl st e
  have hlt : n < s.settled := by
    obtain ⟨hlt, -⟩ := List.getElem?_eq_some_iff.mp e
    exact Nat.lt_of_lt_of_le hlt (Nat.le_add_right ..)
  refine ⟨s.outcome n, ?_, ?_⟩
  · rw [h.outcomes]
    simp [hlt]
  · have honce := hc.once n
    rw [Reports] at hrep
    rw [hrep, Service.outcome]
    match hp : transfersOf s.world (.worker n) with
    | [] => simp
    | [p] => simp
    | p :: q :: ps => rw [hp] at honce; simp at honce

omit [DecidableEq T] in
/-- The payloads of the results are those that were handed over. -/
theorem Coupled.name {n : Nat} {pl : Payload} {st : HttpStatus} (h : Coupled K s)
    (e : s.results[n]? = some (pl, st)) : s.queue.dispatched[n]? = some pl := by
  obtain ⟨rest, hrest⟩ := h.names
  obtain ⟨hlt, hget⟩ := List.getElem?_eq_some_iff.mp e
  rw [← hrest, List.getElem?_append_left (by simpa using hlt)]
  simp [hget, hlt]

/-- **Order.** In every run, the wrapper is a relay of what is pushed: each payload is transferred
at most once, in the order of the pushes, by the request of the worker that was made for it. What
`Post` and `Put` returned is `SUCCESS` for exactly the payloads whose transfer ended well. -/
theorem settled_in_order (h : (service T C).Reach Sys.Any s) :
    ∃ r, (Relay.sys Payload CurlCode).Reach Sys.Any r ∧ Relays s r := by
  have hc : Coupled False s := coupled_reach (fun _ _ _ => False.elim) h
  obtain ⟨r, hr, hshow⟩ := relays_reach (K := False) (fun _ _ _ => False.elim) h
  have hget : ∀ {n : Nat} {pl : Payload}, s.queue.dispatched[n]? = some pl →
      r.accepted[n]? = some pl := by
    intro n pl e
    obtain ⟨d, hd, rfl⟩ := pushed_of_dispatched (wrapper_reach h) e
    rw [hshow.accepted, List.getElem?_map, hd]
    rfl
  refine ⟨r, hr, hshow.accepted, hshow.calls, fun p hp n hn => ?_,
    fun _ _ ho => hshow.of_outcome ho, ?_,
    fun n pl st e => ⟨hget (hc.name e), hshow.of_result hc e⟩⟩
  · obtain ⟨hout, pl, hpl, hdel⟩ := hshow.of_call hc hp hn
    exact ⟨pl, hget hpl, hout, hdel.1⟩
  · have hcodes : List.Forall₂ (· = ·) (s.transfers.map (·.code)) (r.wire.map Prod.snd) := by
      rw [List.forall₂_map_left_iff, List.forall₂_map_right_iff]
      exact hshow.wire.imp fun p m hm => hm.1
    exact (List.forall₂_eq_eq_eq ▸ hcodes).symm

/-- The POST and the PUT are settled by their own requests, the second one with an error. -/
theorem settled_in_order_two :
    ∃ (s : Service Unit Bool) (r : Relay Payload CurlCode), Relays s r ∧
      s.results = [(somePayload, .success), (otherPayload, .failure)] ∧
      s.transfers.map (fun p => (p.call, sentRequest p, p.code)) = sentTwo ∧
      r.outcomes[0]? = some (some .ok) ∧ r.outcomes[1]? = some (some (.error 7)) := by
  obtain ⟨s, hreach, hres, htr⟩ := relayedTwo_reach
  obtain ⟨r, -, hrel⟩ := settled_in_order (hreach.mono fun _ _ _ _ => trivial)
  obtain ⟨p, ps, hps, hp, hrest⟩ := List.map_eq_cons_iff.mp htr
  obtain ⟨q, qs, rfl, hq, -⟩ := List.map_eq_cons_iff.mp hrest
  obtain ⟨-, -, hp₀, -⟩ := hrel.transfer p (by simp [hps]) 0 (congrArg Prod.fst hp)
  obtain ⟨-, -, hq₁, -⟩ := hrel.transfer q (by simp [hps]) 1 (congrArg Prod.fst hq)
  have hok : p.code = .ok := congrArg (fun x => x.2.2) hp
  have herror : q.code = .error 7 := congrArg (fun x => x.2.2) hq
  exact ⟨s, r, hrel, hres, htr, by rw [hp₀, hok], by rw [hq₁, herror]⟩

end Service

end LibRest
