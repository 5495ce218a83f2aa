import LibRest.Facade

/-!
# The destruction of a facade

- **Tear-down** (`Stuck`). The join waits for a worker that is parked for good. This happens when
  `Shutdown` stores `false` before the worker has passed its first wait, and only then: that wait
  accepts only `true`, while the second wait accepts `false` as well.
- **Accepted requests** (`Kept`). The loop ends when it reads `false`, whatever is queued. What the
  worker had taken out of the queue it hands over; the rest stays in the queue.
-/

namespace LibRest

open Lib

namespace RestAPIFacade.Facade

variable {C : Type} [DecidableEq C] {s s' : Facade C}

/-! ## Tear-down -/

/-- The join waits for a worker that is parked, has no notification, and finds its predicate
false. -/
def Stuck (s : Facade C) : Prop :=
  s.phase = .joining ∧
    ((s.wrapper.worker = .readyParked false ∧ s.wrapper.mActive = false) ∨
      (s.wrapper.worker = .dataParked false ∧
        ¬ (s.wrapper.mHttpDataQueue ≠ [] ∨ s.wrapper.mActive = false)))

/-- If the step is the store of `Shutdown`, the worker has passed its first wait. -/
def StopsLate (s : Facade C) (a : FacadeAct C) : Prop :=
  a = .owner → s.wrapper.client none = .stopStore → s.wrapper.worker.waitsReady = false

instance (s : Facade C) (a : FacadeAct C) : Decidable (StopsLate s a) := by
  unfold StopsLate; infer_instance

/-- The destructor has started. -/
def Phase.closing : Phase → Bool
  | .stopping | .joining | .destroyed => true
  | _ => false

/-- After the store of `Shutdown`, the worker has passed its first wait. -/
def Late (s : Facade C) : Prop :=
  Phase.closing s.phase = true → s.wrapper.mActive = false → s.wrapper.worker.waitsReady = false

omit [DecidableEq C] in
/-- From the end of `Start` to the store of `Shutdown`, `mActive` is true. -/
theorem Paced.opened (h : s.Paced) (hp : s.phase = .opened) (hc : s.wrapper.client none = .idle) :
    s.wrapper.mActive = true := by
  obtain ⟨st, hst, hf⟩ := h.stage
  simp only [Facade.stage, hp, hc, stageOf, Option.some.injEq] at hst
  subst hst; exact hf.1

omit [DecidableEq C] in
theorem Paced.joining (h : s.Paced) (hp : s.phase = .joining) : s.wrapper.mActive = false := by
  obtain ⟨st, hst, hf⟩ := h.stage
  cases hc : s.wrapper.client none <;> simp_all [Facade.stage, stageOf]
  subst hst; exact hf

theorem Phase.closing_afterCall {ph : Phase} {b : Prop} [Decidable b]
    (h : Phase.closing (if b then ph.afterCall else ph) = true) : Phase.closing ph = true := by
  by_cases hb : b
  · rw [if_pos hb] at h; cases ph <;> first | rfl | cases h
  · rwa [if_neg hb] at h

/-- A step of the owner after which `Shutdown` has stored `false`. -/
theorem owner_closing {w : St (Option C)} (hw : s.wrapper.ClientStep none w)
    (hcl : Phase.closing (if w.client none = .idle then s.phase.afterCall else s.phase) = true)
    (ha : w.mActive = false) :
    s.wrapper.client none = .stopStore ∨
      (Phase.closing s.phase = true ∧ s.wrapper.mActive = false) := by
  rcases hw.frame.2 with e | ⟨-, e⟩ | ⟨hc, -⟩
  · exact .inr ⟨Phase.closing_afterCall hcl, e.symm.trans ha⟩
  · rw [ha] at e; cases e
  · exact .inl hc

theorem Late.step {a : FacadeAct C} (hp : s.Paced) (hg : StopsLate s a) (h : s.Late)
    (hs : s.Step a s') : s'.Late := by
  intro hcl ha
  cases hs with
  | construct => cases hcl
  | destruct hph hc =>
    have hact := hp.opened hph hc
    rw [show s.wrapper.mActive = false from ha] at hact
    cases hact
  | @owner w hne hw =>
    have hr : w.worker.waitsReady = s.wrapper.worker.waitsReady := by
      rcases hw.frame.1 with e | e <;> simp [e]
    show w.worker.waitsReady = false
    rcases owner_closing hw hcl ha with hc | ⟨hcl', ha'⟩
    · rw [hr]; exact hg rfl hc
    · rw [hr]; exact h hcl' ha'
  | join hph => exact h (by rw [hph]; rfl) ha
  | worker hw => exact hw.pastReady (h hcl (hw.frame.1.symm.trans ha))
  | call => exact h hcl ha
  | @client _ c w hne hw =>
    obtain ⟨hact, hwk, -⟩ := queues_step (hp.clients c) hne hw
    have hlate := h hcl (hact.symm.trans ha)
    show w.worker.waitsReady = false
    rcases hwk with e | e <;> simp [e, hlate]

theorem late_reach (h : (facade C).Reach StopsLate s) : s.Late :=
  h.inv (fun s hs => by subst hs; exact nofun) fun _ _ _ hr hg hn hi =>
    hi.step (paced_reach hr) hg (next_step hn)

/-- A `Shutdown` that stores `false` before the worker has passed its first wait: the worker reads
`false` there, and parks for good. -/
theorem stuck_of_early (h : (facade C).Reach Sys.Any s)
    (hc : s.wrapper.client none = .stopStore) (hw : s.wrapper.worker.waitsReady = true) :
    ∃ s', (facade C).run s (List.replicate 3 .owner ++ List.replicate 3 .worker) = some s' ∧
      s'.Stuck := by
  obtain ⟨st, hst, -⟩ := (paced_reach h).stage
  have hp : s.phase = .stopping := ((stageOf_stop hst).1 (by simp [hc])).1
  have hout := (St.locked_reach (wrapper_reach h)).worker_out (t := none) (by rw [hc]; rfl)
  have hn : s.wrapper.worker.notify = .readyLock ∨ s.wrapper.worker.notify = .readyParked true := by
    cases hwk : s.wrapper.worker <;> rw [hwk] at hw hout <;>
      first | exact .inl rfl | exact .inr rfl | (cases hw; done) | cases hout
  have hrun : ((facade C).run s (List.replicate 3 .owner ++ List.replicate 3 .worker)).map
      (fun s => (s.phase, s.wrapper.worker, s.wrapper.mActive)) =
        some (.joining, .readyParked false, false) := by
    rcases hn with hn | hn <;>
      simp [List.replicate, Sys.run, facade, ownerNext, Facade.lift, St.clientNext, hc, hp,
        St.notifyOne, St.clientUnlock, hn, Phase.afterCall, St.workerNext, St.workerLock,
        St.workerUnlock, St.goto]
  obtain ⟨s', hr, hobs⟩ := Option.map_eq_some_iff.mp hrun
  simp only [Prod.mk.injEq] at hobs
  exact ⟨s', hr, hobs.1, .inl hobs.2⟩

/-- **Tear-down.** No run in which `Shutdown` stores `false` after the worker has passed its first
wait has a stuck join. Every other run can go on to a stuck join from that store. -/
theorem tear_down_joins (C : Type) [DecidableEq C] :
    (∀ s, (facade C).Reach StopsLate s → ¬ s.Stuck) ∧
    (∀ s : Facade C, (facade C).Reach Sys.Any s → ¬ StopsLate s .owner →
      ∃ as s', (facade C).run s as = some s' ∧ s'.Stuck) := by
  constructor
  · rintro s h ⟨hp, hs⟩
    have ha := (paced_reach h).joining hp
    have hl := late_reach h (by rw [hp]; rfl) ha
    rcases hs with ⟨hw, -⟩ | ⟨-, hne⟩
    · rw [hw] at hl; cases hl
    · exact hne (.inr ha)
  · intro s h hg
    simp only [StopsLate, true_imp_iff, Classical.not_imp, Bool.not_eq_false] at hg
    obtain ⟨s', hr, hs⟩ := stuck_of_early h hg.1 hg.2
    exact ⟨_, s', hr, hs⟩

/-- A facade that is constructed, and destroyed after the worker has entered its loop. -/
def lateStop : List (FacadeAct Unit) :=
  .construct :: List.replicate 5 .owner ++ List.replicate 2 .worker ++
    .destruct :: List.replicate 5 .owner

/-- A facade that is constructed, and destroyed before the worker has taken a step. -/
def earlyStop : List (FacadeAct Unit) :=
  .construct :: List.replicate 5 .owner ++ .destruct :: List.replicate 2 .owner

/-- Both parts at a run: the join after `lateStop` is not stuck; `earlyStop` can go on to one that
is. -/
theorem tear_down_joins_unit :
    (∃ s, (facade Unit).run ⟨.init, .created, [], none⟩ lateStop = some s ∧ ¬ s.Stuck) ∧
    (∃ s as s', (facade Unit).run ⟨.init, .created, [], none⟩ earlyStop = some s ∧
      (facade Unit).run s as = some s' ∧ s'.Stuck) := by
  constructor
  · have hr := (Option.some_get (show ((facade Unit).run ⟨.init, .created, [], none⟩
      lateStop).isSome = true by decide)).symm
    exact ⟨_, hr, (tear_down_joins Unit).1 _ (Sys.Reach.along (.init rfl) (by decide) hr)⟩
  · obtain ⟨s, hr, hobs⟩ := Option.map_eq_some_iff.mp (show ((facade Unit).run
      ⟨.init, .created, [], none⟩ earlyStop).map (fun s => decide (StopsLate s .owner)) =
        some false by decide)
    obtain ⟨as, s', h⟩ := (tear_down_joins Unit).2 s (Sys.Reach.run (.init rfl) hr)
      (of_decide_eq_false hobs)
    exact ⟨s, as, s', hr, h⟩

/-- `Start` and `Shutdown` are over before the worker evaluates its first predicate; then it parks,
and the join waits for it. -/
theorem tear_down_deadlock :
    ∃ s : Facade Unit, (facade Unit).Reach Sys.Any s ∧ s.Stuck := by
  obtain ⟨s, hr, hs⟩ := Sys.Reach.observe (S := facade Unit)
    (b := (.joining, .readyParked false, false))
    (fun s => (s.phase, s.wrapper.worker, s.wrapper.mActive))
    (earlyStop ++ List.replicate 3 .owner ++ List.replicate 3 .worker) rfl (by decide)
  simp only [Prod.mk.injEq] at hs
  exact ⟨s, hr, hs.1, .inl hs.2⟩

/-! ## Accepted requests -/

/-- When the worker has terminated, every accepted request is handed over. -/
def NoneAbandoned (s : Facade C) : Prop :=
  s.wrapper.worker = .done →
    s.accepted.map DataCall.payload <+: s.wrapper.dispatched

/-- What the worker had taken when `Shutdown` stored `false`, it hands over. -/
structure Kept (s : Facade C) : Prop where
  accepted : s.accepted <+: s.wrapper.pushed
  stop : Phase.closing s.phase = true → s.wrapper.mActive = false →
    ∃ p q tk, s.atStop = some (p, q) ∧ s.accepted <+: p ∧ p.map DataCall.payload = tk ++ q ∧
      tk <+: s.wrapper.taken

omit [DecidableEq C] in
theorem Kept.mono {w : St (Option C)} (h : s.Kept) (hp : s.wrapper.pushed <+: w.pushed)
    (ht : s.wrapper.taken <+: w.taken) (ha : w.mActive = s.wrapper.mActive) :
    Kept { s with wrapper := w } := by
  refine ⟨h.accepted.trans hp, fun hcl ha' => ?_⟩
  obtain ⟨p, q, tk, hst, hacc, hpq, htk⟩ := h.stop hcl (ha.symm.trans ha')
  exact ⟨p, q, tk, hst, hacc, hpq, htk.trans ht⟩

theorem Kept.step {a : FacadeAct C} (hr : (LibRest.wrapper (Option C)).Reach Sys.Any s.wrapper)
    (hp : s.Paced) (h : s.Kept) (hs : s.Step a s') : s'.Kept := by
  obtain ⟨c, -, hc⟩ := St.carries_reach hr
  cases hs with
  | construct => exact ⟨h.accepted, nofun⟩
  | destruct hph hcl =>
    refine ⟨List.prefix_rfl, fun _ ha => ?_⟩
    have hact := hp.opened hph hcl
    rw [show s.wrapper.mActive = false from ha] at hact
    cases hact
  | @owner w hne hw =>
    obtain ⟨ht, hpush⟩ := hw.taken
    refine ⟨h.accepted.trans hpush, fun hcl ha => ?_⟩
    by_cases hstop : s.wrapper.client none = .stopStore
    · refine ⟨s.wrapper.pushed, s.wrapper.mHttpDataQueue, s.wrapper.taken, if_pos hstop,
        h.accepted, hc.taken_queue.symm, ?_⟩
      show s.wrapper.taken <+: w.taken
      rw [ht]
    · obtain ⟨hcl', ha'⟩ := (owner_closing hw hcl ha).resolve_left hstop
      obtain ⟨p, q, tk, hst, hacc, hpq, htk⟩ := h.stop hcl' ha'
      refine ⟨p, q, tk, (if_neg hstop).trans hst, hacc, hpq, ?_⟩
      show tk <+: w.taken
      rw [ht]; exact htk
  | join hph => exact ⟨h.accepted, fun _ => h.stop (by rw [hph]; rfl)⟩
  | worker hw =>
    obtain ⟨ha, -, hpush⟩ := hw.frame
    exact h.mono (by rw [hpush]) (hc.taken_worker hw) ha
  | call => exact h.mono List.prefix_rfl List.prefix_rfl rfl
  | @client _ c w hne hw =>
    obtain ⟨ht, hpush⟩ := hw.taken
    exact h.mono hpush (by rw [ht]) (queues_step (hp.clients c) hne hw).1

theorem kept_reach {G : Facade C → FacadeAct C → Prop} (h : (facade C).Reach G s) : s.Kept :=
  h.inv (fun s hs => by subst hs; exact ⟨List.prefix_rfl, nofun⟩) fun _ _ _ hr _ hn hi =>
    hi.step (wrapper_reach hr) (paced_reach hr) (next_step hn)

omit [DecidableEq C] in
/-- The worker has terminated only after the store of `Shutdown`. -/
theorem Paced.done (h : s.Paced) (hd : s.wrapper.worker = .done) :
    Phase.closing s.phase = true ∧ s.wrapper.mActive = false := by
  obtain ⟨st, hst, hf⟩ := h.stage
  cases st with
  | before =>
    have hr := hf.2
    rw [hd] at hr
    cases hr
  | active => exact absurd hd hf.2
  | after =>
    refine ⟨?_, hf⟩
    cases hp : s.phase <;> cases hc : s.wrapper.client none <;>
      simp_all [Facade.stage, stageOf, Phase.closing]

/-- **Accepted requests.** When the worker has terminated, what was pushed is handed over or still
queued, in order. What was no longer queued when `Shutdown` stored `false` is handed over; if
nothing was queued then, every accepted request is. -/
theorem shutdown_hands_over_taken (h : (facade C).Reach Sys.Any s)
    (hd : s.wrapper.worker = .done) :
    s.wrapper.dispatched ++ s.wrapper.mHttpDataQueue = s.wrapper.pushed.map DataCall.payload ∧
    ∃ p q tk, s.atStop = some (p, q) ∧ s.accepted <+: p ∧ p.map DataCall.payload = tk ++ q ∧
      tk <+: s.wrapper.dispatched ∧
      (q = [] → s.accepted.map DataCall.payload <+: s.wrapper.dispatched) := by
  obtain ⟨c, -, hc⟩ := St.carries_reach (wrapper_reach h)
  obtain ⟨hcl, ha⟩ := (paced_reach h).done hd
  obtain ⟨p, q, tk, hst, hacc, hpq, htk⟩ := (kept_reach h).stop hcl ha
  have htaken : s.wrapper.taken = s.wrapper.dispatched := by
    simp [St.taken, hd, WorkerPc.popped]
  rw [htaken] at htk
  refine ⟨htaken ▸ hc.taken_queue, p, q, tk, hst, hacc, hpq, htk, fun hq => ?_⟩
  rw [hq, List.append_nil] at hpq
  exact (hacc.map DataCall.payload).trans (hpq ▸ htk)

/-- Two requests are accepted, and the worker has popped the first one when `Shutdown` stores
`false`. -/
def stopWithTaken : List (FacadeAct Unit) :=
  .construct :: List.replicate 5 .owner ++
    .call () (.createDeviceData [97] ⟨[123], .typeJson⟩) :: List.replicate 4 (.client ()) ++
    List.replicate 5 .worker ++
    .call () (.updateDeviceData [98] ⟨[125], .typeJson⟩) :: List.replicate 4 (.client ()) ++
    .destruct :: List.replicate 5 .owner ++ .worker :: .workerReturns .success ::
    List.replicate 4 .worker

theorem shutdown_hands_over_taken_unit :
    ∃ s : Facade Unit, s.wrapper.worker = .done ∧
      s.wrapper.dispatched = [⟨.post, [97], some ⟨[123], .typeJson⟩⟩] ∧
      s.atStop = some (s.wrapper.pushed, [⟨.put, [98], some ⟨[125], .typeJson⟩⟩]) ∧
      s.wrapper.dispatched ++ s.wrapper.mHttpDataQueue = s.wrapper.pushed.map DataCall.payload ∧
      ∃ p q tk, s.atStop = some (p, q) ∧ s.accepted <+: p ∧ p.map DataCall.payload = tk ++ q ∧
        tk <+: s.wrapper.dispatched ∧
        (q = [] → s.accepted.map DataCall.payload <+: s.wrapper.dispatched) := by
  obtain ⟨s, hr, hs⟩ := Sys.Reach.observe (S := facade Unit)
    (b := (.done, [⟨.post, [97], some ⟨[123], .typeJson⟩⟩], true))
    (fun s => (s.wrapper.worker, s.wrapper.dispatched,
      decide (s.atStop = some (s.wrapper.pushed, [⟨.put, [98], some ⟨[125], .typeJson⟩⟩]))))
    stopWithTaken rfl (by decide)
  simp only [Prod.mk.injEq, decide_eq_true_eq] at hs
  obtain ⟨hw, hd, hst⟩ := hs
  exact ⟨s, hw, hd, hst, shutdown_hands_over_taken hr hw⟩

/-- A request is accepted; `Shutdown` stores `false` while the worker is at its loop test. -/
def stopWithRequest : List (FacadeAct Unit) :=
  .construct :: List.replicate 5 .owner ++
    .call () (.createDeviceData [97] ⟨[123], .typeJson⟩) :: List.replicate 4 (.client ()) ++
    List.replicate 2 .worker ++ .destruct :: List.replicate 5 .owner ++ [.worker]

/-- The worker leaves its loop with an accepted request in the queue. -/
theorem shutdown_abandons_queued :
    ∃ s : Facade Unit, (facade Unit).Reach Sys.Any s ∧ ¬ s.NoneAbandoned ∧
      s.wrapper.returned = [(.createDeviceData [97] ⟨[123], .typeJson⟩, .success)] := by
  obtain ⟨s, hr, hs⟩ := Sys.Reach.observe (S := facade Unit)
    (b := (.done, [.createDeviceData [97] ⟨[123], .typeJson⟩], [],
      [(.createDeviceData [97] ⟨[123], .typeJson⟩, .success)]))
    (fun s => (s.wrapper.worker, s.accepted, s.wrapper.dispatched, s.wrapper.returned))
    stopWithRequest rfl (by decide)
  simp only [Prod.mk.injEq] at hs
  obtain ⟨hw, hacc, hd, hret⟩ := hs
  refine ⟨s, hr, fun hn => ?_, hret⟩
  have hpre := hn hw
  rw [hacc, hd] at hpre
  exact absurd (List.prefix_nil.mp hpre) (by simp)

end RestAPIFacade.Facade

end LibRest
