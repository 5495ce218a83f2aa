import LibRest.Restart

/-!
# The life of a facade

`RestAPIFacade` (`RestAPIFacade.cpp`): its constructor makes a wrapper and calls `Start`; clients
call `CreateDeviceData` and `UpdateDeviceData`; its destructor calls `Shutdown`, and then the
wrapper's destructor joins the worker.

- **The owner** is the thread that constructs and destroys the facade; it is client `none` of the
  wrapper. The other clients `some c` only queue requests, while the facade is open. A run of the
  facade is a run of the wrapper (`wrapper_reach`).
- **The phases** (`Paced`). The phase, the owner's place in its call and `mActive` go together, so
  that `mActive` is false exactly before the store of `Start` and after the store of `Shutdown`.
-/

namespace LibRest

open Lib

namespace RestAPIFacade

/-- Where the owner is in the life of the facade. -/
inductive Phase where
  /-- The wrapper is constructed. -/
  | created
  /-- The constructor is in `Start`. -/
  | starting
  | opened
  /-- The destructor is in `Shutdown`. -/
  | stopping
  /-- `~CurlHttpWrapper` is in `mHttpThread.join()`. -/
  | joining
  | destroyed
  deriving DecidableEq, Repr

/-- A facade, and its clients `C`. `accepted` records what was pushed when the destructor started,
`atStop` what was pushed and what was queued when `Shutdown` stored `false`. -/
structure Facade (C : Type) where
  wrapper : St (Option C)
  phase : Phase
  accepted : List DataCall
  atStop : Option (List DataCall × List Payload)

inductive FacadeAct (C : Type) where
  /-- The constructor calls `Start`, the destructor calls `Shutdown`. -/
  | construct
  | destruct
  /-- The owner takes a step of its call. -/
  | owner
  | join
  | worker
  | workerReturns (status : HttpStatus)
  | call (c : C) (d : DataCall)
  | client (c : C)
  | clientThrows (c : C)
  deriving DecidableEq, Repr

/-- A returned call of the owner ends the constructor, or takes the destructor to the join. -/
def Phase.afterCall : Phase → Phase
  | .starting => .opened
  | .stopping => .joining
  | ph => ph

namespace Facade

variable {C : Type}

/-- The wrapper goes on, and the owner does not. -/
def lift (s : Facade C) (w : Option (St (Option C))) : Option (Facade C) :=
  w.map fun w => { s with wrapper := w }

/-- What `Shutdown` finds when it stores `false`. -/
def stopSeen (s : Facade C) : Option (List DataCall × List Payload) :=
  if s.wrapper.client none = .stopStore then some (s.wrapper.pushed, s.wrapper.mHttpDataQueue)
  else s.atStop

variable [DecidableEq C]

/-- The owner takes a step of its call. -/
def ownerNext (s : Facade C) : Option (Facade C) :=
  (s.wrapper.clientNext none).map fun w =>
    { s with
      wrapper := w
      phase := if w.client none = .idle then s.phase.afterCall else s.phase
      atStop := s.stopSeen }

end Facade

open Facade

/-- The runs of a facade. -/
def facade (C : Type) [DecidableEq C] : Sys (Facade C) (FacadeAct C) where
  init s := s = ⟨.init, .created, [], none⟩
  next s
    | .construct =>
      if s.phase = .created then
        ({ s with phase := .starting } : Facade C).lift (s.wrapper.callNext none .start)
      else none
    | .destruct =>
      if s.phase = .opened then
        ({ s with phase := .stopping, accepted := s.wrapper.pushed } : Facade C).lift
          (s.wrapper.callNext none .shutdown)
      else none
    | .owner => s.ownerNext
    | .join =>
      if s.phase = .joining ∧ s.wrapper.worker = .done then some { s with phase := .destroyed }
      else none
    | .worker => s.lift s.wrapper.workerNext
    | .workerReturns status => s.lift (s.wrapper.workerReturns status)
    | .call c d =>
      if s.phase = .opened then s.lift (s.wrapper.callNext (some c) (.data d)) else none
    | .client c => s.lift (s.wrapper.clientNext (some c))
    | .clientThrows c => s.lift (s.wrapper.clientThrows (some c))

namespace Facade

variable {C : Type} [DecidableEq C] {s s' : Facade C}

/-! ## What a step can do -/

/-- The steps of a facade. -/
inductive Step (s : Facade C) : FacadeAct C → Facade C → Prop where
  | construct : s.phase = .created → s.wrapper.client none = .idle →
      Step s .construct { s with wrapper := s.wrapper.goto none .startTest, phase := .starting }
  | destruct : s.phase = .opened → s.wrapper.client none = .idle →
      Step s .destruct { s with
        wrapper := s.wrapper.goto none .stopTest
        phase := .stopping
        accepted := s.wrapper.pushed }
  | owner {w : St (Option C)} : s.wrapper.client none ≠ .idle → s.wrapper.ClientStep none w →
      Step s .owner { s with
        wrapper := w
        phase := if w.client none = .idle then s.phase.afterCall else s.phase
        atStop := s.stopSeen }
  | join : s.phase = .joining → s.wrapper.worker = .done →
      Step s .join { s with phase := .destroyed }
  | worker {a : FacadeAct C} {w : St (Option C)} : s.wrapper.WorkerStep w →
      Step s a { s with wrapper := w }
  | call {c : C} {d : DataCall} : s.wrapper.client (some c) = .idle →
      Step s (.call c d) { s with wrapper := s.wrapper.goto (some c) (.pushLock d) }
  | client {a : FacadeAct C} {c : C} {w : St (Option C)} : s.wrapper.client (some c) ≠ .idle →
      s.wrapper.ClientStep (some c) w → Step s a { s with wrapper := w }

omit [DecidableEq C] in
theorem lift_eq {r : Facade C} {w : Option (St (Option C))} (h : r.lift w = some s') :
    ∃ w', w = some w' ∧ s' = { r with wrapper := w' } := by
  obtain ⟨w', hw, e⟩ := Option.map_eq_some_iff.mp h
  exact ⟨w', hw, e.symm⟩

theorem callNext_eq {w w' : St (Option C)} {t : Option C} {c : ClientCall}
    (h : w.callNext t c = some w') : w.client t = .idle ∧ w' = w.goto t c.enter := by
  unfold St.callNext at h
  split at h
  · exact ⟨‹_›, (Option.some.inj h).symm⟩
  · cases h

theorem clientNext_ne {w w' : St (Option C)} {t : Option C} (h : w.clientNext t = some w') :
    w.client t ≠ .idle := fun e => by
  simp [St.clientNext, e] at h

theorem clientThrows_ne {w w' : St (Option C)} {t : Option C} (h : w.clientThrows t = some w') :
    w.client t ≠ .idle := fun e => by
  simp [St.clientThrows, e] at h

theorem next_step {a : FacadeAct C} (h : (facade C).next s a = some s') :
    s.Step a s' := by
  cases a <;> simp only [facade] at h
  case construct =>
    split at h
    · obtain ⟨w, hw, rfl⟩ := lift_eq h
      obtain ⟨hc, rfl⟩ := callNext_eq hw
      exact .construct ‹_› hc
    · cases h
  case destruct =>
    split at h
    · obtain ⟨w, hw, rfl⟩ := lift_eq h
      obtain ⟨hc, rfl⟩ := callNext_eq hw
      exact .destruct ‹_› hc
    · cases h
  case owner =>
    obtain ⟨w, hw, rfl⟩ := Option.map_eq_some_iff.mp h
    exact .owner (clientNext_ne hw) (St.clientNext_step hw)
  case join =>
    split at h
    · rename_i hj
      obtain rfl := Option.some.inj h
      exact .join hj.1 hj.2
    · cases h
  case worker => obtain ⟨w, hw, rfl⟩ := lift_eq h; exact .worker (St.workerNext_step hw)
  case workerReturns status =>
    obtain ⟨w, hw, rfl⟩ := lift_eq h; exact .worker (St.workerReturns_step status hw)
  case call c d =>
    split at h
    · obtain ⟨w, hw, rfl⟩ := lift_eq h
      obtain ⟨hc, rfl⟩ := callNext_eq hw
      exact .call hc
    · cases h
  case client c =>
    obtain ⟨w, hw, rfl⟩ := lift_eq h; exact .client (clientNext_ne hw) (St.clientNext_step hw)
  case clientThrows c =>
    obtain ⟨w, hw, rfl⟩ := lift_eq h
    exact .client (clientThrows_ne hw) (St.clientThrows_step hw)

/-- The wrapper of a reachable facade is a reachable wrapper. -/
theorem wrapper_reach {G : Facade C → FacadeAct C → Prop} (h : (facade C).Reach G s) :
    (LibRest.wrapper (Option C)).Reach Sys.Any s.wrapper := by
  refine h.map (T := LibRest.wrapper (Option C)) (fun s => s.wrapper)
    (fun s hs => by subst hs; exact rfl) fun s a s' _ hg hn => ?_
  clear hg
  cases a <;> simp only [facade] at hn
  case construct =>
    split at hn
    · obtain ⟨w, hw, rfl⟩ := lift_eq hn; exact .inr ⟨.call none .start, trivial, hw⟩
    · cases hn
  case destruct =>
    split at hn
    · obtain ⟨w, hw, rfl⟩ := lift_eq hn; exact .inr ⟨.call none .shutdown, trivial, hw⟩
    · cases hn
  case owner =>
    obtain ⟨w, hw, rfl⟩ := Option.map_eq_some_iff.mp hn
    exact .inr ⟨.client none, trivial, hw⟩
  case join =>
    split at hn
    · obtain rfl := Option.some.inj hn; exact .inl rfl
    · cases hn
  case worker => obtain ⟨w, hw, rfl⟩ := lift_eq hn; exact .inr ⟨.worker, trivial, hw⟩
  case workerReturns status =>
    obtain ⟨w, hw, rfl⟩ := lift_eq hn; exact .inr ⟨.workerReturns status, trivial, hw⟩
  case call c d =>
    split at hn
    · obtain ⟨w, hw, rfl⟩ := lift_eq hn; exact .inr ⟨.call (some c) (.data d), trivial, hw⟩
    · cases hn
  case client c => obtain ⟨w, hw, rfl⟩ := lift_eq hn; exact .inr ⟨.client (some c), trivial, hw⟩
  case clientThrows c =>
    obtain ⟨w, hw, rfl⟩ := lift_eq hn; exact .inr ⟨.clientThrows (some c), trivial, hw⟩

/-! ## The phases -/

/-- Where `mActive` is in its life: before the store of `Start`, after it, and after the store of
`Shutdown`. -/
inductive Stage where
  | before
  | active
  | after

/-- The stage, from the phase and the owner's place in its call. -/
def stageOf : Phase → ClientPc → Option Stage
  | .created, .idle | .starting, .startTest | .starting, .startLock | .starting, .startStore =>
    some .before
  | .starting, .startNotify | .starting, .startUnlock | .opened, .idle | .stopping, .stopTest
  | .stopping, .stopLock | .stopping, .stopStore => some .active
  | .stopping, .stopNotify | .stopping, .stopUnlock | .joining, .idle | .destroyed, .idle =>
    some .after
  | _, _ => none

def stage (s : Facade C) : Option Stage := stageOf s.phase (s.wrapper.client none)

/-- The client is in no call, or in one that queues a request. -/
def queues : ClientPc → Bool
  | .idle | .pushLock _ | .pushItem _ | .pushNotify _ | .pushUnlock _ => true
  | _ => false

/-- What goes with a stage. -/
def Stage.Fits (s : Facade C) : Stage → Prop
  | .before => s.wrapper.mActive = false ∧ s.wrapper.worker.waitsReady = true
  | .active => s.wrapper.mActive = true ∧ s.wrapper.worker ≠ .done
  | .after => s.wrapper.mActive = false

/-- The owner is at a stage, with what goes with it; the other clients queue requests. -/
structure Paced (s : Facade C) : Prop where
  clients : ∀ c, queues (s.wrapper.client (some c)) = true
  stage : ∃ st, s.stage = some st ∧ Stage.Fits s st

omit [DecidableEq C] in
theorem paced_init : (⟨.init, .created, [], none⟩ : Facade C).Paced :=
  ⟨fun _ => rfl, .before, rfl, rfl, rfl⟩

omit [DecidableEq C] in
/-- What goes with a stage is kept by a step of the worker. -/
theorem Stage.Fits.worker {st : Stage} {w : St (Option C)} (h : st.Fits s)
    (hw : s.wrapper.WorkerStep w) : st.Fits { s with wrapper := w } := by
  obtain ⟨ha, -, -⟩ := hw.frame
  cases st with
  | before => exact ⟨ha.trans h.1, hw.waitsReady (fun _ => h.1) h.2⟩
  | active => exact ⟨ha.trans h.1, hw.hasConsumer (ha.trans h.1)⟩
  | after => exact ha.trans h

omit [DecidableEq C] in
/-- What goes with a stage is kept by a client that leaves `mActive` and the worker's place. -/
theorem Stage.Fits.client {st : Stage} {w : St (Option C)} (h : st.Fits s)
    (ha : w.mActive = s.wrapper.mActive)
    (hw : w.worker = s.wrapper.worker ∨ w.worker = s.wrapper.worker.notify) :
    st.Fits { s with wrapper := w } := by
  have hr : w.worker.waitsReady = s.wrapper.worker.waitsReady := by
    rcases hw with e | e <;> simp [e]
  have hd : w.worker = .done ↔ s.wrapper.worker = .done := by
    rcases hw with e | e
    · rw [e]
    · rw [e, St.notify_done]
  cases st with
  | before => exact ⟨ha.trans h.1, hr.trans h.2⟩
  | active => exact ⟨ha.trans h.1, fun e => h.2 (hd.mp e)⟩
  | after => exact ha.trans h

/-- A step of a client that queues a request. -/
theorem queues_step {w w' : St (Option C)} {t : Option C} (hq : queues (w.client t) = true)
    (hne : w.client t ≠ .idle) (h : w.ClientStep t w') :
    w'.mActive = w.mActive ∧ (w'.worker = w.worker ∨ w'.worker = w.worker.notify) ∧
      queues (w'.client t) = true := by
  cases h with
  | call _ e => exact absurd e hne
  | startSkip e | startGo e | stopSkip e | stopGo e | startStore e | stopStore e =>
    rw [e] at hq; cases hq
  | unlock e => rcases e with e | e <;> rw [e] at hq <;> cases hq
  | @lock pc ha =>
    refine ⟨rfl, .inl rfl, ?_⟩
    rw [St.goto_client]
    cases hc : w.client t <;> rw [hc] at ha hq <;> cases ha <;> first | rfl | cases hq
  | @notify pc ha =>
    refine ⟨rfl, .inr rfl, ?_⟩
    rw [St.goto_client]
    cases hc : w.client t <;> rw [hc] at ha hq <;> cases ha <;> first | rfl | cases hq
  | pushItem | throwLock | throwItem =>
    exact ⟨rfl, .inl rfl, by rw [St.goto_client]; rfl⟩
  | pushUnlock => exact ⟨rfl, .inl rfl, by unfold St.clientUnlock; rw [St.goto_client]; rfl⟩

/-- The stage at a place of the owner in `Start`. -/
theorem stageOf_start {ph : Phase} {pc : ClientPc} {st : Stage} (h : stageOf ph pc = some st) :
    (pc = .startTest ∨ pc = .startLock ∨ pc = .startStore → ph = .starting ∧ st = .before) ∧
    (pc = .startNotify ∨ pc = .startUnlock → ph = .starting ∧ st = .active) := by
  constructor
  · rintro (rfl | rfl | rfl) <;> cases ph <;> simp_all [stageOf]
  · rintro (rfl | rfl) <;> cases ph <;> simp_all [stageOf]

/-- The stage at a place of the owner in `Shutdown`. -/
theorem stageOf_stop {ph : Phase} {pc : ClientPc} {st : Stage} (h : stageOf ph pc = some st) :
    (pc = .stopTest ∨ pc = .stopLock ∨ pc = .stopStore → ph = .stopping ∧ st = .active) ∧
    (pc = .stopNotify ∨ pc = .stopUnlock → ph = .stopping ∧ st = .after) := by
  constructor
  · rintro (rfl | rfl | rfl) <;> cases ph <;> simp_all [stageOf]
  · rintro (rfl | rfl) <;> cases ph <;> simp_all [stageOf]

/-- The owner queues no requests. -/
theorem stageOf_push {ph : Phase} {pc : ClientPc} {st : Stage} (h : stageOf ph pc = some st)
    (hne : pc ≠ .idle) : queues pc = false := by
  cases ph <;> cases pc <;> simp_all [stageOf, queues]

/-- A step of the owner: the phase, its place and `mActive` go on together. -/
theorem Paced.owner {w : St (Option C)} (h : s.Paced) (hne : s.wrapper.client none ≠ .idle)
    (hw : s.wrapper.ClientStep none w) :
    ∃ st, stageOf (if w.client none = .idle then s.phase.afterCall else s.phase)
      (w.client none) = some st ∧ Stage.Fits { s with wrapper := w } st := by
  obtain ⟨st, hst, hf⟩ := h.stage
  obtain ⟨hs1, hs2⟩ := stageOf_start hst
  obtain ⟨hs3, hs4⟩ := stageOf_stop hst
  have hq := stageOf_push hst hne
  cases hw with
  | call _ e => exact absurd e hne
  | pushItem e | pushUnlock e | throwLock e | throwItem e => rw [e] at hq; cases hq
  | startSkip e ha =>
    obtain ⟨-, rfl⟩ := hs1 (by simp [e])
    rw [hf.1] at ha; cases ha
  | startGo e ha =>
    obtain ⟨hp, rfl⟩ := hs1 (by simp [e])
    exact ⟨.before, by simp [hp, stageOf], hf⟩
  | stopSkip e ha =>
    obtain ⟨-, rfl⟩ := hs3 (by simp [e])
    rw [hf.1] at ha; cases ha
  | stopGo e ha =>
    obtain ⟨hp, rfl⟩ := hs3 (by simp [e])
    exact ⟨.active, by simp [hp, stageOf], hf⟩
  | @lock pc ha hm =>
    cases hc : s.wrapper.client none <;> rw [hc] at ha <;> cases ha
    · obtain ⟨hp, rfl⟩ := hs1 (by simp [hc])
      exact ⟨.before, by simp [hp, stageOf], hf⟩
    · obtain ⟨hp, rfl⟩ := hs3 (by simp [hc])
      exact ⟨.active, by simp [hp, stageOf], hf⟩
    · rw [hc] at hq; cases hq
  | startStore e =>
    obtain ⟨hp, rfl⟩ := hs1 (by simp [e])
    refine ⟨.active, by simp [hp, stageOf], rfl, fun hd => ?_⟩
    have hr := hf.2
    rw [show s.wrapper.worker = .done from hd] at hr
    cases hr
  | stopStore e =>
    obtain ⟨hp, rfl⟩ := hs3 (by simp [e])
    exact ⟨.after, by simp [hp, stageOf], rfl⟩
  | @notify pc ha =>
    cases hc : s.wrapper.client none <;> rw [hc] at ha <;> cases ha
    · obtain ⟨hp, rfl⟩ := hs2 (by simp [hc])
      exact ⟨.active, by simp [hp, stageOf], hf.1, fun hd => hf.2 (St.notify_done.mp hd)⟩
    · obtain ⟨hp, rfl⟩ := hs4 (by simp [hc])
      exact ⟨.after, by simp [hp, stageOf], hf⟩
    · rw [hc] at hq; cases hq
  | unlock e =>
    rcases e with e | e
    · obtain ⟨hp, rfl⟩ := hs2 (by simp [e])
      exact ⟨.active, by simp [St.clientUnlock, hp, Phase.afterCall, stageOf], hf⟩
    · obtain ⟨hp, rfl⟩ := hs4 (by simp [e])
      exact ⟨.after, by simp [St.clientUnlock, hp, Phase.afterCall, stageOf], hf⟩

theorem Paced.step {a : FacadeAct C} (h : s.Paced) (hs : s.Step a s') : s'.Paced := by
  obtain ⟨st, hst, hf⟩ := h.stage
  have hgo : ∀ {pc c}, queues ((s.wrapper.goto none pc).client (some c)) = true := fun {_ c} => by
    rw [St.goto_client_ne _ _ (by simp)]; exact h.clients c
  cases hs with
  | construct hp hc =>
    refine ⟨fun _ => hgo, .before, by simp [Facade.stage, stageOf], ?_⟩
    simp only [Facade.stage, hp, hc, stageOf, Option.some.injEq] at hst
    subst hst; exact hf
  | destruct hp hc =>
    refine ⟨fun _ => hgo, .active, by simp [Facade.stage, stageOf], ?_⟩
    simp only [Facade.stage, hp, hc, stageOf, Option.some.injEq] at hst
    subst hst; exact hf
  | @owner w hne hw =>
    obtain ⟨st', hst', hf'⟩ := h.owner hne hw
    refine ⟨fun c => ?_, st', hst', ?_⟩
    · show queues (w.client (some c)) = true
      rw [hw.others (by simp)]; exact h.clients c
    · cases st' <;> exact hf'
  | join hp hd =>
    refine ⟨h.clients, .after, ?_, ?_⟩
    · cases hc : s.wrapper.client none <;> simp_all [Facade.stage, stageOf]
    · cases hc : s.wrapper.client none <;> simp_all [Facade.stage, stageOf]
      subst hst; exact hf
  | @worker _ w hw =>
    have hc := hw.frame.2.1
    refine ⟨fun c => ?_, st, ?_, hf.worker hw⟩
    · show queues (w.client (some c)) = true
      rw [hc]; exact h.clients c
    · show stageOf s.phase (w.client none) = some st
      rw [hc]; exact hst
  | @call c d hc =>
    refine ⟨fun c' => ?_, st, ?_, hf.client rfl (.inl rfl)⟩
    · by_cases e : c' = c
      · subst e; rw [St.goto_client]; rfl
      · rw [St.goto_client_ne _ _ (by simpa using e)]; exact h.clients c'
    · show stageOf s.phase ((s.wrapper.goto (some c) (.pushLock d)).client none) = some st
      rw [St.goto_client_ne _ _ (by simp)]; exact hst
  | @client _ c w hne hw =>
    obtain ⟨ha, hwk, hq⟩ := queues_step (h.clients c) hne hw
    refine ⟨fun c' => ?_, st, ?_, hf.client ha hwk⟩
    · show queues (w.client (some c')) = true
      by_cases e : c' = c
      · subst e; exact hq
      · rw [hw.others (by simpa using e)]; exact h.clients c'
    · show stageOf s.phase (w.client none) = some st
      rw [hw.others (by simp)]; exact hst

theorem paced_reach {G : Facade C → FacadeAct C → Prop} (h : (facade C).Reach G s) : s.Paced :=
  h.inv (fun s hs => by subst hs; exact paced_init) fun _ _ _ _ _ hn hi => hi.step (next_step hn)

end Facade

end RestAPIFacade

end LibRest
