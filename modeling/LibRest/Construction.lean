import LibRest.Handover

/-!
# The construction of a wrapper

The constructor initialises the members in the order of their declaration (`CurlHttpWrapper.h`), not
in the order of its initialiser list. `mHttpThread` comes fifth, and with it the worker starts,
while the mutex, `mActive`, the condition variable and the queue are still raw memory.

- **Steps.** One step for each member, then the body; from `mHttpThread` on, the worker's steps;
  after the body, the clients' calls. The memory of `mActive`, the mutex and the queue is arbitrary
  at first.
- **`early`** records each member that the worker touched (`WorkerPc.touches`) before its
  initialiser, **`started`** that a `Start` has stored `true`.
- **`Ordered`**: nothing was touched early, and the worker has not passed its first wait without a
  `Start`. `Follows`: the worker comes to its first lock, its first predicate and its first wait
  after the initialiser of what they use. The states of a run all have the first exactly when its
  steps all have the second: what comes after the first wait needs no more.
-/

namespace LibRest

open Lib

/-- The members of `CurlHttpWrapper`. -/
inductive Member where
  | mLogger
  | mCurl
  | logError
  | freeHeader
  | mHttpThread
  | mHttpQueueMutex
  | mActive
  | cert
  | strHttpStatus
  | mPollingMutex
  | cvHttpDataQueue
  | mHttpDataQueue
  | strHttpGetData
  deriving DecidableEq, Repr

/-- The members in the order of their declaration. -/
def declared : List Member :=
  [.mLogger, .mCurl, .logError, .freeHeader, .mHttpThread, .mHttpQueueMutex, .mActive, .cert,
    .strHttpStatus, .mPollingMutex, .cvHttpDataQueue, .mHttpDataQueue, .strHttpGetData]

/-- The members that the worker locks, waits on, reads or pops in its next step. -/
def WorkerPc.touches : WorkerPc → List Member
  | .readyLock => [.mLogger, .mHttpQueueMutex]
  | .readyTest => [.mActive, .mHttpQueueMutex, .mLogger]
  | .readyPark | .readyParked _ => [.cvHttpDataQueue, .mHttpQueueMutex]
  | .loopTest => [.mActive]
  | .popLock => [.mHttpQueueMutex]
  | .popSection => [.mHttpDataQueue, .mLogger, .mHttpQueueMutex]
  | .dispatch _ => [.mLogger, .strHttpStatus, .mCurl]
  | .running _ => [.mCurl, .strHttpStatus, .freeHeader, .logError, .mLogger]
  | .recheckLock => [.mHttpQueueMutex]
  | .recheckSection => [.mHttpDataQueue, .mHttpQueueMutex]
  | .emptyTest _ => []
  | .dataLock => [.mHttpQueueMutex]
  | .dataTest => [.mHttpDataQueue, .mActive, .mHttpQueueMutex]
  | .dataPark | .dataParked _ => [.cvHttpDataQueue, .mHttpQueueMutex]
  | .done => []

/-- What the worker uses for the first time on its way to the end of the first wait. -/
def WorkerPc.firstUse : WorkerPc → Option Member
  | .readyLock => some .mHttpQueueMutex
  | .readyTest => some .mActive
  | .readyPark => some .cvHttpDataQueue
  | _ => none

/-- The initialiser of a member. The members that the queue does not use are no part of `St`, and
the list of the condition variable's waiters is in the worker: a worker that parked before the
initialiser of `cvHttpDataQueue` can be woken up here. Such runs are not `Ordered`, and nothing more
is stated of them. -/
def Member.initialise {T : Type} (w : St T) : Member → St T
  | .mHttpQueueMutex => { w with mHttpQueueMutex := none }
  | .mActive => { w with mActive := false }
  | .mHttpDataQueue => { w with mHttpDataQueue := [] }
  | _ => w

/-- A wrapper under construction: the first `built` members are initialised; one more when the body
has run. -/
structure Construction (T : Type) where
  wrapper : St T
  built : Nat
  started : Bool
  early : List Member

inductive ConstructionAct (T : Type) where
  | construct
  | act (a : Act T)
  deriving DecidableEq, Repr

namespace Construction

variable {T : Type}

def initialised (s : Construction T) (m : Member) : Bool := declared.idxOf m < s.built

/-- The constructor has returned. -/
def constructed (s : Construction T) : Bool := s.built = declared.length + 1

/-- The next step of the constructor: the initialiser of a member, or the body. -/
def constructNext (s : Construction T) : Option (Construction T) :=
  match declared[s.built]? with
  | some m => some { s with wrapper := m.initialise s.wrapper, built := s.built + 1 }
  | none => if s.built = declared.length then some { s with built := s.built + 1 } else none

/-- What the worker touches in its next step before its initialiser. -/
def touchedEarly (s : Construction T) : List Member :=
  s.wrapper.worker.touches.filter fun m => !s.initialised m

end Construction

open Construction

/-- The runs of a wrapper from the start of its constructor. -/
def construction (T : Type) [DecidableEq T] : Sys (Construction T) (ConstructionAct T) where
  init s := ∃ b m q, s =
    ⟨{ St.init with mActive := b, mHttpQueueMutex := m, mHttpDataQueue := q }, 0, false, []⟩
  next s
    | .construct => s.constructNext
    | .act a =>
      match a.thread with
      | .worker =>
        if s.initialised .mHttpThread then
          ((wrapper T).next s.wrapper a).map fun w =>
            { s with wrapper := w, early := s.early ++ s.touchedEarly }
        else none
      | .client t =>
        if s.constructed then
          ((wrapper T).next s.wrapper a).map fun w =>
            { s with wrapper := w, started := s.started || s.wrapper.client t = .startStore }
        else none

namespace Construction

variable {T : Type} {s s' : Construction T}

/-- The worker touched nothing early, and has not passed its first wait without a `Start`. -/
structure Ordered (s : Construction T) : Prop where
  early : s.early = []
  waits : s.wrapper.worker.waitsReady = true ∨ s.started = true

/-- If the step is one of the worker, what it uses for the first time is initialised. -/
def Follows (s : Construction T) (a : ConstructionAct T) : Prop :=
  ∀ b, a = .act b → b.thread = .worker →
    ∀ m, s.wrapper.worker.firstUse = some m → s.initialised m = true

instance [DecidableEq T] (s : Construction T) : (a : ConstructionAct T) → Decidable (Follows s a)
  | .construct => .isTrue fun b h => by cases h
  | .act b =>
    decidable_of_iff (b.thread = .worker →
        ∀ m ∈ s.wrapper.worker.firstUse, s.initialised m = true)
      ⟨fun h b' e => by cases e; exact h, fun h => h b rfl⟩

/-! ## What a step can do -/

variable [DecidableEq T]

/-- The steps of a construction. -/
inductive Step (s : Construction T) : ConstructionAct T → Construction T → Prop where
  | member {m : Member} : declared[s.built]? = some m →
      Step s .construct { s with wrapper := m.initialise s.wrapper, built := s.built + 1 }
  | body : s.built = declared.length → Step s .construct { s with built := s.built + 1 }
  | worker {a : Act T} {w : St T} : a.thread = .worker → s.wrapper.WorkerStep w →
      Step s (.act a) { s with wrapper := w, early := s.early ++ s.touchedEarly }
  | client {a : Act T} {t : T} {w : St T} : a.thread = .client t → s.constructed = true →
      s.wrapper.ClientStep t w →
      Step s (.act a)
        { s with wrapper := w, started := s.started || s.wrapper.client t = .startStore }

theorem next_step {a : ConstructionAct T} (h : (construction T).next s a = some s') :
    s.Step a s' := by
  cases a with
  | construct =>
    simp only [construction, constructNext] at h
    split at h
    · obtain rfl := Option.some.inj h; exact .member ‹_›
    · split at h
      · obtain rfl := Option.some.inj h; exact .body ‹_›
      · cases h
  | act a =>
    simp only [construction] at h
    split at h <;> rename_i hth
    · split at h
      · obtain ⟨w, hw, rfl⟩ := Option.map_eq_some_iff.mp h
        rcases St.next_step hw with ⟨-, hs⟩ | ⟨t, ht, -⟩
        · exact .worker hth hs
        · rw [hth] at ht; cases ht
      · cases h
    · split at h <;> rename_i hc
      · obtain ⟨w, hw, rfl⟩ := Option.map_eq_some_iff.mp h
        rcases St.next_step hw with ⟨ht, -⟩ | ⟨t, ht, hs⟩
        · rw [hth] at ht; cases ht
        · rw [hth] at ht; cases ht; exact .client hth hc hs
      · cases h

/-! ## What is initialised -/

section

omit [DecidableEq T]

/-- The members are initialised in the order of their declaration. -/
theorem initialised_le {m m' : Member} (h : s.initialised m' = true)
    (hle : declared.idxOf m ≤ declared.idxOf m') : s.initialised m = true := by
  simp only [initialised, decide_eq_true_eq] at h ⊢
  omega

theorem idxOf_lt (m : Member) : declared.idxOf m < declared.length := by
  cases m <;> decide

theorem initialised_all (h : s.constructed = true) (m : Member) : s.initialised m = true := by
  have hm := idxOf_lt m
  simp only [constructed, initialised, decide_eq_true_eq] at h ⊢
  omega

theorem touchedEarly_nil (h : ∀ m ∈ s.wrapper.worker.touches, s.initialised m = true) :
    s.touchedEarly = [] := by
  refine List.filter_eq_nil_iff.mpr fun m hm => ?_
  simp [h m hm]

theorem touchedEarly_nil_iff :
    s.touchedEarly = [] ↔ ∀ m ∈ s.wrapper.worker.touches, s.initialised m = true := by
  constructor
  · intro h m hm
    simpa using List.filter_eq_nil_iff.mp h m hm
  · exact touchedEarly_nil

/-- In the first wait, the worker touches nothing that is declared after what it uses first. -/
theorem touches_firstUse {pc : WorkerPc} {m : Member} (h : pc.firstUse = some m) :
    m ∈ pc.touches ∧ ∀ m' ∈ pc.touches, declared.idxOf m' ≤ declared.idxOf m := by
  cases pc <;> cases h <;> decide

theorem initialise_worker (m : Member) (w : St T) : (m.initialise w).worker = w.worker := by
  cases m <;> rfl

theorem initialise_mActive {m : Member} {w : St T} (h : w.mActive = false ∨ m = .mActive) :
    (m.initialise w).mActive = false := by
  cases m <;> first | rfl | exact h.resolve_right nofun

/-- The worker parks in its first wait only where it is about to. -/
theorem readyParked_of {w w' : St T} {b : Bool} (h : w.WorkerStep w')
    (hb : w'.worker = .readyParked b) : w.worker = .readyPark := by
  cases h with
  | readyPark e => exact e
  | lock ha =>
    rcases WorkerPc.afterLock_cases ha with e | e | e | e <;> rw [e] at hb <;> cases hb
  | _ => cases hb

/-! ## The order of the first uses -/

/-- What holds however the worker and the constructor interleave. -/
structure Sound (s : Construction T) : Prop where
  started : s.started = true → s.constructed = true
  active : s.initialised .mActive = true → s.started = false → s.wrapper.mActive = false
  parked : s.early = [] → ∀ b, s.wrapper.worker = .readyParked b →
    s.initialised .cvHttpDataQueue = true

end

theorem Sound.step {a : ConstructionAct T} (h : s.Sound) (hs : s.Step a s') : s'.Sound := by
  cases hs with
  | @member m hm =>
    obtain ⟨hlt, hget⟩ := List.getElem?_eq_some_iff.mp hm
    refine ⟨fun hst => ?_, fun hi hst => ?_, fun he b hb => ?_⟩
    · have hc := h.started hst
      simp only [constructed, decide_eq_true_eq] at hc
      omega
    · refine initialise_mActive ?_
      by_cases hi' : s.initialised .mActive = true
      · exact .inl (h.active hi' hst)
      · simp only [initialised, decide_eq_true_eq] at hi hi'
        have hb : declared.idxOf .mActive = s.built := by omega
        refine .inr (hget.symm.trans ?_)
        simp only [← hb]
        rfl
    · have hi := h.parked he b ((initialise_worker m s.wrapper).symm.trans hb)
      simp only [initialised, decide_eq_true_eq] at hi ⊢
      omega
  | body hb =>
    refine ⟨fun hst => ?_, fun _ hst => h.active ?_ hst, fun he b hw => ?_⟩
    · simp [constructed, hb]
    · simp only [initialised, hb]; decide
    · simp only [initialised, hb]; decide
  | @worker a w hth hw =>
    refine ⟨h.started, fun hi hst => hw.frame.1.trans (h.active hi hst), fun he b hb => ?_⟩
    obtain ⟨he, ht⟩ := List.append_eq_nil_iff.mp he
    have hpc := readyParked_of hw hb
    exact touchedEarly_nil_iff.mp ht _ (by rw [hpc]; decide)
  | @client a t w hth hc hw =>
    refine ⟨fun _ => hc, fun hi hst => ?_, fun _ _ _ => initialised_all hc _⟩
    simp only [Bool.or_eq_false_iff, decide_eq_false_iff_not] at hst
    rcases hw.frame.2 with e | ⟨e, -⟩ | ⟨-, e⟩
    · exact e.trans (h.active hi hst.1)
    · exact absurd e hst.2
    · exact e

omit [DecidableEq T] in
/-- The worker's step, when nothing was touched early before: what it touches is initialised if what
it uses first is. -/
theorem Sound.touches (h : s.Sound) (ho : s.Ordered)
    (hf : ∀ m, s.wrapper.worker.firstUse = some m → s.initialised m = true) :
    ∀ m ∈ s.wrapper.worker.touches, s.initialised m = true := by
  intro m hm
  rcases ho.waits with hw | hst
  · cases hu : s.wrapper.worker.firstUse with
    | some m' => exact initialised_le (hf m' hu) ((touches_firstUse hu).2 m hm)
    | none =>
      cases hpc : s.wrapper.worker <;> rw [hpc] at hw hu hm <;>
        first | (cases hu; done) | (cases hw; done) | skip
      -- a parked worker: its first wait was after the initialiser of the condition variable
      refine initialised_le (h.parked ho.early _ hpc) ?_
      rcases List.mem_pair.mp hm with rfl | rfl <;> decide
  · exact initialised_all (h.started hst) m

omit [DecidableEq T] in
/-- A step of the worker that uses only what is initialised does not pass the first wait. -/
theorem Sound.waits {w : St T} (h : s.Sound) (ho : s.Ordered) (hw : s.wrapper.WorkerStep w)
    (hf : ∀ m, s.wrapper.worker.firstUse = some m → s.initialised m = true) :
    w.worker.waitsReady = true ∨ s.started = true := by
  rcases ho.waits with hr | hst
  · cases hst : s.started with
    | true => exact .inr rfl
    | false =>
      exact .inl (hw.waitsReady (fun e => h.active (hf _ (by rw [e]; rfl)) hst) hr)
  · exact .inr hst

theorem sound_init (h : (construction T).init s) : s.Sound ∧ s.Ordered := by
  obtain ⟨b, m, q, rfl⟩ := h
  exact ⟨⟨nofun, nofun, nofun⟩, rfl, .inl rfl⟩

theorem ordered_step {a : ConstructionAct T} (h : s.Sound) (ho : s.Ordered) (hs : s.Step a s') :
    s'.Ordered ↔ Follows s a := by
  cases hs with
  | @member m hm =>
    refine ⟨fun _ => nofun, fun _ => ⟨ho.early, ?_⟩⟩
    show (m.initialise s.wrapper).worker.waitsReady = true ∨ s.started = true
    rw [initialise_worker]; exact ho.waits
  | body => exact ⟨fun _ => nofun, fun _ => ⟨ho.early, ho.waits⟩⟩
  | @worker a w hth hw =>
    constructor
    · rintro ⟨he, -⟩ b hb - m hm
      have ht := (List.append_eq_nil_iff.mp he).2
      exact touchedEarly_nil_iff.mp ht m (touches_firstUse hm).1
    · intro hg
      have hf := hg a rfl hth
      refine ⟨?_, h.waits ho hw hf⟩
      show s.early ++ s.touchedEarly = []
      rw [ho.early, touchedEarly_nil (h.touches ho hf)]
      rfl
  | @client a t w hth hc hw =>
    refine ⟨fun _ b hb hth' => ?_, fun _ => ⟨ho.early, ?_⟩⟩
    · cases hb; rw [hth] at hth'; cases hth'
    · show w.worker.waitsReady = true ∨ _
      have hr : w.worker.waitsReady = s.wrapper.worker.waitsReady := by
        rcases hw.frame.1 with e | e <;> simp [e]
      rcases ho.waits with hw' | hst
      · exact .inl (hr.trans hw')
      · exact .inr (by simp [hst])

/-- **Construction.** In every state of a run the worker has touched nothing early and has passed
its first wait only after a `Start`, if and only if the worker comes to its first lock after the
initialiser of `mHttpQueueMutex`, to its first predicate after that of `mActive`, and to its first
wait after that of `cvHttpDataQueue`. -/
theorem worker_follows_construction {t : Construction T} {as : List (ConstructionAct T)}
    (h0 : (construction T).init s) (hr : (construction T).run s as = some t) :
    (construction T).Throughout Ordered s as ↔ (construction T).Along Follows s as :=
  Sys.throughout_iff_along (I := Sound) (fun _ _ _ h hn => h.step (next_step hn))
    (fun _ _ _ h ho hn => ordered_step h ho (next_step hn)) (sound_init h0).1 (sound_init h0).2 hr

/-- Raw memory, in which `mActive` reads as `b`. -/
def raw (b : Bool) : Construction Unit :=
  ⟨{ St.init with mActive := b }, 0, false, []⟩

/-- The worker takes the mutex after the sixth initialiser, reads `mActive` after the seventh and
parks after the eleventh; then the constructor returns, and `Start` wakes it up. -/
def builtAround : List (ConstructionAct Unit) :=
  List.replicate 6 .construct ++ .act .worker :: .construct :: .act .worker ::
    List.replicate 4 .construct ++ .act .worker :: List.replicate 3 .construct ++
    .act (.call () .start) :: List.replicate 5 (.act (.client ())) ++
    List.replicate 2 (.act .worker)

theorem worker_follows_construction_between :
    (construction Unit).Along Follows (raw true) builtAround ∧
      (construction Unit).Throughout Ordered (raw true) builtAround ∧
      ((construction Unit).run (raw true) builtAround).map
        (fun s => (s.wrapper.worker, s.constructed, s.started)) = some (.loopTest, true, true) := by
  have hg : (construction Unit).Along Follows (raw true) builtAround := by decide
  have hr : ((construction Unit).run (raw true) builtAround).isSome := by decide
  refine ⟨hg, ?_, by decide⟩
  exact (worker_follows_construction ⟨true, none, [], rfl⟩ (Option.some_get hr).symm).mpr hg

/-- The worker reads `mActive` from raw memory and passes its first wait; then the initialiser
stores `false`, and the worker terminates before the constructor has returned. -/
theorem worker_ahead_of_construction :
    ∃ s : Construction Unit, (construction Unit).Reach Sys.Any s ∧ ¬ s.Ordered ∧
      s.wrapper.worker = .done ∧ s.constructed = false ∧ s.started = false := by
  obtain ⟨s, hr, hs⟩ := Sys.Reach.observe (S := construction Unit)
    (b := ([Member.mActive], WorkerPc.done, false, false))
    (fun s => (s.early, s.wrapper.worker, s.constructed, s.started))
    (List.replicate 6 .construct ++ List.replicate 2 (.act .worker) ++
      [.construct, .act .worker]) (s := raw true) ⟨true, none, [], rfl⟩ (by decide)
  simp only [Prod.mk.injEq] at hs
  obtain ⟨he, hw, hc, hst⟩ := hs
  refine ⟨s, hr, fun ho => ?_, hw, hc, hst⟩
  rw [ho.early] at he; cases he

end Construction

end LibRest
