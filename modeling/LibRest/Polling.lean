import LibRest.Lib.Protocol
import LibRest.Progress

/-!
# The mutex of `PostPollingData`

`PostPollingData` holds `mPollingMutex` from its first line to its return, around a request of its
own. No other call on libcurl locks it.

- **Sections** (`Polls`). A call that holds the mutex has at most 15 operations left to the unlock,
  and one that does not hold it is at none of them (`polling_reach`).
- **The mutex is given back** (`poll_ends`): its owner does so within 15 steps, whatever the others
  do.
- **No deadlock** (`calls_go_on`). A call goes on, or it waits for the mutex and the owner goes on.
-/

namespace LibRest

open Lib CurlHttpWrapper

/-! ## The operations -/

/-- The operation leaves `mPollingMutex` alone. -/
abbrev Op.Unlocked (o : Op) : Prop := ¬ o = .lockPolling ∧ ¬ o = .unlockPolling

/-- What one step does to `mPollingMutex`. -/
theorem handle_mutex {ι : Type} [DecidableEq ι] {i : ι} {o : Op} {w w' : World ι} {c : Choice}
    {r : Option o.Res} (hs : handle i o w c = some (r, w')) :
    o = .lockPolling ∧ r ≠ none ∧ w.mPollingMutex = none ∧ w'.mPollingMutex = some i ∨
    o = .unlockPolling ∧ r ≠ none ∧ w'.mPollingMutex = none ∨
    o.Unlocked ∧ w'.mPollingMutex = w.mPollingMutex := by
  cases World.handle_outcome hs with
  | lockPolling hfree => exact .inl ⟨rfl, by simp, hfree, rfl⟩
  | unlockPolling => exact .inr (.inl ⟨rfl, by simp, rfl⟩)
  | _ => exact .inr (.inr ⟨by simp [Op.Unlocked], rfl⟩)

/-- A call that does not wait for `mPollingMutex` can go on. -/
theorem handle_enabled {ι : Type} [DecidableEq ι] (i : ι) {o : Op} (w : World ι)
    (ho : o = .lockPolling → w.mPollingMutex = none) :
    ∃ c, c.isChunk = false ∧ (handle i o w c).isSome = true := by
  cases o with
  | setopt h opt a =>
    cases h with
    | none => exact ⟨.fail 0, rfl, rfl⟩
    | some h => exact ⟨.ok, rfl, rfl⟩
  | perform h =>
    cases h with
    | none => exact ⟨.fail 0, rfl, rfl⟩
    | some h => exact ⟨.transfer [] .ok, rfl, rfl⟩
  | slistAppend l s => cases l <;> exact ⟨.ok, rfl, rfl⟩
  | lockPolling => exact ⟨.ok, rfl, by simp [handle, ho rfl]⟩
  | _ => exact ⟨.ok, rfl, rfl⟩

/-! ## The sections of the calls -/

/-- The protocol of `mPollingMutex`: locks and unlocks in turn. From a lock to the unlock, the ghost
state is how many operations are left, with the unlock. -/
def pollingProtocol : Protocol Op.Res (Option Nat) where
  may
    | left, .lockPolling => left = none
    | left, .unlockPolling => left ≠ none ∧ left ≠ some 0
    | left, _ => left ≠ some 0
  next
    | _, .lockPolling, _ => some 15
    | _, .unlockPolling, _ => none
    | left, _, _ => left.map (· - 1)

theorem Op.Unlocked.keeps {o : Op} (ho : o.Unlocked) (left : Option Nat) :
    (pollingProtocol.may left o ↔ left ≠ some 0) ∧
      ∀ r, pollingProtocol.next left o r = left.map (· - 1) := by
  cases o with
  | lockPolling => exact absurd rfl ho.1
  | unlockPolling => exact absurd rfl ho.2
  | _ => exact ⟨Iff.rfl, fun _ => rfl⟩

/-- The rest of a call keeps to the protocol, and ends without the mutex. -/
abbrev Polls {α : Type} (p : Request α) (left : Option Nat) : Prop :=
  p.Safe pollingProtocol (fun _ left => left = none) left

/-- A call that does not hold the mutex and does not lock it. -/
theorem Polls.outside {α : Type} {p : Request α} (hp : p.All Op.Unlocked) : Polls p none :=
  Prog.Safe.all hp fun o ho => ⟨(ho.keeps none).1.mpr (by simp), fun r => (ho.keeps none).2 r⟩

/-- In a section, each operation counts. -/
theorem Polls.inside {α : Type} {p : Request α} {m k : Nat} (hp : p.All Op.Unlocked)
    (hm : p.Within m) :
    p.Safe pollingProtocol (fun _ left => ∃ j, k ≤ j ∧ left = some j) (some (m + k)) := by
  induction p generalizing m with
  | ret a => exact ⟨m + k, by omega, rfl⟩
  | op o f ih =>
    have hpos := hm.1
    refine ⟨(hp.1.keeps _).1.mpr (by simp; omega), fun r => ?_⟩
    rw [(hp.1.keeps _).2 r]
    have hleft : (some (m + k)).map (· - 1) = some (m - 1 + k) := by
      simp only [Option.map_some, Option.some.injEq]
      omega
    rw [hleft]
    exact ih r (hp.2 r) (hm.2 r)

theorem unlocked_sendBody (method url content : Str) (type : RestContentType) :
    (sendBody method url content type).All Op.Unlocked := by
  have hset : ∀ {h : Option EasyId} {o : CurlOpt} {a : Arg}, (Op.setopt h o a).Unlocked := by
    simp [Op.Unlocked]
  have happend : ∀ {l : Option SlistId} {s : Str}, (Op.slistAppend l s).Unlocked := by
    simp [Op.Unlocked]
  have hcatch : ∀ (headers : Option SlistId) (status : HttpStatus),
      (freeHeader headers >>= fun _ => pure status : Request HttpStatus).All Op.Unlocked := by
    intro headers status
    cases headers with
    | none => trivial
    | some l => exact ⟨by simp [Op.Unlocked], fun _ => trivial⟩
  have hheaders : ∀ dataType, (addSecurityHeaders dataType).All Op.Unlocked := fun _ =>
    ⟨happend, fun _ => ⟨happend, fun _ => ⟨happend, fun _ => ⟨happend, fun _ =>
      ⟨happend, fun _ => trivial⟩⟩⟩⟩⟩
  unfold sendBody
  refine ⟨by simp [Op.Unlocked], fun _ => ⟨hset, fun _ => all_checked hset (hcatch ..) ?_⟩⟩
  refine (hheaders _).bind fun headers => ?_
  refine all_checked hset (hcatch ..) (all_checked hset (hcatch ..) ?_)
  refine all_checked hset (hcatch ..) (all_checked hset (hcatch ..) ?_)
  refine ⟨by simp [Op.Unlocked], fun (r : CurlCode) => ?_⟩
  show Prog.All _ (if r ≠ .ok then catchRequest headers else _)
  split
  · exact hcatch ..
  · exact hcatch ..

/-- The section of `PostPollingData` has the request and the unlock. -/
theorem polls_postPollingData (uri : Str) (data : RestData) :
    Polls (postPollingData uri data) none := by
  refine Prog.safe_call rfl fun _ => Prog.Safe.bind ?_
  show (sendBody (str "POST") uri data.getContent data.getType).Safe _ _ (some (14 + 1))
  refine (Polls.inside (unlocked_sendBody ..) (within_sendBody ..)).mono ?_
  rintro status _ ⟨j, hj, rfl⟩
  exact Prog.safe_call ⟨by simp, by simp; omega⟩ fun _ => rfl

/-- The calls of the worker leave `mPollingMutex` alone. -/
theorem unlocked_request (method url content : Str) (type : RestContentType) :
    (withoutData (sendBody method url content type)).All Op.Unlocked :=
  (unlocked_sendBody ..).bind fun _ => trivial

/-- A call starts without the mutex. -/
theorem polls_body (g : Job) : Polls g.body none := by
  have hset : ∀ {h : Option EasyId} {o : CurlOpt} {a : Arg}, (Op.setopt h o a).Unlocked := by
    simp [Op.Unlocked]
  have htls : updateTLSInfo.All Op.Unlocked :=
    updateTLSInfo_all (by simp [Op.Unlocked]) fun _ _ _ _ => hset
  cases g with
  | startOptions => exact Polls.outside ⟨hset, fun _ => ⟨hset, fun _ => trivial⟩⟩
  | call g =>
    cases g with
    | post | put => exact Polls.outside (unlocked_request ..)
    | postPollingData uri data =>
      exact Prog.Safe.bind ((polls_postPollingData uri data).mono fun _ _ h => h)
    | getDeviceData uri =>
      refine Polls.outside ⟨by simp [Op.Unlocked], fun _ =>
        ⟨by simp [Op.Unlocked], fun ptr => ?_⟩⟩
      refine (getRest_all uri hset ?_ ?_ ?_).bind fun _ => trivial <;> simp [Op.Unlocked]
    | setCertificateAttributes cert =>
      exact Polls.outside ⟨by simp [Op.Unlocked], fun _ => htls.bind fun _ => trivial⟩
    | updateTLSInfo => exact Polls.outside (htls.bind fun _ => trivial)

namespace Service

variable {T C : Type} [DecidableEq T] [DecidableEq C] {s s' : Service T C}
  {G : Service T C → Act T C → Prop} {i : RequestId C}

/-- The requests of the worker leave `mPollingMutex` alone. -/
theorem unlocked_reach (h : (service T C).Reach G s) {n : Nat}
    {p : Request Reply} (hp : s.pool.calls (.worker n) = some p) : p.All Op.Unlocked := by
  have hinv := Pool.inv (J := fun _ : World (RequestId C) => True)
    (L := fun i q _ => ∀ n, i = .worker n → ∀ p, q = some p → p.All Op.Unlocked)
    ?_ ?_ ?_ (jobs_reach h)
  · exact hinv.2 (.worker n) n rfl p hp
  · rintro w -
    exact ⟨trivial, fun i n _ p e => by cases e⟩
  · rintro calls i g w hmay - - n rfl p e
    obtain rfl := Option.some.inj e
    cases g with
    | startOptions => cases hmay
    | call g =>
      cases g with
      | post | put => exact unlocked_request ..
      | _ => cases hmay
  · rintro s i c o k r w' - hcur hs - hL
    refine ⟨trivial, fun n hn p e => ?_, fun j _ => hL j⟩
    obtain rfl := Option.some.inj e
    have hall := hL i n hn _ hcur
    cases r with
    | none => exact hall
    | some x => exact hall.2 x

/-- A call is in a section if and only if it owns the mutex, and has at most 15 operations left. -/
def Owns (gs : RequestId C → Option Nat) (w : World (RequestId C)) : Prop :=
  ∀ i, (w.mPollingMutex = some i ↔ gs i ≠ none) ∧ ∀ m, gs i = some m → m ≤ 15

theorem Owns.step {gs : RequestId C → Option Nat} {w w' : World (RequestId C)} {o : Op} {c : Choice}
    {r : Option o.Res} (h : Owns gs w) (hmay : pollingProtocol.may (gs i) o)
    (hs : handle i o w c = some (r, w')) :
    Owns (Function.update gs i (pollingProtocol.after (gs i) o r)) w' := by
  intro j
  have hold := h j
  by_cases hj : j = i
  · subst hj
    rw [Function.update_self]
    rcases handle_mutex hs with ⟨rfl, hr, -, hm⟩ | ⟨rfl, hr, hm⟩ | ⟨ho, hm⟩
    · obtain ⟨x, rfl⟩ := Option.ne_none_iff_exists'.mp hr
      exact ⟨by simp [hm, Protocol.after, pollingProtocol], fun m e => by cases e; omega⟩
    · obtain ⟨x, rfl⟩ := Option.ne_none_iff_exists'.mp hr
      exact ⟨by simp [hm, Protocol.after, pollingProtocol], fun m e => by cases e⟩
    · rw [hm]
      cases r with
      | none => exact hold
      | some x =>
        rw [Protocol.after, (ho.keeps _).2 x]
        refine ⟨by simpa using hold.1, fun m e => ?_⟩
        obtain ⟨k, hk, rfl⟩ := Option.map_eq_some_iff.mp e
        have hle := hold.2 k hk
        omega
  · -- another call neither gets the mutex by this step nor loses it
    rw [Function.update_of_ne hj]
    refine ⟨?_, hold.2⟩
    rw [← hold.1]
    rcases handle_mutex hs with ⟨-, -, hfree, hm⟩ | ⟨rfl, -, hm⟩ | ⟨-, hm⟩
    · rw [hfree, hm]
      simp [Ne.symm hj]
    · rw [(h i).1.mpr hmay.1, hm]
      simp [Ne.symm hj]
    · rw [hm]

/-- **Mutual exclusion.** Of the calls on libcurl, the owner of `mPollingMutex` is in a section and
no other call is. -/
theorem polling_reach (h : (service T C).Reach G s) : ∃ gs, Owns gs s.world ∧
    Pool.Follows pollingProtocol (fun _ left => left = none) none s.pool.calls gs := by
  refine Pool.safe ?_ (fun _ _ g _ => polls_body g) ?_ (jobs_reach h)
  · rintro w ⟨-, -, hm⟩ i
    exact ⟨by simp [hm], by simp⟩
  · intro s i c o k r w gs _ hcur hs hf hown
    exact hown.step (hf.may hcur) hs

/-! ## Progress -/

/-- The step is one of the call `i`, and no chunk that arrives. -/
def ofCall (i : RequestId C) : Act T C → Bool
  | .step j c => decide (j = i) && !c.isChunk
  | _ => false

/-- The call can take a step that is no chunk. -/
def CanStep (s : Service T C) (i : RequestId C) : Prop :=
  ∃ c, c.isChunk = false ∧ ((service T C).next s (.step i c)).isSome = true

theorem canStep_of {o : Op} {k : o.Res → Request Reply} (hp : s.pool.calls i = some (.op o k))
    (ho : o = .lockPolling → s.world.mPollingMutex = none) : s.CanStep i := by
  obtain ⟨c, hc, hx⟩ := handle_enabled i s.world ho
  refine ⟨c, hc, ?_⟩
  simp only [service, jobs, Pool.sys, Pool.stepNext, hp, Option.isSome_map]
  exact hx

/-- A call that holds the mutex has an operation to make, which is no lock. -/
theorem owner_at (h : (service T C).Reach G s) (hm : s.world.mPollingMutex = some i) :
    ∃ p m, s.pool.calls i = some p ∧ m ≤ 15 ∧ Polls p (some m) := by
  obtain ⟨gs, hown, hf⟩ := polling_reach h
  obtain ⟨m, hm⟩ := Option.ne_none_iff_exists'.mp ((hown i).1.mp hm)
  obtain ⟨hnone, hp⟩ := hf i
  rw [hm] at hnone hp
  cases hq : s.pool.calls i with
  | none => cases hnone hq
  | some p => exact ⟨p, m, rfl, (hown i).2 m hm, hp p hq⟩

/-- A call in a section is not at the lock, and its section is not over. -/
theorem Polls.section_op {o : Op} {k : o.Res → Request Reply} {m : Nat}
    (h : Polls (.op o k) (some m)) : o ≠ .lockPolling ∧ m ≠ 0 := by
  have hmay := h.1
  cases o with
  | lockPolling => cases hmay
  | unlockPolling => exact ⟨by simp, fun e => hmay.2 (congrArg some e)⟩
  | _ => exact ⟨by simp, fun e => hmay (congrArg some e)⟩

theorem owner_canStep (h : (service T C).Reach G s) (hm : s.world.mPollingMutex = some i) :
    s.CanStep i := by
  obtain ⟨p, m, hq, -, hp⟩ := owner_at h hm
  cases p with
  | ret r => cases hp
  | op o k =>
    exact canStep_of hq fun ho => absurd ho (Polls.section_op hp).1

/-- **No deadlock.** In every reachable state of the whole wrapper, a call on libcurl that has not
returned can step, or it is a `PostPollingData` that waits for `mPollingMutex`, and the call that
owns the mutex is another one and can step. -/
theorem calls_go_on (h : (service T C).Reach Sys.Any s) {o : Op} {k : o.Res → Request Reply}
    (hp : s.pool.calls i = some (.op o k)) :
    s.CanStep i ∨ o = .lockPolling ∧
      ∃ j, j ≠ i ∧ s.world.mPollingMutex = some j ∧ s.CanStep j := by
  by_cases ho : o = .lockPolling
  · cases hm : s.world.mPollingMutex with
    | none => exact .inl (canStep_of hp fun _ => hm)
    | some j =>
      refine .inr ⟨ho, j, ?_, rfl, owner_canStep h hm⟩
      rintro rfl
      obtain ⟨p, m, hq, -, hpolls⟩ := owner_at h hm
      rw [hp] at hq
      obtain rfl := Option.some.inj hq
      exact (Polls.section_op hpolls).1 ho
  · exact .inl (canStep_of hp fun e => absurd e ho)

/-- Two calls of `PostPollingData`; the first has the mutex, and the second is at its lock. -/
def polled : List (Act Unit Bool) :=
  [.call true (.postPollingData [97] ⟨[123], .typeJson⟩), .step (.client true) .ok,
    .call false (.postPollingData [98] ⟨[125], .typeJson⟩)]

/-- The second call waits, and the first goes on. -/
theorem calls_go_on_polled :
    ∃ s : Service Unit Bool, ∃ o k, (service Unit Bool).run (start Unit Bool) polled = some s ∧
      s.pool.calls (.client false) = some (.op o k) ∧
        (s.CanStep (.client false) ∨ o = .lockPolling ∧ ∃ j, j ≠ .client false ∧
          s.world.mPollingMutex = some j ∧ s.CanStep j) := by
  obtain ⟨s, hr, hs⟩ := Option.map_eq_some_iff.mp (show ((service Unit Bool).run (start Unit Bool)
    polled).map (fun s => (Pool.returned (s.pool.calls (.client false)),
      (s.pool.calls (.client false)).isSome)) = some (false, true) by decide)
  obtain ⟨hgoing, hmade⟩ := Prod.mk.inj hs
  cases hp : s.pool.calls (.client false) with
  | none => rw [hp] at hmade; cases hmade
  | some p =>
    cases p with
    | ret r => rw [hp] at hgoing; cases hgoing
    | op o k => exact ⟨s, o, k, hr, hp, calls_go_on (Sys.Reach.run (.init start_init) hr) hp⟩

/-- A step that is none of the call `i` leaves the call alone, and one of it goes on with it. -/
theorem Step.call_next {a : Act T C} {p : Request Reply} (h : s.Step a s')
    (hp : s.pool.calls i = some p) :
    ofCall i a = false ∧ s'.pool.calls i = some p ∨
      ∃ c o k r, ∃ w : World (RequestId C), a = .step i c ∧ p = .op o k ∧
        handle i o s.world c = some (r, w) ∧ s'.world = w ∧
        s'.pool.calls i = some (Pool.rest o k r) := by
  have hmade : ∀ (j : RequestId C) (q : Request Reply), s.pool.calls j = none →
      Function.update s.pool.calls j (some q) i = some p := by
    intro j q hnone
    have hne : i ≠ j := by
      rintro rfl
      rw [hnone] at hp
      cases hp
    rw [Function.update_of_ne hne]
    exact hp
  cases h with
  | queue | returns => exact .inl ⟨rfl, hp⟩
  | dispatch _ _ hnone => exact .inl ⟨rfl, hmade _ _ hnone⟩
  | startStore _ _ hnone => exact .inl ⟨rfl, hmade _ _ hnone⟩
  | call hnone _ => exact .inl ⟨rfl, hmade _ _ hnone⟩
  | @step j c o k r w hcur hs =>
    by_cases hj : j = i
    · subst hj
      rw [hcur] at hp
      exact .inr ⟨c, o, k, r, w, rfl, (Option.some.inj hp).symm, hs, rfl, Function.update_self ..⟩
    · refine .inl ⟨by simp [ofCall, hj], ?_⟩
      show Function.update s.pool.calls j _ i = some p
      rw [Function.update_of_ne (Ne.symm hj)]
      exact hp

/-- **The mutex is given back.** The call that owns `mPollingMutex` releases it within 15 steps of
its own, whatever the other threads and calls do. -/
theorem poll_ends (h : (service T C).Reach Sys.Any s) (hm : s.world.mPollingMutex = some i)
    {as : List (Act T C)} {t : Service T C} (hr : (service T C).run s as = some t)
    (hc : 15 ≤ as.countP (ofCall i)) :
    ¬ (service T C).Throughout (fun s => s.world.mPollingMutex = some i) s as := by
  obtain ⟨p, m, hq, hle, hp⟩ := owner_at h hm
  have hcount : m ≤ as.countP (ofCall i) := by omega
  have hend := Sys.meets (S := service T C) (I := fun _ => True) (G := Sys.Any)
    (P := fun s => s.world.mPollingMutex ≠ some i) (W := ofCall i)
    (M := fun s n => ∃ p m, s.pool.calls i = some p ∧ Polls p (some m) ∧ m ≤ n)
    (fun _ _ _ _ _ _ => trivial) ?_ ?_ trivial ⟨p, m, hq, hp, Nat.le_refl m⟩ ?_ hr hcount
  · intro hall
    refine hend ?_
    simpa using hall
  · rintro s - ⟨p, m, -, hp, hle⟩
    obtain rfl : m = 0 := by omega
    cases p with
    | ret a => cases hp
    | op o k => exact absurd rfl (Polls.section_op hp).2
  · rintro s a s' n - - - ⟨p, m, hq, hp, hle⟩ hn
    rcases (next_step hn).call_next hq with ⟨hW, hq'⟩ | ⟨c, o, k, r, w, rfl, rfl, hs, hw, hq'⟩
    · exact .inr ⟨n, ⟨p, m, hq', hp, hle⟩, by simp [hW]⟩
    · obtain ⟨hlock, hpos⟩ := Polls.section_op hp
      rcases handle_mutex hs with ⟨ho, -⟩ | ⟨-, -, hm'⟩ | ⟨ho, -⟩
      · exact absurd ho hlock
      · refine .inl ?_
        rw [hw, hm']
        simp
      · cases r with
        | none =>
          -- only a chunk lets the call go on at its operation
          have hchunk : c.isChunk = true := by
            by_contra hno
            obtain ⟨x, e⟩ := handle_returns hs (Bool.eq_false_iff.mpr hno)
            cases e
          exact .inr ⟨n, ⟨_, m, hq', hp, hle⟩, by simp [ofCall, hchunk]⟩
        | some x =>
          have hk := hp.2 x
          rw [(ho.keeps _).2 x] at hk
          refine .inr ⟨n - 1, ⟨_, m - 1, hq', hk, by omega⟩, ?_⟩
          have hbit := (ofCall i (Act.step (T := T) i c)).toNat_le
          omega
  · exact Sys.along_of_labels (P := fun _ => True) (fun _ _ _ => trivial) fun _ _ => trivial

/-- The first call sends its request, and releases the mutex in its last step. -/
theorem poll_ends_polled :
    ∃ s t : Service Unit Bool, s.world.mPollingMutex = some (.client true) ∧
      (service Unit Bool).run s (List.replicate 12 (.step (.client true) .ok) ++
        .step (.client true) (.transfer [[79]] .ok) ::
          List.replicate 2 (.step (.client true) .ok)) = some t ∧
      ¬ (service Unit Bool).Throughout (fun s => s.world.mPollingMutex = some (.client true)) s
        (List.replicate 12 (.step (.client true) .ok) ++
          .step (.client true) (.transfer [[79]] .ok) ::
            List.replicate 2 (.step (.client true) .ok)) := by
  obtain ⟨s, hr, hm⟩ := Option.map_eq_some_iff.mp (show ((service Unit Bool).run (start Unit Bool)
    polled).map (fun s => s.world.mPollingMutex) = some (some (.client true)) by decide)
  have hall : ((service Unit Bool).run (start Unit Bool)
      (polled ++ (List.replicate 12 (.step (.client true) .ok) ++
        .step (.client true) (.transfer [[79]] .ok) ::
          List.replicate 2 (.step (.client true) .ok)))).map (fun s => s.world.mPollingMutex) =
      some none := by decide
  rw [Sys.run_append, hr, Option.bind_some] at hall
  obtain ⟨t, ht, -⟩ := Option.map_eq_some_iff.mp hall
  exact ⟨s, t, hm, ht, poll_ends (Sys.Reach.run (.init start_init) hr) hm ht (by decide)⟩

end Service

end LibRest
