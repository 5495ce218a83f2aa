import LibRest.Among
import LibRest.Service

/-!
# Direct calls next to the worker

Which direct calls can change what the worker's request sends while it runs.

- **Operations** (`tryGet_all`, `getRest_all`, `updateTLSInfo_all`). What holds of each libcurl call
  that `GetData` and `UpdateTLSInfo` make.
- **`Unmixed`**: no step of a client's call writes an option of `mCurl` that says what is sent, and
  none extends a header list, while the worker is in `Post` or `Put`.
- **Calm programs** (`Calm`). `GetDeviceData` writes to a handle of its own, and
  `SetCertificateAttributes`, `UpdateTLSInfo` and `Start` write other options of `mCurl`. So only
  `PostPollingData` can be in the way (`unpolled_unmixed`).
-/

namespace LibRest

open Lib CurlHttpWrapper

namespace CurlHttpWrapper

/-! ## The operations of a call -/

/-- The `try` block of `GetData` uses its handle only. -/
theorem tryGet_all {P : Op → Prop} {ptr : Option EasyId} (url : Str)
    (hset : ∀ {opt : CurlOpt} {a : Arg}, P (.setopt ptr opt a)) (hperform : P (.perform ptr))
    (hcleanup : ∀ {h : EasyId}, P (.cleanup h)) : (tryGet ptr url).All P := by
  have hcatch : (catchGet ptr).All P := by
    cases ptr with
    | none => trivial
    | some h => exact ⟨hcleanup, fun _ => trivial⟩
  unfold tryGet
  refine ⟨hset, fun _ => ⟨hset, fun _ => ⟨hset, fun _ => ?_⟩⟩⟩
  refine all_checked hset hcatch (all_checked hset hcatch ?_)
  refine all_checked hset hcatch (all_checked hset hcatch ?_)
  refine ⟨hperform, fun (r : CurlCode) => ?_⟩
  show Prog.All _ (if r ≠ .ok then catchGet ptr else pure .success)
  split
  · exact hcatch
  · trivial

/-- `GetData` after the making of its handle. -/
theorem getRest_all {P : Op → Prop} {ptr : Option EasyId} (url : Str)
    (hset : ∀ {opt : CurlOpt} {a : Arg}, P (.setopt ptr opt a)) (hperform : P (.perform ptr))
    (hcleanup : ∀ {h : EasyId}, P (.cleanup h)) (hread : P (.read .strHttpGetData)) :
    (tryGet ptr url >>= fun status => Prog.call (Op.read .strHttpGetData) >>= fun data =>
      cleanCurl ptr >>= fun _ => pure (status, data) : Request (HttpStatus × Str)).All P := by
  refine (tryGet_all url hset hperform hcleanup).bind fun status => ⟨hread, fun (data : Str) => ?_⟩
  show Prog.All _ (cleanCurl ptr >>= fun _ => pure (status, data))
  cases ptr with
  | none => trivial
  | some h => exact ⟨hcleanup, fun _ => trivial⟩

theorem updateTLSInfo_all {P : Op → Prop} (hload : P .loadCert)
    (hset : ∀ opt a, opt ∈ tlsOptions → (∀ l, a ≠ .slist l) → P (.setopt (some mCurl) opt a)) :
    updateTLSInfo.All P := by
  have hstop : (pure HttpStatus.failure : Request HttpStatus).All P := trivial
  have hlong : ∀ {opt : CurlOpt} {n : Nat}, opt ∈ tlsOptions →
      P (.setopt (some mCurl) opt (.long n)) := fun h => hset _ _ h (by simp)
  have htext : ∀ {opt : CurlOpt} {s : Str}, opt ∈ tlsOptions →
      P (.setopt (some mCurl) opt (.text s)) := fun h => hset _ _ h (by simp)
  unfold updateTLSInfo
  refine ⟨hload, fun cert => ⟨hset _ _ (by decide) (by simp), fun _ => ?_⟩⟩
  refine all_checked (htext (by decide)) hstop (all_checked (htext (by decide)) hstop ?_)
  refine all_checked (htext (by decide)) hstop (all_checked (htext (by decide)) hstop ?_)
  refine all_checked (htext (by decide)) hstop (all_checked (htext (by decide)) hstop ?_)
  exact all_checked (hlong (by decide)) hstop trivial

end CurlHttpWrapper

namespace Service

variable {T C : Type} [DecidableEq T] [DecidableEq C] {s s' : Service T C}

/-- `mCurl` exists. -/
theorem live_reach {G : Service T C → Act T C → Prop} (h : (service T C).Reach G s) :
    mCurl < s.world.easyCount := by
  have hinv := Pool.inv (J := fun w : World (RequestId C) => mCurl < w.easyCount)
    (L := fun _ _ _ => True) ?_ ?_ ?_ (jobs_reach h)
  · exact hinv.1
  · rintro w ⟨-, hw, -⟩
    exact ⟨hw, fun _ => trivial⟩
  · intros; trivial
  · rintro s i c o k r w' - - hs hw -
    have he := (World.handle_effect hs).easyCount
    exact ⟨Nat.lt_of_lt_of_le hw he, trivial, fun _ _ => trivial⟩

/-- A direct call changes nothing that a request sends while the worker's request runs. -/
def Unmixed (s : Service T C) : Act T C → Prop
  | .step (.client c) _ => ∀ o k, s.pool.calls (.client c) = some (.op o k) →
    Op.TouchesRequest o → ∀ pl, s.queue.worker ≠ .running pl
  | _ => True

/-- The step calls no `PostPollingData`. -/
def Unpolled (_ : Service T C) (a : Act T C) : Prop :=
  ∀ c uri data, a ≠ .call c (.postPollingData uri data)

instance (s : Service T C) (a : Act T C) : Decidable (Unpolled s a) :=
  match a with
  | .call c (.postPollingData uri data) => .isFalse fun h => h c uri data rfl
  | .call _ (.post ..) | .call _ (.put ..) | .call _ (.getDeviceData _)
  | .call _ (.setCertificateAttributes _) | .call _ .updateTLSInfo | .queue _ | .dispatch
  | .returns | .startStore .. | .step .. => .isTrue fun _ _ _ e => by cases e

/-! ## Calm programs -/

/-- The rest of a call that touches nothing that a request sends; a handle that it makes is not
`mCurl`. -/
def Calm {α : Type} : Request α → Prop
  | .ret _ => True
  | .op .easyInit k => ∀ h : Option EasyId, h ≠ some mCurl → Calm (k h)
  | .op o k => ¬ Op.TouchesRequest o ∧ ∀ r, Calm (k r)

variable {α β : Type}

theorem Calm.of_all {p : Request α} (h : p.All fun o => ¬ Op.TouchesRequest o) : Calm p := by
  induction p with
  | ret a => trivial
  | op o k ih =>
    have hk : ∀ r, Calm (k r) := fun r => ih r (h.2 r)
    cases o
    case easyInit => exact fun r _ => hk r
    all_goals exact ⟨h.1, hk⟩

/-- The operation at which a calm call is. -/
theorem Calm.not_touches {o : Op} {k : o.Res → Request α} (h : Calm (.op o k)) :
    ¬ Op.TouchesRequest o := by
  cases o
  case easyInit => exact id
  all_goals exact h.1

/-- A step of a calm call. -/
theorem Calm.next {ι : Type} [DecidableEq ι] {i : ι} {w w' : World ι} {c : Choice} {o : Op}
    {k : o.Res → Request α} {r : Option o.Res} (h : Calm (.op o k)) (hw : mCurl < w.easyCount)
    (hs : handle i o w c = some (r, w')) : Calm (Pool.rest o k r) := by
  cases r with
  | none => exact h
  | some r =>
    cases o
    case easyInit =>
      refine h r fun e => ?_
      cases c <;> cases hs
      · exact absurd (Option.some.inj e) (Nat.ne_of_gt hw)
      · cases e
    all_goals exact h.2 r

theorem calm_getDeviceData (uri : Str) : Calm (Call.getDeviceData uri).body := by
  refine ⟨id, fun _ ptr hptr => .of_all ?_⟩
  have hset : ∀ {opt : CurlOpt} {a : Arg}, ¬ Op.TouchesRequest (.setopt ptr opt a) :=
    fun h => hptr h.1
  exact (getRest_all uri hset id id id).bind fun _ => trivial

theorem quiet_updateTLSInfo : updateTLSInfo.All fun o => ¬ Op.TouchesRequest o := by
  have hapart : ∀ opt ∈ tlsOptions, opt ∉ sendOptions := by decide
  exact updateTLSInfo_all id fun opt _ hopt _ h => hapart opt hopt h.2

theorem calm_updateTLSInfo : Calm Call.updateTLSInfo.body :=
  .of_all (quiet_updateTLSInfo.bind fun _ => trivial)

theorem calm_setCertificateAttributes (cert : Certificate) :
    Calm (Call.setCertificateAttributes cert).body :=
  .of_all ⟨id, fun _ => quiet_updateTLSInfo.bind fun _ => trivial⟩

theorem calm_startOptions : Calm Job.startOptions.body := by
  have hset : ∀ {opt : CurlOpt} {a : Arg}, opt ∉ sendOptions →
      ¬ Op.TouchesRequest (.setopt (some mCurl) opt a) := fun hopt h => hopt h.2
  exact .of_all ⟨hset (by decide), fun _ => ⟨hset (by decide), fun _ => trivial⟩⟩

/-! ## Runs without polling -/

/-- Without `PostPollingData`, the calls of clients are calm. -/
theorem calm_reach (h : (service T C).Reach Unpolled s) {c : C} {p : Request Reply}
    (hp : s.pool.calls (.client c) = some p) : Calm p := by
  refine h.inv (I := fun s => ∀ c p, s.pool.calls (.client c) = some p → Calm p) ?_ ?_ c p hp
  · rintro s ⟨-, ⟨-, hcalls⟩, -⟩ c p hp
    rw [hcalls] at hp
    cases hp
  · intro s a s' hreach hg hn hi c p hp
    -- only the call `i` of the step is another program than before
    have hone : ∀ (i : RequestId C) (q : Request Reply), (∀ c', i = .client c' → Calm q) →
        s'.pool.calls = Function.update s.pool.calls i (some q) → Calm p := by
      intro i q hq e
      rw [e] at hp
      by_cases hi' : RequestId.client c = i
      · subst hi'
        rw [Function.update_self] at hp
        obtain rfl := Option.some.inj hp
        exact hq c rfl
      · rw [Function.update_of_ne hi'] at hp
        exact hi c p hp
    cases next_step hn with
    | queue | returns => exact hi c p hp
    | dispatch => exact hone (.worker s.queue.dispatched.length) _ (by simp) rfl
    | startStore => exact hone _ _ (fun _ _ => calm_startOptions) rfl
    | @call c' g hnone hmay =>
      refine hone (.client c') g.body (fun _ _ => ?_) rfl
      cases g with
      | getDeviceData uri => exact calm_getDeviceData uri
      | setCertificateAttributes cert => exact calm_setCertificateAttributes cert
      | updateTLSInfo => exact calm_updateTLSInfo
      | postPollingData uri data => exact absurd rfl (hg c' uri data)
      | _ => cases hmay
    | @step i ch o k r w hcur hr =>
      refine hone i (Pool.rest o k r) (fun c' e => ?_) rfl
      subst e
      exact (hi c' _ hcur).next (live_reach hreach) hr

end Service

end LibRest
