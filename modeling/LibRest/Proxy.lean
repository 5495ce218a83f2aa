import LibRest.Enqueue
import LibRest.History

/-!
# The facade as a proxy

`RestAPIFacade` has the same functions as the `CurlHttpWrapper` that it owns, and calls them
(`RestAPIFacade.cpp`). Both are an implementation of one interface (`DeviceApi`), on the same state.

- **Methods** (`Method`). A call gets its outcome: where it throws, and what libcurl does in it. So
  one history can be run on both classes with the same outcomes (`DeviceApi.history`).
- **What the facade hides** (`facade_history`). The states and the data are those of the wrapper;
  the status is that of the wrapper for `SetCertificateAttributes`, and `SUCCESS` for the others.
- **GET** (`getData_run`). Which outcomes end with `SUCCESS`, and with which data.
-/

namespace LibRest

open Lib

namespace CurlHttpWrapper

variable {ι : Type} [DecidableEq ι] {i : ι} {w w' w₀ : World ι} {cs rest : List Choice} {α : Type}
  {h : EasyId} {o : CurlOpt} {a : Arg} {S : SlistId → Slist} {may : List CurlOpt}
  {kn : List (CurlOpt × Arg)} {status : HttpStatus}

/-! ## GET -/

/-- A run that starts with a `curl_easy_setopt`. -/
theorem Since.exec_setopt {k : CurlCode → Request α} {x : α × World ι × List Choice}
    (hs : Since w₀ h S may kn w) (hn : o ∉ kn.map Prod.fst)
    (hr : Prog.exec (handle i) (setopt (some h) o a >>= k) w cs = some x) :
    ∃ c cs' r w₁, cs = c :: cs' ∧ Prog.exec (handle i) (k r) w₁ cs' = some x ∧
      ((c = .ok ∧ r = .ok ∧ Since w₀ h S may ((o, a) :: kn) w₁) ∨
        (∃ n, c = .fail n ∧ r = .error n) ∧ Since w₀ h S may kn w₁) := by
  obtain ⟨c, cs', r, w₁, rfl, e, hrest⟩ := Prog.exec_call hr
  refine ⟨c, cs', r, w₁, rfl, hrest, ?_⟩
  obtain ⟨m, ⟨hc, hok, rfl⟩ | ⟨hfail, rfl⟩⟩ := setopt_cases e
  · exact .inl ⟨hc, hok, (hs.misuse m).record hn⟩
  · exact .inr ⟨hfail, hs.misuse m⟩

/-- The option is set if the call succeeds. -/
def setIf (c : Choice) (p : CurlOpt × Arg) : List (CurlOpt × Arg) := if c = .ok then [p] else []

@[simp] theorem mem_setIf {c : Choice} {p q : CurlOpt × Arg} : q ∈ setIf c p ↔ c = .ok ∧ q = p := by
  unfold setIf
  split <;> simp [*]

theorem Since.exec_unchecked {k : CurlCode → Request α} {x : α × World ι × List Choice}
    (hs : Since w₀ h S may kn w) (hn : o ∉ kn.map Prod.fst)
    (hr : Prog.exec (handle i) (setopt (some h) o a >>= k) w cs = some x) :
    ∃ c cs' r w₁, cs = c :: cs' ∧ Prog.exec (handle i) (k r) w₁ cs' = some x ∧
      Since w₀ h S may (setIf c (o, a) ++ kn) w₁ := by
  obtain ⟨c, cs', r, w₁, hcs, hrest, ⟨rfl, -, h₁⟩ | ⟨⟨n, rfl, -⟩, h₁⟩⟩ := hs.exec_setopt hn hr
  · exact ⟨_, cs', r, w₁, hcs, hrest, h₁⟩
  · exact ⟨_, cs', r, w₁, hcs, hrest, h₁⟩

theorem Since.exec_checked {c k : Request α} {x : α × World ι × List Choice}
    (hs : Since w₀ h S may kn w) (hn : o ∉ kn.map Prod.fst)
    (hr : Prog.exec (handle i)
      (setopt (some h) o a >>= fun res => if res ≠ .ok then c else k) w cs = some x) :
    (∃ cs' w₁, cs = .ok :: cs' ∧ Since w₀ h S may ((o, a) :: kn) w₁ ∧
      Prog.exec (handle i) k w₁ cs' = some x) ∨
    ∃ n cs' w₁, cs = .fail n :: cs' ∧ Prog.exec (handle i) c w₁ cs' = some x := by
  obtain ⟨_, cs', r, w₁, hcs, hrest, ⟨rfl, rfl, h₁⟩ | ⟨⟨n, rfl, rfl⟩, h₁⟩⟩ :=
    hs.exec_setopt hn hr
  · exact .inl ⟨cs', w₁, hcs, h₁, hrest⟩
  · exact .inr ⟨n, cs', w₁, hcs, hrest⟩

theorem catchGet_failure
    (hr : Prog.exec (handle i) (catchGet (some h)) w cs = some (status, w', rest)) :
    status = .failure := by
  refine Prog.wp_exec (Q := fun status _ => status = .failure) ?_ hr
  exact wp_cleanCurl (.refl (handle i)) fun _ => rfl

/-- The outcomes of a GET whose checked calls and whose transfer return `CURLE_OK`; `a`, `b` and `e`
are those of the three calls that are not checked. -/
def tried (a b e : Choice) (chunks : List Str) (rest : List Choice) : List Choice :=
  a :: b :: e :: .ok :: .ok :: .ok :: .ok :: .transfer chunks .ok :: rest

/-- What a GET receives: the chunks, if the callback and its string are set. -/
def received (a b : Choice) (chunks : List Str) : Str :=
  if a = .ok ∧ b = .ok then chunks.flatten else []

omit [DecidableEq ι] in
/-- An option of a new handle: it has one value if the call that sets it succeeds, and none
otherwise. -/
theorem Since.opts_new {c : Choice} (hnew : ∀ o, w₀.opts h o = none)
    (hs : Since w₀ h S [] kn w) (hkn : ∀ v, (o, v) ∈ kn ↔ c = .ok ∧ v = a) :
    (c = .ok → ∃ j, w.opts h o = some (a, j)) ∧ (c ≠ .ok → w.opts h o = none) := by
  constructor
  · intro hc
    exact hs.known (o, a) ((hkn a).mpr ⟨hc, rfl⟩)
  · intro hc
    rw [hs.other o nofun ?_]
    · exact hnew o
    · intro hmem
      obtain ⟨⟨o', v⟩, hv, rfl⟩ := List.mem_map.mp hmem
      exact hc ((hkn v).mp hv).1

/-- What a transfer on a new handle receives, if its write callback and its string are set by calls
with the outcomes `b` and `c`. -/
theorem Since.receives {b c : Choice} (hnew : ∀ o, w₀.opts h o = none)
    (hs : Since w₀ h S [] kn w)
    (hf : ∀ v, (.writeFunction, v) ∈ kn ↔ b = .ok ∧ v = .callback .getWriteCallback)
    (hd : ∀ v, (.writeData, v) ∈ kn ↔ c = .ok ∧ v = .buffer .strHttpGetData) (m : Nat)
    (chunks : List Str) (code : CurlCode) :
    (({ w with misuse := m } : World ι).perform i h chunks code).buffer .strHttpGetData =
      w₀.buffer .strHttpGetData ++ received b c chunks := by
  obtain ⟨hfset, hfnone⟩ := hs.opts_new hnew hf
  obtain ⟨hdset, hdnone⟩ := hs.opts_new hnew hd
  unfold received
  by_cases hset : b = .ok ∧ c = .ok
  · rw [if_pos hset]
    obtain ⟨j, hj⟩ := hfset hset.1
    have ht : ({ w with misuse := m } : World ι).Target h .strHttpGetData :=
      ⟨⟨_, j, hj⟩, hdset hset.2⟩
    rw [World.perform_target ht]
    show w.buffer .strHttpGetData ++ _ = _
    rw [hs.buffer]
  · rw [if_neg hset, List.append_nil]
    have hnot : ¬ w.Target h .strHttpGetData := by
      rintro ⟨⟨f, j, hf⟩, j', hd⟩
      refine hset ⟨?_, ?_⟩
      · by_contra hb
        rw [hfnone hb] at hf
        cases hf
      · by_contra hc
        rw [hdnone hc] at hd
        cases hd
    have hvalue : ∀ v j, w.opts h .writeData = some (v, j) → v = .buffer .strHttpGetData := by
      intro v j hv
      by_cases hc : c = .ok
      · obtain ⟨j', hj⟩ := hdset hc
        rw [hj] at hv
        cases hv
        rfl
      · rw [hdnone hc] at hv
        cases hv
    rcases World.delivers_or_discards (w := { w with
      misuse := m
      performs := w.performs ++ [({ w with misuse := m } : World ι).performed i h chunks code] })
      i hvalue chunks with ht | e
    · exact absurd ht hnot
    · show (chunks.foldl (World.deliver i h) _).buffer .strHttpGetData = _
      rw [e, ← hs.buffer]

/-- A run of the `try` block of `GetData` on a new handle. -/
theorem tryGet_run {url : Str} (hnew : ∀ o, w.opts h o = none)
    (hr : Prog.exec (handle i) (tryGet (some h) url) w cs = some (status, w', rest)) :
    (status = .success ∧ ∃ a b e chunks, cs = tried a b e chunks rest ∧
      w'.buffer .strHttpGetData = w.buffer .strHttpGetData ++ received a b chunks) ∨
    status = .failure ∧ ∀ a b e chunks rest', cs ≠ tried a b e chunks rest' := by
  unfold tryGet at hr
  obtain ⟨a, cs, _, w₁, rfl, hr₁, h₁⟩ := (Since.refl w h).exec_unchecked nofun hr
  obtain ⟨b, cs, _, w₂, rfl, hr₂, h₂⟩ := h₁.exec_unchecked (by simp) hr₁
  obtain ⟨e, cs, _, w₃, rfl, hr₃, h₃⟩ := h₂.exec_unchecked (by simp) hr₂
  obtain ⟨cs, w₄, rfl, h₄, hr₄⟩ | ⟨n, cs, w₄, rfl, hr₄⟩ := h₃.exec_checked (by simp) hr₃
  swap
  · refine .inr ⟨catchGet_failure hr₄, fun _ _ _ _ _ heq => ?_⟩
    cases heq
  obtain ⟨cs, w₅, rfl, h₅, hr₅⟩ | ⟨n, cs, w₅, rfl, hr₅⟩ := h₄.exec_checked (by simp) hr₄
  swap
  · refine .inr ⟨catchGet_failure hr₅, fun _ _ _ _ _ heq => ?_⟩
    cases heq
  obtain ⟨cs, w₆, rfl, h₆, hr₆⟩ | ⟨n, cs, w₆, rfl, hr₆⟩ := h₅.exec_checked (by simp) hr₅
  swap
  · refine .inr ⟨catchGet_failure hr₆, fun _ _ _ _ _ heq => ?_⟩
    cases heq
  obtain ⟨cs, w₇, rfl, h₇, hr₇⟩ | ⟨n, cs, w₇, rfl, hr₇⟩ := h₆.exec_checked (by simp) hr₆
  swap
  · refine .inr ⟨catchGet_failure hr₇, fun _ _ _ _ _ heq => ?_⟩
    cases heq
  obtain ⟨c, cs, (code : CurlCode), w₈, rfl, e₈, hr₈⟩ := Prog.exec_call hr₇
  obtain ⟨m, chunks, rfl, rfl⟩ : ∃ m chunks, c = .transfer chunks code ∧
      w₈ = ({ w₇ with misuse := m } : World ι).perform i h chunks code := by
    obtain ⟨m, hm⟩ := World.use_eq w₇ h
    cases c <;> cases e₈
    rw [hm]
    exact ⟨m, _, rfl, rfl⟩
  have hbuf := h₇.receives (i := i) (b := a) (c := b) hnew (by simp) (by simp) m chunks code
  by_cases hcode : code = .ok
  · subst hcode
    cases hr₈
    exact .inl ⟨rfl, a, b, e, chunks, rfl, hbuf⟩
  · have hr₉ : Prog.exec (handle i) (if code ≠ .ok then catchGet (some h) else pure .success) _ cs =
        some (status, w', rest) := hr₈
    rw [if_pos hcode] at hr₉
    refine .inr ⟨catchGet_failure hr₉, fun a' b' e' chunks' rest' e => ?_⟩
    unfold tried at e
    simp only [List.cons.injEq, Choice.transfer.injEq] at e
    exact hcode e.2.2.2.2.2.2.2.1.2

/-- The outcomes of a GET whose checked calls and whose transfer return `CURLE_OK`. -/
def fetched (a b e : Choice) (chunks : List Str) : List Choice :=
  .ok :: .ok :: tried a b e chunks [.ok, .ok]

/-- **GET.** The status is `SUCCESS` exactly if all checked calls and the transfer return
`CURLE_OK`, and then the data are what the write callback received. -/
theorem getData_run {uri : Str} {data : Str}
    (hr : Prog.exec (handle i) (getData uri) w cs = some ((status, data), w', [])) :
    (status = .success ∧ ∃ a b e chunks, cs = fetched a b e chunks ∧
      data = received a b chunks) ∨
    status = .failure ∧ ∀ a b e chunks, cs ≠ fetched a b e chunks := by
  unfold getData at hr
  obtain ⟨c₀, cs, _, w₁, rfl, e₀, hr₁⟩ := Prog.exec_call hr
  cases c₀ <;> cases e₀
  obtain ⟨c₁, cs, curlPtr, w₂, rfl, e₁, hr₂⟩ := Prog.exec_call hr₁
  cases c₁ <;> cases e₁
  · obtain ⟨st, w₃, cs', hr₃, hr₄⟩ := Prog.exec_seq hr₂
    obtain ⟨c₄, cs', data', w₄, rfl, e₄, hr₅⟩ := Prog.exec_call hr₄
    cases c₄ <;> cases e₄
    obtain ⟨c₅, cs', _, w₅, rfl, e₅, hr₆⟩ := Prog.exec_call hr₅
    cases c₅ <;> cases e₅
    cases hr₆
    rcases tryGet_run (fun o => by simp [World.newEasy, World.opts, Easy.new]) hr₃ with
      ⟨hst, a, b, e, chunks, rfl, hbuf⟩ | ⟨hst, hcs⟩
    · refine .inl ⟨hst, a, b, e, chunks, rfl, hbuf.trans ?_⟩
      simp [World.newEasy]
    · refine .inr ⟨hst, fun a b e chunks heq => hcs a b e chunks [.ok, .ok] ?_⟩
      exact (List.cons.inj (List.cons.inj heq).2).2
  · obtain ⟨st, w₃, cs', hr₃, hr₄⟩ := Prog.exec_seq hr₂
    have hst := (Prog.wp_exec (wp_tryGet_null (.refl (handle i)) uri _) hr₃).1
    obtain ⟨c₄, cs', data', w₄, rfl, e₄, hr₅⟩ := Prog.exec_call hr₄
    cases hr₅
    refine .inr ⟨hst, fun a b e chunks heq => ?_⟩
    cases heq

end CurlHttpWrapper

/-! ## Methods -/

/-- What a call of a client can touch of a wrapper. -/
structure Wrapper where
  world : World Unit
  mHttpDataQueue : List Payload

/-- The outcome of a call, as far as it is decided outside: where the call throws, and what its
libcurl calls do. -/
structure Outcome where
  throws : ThrowPoint → Bool
  curl : List Choice

/-- A member function: it may throw, and works on a wrapper. -/
abbrev Method (α : Type) := ReaderT Outcome (ExceptT ThrowPoint (StateT Wrapper Option)) α

namespace Method

variable {α β : Type}

/-- A call. It has no result if the outcome does not fit. -/
def on (m : Method α) (o : Outcome) (s : Wrapper) : Option (Except ThrowPoint α × Wrapper) :=
  StateT.run (ExceptT.run (ReaderT.run m o)) s

/-- Code on the queue. -/
def queueing (p : (ThrowPoint → Bool) → CurlHttpWrapper.Queueing α) : Method α := fun o =>
  ExceptT.mk fun s =>
    let r := (p o.throws).on s.mHttpDataQueue
    some (r.1, { s with mHttpDataQueue := r.2 })

/-- A request that runs alone. -/
def requesting (p : Request α) : Method α := fun o =>
  ExceptT.mk fun s =>
    match Prog.exec (handle ()) p s.world o.curl with
    | some (a, w, []) => some (.ok a, { s with world := w })
    | _ => none

theorem on_map (f : α → β) (m : Method α) (o : Outcome) (s : Wrapper) :
    (f <$> m).on o s = (m.on o s).map fun x => (x.1.map f, x.2) := by
  unfold on
  simp only [ReaderT.run_map, ExceptT.run_map, StateT.run_map]
  rfl

theorem requesting_on {p : Request α} {o : Outcome} {s s' : Wrapper} {r : Except ThrowPoint α}
    (h : (requesting p).on o s = some (r, s')) :
    ∃ a, r = .ok a ∧ Prog.exec (handle ()) p s.world o.curl = some (a, s'.world, []) := by
  have hm : (match Prog.exec (handle ()) p s.world o.curl with
    | some (a, w, []) => some (Except.ok a, { s with world := w })
    | _ => none) = some (r, s') := h
  split at hm
  · rename_i a w he
    obtain ⟨rfl, rfl⟩ := Prod.mk.inj (Option.some.inj hm)
    exact ⟨a, rfl, he⟩
  · cases hm

theorem queueing_on {p : (ThrowPoint → Bool) → CurlHttpWrapper.Queueing α} {o : Outcome}
    {s s' : Wrapper} {r : Except ThrowPoint α} (h : (queueing p).on o s = some (r, s')) :
    ((p o.throws).on s.mHttpDataQueue).1 = r :=
  congrArg Prod.fst (Option.some.inj h)

end Method

/-! ## The interface -/

/-- The functions that the wrapper and the facade both have. -/
structure DeviceApi where
  createDeviceData (deviceUri : Str) (data : RestData) : Method HttpStatus
  getDeviceData (deviceUri : Str) : Method (HttpStatus × Str)
  updateDeviceData (deviceUri : Str) (data : RestData) : Method HttpStatus
  removeDeviceData (deviceUri : Str) : Method HttpStatus
  setCertificateAttributes (cert : Certificate) : Method HttpStatus

namespace CurlHttpWrapper

/-- `CurlHttpWrapper::RemoveDeviceData`. It sends nothing yet. -/
def removeDeviceData (_deviceUri : Str) : Method HttpStatus := do
  let status := HttpStatus.success
  return status

/-- The functions of `CurlHttpWrapper`. -/
def api : DeviceApi where
  createDeviceData deviceUri data := .queueing fun throws => createDeviceData throws deviceUri data
  getDeviceData deviceUri := .requesting (getDeviceData deviceUri)
  updateDeviceData deviceUri data := .queueing fun throws => updateDeviceData throws deviceUri data
  removeDeviceData := removeDeviceData
  setCertificateAttributes cert := .requesting (setCertificateAttributes cert)

end CurlHttpWrapper

namespace RestAPIFacade

variable (curlpImpl : DeviceApi)

/-- `RestAPIFacade::CreateDeviceData`. What the wrapper returns is dropped. -/
def createDeviceData (deviceUri : Str) (data : RestData) : Method HttpStatus := do
  let status := HttpStatus.success
  let _ ← curlpImpl.createDeviceData deviceUri data
  return status

/-- `RestAPIFacade::GetDeviceData`. The wrapper fills the caller's `data`. -/
def getDeviceData (deviceUri : Str) : Method (HttpStatus × Str) := do
  let status := HttpStatus.success
  let (_, data) ← curlpImpl.getDeviceData deviceUri
  return (status, data)

/-- `RestAPIFacade::UpdateDeviceData`. -/
def updateDeviceData (deviceUri : Str) (data : RestData) : Method HttpStatus := do
  let status := HttpStatus.success
  let _ ← curlpImpl.updateDeviceData deviceUri data
  return status

/-- `RestAPIFacade::RemoveDeviceData`. -/
def removeDeviceData (deviceUri : Str) : Method HttpStatus := do
  let status := HttpStatus.success
  let _ ← curlpImpl.removeDeviceData deviceUri
  return status

/-- `RestAPIFacade::SetCertificateAttributes`. -/
def setCertificateAttributes (cert : Certificate) : Method HttpStatus :=
  curlpImpl.setCertificateAttributes cert

/-- The functions of `RestAPIFacade`, on what `curlpImpl` points to. -/
def api : DeviceApi where
  createDeviceData := createDeviceData curlpImpl
  getDeviceData := getDeviceData curlpImpl
  updateDeviceData := updateDeviceData curlpImpl
  removeDeviceData := removeDeviceData curlpImpl
  setCertificateAttributes := setCertificateAttributes curlpImpl

end RestAPIFacade

/-! ## Histories -/

/-- A call of a function of the interface. -/
inductive ApiCall where
  | createDeviceData (deviceUri : Str) (data : RestData)
  | getDeviceData (deviceUri : Str)
  | updateDeviceData (deviceUri : Str) (data : RestData)
  | removeDeviceData (deviceUri : Str)
  | setCertificateAttributes (cert : Certificate)
  deriving DecidableEq, Repr

namespace ApiCall

/-- What the call returns: the status, and the content of the caller's `data` for a GET. -/
def body (api : DeviceApi) : ApiCall → Method CurlHttpWrapper.Reply
  | createDeviceData deviceUri data => (·, none) <$> api.createDeviceData deviceUri data
  | getDeviceData deviceUri => (fun r => (r.1, some r.2)) <$> api.getDeviceData deviceUri
  | updateDeviceData deviceUri data => (·, none) <$> api.updateDeviceData deviceUri data
  | removeDeviceData deviceUri => (·, none) <$> api.removeDeviceData deviceUri
  | setCertificateAttributes cert => (·, none) <$> api.setCertificateAttributes cert

def isGet : ApiCall → Bool
  | getDeviceData _ => true
  | _ => false

/-- The status that the facade returns if the wrapper returns `status`. -/
def shown : ApiCall → HttpStatus → HttpStatus
  | setCertificateAttributes _, status => status
  | _, _ => .success

/-- A call of the facade is the call of what it points to, but for the status. -/
theorem body_facade (impl : DeviceApi) (g : ApiCall) :
    g.body (RestAPIFacade.api impl) = (fun r => (g.shown r.1, r.2)) <$> g.body impl := by
  cases g <;>
    simp [body, shown, RestAPIFacade.api, RestAPIFacade.createDeviceData,
      RestAPIFacade.getDeviceData, RestAPIFacade.updateDeviceData,
      RestAPIFacade.removeDeviceData, RestAPIFacade.setCertificateAttributes]

end ApiCall

/-- A call of a history: the call with its outcome, what it returned or threw, and the states. -/
abbrev ApiEntry := Prog.Entry (ApiCall × Outcome) (Except ThrowPoint CurlHttpWrapper.Reply) Wrapper

/-- The calls one after the other, each with its outcome. A call that throws does not end the
history. -/
def DeviceApi.history (api : DeviceApi) : Wrapper → List (ApiCall × Outcome) →
    Option (List ApiEntry)
  | _, [] => some []
  | s, (g, o) :: calls =>
    ((g.body api).on o s).bind fun x =>
      (api.history x.2 calls).map fun es => ⟨(g, o), x.1, s, x.2⟩ :: es

namespace ApiEntry

/-- The entry of the facade for an entry of the wrapper. -/
def shown (e : ApiEntry) : ApiEntry :=
  { e with result := e.result.map fun r => (e.called.1.shown r.1, r.2) }

/-- A GET with the status `SUCCESS`: every checked call and the transfer returned `CURLE_OK`, and
the caller's `data` has all chunks of the transfer. -/
def TruthfulGet (e : ApiEntry) : Prop :=
  e.called.1.isGet = true → ∀ data, e.result = .ok (.success, data) →
    ∃ a b c chunks, e.called.2.curl = CurlHttpWrapper.fetched a b c chunks ∧
      data = some chunks.flatten

end ApiEntry

/-- Every checked call of the GET and its transfer return `CURLE_OK`; and so do the calls that set
the write callback and its string, if there is something to receive. -/
def Outcome.Arrives (o : Outcome) : Prop :=
  ∃ a b c chunks, o.curl = CurlHttpWrapper.fetched a b c chunks ∧
    (chunks.flatten = [] ∨ a = .ok ∧ b = .ok)

namespace DeviceApi

variable {api : DeviceApi} {s : Wrapper} {calls : List (ApiCall × Outcome)} {es : List ApiEntry}

/-- **What the facade shows** of a history of the wrapper: all but the statuses. -/
theorem facade_history (impl : DeviceApi) (s : Wrapper) (calls : List (ApiCall × Outcome)) :
    (RestAPIFacade.api impl).history s calls =
      (impl.history s calls).map fun es => es.map ApiEntry.shown := by
  induction calls generalizing s with
  | nil => rfl
  | cons x calls ih =>
    obtain ⟨g, o⟩ := x
    unfold history
    rw [ApiCall.body_facade, Method.on_map]
    cases (g.body impl).on o s with
    | none => rfl
    | some y =>
      simp only [Option.map_some, Option.bind_some, ih, Option.map_map]
      rfl

/-- The entries of a history are its calls. -/
theorem history_called (h : api.history s calls = some es) :
    es.map Prog.Entry.called = calls ∧
      ∀ e ∈ es, (e.called.1.body api).on e.called.2 e.before = some (e.result, e.after) := by
  induction calls generalizing s es with
  | nil =>
    obtain rfl := Option.some.inj h
    exact ⟨rfl, by simp⟩
  | cons x calls ih =>
    obtain ⟨g, o⟩ := x
    obtain ⟨⟨r, s'⟩, hx, h'⟩ := Option.bind_eq_some_iff.mp h
    obtain ⟨es', hes, rfl⟩ := Option.map_eq_some_iff.mp h'
    obtain ⟨hcalls, hall⟩ := ih hes
    refine ⟨by rw [List.map_cons, hcalls], ?_⟩
    intro e he
    rcases List.mem_cons.mp he with rfl | he
    · exact hx
    · exact hall e he

end DeviceApi

/-! ## One call -/

section

variable {g : ApiCall} {o : Outcome} {s s' : Wrapper}
  {r : Except ThrowPoint CurlHttpWrapper.Reply}

theorem CurlHttpWrapper.received_eq_flatten {a b : Choice} {chunks : List Str} :
    received a b chunks = chunks.flatten ↔ chunks.flatten = [] ∨ a = .ok ∧ b = .ok := by
  unfold received
  split
  · simp [*]
  · simp [*, eq_comm]

/-- A result of a `Method` under a function is the function on a result. -/
theorem Method.on_map_some {α β : Type} {f : α → β} {m : Method α} {r : Except ThrowPoint β}
    (h : (f <$> m).on o s = some (r, s')) :
    ∃ r₀, m.on o s = some (r₀, s') ∧ r = r₀.map f := by
  rw [Method.on_map] at h
  obtain ⟨⟨r₀, s₀⟩, hm, e⟩ := Option.map_eq_some_iff.mp h
  obtain ⟨rfl, rfl⟩ := Prod.mk.inj e
  exact ⟨r₀, hm, rfl⟩

/-- An enqueue returns `SUCCESS` or throws. -/
theorem DataCall.body_status (throws : ThrowPoint → Bool) (d : DataCall) (q : List Payload) :
    ((d.body throws).on q).1.map (fun _ => HttpStatus.success) = ((d.body throws).on q).1 := by
  cases he : d.escapes throws with
  | true => rw [DataCall.body_escapes he]; rfl
  | false => rw [DataCall.body_returns he]; rfl

/-- The facade shows the status of every call but a GET. -/
theorem ApiCall.shown_status (hg : g.isGet = false)
    (h : (g.body CurlHttpWrapper.api).on o s = some (r, s')) :
    r.map (fun r => (g.shown r.1, r.2)) = r := by
  have hdata : ∀ (d : DataCall) {r₀ : Except ThrowPoint HttpStatus},
      (Method.queueing fun throws => d.body throws).on o s = some (r₀, s') →
      (r₀.map (·, (none : Option Str))).map (fun r => (HttpStatus.success, r.2)) =
        r₀.map (·, none) := by
    intro d r₀ hm
    have hst := DataCall.body_status o.throws d s.mHttpDataQueue
    rw [Method.queueing_on hm] at hst
    cases r₀ with
    | error p => rfl
    | ok status =>
      obtain rfl : HttpStatus.success = status := Except.ok.inj hst
      rfl
  cases g with
  | getDeviceData => cases hg
  | createDeviceData deviceUri data =>
    obtain ⟨r₀, hm, rfl⟩ := Method.on_map_some h
    exact hdata (.createDeviceData deviceUri data) hm
  | updateDeviceData deviceUri data =>
    obtain ⟨r₀, hm, rfl⟩ := Method.on_map_some h
    exact hdata (.updateDeviceData deviceUri data) hm
  | removeDeviceData deviceUri =>
    obtain ⟨rfl, -⟩ := Prod.mk.inj (Option.some.inj h)
    rfl
  | setCertificateAttributes cert =>
    cases r <;> rfl

/-- A GET of the wrapper. -/
theorem ApiCall.getDeviceData_run {uri : Str}
    (h : ((getDeviceData uri).body CurlHttpWrapper.api).on o s = some (r, s')) :
    (∃ a b c chunks, o.curl = CurlHttpWrapper.fetched a b c chunks ∧
      r = .ok (.success, some (CurlHttpWrapper.received a b chunks))) ∨
    ∃ data, r = .ok (.failure, data) ∧
      ∀ a b c chunks, o.curl ≠ CurlHttpWrapper.fetched a b c chunks := by
  obtain ⟨r₀, hm, rfl⟩ := Method.on_map_some h
  obtain ⟨⟨status, data⟩, rfl, hrun⟩ := Method.requesting_on hm
  rcases CurlHttpWrapper.getData_run hrun with ⟨rfl, a, b, c, chunks, hcs, rfl⟩ | ⟨rfl, hcs⟩
  · exact .inl ⟨a, b, c, chunks, hcs, rfl⟩
  · exact .inr ⟨some data, rfl, hcs⟩

/-- A GET that fetches is true exactly if it arrives. -/
theorem Outcome.arrives_iff {a b c : Choice} {chunks : List Str}
    (ho : o.curl = CurlHttpWrapper.fetched a b c chunks) :
    o.Arrives ↔ ∃ a' b' c' chunks', o.curl = CurlHttpWrapper.fetched a' b' c' chunks' ∧
      CurlHttpWrapper.received a b chunks = chunks'.flatten := by
  refine exists_congr fun a' => exists_congr fun b' => exists_congr fun c' =>
    exists_congr fun chunks' => and_congr_right fun ho' => ?_
  have e := ho.symm.trans ho'
  simp only [CurlHttpWrapper.fetched, CurlHttpWrapper.tried, List.cons.injEq, true_and,
    Choice.transfer.injEq, and_true] at e
  obtain ⟨rfl, rfl, rfl, rfl⟩ := e
  exact CurlHttpWrapper.received_eq_flatten.symm

/-- The facade is true of a call exactly if the call is no GET, or a GET that arrives. -/
theorem ApiEntry.shown_iff {e : ApiEntry}
    (h : (e.called.1.body CurlHttpWrapper.api).on e.called.2 e.before =
      some (e.result, e.after)) :
    e.shown = e ∧ e.shown.TruthfulGet ↔
      (e.called.1.isGet = true → e.called.2.Arrives) := by
  obtain ⟨⟨g, o⟩, r, s, s'⟩ := e
  by_cases hg : g.isGet = true
  · obtain ⟨uri, rfl⟩ : ∃ uri, g = .getDeviceData uri := by
      cases g with
      | getDeviceData uri => exact ⟨uri, rfl⟩
      | _ => cases hg
    rcases ApiCall.getDeviceData_run h with ⟨a, b, c, chunks, ho, rfl⟩ | ⟨data, rfl, ho⟩
    · constructor
      · rintro ⟨-, ht⟩ -
        obtain ⟨a', b', c', chunks', ho', hd⟩ := ht rfl _ rfl
        exact (Outcome.arrives_iff ho).mpr ⟨a', b', c', chunks', ho', Option.some.inj hd⟩
      · intro harr
        obtain ⟨a', b', c', chunks', ho', hd⟩ := (Outcome.arrives_iff ho).mp (harr rfl)
        refine ⟨rfl, fun _ data hdata => ⟨a', b', c', chunks', ho', ?_⟩⟩
        cases hdata
        rw [hd]
    · refine iff_of_false ?_ ?_
      · rintro ⟨e, -⟩
        cases congrArg Prog.Entry.result e
      · intro harr
        obtain ⟨a, b, c, chunks, ho', -⟩ := harr rfl
        exact ho a b c chunks ho'
  · refine iff_of_true ⟨?_, fun h' => absurd h' hg⟩ fun h' => absurd h' hg
    unfold shown
    rw [ApiCall.shown_status (Bool.not_eq_true _ ▸ hg) h]

end

/-! ## The facade as a proxy -/

/-- A history gives the same on the facade as on the wrapper: the same status and data of every
call, the same state after it; and the GETs of the facade tell the truth. -/
structure FaithfulProxy (s : Wrapper) (calls : List (ApiCall × Outcome)) : Prop where
  same : (RestAPIFacade.api CurlHttpWrapper.api).history s calls =
    CurlHttpWrapper.api.history s calls
  gets : ∀ es, (RestAPIFacade.api CurlHttpWrapper.api).history s calls = some es →
    ∀ e ∈ es, e.TruthfulGet

/-- **The facade as a proxy.** It is faithful exactly in the histories in which every GET arrives:
it drops the status of the wrapper. -/
theorem proxy_faithful_iff {s : Wrapper} {calls : List (ApiCall × Outcome)} {es : List ApiEntry}
    (h : CurlHttpWrapper.api.history s calls = some es) :
    FaithfulProxy s calls ↔ ∀ x ∈ calls, x.1.isGet = true → x.2.Arrives := by
  have hfacade := DeviceApi.facade_history CurlHttpWrapper.api s calls
  rw [h, Option.map_some] at hfacade
  obtain ⟨hcalls, hall⟩ := DeviceApi.history_called h
  have hproxy : FaithfulProxy s calls ↔ ∀ e ∈ es, e.shown = e ∧ e.shown.TruthfulGet := by
    constructor
    · intro hf e he
      have hsame := hf.same
      rw [hfacade, h, Option.some.injEq] at hsame
      refine ⟨?_, hf.gets _ hfacade _ (List.mem_map_of_mem he)⟩
      exact List.map_inj_left.mp (hsame.trans (List.map_id es).symm) e he
    · intro hf
      constructor
      · rw [hfacade, h, List.map_congr_left (g := id) fun e he => (hf e he).1, List.map_id]
      · intro es' hes' e' he'
        obtain rfl := Option.some.inj (hfacade.symm.trans hes')
        obtain ⟨e, he, rfl⟩ := List.mem_map.mp he'
        exact (hf e he).2
  rw [hproxy, ← hcalls, List.forall_mem_map]
  exact forall₂_congr fun e he => ApiEntry.shown_iff (hall e he)

/-- The wrapper as it is constructed, before `Start` sets its two options. -/
def Wrapper.init : Wrapper := ⟨.init, []⟩

/-- Nothing throws, and each libcurl call of a list does what the list says. -/
def Outcome.quiet (curl : List Choice) : Outcome := ⟨fun _ => false, curl⟩

/-- A POST, a GET that receives two chunks, and a removal. -/
theorem proxy_faithful_iff_get :
    FaithfulProxy .init
      [(.createDeviceData [97] ⟨[123], .typeJson⟩, .quiet []),
        (.getDeviceData [98], .quiet (CurlHttpWrapper.fetched .ok .ok .ok [[100], [101]])),
        (.removeDeviceData [98], .quiet [])] := by
  obtain ⟨es, hes, -⟩ := Option.map_eq_some_iff.mp (show (CurlHttpWrapper.api.history .init
    [(.createDeviceData [97] ⟨[123], .typeJson⟩, .quiet []),
      (.getDeviceData [98], .quiet (CurlHttpWrapper.fetched .ok .ok .ok [[100], [101]])),
      (.removeDeviceData [98], .quiet [])]).map List.length = some 3 by decide)
  refine (proxy_faithful_iff hes).mpr ?_
  simp only [List.forall_mem_cons]
  refine ⟨nofun, fun _ => ⟨.ok, .ok, .ok, [[100], [101]], rfl, .inr ⟨rfl, rfl⟩⟩, nofun, nofun⟩

/-- `curl_easy_init` returns null in a GET, and so each `curl_easy_setopt` fails. -/
def refused : Outcome := .quiet (.ok :: List.replicate 5 (.fail 43) ++ [.ok])

/-- `CURLOPT_WRITEFUNCTION` fails in a GET, and the server sends a chunk. -/
def unreceived : Outcome := .quiet (CurlHttpWrapper.fetched (.fail 48) .ok .ok [[100]])

/-- A GET gets no handle: the wrapper returns `FAILURE`, and the facade `SUCCESS` with no data. The
write callback is refused: the status is `SUCCESS`, and the chunk is lost. -/
theorem facade_hides_failure :
    (∃ s', ((ApiCall.getDeviceData [98]).body CurlHttpWrapper.api).on refused .init =
        some (.ok (.failure, some []), s') ∧
      ((ApiCall.getDeviceData [98]).body (RestAPIFacade.api CurlHttpWrapper.api)).on refused .init =
        some (.ok (.success, some []), s')) ∧
    ¬ FaithfulProxy .init [(.getDeviceData [98], refused)] ∧
    ¬ FaithfulProxy .init [(.getDeviceData [98], unreceived)] := by
  refine ⟨?_, ?_, ?_⟩
  · obtain ⟨⟨r, s'⟩, hr, e⟩ := Option.map_eq_some_iff.mp
      (show (((ApiCall.getDeviceData [98]).body CurlHttpWrapper.api).on refused .init).map
        Prod.fst = some (.ok (.failure, some [])) by decide)
    obtain rfl : r = .ok (.failure, some []) := e
    refine ⟨s', hr, ?_⟩
    rw [ApiCall.body_facade, Method.on_map, hr]
    rfl
  · intro h
    have e := congrArg (Option.map (List.map Prog.Entry.result)) h.same
    revert e
    decide
  · intro h
    obtain ⟨es, hes, e⟩ := Option.map_eq_some_iff.mp
      (show ((RestAPIFacade.api CurlHttpWrapper.api).history .init
        [(.getDeviceData [98], unreceived)]).map (List.map Prog.Entry.result) =
          some [.ok (.success, some [])] by decide)
    obtain ⟨x, rfl, hx⟩ := List.map_eq_singleton_iff.mp e
    have hcalled := (DeviceApi.history_called hes).1
    obtain hc : x.called = (.getDeviceData [98], unreceived) := List.singleton_inj.mp hcalled
    obtain ⟨a, b, c, chunks, ho, hd⟩ := h.gets _ hes x List.mem_cons_self (by rw [hc]; rfl) _ hx
    rw [hc] at ho
    cases ho
    cases hd

end LibRest
