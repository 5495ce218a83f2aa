import LibRest.Alone

/-!
# Histories of requests

Calls on one wrapper, one after the other, on the one handle that `Post`, `Put`, `PostPollingData`
and `UpdateTLSInfo` share. What an earlier call left there, also one that failed midway, stays.

- **No carry-over** (`Fresh`). A request with a body sets every option of its own before it
  performs, and clears `strHttpStatus`.
- **Credentials** (`Protected`, `HasFields`). `SetCertificateAttributes` records them in `mCurl`, as
  C strings, and no other request touches them there; `GetData` performs on a handle of its own,
  which never has them.
-/

namespace LibRest

open Lib

namespace CurlHttpWrapper

/-- A call on the wrapper. -/
inductive Call where
  | post (url : Str) (restData : RestData)
  | put (url : Str) (restData : RestData)
  | postPollingData (deviceUri : Str) (data : RestData)
  | getDeviceData (deviceUri : Str)
  | setCertificateAttributes (cert : Certificate)
  | updateTLSInfo
  deriving DecidableEq, Repr

/-- The status of a call, and the content of the caller's `data` for a GET. -/
abbrev Reply := HttpStatus × Option Str

/-- A call without a `data` argument to fill. -/
def withoutData (p : Request HttpStatus) : Request Reply := do
  let status ← p
  return (status, none)

def Call.body : Call → Request Reply
  | .post url restData => withoutData (CurlHttpWrapper.post url restData)
  | .put url restData => withoutData (CurlHttpWrapper.put url restData)
  | .postPollingData deviceUri data =>
    withoutData (CurlHttpWrapper.postPollingData deviceUri data)
  | .getDeviceData deviceUri => do
    let r ← CurlHttpWrapper.getDeviceData deviceUri
    return (r.1, some r.2)
  | .setCertificateAttributes cert =>
    withoutData (CurlHttpWrapper.setCertificateAttributes cert)
  | .updateTLSInfo => withoutData CurlHttpWrapper.updateTLSInfo

/-- The method, the url and the data that a call has to send. -/
def Call.sends : Call → Option (Str × Str × RestData)
  | .post url restData => some (str "POST", url, restData)
  | .put url restData => some (str "PUT", url, restData)
  | .postPollingData deviceUri data => some (str "POST", deviceUri, data)
  | _ => none

def Call.isGet : Call → Bool
  | .getDeviceData _ => true
  | _ => false

/-- A history of calls, with libcurl as `H` has it. -/
abbrev History {ι : Type} (H : Handler Op.Res (World ι) Choice) :=
  Prog.Hist H Call.body

variable {ι : Type} [DecidableEq ι] {i : ι} {H : Handler Op.Res (World ι) Choice}

/-! ## One call -/

omit [DecidableEq ι] in
theorem wp_withoutData {p : Request HttpStatus} {Q : HttpStatus → World ι → Prop} {w : World ι}
    (h : Prog.wp H p Q w) : Prog.wp H (withoutData p) (fun r w' => Q r.1 w') w :=
  Prog.wp_bind.mpr h

/-- `PostPollingData` is `Post` between a lock and an unlock. -/
theorem wp_postPollingData (hH : Prog.Refines H (handle i)) {A : List Str → Prop}
    {uri : Str} {data : RestData}
    (hsend : ∀ w, Prog.wp H (sendBody (str "POST") uri data.getContent data.getType)
      (Sent A (str "POST") uri data.getContent w) w) (w : World ι) :
    Prog.wp H (postPollingData uri data) (Sent A (str "POST") uri data.getContent w) w := by
  show Prog.wp H (Prog.call Op.lockPolling >>= fun _ =>
    sendBody (str "POST") uri data.getContent data.getType >>= fun status =>
      Prog.call Op.unlockPolling >>= fun _ => pure status) _ w
  refine hH.wp_call fun c r w₁ e => ?_
  cases c <;> simp only [handle] at e
  case ok =>
    split at e <;> cases e
    refine Prog.wp_bind.mpr (Prog.wp_mono (hsend _) fun status w₂ hs => ?_)
    refine hH.wp_call fun c r w₃ e => ?_
    cases c <;> cases e
    exact ⟨hs.options, hs.easyCount, hs.cert, hs.outcome⟩
  all_goals cases e

/-- What a call with a body leaves. `hadd` says what `addSecurityHeaders` gives. -/
theorem wp_sends (hH : Prog.Refines H (handle i)) {A : Int → List Str → Prop}
    (hadd : ∀ t w, Prog.wp H (addSecurityHeaders t)
      (fun headers w' => Lists w w' ∧ A t (linesOf headers w')) w)
    {g : Call} {method url : Str} {data : RestData} (hg : g.sends = some (method, url, data))
    (w : World ι) :
    Prog.wp H g.body
      (fun r w' => Sent (A data.getType.toInt) method url data.getContent w r.1 w') w := by
  have hsend : ∀ method url (data : RestData) w,
      Prog.wp H (sendBody method url data.getContent data.getType)
        (Sent (A data.getType.toInt) method url data.getContent w) w :=
    fun _ _ data w => wp_sendBody hH (hadd data.getType.toInt) w
  cases g <;> cases hg
  · exact wp_withoutData (hsend _ _ _ w)
  · exact wp_withoutData (hsend _ _ _ w)
  · exact wp_withoutData (wp_postPollingData hH (hsend _ _ _) w)

/-- What the other calls leave. -/
theorem wp_others (hH : Prog.Refines H (handle i)) {g : Call} (hg : g.sends = none)
    (w : World ι) (hw : mCurl < w.easyCount) :
    Prog.wp H g.body (fun r w' =>
      match g with
      | .setCertificateAttributes cert => Updated { w with cert := cert } r.1 w'
      | .updateTLSInfo => Updated w r.1 w'
      | _ => Fetched w w') w := by
  cases g <;> cases hg
  · exact Prog.wp_bind.mpr (wp_getData hH _ w hw)
  · exact wp_withoutData (wp_setCertificateAttributes hH _ w)
  · exact wp_withoutData (wp_updateTLSInfo hH w)

/-! ## No carry-over -/

/-- `mCurl` exists, and its write callback appends to `strHttpStatus`: what the constructor and
`Start` leave. -/
structure Started (w : World ι) : Prop where
  live : mCurl < w.easyCount
  target : w.Target mCurl .strHttpStatus

/-- The header lines of a request, for the type of its data. -/
def requestHeaders (type : RestContentType) : List Str :=
  [str "cache-control: no-cache",
    str "public_key: ",
    str "sstm: MA==",
    str "token: 5feceb66ffc86f38d952786c6d696c79c2dbc239dd4e91b46729d73a27fb57e9",
    match type with
    | .typeJson => str "content-type: application/json"
    | .typeWwwForm => str "content-type: application/x-www-form-urlencoded"]

/-- The security headers depend on nothing but the type of the data. -/
theorem securityHeaders_eq (type : RestContentType) :
    securityHeaders type.toInt = requestHeaders type := by
  cases type <;> decide +kernel

/-- A call with a body either does not perform, fails and leaves `strHttpStatus` empty, or its one
perform sends this method, this url and the content of this data, with all the header lines for its
type; the status says how that perform ended, and `strHttpStatus` has its chunks. -/
def OwnRequest (e : Prog.Entry Call Reply (World ι)) (method url : Str) (data : RestData) : Prop :=
  (e.after.performs = e.before.performs ∧ e.result.1 ≠ .success ∧
    e.after.buffer .strHttpStatus = []) ∨
  ∃ p, e.after.performs = e.before.performs ++ [p] ∧ p.easy = mCurl ∧
    Sends p method url data.restContent ∧ p.headers = requestHeaders data.type ∧
    (e.result.1 = .success ↔ p.code = .ok) ∧
    e.after.buffer .strHttpStatus = p.chunks.flatten

/-- A call sends its own request. A call that only sets options does not perform. -/
def Fresh (e : Prog.Entry Call Reply (World ι)) : Prop :=
  match e.called with
  | .post url restData => OwnRequest e (str "POST") url restData
  | .put url restData => OwnRequest e (str "PUT") url restData
  | .postPollingData deviceUri data => OwnRequest e (str "POST") deviceUri data
  | .getDeviceData _ => True
  | .setCertificateAttributes _ | .updateTLSInfo => e.after.performs = e.before.performs

omit [DecidableEq ι] in
theorem Fresh.of_sends {e : Prog.Entry Call Reply (World ι)} {method url : Str} {data : RestData}
    (hs : e.called.sends = some (method, url, data)) (h : OwnRequest e method url data) :
    Fresh e := by
  unfold Fresh
  split <;> simp_all [Call.sends]

omit [DecidableEq ι] in
theorem Started.keep {w w' : World ι} (h : Started w) (hc : w.easyCount ≤ w'.easyCount)
    (ho : ∀ o, o = .writeFunction ∨ o = .writeData → w'.opts mCurl o = w.opts mCurl o) :
    Started w' := by
  obtain ⟨hl, ⟨f, j, hf⟩, j', hd⟩ := h
  exact ⟨Nat.lt_of_lt_of_le hl hc, ⟨f, j, (ho _ (.inl rfl)).trans hf⟩, j',
    (ho _ (.inr rfl)).trans hd⟩

theorem wp_fresh (i : ι) (g : Call) (w : World ι) (hw : Started w) :
    Prog.wp (appendSucceeds i) g.body (fun r w' => Started w' ∧ Fresh ⟨g, r, w, w'⟩) w := by
  have hH := appendSucceeds_refines i
  cases hg : g.sends with
  | some p =>
    obtain ⟨method, url, data⟩ := p
    refine Prog.wp_mono (wp_sends hH (A := fun t ls => ls = securityHeaders t)
      (fun t w => wp_addSecurityHeaders_lines t w) hg w) fun r w' hs => ⟨?_, ?_⟩
    · refine hw.keep (Nat.le_of_eq hs.easyCount.symm) fun o ho => hs.options o ?_
      rcases ho with rfl | rfl <;> decide
    · refine Fresh.of_sends hg ?_
      rcases hs.outcome with ho | ⟨p, hp, he, hsends, hA, hst, ht, -⟩
      · exact .inl ho
      · exact .inr ⟨p, hp, he, hsends, hA.trans (securityHeaders_eq data.type), hst, ht hw.target⟩
  | none =>
    refine Prog.wp_mono (wp_others hH hg w hw.live) fun r w' hs => ?_
    cases g <;> cases hg
    · exact ⟨hw.keep hs.easyCount fun o _ => congrFun hs.options o, trivial⟩
    · refine ⟨hw.keep (Nat.le_of_eq hs.easyCount.symm) fun o ho => hs.options o ?_, hs.performs⟩
      rcases ho with rfl | rfl <;> decide
    · refine ⟨hw.keep (Nat.le_of_eq hs.easyCount.symm) fun o ho => hs.options o ?_, hs.performs⟩
      rcases ho with rfl | rfl <;> decide

/-- **No carry-over.** Every call of a history after `Start` sends its own request, whatever the
calls before it did and where they failed. -/
theorem no_carry_over {w w' : World Unit} {es : List (Prog.Entry Call Reply (World Unit))}
    (hw : Started w) (h : History (appendSucceeds ()) w es w') : ∀ e ∈ es, Fresh e :=
  (h.each (fun g w hw => wp_fresh () g w hw) hw).2

/-- The two `curl_easy_setopt` calls of `Start`, if they succeed. -/
theorem started_of_startOptions {w w' : World ι} (hw : mCurl < w.easyCount)
    (h : Prog.exec (handle i) startOptions w [.ok, .ok] = some ((), w', [])) : Started w' := by
  obtain ⟨_, _, r₁, w₁, hcs, e₁, h₁⟩ := Prog.exec_call h
  cases hcs
  obtain ⟨_, _, r₂, w₂, hcs, e₂, h₂⟩ := Prog.exec_call h₁
  cases hcs
  cases h₂
  obtain ⟨m₁, ⟨-, -, rfl⟩ | ⟨⟨n, hc, -⟩, -⟩⟩ := setopt_cases e₁
  · obtain ⟨m₂, ⟨-, -, rfl⟩ | ⟨⟨n, hc, -⟩, -⟩⟩ := setopt_cases e₂
    · exact ⟨hw, ⟨.writeCallback, i, by simp [World.opts, World.record]⟩, i, by simp⟩
    · cases hc
  · cases hc

/-- A new wrapper, after `Start`. -/
def afterStart : World Unit :=
  (World.init.record () mCurl .writeFunction (.callback .writeCallback)).record () mCurl
    .writeData (.buffer .strHttpStatus)

theorem started_afterStart : Started afterStart :=
  started_of_startOptions (w := .init) (i := ()) Nat.zero_lt_one rfl

/-- The choices of a request with a body whose transfer ends with `code`. -/
def transfers (chunks : List Str) (code : CurlCode) : List Choice :=
  List.replicate 12 .ok ++ [.transfer chunks code, .ok]

/-- The url, the method, the size, the body and the header lines of a transfer. -/
structure SentRequest where
  url : Option Arg
  method : Option Arg
  size : Option Arg
  body : Option Arg
  headers : List Str
  deriving DecidableEq

def sentRequest (p : Performed ι) : SentRequest where
  url := (p.opts .url).map Prod.fst
  method := (p.opts .customRequest).map Prod.fst
  size := (p.opts .postFieldSize).map Prod.fst
  body := (p.opts .postFields).map Prod.fst
  headers := p.headers

set_option synthInstance.maxSize 256 in
/-- After a `Put` that fails at its body, with all other options set, a `Post` sends its own
request. -/
theorem no_carry_over_two :
    ∃ (es : List (Prog.Entry Call Reply (World Unit))) (w' : World Unit),
      History (appendSucceeds ()) afterStart es w' ∧
      es.map (fun e => (e.called, e.result)) =
        [(.put (str "a") ⟨str "long", .typeJson⟩, .failure, none),
          (.post (str "b") ⟨str "x=1", .typeWwwForm⟩, .success, none)] ∧
      w'.performs.map sentRequest =
        [{ url := some (.text (str "b"))
           method := some (.text (str "POST"))
           size := some (.long 3)
           body := some (.text (str "x=1"))
           headers := [str "cache-control: no-cache", str "public_key: ", str "sstm: MA==",
             str "token: 5feceb66ffc86f38d952786c6d696c79c2dbc239dd4e91b46729d73a27fb57e9",
             str "content-type: application/x-www-form-urlencoded"] }] ∧
      w'.buffer .strHttpStatus = str "201" ∧
      ∀ e ∈ es, Fresh e := by
  obtain ⟨es, w', h, hes⟩ := Prog.Hist.observe (H := appendSucceeds ()) (s := afterStart)
    (p := Call.body)
    (fun p => (p.1.map fun e => (e.called, e.result), p.2.performs.map sentRequest,
      p.2.buffer .strHttpStatus))
    [(.put (str "a") ⟨str "long", .typeJson⟩, List.replicate 11 .ok ++ [.fail 27, .ok]),
      (.post (str "b") ⟨str "x=1", .typeWwwForm⟩, transfers [str "20", str "1"] .ok)]
    (b := ([(.put (str "a") ⟨str "long", .typeJson⟩, .failure, none),
        (.post (str "b") ⟨str "x=1", .typeWwwForm⟩, .success, none)],
      [{ url := some (.text (str "b"))
         method := some (.text (str "POST"))
         size := some (.long 3)
         body := some (.text (str "x=1"))
         headers := requestHeaders .typeWwwForm }], str "201")) (by decide +kernel)
  simp only [Prod.mk.injEq] at hes
  exact ⟨es, w', h, hes.1, hes.2.1, hes.2.2, no_carry_over started_afterStart h⟩

set_option synthInstance.maxSize 256 in
/-- A url is sent up to its first zero byte only. -/
theorem url_cut_at_zero :
    ∃ (es : List (Prog.Entry Call Reply (World Unit))) (w' : World Unit) (p : Performed Unit),
      History (appendSucceeds ()) afterStart es w' ∧
      es.map (fun e => (e.called, e.result)) =
        [(.post [97, 0, 98] ⟨[125], .typeJson⟩, .success, none)] ∧
      w'.performs = [p] ∧ p.opts .url = some (.text [97], ()) ∧
      ¬ ∃ j, p.opts .url = some (.text [97, 0, 98], j) := by
  obtain ⟨es, w', h, hes⟩ := Prog.Hist.observe (H := appendSucceeds ()) (s := afterStart)
    (p := Call.body)
    (fun p => (p.1.map fun e => (e.called, e.result), p.2.performs.map fun p => p.opts .url))
    [(.post [97, 0, 98] ⟨[125], .typeJson⟩, transfers [] .ok)]
    (b := ([(.post [97, 0, 98] ⟨[125], .typeJson⟩, .success, none)], [some (.text [97], ())]))
    (by decide)
  simp only [Prod.mk.injEq] at hes
  obtain ⟨hcalls, hurls⟩ := hes
  obtain ⟨p, hp, hurl⟩ := List.map_eq_singleton_iff.mp hurls
  refine ⟨es, w', p, h, hcalls, hp, hurl, ?_⟩
  rintro ⟨j, e⟩
  rw [hurl] at e
  simp at e

/-! ## Credentials -/

/-- The certificate that a call sets. -/
def Call.cert? : Call → Option Certificate
  | .setCertificateAttributes cert => some cert
  | _ => none

/-- The certificate that was set last. -/
def lastCert (es : List (Prog.Entry Call Reply (World ι))) : Option Certificate :=
  (es.filterMap fun e => e.called.cert?).getLast?

omit [DecidableEq ι] in
theorem lastCert_snoc (es : List (Prog.Entry Call Reply (World ι)))
    (e : Prog.Entry Call Reply (World ι)) :
    lastCert (es ++ [e]) = e.called.cert?.or (lastCert es) := by
  unfold lastCert
  rw [List.filterMap_append]
  cases h : e.called.cert? <;> simp [h]

/-- The options equal the fields of the certificate, and peer verification is on. -/
structure HasFields (cert : Certificate) (opts : CurlOpt → Option (Arg × ι)) : Prop where
  certificate : ∃ j, opts .sslCert = some (.text cert.strCertificate, j)
  certificateType : ∃ j, opts .sslCertType = some (.text cert.strKeyType, j)
  key : ∃ j, opts .sslKey = some (.text cert.strKeyName, j)
  keyType : ∃ j, opts .sslKeyType = some (.text cert.strKeyType, j)
  passphrase : ∃ j, opts .keyPasswd = some (.text cert.strPassword, j)
  caFile : ∃ j, opts .caInfo = some (.text cert.strCAcertificate, j)
  verifyPeer : ∃ j, opts .sslVerifyPeer = some (.long 1, j)

omit [DecidableEq ι] in
/-- An option that has the C string of a text has the text itself if that has no zero byte. -/
theorem has_text_iff {f : CurlOpt → Option (Arg × ι)} {o : CurlOpt} {s : Str}
    (h : ∃ j, f o = some (.text (cStr s), j)) : (∃ j, f o = some (.text s, j)) ↔ 0 ∉ s := by
  obtain ⟨j, e⟩ := h
  rw [e, ← cStr_eq_self_iff]
  simp

omit [DecidableEq ι] in
/-- The options equal the fields exactly if these are C strings. -/
theorem Protected.hasFields_iff {cert : Certificate} {f : CurlOpt → Option (Arg × ι)}
    (h : Protected cert f) : HasFields cert f ↔ cert.ZeroFree := by
  have hverify := h (.sslVerifyPeer, .long 1) (by simp [tlsValues])
  have hca := has_text_iff (h (.caInfo, .text (cStr cert.strCAcertificate)) (by simp [tlsValues]))
  have hkey := has_text_iff (h (.sslKey, .text (cStr cert.strKeyName)) (by simp [tlsValues]))
  have hkt := has_text_iff (h (.sslKeyType, .text (cStr cert.strKeyType)) (by simp [tlsValues]))
  have hpw := has_text_iff (h (.keyPasswd, .text (cStr cert.strPassword)) (by simp [tlsValues]))
  have hcert := has_text_iff (h (.sslCert, .text (cStr cert.strCertificate)) (by simp [tlsValues]))
  have hct := has_text_iff (h (.sslCertType, .text (cStr cert.strKeyType)) (by simp [tlsValues]))
  constructor
  · intro hf
    exact ⟨hpw.mp hf.passphrase, hcert.mp hf.certificate, hca.mp hf.caFile, hkey.mp hf.key,
      hkt.mp hf.keyType⟩
  · rintro ⟨p, c, a, k, t⟩
    exact ⟨hcert.mpr c, hct.mpr t, hkey.mpr k, hkt.mpr t, hpw.mpr p, hca.mpr a, hverify⟩

/-- What a call does to the credentials in `mCurl`, and the credentials of its transfers. -/
structure Guards (g : Call) (w : World ι) (status : HttpStatus) (w' : World ι) : Prop where
  live : mCurl < w'.easyCount
  sets : ∀ cert, g.cert? = some cert → status = .success →
    w'.cert = cert ∧ Protected cert (w'.opts mCurl)
  keeps : g.cert? = none → w'.cert = w.cert ∧
    (Protected w.cert (w.opts mCurl) → Protected w.cert (w'.opts mCurl))
  transfers : ∃ ps, w'.performs = w.performs ++ ps ∧ ∀ p ∈ ps, ∀ cert,
    (g.isGet = true → p.opts .sslCert = none) ∧
    (g.isGet = false → Protected cert (w.opts mCurl) → Protected cert p.opts)

omit [DecidableEq ι] in
theorem Protected.keep {cert : Certificate} {f f' : CurlOpt → Option (Arg × ι)}
    (h : Protected cert f) (hf : ∀ o, o ∉ bodyOptions → f' o = f o) : Protected cert f' :=
  fun p hp => by
    rw [hf p.1 (tlsValues_options hp).2.2]; exact h p hp

omit [DecidableEq ι] in
theorem Updated.keeps {w w' : World ι} {status : HttpStatus} (h : Updated w status w')
    (hp : Protected w.cert (w.opts mCurl)) : Protected w.cert (w'.opts mCurl) := fun p hm => by
  rcases h.each p hm with e | e
  · rw [e]; exact hp p hm
  · exact e

omit [DecidableEq ι] in
/-- Without a client certificate the options are not protected. -/
theorem not_protected {cert : Certificate} {f : CurlOpt → Option (Arg × ι)}
    (h : f .sslCert = none) : ¬ Protected cert f ∧ ¬ HasFields cert f := by
  constructor
  · intro hp
    obtain ⟨j, e⟩ := hp (.sslCert, .text (cStr cert.strCertificate)) (by simp [tlsValues])
    rw [h] at e; cases e
  · intro hf
    obtain ⟨j, e⟩ := hf.certificate
    rw [h] at e; cases e

theorem wp_guards (i : ι) (g : Call) (w : World ι) (hw : mCurl < w.easyCount) :
    Prog.wp (handle i) g.body (fun r w' => Guards g w r.1 w') w := by
  have hH := Prog.Refines.refl (handle i)
  cases hg : g.sends with
  | some p =>
    obtain ⟨method, url, data⟩ := p
    have hcert : g.cert? = none := by cases g <;> first | rfl | cases hg
    have hget : g.isGet = false := by cases g <;> first | rfl | cases hg
    refine Prog.wp_mono (wp_sends hH (A := fun _ _ => True) (fun t w =>
      Prog.wp_mono (wp_addSecurityHeaders hH t w) fun _ _ hl => ⟨hl, trivial⟩) hg w)
      fun r w' hs => ⟨?_, ?_, fun _ => ⟨hs.cert, fun hp => hp.keep hs.options⟩, ?_⟩
    · rw [hs.easyCount]; exact hw
    · rw [hcert]; exact nofun
    · rcases hs.outcome with ⟨ho, -, -⟩ | ⟨p, ho, -, -, -, -, -, hopts⟩
      · exact ⟨[], by rw [ho, List.append_nil], nofun⟩
      · refine ⟨[p], ho, fun q hq cert => ⟨?_, fun _ hp => ?_⟩⟩
        · rw [hget]; exact nofun
        · obtain rfl := List.mem_singleton.mp hq
          exact hp.keep hopts
  | none =>
    refine Prog.wp_mono (wp_others hH hg w hw) fun r w' hs => ?_
    cases g <;> cases hg
    · refine ⟨Nat.lt_of_lt_of_le hw hs.easyCount, nofun, fun _ => ⟨hs.cert, fun hp => ?_⟩, ?_⟩
      · rw [hs.options]; exact hp
      · rcases hs.outcome with ho | ⟨p, ho, hopts⟩
        · exact ⟨[], by rw [ho, List.append_nil], nofun⟩
        · refine ⟨[p], ho, fun q hq cert => ⟨fun _ => ?_, nofun⟩⟩
          obtain rfl := List.mem_singleton.mp hq
          exact hopts .sslCert (by decide)
    · refine ⟨Nat.lt_of_lt_of_le hw (Nat.le_of_eq hs.easyCount.symm), ?_, nofun, [], ?_, nofun⟩
      · rintro cert hc hst
        cases hc
        exact ⟨hs.cert, hs.success hst⟩
      · rw [List.append_nil]; exact hs.performs
    · refine ⟨Nat.lt_of_lt_of_le hw (Nat.le_of_eq hs.easyCount.symm), nofun,
        fun _ => ⟨hs.cert, hs.keeps⟩, [], ?_, nofun⟩
      rw [List.append_nil]; exact hs.performs

/-- After a history in which every `SetCertificateAttributes` succeeds, `mCurl` has the credentials
of the last one. -/
theorem guarded {w w' : World Unit} {es : List (Prog.Entry Call Reply (World Unit))}
    (h : History (handle ()) w es w') (hw : mCurl < w.easyCount)
    (hset : ∀ e ∈ es, e.called.cert?.isSome = true → e.result.1 = .success) :
    mCurl < w'.easyCount ∧
      ∀ cert, lastCert es = some cert → w'.cert = cert ∧ Protected cert (w'.opts mCurl) := by
  induction h with
  | nil => exact ⟨hw, nofun⟩
  | @snoc es s₁ s₂ g a _ hr ih =>
    obtain ⟨hw₁, hcert⟩ := ih fun e he => hset e (List.mem_append_left _ he)
    have hg := Prog.wp_returns (wp_guards () g s₁ hw₁) hr
    refine ⟨hg.live, fun cert hc => ?_⟩
    rw [lastCert_snoc] at hc
    have hst := hset ⟨g, a, s₁, s₂⟩ (by simp)
    cases hgc : g.cert? with
    | some c =>
      simp only [hgc, Option.some_or, Option.some.injEq] at hc
      subst hc
      exact hg.sets c hgc (hst (by simp [hgc]))
    | none =>
      simp only [hgc, Option.none_or] at hc
      obtain ⟨rfl, hp⟩ := hcert cert hc
      obtain ⟨hk, hkp⟩ := hg.keeps hgc
      exact ⟨hk, hkp hp⟩

/-- **Credentials.** In a history in which every `SetCertificateAttributes` succeeds, a transfer
after the first one has options that equal the fields of the certificate that was set last, if and
only if it is not one of a GET and no field has a zero byte. With zero bytes, the options of a
transfer that is not one of a GET are the fields as C strings. -/
theorem credentials_iff {w w' : World Unit} {es es₁ es₂ : List (Prog.Entry Call Reply (World Unit))}
    {e : Prog.Entry Call Reply (World Unit)} {cert : Certificate} {ps : List (Performed Unit)}
    (hw : Started w) (h : History (handle ()) w es w')
    (hset : ∀ e ∈ es, e.called.cert?.isSome = true → e.result.1 = .success)
    (hes : es = es₁ ++ e :: es₂) (hc : lastCert es₁ = some cert)
    (hp : e.after.performs = e.before.performs ++ ps) :
    ∀ p ∈ ps, (HasFields cert p.opts ↔ e.called.isGet = false ∧ cert.ZeroFree) ∧
      (Protected cert p.opts ↔ e.called.isGet = false) := by
  subst hes
  obtain ⟨h₁, hr⟩ := h.split
  obtain ⟨hlive, hcert⟩ := guarded h₁ hw.live fun e he => hset e (List.mem_append_left _ he)
  obtain ⟨ps', hps, htr⟩ := (Prog.wp_returns (wp_guards () e.called e.before hlive) hr).transfers
  obtain rfl : ps' = ps := List.append_cancel_left (hps.symm.trans hp)
  intro p hmem
  obtain ⟨hget, hbody⟩ := htr p hmem cert
  cases hg : e.called.isGet with
  | true =>
    obtain ⟨hnp, hnf⟩ : ¬ Protected cert p.opts ∧ ¬ HasFields cert p.opts :=
      not_protected (hget hg)
    simp [hnp, hnf]
  | false =>
    have hprot := hbody hg (hcert cert hc).2
    simp [hprot, hprot.hasFields_iff]

/-- A certificate whose fields differ. -/
def someCert : Certificate := ⟨[1], [2], [3], [4], [5]⟩

/-- A successful `SetCertificateAttributes`, then a call that performs once. -/
theorem exists_second_call (g : Call) (cs : List Choice)
    (h : (Prog.histRun (handle ()) Call.body afterStart
      [(.setCertificateAttributes someCert, List.replicate 10 .ok), (g, cs)]).map
        (fun r => r.1.map fun e => (e.called, e.result.1, e.before.performs.length,
          e.after.performs.length)) =
        some [(.setCertificateAttributes someCert, .success, 0, 0), (g, .success, 0, 1)]) :
    ∃ (e₁ e₂ : Prog.Entry Call Reply (World Unit)) (w' : World Unit) (p : Performed Unit),
      History (handle ()) afterStart [e₁, e₂] w' ∧
      e₁.called = .setCertificateAttributes someCert ∧ e₁.result.1 = .success ∧
      e₂.called = g ∧ e₂.result.1 = .success ∧ e₂.after.performs = e₂.before.performs ++ [p] := by
  obtain ⟨es, w', hist, hes⟩ := Prog.Hist.observe _ _ h
  obtain ⟨e₁, es, rfl, he₁, hes⟩ := List.map_eq_cons_iff.mp hes
  obtain ⟨e₂, es, rfl, he₂, hes⟩ := List.map_eq_cons_iff.mp hes
  obtain rfl := List.map_eq_nil_iff.mp hes
  simp only [Prod.mk.injEq] at he₁ he₂
  obtain ⟨hc₁, hs₁, -, -⟩ := he₁
  obtain ⟨hc₂, hs₂, hb, ha⟩ := he₂
  obtain ⟨p, hp⟩ := List.length_eq_one_iff.mp ha
  refine ⟨e₁, e₂, w', p, hist, hc₁, hs₁, hc₂, hs₂, ?_⟩
  rw [hp, List.length_eq_zero_iff.mp hb]
  rfl

/-- The equivalence at a `Post` after a `SetCertificateAttributes`. -/
theorem credentials_iff_post :
    ∃ (e₁ e₂ : Prog.Entry Call Reply (World Unit)) (p : Performed Unit),
      e₂.called = .post [98] ⟨[125], .typeJson⟩ ∧ e₂.after.performs = e₂.before.performs ++ [p] ∧
      lastCert [e₁] = some someCert ∧
      (HasFields someCert p.opts ↔ e₂.called.isGet = false ∧ someCert.ZeroFree) ∧
      (Protected someCert p.opts ↔ e₂.called.isGet = false) := by
  obtain ⟨e₁, e₂, w', p, h, hc₁, hs₁, hc₂, hs₂, hp⟩ :=
    exists_second_call (.post [98] ⟨[125], .typeJson⟩) (transfers [] .ok) (by decide)
  have hlast : lastCert [e₁] = some someCert := by simp [lastCert, hc₁, Call.cert?]
  refine ⟨e₁, e₂, p, hc₂, hp, hlast, ?_⟩
  refine credentials_iff started_afterStart h (fun e he _ => ?_)
    (show [e₁, e₂] = [e₁] ++ e₂ :: [] from rfl) hlast hp p (List.mem_singleton_self p)
  rcases List.mem_pair.mp he with rfl | rfl
  · exact hs₁
  · exact hs₂

/-- The transfer of a GET after a successful `SetCertificateAttributes` carries no credentials. -/
theorem get_without_credentials :
    ∃ (e₁ e₂ : Prog.Entry Call Reply (World Unit)) (w' : World Unit) (p : Performed Unit),
      History (handle ()) afterStart [e₁, e₂] w' ∧ e₁.result.1 = .success ∧
      lastCert [e₁] = some someCert ∧ e₂.called = .getDeviceData [98] ∧
      e₂.after.performs = e₂.before.performs ++ [p] ∧ ¬ HasFields someCert p.opts := by
  obtain ⟨e₁, e₂, w', p, h, hc₁, hs₁, hc₂, hs₂, hp⟩ :=
    exists_second_call (.getDeviceData [98])
      (List.replicate 9 .ok ++ [.transfer [] .ok, .ok, .ok]) (by decide)
  have hlast : lastCert [e₁] = some someCert := by simp [lastCert, hc₁, Call.cert?]
  refine ⟨e₁, e₂, w', p, h, hs₁, hlast, hc₂, hp, ?_⟩
  obtain ⟨h₁, hr⟩ :=
    Prog.Hist.split (show History (handle ()) afterStart ([e₁] ++ e₂ :: []) w' from h)
  obtain ⟨hlive, -⟩ := guarded h₁ started_afterStart.live fun e he _ => by
    obtain rfl := List.mem_singleton.mp he; exact hs₁
  obtain ⟨ps, hps, htr⟩ := (Prog.wp_returns (wp_guards () _ _ hlive) hr).transfers
  obtain rfl := List.append_cancel_left (hp.symm.trans hps)
  exact (not_protected ((htr p (List.mem_singleton_self p) someCert).1 (by rw [hc₂]; rfl))).2

end CurlHttpWrapper

end LibRest
