import Mathlib.Data.List.Nodup
import LibRest.Effects
import LibRest.Requests

/-!
# Requests that run alone

What `Post`, `Put`, `PostPollingData`, `GetData` and `UpdateTLSInfo` do when no other call runs at
the same time, for all outcomes of the libcurl calls.

- **`Since`** is the state of a request between its first operation and its perform: on its handle,
  the options `kn` have the values that the request gave them, the options `may` may have been set,
  all others are as before. Each `curl_easy_setopt` adds an option (`wp_checked`, `wp_unchecked`).
- **`Sent`** is what a request with a body leaves (`wp_sendBody`), `Fetched` what a GET leaves
  (`wp_getData`), `Protected` what a successful `UpdateTLSInfo` leaves (`wp_updateTLSInfo`).
-/

namespace LibRest

open Lib

namespace CurlHttpWrapper

variable {ι : Type} {w w' w₀ : World ι}

/-! ## Options -/

/-- On the handle `h`, since `w₀`: the options `kn` were set to these values, the options `may` may
have been set, and nothing else changed but header lists and counters. -/
structure Since (w₀ : World ι) (h : EasyId) (S : SlistId → Slist) (may : List CurlOpt)
    (kn : List (CurlOpt × Arg)) (w : World ι) : Prop where
  performs : w.performs = w₀.performs
  buffer : w.buffer = w₀.buffer
  cert : w.cert = w₀.cert
  easyCount : w.easyCount = w₀.easyCount
  slist : w.slist = S
  known : ∀ p ∈ kn, ∃ j, w.opts h p.1 = some (p.2, j)
  other : ∀ o, o ∉ may → o ∉ kn.map Prod.fst → w.opts h o = w₀.opts h o
  handles : ∀ h', h' ≠ h → w.opts h' = w₀.opts h'

theorem Since.refl (w : World ι) (h : EasyId) : Since w h w.slist [] [] w :=
  ⟨rfl, rfl, rfl, rfl, rfl, nofun, fun _ _ _ => rfl, fun _ _ => rfl⟩

variable {h : EasyId} {S : SlistId → Slist} {may : List CurlOpt} {kn : List (CurlOpt × Arg)}
  {o : CurlOpt} {a : Arg} {i : ι}

theorem Since.misuse (hs : Since w₀ h S may kn w) (m : Nat) :
    Since w₀ h S may kn { w with misuse := m } :=
  ⟨hs.performs, hs.buffer, hs.cert, hs.easyCount, hs.slist, hs.known, hs.other, hs.handles⟩

theorem Since.record (hs : Since w₀ h S may kn w) (hn : o ∉ kn.map Prod.fst) :
    Since w₀ h S may ((o, a) :: kn) (w.record i h o a) := by
  refine ⟨hs.performs, hs.buffer, hs.cert, hs.easyCount, hs.slist, fun p hp => ?_,
    fun o' hm hk => ?_, fun h' hh => ?_⟩
  · rw [World.record_opts]
    rcases List.mem_cons.mp hp with rfl | hp
    · exact ⟨i, Function.update_self ..⟩
    · have hne : p.1 ≠ o := fun e => hn (e ▸ List.mem_map_of_mem hp)
      rw [Function.update_of_ne hne]; exact hs.known p hp
  · rw [List.map_cons, List.mem_cons, not_or] at hk
    rw [World.record_opts, Function.update_of_ne hk.1]; exact hs.other o' hm hk.2
  · rw [World.record_opts_ne i o a hh]; exact hs.handles h' hh

theorem Since.recordMay (hs : Since w₀ h S may kn w) (hn : o ∉ kn.map Prod.fst) :
    Since w₀ h S (o :: may) kn (w.record i h o a) := by
  have hr := hs.record (i := i) (a := a) hn
  refine ⟨hs.performs, hs.buffer, hs.cert, hs.easyCount, hs.slist,
    fun p hp => hr.known p (List.mem_cons_of_mem _ hp), fun o' hm hk => ?_, hr.handles⟩
  rw [List.mem_cons, not_or] at hm
  refine hr.other o' hm.2 ?_
  rw [List.map_cons, List.mem_cons, not_or]
  exact ⟨hm.1, hk⟩

theorem Since.widen (hs : Since w₀ h S may kn w) (o : CurlOpt) : Since w₀ h S (o :: may) kn w :=
  ⟨hs.performs, hs.buffer, hs.cert, hs.easyCount, hs.slist, hs.known,
    fun o' hm hk => hs.other o' (fun e => hm (List.mem_cons_of_mem _ e)) hk, hs.handles⟩

variable [DecidableEq ι] {H : Handler Op.Res (World ι) Choice} {α : Type}
  {Q : α → World ι → Prop}

/-- What a `curl_easy_setopt` that returns does. -/
theorem setopt_cases {h : EasyId} {o : CurlOpt} {a : Arg} {c : Choice} {r : CurlCode}
    (e : handle i (.setopt (some h) o a) w c = some (some r, w')) :
    ∃ m, (c = .ok ∧ r = .ok ∧ w' = ({ w with misuse := m } : World ι).record i h o a) ∨
      ((∃ n, c = .fail n ∧ r = .error n) ∧ w' = { w with misuse := m }) := by
  obtain ⟨m, hm⟩ := World.useSet_eq w h a
  cases c <;> cases e
  · exact ⟨m, .inl ⟨rfl, rfl, by rw [hm]⟩⟩
  · exact ⟨m, .inr ⟨⟨_, rfl, rfl⟩, hm⟩⟩

/-- A `curl_easy_setopt` whose result is checked. -/
theorem wp_checked (hH : Prog.Refines H (handle i)) {c k : Request α}
    (hs : Since w₀ h S may kn w) (hn : o ∉ kn.map Prod.fst)
    (hc : ∀ w', Since w₀ h S may kn w' → Prog.wp H c Q w')
    (hk : ∀ w', Since w₀ h S may ((o, a) :: kn) w' → Prog.wp H k Q w') :
    Prog.wp H (setopt (some h) o a >>= fun res => if res ≠ .ok then c else k) Q w := by
  refine hH.wp_call fun _ r w' e => ?_
  obtain ⟨m, ⟨-, rfl, rfl⟩ | ⟨⟨n, -, rfl⟩, rfl⟩⟩ := setopt_cases e
  · exact hk _ ((hs.misuse m).record hn)
  · exact hc _ (hs.misuse m)

/-- A `curl_easy_setopt` whose result is not checked. -/
theorem wp_unchecked (hH : Prog.Refines H (handle i)) {k : CurlCode → Request α}
    (hs : Since w₀ h S may kn w) (hn : o ∉ kn.map Prod.fst)
    (hk : ∀ r w', Since w₀ h S (o :: may) kn w' → Prog.wp H (k r) Q w') :
    Prog.wp H (setopt (some h) o a >>= k) Q w := by
  refine hH.wp_call fun _ r w' e => ?_
  obtain ⟨m, ⟨-, rfl, rfl⟩ | ⟨⟨n, -, rfl⟩, rfl⟩⟩ := setopt_cases e
  · exact hk _ _ ((hs.misuse m).recordMay hn)
  · exact hk _ _ ((hs.misuse m).widen o)

/-! ## Requests with a body -/

/-- The lines of a header list. -/
def linesOf (headers : Option SlistId) (w : World ι) : List Str :=
  match headers with
  | some l => (w.slist l).lines
  | none => []

/-- Only header lists and counters differ. -/
def Lists (w w' : World ι) : Prop :=
  ∃ S n m, w' = { w with slist := S, slistCount := n, misuse := m }

omit [DecidableEq ι] in
theorem Since.lists (hs : Since w₀ h S may kn w) (hl : Lists w w') :
    Since w₀ h w'.slist may kn w' := by
  obtain ⟨S', n, m, rfl⟩ := hl
  exact ⟨hs.performs, hs.buffer, hs.cert, hs.easyCount, rfl, hs.known, hs.other, hs.handles⟩

theorem wp_freeHeader (hH : Prog.Refines H (handle i)) {headers : Option SlistId}
    {k : Request α} (hk : ∀ w', Lists w w' → Prog.wp H k Q w') :
    Prog.wp H (freeHeader headers >>= fun _ => k) Q w := by
  cases headers with
  | none => exact hk w ⟨w.slist, w.slistCount, w.misuse, rfl⟩
  | some l =>
    show Prog.wp H (Prog.call (Op.slistFreeAll l) >>= fun _ => k) Q w
    refine hH.wp_call fun c r w' e => ?_
    obtain ⟨m, hm⟩ := World.useSlist_eq w l
    cases c <;> cases e
    rw [hm]
    exact hk _ ⟨_, _, _, rfl⟩

/-- A transfer on the handle `h`. -/
theorem wp_perform (hH : Prog.Refines H (handle i)) {k : CurlCode → Request α}
    (hk : ∀ m chunks code,
      Prog.wp H (k code) Q (({ w with misuse := m } : World ι).perform i h chunks code)) :
    Prog.wp H (perform (some h) >>= k) Q w := by
  refine hH.wp_call fun c r w' e => ?_
  obtain ⟨m, hm⟩ := World.use_eq w h
  cases c <;> cases e
  rw [hm]
  exact hk m _ _

theorem wp_clear (hH : Prog.Refines H (handle i)) {b : Buffer} {k : Unit → Request α}
    (hk : Prog.wp H (k ()) Q { w with buffer := Function.update w.buffer b [] }) :
    Prog.wp H (clear b >>= k) Q w := by
  refine hH.wp_call fun c r w' e => ?_
  cases c <;> cases e
  exact hk

/-- The options that a request with a body sets. -/
def bodyOptions : List CurlOpt :=
  [.errorBuffer, .url, .httpHeader, .customRequest, .postFieldSize, .postFields]

/-- The transfer has this method, url and content. The url is a C string. -/
structure Sends (p : Performed ι) (method url content : Str) : Prop where
  url : ∃ j, p.opts .url = some (.text (cStr url), j)
  method : ∃ j, p.opts .customRequest = some (.text method, j)
  size : ∃ j, p.opts .postFieldSize = some (.long content.length, j)
  body : ∃ j, p.opts .postFields = some (.text content, j)

/-- What a request with a body leaves, from `w`; its header lines have `A`. -/
structure Sent (A : List Str → Prop) (method url content : Str) (w : World ι)
    (status : HttpStatus) (w' : World ι) : Prop where
  options : ∀ o, o ∉ bodyOptions → w'.opts mCurl o = w.opts mCurl o
  easyCount : w'.easyCount = w.easyCount
  cert : w'.cert = w.cert
  outcome :
    (w'.performs = w.performs ∧ status ≠ .success ∧ w'.buffer .strHttpStatus = []) ∨
    ∃ p, w'.performs = w.performs ++ [p] ∧ p.easy = mCurl ∧ Sends p method url content ∧
      A p.headers ∧ (status = .success ↔ p.code = .ok) ∧
      (w.Target mCurl .strHttpStatus → w'.buffer .strHttpStatus = p.chunks.flatten) ∧
      ∀ o, o ∉ bodyOptions → p.opts o = w.opts mCurl o

variable {A : List Str → Prop} {method url content : Str}

omit [DecidableEq ι] in
/-- A request that stops before its perform. -/
theorem Since.aborted {status : HttpStatus}
    (hs : Since { w with buffer := Function.update w.buffer .strHttpStatus [] } mCurl S may kn w')
    (hsub : ∀ o, o ∈ may ∨ o ∈ kn.map Prod.fst → o ∈ bodyOptions) (hne : status ≠ .success) :
    Sent A method url content w status w' := by
  refine ⟨fun o ho => ?_, hs.easyCount, hs.cert, .inl ⟨hs.performs, hne, ?_⟩⟩
  · exact hs.other o (fun e => ho (hsub o (.inl e))) (fun e => ho (hsub o (.inr e)))
  · rw [hs.buffer]; simp

/-- The options that a request has set when it performs. -/
def bodyValues (method url content : Str) (headers : Option SlistId) : List (CurlOpt × Arg) :=
  [(.postFields, .text content), (.postFieldSize, .long content.length),
    (.customRequest, .text method), (.httpHeader, .slist headers), (.url, .text (cStr url))]

omit [DecidableEq ι] in
theorem Since.headerLines {headers : Option SlistId}
    (hs : Since w₀ mCurl S may (bodyValues method url content headers) w) :
    w.headerLines mCurl = linesOf headers w := by
  obtain ⟨j, hj⟩ := hs.known (.httpHeader, .slist headers) (by simp [bodyValues])
  cases headers <;> simp [World.headerLines, hj, linesOf]

/-- A request that performs. -/
theorem Since.sent {headers : Option SlistId} {m : Nat} {chunks : List Str} {code : CurlCode}
    {status : HttpStatus}
    (hs : Since { w with buffer := Function.update w.buffer .strHttpStatus [] } mCurl S
      [.errorBuffer] (bodyValues method url content headers) w₀)
    (hA : A (linesOf headers w₀)) (hst : status = .success ↔ code = .ok)
    (hl : Lists (({ w₀ with misuse := m } : World ι).perform i mCurl chunks code) w') :
    Sent A method url content w status w' := by
  have hother : ∀ o, o ∉ bodyOptions → w₀.opts mCurl o = w.opts mCurl o := fun o ho =>
    hs.other o (fun e => ho (by simp_all [bodyOptions]))
      (fun e => ho (by simp_all [bodyOptions, bodyValues]))
  have hknown : ∀ p, p ∈ bodyValues method url content headers →
      ∃ j, w₀.opts mCurl p.1 = some (p.2, j) := hs.known
  obtain ⟨S', n, m', rfl⟩ := hl
  obtain ⟨bs, d, e⟩ := World.perform_eq ({ w₀ with misuse := m } : World ι) i mCurl chunks code
  rw [e]
  refine ⟨hother, hs.easyCount, hs.cert, .inr ⟨_, congrArg (· ++ [_]) hs.performs, rfl, ?_, ?_,
    hst, fun ht => ?_, hother⟩⟩
  · exact ⟨hknown (.url, .text (cStr url)) (by simp [bodyValues]),
      hknown (.customRequest, .text method) (by simp [bodyValues]),
      hknown (.postFieldSize, .long content.length) (by simp [bodyValues]),
      hknown (.postFields, .text content) (by simp [bodyValues])⟩
  · show A (w₀.headerLines mCurl)
    rw [hs.headerLines]; exact hA
  · have hclear : w₀.buffer .strHttpStatus = [] := by rw [hs.buffer]; simp
    obtain ⟨⟨f, j, hf⟩, j', hd⟩ := ht
    have hb := World.perform_target (w := { w₀ with misuse := m }) (h := mCurl)
      (b := .strHttpStatus) ⟨⟨f, j, (hother _ (by decide)).trans hf⟩, j',
        (hother _ (by decide)).trans hd⟩ i chunks code
    rw [e] at hb
    refine hb.trans ?_
    show w₀.buffer .strHttpStatus ++ chunks.flatten = chunks.flatten
    rw [hclear]; rfl

theorem wp_catchRequest (hH : Prog.Refines H (handle i)) {headers : Option SlistId}
    {Q : HttpStatus → World ι → Prop} (hk : ∀ w', Lists w w' → Q .failure w') :
    Prog.wp H (catchRequest headers) Q w :=
  wp_freeHeader hH hk

/-- **Requests with a body.** `hadd` says what `addSecurityHeaders` gives. -/
theorem wp_sendBody (hH : Prog.Refines H (handle i)) {type : RestContentType}
    (hadd : ∀ w, Prog.wp H (addSecurityHeaders type.toInt)
      (fun headers w' => Lists w w' ∧ A (linesOf headers w')) w) (w : World ι) :
    Prog.wp H (sendBody method url content type) (Sent A method url content w) w := by
  have hstop : ∀ {S may kn headers w₁},
      Since { w with buffer := Function.update w.buffer .strHttpStatus [] } mCurl S may kn w₁ →
      (∀ o, o ∈ may ∨ o ∈ kn.map Prod.fst → o ∈ bodyOptions) →
      Prog.wp H (catchRequest headers) (Sent A method url content w) w₁ := fun hs hsub =>
    wp_catchRequest hH fun w' hl => (hs.lists hl).aborted hsub nofun
  unfold sendBody
  refine wp_clear hH ?_
  refine wp_unchecked hH (.refl _ mCurl) nofun fun _ w₁ h₁ => ?_
  refine wp_checked hH h₁ nofun (fun w' h' => hstop h' (by simp [bodyOptions])) fun w₂ h₂ => ?_
  rw [Prog.wp_bind]
  refine Prog.wp_mono (hadd w₂) fun headers w₃ ⟨hl, hA⟩ => ?_
  have h₃ := h₂.lists hl
  refine wp_checked hH h₃ (by simp) (fun w' h' => hstop h' (by simp [bodyOptions]))
    fun w₄ h₄ => ?_
  refine wp_checked hH h₄ (by simp) (fun w' h' => hstop h' (by simp [bodyOptions]))
    fun w₅ h₅ => ?_
  refine wp_checked hH h₅ (by simp) (fun w' h' => hstop h' (by simp [bodyOptions]))
    fun w₆ h₆ => ?_
  refine wp_checked hH h₆ (by simp) (fun w' h' => hstop h' (by simp [bodyOptions]))
    fun w₇ h₇ => ?_
  have hA' : A (linesOf headers w₇) := by
    have e : linesOf headers w₇ = linesOf headers w₃ := by
      cases headers <;> simp [linesOf, h₇.slist]
    rw [e]; exact hA
  refine wp_perform hH fun m chunks code => ?_
  by_cases hcode : code = .ok
  · rw [if_neg (not_not.mpr hcode)]
    refine wp_freeHeader hH fun w' hl' => ?_
    exact h₇.sent hA' (by simp [hcode]) hl'
  · rw [if_pos hcode]
    exact wp_catchRequest hH fun w' hl' => h₇.sent hA' (by simp [hcode]) hl'

omit [DecidableEq ι] in
theorem Lists.refl (w : World ι) : Lists w w := ⟨w.slist, w.slistCount, w.misuse, rfl⟩

omit [DecidableEq ι] in
theorem Lists.trans {w'' : World ι} (h : Lists w w') (h' : Lists w' w'') : Lists w w'' := by
  obtain ⟨S, n, m, rfl⟩ := h
  obtain ⟨S', n', m', rfl⟩ := h'
  exact ⟨S', n', m', rfl⟩

/-- What a `curl_slist_append` that returns does. -/
theorem slistAppend_cases (hH : Prog.Refines H (handle i)) {l : Option SlistId} {s : Str}
    {c : Choice} {r : Option SlistId}
    (hs : Prog.finish H (.slistAppend l s) w c = some (r, w')) :
    Lists w w' ∧ ((c = .ok ∧ linesOf r w' = linesOf l w ++ [s] ∧ r.isSome) ∨ ∃ n, c = .fail n) := by
  have e := hH.finish hs
  cases l with
  | none =>
    cases c <;> cases e
    · exact ⟨⟨_, _, w.misuse, rfl⟩, .inl ⟨rfl, by simp [linesOf, World.newSlist], rfl⟩⟩
    · exact ⟨.refl w, .inr ⟨_, rfl⟩⟩
  | some l =>
    obtain ⟨m, hm⟩ := World.useSlist_eq w l
    cases c <;> cases e
    · rw [hm]
      exact ⟨⟨_, _, _, rfl⟩, .inl ⟨rfl, by simp [linesOf, World.append], rfl⟩⟩
    · rw [hm]
      exact ⟨⟨_, _, _, rfl⟩, .inr ⟨_, rfl⟩⟩

/-- `addSecurityHeaders` changes header lists only, also when appends fail. -/
theorem wp_addSecurityHeaders (hH : Prog.Refines H (handle i)) (dataType : Int) (w : World ι) :
    Prog.wp H (addSecurityHeaders dataType) (fun _ w' => Lists w w') w := by
  intro _ _ w₁ h₁ _ _ w₂ h₂ _ _ w₃ h₃ _ _ w₄ h₄ _ _ w₅ h₅
  have h12 := (slistAppend_cases hH h₁).1.trans (slistAppend_cases hH h₂).1
  have h34 := (slistAppend_cases hH h₃).1.trans (slistAppend_cases hH h₄).1
  exact (h12.trans h34).trans (slistAppend_cases hH h₅).1

/-- No `curl_slist_append` fails. -/
def appendSucceeds (i : ι) : Handler Op.Res (World ι) Choice
  | .slistAppend _ _, _, .fail _ => none
  | o, w, c => handle i o w c

theorem appendSucceeds_refines (i : ι) : Prog.Refines (appendSucceeds i) (handle i) := by
  intro o w c x hx
  unfold appendSucceeds at hx
  split at hx
  · cases hx
  · exact hx

theorem append_line {l r : Option SlistId} {s : Str} {c : Choice}
    (hs : Prog.finish (appendSucceeds i) (.slistAppend l s) w c = some (r, w')) :
    linesOf r w' = linesOf l w ++ [s] := by
  rcases (slistAppend_cases (appendSucceeds_refines i) hs).2 with ⟨-, e, -⟩ | ⟨n, rfl⟩
  · exact e
  · cases hs

/-- If no append fails, the list has the security headers and the content type line. -/
theorem wp_addSecurityHeaders_lines (dataType : Int) (w : World ι) :
    Prog.wp (appendSucceeds i) (addSecurityHeaders dataType)
      (fun headers w' => Lists w w' ∧ linesOf headers w' = securityHeaders dataType) w := by
  intro _ _ w₁ h₁ _ _ w₂ h₂ _ _ w₃ h₃ _ _ w₄ h₄ _ _ w₅ h₅
  constructor
  · exact wp_addSecurityHeaders (appendSucceeds_refines i) dataType w
      _ _ _ h₁ _ _ _ h₂ _ _ _ h₃ _ _ _ h₄ _ _ _ h₅
  · rw [append_line h₅, append_line h₄, append_line h₃, append_line h₂, append_line h₁]
    rfl

/-! ## TLS credentials -/

/-- The TLS options for a certificate: its fields as C strings. -/
def tlsValues (cert : Certificate) : List (CurlOpt × Arg) :=
  [(.sslVerifyPeer, .long 1), (.caInfo, .text (cStr cert.strCAcertificate)),
    (.sslKey, .text (cStr cert.strKeyName)), (.sslKeyType, .text (cStr cert.strKeyType)),
    (.keyPasswd, .text (cStr cert.strPassword)), (.sslCert, .text (cStr cert.strCertificate)),
    (.sslCertType, .text (cStr cert.strKeyType))]

/-- The options carry the fields of the certificate as C strings, and peer verification is on. -/
def Protected (cert : Certificate) (opts : CurlOpt → Option (Arg × ι)) : Prop :=
  ∀ p ∈ tlsValues cert, ∃ j, opts p.1 = some (p.2, j)

/-- The options that `UpdateTLSInfo` sets. -/
def tlsOptions : List CurlOpt :=
  [.errorBuffer, .sslVerifyPeer, .caInfo, .sslKey, .sslKeyType, .keyPasswd, .sslCert, .sslCertType]

/-- What `UpdateTLSInfo` leaves, from `w`. -/
structure Updated (w : World ι) (status : HttpStatus) (w' : World ι) : Prop where
  performs : w'.performs = w.performs
  easyCount : w'.easyCount = w.easyCount
  cert : w'.cert = w.cert
  options : ∀ o, o ∉ tlsOptions → w'.opts mCurl o = w.opts mCurl o
  /-- Also after a failure, an option has its old value or that of the certificate. -/
  each : ∀ p ∈ tlsValues w.cert,
    w'.opts mCurl p.1 = w.opts mCurl p.1 ∨ ∃ j, w'.opts mCurl p.1 = some (p.2, j)
  success : status = .success → Protected w.cert (w'.opts mCurl)

theorem tlsValues_nodup (cert : Certificate) : ((tlsValues cert).map Prod.fst).Nodup := by
  simp [tlsValues]

theorem tlsValues_options {cert : Certificate} {p : CurlOpt × Arg} (hp : p ∈ tlsValues cert) :
    p.1 ∈ tlsOptions ∧ p.1 ≠ .errorBuffer ∧ p.1 ∉ bodyOptions := by
  simp only [tlsValues, List.mem_cons, List.not_mem_nil, or_false] at hp
  rcases hp with rfl | rfl | rfl | rfl | rfl | rfl | rfl <;> simp [tlsOptions, bodyOptions]

omit [DecidableEq ι] in
theorem Since.updated (hs : Since w mCurl S [.errorBuffer] kn w')
    (hkn : ∀ p ∈ kn, p ∈ tlsValues w.cert) {status : HttpStatus}
    (hst : status = .success → Protected w.cert (w'.opts mCurl)) : Updated w status w' := by
  refine ⟨hs.performs, hs.easyCount, hs.cert, fun o ho => ?_, fun p hp => ?_, hst⟩
  · refine hs.other o (fun e => ho ?_) (fun e => ho ?_)
    · rw [List.mem_singleton.mp e]; simp [tlsOptions]
    · obtain ⟨p, hp, rfl⟩ := List.mem_map.mp e
      exact (tlsValues_options (hkn p hp)).1
  · by_cases hmem : p.1 ∈ kn.map Prod.fst
    · obtain ⟨q, hq, e⟩ := List.mem_map.mp hmem
      obtain rfl := List.inj_on_of_nodup_map (tlsValues_nodup w.cert) (hkn q hq) hp e
      exact .inr (hs.known q hq)
    · refine .inl (hs.other p.1 (fun e => ?_) hmem)
      exact (tlsValues_options hp).2.1 (List.mem_singleton.mp e)

/-- Sets options of `mCurl` one after the other, and stops at the first that fails. -/
def setAll : List (CurlOpt × Arg) → Request HttpStatus
  | [] => return .success
  | (o, a) :: ps => do
    let res ← setopt (some mCurl) o a
    if res ≠ .ok then
      return .failure
    setAll ps

/-- The checked calls of `UpdateTLSInfo`, as one list. -/
theorem updateTLSInfo_eq : updateTLSInfo = (do
    let cert ← Prog.call Op.loadCert
    let _ ← setopt (some mCurl) .errorBuffer .errbuf
    setAll (tlsValues cert).reverse) := rfl

/-- What a run of `setAll (set ++ left)` has as its status and its choices, if it sets `set`. -/
inductive Stops (set : List (CurlOpt × Arg)) (rest : List Choice) :
    List (CurlOpt × Arg) → HttpStatus → List Choice → Prop where
  | all : Stops set rest [] .success (List.replicate set.length .ok ++ rest)
  | fails {p : CurlOpt × Arg} {ps : List (CurlOpt × Arg)} {n : Nat} :
      Stops set rest (p :: ps) .failure (List.replicate set.length .ok ++ .fail n :: rest)

theorem Stops.cons {p : CurlOpt × Arg} {set left : List (CurlOpt × Arg)} {rest cs : List Choice}
    {status : HttpStatus} (h : Stops set rest left status cs) :
    Stops (p :: set) rest left status (.ok :: cs) := by
  cases h with
  | all => exact .all
  | fails => exact .fails

/-- A run of `setAll`. -/
theorem exec_setAll {ps : List (CurlOpt × Arg)} {status : HttpStatus} {cs rest : List Choice}
    (hs : Since w₀ mCurl S may kn w) (hn : ((ps.reverse ++ kn).map Prod.fst).Nodup)
    (hr : Prog.exec (handle i) (setAll ps) w cs = some (status, w', rest)) :
    ∃ set left, ps = set ++ left ∧ Since w₀ mCurl S may (set.reverse ++ kn) w' ∧
      Stops set rest left status cs := by
  induction ps generalizing kn w cs with
  | nil =>
    cases hr
    exact ⟨[], [], rfl, hs, .all⟩
  | cons p ps ih =>
    obtain ⟨o, a⟩ := p
    rw [List.reverse_cons, List.append_assoc, List.singleton_append] at hn
    have hfresh : o ∉ kn.map Prod.fst := by
      rw [List.map_append, List.map_cons] at hn
      exact (List.nodup_cons.mp (List.nodup_append.mp hn).2.1).1
    obtain ⟨c, cs, r, w₁, rfl, e, hrest⟩ := Prog.exec_call hr
    clear hr
    obtain ⟨m, ⟨rfl, rfl, rfl⟩ | ⟨⟨n, rfl, rfl⟩, rfl⟩⟩ := setopt_cases e
    · obtain ⟨set, left, rfl, hs', hstop⟩ := ih ((hs.misuse m).record hfresh) hn hrest
      refine ⟨(o, a) :: set, left, rfl, ?_, hstop.cons⟩
      rw [List.reverse_cons, List.append_assoc, List.singleton_append]
      exact hs'
    · cases hrest
      exact ⟨[], (o, a) :: ps, rfl, hs.misuse m, .fails⟩

/-- A run of `UpdateTLSInfo`: which options it sets, in its order. -/
theorem exec_updateTLSInfo {status : HttpStatus} {cs rest : List Choice}
    (hr : Prog.exec (handle i) updateTLSInfo w cs = some (status, w', rest)) :
    ∃ c₁ c₂ cs' S set left, cs = c₁ :: c₂ :: cs' ∧ (tlsValues w.cert).reverse = set ++ left ∧
      Since w mCurl S [.errorBuffer] set.reverse w' ∧ Stops set rest left status cs' := by
  rw [updateTLSInfo_eq] at hr
  obtain ⟨c₁, _, cert, w₁, rfl, e₁, hr₁⟩ := Prog.exec_call hr
  obtain ⟨c₂, cs, r, w₂, rfl, e₂, hr₂⟩ := Prog.exec_call hr₁
  cases c₁ <;> cases e₁
  obtain ⟨S, hs⟩ : ∃ S, Since w mCurl S [.errorBuffer] [] w₂ := by
    obtain ⟨m, ⟨-, -, rfl⟩ | ⟨-, rfl⟩⟩ := setopt_cases e₂
    · exact ⟨_, ((Since.refl w mCurl).misuse m).recordMay nofun⟩
    · exact ⟨_, ((Since.refl w mCurl).misuse m).widen _⟩
  obtain ⟨set, left, e, hs', hstop⟩ := exec_setAll hs (by simp [tlsValues]) hr₂
  rw [List.append_nil] at hs'
  exact ⟨_, c₂, cs, S, set, left, rfl, e, hs', hstop⟩

theorem wp_updateTLSInfo (hH : Prog.Refines H (handle i)) (w : World ι) :
    Prog.wp H updateTLSInfo (Updated w) w := by
  refine Prog.wp_of_exec fun status w' cs rest hr => ?_
  obtain ⟨c₁, c₂, cs', S, set, left, -, e, hs, hstop⟩ := exec_updateTLSInfo (hH.exec hr)
  refine hs.updated (fun p hp => ?_) fun hst => ?_
  · rw [← List.mem_reverse, e]
    exact List.mem_append_left _ (List.mem_reverse.mp hp)
  · cases hstop with
    | all =>
      intro p hp
      rw [← List.mem_reverse, e, List.append_nil] at hp
      exact hs.known p (List.mem_reverse.mpr hp)
    | fails => cases hst

/-- `SetCertificateAttributes` stores the certificate, and updates the options from it. -/
theorem wp_setCertificateAttributes (hH : Prog.Refines H (handle i)) (cert : Certificate)
    (w : World ι) :
    Prog.wp H (setCertificateAttributes cert) (Updated { w with cert := cert }) w := by
  show Prog.wp H (Prog.call (Op.storeCert cert) >>= fun _ => updateTLSInfo) _ w
  refine hH.wp_call fun c r w' e => ?_
  cases c <;> cases e
  exact wp_updateTLSInfo hH _

/-! ## GET -/

/-- The options that `GetData` sets on its handle. -/
def getOptions : List CurlOpt :=
  [.errorBuffer, .writeData, .writeFunction, .httpGet, .useSsl, .url, .sslVerifyPeer]

/-- What the `try` block of `GetData` leaves on its handle `h`, from `w`. -/
structure Tried (w : World ι) (h : EasyId) (w' : World ι) : Prop where
  easyCount : w'.easyCount = w.easyCount
  cert : w'.cert = w.cert
  handles : ∀ h', h' ≠ h → w'.opts h' = w.opts h'
  outcome : w'.performs = w.performs ∨ ∃ p, w'.performs = w.performs ++ [p] ∧ p.easy = h ∧
    ∀ o, o ∉ getOptions → p.opts o = w.opts h o

omit [DecidableEq ι] in
theorem Since.tried (hs : Since w h S may kn w') : Tried w h w' :=
  ⟨hs.easyCount, hs.cert, hs.handles, .inl hs.performs⟩

omit [DecidableEq ι] in
theorem Tried.cleanup (ht : Tried w h w') (m : Nat) (h' : EasyId) :
    Tried w h (({ w' with misuse := m } : World ι).cleanup h') :=
  ⟨ht.easyCount, ht.cert,
    fun h'' hne => (World.cleanup_opts _ h' h'').trans (ht.handles h'' hne), ht.outcome⟩

theorem Since.performed (hs : Since w h S may kn w')
    (hsub : ∀ o, o ∈ may ∨ o ∈ kn.map Prod.fst → o ∈ getOptions) (m : Nat) (chunks : List Str)
    (code : CurlCode) :
    Tried w h (({ w' with misuse := m } : World ι).perform i h chunks code) := by
  obtain ⟨bs, d, e⟩ := World.perform_eq ({ w' with misuse := m } : World ι) i h chunks code
  rw [e]
  refine ⟨hs.easyCount, hs.cert, hs.handles, .inr ⟨_, congrArg (· ++ [_]) hs.performs, rfl,
    fun o ho => ?_⟩⟩
  exact hs.other o (fun e => ho (hsub o (.inl e))) (fun e => ho (hsub o (.inr e)))

theorem wp_cleanCurl (hH : Prog.Refines H (handle i)) {k : Request α}
    (hk : ∀ m, Prog.wp H k Q (({ w with misuse := m } : World ι).cleanup h)) :
    Prog.wp H (cleanCurl (some h) >>= fun _ => k) Q w := by
  show Prog.wp H (Prog.call (Op.cleanup h) >>= fun _ => k) Q w
  refine hH.wp_call fun c r w' e => ?_
  obtain ⟨m, hm⟩ := World.useEasy_eq w h
  cases c <;> cases e
  rw [hm]
  exact hk m

theorem wp_tryGet (hH : Prog.Refines H (handle i)) (url : Str) (w : World ι) (h : EasyId) :
    Prog.wp H (tryGet (some h) url) (fun _ w' => Tried w h w') w := by
  have hstop : ∀ {w₁}, Tried w h w₁ →
      Prog.wp H (catchGet (some h)) (fun _ w' => Tried w h w') w₁ := fun ht =>
    wp_cleanCurl hH fun m => ht.cleanup m h
  unfold tryGet
  refine wp_unchecked hH (.refl w h) nofun fun _ w₁ h₁ => ?_
  refine wp_unchecked hH h₁ nofun fun _ w₂ h₂ => ?_
  refine wp_unchecked hH h₂ nofun fun _ w₃ h₃ => ?_
  refine wp_checked hH h₃ nofun (fun w' h' => hstop h'.tried) fun w₄ h₄ => ?_
  refine wp_checked hH h₄ (by simp) (fun w' h' => hstop h'.tried) fun w₅ h₅ => ?_
  refine wp_checked hH h₅ (by simp) (fun w' h' => hstop h'.tried) fun w₆ h₆ => ?_
  refine wp_checked hH h₆ (by simp) (fun w' h' => hstop h'.tried) fun w₇ h₇ => ?_
  refine wp_perform hH fun m chunks code => ?_
  have ht := h₇.performed (i := i) (by simp [getOptions, or_assoc]) m chunks code
  split
  · exact hstop ht
  · exact ht

/-- A `curl_easy_setopt` on a null handle fails. -/
theorem wp_setopt_null (hH : Prog.Refines H (handle i)) {o : CurlOpt} {a : Arg}
    {k : CurlCode → Request α} (hk : ∀ n, Prog.wp H (k (.error n)) Q w) :
    Prog.wp H (setopt none o a >>= k) Q w := by
  refine hH.wp_call fun c r w' e => ?_
  cases c <;> cases e
  exact hk _

/-- On a null handle the `try` block fails and does nothing. -/
theorem wp_tryGet_null (hH : Prog.Refines H (handle i)) (url : Str) (w : World ι) :
    Prog.wp H (tryGet none url) (fun status w' => status = .failure ∧ w' = w) w := by
  unfold tryGet
  refine wp_setopt_null hH fun _ => ?_
  refine wp_setopt_null hH fun _ => ?_
  refine wp_setopt_null hH fun _ => ?_
  exact wp_setopt_null hH fun _ => ⟨rfl, rfl⟩

/-- What `GetData` leaves, from `w`. -/
structure Fetched (w w' : World ι) : Prop where
  options : w'.opts mCurl = w.opts mCurl
  easyCount : w.easyCount ≤ w'.easyCount
  cert : w'.cert = w.cert
  outcome : w'.performs = w.performs ∨ ∃ p, w'.performs = w.performs ++ [p] ∧
    ∀ o, o ∉ getOptions → p.opts o = none

omit [DecidableEq ι] in
/-- The handle of a GET is new: what the request has not set is not set. -/
theorem Tried.fetched {b : Buffer → Str} (hw : mCurl < w.easyCount)
    (ht : Tried ({ w with buffer := b } : World ι).newEasy w.easyCount w') : Fetched w w' := by
  have hne : mCurl ≠ w.easyCount := Nat.ne_of_lt hw
  refine ⟨?_, ?_, ht.cert, ?_⟩
  · rw [ht.handles _ hne]; exact World.newEasy_opts hne
  · rw [ht.easyCount]; exact Nat.le_succ _
  · rcases ht.outcome with e | ⟨p, e, -, hp⟩
    · exact .inl e
    · refine .inr ⟨p, e, fun o ho => (hp o ho).trans ?_⟩
      simp [World.newEasy, World.opts, Easy.new]

theorem wp_getData (hH : Prog.Refines H (handle i)) (uri : Str) (w : World ι)
    (hw : mCurl < w.easyCount) :
    Prog.wp H (getData uri) (fun _ w' => Fetched w w') w := by
  unfold getData
  refine wp_clear hH ?_
  refine hH.wp_call fun c curlPtr w₁ e => ?_
  cases c <;> cases e
  · refine Prog.wp_bind.mpr (Prog.wp_mono (wp_tryGet hH uri _ _) fun status w₂ ht => ?_)
    refine hH.wp_call fun c data w₃ e => ?_
    cases c <;> cases e
    exact wp_cleanCurl hH fun m => (ht.cleanup m _).fetched hw
  · refine Prog.wp_bind.mpr (Prog.wp_mono (wp_tryGet_null hH uri _) fun status w₂ ht => ?_)
    refine hH.wp_call fun c data w₃ e => ?_
    cases c <;> cases e
    obtain ⟨-, rfl⟩ := ht
    exact ⟨rfl, Nat.le_refl _, rfl, .inl rfl⟩

end CurlHttpWrapper

end LibRest
