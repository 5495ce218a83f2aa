import LibRest.History
import LibRest.Lib.Pool

/-!
# Requests that share `mCurl`

The worker's `Post` and `Put` calls, one after the other, and any number of `PostPollingData`,
`SetCertificateAttributes` and `UpdateTLSInfo` calls of clients, all on the one handle `mCurl`.
`PostPollingData` locks `mPollingMutex`, the others lock nothing.

- **Isolation** (`Isolated`). A transfer uses options that its own call has set.
- **`Undisturbed`**: a call sets no option that another call has set and is yet to perform with, and
  the unchecked setting of the error buffer does not fail. Then every call keeps the options that it
  has set (`Covers`) until it performs.
-/

namespace LibRest

open Lib

namespace CurlHttpWrapper

/-- A call: the worker's `n`-th one, or one of a client. -/
inductive RequestId (C : Type) where
  | worker (n : Nat)
  | client (c : C)
  deriving DecidableEq, Repr

/-- The worker makes its calls one after the other, and each thread makes its kinds of calls. -/
def mayCall {C : Type} (calls : RequestId C → Option (Request Reply)) :
    RequestId C → Call → Bool
  | .worker 0, .post .. | .worker 0, .put .. => true
  | .worker (n + 1), .post .. | .worker (n + 1), .put .. => Pool.returned (calls (.worker n))
  | .client _, .postPollingData .. | .client _, .setCertificateAttributes _
  | .client _, .updateTLSInfo => true
  | _, _ => false

/-- The calls that share `mCurl`, from a wrapper on which no transfer has run. -/
def requests (C : Type) [DecidableEq C] :
    Sys (Pool Op.Res (RequestId C) (World (RequestId C)) Reply)
      (Pool.Act (RequestId C) Call Choice) :=
  Pool.sys handle Call.body mayCall fun w =>
    w.performs = [] ∧ mCurl < w.easyCount ∧ w.mPollingMutex = none

/-- The transfer uses the url, headers, method, size, body and error buffer of its own call. -/
def Own {ι : Type} (p : Performed ι) : Prop :=
  ∀ o ∈ bodyOptions, ∃ a, p.opts o = some (a, p.call)

def Isolated {ι : Type} (w : World ι) : Prop := ∀ p ∈ w.performs, Own p

/-- The operation is no transfer. -/
def NoPerform (o : Op) : Prop := ∀ h, o ≠ .perform h

/-- The rest of a call has a perform in it. -/
def CanPerform {α : Type} (p : Request α) : Prop := ¬ p.All NoPerform

/-- A call that sets an option takes it from no call that has set it and may still perform, and a
call that may still perform does not fail to set the error buffer. -/
def Undisturbed {C : Type} (s : Pool Op.Res (RequestId C) (World (RequestId C)) Reply) :
    Pool.Act (RequestId C) Call Choice → Prop
  | .call .. => True
  | .step i c => ∀ opt a k, s.calls i = some (.op (.setopt (some mCurl) opt a) k) →
    (opt ∈ bodyOptions → c = .ok → ∀ j, j ≠ i → ∀ q, s.calls j = some q → CanPerform q →
      ∀ b, s.shared.opts mCurl opt ≠ some (b, j)) ∧
    (opt = .errorBuffer → (∃ n, c = .fail n) → ¬ CanPerform (.op (.setopt (some mCurl) opt a) k))

/-! ## What a call has set -/

/-- The operation records `x` in `mCurl` when it returns `r`. -/
def Sets : (o : Op) → o.Res → CurlOpt → Prop
  | .setopt h opt _, r, x => h = some mCurl ∧ opt = x ∧ r = .ok
  | _, _, _ => False

/-- The operation fails to set the error buffer. -/
def Misses : (o : Op) → o.Res → Prop
  | .setopt h .errorBuffer _, r => h = some mCurl ∧ r ≠ .ok
  | _, _ => False

variable {α β : Type} {W W' : CurlOpt → Prop} {p : Request α}

/-- If the options `W` are set, the rest of a call performs only on `mCurl` and with all its options
set. -/
def Covers : (CurlOpt → Prop) → Request α → Prop
  | _, .ret _ => True
  | W, .op o k =>
    (∀ h, o = .perform h → h = some mCurl ∧ ∀ x ∈ bodyOptions, W x) ∧
      ∀ r, ¬ Misses o r → Covers (fun x => W x ∨ Sets o r x) (k r)

theorem Covers.mono (hW : ∀ x ∈ bodyOptions, W x → W' x) (h : Covers W p) : Covers W' p := by
  induction p generalizing W W' with
  | ret a => trivial
  | op o k ih =>
    refine ⟨fun h' ho => ?_, fun r hr => ih r (fun x hx hW' => ?_) (h.2 r hr)⟩
    · obtain ⟨hh, hall⟩ := h.1 h' ho
      exact ⟨hh, fun x hx => hW x hx (hall x hx)⟩
    · exact hW'.imp (hW x hx) id

theorem covers_of_all (h : p.All NoPerform) : Covers W p := by
  induction p generalizing W with
  | ret a => trivial
  | op o k ih => exact ⟨fun h' ho => absurd ho (h.1 h'), fun r _ => ih r (h.2 r)⟩

/-- What comes after the last perform is free. -/
theorem Covers.bind {f : α → Request β} (h : Covers W p) (hf : ∀ a, (f a).All NoPerform) :
    Covers W (p >>= f) := by
  induction p generalizing W with
  | ret a => exact covers_of_all (hf a)
  | op o k ih => exact ⟨h.1, fun r hr => ih r (h.2 r hr)⟩

theorem covers_call {o : Op} {k : o.Res → Request α} (ho : NoPerform o)
    (hk : ∀ r, Covers W (k r)) : Covers W (Prog.call o >>= k) :=
  ⟨fun h e => absurd e (ho h), fun r _ => (hk r).mono fun _ _ => .inl⟩

theorem covers_checked {opt : CurlOpt} {a : Arg} {c k : Request α}
    (hc : c.All NoPerform) (hk : Covers (fun x => W x ∨ x = opt) k) :
    Covers W (setopt (some mCurl) opt a >>= fun res => if res ≠ .ok then c else k) := by
  refine ⟨nofun, fun (r : CurlCode) _ => ?_⟩
  show Covers _ (if r ≠ .ok then c else k)
  split
  · exact covers_of_all hc
  · rename_i hr
    exact hk.mono fun x _ hx => hx.imp id fun e => ⟨rfl, e.symm, not_not.mp hr⟩

theorem all_freeHeader (headers : Option SlistId) : (freeHeader headers).All NoPerform := by
  cases headers with
  | none => trivial
  | some l => exact ⟨nofun, fun _ => trivial⟩

theorem all_catchRequest (headers : Option SlistId) : (catchRequest headers).All NoPerform :=
  (all_freeHeader headers).bind fun _ => trivial

theorem all_addSecurityHeaders (dataType : Int) :
    (addSecurityHeaders dataType).All NoPerform :=
  ⟨nofun, fun _ => ⟨nofun, fun _ => ⟨nofun, fun _ => ⟨nofun, fun _ => ⟨nofun, fun _ => trivial⟩⟩⟩⟩⟩

/-- What a part of a request without a perform sets is not needed later. -/
theorem covers_seq {p : Request α} {f : α → Request β} (hp : p.All NoPerform)
    (hf : ∀ a, Covers W (f a)) : Covers W (p >>= f) := by
  induction p generalizing W with
  | ret a => exact hf a
  | op o k ih =>
    refine ⟨fun h e => absurd e (hp.1 h), fun r _ => ih r (hp.2 r) fun a => ?_⟩
    exact (hf a).mono fun _ _ => .inl

/-- A request with a body sets all its options before it performs. -/
theorem covers_sendBody (method url content : Str) (type : RestContentType) :
    Covers W (sendBody method url content type) := by
  unfold sendBody
  refine covers_call nofun fun _ => ?_
  refine ⟨nofun, fun (r : CurlCode) hr => ?_⟩
  have hok : r = .ok := by
    by_cases e : r = .ok
    · exact e
    · exact absurd ⟨rfl, e⟩ hr
  refine covers_checked (all_catchRequest _) ?_
  refine covers_seq (all_addSecurityHeaders _) fun headers => ?_
  refine covers_checked (all_catchRequest _) ?_
  refine covers_checked (all_catchRequest _) ?_
  refine covers_checked (all_catchRequest _) ?_
  refine covers_checked (all_catchRequest _) ?_
  refine ⟨fun h e => ⟨by cases e; rfl, fun x hx => ?_⟩, fun (r : CurlCode) _ => ?_⟩
  · simp only [bodyOptions, List.mem_cons, List.not_mem_nil, or_false] at hx
    rcases hx with rfl | rfl | rfl | rfl | rfl | rfl <;> simp [Sets, hok]
    exact .inr rfl
  · show Covers _ (if r ≠ .ok then catchRequest headers else _)
    split
    · exact covers_of_all (all_catchRequest _)
    · exact covers_of_all ((all_freeHeader headers).bind fun _ => trivial)

theorem covers_postPollingData (deviceUri : Str) (data : RestData) :
    Covers W (postPollingData deviceUri data) := by
  show Covers W (Prog.call Op.lockPolling >>= fun _ =>
    sendBody (str "POST") deviceUri data.getContent data.getType >>= fun status =>
      Prog.call Op.unlockPolling >>= fun _ => pure status)
  refine covers_call nofun fun _ => ?_
  exact (covers_sendBody ..).bind fun _ => ⟨nofun, fun _ => trivial⟩

theorem all_updateTLSInfo : updateTLSInfo.All NoPerform := by
  unfold updateTLSInfo
  refine ⟨nofun, fun cert => ⟨nofun, fun _ => ?_⟩⟩
  have hstop : (pure HttpStatus.failure : Request HttpStatus).All NoPerform := trivial
  refine all_checked nofun hstop (all_checked nofun hstop (all_checked nofun hstop ?_))
  refine all_checked nofun hstop (all_checked nofun hstop (all_checked nofun hstop ?_))
  exact all_checked nofun hstop trivial

/-- Each call of the system covers its performs. -/
theorem covers_body {C : Type} {calls : RequestId C → Option (Request Reply)} {i : RequestId C}
    {g : Call} (h : mayCall calls i g = true) : Covers W g.body := by
  have hsend : ∀ method url content type, Covers W
      (withoutData (sendBody method url content type)) := fun _ _ _ _ =>
    (covers_sendBody ..).bind fun _ => trivial
  cases g with
  | post url d => exact hsend ..
  | put url d => exact hsend ..
  | postPollingData uri d =>
    exact (covers_postPollingData uri d).bind fun _ => trivial
  | getDeviceData uri => cases i with
    | worker n => cases n <;> cases h
    | client c => cases h
  | setCertificateAttributes cert =>
    exact covers_of_all ⟨nofun, fun _ => all_updateTLSInfo.bind fun _ => trivial⟩
  | updateTLSInfo => exact covers_of_all (all_updateTLSInfo.bind fun _ => trivial)

/-! ## Steps -/

section Steps

variable {ι : Type} [DecidableEq ι] {i j : ι} {o : Op} {c : Choice} {x : CurlOpt} {w w' : World ι}

/-- The option of `mCurl` is one that the call `i` has set. -/
def Has (w : World ι) (i : ι) (x : CurlOpt) : Prop := ∃ a, w.opts mCurl x = some (a, i)

theorem Has.own (he : World.Effect i w o c w') (hw : mCurl < w.easyCount) (h : Has w i x) :
    Has w' i x := by
  obtain ⟨a, h⟩ := h
  rcases he.opts hw with e | ⟨opt, b, -, -, e⟩
  · exact ⟨a, by rw [e]; exact h⟩
  · by_cases hx : x = opt
    · subst hx
      exact ⟨b, by rw [e, Function.update_self]⟩
    · exact ⟨a, by rw [e, Function.update_of_ne hx]; exact h⟩

/-- The options of another call stay, up to the one that is set. -/
theorem Has.other (he : World.Effect i w o c w') (hw : mCurl < w.easyCount) (h : Has w j x)
    (hx : ∀ a, o = .setopt (some mCurl) x a → c ≠ .ok) : Has w' j x := by
  obtain ⟨a, h⟩ := h
  rcases he.opts hw with e | ⟨opt, b, ho, hc, e⟩
  · exact ⟨a, by rw [e]; exact h⟩
  · have hne : x ≠ opt := by
      intro e'
      subst e'
      exact hx b ho hc
    exact ⟨a, by rw [e, Function.update_of_ne hne]; exact h⟩

theorem Sets.has {r : o.Res} (hs : handle i o w c = some (some r, w')) (h : Sets o r x) :
    Has w' i x := by
  cases o with
  | setopt h' opt a =>
    obtain ⟨rfl, rfl, rfl⟩ := h
    cases c <;> cases hs
    exact ⟨a, by rw [World.record_opts, Function.update_self]⟩
  | _ => cases h

/-- Only a `curl_easy_setopt` that fails can miss the error buffer. -/
theorem Misses.fail {r : o.Res} (hs : handle i o w c = some (some r, w')) (h : Misses o r) :
    ∃ a, o = .setopt (some mCurl) .errorBuffer a ∧ ∃ n, c = .fail n := by
  cases o with
  | setopt h' opt a =>
    cases opt with
    | errorBuffer =>
      obtain ⟨rfl, hr⟩ := h
      refine ⟨a, rfl, ?_⟩
      cases c <;> cases hs
      · exact absurd rfl hr
      · exact ⟨_, rfl⟩
    | _ => cases h
  | _ => cases h

end Steps

/-! ## Isolation -/

/-- **Isolation.** In a run whose steps are all undisturbed, every transfer uses the options of its
own call. -/
theorem requests_isolated {C : Type} [DecidableEq C]
    {s : Pool Op.Res (RequestId C) (World (RequestId C)) Reply}
    (h : (requests C).Reach Undisturbed s) : Isolated s.shared := by
  -- each call keeps what it has set, for as long as it may still perform
  have hinv := Pool.inv (G := Undisturbed) (J := fun w => mCurl < w.easyCount ∧ Isolated w)
    (L := fun i q w => ∀ p, q = some p → Covers (Has w i) p) ?_ ?_ ?_ h
  · exact hinv.1.2
  · rintro w ⟨hp, hc, -⟩
    refine ⟨⟨hc, ?_⟩, fun i => nofun⟩
    unfold Isolated
    rw [hp]
    exact nofun
  · rintro calls i g w hmay - - p hp
    obtain rfl := Option.some.inj hp
    exact covers_body hmay
  · rintro s i c o k r w' hg hcur hr ⟨hlive, hiso⟩ hL
    have he := World.handle_effect hr
    have hi := hL i _ hcur
    refine ⟨⟨Nat.lt_of_lt_of_le hlive he.easyCount, ?_⟩, ?_, ?_⟩
    · rcases he.performs with e | ⟨h', chunks, code, rfl, e⟩
      · unfold Isolated; rw [e]; exact hiso
      · intro p hp
        rw [e, List.mem_append, List.mem_singleton] at hp
        rcases hp with hp | rfl
        · exact hiso p hp
        · obtain ⟨hh, hall⟩ := hi.1 _ rfl
          obtain rfl := Option.some.inj hh
          exact hall
    · intro p hp
      obtain rfl := Option.some.inj hp
      cases r with
      | none => exact hi.mono fun x _ hx => hx.own he hlive
      | some r =>
        by_cases hm : Misses o r
        · obtain ⟨a, rfl, hn⟩ := hm.fail hr
          exact covers_of_all ((not_not.mp ((hg _ _ _ hcur).2 rfl hn)).2 r)
        · refine (hi.2 r hm).mono fun x _ hx => ?_
          rcases hx with hx | hx
          · exact hx.own he hlive
          · exact hx.has hr
    · intro j hj q hq
      by_cases hperm : CanPerform q
      · refine (hL j q hq).mono fun x hx hhas => hhas.other he hlive ?_
        rintro a rfl hc
        obtain ⟨b, hb⟩ := hhas
        exact (hg _ _ _ hcur).1 hx hc j hj q hq hperm b hb
      · exact covers_of_all (not_not.mp hperm)

/-- A new wrapper with no calls. -/
def noCalls (C : Type) : Pool Op.Res (RequestId C) (World (RequestId C)) Reply :=
  ⟨.init, fun _ => none⟩

theorem requests_init (C : Type) [DecidableEq C] : (requests C).init (noCalls C) :=
  ⟨⟨rfl, Nat.zero_lt_one, rfl⟩, rfl⟩

/-- The post of the run below. -/
def somePost : Call := .post [98] ⟨[125], .typeJson⟩

/-- A decided condition that is enough: the option was set by the call itself, by a call that has
returned, or by the client `true`, which sets certificates only. -/
def undisturbed (s : Pool Op.Res (RequestId Bool) (World (RequestId Bool)) Reply) :
    Pool.Act (RequestId Bool) Call Choice → Bool
  | .call i g => i ≠ .client true || g.sends.isNone && !g.isGet
  | .step i c =>
    match s.calls i with
    | some (.op (.setopt _ opt _) _) =>
      c = .ok && match s.shared.opts mCurl opt with
        | some (_, j) => j = i || j = .client true || Pool.returned (s.calls j)
        | none => true
    | _ => true

theorem undisturbed_sound {s : Pool Op.Res (RequestId Bool) (World (RequestId Bool)) Reply}
    {a : Pool.Act (RequestId Bool) Call Choice}
    (h : (requests Bool).Reach (fun s a => undisturbed s a = true) s)
    (ha : undisturbed s a = true) : Undisturbed s a := by
  -- what is left of a change of the certificate has no perform
  have hquiet : ∀ q, s.calls (.client true) = some q → q.All NoPerform := by
    refine Pool.call_inv (fun s g hg => ?_) (fun o k hk r => ?_) h
    · have hg : g.sends = none ∧ g.isGet = false := by simpa [undisturbed] using hg
      cases g with
      | setCertificateAttributes cert =>
        exact ⟨nofun, fun _ => all_updateTLSInfo.bind fun _ => trivial⟩
      | updateTLSInfo => exact all_updateTLSInfo.bind fun _ => trivial
      | _ => simp [Call.sends, Call.isGet] at hg
    · cases r with
      | none => exact hk
      | some r => exact hk.2 r
  cases a with
  | call => trivial
  | step i c =>
    intro opt a k hk
    simp only [undisturbed, hk, Bool.and_eq_true, decide_eq_true_eq] at ha
    obtain ⟨rfl, hset⟩ := ha
    constructor
    · intro _ _ j hj q hq hperm b hb
      rw [hb] at hset
      simp only [Bool.or_eq_true, decide_eq_true_eq, or_assoc] at hset
      rcases hset with e | rfl | hret
      · exact hj e
      · exact hperm (hquiet q hq)
      · obtain ⟨r, hr⟩ := Option.isSome_iff_exists.mp hret
        rw [Pool.result_eq_some.mp hr] at hq
        cases hq
        exact hperm trivial
    · rintro - ⟨n, e⟩
      cases e

/-- A client changes the certificate while the worker posts, and another client polls: it waits in
front of its options until the post has returned. -/
def concurrent : List (Pool.Act (RequestId Bool) Call Choice) :=
  let oks (i : RequestId Bool) (n : Nat) : List (Pool.Act (RequestId Bool) Call Choice) :=
    List.replicate n (.step i .ok)
  let worker := oks (.worker 0)
  let poll := oks (.client false)
  let change := oks (.client true)
  [.call (.worker 0) somePost,
    .call (.client false) (.postPollingData [97] ⟨[123, 123], .typeWwwForm⟩),
    .call (.client true) (.setCertificateAttributes someCert)] ++
    change 3 ++ worker 2 ++ poll 1 ++ change 1 ++ worker 1 ++ change 2 ++ worker 5 ++ poll 1 ++
    change 2 ++ worker 4 ++ change 2 ++ [.step (.worker 0) (.transfer [[1]] .ok)] ++ worker 1 ++
    poll 11 ++ [.step (.client false) (.transfer [[2]] .ok)] ++ poll 2

/-- Three calls in turn: both transfers send the request of their own call. -/
theorem requests_isolated_three :
    ∃ s, (requests Bool).Reach Undisturbed s ∧
      s.shared.performs.map (fun p => (p.call, sentRequest p)) =
        [(.worker 0, ⟨some (.text [98]), some (.text (str "POST")), some (.long 1),
            some (.text [125]), requestHeaders .typeJson⟩),
          (.client false, ⟨some (.text [97]), some (.text (str "POST")), some (.long 2),
            some (.text [123, 123]), requestHeaders .typeWwwForm⟩)] ∧
      Pool.result (s.calls (.client true)) = some (.success, none) ∧
      Isolated s.shared := by
  obtain ⟨s, h, hobs⟩ := Sys.Reach.observe_along (S := requests Bool)
    (G := fun s a => undisturbed s a = true)
    (fun s => (s.shared.performs.map fun p => (p.call, sentRequest p),
      Pool.result (s.calls (.client true))))
    concurrent (requests_init Bool)
    (b := ([(.worker 0, ⟨some (.text [98]), some (.text (str "POST")), some (.long 1),
        some (.text [125]), requestHeaders .typeJson⟩),
      (.client false, ⟨some (.text [97]), some (.text (str "POST")), some (.long 2),
        some (.text [123, 123]), requestHeaders .typeWwwForm⟩)],
      some (.success, none))) (by decide) (by decide +kernel)
  obtain ⟨hperf, hret⟩ := Prod.mk.inj hobs
  have hund : (requests Bool).Reach Undisturbed s := h.mono fun _ _ => undisturbed_sound
  exact ⟨s, hund, hperf, hret, requests_isolated hund⟩

/-- The steps of a run in which a client sets its url between the options of a post and its perform.
-/
def interleaved : List (Pool.Act (RequestId Unit) Call Choice) :=
  [.call (.worker 0) somePost, .call (.client ()) (.postPollingData [97] ⟨[123], .typeJson⟩)] ++
    List.replicate 12 (.step (.worker 0) .ok) ++ List.replicate 4 (.step (.client ()) .ok) ++
    [.step (.worker 0) (.transfer [] .ok)]

/-- A transfer sends the content of the worker's post to the url of the client. -/
theorem post_to_other_url :
    ∃ s, (requests Unit).Reach Sys.Any s ∧
      (∃ p ∈ s.shared.performs, p.opts .url = some (.text [97], .client ()) ∧
        p.opts .postFields = some (.text [125], .worker 0)) ∧
      ¬ Isolated s.shared := by
  obtain ⟨s, hs, hf⟩ := Sys.Reach.observe (S := requests Unit)
    (fun s => s.shared.performs.map fun p => (p.opts .url, p.opts .postFields))
    interleaved (requests_init Unit)
    (b := [(some (.text [97], .client ()), some (.text [125], .worker 0))]) (by decide)
  obtain ⟨p, hp, hperf⟩ := List.map_eq_singleton_iff.mp hf
  obtain ⟨hurl, hbody⟩ := Prod.mk.injEq .. ▸ hperf
  have hmem : p ∈ s.shared.performs := by rw [hp]; exact List.mem_singleton_self p
  refine ⟨s, hs, ⟨p, hmem, hurl, hbody⟩, fun hiso => ?_⟩
  -- the two options were set by different calls, so one of them not by the call that performs
  obtain ⟨a, ha⟩ := hiso p hmem .url (by decide)
  obtain ⟨b, hb⟩ := hiso p hmem .postFields (by decide)
  rw [hurl] at ha
  rw [hbody] at hb
  injection ha with ha
  injection hb with hb
  have hc := (congrArg Prod.snd ha).trans (congrArg Prod.snd hb).symm
  cases hc

end CurlHttpWrapper

end LibRest
