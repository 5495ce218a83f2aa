import LibRest.Alone
import LibRest.Lib.Rely

/-!
# Requests with a body among other calls

What `Post` and `Put` do while other calls step on the same wrapper, for all outcomes of the libcurl
calls.

- **Rely** (`Others`). The others make no transfer and set no option in the name of this request. If
  `K`, they also leave the options alone that say what it sends, and the header lists that exist.
- **Guarantee** (`Makes`). The request makes at most one transfer, on `mCurl`. What this transfer
  uses of the options of its own call is what it was asked to send (`SendsOwn`), and if `K`, it is
  the transfer that it was asked to make.
- **Postcondition** (`Reports`). The status is `SUCCESS` exactly when its transfer ended well.
- A failed `curl_slist_append` loses the lines before it, so the header lines of a transfer are the
  last ones of the complete list (`rg_appendAll`).

With `K` false the rely is what every call keeps (`Others.of_step`).
-/

namespace LibRest

open Lib

namespace CurlHttpWrapper

/-- The options of `mCurl` that say what is sent. -/
def sendOptions : List CurlOpt := [.url, .httpHeader, .customRequest, .postFieldSize, .postFields]

variable {ι : Type} [DecidableEq ι] {i j : ι} {w w' : World ι} {K : Prop}

/-- The transfers that the call `i` has made. -/
def transfersOf (w : World ι) (i : ι) : List (Performed ι) := w.performs.filter (·.call = i)

/-- What a request has set stays. -/
structure Kept (w w' : World ι) : Prop where
  options : ∀ o ∈ sendOptions, w'.opts mCurl o = w.opts mCurl o
  slistCount : w.slistCount ≤ w'.slistCount
  lines : ∀ l, l < w.slistCount → (w'.slist l).lines = (w.slist l).lines

/-- The rely of the call `i`. -/
structure Others (K : Prop) (i : ι) (w w' : World ι) : Prop where
  transfers : transfersOf w' i = transfersOf w i
  named : ∀ o a, w'.opts mCurl o = some (a, i) → w.opts mCurl o = some (a, i)
  kept : K → Kept w w'

instance (K : Prop) (i : ι) : IsPreorder (World ι) (Others K i) where
  refl _ := ⟨rfl, fun _ _ h => h, fun _ => ⟨fun _ _ => rfl, Nat.le_refl _, fun _ _ => rfl⟩⟩
  trans _ _ _ h h' := ⟨h'.1.trans h.1, fun o a e => h.named o a (h'.named o a e), fun hK => by
    obtain ⟨ho, hc, hl⟩ := h.kept hK
    obtain ⟨ho', hc', hl'⟩ := h'.kept hK
    exact ⟨fun o hm => (ho' o hm).trans (ho o hm), Nat.le_trans hc hc',
      fun l hlt => (hl' l (Nat.lt_of_lt_of_le hlt hc)).trans (hl l hlt)⟩⟩

/-- The guarantee of the call `i`; its transfer has `S`. -/
def Makes (S : Performed ι → Prop) (i : ι) (w w' : World ι) : Prop :=
  w'.performs = w.performs ∨
    transfersOf w i = [] ∧ ∃ p, w'.performs = w.performs ++ [p] ∧ p.call = i ∧ p.easy = mCurl ∧ S p

/-- What the transfer uses of the options that its own call has set is this request. -/
structure SendsOwn (p : Performed ι) (method url content : Str) : Prop where
  url : ∀ a, p.opts .url = some (a, p.call) → a = .text (cStr url)
  method : ∀ a, p.opts .customRequest = some (a, p.call) → a = .text method
  size : ∀ a, p.opts .postFieldSize = some (a, p.call) → a = .long content.length
  body : ∀ a, p.opts .postFields = some (a, p.call) → a = .text content

/-- The status says whether the transfer of the call `i` ended well. -/
def Reports (i : ι) (status : HttpStatus) (w : World ι) : Prop :=
  status = .success ↔ ∃ p ∈ transfersOf w i, p.code = .ok

theorem Reports.of_eq {status : HttpStatus} (h : Reports i status w)
    (e : transfersOf w' i = transfersOf w i) : Reports i status w' := by
  unfold Reports
  rw [e]; exact h

theorem transfersOf_of_eq (h : w'.performs = w.performs) (i : ι) :
    transfersOf w' i = transfersOf w i := by
  rw [transfersOf, h]; rfl

theorem transfersOf_snoc {p : Performed ι} (h : w'.performs = w.performs ++ [p]) (i : ι) :
    transfersOf w' i = transfersOf w i ++ if p.call = i then [p] else [] := by
  rw [transfersOf, h, List.filter_append]
  by_cases hi : p.call = i <;> simp [transfersOf, hi]

/-- The status after the one transfer of the call. -/
theorem Reports.of_transfer {p : Performed ι} {status : HttpStatus} (hf : transfersOf w i = [])
    (hp : w'.performs = w.performs ++ [p]) (hi : p.call = i)
    (hst : status = .success ↔ p.code = .ok) : Reports i status w' := by
  unfold Reports
  rw [transfersOf_snoc hp, hf, if_pos hi, hst]
  simp

/-! ## What other calls keep -/

/-- The operation can change what a request on `mCurl` sends. -/
def Op.TouchesRequest : Op → Prop
  | .setopt h o _ => h = some mCurl ∧ o ∈ sendOptions
  | .slistAppend (some _) _ => True
  | _ => False

/-- What a step does to the header lists. -/
theorem handle_slists {o : Op} {c : Choice} {r : Option o.Res}
    (hs : handle i o w c = some (r, w')) :
    w.slistCount ≤ w'.slistCount ∧
      ((∃ l s, o = .slistAppend (some l) s) ∨
        ∀ l, l < w.slistCount → (w'.slist l).lines = (w.slist l).lines) := by
  have hsame : ∀ v : World ι, v.slist = w.slist → v.slistCount = w.slistCount →
      w.slistCount ≤ v.slistCount ∧
        ((∃ l s, o = .slistAppend (some l) s) ∨
          ∀ l, l < w.slistCount → (v.slist l).lines = (w.slist l).lines) := fun v e e' =>
    ⟨Nat.le_of_eq e'.symm, .inr fun l _ => by rw [e]⟩
  cases World.handle_outcome hs with
  | newSlist =>
    refine ⟨Nat.le_succ _, .inr fun l hl => ?_⟩
    simp [World.newSlist, Function.update_of_ne (Nat.ne_of_lt hl)]
  | append => exact ⟨Nat.le_refl _, .inl ⟨_, _, rfl⟩⟩
  | @freeAll l =>
    refine ⟨Nat.le_refl _, .inr fun l' _ => ?_⟩
    by_cases h : l' = l
    · subst h; simp [World.freeAll]
    · simp [World.freeAll, Function.update_of_ne h]
  | _ => exact hsame _ rfl rfl

/-- A step of another call is in the rely of `i`, if it does not touch what a request sends. -/
theorem Others.of_step {o : Op} {c : Choice} {r : Option o.Res} (hj : j ≠ i)
    (hs : handle j o w c = some (r, w')) (hw : mCurl < w.easyCount)
    (hK : K → ¬ Op.TouchesRequest o) : Others K i w w' := by
  have he := World.handle_effect hs
  refine ⟨?_, fun opt a h => ?_, fun hk => ?_⟩
  · rcases he.performs with e | ⟨h, chunks, code, -, e⟩
    · exact transfersOf_of_eq e i
    · have hc : (w.performed j h chunks code).call ≠ i := hj
      rw [transfersOf_snoc e i, if_neg hc, List.append_nil]
  · rcases he.opts hw with e | ⟨opt', a', -, -, e⟩
    · rwa [e] at h
    · by_cases hopt : opt = opt'
      · subst hopt
        rw [e, Function.update_self] at h
        exact absurd (congrArg Prod.snd (Option.some.inj h)) hj
      · rwa [e, Function.update_of_ne hopt] at h
  · obtain ⟨hcount, hlists⟩ := handle_slists hs
    refine ⟨fun opt hopt => ?_, hcount, ?_⟩
    · rcases he.opts hw with e | ⟨opt', a, rfl, -, e⟩
      · rw [e]
      · have hne : opt ≠ opt' := by
          rintro rfl
          exact hK hk ⟨rfl, hopt⟩
        rw [e, Function.update_of_ne hne]
    · rcases hlists with ⟨l, s, rfl⟩ | h
      · exact absurd trivial (hK hk)
      · exact h

/-! ## The parts of a request -/

/-- How far a request is before its transfer: `kn` are the options that it has set, `headers` the
head of its header list, whose lines are at the end of `ls`. -/
structure Ready (K : Prop) (i : ι) (kn : List (CurlOpt × Arg)) (headers : Option SlistId)
    (ls : List Str) (w : World ι) : Prop where
  fresh : transfersOf w i = []
  keys : ∀ p ∈ kn, p.1 ∈ sendOptions
  own : ∀ p ∈ kn, ∀ a, w.opts mCurl p.1 = some (a, i) → a = p.2
  known : K → ∀ p ∈ kn, ∃ j, w.opts mCurl p.1 = some (p.2, j)
  live : K → ∀ l, headers = some l → l < w.slistCount
  lines : K → linesOf headers w <:+ ls

variable {kn : List (CurlOpt × Arg)} {headers : Option SlistId} {ls : List Str} {α : Type}
  {S : Performed ι → Prop} {Q : α → World ι → Prop} {opt : CurlOpt} {a : Arg}

theorem Ready.init (h : transfersOf w i = []) : Ready K i [] none [] w :=
  ⟨h, by simp, by simp, by simp, by simp, by simp [linesOf]⟩

/-- The others keep what a request has set. -/
theorem Ready.others (h : Ready K i kn headers ls w) (hs : Others K i w w') :
    Ready K i kn headers ls w' := by
  refine ⟨hs.1.trans h.fresh, h.keys, fun p hp a e => h.own p hp a (hs.named _ a e),
    fun hk p hp => ?_, fun hk l e => ?_, fun hk => ?_⟩
  · rw [(hs.kept hk).options p.1 (h.keys p hp)]
    exact h.known hk p hp
  · exact Nat.lt_of_lt_of_le (h.live hk l e) (hs.kept hk).slistCount
  · have hl := h.lines hk
    cases headers with
    | none => exact hl
    | some l =>
      have e := (hs.kept hk).lines l (h.live hk l rfl)
      simp only [linesOf] at hl ⊢
      rw [e]; exact hl

/-- An operation of the request itself that changes none of it. -/
theorem Ready.same (h : Ready K i kn headers ls w) (hp : w'.performs = w.performs)
    (ho : w'.opts mCurl = w.opts mCurl) (hl : w'.slist = w.slist)
    (hc : w'.slistCount = w.slistCount) : Ready K i kn headers ls w' := by
  refine h.others ⟨transfersOf_of_eq hp i, fun o a e => by rwa [ho] at e,
    fun _ => ⟨fun o _ => by rw [ho], ?_, fun l _ => ?_⟩⟩
  · exact Nat.le_of_eq hc.symm
  · rw [hl]

theorem Ready.misuse (h : Ready K i kn headers ls w) (m : Nat) :
    Ready K i kn headers ls { w with misuse := m } := h.same rfl rfl rfl rfl

theorem Ready.record (h : Ready K i kn headers ls w) (hk : opt ∉ kn.map Prod.fst)
    (hopt : opt ∈ sendOptions) :
    Ready K i ((opt, a) :: kn) headers ls (w.record i mCurl opt a) := by
  have hne : ∀ p ∈ kn, p.1 ≠ opt := fun p hp e => hk (e ▸ List.mem_map_of_mem hp)
  refine ⟨h.fresh, fun p hp => ?_, fun p hp b e => ?_, fun hK p hp => ?_, h.live, h.lines⟩
  · rcases List.mem_cons.mp hp with rfl | hp
    · exact hopt
    · exact h.keys p hp
  · rcases List.mem_cons.mp hp with rfl | hp
    · rw [World.record_opts, Function.update_self] at e
      exact (congrArg Prod.fst (Option.some.inj e)).symm
    · rw [World.record_opts, Function.update_of_ne (hne p hp)] at e
      exact h.own p hp b e
  · rcases List.mem_cons.mp hp with rfl | hp
    · exact ⟨i, by simp⟩
    · rw [World.record_opts, Function.update_of_ne (hne p hp)]
      exact h.known hK p hp

/-- An option that says nothing about what is sent. -/
theorem Ready.recordOther (h : Ready K i kn headers ls w) (hopt : opt ∉ sendOptions) :
    Ready K i kn headers ls (w.record i mCurl opt a) := by
  have hne : ∀ p ∈ kn, p.1 ≠ opt := fun p hp e => hopt (e ▸ h.keys p hp)
  refine ⟨h.fresh, h.keys, fun p hp b e => ?_, fun hK p hp => ?_, h.live, h.lines⟩
  · rw [World.record_opts, Function.update_of_ne (hne p hp)] at e
    exact h.own p hp b e
  · rw [World.record_opts, Function.update_of_ne (hne p hp)]
    exact h.known hK p hp

/-- A `curl_easy_setopt` whose result is checked. -/
theorem rg_checked {c k : Request α} (h : Ready K i kn headers ls w)
    (hn : opt ∉ kn.map Prod.fst) (hopt : opt ∈ sendOptions)
    (hc : ∀ w', Ready K i kn headers ls w' →
      Prog.rg (handle i) (Others K i) (Makes S i) c Q w')
    (hk : ∀ w', Ready K i ((opt, a) :: kn) headers ls w' →
      Prog.rg (handle i) (Others K i) (Makes S i) k Q w') :
    Prog.rg (handle i) (Others K i) (Makes S i)
      (setopt (some mCurl) opt a >>= fun res => if res ≠ .ok then c else k) Q w := by
  refine Prog.rg_call (P := Ready K i kn headers ls) (fun _ _ hs hr => hr.others hs) h ?_
  intro w c' r w' hr hs
  obtain ⟨m, hm⟩ := World.useSet_eq w mCurl a
  cases c' <;> cases hs
  · rw [hm]
    exact ⟨.inl rfl, hk _ ((hr.misuse m).record hn hopt)⟩
  · rw [hm]
    exact ⟨.inl rfl, hc _ (hr.misuse m)⟩

/-- The setting of the error buffer, whose result is not checked. -/
theorem rg_errorBuffer {k : CurlCode → Request α} (h : Ready K i kn headers ls w)
    (hk : ∀ r w', Ready K i kn headers ls w' →
      Prog.rg (handle i) (Others K i) (Makes S i) (k r) Q w') :
    Prog.rg (handle i) (Others K i) (Makes S i)
      (setopt (some mCurl) .errorBuffer .errbuf >>= k) Q w := by
  refine Prog.rg_call (P := Ready K i kn headers ls) (fun _ _ hs hr => hr.others hs) h ?_
  intro w c' r w' hr hs
  obtain ⟨m, hm⟩ := World.useSet_eq w mCurl .errbuf
  cases c' <;> cases hs
  · rw [hm]
    exact ⟨.inl rfl, hk _ _ ((hr.misuse m).recordOther (by decide))⟩
  · rw [hm]
    exact ⟨.inl rfl, hk _ _ (hr.misuse m)⟩

/-! ## Header lists -/

/-- Appends lines one after the other, each to the head that the append before it returned. -/
def appendAll : Option SlistId → List Str → Request (Option SlistId)
  | headers, [] => pure headers
  | headers, s :: ss => do
    let headers ← slistAppend headers s
    appendAll headers ss

theorem addSecurityHeaders_eq (dataType : Int) :
    addSecurityHeaders dataType = appendAll none (securityHeaders dataType) := rfl

/-- One append. If it fails, the list before it is lost. -/
theorem Ready.append {s : Str} {c : Choice} {r : Option (Option SlistId)}
    (h : Ready K i kn headers ls w) (hs : handle i (.slistAppend headers s) w c = some (r, w')) :
    w'.performs = w.performs ∧ ∃ head, r = some head ∧ Ready K i kn head (ls ++ [s]) w' := by
  have hlost : ∀ m, Ready K i kn none (ls ++ [s]) ({ w with misuse := m } : World ι) := fun m =>
    ⟨h.fresh, h.keys, h.own, h.known, by simp, by simp [linesOf]⟩
  cases headers with
  | none =>
    cases c <;> cases hs
    · refine ⟨rfl, _, rfl, h.fresh, h.keys, h.own, h.known, fun _ l e => ?_, fun _ => ?_⟩
      · obtain rfl := Option.some.inj e
        exact Nat.lt_succ_self _
      · simp [linesOf, World.newSlist]
    · exact ⟨rfl, none, rfl, hlost w.misuse⟩
  | some l =>
    obtain ⟨m, hm⟩ := World.useSlist_eq w l
    cases c <;> cases hs <;> rw [hm]
    · refine ⟨rfl, _, rfl, h.fresh, h.keys, h.own, h.known, h.live, fun hK => ?_⟩
      obtain ⟨t, ht⟩ := h.lines hK
      refine ⟨t, ?_⟩
      simp only [linesOf] at ht
      simp [linesOf, World.append, ← ht]
    · exact ⟨rfl, none, rfl, hlost m⟩

theorem rg_appendAll {ss : List Str} {f : Option SlistId → Request α}
    (h : Ready K i kn headers ls w)
    (hk : ∀ headers w', Ready K i kn headers (ls ++ ss) w' →
      Prog.rg (handle i) (Others K i) (Makes S i) (f headers) Q w') :
    Prog.rg (handle i) (Others K i) (Makes S i) (appendAll headers ss >>= f) Q w := by
  induction ss generalizing headers ls w with
  | nil => exact hk headers w (by rw [List.append_nil]; exact h)
  | cons s ss ih =>
    show Prog.rg _ _ _ (slistAppend headers s >>= fun head => appendAll head ss >>= f) Q w
    refine Prog.rg_call (P := Ready K i kn headers ls) (fun _ _ hs hr => hr.others hs) h ?_
    intro w c r w' hr hs
    obtain ⟨hp, head, rfl, hr'⟩ := hr.append hs
    refine ⟨.inl hp, ih hr' fun head' w'' h'' => hk head' w'' ?_⟩
    rw [List.append_assoc] at h''
    exact h''

/-! ## The end of a request -/

/-- The request frees its headers and returns. -/
theorem rg_freeHeader {status : HttpStatus} (h : Reports i status w) :
    Prog.rg (handle i) (Others K i) (Makes S i)
      (freeHeader headers >>= fun _ => pure status) (Reports i) w := by
  have hret : ∀ w', Reports i status w' → Prog.rg (handle i) (Others K i) (Makes S i)
      (pure status : Request HttpStatus) (Reports i) w' := fun w' h' =>
    Prog.rg_ret (fun _ _ hs hr => hr.of_eq hs.1) h'
  cases headers with
  | none => exact hret w h
  | some l =>
    show Prog.rg _ _ _ (Prog.call (Op.slistFreeAll l) >>= fun _ => pure status) _ w
    refine Prog.rg_call (P := Reports i status) (fun _ _ hs hr => hr.of_eq hs.1) h ?_
    intro w c r w' hr hs
    obtain ⟨m, hm⟩ := World.useSlist_eq w l
    cases c <;> cases hs
    rw [hm]
    exact ⟨.inl rfl, hret _ hr⟩

/-- A request that stops before its transfer has failed. -/
theorem Ready.reports (h : Ready K i kn headers ls w) : Reports i .failure w := by
  unfold Reports
  rw [h.fresh]
  simp

omit [DecidableEq ι] in
/-- The lines of the header list that the handle has recorded. -/
theorem headerLines_eq {j : ι} (h : w.opts mCurl .httpHeader = some (.slist headers, j)) :
    w.headerLines mCurl = linesOf headers w := by
  cases headers <;> simp [World.headerLines, h, linesOf]

/-- What a request makes sure of for its transfer, with header lines at the end of `ls`. -/
def Asked (K : Prop) (method url content : Str) (ls : List Str) (p : Performed ι) : Prop :=
  SendsOwn p method url content ∧ (K → Sends p method url content ∧ p.headers <:+ ls)

/-- The transfer of a request that has set its options. -/
theorem Ready.asked {method url content : Str} {chunks : List Str} {code : CurlCode}
    (h : Ready K i (bodyValues method url content headers) headers ls w) :
    Asked K method url content ls (w.performed i mCurl chunks code) := by
  refine ⟨⟨?_, ?_, ?_, ?_⟩, fun hK => ⟨?_, ?_⟩⟩
  · exact h.own (.url, .text (cStr url)) (by simp [bodyValues])
  · exact h.own (.customRequest, .text method) (by simp [bodyValues])
  · exact h.own (.postFieldSize, .long content.length) (by simp [bodyValues])
  · exact h.own (.postFields, .text content) (by simp [bodyValues])
  · have hknown := h.known hK
    exact ⟨hknown (.url, .text (cStr url)) (by simp [bodyValues]),
      hknown (.customRequest, .text method) (by simp [bodyValues]),
      hknown (.postFieldSize, .long content.length) (by simp [bodyValues]),
      hknown (.postFields, .text content) (by simp [bodyValues])⟩
  · obtain ⟨j, hj⟩ := h.known hK (.httpHeader, .slist headers) (by simp [bodyValues])
    show w.headerLines mCurl <:+ ls
    rw [headerLines_eq hj]
    exact h.lines hK

/-- The transfer of a request, and its report. -/
theorem rg_perform {method url content : Str} {k : CurlCode → Request HttpStatus}
    (h : Ready K i (bodyValues method url content headers) headers ls w)
    (hk : ∀ code w', (∀ status, (status = .success ↔ code = .ok) → Reports i status w') →
      Prog.rg (handle i) (Others K i) (Makes (Asked K method url content ls) i) (k code)
        (Reports i) w') :
    Prog.rg (handle i) (Others K i) (Makes (Asked K method url content ls) i)
      (perform (some mCurl) >>= k) (Reports i) w := by
  refine Prog.rg_call (P := Ready K i (bodyValues method url content headers) headers ls)
    (fun _ _ hs hr => hr.others hs) h ?_
  intro w c r w' hr hs
  obtain ⟨m, hm⟩ := World.use_eq w mCurl
  cases c <;> cases hs
  · -- a chunk arrives, and the transfer goes on
    rename_i b
    obtain ⟨bs, d, e⟩ := World.deliver_eq i mCurl ({ w with misuse := m } : World ι) b
    rw [hm, e]
    exact ⟨.inl rfl, rfl, fun _ _ h => h, fun _ => ⟨fun _ _ => rfl, Nat.le_refl _, fun _ _ => rfl⟩⟩
  · rename_i chunks code
    obtain ⟨bs, d, e⟩ := World.perform_eq ({ w with misuse := m } : World ι) i mCurl chunks code
    rw [hm, e]
    refine ⟨.inr ⟨hr.fresh, w.performed i mCurl chunks code, rfl, rfl, rfl, hr.asked⟩, ?_⟩
    exact hk code _ fun status hst => .of_transfer hr.fresh rfl rfl hst

/-- **Requests with a body.** Among other calls, a request makes at most one transfer, which mixes
what it was asked to send only with what others have set, and is its own if the others leave it
alone; its status says how the transfer ended. -/
theorem rg_sendBody {method url content : Str} {type : RestContentType}
    (h : transfersOf w i = []) :
    Prog.rg (handle i) (Others K i)
      (Makes (Asked K method url content (securityHeaders type.toInt)) i)
      (sendBody method url content type) (Reports i) w := by
  have hstop : ∀ {kn headers ls w}, Ready K i kn headers ls w →
      Prog.rg (handle i) (Others K i)
        (Makes (Asked K method url content (securityHeaders type.toInt)) i)
        (catchRequest headers) (Reports i) w := fun hr => rg_freeHeader hr.reports
  have hopts : CurlOpt.url ∈ sendOptions ∧ CurlOpt.httpHeader ∈ sendOptions ∧
      CurlOpt.customRequest ∈ sendOptions ∧ CurlOpt.postFieldSize ∈ sendOptions ∧
      CurlOpt.postFields ∈ sendOptions := by decide
  unfold sendBody
  refine Prog.rg_call (P := Ready K i [] none []) (fun _ _ hs hr => hr.others hs) (.init h) ?_
  intro w c r w' hr hs
  cases c <;> cases hs
  refine ⟨.inl rfl, ?_⟩
  have h₀ : Ready K i [] none []
      { w with buffer := Function.update w.buffer .strHttpStatus [] } := hr.same rfl rfl rfl rfl
  refine rg_errorBuffer h₀ fun _ w₁ h₁ => ?_
  refine rg_checked h₁ (by simp) hopts.1 (fun _ => hstop) fun w₂ h₂ => ?_
  rw [addSecurityHeaders_eq]
  refine rg_appendAll h₂ fun headers w₃ h₃ => ?_
  refine rg_checked h₃ (by simp) hopts.2.1 (fun _ => hstop) fun w₄ h₄ => ?_
  refine rg_checked h₄ (by simp) hopts.2.2.1 (fun _ => hstop) fun w₅ h₅ => ?_
  refine rg_checked h₅ (by simp) hopts.2.2.2.1 (fun _ => hstop) fun w₆ h₆ => ?_
  refine rg_checked h₆ (by simp) hopts.2.2.2.2 (fun _ => hstop) fun w₇ h₇ => ?_
  refine rg_perform h₇ fun code w₈ h₈ => ?_
  split
  · rename_i hcode
    exact rg_freeHeader (h₈ _ (by simp [hcode]))
  · rename_i hcode
    exact rg_freeHeader (h₈ _ (by simp [not_not.mp hcode]))

end CurlHttpWrapper

end LibRest
