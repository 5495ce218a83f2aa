import LibRest.Direct
import LibRest.Lib.Protocol

/-!
# What a call holds

The header list that a request builds, and the easy handle of a `GetData`. A list is released by the
call that built it, and a handle by its `GetData`; `mCurl` keeps a pointer to the list that was set
last. All calls of the wrapper are interleaved, with all outcomes of libcurl.

- **The protocol** (`holdingProtocol`): what a call may do with its list, whether its list is set in
  `mCurl` and it is yet to perform, and with its handle. All calls keep to it (`holds_body`).
- **Owners** (`Held`). The lists that calls hold are not released, and no two calls hold the same. A
  step of a call that keeps to the protocol keeps this (`Held.step`).
-/

namespace LibRest

open Lib CurlHttpWrapper

/-! ## What a call holds -/

/-- The header list and the handle that a call has made. `set` says that the list is set in `mCurl`
and that the call may still perform, `cleanups` how often the handle was cleaned up. -/
structure Holding where
  list : Option SlistId
  set : Bool
  handle : Option EasyId
  cleanups : Nat

namespace Holding

/-- What a call holds at first. -/
def nothing : Holding := ⟨none, false, none, 0⟩

/-- After a `curl_easy_setopt`. A call whose option fails performs no more. -/
def setopt (g : Holding) (opt : CurlOpt) (r : CurlCode) : Holding :=
  { g with set := r = .ok ∧ (opt = .httpHeader ∨ g.set) }

/-- What a call that has returned holds: no list, and a handle that is cleaned up. -/
def Done (g : Holding) : Prop :=
  g.list = none ∧ g.set = false ∧ ∀ e, g.handle = some e → 1 ≤ g.cleanups

/-- The handle is the one of the call, which is not cleaned up. -/
def Own (g : Holding) (h : EasyId) : Prop := g.handle = some h ∧ g.cleanups = 0

variable {g : Holding} {opt : CurlOpt} {r : CurlCode}

theorem setopt_unset (hg : g.set = false) (ho : opt ≠ .httpHeader) : g.setopt opt r = g := by
  obtain ⟨list, set, handle, cleanups⟩ := g
  simp_all [setopt]

theorem setopt_ok (ho : opt ≠ .httpHeader) : g.setopt opt .ok = g := by
  obtain ⟨list, set, handle, cleanups⟩ := g
  simp [setopt, ho]

@[simp] theorem setopt_header : g.setopt .httpHeader .ok = { g with set := true } := by
  simp [setopt]

@[simp] theorem setopt_error {n : Nat} : g.setopt opt (.error n) = { g with set := false } := by
  simp [setopt]

end Holding

/-- What a call may do with its list and its handle. -/
def holdingProtocol : Protocol Op.Res Holding where
  may
    | g, .easyInit => g.handle = none
    | g, .setopt h opt a =>
      (∀ e, h = some e → e = mCurl ∨ g.Own e) ∧
        (opt = .httpHeader ∧ h = some mCurl ∧ a = .slist g.list ∧ g.set = false ∨
          opt ≠ .httpHeader ∧ ∀ l, a ≠ .slist l)
    | g, .perform h => ∀ e, h = some e → e = mCurl ∧ g.set = true ∨ g.Own e
    | g, .cleanup h => g.handle = some h ∧ g.cleanups ≤ 1
    | g, .slistAppend l _ => l = g.list ∧ g.set = false
    | g, .slistFreeAll l => g.list = some l
    | _, _ => True
  next
    | g, .easyInit, r => { g with handle := r, cleanups := 0 }
    | g, .setopt _ opt _, r => g.setopt opt r
    | g, .perform _, _ => { g with set := false }
    | g, .cleanup _, _ => { g with cleanups := g.cleanups + 1 }
    | g, .slistAppend .., l => { g with list := l }
    | g, .slistFreeAll _, _ => { g with list := none, set := false }
    | g, _, _ => g

variable {α : Type}

/-- The rest of a call keeps to the protocol, and releases what it holds. -/
abbrev Holds (p : Request α) (g : Holding) : Prop :=
  p.Safe holdingProtocol (fun _ g => g.Done) g

theorem Holding.done_nothing : Holding.nothing.Done := ⟨rfl, rfl, nofun⟩

/-- A `curl_easy_setopt` whose result is checked. -/
theorem safe_checked {h : Option EasyId} {opt : CurlOpt} {a : Arg} {c k : Request α}
    {Q : α → Holding → Prop} {g : Holding} (hmay : holdingProtocol.may g (.setopt h opt a))
    (hc : c.Safe holdingProtocol Q { g with set := false })
    (hk : k.Safe holdingProtocol Q (g.setopt opt .ok)) :
    (setopt h opt a >>= fun res => if res ≠ .ok then c else k).Safe holdingProtocol Q g := by
  refine Prog.safe_call hmay fun (r : CurlCode) => ?_
  show (if r ≠ .ok then c else k).Safe _ Q (g.setopt opt r)
  cases r with
  | ok => exact hk
  | error n => exact hc

/-- A `curl_easy_setopt` whose result is not checked. -/
theorem safe_unchecked {h : Option EasyId} {opt : CurlOpt} {a : Arg} {k : Request α}
    {Q : α → Holding → Prop} {g : Holding} (hmay : holdingProtocol.may g (.setopt h opt a))
    (hg : g.set = false) (ho : opt ≠ .httpHeader) (hk : k.Safe holdingProtocol Q g) :
    (setopt h opt a >>= fun _ => k).Safe holdingProtocol Q g := by
  refine Prog.safe_call hmay fun (r : CurlCode) => ?_
  show k.Safe _ Q (g.setopt opt r)
  rw [Holding.setopt_unset hg ho]
  exact hk

/-- The end of a request: its list is released, if it has one. -/
theorem holds_freeHeader (headers : Option SlistId) (a : α) :
    Holds (freeHeader headers >>= fun _ => pure a) ⟨headers, false, none, 0⟩ := by
  cases headers with
  | none => exact Holding.done_nothing
  | some l => exact Prog.safe_call rfl fun _ => Holding.done_nothing

/-- A request with a body. -/
theorem holds_sendBody (method url content : Str) (type : RestContentType) :
    Holds (sendBody method url content type) .nothing := by
  have hcurl : ∀ {g : Holding} {opt : CurlOpt} {a : Arg}, opt ≠ .httpHeader → (∀ l, a ≠ .slist l) →
      holdingProtocol.may g (.setopt (some mCurl) opt a) := fun ho ha =>
    ⟨fun e he => .inl (Option.some.inj he).symm, .inr ⟨ho, ha⟩⟩
  unfold sendBody
  refine Prog.safe_call trivial fun _ => ?_
  refine safe_unchecked (hcurl (by simp) (by simp)) rfl (by simp) ?_
  refine safe_checked (hcurl (by simp) (by simp)) Holding.done_nothing ?_
  refine Prog.Safe.bind ?_
  refine Prog.safe_call ⟨rfl, rfl⟩ fun l₁ => Prog.safe_call ⟨rfl, rfl⟩ fun l₂ => ?_
  refine Prog.safe_call ⟨rfl, rfl⟩ fun l₃ => Prog.safe_call ⟨rfl, rfl⟩ fun l₄ => ?_
  refine ⟨⟨rfl, rfl⟩, fun (headers : Option SlistId) => ?_⟩
  show Holds _ ⟨headers, false, none, 0⟩
  refine safe_checked ⟨fun e he => .inl (Option.some.inj he).symm, .inl ⟨rfl, rfl, rfl, rfl⟩⟩
    (holds_freeHeader ..) ?_
  refine safe_checked (hcurl (by simp) (by simp)) (holds_freeHeader ..) ?_
  refine safe_checked (hcurl (by simp) (by simp)) (holds_freeHeader ..) ?_
  refine safe_checked (hcurl (by simp) (by simp)) (holds_freeHeader ..) ?_
  refine Prog.safe_call (fun e he => .inl ⟨(Option.some.inj he).symm, rfl⟩)
    fun (r : CurlCode) => ?_
  show Holds (if r ≠ .ok then catchRequest headers else _) ⟨headers, false, none, 0⟩
  split
  · exact holds_freeHeader ..
  · exact holds_freeHeader ..

/-- A request that only waits for `mPollingMutex` besides. -/
theorem holds_postPollingData (uri : Str) (data : RestData) :
    Holds (postPollingData uri data) .nothing := by
  refine Prog.safe_call trivial fun _ => Prog.Safe.bind ?_
  refine (holds_sendBody ..).mono fun status g hg => ?_
  exact Prog.safe_call trivial fun _ => hg

/-- The handle of `GetData` is not cleaned up, or once. -/
def AtMostOnce (ptr : Option EasyId) (g : Holding) : Prop := ∃ n ≤ 1, g = ⟨none, false, ptr, n⟩

theorem holds_tryGet (ptr : Option EasyId) (url : Str) :
    (tryGet ptr url).Safe holdingProtocol (fun _ => AtMostOnce ptr) ⟨none, false, ptr, 0⟩ := by
  have hset : ∀ {opt : CurlOpt} {a : Arg}, opt ≠ .httpHeader → (∀ l, a ≠ .slist l) →
      holdingProtocol.may ⟨none, false, ptr, 0⟩ (.setopt ptr opt a) := fun ho ha =>
    ⟨fun e he => .inr ⟨he, rfl⟩, .inr ⟨ho, ha⟩⟩
  have hcatch : (catchGet ptr).Safe holdingProtocol (fun _ => AtMostOnce ptr)
      ⟨none, false, ptr, 0⟩ := by
    cases ptr with
    | none => exact ⟨0, Nat.zero_le _, rfl⟩
    | some h => exact Prog.safe_call ⟨rfl, Nat.zero_le _⟩ fun _ => ⟨1, Nat.le_refl _, rfl⟩
  unfold tryGet
  refine safe_unchecked (hset (by simp) (by simp)) rfl (by simp) ?_
  refine safe_unchecked (hset (by simp) (by simp)) rfl (by simp) ?_
  refine safe_unchecked (hset (by simp) (by simp)) rfl (by simp) ?_
  refine safe_checked (hset (by simp) (by simp)) hcatch ?_
  refine safe_checked (hset (by simp) (by simp)) hcatch ?_
  refine safe_checked (hset (by simp) (by simp)) hcatch ?_
  refine safe_checked (hset (by simp) (by simp)) hcatch ?_
  refine Prog.safe_call (fun e he => .inr ⟨he, rfl⟩) fun (r : CurlCode) => ?_
  show Prog.Safe _ (if r ≠ .ok then catchGet ptr else pure .success) _ _
  split
  · exact hcatch
  · exact ⟨0, Nat.zero_le _, rfl⟩

theorem holds_getData (uri : Str) : Holds (getData uri) .nothing := by
  refine Prog.safe_call trivial fun _ => Prog.safe_call rfl fun (ptr : Option EasyId) => ?_
  refine Prog.Safe.bind ((holds_tryGet ptr uri).mono ?_)
  rintro status _ ⟨n, hn, rfl⟩
  refine Prog.safe_call trivial fun (data : Str) => ?_
  cases ptr with
  | none => exact ⟨rfl, rfl, nofun⟩
  | some h => exact Prog.safe_call ⟨rfl, hn⟩ fun _ => ⟨rfl, rfl, fun _ _ => Nat.le_add_left ..⟩

theorem holds_withoutData {p : Request HttpStatus} {g : Holding} (hp : Holds p g) :
    Holds (withoutData p) g :=
  Prog.Safe.bind (hp.mono fun _ _ h => h)

/-- Every call keeps to the protocol. -/
theorem holds_body (g : Job) : Holds g.body .nothing := by
  have hcurl : ∀ {opt : CurlOpt} {a : Arg}, opt ≠ .httpHeader → (∀ l, a ≠ .slist l) →
      holdingProtocol.may .nothing (.setopt (some mCurl) opt a) := fun ho ha =>
    ⟨fun e he => .inl (Option.some.inj he).symm, .inr ⟨ho, ha⟩⟩
  have htls : Holds updateTLSInfo .nothing := by
    have hapart : ∀ opt ∈ tlsOptions, opt ≠ .httpHeader := by decide
    refine (Prog.Safe.all (updateTLSInfo_all (P := fun o => holdingProtocol.may .nothing o ∧
      ∀ r, holdingProtocol.next .nothing o r = .nothing) ⟨trivial, fun _ => rfl⟩ ?_)
      fun o h => h).mono ?_
    · exact fun opt a hopt ha => ⟨hcurl (hapart opt hopt) ha, fun _ =>
        Holding.setopt_unset rfl (hapart opt hopt)⟩
    · rintro status _ rfl
      exact Holding.done_nothing
  cases g with
  | startOptions =>
    refine safe_unchecked (hcurl (by simp) (by simp)) rfl (by simp) ?_
    exact safe_unchecked (hcurl (by simp) (by simp)) rfl (by simp) Holding.done_nothing
  | call g =>
    cases g with
    | post | put => exact holds_withoutData (holds_sendBody ..)
    | postPollingData uri data => exact holds_withoutData (holds_postPollingData uri data)
    | getDeviceData uri => exact Prog.Safe.bind ((holds_getData uri).mono fun _ _ h => h)
    | setCertificateAttributes cert =>
      exact holds_withoutData (Prog.safe_call trivial fun _ => htls)
    | updateTLSInfo => exact holds_withoutData htls

/-! ## Owners -/

/-- What the call `i` holds exists. -/
structure HeldBy {ι : Type} (i : ι) (g : Holding) (w : World ι) : Prop where
  list : ∀ l, g.list = some l → l < w.slistCount ∧ (w.slist l).frees = 0
  set : g.set = true → ∀ a, w.opts mCurl .httpHeader = some (a, i) → a = .slist g.list
  handle : ∀ h, g.handle = some h → h ≠ mCurl ∧ h < w.easyCount ∧
    (w.easy h).cleanups = g.cleanups ∧ w.opts h .httpHeader = none

/-- What the calls hold exists, and no two calls hold the same. -/
structure Held {ι : Type} (gs : ι → Holding) (w : World ι) : Prop where
  live : mCurl < w.easyCount
  each : ∀ i, HeldBy i (gs i) w
  lists : Apart Holding.list gs
  handles : Apart Holding.handle gs

section

variable {ι : Type} [DecidableEq ι] {i : ι} {g : Holding} {gs : ι → Holding} {w w' : World ι}

/-- A step of the call `i`. -/
theorem Held.update (h : Held gs w) (hlive : w.easyCount ≤ w'.easyCount) (hi : HeldBy i g w')
    (hothers : ∀ j, j ≠ i → HeldBy j (gs j) w → HeldBy j (gs j) w')
    (hlist : ∀ l, g.list = some l → (gs i).list = some l ∨ w.slistCount ≤ l)
    (hhandle : ∀ e, g.handle = some e → (gs i).handle = some e ∨ w.easyCount ≤ e) :
    Held (Function.update gs i g) w' := by
  refine ⟨Nat.lt_of_lt_of_le h.live hlive, fun j => ?_, h.lists.update fun l e => ?_,
    h.handles.update fun e he => ?_⟩
  · by_cases hj : j = i
    · subst hj
      rw [Function.update_self]
      exact hi
    · rw [Function.update_of_ne hj]
      exact hothers j hj (h.each j)
  · exact (hlist l e).imp_right fun hnew j e' => Nat.not_lt.mpr hnew ((h.each j).list l e').1
  · exact (hhandle e he).imp_right fun hnew j e' =>
      Nat.not_lt.mpr hnew ((h.each j).handle e e').2.1

omit [DecidableEq ι] in
theorem HeldBy.mono (h : HeldBy i g w) (hl : w.slistCount ≤ w'.slistCount)
    (he : w.easyCount ≤ w'.easyCount)
    (hfrees : ∀ l, g.list = some l → (w'.slist l).frees = (w.slist l).frees)
    (hset : g.set = true → ∀ a, w'.opts mCurl .httpHeader = some (a, i) →
      w.opts mCurl .httpHeader = some (a, i))
    (hhandle : ∀ e, g.handle = some e → (w'.easy e).cleanups = (w.easy e).cleanups ∧
      w'.opts e .httpHeader = w.opts e .httpHeader) : HeldBy i g w' := by
  refine ⟨fun l e => ?_, fun hs a ha => h.set hs a (hset hs a ha), fun e hg => ?_⟩
  · obtain ⟨hlt, hf⟩ := h.list l e
    exact ⟨Nat.lt_of_lt_of_le hlt hl, (hfrees l e).trans hf⟩
  · obtain ⟨hne, hlt, hc, ho⟩ := h.handle e hg
    obtain ⟨hc', ho'⟩ := hhandle e hg
    exact ⟨hne, Nat.lt_of_lt_of_le hlt he, hc'.trans hc, ho'.trans ho⟩

/-- A step that is no use of a new handle or list, and releases none. The call may hold less. -/
theorem Held.still (h : Held gs w) (heasy : w'.easy = w.easy) (hcount : w'.easyCount = w.easyCount)
    (hslists : w'.slistCount = w.slistCount) (hfrees : ∀ l, (w'.slist l).frees = (w.slist l).frees)
    (hlist : ∀ l, g.list = some l → (gs i).list = some l)
    (hset : g.set = true → (gs i).set = true ∧ g.list = (gs i).list)
    (hhandle : ∀ e, g.handle = some e → (gs i).handle = some e ∧ g.cleanups = (gs i).cleanups) :
    Held (Function.update gs i g) w' := by
  have hopts : ∀ e, w'.opts e = w.opts e := fun e => by rw [World.opts, heasy, World.opts]
  have hkeep : ∀ j g, HeldBy j g w → HeldBy j g w' := fun j g hg =>
    hg.mono hslists.ge hcount.ge (fun l _ => hfrees l) (fun _ a ha => by rw [← hopts]; exact ha)
      fun e _ => ⟨by rw [heasy], by rw [hopts]⟩
  refine h.update hcount.ge (hkeep i g ⟨fun l e => (h.each i).list l (hlist l e), fun hs a ha => ?_,
    fun e hg => ?_⟩) (fun j _ => hkeep j _) (fun l e => .inl (hlist l e))
    fun e hg => .inl (hhandle e hg).1
  · rw [(hset hs).2]
    exact (h.each i).set (hset hs).1 a ha
  · rw [(hhandle e hg).2]
    exact (h.each i).handle e (hhandle e hg).1

theorem Held.newSlist (h : Held gs w) (hset : (gs i).set = false) (s : Str) :
    Held (Function.update gs i { gs i with list := some w.slistCount }) (w.newSlist s) := by
  refine h.update (Nat.le_refl _) ⟨fun l e => ?_, fun hs => ?_, (h.each i).handle⟩
    (fun j _ hj => hj.mono (Nat.le_succ _) (Nat.le_refl _) (fun l e => ?_) (fun _ _ ha => ha)
      fun _ _ => ⟨rfl, rfl⟩) (fun l e => ?_) fun e he => .inl he
  · obtain rfl := Option.some.inj e
    exact ⟨Nat.lt_succ_self _, by simp [World.newSlist]⟩
  · rw [hset] at hs
    cases hs
  · have hne : l ≠ w.slistCount := Nat.ne_of_lt (hj.list l e).1
    simp [World.newSlist, Function.update_of_ne hne]
  · obtain rfl := Option.some.inj e
    exact .inr (Nat.le_refl _)

theorem Held.freeAll (h : Held gs w) {l : SlistId} (hl : (gs i).list = some l) :
    Held (Function.update gs i { gs i with list := none, set := false }) (w.freeAll l) := by
  refine h.update (Nat.le_refl _) ⟨nofun, nofun, (h.each i).handle⟩
    (fun j hj hg => hg.mono (Nat.le_refl _) (Nat.le_refl _) (fun l' e => ?_) (fun _ _ ha => ha)
      fun _ _ => ⟨rfl, rfl⟩) nofun fun e he => .inl he
  have hne : l' ≠ l := by
    rintro rfl
    exact hj (h.lists j i l' e hl)
  simp [World.freeAll, Function.update_of_ne hne]

omit [DecidableEq ι] in
/-- An option that is no header list. -/
theorem Held.record (h : Held gs w) {e : EasyId} {opt : CurlOpt} (a : Arg)
    (ho : opt ≠ .httpHeader) : Held gs (w.record i e opt a) := by
  have hopts : ∀ e', (w.record i e opt a).opts e' .httpHeader = w.opts e' .httpHeader := by
    intro e'
    by_cases he : e' = e
    · rw [he, World.record_opts, Function.update_of_ne ho.symm]
    · rw [World.record_opts_ne i opt a he]
  have hcleanups : ∀ e', ((w.record i e opt a).easy e').cleanups = (w.easy e').cleanups := by
    intro e'
    by_cases he : e' = e
    · subst he
      simp [World.record]
    · simp [World.record, Function.update_of_ne he]
  refine ⟨h.live, fun j => (h.each j).mono (Nat.le_refl _) (Nat.le_refl _) (fun _ _ => rfl)
    (fun _ b hb => ?_) fun e' _ => ⟨hcleanups e', hopts e'⟩, h.lists, h.handles⟩
  rw [← hopts]
  exact hb

/-- The list of the call is set in `mCurl`. -/
theorem Held.setHeader (h : Held gs w) :
    Held (Function.update gs i { gs i with set := true })
      (w.record i mCurl .httpHeader (.slist (gs i).list)) := by
  have hrec := World.record_opts w i mCurl .httpHeader (.slist (gs i).list)
  have hne : ∀ j e, (gs j).handle = some e →
      ((w.record i mCurl .httpHeader (.slist (gs i).list)).easy e).cleanups = (w.easy e).cleanups ∧
        (w.record i mCurl .httpHeader (.slist (gs i).list)).opts e .httpHeader =
          w.opts e .httpHeader := by
    intro j e he
    have hmCurl : e ≠ mCurl := ((h.each j).handle e he).1
    exact ⟨by simp [World.record, Function.update_of_ne hmCurl],
      by rw [World.record_opts_ne i _ _ hmCurl]⟩
  refine h.update (Nat.le_refl _) ⟨(h.each i).list, fun _ a ha => ?_, fun e he => ?_⟩
    (fun j hj hg => hg.mono (Nat.le_refl _) (Nat.le_refl _) (fun _ _ => rfl) (fun _ a ha => ?_)
      (hne j)) (fun l e => .inl e) fun e he => .inl he
  · rw [hrec, Function.update_self] at ha
    cases ha
    rfl
  · obtain ⟨hm, hlt, hc, ho⟩ := (h.each i).handle e he
    obtain ⟨hc', ho'⟩ := hne i e he
    exact ⟨hm, hlt, hc'.trans hc, ho'.trans ho⟩
  · rw [hrec, Function.update_self] at ha
    cases ha
    exact absurd rfl hj

theorem Held.newEasy (h : Held gs w) :
    Held (Function.update gs i { gs i with handle := some w.easyCount, cleanups := 0 })
      w.newEasy := by
  have hold : ∀ e, e < w.easyCount → (w.newEasy.easy e).cleanups = (w.easy e).cleanups ∧
      w.newEasy.opts e = w.opts e := fun e he =>
    ⟨by simp [World.newEasy, Function.update_of_ne (Nat.ne_of_lt he)],
      World.newEasy_opts (Nat.ne_of_lt he)⟩
  have hmCurl := (hold mCurl h.live).2
  refine h.update (Nat.le_succ _) ⟨(h.each i).list, fun hs a ha => ?_, fun e he => ?_⟩
    (fun j _ hj => hj.mono (Nat.le_refl _) (Nat.le_succ _) (fun _ _ => rfl) (fun _ a ha => ?_)
      fun e he => ?_) (fun l e => .inl e) fun e he => ?_
  · rw [hmCurl] at ha
    exact (h.each i).set hs a ha
  · obtain rfl := Option.some.inj he
    exact ⟨Nat.ne_of_gt h.live, Nat.lt_succ_self _, by simp [World.newEasy, Easy.new],
      by simp [World.newEasy, World.opts, Easy.new]⟩
  · rw [hmCurl] at ha
    exact ha
  · obtain ⟨hc, ho⟩ := hold e (hj.handle e he).2.1
    exact ⟨hc, by rw [ho]⟩
  · obtain rfl := Option.some.inj he
    exact .inr (Nat.le_refl _)

theorem Held.cleanup (h : Held gs w) {e : EasyId} (he : (gs i).handle = some e) :
    Held (Function.update gs i { gs i with cleanups := (gs i).cleanups + 1 }) (w.cleanup e) := by
  refine h.update (Nat.le_refl _) ⟨(h.each i).list, fun hs a ha => ?_, fun e' he' => ?_⟩
    (fun j hj hg => hg.mono (Nat.le_refl _) (Nat.le_refl _) (fun _ _ => rfl) (fun _ a ha => ?_)
      fun e' he' => ?_) (fun l e => .inl e) fun e he => .inl he
  · rw [World.cleanup_opts] at ha
    exact (h.each i).set hs a ha
  · obtain rfl : e = e' := Option.some.inj (he.symm.trans he')
    obtain ⟨hm, hlt, hc, ho⟩ := (h.each i).handle e he
    refine ⟨hm, hlt, ?_, by rw [World.cleanup_opts]; exact ho⟩
    simp [World.cleanup, hc]
  · rw [World.cleanup_opts] at ha
    exact ha
  · have hne : e' ≠ e := by
      rintro rfl
      exact hj (h.handles j i e' he' he)
    exact ⟨by simp [World.cleanup, Function.update_of_ne hne], by rw [World.cleanup_opts]⟩

omit [DecidableEq ι] in
theorem Held.misuse (h : Held gs w) (m : Nat) : Held gs { w with misuse := m } :=
  ⟨h.live, fun i => ⟨(h.each i).list, (h.each i).set, (h.each i).handle⟩, h.lists, h.handles⟩

/-- A step of a call that keeps to the protocol. -/
theorem Held.step {o : Op} {c : Choice} {r : Option o.Res} (h : Held gs w)
    (hmay : holdingProtocol.may (gs i) o) (hs : handle i o w c = some (r, w')) :
    Held (Function.update gs i (holdingProtocol.after (gs i) o r)) w' := by
  have hquiet : ∀ {g : Holding} {v : World ι}, g = gs i → v.easy = w.easy →
      v.easyCount = w.easyCount → v.slistCount = w.slistCount →
      (∀ l, (v.slist l).frees = (w.slist l).frees) → Held (Function.update gs i g) v := by
    rintro g v rfl he hc hl hf
    exact h.still he hc hl hf (fun l e => e) (fun hs => ⟨hs, rfl⟩) fun e he => ⟨he, rfl⟩
  -- a call that fails, or has performed, holds its list and its handle, but they are not set
  have hunset : ∀ {v : World ι}, v.easy = w.easy → v.easyCount = w.easyCount →
      v.slistCount = w.slistCount → (∀ l, (v.slist l).frees = (w.slist l).frees) →
      Held (Function.update gs i { gs i with set := false }) v := fun he hc hl hf =>
    h.still he hc hl hf (fun l e => e) (fun hs => by cases hs) fun e he => ⟨he, rfl⟩
  cases World.handle_outcome hs with
  | easyInit => exact h.newEasy
  | noEasy =>
    exact h.still rfl rfl rfl (fun _ => rfl) (fun l e => e) (fun hs => ⟨hs, rfl⟩) fun e he => by
      cases he
  | @setopt e opt a m =>
    show Held (Function.update gs i ((gs i).setopt opt .ok)) _
    rcases hmay.2 with ⟨rfl, he, rfl, -⟩ | ⟨ho, -⟩
    · obtain rfl := Option.some.inj he
      rw [Holding.setopt_header]
      exact (h.misuse m).setHeader
    · rw [Holding.setopt_ok ho, Function.update_eq_self]
      exact (h.misuse m).record a ho
  | @setoptFails e opt a n m =>
    show Held (Function.update gs i ((gs i).setopt opt (.error n))) _
    rw [Holding.setopt_error]
    exact hunset rfl rfl rfl fun _ => rfl
  | perform | performFails => exact hunset rfl rfl rfl fun _ => rfl
  | cleanup m => exact (h.misuse m).cleanup hmay.1
  | newSlist => exact h.newSlist hmay.2 _
  | @append l s m =>
    refine hquiet ?_ rfl rfl rfl fun l' => ?_
    · show { gs i with list := some l } = gs i
      rw [hmay.1]
    · by_cases hl' : l' = l
      · subst hl'
        simp [World.append]
      · simp [World.append, Function.update_of_ne hl']
  | appendFails =>
    -- the list is lost
    exact h.still rfl rfl rfl (fun _ => rfl) (fun l e => by cases e)
      (fun hs => absurd (hmay.2.symm.trans hs) (by simp)) fun e he => ⟨he, rfl⟩
  | freeAll m => exact (h.misuse m).freeAll hmay
  | _ => exact hquiet rfl rfl rfl rfl fun _ => rfl

end

end LibRest
