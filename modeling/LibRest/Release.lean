import LibRest.History
import LibRest.Lib.Ledger
import LibRest.Lib.Log

/-!
# What a request makes, it releases

Handles and header lists are tokens of two ledgers. A request has to release what it makes, once,
and must not use what is released; each outcome of the libcurl calls is followed to the end.

- **Requests with a body** (`Holds`). `addSecurityHeaders` overwrites the head of its list with the
  result of each append. After a failed append to a list the request does not know the list any
  more, and nobody frees it.
- **GET** (`Opened`). The `catch` blocks of `GetData` clean the handle up, and the code after them
  does so again, because `cleanCurl` sets only its own copy of the pointer to null.
- **Histories** (`released_iff`). These two are all: a history releases what it makes exactly when
  all outcomes of its calls are `Benign`.
-/

namespace LibRest

open Lib

namespace World

variable {ι : Type} {w : World ι}

/-- The easy handles as tokens. -/
def handles (w : World ι) : Ledger := ⟨w.easyCount, fun h => (w.easy h).cleanups⟩

/-- The header lists as tokens. -/
def lists (w : World ι) : Ledger := ⟨w.slistCount, fun l => (w.slist l).frees⟩

@[simp] theorem record_handles (i : ι) (h : EasyId) (o : CurlOpt) (a : Arg) :
    (w.record i h o a).handles = w.handles := by
  refine Ledger.ext rfl (funext fun h' => ?_)
  by_cases e : h' = h
  · subst e; simp [handles, record]
  · simp [handles, record, Function.update_of_ne e]

@[simp] theorem newEasy_handles : w.newEasy.handles = w.handles.make := by
  refine Ledger.ext rfl (funext fun h => ?_)
  by_cases e : h = w.easyCount
  · subst e; simp [handles, newEasy, Ledger.make, Easy.new]
  · simp [handles, newEasy, Ledger.make, Function.update_of_ne e]

@[simp] theorem cleanup_handles (h : EasyId) : (w.cleanup h).handles = w.handles.release h := by
  refine Ledger.ext rfl (funext fun h' => ?_)
  by_cases e : h' = h
  · subst e; simp [handles, cleanup, Ledger.release]
  · simp [handles, cleanup, Ledger.release, Function.update_of_ne e]

@[simp] theorem newSlist_lists (s : Str) : (w.newSlist s).lists = w.lists.make := by
  refine Ledger.ext rfl (funext fun l => ?_)
  by_cases e : l = w.slistCount
  · subst e; simp [lists, newSlist, Ledger.make]
  · simp [lists, newSlist, Ledger.make, Function.update_of_ne e]

@[simp] theorem append_lists (l : SlistId) (s : Str) : (w.append l s).lists = w.lists := by
  refine Ledger.ext rfl (funext fun l' => ?_)
  by_cases e : l' = l
  · subst e; simp [lists, append]
  · simp [lists, append, Function.update_of_ne e]

@[simp] theorem freeAll_lists (l : SlistId) : (w.freeAll l).lists = w.lists.release l := by
  refine Ledger.ext rfl (funext fun l' => ?_)
  by_cases e : l' = l
  · subst e; simp [lists, freeAll, Ledger.release]
  · simp [lists, freeAll, Ledger.release, Function.update_of_ne e]

/-- A use of what is not released. -/
theorem useEasy_live {h : EasyId} (hh : w.handles.releases h = 0) : w.useEasy h = w := if_pos hh

theorem useSlist_live {l : SlistId} (hl : w.lists.releases l = 0) : w.useSlist l = w := if_pos hl

end World

namespace CurlHttpWrapper

/-- The options whose setting `GetData` checks. -/
def getChecked : List CurlOpt := [.sslVerifyPeer, .url, .useSsl, .httpGet]

/-- The outcome of a call neither makes a request lose its header list, nor leads a GET with a
handle into its `catch` blocks. -/
def Benign : Op × Choice → Prop
  | (.slistAppend (some _) _, .fail _) => False
  | (.setopt (some h) o _, .fail _) => h = mCurl ∨ o ∉ getChecked
  | (.perform (some h), .transfer _ code) => h = mCurl ∨ code = .ok
  | _ => True

/-- Since `w`, every handle and every header list that was made was released once, and nothing
released was used. -/
def Released {ι : Type} (w w' : World ι) : Prop :=
  Ledger.Settled w.handles w'.handles ∧ Ledger.Settled w.lists w'.lists ∧ w'.misuse = w.misuse

/-- `mCurl` was made and is not released. -/
structure Live {ι : Type} (w : World ι) : Prop where
  made : mCurl < w.handles.made
  live : w.handles.releases mCurl = 0

/-- A world, and the log of the steps since a call started. -/
abbrev Logged (ι : Type) := World ι × Prog.Log Op Choice

/-- The call that started in `w₀` has released what it made, if and only if the outcomes were
benign. -/
structure Done {ι : Type} (w₀ : World ι) (s : Logged ι) : Prop where
  live : Live s.1
  exact : Released w₀ s.1 ↔ ∀ x ∈ s.2, Benign x

variable {ι : Type} {w w' w₀ : World ι} {s s' : Logged ι} {headers : Option SlistId}
  {x : Op × Choice}

theorem Live.keep (hw : Live w) (hh : w'.handles = w.handles) : Live w' :=
  ⟨by rw [hh]; exact hw.made, by rw [hh]; exact hw.live⟩

theorem Live.make (hw : Live w) (hh : w'.handles = w.handles.make) : Live w' := by
  have hne : mCurl ≠ w.handles.made := Nat.ne_of_lt hw.made
  constructor <;> rw [hh]
  · exact Nat.lt_succ_of_lt hw.made
  · exact (Ledger.make_releases_ne hne).trans hw.live

theorem Live.release {h : EasyId} (hw : Live w) (hne : mCurl ≠ h)
    (hh : w'.handles = w.handles.release h) : Live w' := by
  constructor <;> rw [hh]
  · exact hw.made
  · exact (Ledger.release_releases_ne hne).trans hw.live

theorem benign_snoc (hx : Benign x) : (∀ y ∈ s.2 ++ [x], Benign y) ↔ ∀ y ∈ s.2, Benign y := by
  simp [or_imp, forall_and, hx]

theorem Done.step (hs : Done w₀ s) (hx : Benign x) (hh : w.handles = s.1.handles)
    (hl : w.lists = s.1.lists) (hm : w.misuse = s.1.misuse) : Done w₀ (w, s.2 ++ [x]) := by
  refine ⟨hs.live.keep hh, ?_⟩
  rw [benign_snoc hx, ← hs.exact]
  unfold Released
  rw [hh, hl, hm]

/-! ## Requests with a body -/

/-- The request that started in `w₀` knows the header list `headers`, and has released nothing. It
knows every list it made as long as the outcomes were benign. -/
structure Holds (w₀ : World ι) (headers : Option SlistId) (s : Logged ι) : Prop where
  handles : s.1.handles = w₀.handles
  lists : Ledger.Holding w₀.lists headers s.1.lists
  misuse : s.1.misuse = w₀.misuse
  exact : Ledger.Complete w₀.lists headers s.1.lists ↔ ∀ x ∈ s.2, Benign x

theorem holds_start (w₀ : World ι) : Holds w₀ none (w₀, []) :=
  ⟨rfl, Ledger.holding_refl _, rfl, iff_of_true (Ledger.complete_refl _) (List.forall_mem_nil _)⟩

/-- A step with a benign outcome that keeps the ledgers. -/
theorem Holds.step (hs : Holds w₀ headers s) (hx : Benign x) (hh : w.handles = s.1.handles)
    (hl : w.lists = s.1.lists) (hm : w.misuse = s.1.misuse) :
    Holds w₀ headers (w, s.2 ++ [x]) := by
  refine ⟨hh.trans hs.handles, hl ▸ hs.lists, hm.trans hs.misuse, ?_⟩
  rw [benign_snoc hx, ← hs.exact, hl]

/-- The header list of the request is not released. -/
theorem Holds.list_live (hs : Holds w₀ headers s) {l : SlistId} (hl : headers = some l) :
    s.1.useSlist l = s.1 :=
  World.useSlist_live (hs.lists.unreleased l (hs.lists.own l hl))

theorem Holds.curl_live (hs : Holds w₀ headers s) (hw : Live w₀) :
    s.1.useEasy mCurl = s.1 :=
  World.useEasy_live (by rw [hs.handles]; exact hw.live)

theorem Holds.alive (hs : Holds w₀ headers s) (hw : Live w₀) : Live s.1 := hw.keep hs.handles

/-- A request that knows no list has nothing left to do. -/
theorem Holds.done (hs : Holds w₀ none s) (hw : Live w₀) : Done w₀ s := by
  refine ⟨hs.alive hw, ?_⟩
  rw [← hs.exact, ← Ledger.settled_none hs.lists]
  exact ⟨fun h => h.2.1, fun h => ⟨hs.handles ▸ Ledger.settled_refl _, h, hs.misuse⟩⟩

variable [DecidableEq ι] {i : ι} {α : Type} {Q : α → Logged ι → Prop}

/-- A `curl_easy_setopt` on `mCurl`. -/
theorem wp_set (hw : Live w₀) (hs : Holds w₀ headers s) {o : CurlOpt} {a : Arg}
    {k : CurlCode → Request α} (ha : ∀ l, a = .slist (some l) → headers = some l)
    (hfail : ∀ n s', Holds w₀ headers s' →
      Prog.wp (Prog.logged (handle i)) (k (.error n)) Q s')
    (hok : ∀ s', Holds w₀ headers s' →
      s'.1.opts mCurl = Function.update (s.1.opts mCurl) o (some (a, i)) →
      Prog.wp (Prog.logged (handle i)) (k .ok) Q s') :
    Prog.wp (Prog.logged (handle i)) (setopt (some mCurl) o a >>= k) Q s := by
  have huse : (s.1.useEasy mCurl).useArg a = s.1 := by
    rw [hs.curl_live hw]
    unfold World.useArg
    split
    · exact hs.list_live (ha _ rfl)
    · rfl
  refine Prog.wp_logged fun c r w' e => ?_
  cases c <;> cases e <;> rw [huse]
  · exact hok _ (hs.step trivial (World.record_handles ..) rfl rfl) (World.record_opts ..)
  · exact hfail _ _ (hs.step (.inl rfl) rfl rfl rfl)

/-- A `curl_easy_setopt` on `mCurl` whose result is checked. -/
theorem wp_set_checked (hw : Live w₀) (hs : Holds w₀ headers s) {o : CurlOpt} {a : Arg}
    {c k : Request α} (ha : ∀ l, a = .slist (some l) → headers = some l)
    (hc : ∀ s', Holds w₀ headers s' → Prog.wp (Prog.logged (handle i)) c Q s')
    (hk : ∀ s', Holds w₀ headers s' →
      s'.1.opts mCurl = Function.update (s.1.opts mCurl) o (some (a, i)) →
      Prog.wp (Prog.logged (handle i)) k Q s') :
    Prog.wp (Prog.logged (handle i))
      (setopt (some mCurl) o a >>= fun res => if res ≠ .ok then c else k) Q s :=
  wp_set hw hs ha (fun _ => hc) hk

/-- A `curl_easy_setopt` on `mCurl` whose result is not checked. -/
theorem wp_set_unchecked (hw : Live w₀) (hs : Holds w₀ headers s) {o : CurlOpt} {a : Arg}
    {k : CurlCode → Request α} (ha : ∀ l, a = .slist (some l) → headers = some l)
    (hk : ∀ r s', Holds w₀ headers s' → Prog.wp (Prog.logged (handle i)) (k r) Q s') :
    Prog.wp (Prog.logged (handle i)) (setopt (some mCurl) o a >>= k) Q s :=
  wp_set hw hs ha (fun n => hk (.error n)) fun s' h _ => hk .ok s' h

/-- The request releases the list that it knows. -/
theorem wp_free (hw : Live w₀) (hs : Holds w₀ headers s) {k : Request α}
    (hk : ∀ s', Done w₀ s' → Prog.wp (Prog.logged (handle i)) k Q s') :
    Prog.wp (Prog.logged (handle i)) (freeHeader headers >>= fun _ => k) Q s := by
  cases headers with
  | none => exact hk s (hs.done hw)
  | some l =>
    show Prog.wp _ (Prog.call (Op.slistFreeAll l) >>= fun _ => k) Q s
    refine Prog.wp_logged fun c r w' e => ?_
    cases c <;> cases e
    rw [hs.list_live rfl]
    refine hk _ ⟨(hs.alive hw).keep rfl, ?_⟩
    rw [benign_snoc (show Benign (.slistFreeAll l, .ok) from trivial), ← hs.exact,
      ← Ledger.settled_release hs.lists, ← World.freeAll_lists]
    exact ⟨fun h => h.2.1, fun h => ⟨hs.handles ▸ Ledger.settled_refl _, h, hs.misuse⟩⟩

/-- A `curl_slist_append` to the list of the request. -/
theorem wp_append (hs : Holds w₀ headers s) {line : Str} {k : Option SlistId → Request α}
    (hk : ∀ r s', Holds w₀ r s' → Prog.wp (Prog.logged (handle i)) (k r) Q s') :
    Prog.wp (Prog.logged (handle i)) (slistAppend headers line >>= k) Q s := by
  refine Prog.wp_logged fun c r w' e => ?_
  cases headers with
  | none =>
    cases c <;> cases e
    · refine hk _ _ ⟨hs.handles, ?_, hs.misuse, ?_⟩
      · rw [World.newSlist_lists]
        exact hs.lists.make
      · rw [World.newSlist_lists, benign_snoc (show Benign (.slistAppend none line, .ok) from
          trivial), ← hs.exact]
        exact Ledger.complete_make
    · exact hk _ _ (hs.step trivial rfl rfl rfl)
  | some l =>
    cases c <;> cases e <;> rw [hs.list_live rfl]
    · exact hk _ _ (hs.step trivial rfl (World.append_lists ..) rfl)
    · -- the list is lost
      refine hk _ _ ⟨hs.handles, hs.lists.lose, hs.misuse, ?_⟩
      refine iff_of_false hs.lists.incomplete fun h => ?_
      exact h _ (List.mem_append_right _ (List.mem_singleton_self _))

theorem wp_addSecurityHeaders_holds (hs : Holds w₀ none s) (dataType : Int)
    {k : Option SlistId → Request α}
    (hk : ∀ r s', Holds w₀ r s' → Prog.wp (Prog.logged (handle i)) (k r) Q s') :
    Prog.wp (Prog.logged (handle i)) (addSecurityHeaders dataType >>= k) Q s := by
  refine wp_append hs fun r₁ s₁ h₁ => ?_
  refine wp_append h₁ fun r₂ s₂ h₂ => ?_
  refine wp_append h₂ fun r₃ s₃ h₃ => ?_
  refine wp_append h₃ fun r₄ s₄ h₄ => ?_
  exact wp_append h₄ fun r₅ s₅ h₅ => hk r₅ s₅ h₅

/-- A transfer on `mCurl`, whose recorded header list is that of the request. -/
theorem wp_perform_holds (hw : Live w₀) (hs : Holds w₀ headers s)
    (hh : ∃ j, s.1.opts mCurl .httpHeader = some (.slist headers, j)) {k : CurlCode → Request α}
    (hk : ∀ code s', Holds w₀ headers s' → Prog.wp (Prog.logged (handle i)) (k code) Q s') :
    Prog.wp (Prog.logged (handle i)) (perform (some mCurl) >>= k) Q s := by
  obtain ⟨j, hj⟩ := hh
  have huse : (s.1.useEasy mCurl).useHeader mCurl = s.1 := by
    rw [hs.curl_live hw]
    unfold World.useHeader
    rw [hj]
    cases headers with
    | none => rfl
    | some l => exact hs.list_live rfl
  refine Prog.wp_logged fun c r w' e => ?_
  cases c <;> cases e
  rename_i chunks
  rw [huse]
  obtain ⟨bs, d, e⟩ := World.perform_eq s.1 i mCurl chunks r
  rw [e]
  exact hk _ _ (hs.step (.inl rfl) rfl rfl rfl)

/-- **Requests with a body.** -/
theorem wp_sendBody_done (hw : Live w₀) (hs : Holds w₀ none s) {method url content : Str}
    {type : RestContentType} :
    Prog.wp (Prog.logged (handle i)) (sendBody method url content type)
      (fun _ s' => Done w₀ s') s := by
  have hstop : ∀ {headers s'}, Holds w₀ headers s' →
      Prog.wp (Prog.logged (handle i)) (catchRequest headers) (fun _ s' => Done w₀ s') s' :=
    fun h => wp_free hw h fun _ h' => h'
  unfold sendBody
  refine Prog.wp_logged fun c _ w' e => ?_
  cases c <;> cases e
  have h₀ := hs.step (w := { s.1 with buffer := Function.update s.1.buffer .strHttpStatus [] })
    (x := (.clear .strHttpStatus, .ok)) trivial rfl rfl rfl
  refine wp_set_unchecked hw h₀ nofun fun _ s₁ h₁ => ?_
  refine wp_set_checked hw h₁ nofun (fun _ h => hstop h) fun s₂ h₂ _ => ?_
  refine wp_addSecurityHeaders_holds h₂ _ fun headers s₃ h₃ => ?_
  refine wp_set_checked hw h₃ (fun l hl => by cases hl; rfl) (fun _ h => hstop h)
    fun s₄ h₄ e₄ => ?_
  refine wp_set_checked hw h₄ nofun (fun _ h => hstop h) fun s₅ h₅ e₅ => ?_
  refine wp_set_checked hw h₅ nofun (fun _ h => hstop h) fun s₆ h₆ e₆ => ?_
  refine wp_set_checked hw h₆ nofun (fun _ h => hstop h) fun s₇ h₇ e₇ => ?_
  have hheader : s₇.1.opts mCurl .httpHeader = some (.slist headers, i) := by
    rw [e₇, e₆, e₅, e₄]
    simp
  refine wp_perform_holds hw h₇ ⟨i, hheader⟩ fun code s₈ h₈ => ?_
  split
  · exact hstop h₈
  · exact wp_free hw h₈ fun _ h => h

/-! ## GET -/

/-- The GET that started in `w₀` has made one handle and released nothing. `fine` tells whether the
outcomes were benign. -/
structure Opened (w₀ : World ι) (fine : Prop) (s : Logged ι) : Prop where
  handles : s.1.handles = w₀.handles.make
  lists : s.1.lists = w₀.lists
  misuse : s.1.misuse = w₀.misuse
  header : s.1.opts w₀.easyCount .httpHeader = none
  exact : (∀ x ∈ s.2, Benign x) ↔ fine

/-- The GET has been in a `catch` block, which released the handle. -/
structure Caught (w₀ : World ι) (s : Logged ι) : Prop where
  handles : s.1.handles = w₀.handles.make.release w₀.easyCount
  harmful : ¬ ∀ x ∈ s.2, Benign x

variable {fine : Prop}

omit [DecidableEq ι] in
theorem Opened.step (hs : Opened w₀ True s) (hx : Benign x ↔ fine)
    (hh : w.handles = s.1.handles) (hl : w.lists = s.1.lists) (hm : w.misuse = s.1.misuse)
    (ho : w.opts w₀.easyCount .httpHeader = none) : Opened w₀ fine (w, s.2 ++ [x]) := by
  refine ⟨hh.trans hs.handles, hl.trans hs.lists, hm.trans hs.misuse, ho, ?_⟩
  have hall := hs.exact.mpr trivial
  rw [← hx]
  constructor
  · exact fun h => h x (List.mem_append_right _ (List.mem_singleton_self x))
  · intro hx y hy
    rcases List.mem_append.mp hy with hy | hy
    · exact hall y hy
    · obtain rfl := List.mem_singleton.mp hy
      exact hx

omit [DecidableEq ι] in
theorem Opened.live (hs : Opened w₀ fine s) : s.1.useEasy w₀.easyCount = s.1 :=
  World.useEasy_live (by rw [hs.handles]; exact Ledger.make_releases w₀.handles)

/-- A `curl_easy_setopt` on the handle of the GET. -/
theorem wp_getSet (hw : Live w₀) (hs : Opened w₀ True s) {o : CurlOpt} {a : Arg}
    {k : CurlCode → Request α} (ho : o ≠ .httpHeader) (ha : ∀ l, a ≠ .slist l)
    (hfail : ∀ n s', Opened w₀ (o ∉ getChecked) s' →
      Prog.wp (Prog.logged (handle i)) (k (.error n)) Q s')
    (hok : ∀ s', Opened w₀ True s' → Prog.wp (Prog.logged (handle i)) (k .ok) Q s') :
    Prog.wp (Prog.logged (handle i)) (setopt (some w₀.easyCount) o a >>= k) Q s := by
  have huse : (s.1.useEasy w₀.easyCount).useArg a = s.1 := by
    rw [hs.live]
    cases a with
    | slist l => exact absurd rfl (ha l)
    | _ => rfl
  have hne : w₀.easyCount ≠ mCurl := Nat.ne_of_gt hw.made
  refine Prog.wp_logged fun c r w' e => ?_
  cases c <;> cases e <;> rw [huse]
  · refine hok _ (hs.step (iff_of_true trivial trivial) (World.record_handles ..) rfl rfl ?_)
    rw [World.record_opts, Function.update_of_ne ho.symm]
    exact hs.header
  · exact hfail _ _ (hs.step ⟨fun h => h.resolve_left hne, .inr⟩ rfl rfl rfl hs.header)

/-- The `catch` blocks of `GetData`. -/
theorem wp_catchGet (hs : Opened w₀ False s) :
    Prog.wp (Prog.logged (handle i)) (catchGet (some w₀.easyCount)) (fun _ s' => Caught w₀ s')
      s := by
  show Prog.wp _ (Prog.call (Op.cleanup w₀.easyCount) >>= fun _ =>
    (pure .failure : Request HttpStatus)) _ s
  refine Prog.wp_logged fun c _ w' e => ?_
  cases c <;> cases e
  rw [hs.live]
  refine ⟨by rw [World.cleanup_handles, hs.handles], ?_⟩
  rw [benign_snoc (show Benign (.cleanup w₀.easyCount, .ok) from trivial), hs.exact]
  exact not_false

/-- What the `try` block of `GetData` leaves, with its `catch` blocks. -/
def Tries (w₀ : World ι) (s : Logged ι) : Prop := Opened w₀ True s ∨ Caught w₀ s

omit [DecidableEq ι] in
theorem Tries.step (hs : Tries w₀ s) (hx : Benign x) : Tries w₀ (s.1, s.2 ++ [x]) := by
  rcases hs with hs | hs
  · exact .inl (hs.step (iff_true_intro hx) rfl rfl rfl hs.header)
  · refine .inr ⟨hs.handles, ?_⟩
    rw [benign_snoc hx]
    exact hs.harmful

/-- A `curl_easy_setopt` on the handle of the GET whose result is checked. -/
theorem wp_getSet_checked (hw : Live w₀) (hs : Opened w₀ True s) {o : CurlOpt} {a : Arg}
    {k : Request HttpStatus} (ho : o ∈ getChecked) (ha : ∀ l, a ≠ .slist l)
    (hk : ∀ s', Opened w₀ True s' →
      Prog.wp (Prog.logged (handle i)) k (fun _ s' => Tries w₀ s') s') :
    Prog.wp (Prog.logged (handle i)) (setopt (some w₀.easyCount) o a >>= fun res =>
      if res ≠ .ok then catchGet (some w₀.easyCount) else k) (fun _ s' => Tries w₀ s') s := by
  refine wp_getSet hw hs (fun e => ?_) ha (fun n s' h => ?_) hk
  · rw [e] at ho
    simp [getChecked] at ho
  · have hf : Opened w₀ False s' :=
      ⟨h.handles, h.lists, h.misuse, h.header, h.exact.trans (iff_of_false (fun h => h ho) id)⟩
    exact Prog.wp_mono (wp_catchGet hf) fun _ _ => .inr

theorem wp_getSet_unchecked (hw : Live w₀) (hs : Opened w₀ True s) {o : CurlOpt} {a : Arg}
    {k : CurlCode → Request α} (ho : o ∉ getChecked) (hh : o ≠ .httpHeader)
    (ha : ∀ l, a ≠ .slist l)
    (hk : ∀ r s', Opened w₀ True s' → Prog.wp (Prog.logged (handle i)) (k r) Q s') :
    Prog.wp (Prog.logged (handle i)) (setopt (some w₀.easyCount) o a >>= k) Q s := by
  refine wp_getSet hw hs hh ha (fun n s' h => ?_) (hk .ok)
  exact hk _ s' ⟨h.handles, h.lists, h.misuse, h.header, h.exact.trans (iff_true_intro ho)⟩

/-- The `try` block of `GetData`. -/
theorem wp_tryGet_tries (hw : Live w₀) (hs : Opened w₀ True s) (url : Str) :
    Prog.wp (Prog.logged (handle i)) (tryGet (some w₀.easyCount) url)
      (fun _ s' => Tries w₀ s') s := by
  unfold tryGet
  refine wp_getSet_unchecked hw hs (by decide) nofun nofun fun _ s₁ h₁ => ?_
  refine wp_getSet_unchecked hw h₁ (by decide) nofun nofun fun _ s₂ h₂ => ?_
  refine wp_getSet_unchecked hw h₂ (by decide) nofun nofun fun _ s₃ h₃ => ?_
  refine wp_getSet_checked hw h₃ (by decide) nofun fun s₄ h₄ => ?_
  refine wp_getSet_checked hw h₄ (by decide) nofun fun s₅ h₅ => ?_
  refine wp_getSet_checked hw h₅ (by decide) nofun fun s₆ h₆ => ?_
  refine wp_getSet_checked hw h₆ (by decide) nofun fun s₇ h₇ => ?_
  have huse : (s₇.1.useEasy w₀.easyCount).useHeader w₀.easyCount = s₇.1 := by
    rw [h₇.live]
    unfold World.useHeader
    rw [h₇.header]
  have hne : w₀.easyCount ≠ mCurl := Nat.ne_of_gt hw.made
  refine Prog.wp_logged fun c (code : CurlCode) w' e => ?_
  cases c <;> cases e
  rename_i chunks
  rw [huse]
  obtain ⟨bs, d, e⟩ := World.perform_eq s₇.1 i w₀.easyCount chunks code
  rw [e]
  by_cases hcode : code = .ok
  · rw [if_neg (not_not.mpr hcode)]
    exact .inl (h₇.step (iff_of_true (.inr hcode) trivial) rfl rfl rfl h₇.header)
  · rw [if_pos hcode]
    have hbad : ¬ (w₀.easyCount = mCurl ∨ code = .ok) := not_or.mpr ⟨hne, hcode⟩
    refine Prog.wp_mono (wp_catchGet ?_) fun _ _ => .inr
    exact h₇.step (iff_of_false hbad id) rfl rfl rfl h₇.header

/-- On a null handle every `curl_easy_setopt` fails, and there is nothing to clean up. -/
theorem wp_tryGet_holds (hs : Holds w₀ none s) (url : Str) :
    Prog.wp (Prog.logged (handle i)) (tryGet none url) (fun _ s' => Holds w₀ none s') s := by
  have hnull : ∀ {s o a} {k : CurlCode → Request HttpStatus}, Holds w₀ none s →
      (∀ n s', Holds w₀ none s' →
        Prog.wp (Prog.logged (handle i)) (k (.error n)) (fun _ s' => Holds w₀ none s') s') →
      Prog.wp (Prog.logged (handle i)) (setopt none o a >>= k) (fun _ s' => Holds w₀ none s') s :=
    fun hs hk => by
      refine Prog.wp_logged fun c r w' e => ?_
      cases c <;> cases e
      exact hk _ _ (hs.step trivial rfl rfl rfl)
  unfold tryGet
  refine hnull hs fun _ s₁ h₁ => ?_
  refine hnull h₁ fun _ s₂ h₂ => ?_
  refine hnull h₂ fun _ s₃ h₃ => ?_
  exact hnull h₃ fun _ s₄ h₄ => h₄

/-- The code after the `try` block cleans the handle up, whether it was cleaned up or not. -/
theorem wp_cleanTries (hw : Live w₀) (hs : Tries w₀ s) {k : Request α}
    (hk : ∀ s', Done w₀ s' → Prog.wp (Prog.logged (handle i)) k Q s') :
    Prog.wp (Prog.logged (handle i)) (cleanCurl (some w₀.easyCount) >>= fun _ => k) Q s := by
  show Prog.wp _ (Prog.call (Op.cleanup w₀.easyCount) >>= fun _ => k) Q s
  refine Prog.wp_logged fun c _ w' e => ?_
  cases c <;> cases e
  have hholds : Ledger.Holding w₀.handles (some w₀.easyCount) w₀.handles.make :=
    (Ledger.holding_refl w₀.handles).make
  have hne : mCurl ≠ w₀.easyCount := Nat.ne_of_lt hw.made
  have hclean : Benign (.cleanup w₀.easyCount, .ok) := trivial
  rcases hs with hs | hs
  · rw [hs.live]
    refine hk _ ⟨(hw.make hs.handles).release hne (World.cleanup_handles ..), ?_⟩
    rw [benign_snoc hclean, hs.exact]
    refine iff_of_true ⟨?_, ?_, hs.misuse⟩ trivial
    · rw [World.cleanup_handles, hs.handles, Ledger.settled_release hholds]
      exact Ledger.complete_make.mpr (Ledger.complete_refl _)
    · rw [show (s.1.cleanup w₀.easyCount).lists = w₀.lists from hs.lists]
      exact Ledger.settled_refl _
  · have htwice : (s.1.useEasy w₀.easyCount).handles = s.1.handles := by
      obtain ⟨m, e⟩ := World.useEasy_eq s.1 w₀.easyCount
      rw [e]
      rfl
    have honce : Live s.1 :=
      (hw.make World.newEasy_handles).release hne
        (hs.handles.trans (by rw [World.newEasy_handles]))
    refine hk _ ⟨(honce.keep htwice).release hne (World.cleanup_handles ..), ?_⟩
    rw [benign_snoc hclean]
    refine iff_of_false (fun hr => ?_) hs.harmful
    have hsettled := hr.1
    rw [World.cleanup_handles, htwice, hs.handles] at hsettled
    exact Ledger.not_settled_twice hholds hsettled

/-- **GET.** -/
theorem wp_getData_done (hw : Live w₀) (uri : Str) :
    Prog.wp (Prog.logged (handle i)) (getData uri) (fun _ s' => Done w₀ s') (w₀, []) := by
  unfold getData
  refine Prog.wp_logged fun c _ w₁ e => ?_
  cases c <;> cases e
  have h₁ := (holds_start w₀).step
    (w := { w₀ with buffer := Function.update w₀.buffer .strHttpGetData [] })
    (x := (.clear .strHttpGetData, .ok)) trivial rfl rfl rfl
  refine Prog.wp_logged fun c curlPtr w₂ e => ?_
  cases c <;> cases e
  · have hf : Opened w₀ True
        ((({ w₀ with buffer := Function.update w₀.buffer .strHttpGetData [] } : World ι).newEasy),
          [] ++ [(Op.clear .strHttpGetData, .ok)] ++ [(Op.easyInit, .ok)]) := by
      refine ⟨World.newEasy_handles, rfl, rfl, ?_, iff_of_true ?_ trivial⟩
      · simp [World.newEasy, World.opts, Easy.new]
      · simp [Benign]
    refine Prog.wp_bind.mpr (Prog.wp_mono (wp_tryGet_tries hw hf uri) fun status s₃ ht => ?_)
    refine Prog.wp_logged fun c data w₄ e => ?_
    cases c <;> cases e
    exact wp_cleanTries hw (ht.step (x := (.read .strHttpGetData, .ok)) trivial) fun s' h => h
  · rename_i n
    have h₂ := h₁.step (x := (.easyInit, .fail n)) trivial rfl rfl rfl
    refine Prog.wp_bind.mpr (Prog.wp_mono (wp_tryGet_holds h₂ uri) fun status s₃ h₃ => ?_)
    refine Prog.wp_logged fun c data w₄ e => ?_
    cases c <;> cases e
    have h₄ := h₃.step (x := (.read .strHttpGetData, .ok)) trivial rfl rfl rfl
    exact h₄.done hw

/-! ## Credentials -/

theorem wp_setAll_holds (hw : Live w₀) {ps : List (CurlOpt × Arg)} (hs : Holds w₀ none s)
    (hp : ∀ p ∈ ps, ∀ l, p.2 ≠ .slist l) :
    Prog.wp (Prog.logged (handle i)) (setAll ps) (fun _ s' => Holds w₀ none s') s := by
  induction ps generalizing s with
  | nil => exact hs
  | cons p ps ih =>
    refine wp_set_checked hw hs (fun l hl => ?_) (fun _ h => h) fun s' h _ => ?_
    · exact absurd hl (hp p List.mem_cons_self (some l))
    · exact ih h fun q hq => hp q (List.mem_cons_of_mem p hq)

theorem wp_updateTLSInfo_done (hw : Live w₀) (hs : Holds w₀ none s) :
    Prog.wp (Prog.logged (handle i)) updateTLSInfo (fun _ s' => Done w₀ s') s := by
  rw [updateTLSInfo_eq]
  refine Prog.wp_logged fun c cert w₁ e => ?_
  cases c <;> cases e
  have h₁ := hs.step (x := (.loadCert, .ok)) trivial rfl rfl rfl
  refine wp_set_unchecked hw h₁ nofun fun _ s₂ h₂ => ?_
  refine Prog.wp_mono (wp_setAll_holds hw h₂ ?_) fun _ _ h => h.done hw
  simp [tlsValues]

/-! ## Histories -/

/-- **One call.** -/
theorem wp_call_done (hw : Live w₀) (g : Call) :
    Prog.wp (Prog.logged (handle i)) g.body (fun _ s' => Done w₀ s') (w₀, []) := by
  have h₀ := holds_start w₀
  cases g with
  | post url restData => exact Prog.wp_bind.mpr (wp_sendBody_done hw h₀)
  | put url restData => exact Prog.wp_bind.mpr (wp_sendBody_done hw h₀)
  | getDeviceData deviceUri => exact Prog.wp_bind.mpr (wp_getData_done hw deviceUri)
  | updateTLSInfo => exact Prog.wp_bind.mpr (wp_updateTLSInfo_done hw h₀)
  | setCertificateAttributes cert =>
    refine Prog.wp_bind.mpr (Prog.wp_logged fun c _ w₁ e => ?_)
    cases c <;> cases e
    have h₁ := h₀.step (w := { w₀ with cert := cert }) (x := (.storeCert cert, .ok)) trivial rfl
      rfl rfl
    exact wp_updateTLSInfo_done hw h₁
  | postPollingData deviceUri data =>
    refine Prog.wp_bind.mpr (Prog.wp_logged fun c _ w₁ e => ?_)
    cases c <;> simp only [handle] at e
    case ok =>
      split at e <;> cases e
      have h₁ := h₀.step (w := { w₀ with mPollingMutex := some i }) (x := (.lockPolling, .ok))
        trivial rfl rfl rfl
      refine Prog.wp_bind.mpr (Prog.wp_mono (wp_sendBody_done hw h₁) fun status s₂ h₂ => ?_)
      refine Prog.wp_logged fun c _ w₃ e => ?_
      cases c <;> cases e
      exact h₂.step (x := (.unlockPolling, .ok)) trivial rfl rfl rfl
    all_goals cases e

/-- **Releases.** In a history of calls, each call releases every handle and every header list that
it made exactly once, and uses nothing that is released, if and only if all outcomes in the log of
the history are benign; and every history has a log. -/
theorem released_iff {w : World ι} (hw : Live w) :
    (∀ (es : List (Prog.Entry Call Reply (Logged ι))) (t : Logged ι),
      Prog.Hist (Prog.logged (handle i)) Call.body (w, []) es t →
      ((∀ e ∈ es, Released e.before.1 e.after.1) ↔ ∀ x ∈ t.2, Benign x)) ∧
    ∀ (es : List (Prog.Entry Call Reply (World ι))) (w' : World ι),
      History (handle i) w es w' → ∃ es' l,
        Prog.Hist (Prog.logged (handle i)) Call.body (w, []) es' (w', l) ∧
        es'.map Prog.Entry.plain = es :=
  ⟨fun _ _ h => (Prog.Hist.each_iff (P := fun e => Released e.before e.after)
    (fun g _ hw => Prog.wp_mono (wp_call_done hw g) fun _ _ hd => ⟨hd.live, hd.exact⟩) hw h).2,
    fun _ _ h => h.logged⟩

omit [DecidableEq ι] in
theorem live_init : Live (World.init : World ι) := ⟨Nat.zero_lt_one, rfl⟩

/-- A PUT whose url fails, and a GET. -/
theorem released_iff_two :
    ∃ (es : List (Prog.Entry Call Reply (Logged Unit))) (t : Logged Unit),
      Prog.Hist (Prog.logged (handle ())) Call.body (World.init, []) es t ∧
      es.map (fun e => (e.called, e.result)) =
        [(.put [97] ⟨[123], .typeJson⟩, .failure, none),
          (.getDeviceData [98], .success, some [100])] ∧
      ((∀ e ∈ es, Released e.before.1 e.after.1) ↔ ∀ x ∈ t.2, Benign x) := by
  obtain ⟨es, t, h, hes⟩ := Prog.Hist.observe (H := Prog.logged (handle ()))
    (s := (World.init, [])) (p := Call.body) (fun p => p.1.map fun e => (e.called, e.result))
    [(.put [97] ⟨[123], .typeJson⟩, [.ok, .ok, .fail 3]),
      (.getDeviceData [98], List.replicate 9 .ok ++ [.transfer [[100]] .ok, .ok, .ok])]
    (b := [(.put [97] ⟨[123], .typeJson⟩, .failure, none),
      (.getDeviceData [98], .success, some [100])]) (by decide)
  exact ⟨es, t, h, hes, (released_iff live_init).1 es t h⟩

/-- A GET whose url fails cleans its handle up twice; a POST whose second append fails never frees
its list. -/
theorem released_twice_or_never :
    (∃ r w', (Call.getDeviceData [98]).body.Returns (handle ()) .init r w' ∧
      (w'.easy 1).cleanups = 2 ∧ w'.misuse = 1 ∧ ¬ Released .init w') ∧
    ∃ r w', (Call.post [98] ⟨[125], .typeJson⟩).body.Returns (handle ()) .init r w' ∧
      (w'.slist 0).frees = 0 ∧ ¬ Released .init w' := by
  constructor
  · obtain ⟨r, w', hr, hobs⟩ := Prog.Returns.observe (H := handle ()) (s := .init)
      (p := (Call.getDeviceData [98]).body) (b := (2, 1))
      (fun w => ((w.easy 1).cleanups, w.misuse))
      (List.replicate 6 .ok ++ .fail 3 :: List.replicate 3 .ok) (by decide)
    obtain ⟨htwice, hmisuse⟩ := Prod.mk.inj hobs
    refine ⟨r, w', hr, htwice, hmisuse, fun h => ?_⟩
    rw [h.2.2] at hmisuse
    cases hmisuse
  · obtain ⟨r, w', hr, hobs⟩ := Prog.Returns.observe (H := handle ()) (s := .init)
      (p := (Call.post [98] ⟨[125], .typeJson⟩).body) (b := (2, 0))
      (fun w => (w.slistCount, (w.slist 0).frees))
      (List.replicate 4 .ok ++ .fail 27 :: List.replicate 7 .ok ++ [.transfer [] .ok, .ok])
      (by decide)
    obtain ⟨hcount, hfrees⟩ := Prod.mk.inj hobs
    refine ⟨r, w', hr, hfrees, fun h => ?_⟩
    have hone : (w'.slist 0).frees = 1 := h.2.1 0 ⟨Nat.le_refl 0, by
      show 0 < w'.slistCount
      omega⟩
    omega

end CurlHttpWrapper

end LibRest
