import LibRest.Effects
import LibRest.Requests
import LibRest.Lib.Pool

/-!
# Concurrent GETs

Any number of `GetDeviceData` calls on one wrapper. Each has an easy handle of its own, but their
write callbacks all append to the one member `strHttpGetData`, which each call clears at its start
and copies at its end. No lock is taken.

- **Windows** (`Fetches`). A call is in its window from its clear to its copy.
- **`Apart`**: no call clears what another has received in its window, and no call receives content
  in the window of another. Then a call that succeeds returns the chunks delivered to its own handle
  (`gets_isolated`), as it does when it runs alone.
-/

namespace LibRest

open Lib

namespace CurlHttpWrapper

/-- The content of a GET's reply: the status, and the caller's `data`. -/
abbrev GetReply := HttpStatus × Str

/-- `GetDeviceData` calls on a wrapper on which none was made. -/
def gets (ι : Type) [DecidableEq ι] :
    Sys (Pool Op.Res ι (World ι) GetReply) (Pool.Act ι Str Choice) :=
  Pool.sys handle getDeviceData (fun _ _ _ => true) fun w =>
    mCurl < w.easyCount ∧ (∀ h, h ≠ mCurl → w.opts h = fun _ => none) ∧
      ∀ i, w.delivered i = []

/-- The rest of a call can return `SUCCESS`. -/
def CanSucceed : Request GetReply → Prop
  | .ret a => a.1 = .success
  | .op _ k => ∃ r, CanSucceed (k r)

/-- The rest of a call can copy `strHttpGetData` and return `SUCCESS` after it. -/
def CanCopy : Request GetReply → Prop
  | .ret _ => False
  | .op (.read _) k => ∃ d, CanSucceed (k d)
  | .op _ k => ∃ r, CanCopy (k r)

/-- The call has cleared `strHttpGetData`, and can still copy it and succeed. -/
def Fetches (p : Request GetReply) : Prop :=
  (∀ k, p ≠ .op (.clear .strHttpGetData) k) ∧ CanCopy p

/-- In the window of another call, a call clears only if that one has received nothing, and receives
nothing itself. -/
def Apart {ι : Type} (s : Pool Op.Res ι (World ι) GetReply) : Pool.Act ι Str Choice → Prop
  | .call .. => True
  | .step i c => ∀ o k, s.calls i = some (.op o k) → ∀ j, j ≠ i → ∀ q, s.calls j = some q →
    Fetches q →
      (o = .clear .strHttpGetData → (s.shared.delivered j).flatten = []) ∧
      ∀ h, o = .perform (some h) → s.shared.Target h .strHttpGetData → World.content c = []

/-! ## The parts of a GET -/

/-- The operations between the clear and the copy, on a handle of the call's own. -/
def FetchOp : Op → Prop
  | .setopt (some h) opt a => h ≠ mCurl ∧ (opt = .writeData → a = .buffer .strHttpGetData)
  | .perform (some h) => h ≠ mCurl
  | .easyInit | .clear _ | .read _ => False
  | _ => True

/-- The operations after the copy. -/
def CloseOp : Op → Prop
  | .perform _ | .clear _ | .setopt .. | .easyInit => False
  | _ => True

/-- The rest of a call after its copy: a success returns `d`. -/
def Copied (d : Str) : Request GetReply → Prop
  | .ret a => a.1 = .success → a.2 = d
  | .op o k => CloseOp o ∧ ∀ r, Copied d (k r)

/-- The rest of a call between its clear and its copy. -/
def Fetching : Request GetReply → Prop
  | .ret _ => False
  | .op (.read b) k => b = .strHttpGetData ∧ ∀ d, Copied d (k d)
  | .op .easyInit k => ∀ h : Option EasyId, h ≠ some mCurl → Fetching (k h)
  | .op o k => FetchOp o ∧ ∀ r, Fetching (k r)

variable {α : Type}

theorem all_cleanCurl {ptr : Option EasyId} : (cleanCurl ptr).All FetchOp := by
  cases ptr with
  | none => trivial
  | some h => exact ⟨trivial, fun _ => trivial⟩

theorem fetching_bind {p : Request α} {f : α → Request GetReply} (hp : p.All FetchOp)
    (hf : ∀ a, Fetching (f a)) : Fetching (p >>= f) := by
  induction p with
  | ret a => exact hf a
  | op o k ih =>
    have hrest : ∀ r, Fetching (k r >>= f) := fun r => ih r (hp.2 r)
    cases o
    case easyInit | read => exact absurd hp.1 id
    all_goals exact ⟨hp.1, hrest⟩

theorem all_tryGet {ptr : Option EasyId} (url : Str) (hptr : ptr ≠ some mCurl) :
    (tryGet ptr url).All FetchOp := by
  have hop : ∀ {opt : CurlOpt} {a : Arg}, (opt = .writeData → a = .buffer .strHttpGetData) →
      FetchOp (.setopt ptr opt a) := by
    intro opt a ha
    cases ptr with
    | none => trivial
    | some h => exact ⟨fun e => hptr (congrArg some e), ha⟩
  have hperform : FetchOp (.perform ptr) := by
    cases ptr with
    | none => trivial
    | some h => exact fun e => hptr (congrArg some e)
  have hcatch : (catchGet ptr).All FetchOp := all_cleanCurl.bind fun _ => trivial
  unfold tryGet
  refine ⟨hop nofun, fun _ => ⟨hop fun _ => rfl, fun _ => ⟨hop nofun, fun _ => ?_⟩⟩⟩
  refine all_checked (hop nofun) hcatch (all_checked (hop nofun) hcatch ?_)
  refine all_checked (hop nofun) hcatch (all_checked (hop nofun) hcatch ?_)
  refine ⟨hperform, fun (r : CurlCode) => ?_⟩
  show Prog.All FetchOp (if r ≠ .ok then catchGet ptr else pure .success)
  split
  · exact hcatch
  · trivial

/-- A GET clears `strHttpGetData`, fetches, and copies it. -/
theorem getDeviceData_eq (url : Str) :
    ∃ k, getDeviceData url = .op (.clear .strHttpGetData) k ∧ ∀ r, Fetching (k r) := by
  refine ⟨_, rfl, fun _ => fun ptr hptr => ?_⟩
  show Fetching (tryGet ptr url >>= fun status =>
    Prog.call (Op.read .strHttpGetData) >>= fun data =>
      cleanCurl ptr >>= fun _ => pure (status, data))
  refine fetching_bind (all_tryGet url hptr) fun status => ⟨rfl, fun (d : Str) => ?_⟩
  show Copied d (cleanCurl ptr >>= fun _ => pure (status, d))
  cases ptr with
  | none => intro _; rfl
  | some h => exact ⟨trivial, fun _ _ => rfl⟩

/-! ## Stages -/

section Stages

variable {ι : Type} [DecidableEq ι] {i : ι} {w w' : World ι} {o : Op} {c : Choice}
  {k : o.Res → Request GetReply} {p : Request GetReply} {d d' : Str}

/-- The operation clears nothing, and on handles of GETs alone it transfers and sets its target. -/
structure GetOp (o : Op) : Prop where
  clear : ∀ b, o ≠ .clear b
  perform : ∀ h, o = .perform (some h) → h ≠ mCurl
  writeData : ∀ h a, o = .setopt (some h) .writeData a → a = .buffer .strHttpGetData

theorem Fetching.getOp (hf : Fetching (.op o k)) : GetOp o := by
  cases o with
  | setopt h opt a =>
    refine ⟨nofun, nofun, ?_⟩
    rintro h' a' e
    cases e
    exact hf.1.2 rfl
  | perform h =>
    refine ⟨nofun, ?_, nofun⟩
    rintro h' e
    cases e
    exact hf.1
  | clear b => exact absurd hf.1 id
  | _ => exact ⟨nofun, nofun, nofun⟩

theorem Copied.getOp (hc : Copied d (.op o k)) : GetOp o := by
  cases o with
  | setopt h opt a => exact absurd hc.1 id
  | perform h => exact absurd hc.1 id
  | clear b => exact absurd hc.1 id
  | _ => exact ⟨nofun, nofun, nofun⟩

/-- A call that cannot succeed promises nothing. -/
theorem Copied.of_fails (hc : Copied d p) (hp : ¬ CanSucceed p) : Copied d' p := by
  induction p with
  | ret a => exact fun h => absurd h hp
  | op o k ih => exact ⟨hc.1, fun r => ih r (hc.2 r) fun h => hp ⟨r, h⟩⟩

theorem Fetching.next {r : o.Res} (hf : Fetching (.op o k)) (hlive : mCurl < w.easyCount)
    (hs : handle i o w c = some (some r, w')) (hread : ∀ b, o ≠ .read b) : Fetching (k r) := by
  cases o with
  | easyInit =>
    refine hf r fun e => ?_
    cases c <;> cases hs
    · exact absurd (Option.some.inj e) (Nat.ne_of_gt hlive)
    · cases e
  | read b => exact absurd rfl (hread b)
  | _ => exact hf.2 r

theorem canCopy_op {r : o.Res} (hread : ∀ b, o ≠ .read b) (h : CanCopy (k r)) :
    CanCopy (.op o k) := by
  cases o with
  | read b => exact absurd rfl (hread b)
  | _ => exact ⟨r, h⟩

/-- The handles of GETs have no target but `strHttpGetData`. -/
structure Private (w : World ι) : Prop where
  live : mCurl < w.easyCount
  target : ∀ h, h ≠ mCurl → ∀ a j, w.opts h .writeData = some (a, j) → a = .buffer .strHttpGetData

theorem Private.step (hw : Private w) (he : World.Effect i w o c w')
    (hop : ∀ h a, o = .setopt (some h) .writeData a → a = .buffer .strHttpGetData) :
    Private w' := by
  refine ⟨Nat.lt_of_lt_of_le hw.live he.easyCount, fun h hh a j hd => ?_⟩
  rcases he.handles h with e | ⟨opt, b, ho, -, e⟩ | ⟨-, e⟩
  · exact hw.target h hh a j (by rw [← e]; exact hd)
  · rw [e] at hd
    by_cases hopt : opt = .writeData
    · subst hopt
      rw [Function.update_self] at hd
      cases hd
      exact hop h _ ho
    · rw [Function.update_of_ne (Ne.symm hopt)] at hd
      exact hw.target h hh a j hd
  · rw [e] at hd
    cases hd

/-- How far a GET is, and what the state says of it. -/
inductive Stage (w : World ι) (i : ι) : Request GetReply → Prop where
  | fresh {k : Unit → Request GetReply} : (∀ r, Fetching (k r)) → w.delivered i = [] →
      Stage w i (.op (.clear .strHttpGetData) k)
  | fetching {p : Request GetReply} : Fetching p →
      (CanCopy p → w.buffer .strHttpGetData = (w.delivered i).flatten) → Stage w i p
  | copied {p : Request GetReply} : Copied (w.delivered i).flatten p → Stage w i p

omit [DecidableEq ι] in
/-- The copy of a call that fetches. -/
theorem Stage.read {b : Buffer} {k : Str → Request GetReply} (hf : Fetching (.op (.read b) k))
    (hbuf : CanCopy (.op (.read b) k) → w.buffer .strHttpGetData = (w.delivered i).flatten) :
    Stage w i (k (w.buffer b)) := by
  obtain ⟨rfl, hcopied⟩ := hf
  have hc := hcopied (w.buffer .strHttpGetData)
  refine .copied ?_
  by_cases hs : CanSucceed (k (w.buffer .strHttpGetData))
  · rw [hbuf ⟨_, hs⟩] at hc ⊢
    exact hc
  · exact hc.of_fails hs

/-- A call that fetches or has copied moves on. -/
theorem Stage.next {r : Option o.Res} (hw : Private w) (hs : handle i o w c = some (r, w'))
    (h : Stage w i (.op o k)) (hop : GetOp o) : Stage w' i (Pool.rest o k r) := by
  have he := World.handle_effect hs
  obtain ⟨chunks, hb, hd, hP⟩ := he.appends (hop.clear .strHttpGetData) fun h ho =>
    hw.target h (hop.perform h ho)
  have hdi : (w'.delivered i).flatten = (w.delivered i).flatten ++ chunks.flatten := by
    rw [hd, Function.update_self, List.flatten_append]
  cases h with
  | fresh => exact absurd rfl (hop.clear _)
  | fetching hf hbuf =>
    by_cases hread : ∃ b, o = .read b
    · obtain ⟨b, rfl⟩ := hread
      cases c <;> cases hs
      exact .read hf hbuf
    · have hread' : ∀ b, o ≠ .read b := fun b e => hread ⟨b, e⟩
      have hbuf' : CanCopy (.op o k) → w'.buffer .strHttpGetData = (w'.delivered i).flatten :=
        fun hc => by rw [hb, hdi, hbuf hc]
      cases r with
      | none => exact .fetching hf hbuf'
      | some r => exact .fetching (hf.next hw.live hs hread') fun hc => hbuf' (canCopy_op hread' hc)
  | copied hc =>
    have hnone : chunks.flatten = [] := by
      by_contra hne
      obtain ⟨h, rfl, -, -⟩ := hP hne
      exact hc.1
    have hd' : (w'.delivered i).flatten = (w.delivered i).flatten := by
      rw [hdi, hnone, List.append_nil]
    refine .copied ?_
    rw [hd']
    cases r with
    | none => exact hc
    | some r => exact hc.2 r

omit [DecidableEq ι] in
theorem Stage.getOp (h : Stage w i (.op o k)) (hclear : o ≠ .clear .strHttpGetData) : GetOp o := by
  cases h with
  | fresh => exact absurd rfl hclear
  | fetching hf => exact hf.getOp
  | copied hc => exact hc.getOp

omit [DecidableEq ι] in
/-- A step of another call leaves the stage, if in the window the buffer still has what was
delivered. -/
theorem Stage.other (h : Stage w i p) (hd : w'.delivered i = w.delivered i)
    (hb : Fetches p → w.buffer .strHttpGetData = (w.delivered i).flatten →
      w'.buffer .strHttpGetData = (w.delivered i).flatten) : Stage w' i p := by
  cases h with
  | fresh hk hnone => exact .fresh hk (hd.trans hnone)
  | fetching hf hbuf =>
    refine .fetching hf fun hc => ?_
    have hwindow : Fetches p := ⟨fun k e => by subst e; exact hf.getOp.clear _ rfl, hc⟩
    rw [hd]
    exact hb hwindow (hbuf hc)
  | copied hc => exact .copied (by rw [hd]; exact hc)

end Stages

/-! ## Isolation -/

/-- In a run whose calls are apart, each is at a stage. -/
theorem stages {ι : Type} [DecidableEq ι] {s : Pool Op.Res ι (World ι) GetReply}
    (h : (gets ι).Reach Apart s) {i : ι} {p : Request GetReply} (hp : s.calls i = some p) :
    Stage s.shared i p := by
  have hinv := Pool.inv (G := Apart) (J := Private)
    (L := fun i q w => (q = none → w.delivered i = []) ∧ ∀ p, q = some p → Stage w i p)
    ?_ ?_ ?_ h
  · exact (hinv.2 i).2 p hp
  · rintro w ⟨hlive, hopts, hdel⟩
    refine ⟨⟨hlive, fun h hh a j hd => ?_⟩, fun i => ⟨fun _ => hdel i, nofun⟩⟩
    rw [hopts h hh] at hd
    cases hd
  · rintro calls i url w - - ⟨hnone, -⟩
    refine ⟨nofun, ?_⟩
    rintro p e
    obtain rfl := Option.some.inj e
    obtain ⟨k, e, hk⟩ := getDeviceData_eq url
    rw [e]
    exact .fresh hk (hnone rfl)
  · rintro s i c o k r w' hg hcur hs hw hL
    have hi := (hL i).2 _ hcur
    have he := World.handle_effect hs
    by_cases hclear : o = .clear .strHttpGetData
    · subst hclear
      cases c <;> cases hs
      refine ⟨hw.step he nofun, ⟨nofun, ?_⟩, fun j hj => ⟨fun hq => (hL j).1 hq, fun q hq => ?_⟩⟩
      · rintro p e
        obtain rfl := Option.some.inj e
        cases hi with
        | fresh hk hnone =>
          exact .fetching (hk ()) fun _ => by simp [hnone]
        | fetching hf => exact absurd rfl (hf.getOp.clear _)
        | copied hc => exact absurd rfl (hc.getOp.clear _)
      · refine ((hL j).2 q hq).other rfl fun hf _ => ?_
        simp [(hg _ _ hcur j hj q hq hf).1 rfl]
    · have hop := hi.getOp hclear
      obtain ⟨chunks, hb, hd, hP⟩ := he.appends hclear fun h ho => hw.target h (hop.perform h ho)
      have hdj : ∀ j, j ≠ i → w'.delivered j = s.shared.delivered j := fun j hj => by
        rw [hd, Function.update_of_ne hj]
      refine ⟨hw.step he hop.writeData, ⟨nofun, ?_⟩, fun j hj => ⟨fun hq => ?_, fun q hq => ?_⟩⟩
      · rintro p e
        obtain rfl := Option.some.inj e
        exact hi.next hw hs hop
      · rw [hdj j hj]
        exact (hL j).1 hq
      · refine ((hL j).2 q hq).other (hdj j hj) fun hf hbuf => ?_
        have hnone : chunks.flatten = [] := by
          by_contra hne
          obtain ⟨h, ho, ht, hc⟩ := hP hne
          exact hne (hc.symm.trans ((hg _ _ hcur j hj q hq hf).2 h ho ht))
        rw [hb, hnone, List.append_nil, hbuf]

theorem apart_alone {ι : Type} {s : Pool Op.Res ι (World ι) GetReply} {i : ι}
    (a : Pool.Act ι Str Choice) (hs : ∀ j, j ≠ i → s.calls j = none) : Apart s a := by
  cases a with
  | call => trivial
  | step l c =>
    intro o k hl j hj q hq _
    have hli : l = i := by
      by_contra hne
      rw [hs l hne] at hl
      cases hl
    rw [hs j (hli ▸ hj)] at hq
    cases hq

/-- **Isolation of GETs.** In a run whose calls are apart, a call that succeeds returns the chunks
delivered to its handle, which is what it returns when it runs alone and gets the same chunks. -/
theorem gets_isolated {ι : Type} [DecidableEq ι] {s : Pool Op.Res ι (World ι) GetReply}
    (h : (gets ι).Reach Apart s) {i : ι} {data : Str}
    (hret : Pool.result (s.calls i) = some (.success, data)) :
    data = (s.shared.delivered i).flatten ∧
      ∀ (s' : Pool Op.Res ι (World ι) GetReply) (data' : Str), (gets ι).Reach Sys.Any s' →
        (∀ j, j ≠ i → s'.calls j = none) → Pool.result (s'.calls i) = some (.success, data') →
        (s'.shared.delivered i).flatten = (s.shared.delivered i).flatten → data' = data := by
  have hdata : ∀ {s : Pool Op.Res ι (World ι) GetReply} {data : Str}, (gets ι).Reach Apart s →
      Pool.result (s.calls i) = some (.success, data) → data = (s.shared.delivered i).flatten := by
    intro s data h hret
    cases stages h (Pool.result_eq_some.mp hret) with
    | fetching hf => exact absurd hf id
    | copied hc => exact hc rfl
  refine ⟨hdata h hret, fun s' data' h' halone hret' hsame => ?_⟩
  have hreach := Pool.reach_alone (G := Apart) (i := i) (fun s a => apart_alone a) h' halone
  rw [hdata hreach hret', hsame, hdata h hret]

/-- A new wrapper with no GETs. -/
def noGets (ι : Type) : Pool Op.Res ι (World ι) GetReply := ⟨.init, fun _ => none⟩

theorem gets_init (ι : Type) [DecidableEq ι] : (gets ι).init (noGets ι) :=
  ⟨⟨Nat.zero_lt_one, fun _ _ => rfl, fun _ => rfl⟩, rfl⟩

/-- The steps of a GET up to its transfer. -/
def opens {ι : Type} (i : ι) : List (Pool.Act ι Str Choice) :=
  List.replicate 9 (.step i .ok)

/-- The end of a transfer, the copy and the cleanup. -/
def closes {ι : Type} (i : ι) : List (Pool.Act ι Str Choice) :=
  [.step i (.transfer [] .ok), .step i .ok, .step i .ok]

/-- The call has not cleared the string yet, or it has copied it. -/
def outside : Request GetReply → Bool
  | .ret _ => true
  | .op (.clear .strHttpGetData) _ => true
  | .op (.cleanup _) k =>
    match k () with
    | .ret _ => true
    | _ => false
  | _ => false

theorem not_fetches {p : Request GetReply} (h : outside p = true) : ¬ Fetches p := by
  rintro ⟨hclear, hcopy⟩
  unfold outside at h
  split at h
  · exact hcopy
  · exact hclear _ rfl
  · obtain ⟨r, hr⟩ := hcopy
    split at h
    · rename_i hk
      replace hr : CanCopy (Prog.ret _) := hk ▸ hr
      exact hr
    · cases h
  · cases h

/-- A decided condition that is enough for the calls of `n` clients to be apart. -/
def apart {n : Nat} (s : Pool Op.Res (Fin n) (World (Fin n)) GetReply) :
    Pool.Act (Fin n) Str Choice → Bool
  | .call .. => true
  | .step i c =>
    match s.calls i with
    | some (.op (.clear .strHttpGetData) _) => (List.finRange n).all fun j =>
      j = i || (s.calls j).all outside || (s.shared.delivered j).flatten.isEmpty
    | some (.op (.perform _) _) => (World.content c).isEmpty || (List.finRange n).all fun j =>
      j = i || (s.calls j).all outside
    | _ => true

theorem apart_sound {n : Nat} {s : Pool Op.Res (Fin n) (World (Fin n)) GetReply}
    {a : Pool.Act (Fin n) Str Choice} (h : apart s a = true) : Apart s a := by
  cases a with
  | call => trivial
  | step i c =>
    intro o k hk j hj q hq hf
    have hout : ¬ (s.calls j).all outside = true := by
      rw [hq]
      exact fun e => not_fetches e hf
    constructor
    · rintro rfl
      simp only [apart, hk, List.all_eq_true] at h
      simpa [hj, hout] using h j (List.mem_finRange j)
    · rintro e rfl -
      simp only [apart, hk, Bool.or_eq_true, List.all_eq_true, List.isEmpty_iff] at h
      rcases h with h | h
      · exact h
      · simpa [hj, hout] using h j (List.mem_finRange j)

/-- Three clients: the second one's GET runs inside the first one's and gets no content; the third
one's starts before the first one has cleaned up. -/
def threeGets : List (Pool.Act (Fin 3) Str Choice) :=
  [.call 0 [98], .call 1 [99], .call 2 [100]] ++ opens 0 ++ opens 1 ++
    [.step 1 (.transfer [] .ok), .step 1 .ok, .step 0 (.chunk [1]), .step 1 .ok,
      .step 0 (.transfer [[2]] .ok), .step 0 .ok] ++
    opens 2 ++ [.step 0 .ok] ++ [.step 2 (.transfer [[3]] .ok), .step 2 .ok, .step 2 .ok]

/-- Each of three GETs in turn returns the chunks of its own handle. -/
theorem gets_isolated_three :
    ∃ s, (gets (Fin 3)).Reach Apart s ∧
      Pool.result (s.calls 0) = some (.success, [1, 2]) ∧
      Pool.result (s.calls 1) = some (.success, []) ∧
      Pool.result (s.calls 2) = some (.success, [3]) ∧
      [1, 2] = (s.shared.delivered 0).flatten ∧ [] = (s.shared.delivered 1).flatten ∧
      [3] = (s.shared.delivered 2).flatten := by
  obtain ⟨s, h, hret⟩ := Sys.Reach.observe_along (S := gets (Fin 3))
    (G := fun s a => apart s a = true)
    (fun s => [0, 1, 2].map fun i => Pool.result (s.calls i)) threeGets (gets_init (Fin 3))
    (b := [some (.success, [1, 2]), some (.success, []), some (.success, [3])])
    (by decide) (by decide)
  simp only [List.map_cons, List.map_nil, List.cons.injEq, and_true] at hret
  obtain ⟨h₀, h₁, h₂⟩ := hret
  have hapart : (gets (Fin 3)).Reach Apart s := h.mono fun _ _ _ => apart_sound
  exact ⟨s, hapart, h₀, h₁, h₂, (gets_isolated hapart h₀).1, (gets_isolated hapart h₁).1,
    (gets_isolated hapart h₂).1⟩

/-- Two GETs whose chunks come in turn: the first returns the chunk of the second too. -/
theorem gets_mixed :
    ∃ s, (gets Bool).Reach Sys.Any s ∧ Pool.result (s.calls false) = some (.success, [1, 2]) ∧
      s.shared.delivered false = [[1]] ∧ [1, 2] ≠ (s.shared.delivered false).flatten := by
  obtain ⟨s, h, hobs⟩ := Sys.Reach.observe (S := gets Bool)
    (fun s => (Pool.result (s.calls false), s.shared.delivered false))
    ([.call false [98], .call true [99]] ++ opens false ++ opens true ++
      [.step false (.chunk [1]), .step true (.chunk [2])] ++ closes false)
    (gets_init Bool) (b := (some (.success, [1, 2]), [[1]])) (by decide)
  obtain ⟨hret, hdel⟩ := Prod.mk.inj hobs
  exact ⟨s, h, hret, hdel, by rw [hdel]; decide⟩

end CurlHttpWrapper

end LibRest
