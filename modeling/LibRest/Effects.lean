import LibRest.Curl

/-!
# What an operation can do

- The counter of misuse is the one thing that a mere use of a handle or list changes (`useEasy_eq`),
  and a chunk changes only the buffers and what was delivered (`deliver_eq`).
- **Effects** (`handle_effect`). Each step of an operation is quiet, or it records an option, makes
  a handle, clears a buffer, delivers a chunk, or ends a transfer. `handle_outcome` has what each
  operation does and returns.
- **Frames** (`Effect.handles`, `Effect.performs`, `Effect.appends`). Which operations can change
  the options of a handle, which are recorded as transfers, and which append to a buffer.
-/

namespace LibRest

open Lib

namespace World

variable {ι : Type} {w : World ι}

theorem useEasy_eq (w : World ι) (h : EasyId) : ∃ m, w.useEasy h = { w with misuse := m } := by
  unfold useEasy
  split
  · exact ⟨w.misuse, rfl⟩
  · exact ⟨_, rfl⟩

theorem useSlist_eq (w : World ι) (l : SlistId) : ∃ m, w.useSlist l = { w with misuse := m } := by
  unfold useSlist
  split
  · exact ⟨w.misuse, rfl⟩
  · exact ⟨_, rfl⟩

@[simp] theorem record_opts (w : World ι) (i : ι) (h : EasyId) (o : CurlOpt) (a : Arg) :
    (w.record i h o a).opts h = Function.update (w.opts h) o (some (a, i)) := by
  simp [record, opts]

theorem record_opts_ne (i : ι) {h h' : EasyId} (o : CurlOpt) (a : Arg) (hne : h' ≠ h) :
    (w.record i h o a).opts h' = w.opts h' := by
  simp [record, opts, Function.update_of_ne hne]

@[simp] theorem cleanup_opts (w : World ι) (h h' : EasyId) :
    (w.cleanup h).opts h' = w.opts h' := by
  by_cases e : h' = h
  · subst e; simp [cleanup, opts]
  · simp [cleanup, opts, Function.update_of_ne e]

theorem newEasy_opts {h : EasyId} (hne : h ≠ w.easyCount) : w.newEasy.opts h = w.opts h := by
  simp [newEasy, opts, Function.update_of_ne hne]

theorem useHeader_eq (w : World ι) (h : EasyId) :
    ∃ m, w.useHeader h = { w with misuse := m } := by
  unfold useHeader
  split
  · exact useSlist_eq ..
  · exact ⟨w.misuse, rfl⟩

theorem useArg_eq (w : World ι) (a : Arg) : ∃ m, w.useArg a = { w with misuse := m } := by
  unfold useArg
  split
  · exact useSlist_eq ..
  · exact ⟨w.misuse, rfl⟩

/-- A use of a handle and of a value for it. -/
theorem useSet_eq (w : World ι) (h : EasyId) (a : Arg) :
    ∃ m, (w.useEasy h).useArg a = { w with misuse := m } := by
  obtain ⟨m, e⟩ := useEasy_eq w h
  obtain ⟨m', e'⟩ := useArg_eq (w.useEasy h) a
  exact ⟨m', by rw [e', e]⟩

/-- A use of a handle and of its header list. -/
theorem use_eq (w : World ι) (h : EasyId) :
    ∃ m, (w.useEasy h).useHeader h = { w with misuse := m } := by
  obtain ⟨m, e⟩ := useEasy_eq w h
  obtain ⟨m', e'⟩ := useHeader_eq (w.useEasy h) h
  exact ⟨m', by rw [e', e]⟩

/-! ## Delivery -/

section

variable [DecidableEq ι]

theorem deliver_eq (i : ι) (h : EasyId) (w : World ι) (b : Str) :
    ∃ bs d, w.deliver i h b = { w with buffer := bs, delivered := d } := by
  unfold deliver
  split
  · exact ⟨_, _, rfl⟩
  · exact ⟨w.buffer, w.delivered, rfl⟩

theorem delivers_eq (i : ι) (h : EasyId) (w : World ι) (chunks : List Str) :
    ∃ bs d, chunks.foldl (deliver i h) w = { w with buffer := bs, delivered := d } := by
  induction chunks generalizing w with
  | nil => exact ⟨w.buffer, w.delivered, rfl⟩
  | cons b chunks ih =>
    obtain ⟨bs, d, e⟩ := deliver_eq i h w b
    obtain ⟨bs', d', e'⟩ := ih (w.deliver i h b)
    exact ⟨bs', d', by rw [List.foldl_cons, e', e]⟩

theorem perform_eq (w : World ι) (i : ι) (h : EasyId) (chunks : List Str) (code : CurlCode) :
    ∃ bs d, w.perform i h chunks code =
      { w with
        performs := w.performs ++ [w.performed i h chunks code]
        buffer := bs
        delivered := d } :=
  delivers_eq i h { w with performs := w.performs ++ [w.performed i h chunks code] } chunks

/-- The write callback of the handle appends to `b`. -/
def Target (w : World ι) (h : EasyId) (b : Buffer) : Prop :=
  (∃ f j, w.opts h .writeFunction = some (.callback f, j)) ∧
    ∃ j, w.opts h .writeData = some (.buffer b, j)

/-- The chunks that a handle with a target gets. -/
theorem delivers_target {i : ι} {h : EasyId} {b : Buffer} (ht : w.Target h b) (chunks : List Str) :
    chunks.foldl (deliver i h) w = { w with
      buffer := Function.update w.buffer b (w.buffer b ++ chunks.flatten)
      delivered := Function.update w.delivered i (w.delivered i ++ chunks) } := by
  induction chunks generalizing w with
  | nil => simp
  | cons c chunks ih =>
    obtain ⟨⟨f, j, hf⟩, j', hd⟩ := ht
    have e : w.deliver i h c = { w with
        buffer := Function.update w.buffer b (writeCallback c (w.buffer b))
        delivered := Function.update w.delivered i (w.delivered i ++ [c]) } := by
      simp [deliver, hf, hd]
    have ht' : (w.deliver i h c).Target h b := by rw [e]; exact ⟨⟨f, j, hf⟩, j', hd⟩
    rw [List.foldl_cons, ih ht', e]
    simp [writeCallback]

/-- A transfer on a handle with a target appends its chunks to the target. -/
theorem perform_target {h : EasyId} {b : Buffer} (ht : w.Target h b) (i : ι) (chunks : List Str)
    (code : CurlCode) : (w.perform i h chunks code).buffer b = w.buffer b ++ chunks.flatten := by
  have e := delivers_target (i := i)
    (w := { w with performs := w.performs ++ [w.performed i h chunks code] }) ht chunks
  unfold perform
  rw [e]
  exact Function.update_self ..

/-- A handle whose write callback can append to `b` only has it as its target, or discards its
chunks. -/
theorem delivers_or_discards (i : ι) {h : EasyId} {b : Buffer}
    (hd : ∀ a j, w.opts h .writeData = some (a, j) → a = .buffer b) (chunks : List Str) :
    w.Target h b ∨ chunks.foldl (deliver i h) w = w := by
  by_cases ht : w.Target h b
  · exact .inl ht
  · have hone : ∀ c, w.deliver i h c = w := by
      intro c
      unfold deliver
      split
      · rename_i f j b' j' hf hb
        cases hd _ _ hb
        exact absurd ⟨⟨f, j, hf⟩, j', hb⟩ ht
      · rfl
    refine .inr ?_
    induction chunks with
    | nil => rfl
    | cons c chunks ih => rw [List.foldl_cons, hone, ih]

/-- What is appended to `b` was delivered to the call `i`; `P` tells where that can be. -/
def Appends (i : ι) (b : Buffer) (w w' : World ι) (P : Str → Prop) : Prop :=
  ∃ chunks : List Str, w'.buffer b = w.buffer b ++ chunks.flatten ∧
    w'.delivered = Function.update w.delivered i (w.delivered i ++ chunks) ∧
    (chunks.flatten ≠ [] → P chunks.flatten)

theorem Appends.nothing {i : ι} {b : Buffer} {w w' : World ι} {P : Str → Prop}
    (hb : w'.buffer b = w.buffer b) (hd : w'.delivered = w.delivered) : Appends i b w w' P :=
  ⟨[], by simp [hb], by simp [hd], fun h => absurd rfl h⟩

theorem delivers_appends (i : ι) {h : EasyId} {b : Buffer}
    (hd : ∀ a j, w.opts h .writeData = some (a, j) → a = .buffer b) (chunks : List Str) :
    Appends i b w (chunks.foldl (deliver i h) w) fun bytes =>
      w.Target h b ∧ bytes = chunks.flatten := by
  rcases delivers_or_discards i hd chunks with ht | e
  · rw [delivers_target ht]
    exact ⟨chunks, Function.update_self .., rfl, fun _ => ⟨ht, rfl⟩⟩
  · rw [e]
    exact .nothing rfl rfl

end

/-! ## Effects -/

/-- The bytes that a step of a transfer receives. -/
def content : Choice → Str
  | .chunk b => b
  | .transfer chunks _ => chunks.flatten
  | _ => []

/-- Neither options nor buffers nor transfers change. -/
structure Quiet (w w' : World ι) : Prop where
  easyCount : w'.easyCount = w.easyCount
  opts : ∀ h, w'.opts h = w.opts h
  performs : w'.performs = w.performs
  buffer : w'.buffer = w.buffer
  delivered : w'.delivered = w.delivered

variable [DecidableEq ι] {i : ι} {o : Op} {w' : World ι} {c : Choice} {r : Option o.Res}

/-- What one step of an operation does. -/
inductive Effect (i : ι) (w : World ι) : Op → Choice → World ι → Prop where
  | quiet {o : Op} {c : Choice} {w' : World ι} : Quiet w w' → Effect i w o c w'
  | record {h : EasyId} {opt : CurlOpt} {a : Arg} {m : Nat} :
      Effect i w (.setopt (some h) opt a) .ok (({ w with misuse := m } : World ι).record i h opt a)
  | perform {h : EasyId} {chunks : List Str} {code : CurlCode} {m : Nat} :
      Effect i w (.perform (some h)) (.transfer chunks code)
        (({ w with misuse := m } : World ι).perform i h chunks code)
  | chunk {h : EasyId} {b : Str} {m : Nat} :
      Effect i w (.perform (some h)) (.chunk b) (({ w with misuse := m } : World ι).deliver i h b)
  | newEasy : Effect i w .easyInit .ok w.newEasy
  | clear {b : Buffer} :
      Effect i w (.clear b) .ok { w with buffer := Function.update w.buffer b [] }

omit [DecidableEq ι] in
theorem Quiet.misuse (w : World ι) (m : Nat) : Quiet w { w with misuse := m } :=
  ⟨rfl, fun _ => rfl, rfl, rfl, rfl⟩

omit [DecidableEq ι] in
theorem Quiet.refl (w : World ι) : Quiet w w := ⟨rfl, fun _ => rfl, rfl, rfl, rfl⟩

theorem handle_effect (hs : handle i o w c = some (r, w')) : Effect i w o c w' := by
  cases o with
  | easyInit =>
    cases c <;> cases hs
    · exact .newEasy
    · exact .quiet (.refl w)
  | setopt h opt a =>
    cases h <;> cases c <;> cases hs
    · exact .quiet (.refl w)
    · rename_i h
      obtain ⟨m, e⟩ := useSet_eq w h a
      rw [e]; exact .record
    · rename_i h n
      obtain ⟨m, e⟩ := useSet_eq w h a
      rw [e]; exact .quiet (.misuse w m)
  | perform h =>
    cases h <;> cases c <;> cases hs
    · exact .quiet (.refl w)
    · rename_i h b
      obtain ⟨m, e⟩ := use_eq w h
      rw [e]; exact .chunk
    · rename_i h chunks code
      obtain ⟨m, e⟩ := use_eq w h
      rw [e]; exact .perform
  | cleanup h =>
    cases c <;> cases hs
    obtain ⟨m, e⟩ := useEasy_eq w h
    rw [e]; exact .quiet ⟨rfl, fun h' => cleanup_opts _ h h', rfl, rfl, rfl⟩
  | slistAppend l s =>
    cases l <;> cases c <;> cases hs
    · exact .quiet ⟨rfl, fun _ => rfl, rfl, rfl, rfl⟩
    · exact .quiet (.refl w)
    · rename_i l
      obtain ⟨m, e⟩ := useSlist_eq w l
      rw [e]; exact .quiet ⟨rfl, fun _ => rfl, rfl, rfl, rfl⟩
    · rename_i l n
      obtain ⟨m, e⟩ := useSlist_eq w l
      rw [e]; exact .quiet (.misuse w m)
  | slistFreeAll l =>
    cases c <;> cases hs
    obtain ⟨m, e⟩ := useSlist_eq w l
    rw [e]; exact .quiet ⟨rfl, fun _ => rfl, rfl, rfl, rfl⟩
  | clear b => cases c <;> cases hs; exact .clear
  | read b => cases c <;> cases hs; exact .quiet (.refl w)
  | storeCert cert | unlockPolling =>
    cases c <;> cases hs; exact .quiet ⟨rfl, fun _ => rfl, rfl, rfl, rfl⟩
  | loadCert => cases c <;> cases hs; exact .quiet (.refl w)
  | lockPolling =>
    cases c
    case ok =>
      simp only [handle] at hs
      split at hs <;> cases hs
      exact .quiet ⟨rfl, fun _ => rfl, rfl, rfl, rfl⟩
    all_goals cases hs

/-- What one step of an operation does and returns, for every operation. Uses of a handle or a list
count as `m`, and `bs` and `d` are what a transfer has delivered. -/
inductive Outcome (i : ι) (w : World ι) : (o : Op) → Choice → Option o.Res → World ι → Prop where
  | easyInit : Outcome i w .easyInit .ok (some (some w.easyCount)) w.newEasy
  | noEasy {n : Nat} : Outcome i w .easyInit (.fail n) (some none) w
  | setopt {e : EasyId} {opt : CurlOpt} {a : Arg} (m : Nat) :
      Outcome i w (.setopt (some e) opt a) .ok (some .ok)
        (({ w with misuse := m } : World ι).record i e opt a)
  | setoptFails {e : Option EasyId} {opt : CurlOpt} {a : Arg} {n : Nat} (m : Nat) :
      Outcome i w (.setopt e opt a) (.fail n) (some (.error n)) { w with misuse := m }
  | chunk {e : EasyId} {b : Str} (m : Nat) (bs : Buffer → Str) (d : ι → List Str) :
      Outcome i w (.perform (some e)) (.chunk b) none
        { w with misuse := m, buffer := bs, delivered := d }
  | perform {e : EasyId} {chunks : List Str} {p : Performed ι} {code : CurlCode} (m : Nat)
      (bs : Buffer → Str) (d : ι → List Str) :
      Outcome i w (.perform (some e)) (.transfer chunks code) (some code)
        { w with misuse := m, performs := w.performs ++ [p], buffer := bs, delivered := d }
  | performFails {n : Nat} : Outcome i w (.perform none) (.fail n) (some (.error n)) w
  | cleanup {e : EasyId} (m : Nat) :
      Outcome i w (.cleanup e) .ok (some ()) (({ w with misuse := m } : World ι).cleanup e)
  | newSlist {s : Str} :
      Outcome i w (.slistAppend none s) .ok (some (some w.slistCount)) (w.newSlist s)
  | append {l : SlistId} {s : Str} (m : Nat) : Outcome i w (.slistAppend (some l) s) .ok
      (some (some l)) (({ w with misuse := m } : World ι).append l s)
  | appendFails {l : Option SlistId} {s : Str} {n : Nat} (m : Nat) :
      Outcome i w (.slistAppend l s) (.fail n) (some none) { w with misuse := m }
  | freeAll {l : SlistId} (m : Nat) :
      Outcome i w (.slistFreeAll l) .ok (some ()) (({ w with misuse := m } : World ι).freeAll l)
  | clear {b : Buffer} :
      Outcome i w (.clear b) .ok (some ()) { w with buffer := Function.update w.buffer b [] }
  | read {b : Buffer} : Outcome i w (.read b) .ok (some (w.buffer b)) w
  | storeCert {cert : Certificate} :
      Outcome i w (.storeCert cert) .ok (some ()) { w with cert := cert }
  | loadCert : Outcome i w .loadCert .ok (some w.cert) w
  | lockPolling : w.mPollingMutex = none →
      Outcome i w .lockPolling .ok (some ()) { w with mPollingMutex := some i }
  | unlockPolling : Outcome i w .unlockPolling .ok (some ()) { w with mPollingMutex := none }

theorem handle_outcome (hs : handle i o w c = some (r, w')) : Outcome i w o c r w' := by
  cases o with
  | easyInit =>
    cases c <;> cases hs
    · exact .easyInit
    · exact .noEasy
  | setopt e opt a =>
    cases e with
    | none =>
      cases c <;> cases hs
      exact .setoptFails w.misuse
    | some e =>
      obtain ⟨m, hm⟩ := useSet_eq w e a
      cases c <;> cases hs <;> rw [hm]
      · exact .setopt m
      · exact .setoptFails m
  | perform e =>
    cases e with
    | none =>
      cases c <;> cases hs
      exact .performFails
    | some e =>
      obtain ⟨m, hm⟩ := use_eq w e
      cases c <;> cases hs <;> rw [hm]
      · rename_i b
        obtain ⟨bs, d, hd⟩ := deliver_eq i e ({ w with misuse := m } : World ι) b
        rw [hd]
        exact .chunk m bs d
      · rename_i chunks code
        obtain ⟨bs, d, hd⟩ := perform_eq ({ w with misuse := m } : World ι) i e chunks code
        rw [hd]
        exact .perform m bs d
  | cleanup e =>
    obtain ⟨m, hm⟩ := useEasy_eq w e
    cases c <;> cases hs
    rw [hm]
    exact .cleanup m
  | slistAppend l s =>
    cases l with
    | none =>
      cases c <;> cases hs
      · exact .newSlist
      · exact .appendFails w.misuse
    | some l =>
      obtain ⟨m, hm⟩ := useSlist_eq w l
      cases c <;> cases hs <;> rw [hm]
      · exact .append m
      · exact .appendFails m
  | slistFreeAll l =>
    obtain ⟨m, hm⟩ := useSlist_eq w l
    cases c <;> cases hs
    rw [hm]
    exact .freeAll m
  | clear b =>
    cases c <;> cases hs
    exact .clear
  | read b =>
    cases c <;> cases hs
    exact .read
  | storeCert cert =>
    cases c <;> cases hs
    exact .storeCert
  | loadCert =>
    cases c <;> cases hs
    exact .loadCert
  | lockPolling =>
    cases c
    case ok =>
      simp only [handle] at hs
      split at hs <;> cases hs
      rename_i hfree
      exact .lockPolling (Option.isNone_iff_eq_none.mp hfree)
    all_goals cases hs
  | unlockPolling =>
    cases c <;> cases hs
    exact .unlockPolling

/-! ## Frames -/

theorem perform_opts (w : World ι) (i : ι) (h h' : EasyId) (chunks : List Str) (code : CurlCode) :
    (w.perform i h chunks code).opts h' = w.opts h' := by
  obtain ⟨bs, d, e⟩ := perform_eq w i h chunks code
  rw [e]; rfl

/-- The options of a handle change only by a `curl_easy_setopt` that succeeds, or when the handle is
made. -/
theorem Effect.handles (he : Effect i w o c w') (h : EasyId) :
    w'.opts h = w.opts h ∨
    (∃ opt a, o = .setopt (some h) opt a ∧ c = .ok ∧
      w'.opts h = Function.update (w.opts h) opt (some (a, i))) ∨
    h = w.easyCount ∧ w'.opts h = fun _ => none := by
  cases he with
  | quiet hq => exact .inl (hq.opts h)
  | @record h' opt a m =>
    by_cases e : h = h'
    · subst e; exact .inr (.inl ⟨opt, a, rfl, rfl, record_opts ..⟩)
    · exact .inl (record_opts_ne i opt a e)
  | perform => exact .inl (perform_opts ..)
  | @chunk h' b m =>
    obtain ⟨bs, d, e⟩ := deliver_eq i h' ({ w with misuse := m } : World ι) b
    rw [e]; exact .inl rfl
  | newEasy =>
    by_cases e : h = w.easyCount
    · exact .inr (.inr ⟨e, by subst e; simp [World.newEasy, World.opts, Easy.new]⟩)
    · exact .inl (newEasy_opts e)
  | clear => exact .inl rfl

theorem Effect.opts (he : Effect i w o c w') {h : EasyId} (hh : h < w.easyCount) :
    w'.opts h = w.opts h ∨ ∃ opt a, o = .setopt (some h) opt a ∧ c = .ok ∧
      w'.opts h = Function.update (w.opts h) opt (some (a, i)) := by
  rcases he.handles h with e | e | ⟨e, -⟩
  · exact .inl e
  · exact .inr e
  · exact absurd e (Nat.ne_of_lt hh)

/-- Only a `curl_easy_perform` that ends is recorded. -/
theorem Effect.performs (he : Effect i w o c w') :
    w'.performs = w.performs ∨ ∃ h chunks code, o = .perform (some h) ∧
      w'.performs = w.performs ++ [w.performed i h chunks code] := by
  cases he with
  | quiet hq => exact .inl hq.performs
  | @perform h chunks code m =>
    obtain ⟨bs, d, e⟩ := perform_eq ({ w with misuse := m } : World ι) i h chunks code
    exact .inr ⟨h, chunks, code, rfl, by rw [e]; rfl⟩
  | @chunk h b m =>
    obtain ⟨bs, d, e⟩ := deliver_eq i h ({ w with misuse := m } : World ι) b
    rw [e]; exact .inl rfl
  | record | newEasy | clear => exact .inl rfl

/-- Only a transfer on a handle with the target `b` appends to `b`. -/
theorem Effect.appends (he : Effect i w o c w') {b : Buffer} (hclear : o ≠ .clear b)
    (hd : ∀ h, o = .perform (some h) → ∀ a j, w.opts h .writeData = some (a, j) → a = .buffer b) :
    Appends i b w w' fun bytes =>
      ∃ h, o = .perform (some h) ∧ w.Target h b ∧ content c = bytes := by
  cases he with
  | quiet hq => exact .nothing (congrFun hq.buffer b) hq.delivered
  | record | newEasy => exact .nothing rfl rfl
  | @perform h chunks code m =>
    obtain ⟨cs, hb, hdel, hP⟩ := delivers_appends (w := { w with
      misuse := m
      performs := w.performs ++ [w.performed i h chunks code] }) i (hd h rfl) chunks
    exact ⟨cs, hb, hdel, fun hne => ⟨h, rfl, (hP hne).1, (hP hne).2.symm⟩⟩
  | @chunk h b' m =>
    obtain ⟨cs, hb, hdel, hP⟩ := delivers_appends (w := { w with misuse := m }) i (hd h rfl) [b']
    refine ⟨cs, hb, hdel, fun hne => ⟨h, rfl, (hP hne).1, (hP hne).2.trans ?_ |>.symm⟩⟩
    simp [content]
  | @clear b' =>
    refine .nothing (Function.update_of_ne (fun e => hclear ?_) ..) rfl
    rw [e]

theorem Effect.easyCount (he : Effect i w o c w') : w.easyCount ≤ w'.easyCount := by
  cases he with
  | quiet hq => exact Nat.le_of_eq hq.easyCount.symm
  | @perform h chunks code m =>
    obtain ⟨bs, d, e⟩ := perform_eq ({ w with misuse := m } : World ι) i h chunks code
    exact Nat.le_of_eq (congrArg World.easyCount e).symm
  | @chunk h b m =>
    obtain ⟨bs, d, e⟩ := deliver_eq i h ({ w with misuse := m } : World ι) b
    exact Nat.le_of_eq (congrArg World.easyCount e).symm
  | newEasy => exact Nat.le_succ _
  | record | clear => exact Nat.le_refl _

end World

end LibRest
