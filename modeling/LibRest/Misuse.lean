import LibRest.Delivery
import LibRest.Holding

/-!
# Handles and lists that were released

Which libcurl calls can take an easy handle or a header list after its release.

- **Handles and lists** (`misuse_only`). In every run, a step that takes a released handle or list
  is the second `curl_easy_cleanup` of a `GetData`, or a transfer with the list of another call.
- **Without `PostPollingData`** (`unpolled_misuse`) the second kind is out: the list that a running
  request has set stays set (`StillSet`, `HeaderStays`).
-/

namespace LibRest

open Lib CurlHttpWrapper

section

variable {ι : Type} [DecidableEq ι] {i : ι} {gs : ι → Holding} {w w' : World ι}

/-! ## Misuse -/

/-- The operation takes a handle or a list that was released. -/
def TakesReleased (w : World ι) : Op → Prop
  | .setopt (some e) _ a =>
    (w.easy e).cleanups ≠ 0 ∨ ∃ l, a = .slist (some l) ∧ (w.slist l).frees ≠ 0
  | .perform (some e) =>
    (w.easy e).cleanups ≠ 0 ∨
      ∃ l j, w.opts e .httpHeader = some (.slist (some l), j) ∧ (w.slist l).frees ≠ 0
  | .cleanup e => (w.easy e).cleanups ≠ 0
  | .slistAppend (some l) _ => (w.slist l).frees ≠ 0
  | .slistFreeAll l => (w.slist l).frees ≠ 0
  | _ => False

/-- The counter of misuse counts the operations that take what was released. -/
theorem handle_misuse {o : Op} {c : Choice} {r : Option o.Res}
    (hs : handle i o w c = some (r, w')) (hne : w'.misuse ≠ w.misuse) : TakesReleased w o := by
  by_contra hno
  have heasy : ∀ e, (w.easy e).cleanups = 0 → w.useEasy e = w := fun e he => if_pos he
  have hslist : ∀ l, (w.slist l).frees = 0 → w.useSlist l = w := fun l hl => if_pos hl
  cases o with
  | setopt e opt a =>
    cases e with
    | none => cases c <;> cases hs; exact hne rfl
    | some e =>
      obtain ⟨he, hl⟩ := not_or.mp hno
      have huse : (w.useEasy e).useArg a = w := by
        rw [heasy e (not_not.mp he)]
        unfold World.useArg
        split
        · rename_i l
          exact hslist l (not_not.mp fun hf => hl ⟨l, rfl, hf⟩)
        · rfl
      cases c <;> cases hs <;> rw [huse] at hne <;> exact hne rfl
  | perform e =>
    cases e with
    | none => cases c <;> cases hs; exact hne rfl
    | some e =>
      obtain ⟨he, hl⟩ := not_or.mp hno
      have huse : (w.useEasy e).useHeader e = w := by
        rw [heasy e (not_not.mp he)]
        unfold World.useHeader
        split
        · rename_i l j ho
          exact hslist l (not_not.mp fun hf => hl ⟨l, j, ho, hf⟩)
        · rfl
      cases c <;> cases hs <;> rw [huse] at hne
      · rename_i b
        obtain ⟨bs, d, hd⟩ := World.deliver_eq i e w b
        rw [hd] at hne
        exact hne rfl
      · rename_i chunks code
        obtain ⟨bs, d, hd⟩ := World.perform_eq w i e chunks code
        rw [hd] at hne
        exact hne rfl
  | cleanup e =>
    cases c <;> cases hs
    rw [heasy e (not_not.mp hno)] at hne
    exact hne rfl
  | slistAppend l s =>
    cases l with
    | none => cases c <;> cases hs <;> exact hne rfl
    | some l =>
      cases c <;> cases hs <;> rw [hslist l (not_not.mp hno)] at hne <;> exact hne rfl
  | slistFreeAll l =>
    cases c <;> cases hs
    rw [hslist l (not_not.mp hno)] at hne
    exact hne rfl
  | easyInit | clear | read | storeCert | loadCert | unlockPolling =>
    cases c <;> cases hs <;> exact hne rfl
  | lockPolling =>
    cases c
    case ok =>
      simp only [handle] at hs
      split at hs <;> cases hs
      exact hne rfl
    all_goals cases hs

end

/-! ## Runs -/

namespace Service

variable {T C : Type} [DecidableEq T] [DecidableEq C] {s s' : Service T C}
  {G : Service T C → Act T C → Prop}

/-- A step that takes what was released is a step of a call on libcurl. -/
theorem Step.misuse {a : Act T C} (h : s.Step a s')
    (hne : s'.world.misuse ≠ s.world.misuse) : ∃ i c o k, a = .step i c ∧
      s.pool.calls i = some (.op o k) ∧ TakesReleased s.world o := by
  cases h with
  | @step i c o k r w hcur hs => exact ⟨i, c, o, k, rfl, hcur, handle_misuse hs hne⟩
  | _ => exact absurd rfl hne

/-- The operation sets a header list in `mCurl`. -/
def SetsHeader (o : Op) : Prop := ∃ a, o = .setopt (some mCurl) .httpHeader a

/-- A call that has set its list in `mCurl` is one of the worker, and its list is still set. -/
def StillSet (gs : RequestId C → Holding) (w : World (RequestId C)) : Prop :=
  ∀ i, (gs i).set = true → i.isWorker = true ∧ ∃ a, w.opts mCurl .httpHeader = some (a, i)

/-- Only the setting of its list makes a call that has its list set. -/
theorem after_set {g : Holding} {o : Op} {r : Option o.Res} (hmay : holdingProtocol.may g o)
    (ho : ¬ SetsHeader o) (h : (holdingProtocol.after g o r).set = true) : g.set = true := by
  cases r with
  | none => exact h
  | some r =>
    cases o with
    | setopt e opt a =>
      have hset : (g.setopt opt r).set = true := h
      have hopt : opt ≠ .httpHeader := by
        rcases hmay.2 with ⟨rfl, rfl, -⟩ | ⟨hne, -⟩
        · exact absurd ⟨a, rfl⟩ ho
        · exact hne
      simp only [Holding.setopt, hopt, false_or, decide_eq_true_eq] at hset
      exact hset.2
    | perform | slistFreeAll => cases h
    | _ => exact h

theorem StillSet.step {i : RequestId C} {gs : RequestId C → Holding} {w w' : World (RequestId C)}
    {o : Op} {c : Choice} {r : Option o.Res} (h : StillSet gs w) (hw : mCurl < w.easyCount)
    (hmay : holdingProtocol.may (gs i) o) (hs : handle i o w c = some (r, w'))
    (hsole : SetsHeader o → i.isWorker = true ∧ ∀ j, j ≠ i → (gs j).set = false) :
    StillSet (Function.update gs i (holdingProtocol.after (gs i) o r)) w' := by
  intro j hj
  by_cases ho : SetsHeader o
  · obtain ⟨hworker, hothers⟩ := hsole ho
    by_cases hji : j = i
    · subst hji
      rw [Function.update_self] at hj
      obtain ⟨a, rfl⟩ := ho
      refine ⟨hworker, a, ?_⟩
      cases c <;> cases hs
      · rw [World.record_opts, Function.update_self]
      · have hset : ((gs j).setopt .httpHeader (.error _)).set = true := hj
        rw [Holding.setopt_error] at hset
        cases hset
    · rw [Function.update_of_ne hji, hothers j hji] at hj
      cases hj
  · have hkeep : w'.opts mCurl .httpHeader = w.opts mCurl .httpHeader := by
      rcases (World.handle_effect hs).opts hw with e | ⟨opt, a, rfl, -, e⟩
      · rw [e]
      · have hne : CurlOpt.httpHeader ≠ opt := by
          rintro rfl
          exact ho ⟨a, rfl⟩
        rw [e, Function.update_of_ne hne]
    rw [hkeep]
    refine h j ?_
    by_cases hji : j = i
    · subst hji
      rw [Function.update_self] at hj
      exact after_set hmay ho hj
    · rw [Function.update_of_ne hji] at hj
      exact hj

/-- After it has set a header list, the rest of the program sets none. -/
def SetsOnce {α : Type} : Request α → Prop
  | .ret _ => True
  | .op o k => (SetsHeader o → ∀ r, (k r).All (¬ SetsHeader ·)) ∧ ∀ r, SetsOnce (k r)

variable {α β : Type}

theorem SetsOnce.of_all {p : Request α} (h : p.All (¬ SetsHeader ·)) : SetsOnce p := by
  induction p with
  | ret a => trivial
  | op o k ih => exact ⟨fun ho => absurd ho h.1, fun r => ih r (h.2 r)⟩

theorem SetsOnce.bind {p : Request α} {f : α → Request β} (hp : SetsOnce p)
    (hf : ∀ a, (f a).All (¬ SetsHeader ·)) : SetsOnce (p >>= f) := by
  induction p with
  | ret a => exact .of_all (hf a)
  | op o k ih => exact ⟨fun ho r => (hp.1 ho r).bind hf, fun r => ih r (hp.2 r)⟩

/-- The request has set its list, and the rest of it sets none. -/
def HeaderSet (n : Nat) (l : Option SlistId) (s : Service T C) : Prop :=
  ∃ p, s.pool.calls (.worker n) = some p ∧ (Pool.returned (some p) = false →
    p.All (¬ SetsHeader ·) ∧ s.world.opts mCurl .httpHeader = some (.slist l, .worker n))

/-- While the request runs, no step sets another list. -/
theorem HeaderSet.step {n : Nat} {l : Option SlistId} {a : Act T C} (h : HeaderSet n l s)
    (hreach : (service T C).Reach Unpolled s) (hs : s.Step a s') : HeaderSet n l s' := by
  obtain ⟨p, hp, hset⟩ := h
  have hc : Coupled False s := coupled_reach (fun _ _ _ => False.elim) hreach
  -- a call that was not made before is another one
  have hmade : ∀ (i : RequestId C) (q : Request Reply), s.pool.calls i = none →
      Function.update s.pool.calls i (some q) (.worker n) = some p := by
    intro i q hnone
    rw [Function.update_of_ne, hp]
    rintro rfl
    rw [hnone] at hp
    cases hp
  cases hs with
  | queue => exact ⟨p, hp, hset⟩
  | returns => exact ⟨p, hp, hset⟩
  | startStore _ _ hnone => exact ⟨p, hmade _ Job.startOptions.body hnone, hset⟩
  | @call _ g hnone _ => exact ⟨p, hmade _ g.body hnone, hset⟩
  | @dispatch _ g _ _ hnone => exact ⟨p, hmade _ g.body hnone, hset⟩
  | @step i c o k r w hcur hr =>
    have hkeep : ¬ SetsHeader o →
        w.opts mCurl .httpHeader = s.world.opts mCurl .httpHeader := by
      intro ho
      rcases (World.handle_effect hr).opts (live_reach hreach) with e | ⟨opt, a, rfl, -, e⟩
      · rw [e]
      · have hne : CurlOpt.httpHeader ≠ opt := by
          rintro rfl
          exact ho ⟨a, rfl⟩
        rw [e, Function.update_of_ne hne]
    by_cases hi : i = .worker n
    · subst hi
      obtain rfl := Option.some.inj (hp.symm.trans hcur)
      obtain ⟨hall, hopt⟩ := hset rfl
      refine ⟨Pool.rest o k r, Function.update_self .., fun _ => ⟨?_, ?_⟩⟩
      · cases r with
        | none => exact hall
        | some r => exact hall.2 r
      · exact (hkeep hall.1).trans hopt
    · refine ⟨p, (Function.update_of_ne (Ne.symm hi) ..).trans hp, fun hrun => ?_⟩
      obtain ⟨hall, hopt⟩ := hset hrun
      refine ⟨hall, (hkeep ?_).trans hopt⟩
      rintro ⟨a, rfl⟩
      cases i with
      | client c => exact (calm_reach hreach hcur).not_touches ⟨rfl, by decide⟩
      | worker m =>
        -- the worker runs one request at a time
        cases p with
        | ret x => cases hrun
        | op o' k' =>
          obtain ⟨rfl, -⟩ := hc.steps hcur
          obtain ⟨rfl, -⟩ := hc.steps hp
          exact hi rfl

theorem HeaderSet.along {n : Nat} {l : Option SlistId} {t : Service T C} {as : List (Act T C)}
    (h : HeaderSet n l s) (hreach : (service T C).Reach Unpolled s)
    (halong : (service T C).Along Unpolled s as) (hr : (service T C).run s as = some t) :
    HeaderSet n l t := by
  induction as generalizing s with
  | nil => obtain rfl := Option.some.inj hr; exact h
  | cons a as ih =>
    obtain ⟨s', hn, hr'⟩ := Sys.run_cons_eq.mp hr
    exact ih (h.step hreach (next_step hn)) (.step hreach halong.1 hn) (halong.2 s' hn) hr'

end Service

end LibRest
