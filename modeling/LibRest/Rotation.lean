import LibRest.History

/-!
# Changing the certificate

`SetCertificateAttributes` stores the new certificate and then writes the seven TLS options of
`mCurl` one by one (`CurlHttpWrapper.cpp`). Nothing is taken back when an option fails.

- **How far a change gets** (`written`). The calls before the first one that fails.
- **What it leaves** (`Rotated`). The stored certificate is the new one in any case; the options up
  to the first failure are new, the others are as before.
-/

namespace LibRest

open Lib

namespace CurlHttpWrapper

variable {ι : Type} [DecidableEq ι] {i : ι} {w w' : World ι} {cert : Certificate}
  {status : HttpStatus} {cs : List Choice}

/-- How many of the seven checked calls succeed before one fails. The certificate is stored and
loaded, and the error buffer is set, before them. -/
def written (cs : List Choice) : Nat := ((cs.drop 3).takeWhile fun c => c = .ok).length

/-- A change to `cert` that wrote `n` options, in the order of `UpdateTLSInfo`. -/
structure Rotated (cert : Certificate) (n : Nat) (w : World ι) (status : HttpStatus)
    (w' : World ι) : Prop where
  stored : w'.cert = cert
  success : status = .success ↔ n = (tlsValues cert).length
  new : ∀ p ∈ (tlsValues cert).reverse.take n, ∃ j, w'.opts mCurl p.1 = some (p.2, j)
  old : ∀ p ∈ (tlsValues cert).reverse.drop n, w'.opts mCurl p.1 = w.opts mCurl p.1

theorem Stops.takeWhile {set left : List (CurlOpt × Arg)} (h : Stops set [] left status cs) :
    (cs.takeWhile fun c => c = .ok).length = set.length ∧ (status = .success ↔ left = []) := by
  cases h with
  | all => simp
  | fails => simp

theorem exec_rotates
    (hr : Prog.exec (handle i) (setCertificateAttributes cert) w cs = some (status, w', [])) :
    Rotated cert (written cs) w status w' := by
  obtain ⟨c₀, _, _, w₁, rfl, e₀, hr₁⟩ := Prog.exec_call hr
  cases c₀ <;> cases e₀
  obtain ⟨c₁, c₂, cs', S, set, left, rfl, e, hs, hstop⟩ := exec_updateTLSInfo hr₁
  replace e : (tlsValues cert).reverse = set ++ left := e
  obtain ⟨hlen, hst⟩ := hstop.takeWhile
  have hn : written (.ok :: c₁ :: c₂ :: cs') = set.length := hlen
  have hsum : (tlsValues cert).length = set.length + left.length := by
    rw [← List.length_reverse, e, List.length_append]
  have hnd : ((set ++ left).map Prod.fst).Nodup := by
    rw [← e, List.map_reverse]
    exact List.nodup_reverse.mpr (tlsValues_nodup cert)
  rw [hn]
  refine ⟨hs.cert, ?_, fun p hp => ?_, fun p hp => ?_⟩
  · rw [hst, hsum, ← List.length_eq_zero_iff]
    omega
  · rw [e, List.take_left] at hp
    exact hs.known p (List.mem_reverse.mpr hp)
  · rw [e, List.drop_left] at hp
    refine hs.other p.1 (fun hb => ?_) fun hmem => ?_
    · have hmem : p ∈ tlsValues cert := by
        rw [← List.mem_reverse, e]
        exact List.mem_append_right _ hp
      exact (tlsValues_options hmem).2.1 (List.mem_singleton.mp hb)
    · rw [List.map_reverse, List.mem_reverse] at hmem
      rw [List.map_append] at hnd
      exact (List.nodup_append.mp hnd).2.2 _ hmem _ (List.mem_map_of_mem hp) rfl

omit [DecidableEq ι] in
/-- After a successful change all seven options agree with the certificate's C strings. -/
theorem Rotated.protects {n : Nat} (h : Rotated cert n w status w') (hst : status = .success) :
    Protected cert (w'.opts mCurl) := by
  intro p hp
  refine h.new p ?_
  rw [h.success.mp hst, ← List.length_reverse, List.take_length]
  exact List.mem_reverse.mpr hp

/-- The requests with a body that follow perform with what the change left. -/
theorem Rotated.performs {n : Nat} {g : Call} {w'' : World ι} {r : Reply} {ps : List (Performed ι)}
    (h : Rotated cert n w status w') (hg : g.sends.isSome = true)
    (hr : g.body.Returns (handle i) w' r w'') (hps : w''.performs = w'.performs ++ ps) :
    ∀ q ∈ ps, (∀ p ∈ (tlsValues cert).reverse.take n, ∃ j, q.opts p.1 = some (p.2, j)) ∧
      ∀ p ∈ (tlsValues cert).reverse.drop n, q.opts p.1 = w.opts mCurl p.1 := by
  obtain ⟨⟨method, url, data⟩, hsends⟩ := Option.isSome_iff_exists.mp hg
  have hsent := Prog.wp_returns (wp_sends (.refl (handle i)) (A := fun _ _ => True)
    (fun t w => Prog.wp_mono (wp_addSecurityHeaders (.refl _) t w) fun _ _ hl => ⟨hl, trivial⟩)
    hsends w') hr
  have hbody : ∀ p ∈ (tlsValues cert).reverse, p.1 ∉ bodyOptions := fun p hp =>
    (tlsValues_options (List.mem_reverse.mp hp)).2.2
  intro q hq
  rcases hsent.outcome with ⟨hnone, -, -⟩ | ⟨q', hone, -, -, -, -, -, hopts⟩
  · obtain rfl : ps = [] := List.append_cancel_left ((hps.symm.trans hnone).trans
      (List.append_nil _).symm)
    cases hq
  · obtain rfl : ps = [q'] := List.append_cancel_left (hps.symm.trans hone)
    obtain rfl := List.mem_singleton.mp hq
    constructor
    · intro p hp
      rw [hopts p.1 (hbody p (List.mem_of_mem_take hp))]
      exact h.new p hp
    · intro p hp
      rw [hopts p.1 (hbody p (List.mem_of_mem_drop hp))]
      exact h.old p hp

/-- **Changing the certificate.** For all outcomes of the calls: the stored certificate is the new
one; the options that `UpdateTLSInfo` writes before its first failing call are new, that one and the
later ones are as before; the status is `SUCCESS` exactly when none fails, and then all seven
options agree with the certificate's fields as C strings, so with the fields themselves exactly if
these have no zero byte. -/
theorem change_of_certificate
    (hr : Prog.exec (handle i) (setCertificateAttributes cert) w cs = some (status, w', [])) :
    Rotated cert (written cs) w status w' ∧
      (status = .success → Protected cert (w'.opts mCurl) ∧
        (HasFields cert (w'.opts mCurl) ↔ cert.ZeroFree)) := by
  have hrot := exec_rotates hr
  exact ⟨hrot, fun hst => ⟨hrot.protects hst, (hrot.protects hst).hasFields_iff⟩⟩

/-- `mCurl` after a successful change from a started wrapper. -/
def certified (cert : Certificate) : World Unit :=
  (tlsValues cert).foldr (fun p w => w.record () mCurl p.1 p.2) { afterStart with cert := cert }

def otherCert : Certificate := ⟨[6], [7], [8], [9], [10]⟩

/-- The outcomes of a change that fails at its second option. -/
def secondFails : List Choice := [.ok, .ok, .ok, .ok, .fail 58]

/-- A change that fails at its second option, and one that succeeds. -/
theorem change_of_certificate_second :
    (∃ w', Prog.exec (handle ()) (setCertificateAttributes otherCert) (certified someCert)
        secondFails = some (.failure, w', []) ∧
      written secondFails = 1 ∧
      Rotated otherCert (written secondFails) (certified someCert) .failure w') ∧
    ∃ w', Prog.exec (handle ()) (setCertificateAttributes otherCert) (certified someCert)
        (List.replicate 10 .ok) = some (.success, w', []) ∧
      HasFields otherCert (w'.opts mCurl) := by
  have hfail : ∃ w', Prog.exec (handle ()) (setCertificateAttributes otherCert)
      (certified someCert) secondFails = some (.failure, w', []) := ⟨_, rfl⟩
  have hall : ∃ w', Prog.exec (handle ()) (setCertificateAttributes otherCert)
      (certified someCert) (List.replicate 10 .ok) = some (.success, w', []) := ⟨_, rfl⟩
  obtain ⟨w₁, hr₁⟩ := hfail
  obtain ⟨w₂, hr₂⟩ := hall
  exact ⟨⟨w₁, hr₁, by decide, (change_of_certificate hr₁).1⟩, w₂, hr₂,
    ((change_of_certificate hr₂).2 rfl).2.mpr (by decide)⟩

/-- The change takes place as a whole or not at all. -/
def AllOrNothing (cert : Certificate) (w : World ι) (status : HttpStatus) (w' : World ι) : Prop :=
  (status = .success → w'.cert = cert ∧ HasFields cert (w'.opts mCurl)) ∧
  (status ≠ .success → w'.cert = w.cert ∧
    ∀ p ∈ tlsValues cert, w'.opts mCurl p.1 = w.opts mCurl p.1)

/-- A certificate whose password has a zero byte. -/
def cutCert : Certificate := ⟨[6, 0, 6], [7], [8], [9], [10]⟩

/-- The change that fails at its second option leaves the new certificate type with the old
certificate, and the new certificate stored. The change to a password with a zero byte succeeds, and
sets the password up to this byte. -/
theorem change_half_done :
    (∃ w', (setCertificateAttributes otherCert).Returns (handle ()) (certified someCert) .failure
        w' ∧
      w'.cert = otherCert ∧ w'.opts mCurl .sslCertType = some (.text otherCert.strKeyType, ()) ∧
      w'.opts mCurl .sslCert = some (.text someCert.strCertificate, ()) ∧
      ¬ AllOrNothing otherCert (certified someCert) .failure w') ∧
    ∃ w', (setCertificateAttributes cutCert).Returns (handle ()) (certified someCert) .success w' ∧
      w'.opts mCurl .keyPasswd = some (.text [6], ()) ∧
      ¬ AllOrNothing cutCert (certified someCert) .success w' := by
  constructor
  · refine ⟨_, ⟨secondFails, rfl⟩, rfl, by decide, by decide, fun h => ?_⟩
    have hcert := (h.2 nofun).1
    exact absurd hcert (by decide)
  · obtain ⟨w', hr, hpass⟩ : ∃ w', (setCertificateAttributes cutCert).Returns (handle ())
        (certified someCert) .success w' ∧ w'.opts mCurl .keyPasswd = some (.text [6], ()) :=
      ⟨_, ⟨List.replicate 10 .ok, rfl⟩, by decide⟩
    refine ⟨w', hr, hpass, fun h => ?_⟩
    obtain ⟨j, e⟩ := (h.1 rfl).2.passphrase
    rw [hpass] at e
    cases e

end CurlHttpWrapper

end LibRest
