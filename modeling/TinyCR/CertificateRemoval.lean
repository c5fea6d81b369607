import TinyCR.DeviceAgreement

/-! # Removing a certificate

`removeCertificate` sends a summary whose vector of actions holds one zero, which is `AddAction`,
and whose flips are those the command before has left. The device adds the key with the value 0,
and if its filter finds the key it flips these cells back. -/
namespace CertificateRemoval

open DataPlaneOthello DASSTracker TrackerRun DASSVerifier CRIoTControl SummaryWire TinyCRServer
  DeviceAgreement

variable {K E : Type} [DecidableEq K] [Inhabited K] {S : TrackerSetup K E} {c c' : ControlVO K E}
  {d d' : Verifier E} {key : K} {u : Update K E}

/-- The removal is sent; the device adds nothing and answers every other key as before. -/
def RemovesOnly (S : TrackerSetup K E) (c : ControlVO K E) (d : Verifier E) (key : K) : Prop :=
  ∃ u c' d', removeCertificate S c key = .ok (u, c') ∧ receive S d u = some d' ∧
    (∀ flipped_indexes kvs actions, u = .summary flipped_indexes kvs actions →
      ∀ e ∈ entries flipped_indexes kvs actions, e.action ≠ SummaryWire.AddAction) ∧
    ∀ j, j ≠ key → DASSVerifier.query S d' j = DASSVerifier.query S d j

theorem removeCertificate_update (h : removeCertificate S c key = .ok (u, c')) :
    u = .summary c.flipped_indexes [(key, 0)] [SummaryWire.AddAction] := by
  obtain ⟨c₁, herase, h⟩ := ControlPlaneOthello.of_bind_ok h
  obtain ⟨rfl, -⟩ := Prod.mk.inj (Except.ok.inj h)
  obtain ⟨t, -, rfl⟩ := of_map_ok herase
  rfl

theorem receive_removal (h : removeCertificate S c key = .ok (u, c')) (d : Verifier E) :
    receive S d u = some (if DASSVerifier.lookup S d key = true then
      flipUnlessRebuild d c.flipped_indexes else d) := by
  rw [removeCertificate_update h, receive_one, perform_add, DASSVerifier.insert, flipUnlessRebuild]
  split
  case isTrue => simp
  case isFalse =>
    split
    case isTrue => simp
    case isFalse =>
      rw [if_neg (by simp)]
      split <;> rfl

/-- No removal leaves the other keys of any device alone without being taken for an addition. -/
theorem removal_adds (c : ControlVO K E) (d : Verifier E) (key : K) : ¬ RemovesOnly S c d key := by
  rintro ⟨u, c', d', hremove, -, hactions, -⟩
  have hsent := removeCertificate_update hremove
  exact hactions _ _ _ hsent _ (List.mem_singleton_self _) rfl

theorem addingRun_facts : addingRun.map (fun p =>
    ((DASSTracker.erase smallTracker p.2 18).toOption.isSome,
      DASSVerifier.lookup smallTracker (install p.2) 18,
      DASSVerifier.query smallTracker (flipUnlessRebuild (install p.2) [1]) 100)) =
        some (true, true, 0) := by decide +kernel

/-- The device that was in agreement with the server answers the revoked key 100 with 0. -/
theorem removal_unsets : ∃ (c₀ c c' : ControlVO ℕ ℕ) (r : Record ℕ ℕ) (reg : ℕ → Option Bool)
    (d d' : Verifier ℕ), Session smallTracker c₀ [r] c reg ∧ r.command = .add (100, 1) ∧
      deviceAfter smallTracker c₀ [r] = some d ∧ d = install c.vo_control ∧
      18 ∈ c.vo_control.NK ∧ removeCertificate smallTracker c 18 =
        .ok (.summary [1] [(18, 0)] [SummaryWire.AddAction], c') ∧
      receive smallTracker d (.summary [1] [(18, 0)] [SummaryWire.AddAction]) = some d' ∧
      DASSVerifier.query smallTracker d 100 = 1 ∧ DASSVerifier.query smallTracker d' 100 = 0 := by
  obtain ⟨⟨t, t'⟩, h, hfacts⟩ := Option.map_eq_some_iff.mp addingRun_facts
  simp only [Prod.mk.injEq] at hfacts
  obtain ⟨herase, hl, hquery⟩ := hfacts
  obtain ⟨hrun, hnew, hserved⟩ := addingRun_session h
  have hsession := Session.add (b := true) (.start hrun) hnew.1 hnew.2 hserved
  obtain ⟨events, hrun'⟩ := hsession.run
  obtain ⟨-, hreg⟩ := hrun'.reached.consistent
  obtain ⟨hdevice, -⟩ := Session.copies hsession fun r hr key hrev => by
    rw [List.mem_singleton.mp hr] at hrev
    cases hrev
  have hone : CRIoTControl.query smallTracker ⟨t', install t, [1]⟩ 100 = 1 :=
    (hrun'.answers 100).2 true (by simp)
  cases her : DASSTracker.erase smallTracker t' 18 with
  | error f =>
    rw [her] at herase
    cases herase
  | ok t₁ =>
    have hremove : removeCertificate smallTracker ⟨t', install t, [1]⟩ 18 =
        .ok (.summary [1] [(18, 0)] [SummaryWire.AddAction], ⟨t₁, install t, [1]⟩) := by
      rw [removeCertificate, CRIoTControl.erase, her]
      rfl
    have hreceive := receive_removal hremove (install t')
    rw [if_pos hl] at hreceive
    exact ⟨_, _, _, _, _, _, _, hsession, rfl, hdevice, rfl, (hreg.NK 18).mpr (by simp [startReg]),
      hremove, hreceive, (query_install t' 100).trans hone, hquery⟩

end CertificateRemoval
