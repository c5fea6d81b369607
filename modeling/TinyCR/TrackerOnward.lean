import TinyCR.TrackerFrame
import TinyCR.DASSVerifier

/-! # What becomes of a key later

Fresh keys are inserted, other keys are changed and the structure is rebuilt. A registered key keeps
its answer through all of that. A key that `setValue` found answered with 1 by chance is not
registered, and is answered with 0 once the key whose fingerprint it shares is gone. -/
namespace TrackerOnward

open ControlPlaneOthello OthelloInvariant OthelloRun VacuumFilter DASSTracker TrackerInvariant
  TrackerRun DASSVerifier TrackerFrame PackedCells

variable {K E : Type} [DecidableEq K] [Inhabited K] {S : TrackerSetup K E} {t t' : Tracker K E}
  {k : K} {b : Bool}

/-- The states that updates of other keys and rebuilds lead to. -/
inductive Onward (S : TrackerSetup K E) (k : K) (t : Tracker K E) : Tracker K E → Prop
  | here : Onward S k t t
  | insert {t₁ j b r t₂} : Onward S k t t₁ → j ∉ t₁.PK → j ∉ t₁.NK →
      DASSTracker.insert S t₁ (j, Bool.toNat b) = .ok r → Settled S r t₂ → Onward S k t t₂
  | setValue {t₁ j b r t₂} : Onward S k t t₁ → j ∈ t₁.PK ∨ j ∈ t₁.NK → j ≠ k →
      setValue S t₁ (j, Bool.toNat b) = .ok r → Settled S r t₂ → Onward S k t t₂
  | rebuild {t₁ pos neg n done t₂} : Onward S k t t₁ → Enumerates t₁ pos neg →
      rebuild S n t₁ pos neg = .ok (done, t₂) → Fits t₂.vf → Onward S k t t₂

/-- The key that was revoked, though nothing had registered it, is answered with 1 ever after. -/
def StaysRevoked (S : TrackerSetup K E) (t : Tracker K E) (k : K) : Prop :=
  ∀ r t₁ t₂, setValue S t (k, 1) = .ok r → Settled S r t₁ → Onward S k t₁ t₂ →
    query S t₂ k = 1

theorem Settled.keeps {flipped : List ℕ} {t₁ : Tracker K E} (h : Settled S (flipped, t₁) t')
    (hd : Disjoint t₁.PK t₁.NK) (hc : flipped ≠ rebuildMarker → Consistent S t₁) :
    Consistent S t' ∧ t'.PK = t₁.PK ∧ t'.NK = t₁.NK := by
  cases h with
  | keep hne => exact ⟨hc hne, rfl, rfl⟩
  | rebuild he hrun hfit => exact rebuild_ok he hd hrun hfit

theorem Consistent.inserted (h : Consistent S t) (hP : k ∉ t.PK) (hN : k ∉ t.NK)
    {r : List ℕ × Tracker K E} (hrun : DASSTracker.insert S t (k, b.toNat) = .ok r)
    (hs : Settled S r t') : Consistent S t' ∧ t.PK ⊆ t'.PK ∧ t.NK ⊆ t'.NK := by
  obtain ⟨flipped, t₁⟩ := r
  obtain ⟨hPK, hNK, hc⟩ := h.insert_ok hP hN hrun
  have hd : Disjoint t₁.PK t₁.NK := by
    rw [hPK, hNK]
    cases b
    · exact Finset.disjoint_insert_right.mpr ⟨hP, h.disjoint⟩
    · exact Finset.disjoint_insert_left.mpr ⟨hN, h.disjoint⟩
  obtain ⟨hcons, hP', hN'⟩ := Settled.keeps hs hd hc
  rw [hP', hN', hPK, hNK]
  refine ⟨hcons, ?_, ?_⟩
  · cases b
    · exact Finset.Subset.refl _
    · exact Finset.subset_insert _ _
  · cases b
    · exact Finset.subset_insert _ _
    · exact Finset.Subset.refl _

theorem Consistent.changed (h : Consistent S t) {r : List ℕ × Tracker K E} {t₁ : Tracker K E}
    (hPK : r.2.PK = (if b then Insert.insert k t.PK else t.PK.erase k))
    (hNK : r.2.NK = (if b then t.NK.erase k else Insert.insert k t.NK))
    (hc : r.1 ≠ rebuildMarker → Consistent S r.2) (hs : Settled S r t₁) :
    Consistent S t₁ ∧ t₁.PK = (if b then Insert.insert k t.PK else t.PK.erase k) ∧
      t₁.NK = (if b then t.NK.erase k else Insert.insert k t.NK) := by
  have hd : Disjoint r.2.PK r.2.NK := by
    rw [hPK, hNK]
    cases b
    · refine Finset.disjoint_insert_right.mpr ⟨Finset.notMem_erase k _, ?_⟩
      exact h.disjoint.mono_left (Finset.erase_subset k _)
    · refine Finset.disjoint_insert_left.mpr ⟨Finset.notMem_erase k _, ?_⟩
      exact h.disjoint.mono_right (Finset.erase_subset k _)
  obtain ⟨hcons, hP', hN'⟩ := Settled.keeps hs hd hc
  exact ⟨hcons, hP'.trans hPK, hN'.trans hNK⟩

theorem Onward.consistent (h : Onward S k t t') (hc : Consistent S t) :
    Consistent S t' ∧ (k ∈ t.PK → k ∈ t'.PK) ∧ (k ∈ t.NK → k ∈ t'.NK) := by
  induction h with
  | here => exact ⟨hc, id, id⟩
  | insert _ hP hN hrun hs ih =>
    obtain ⟨hcons, hPK, hNK⟩ := ih
    obtain ⟨hcons', hP', hN'⟩ := Consistent.inserted hcons hP hN hrun hs
    exact ⟨hcons', fun hk => hP' (hPK hk), fun hk => hN' (hNK hk)⟩
  | @setValue t₁ j b r t₂ _ hj hne hrun hs ih =>
    obtain ⟨hcons, hPK, hNK⟩ := ih
    obtain ⟨hP, hN, hc₁⟩ := hcons.setValue_ok hj hrun
    obtain ⟨hcons', hP', hN'⟩ := Consistent.changed hcons hP hN hc₁ hs
    rw [hP', hN']
    refine ⟨hcons', fun hk => ?_, fun hk => ?_⟩
    · cases b
      · exact Finset.mem_erase.mpr ⟨hne.symm, hPK hk⟩
      · exact Finset.mem_insert_of_mem (hPK hk)
    · cases b
      · exact Finset.mem_insert_of_mem (hNK hk)
      · exact Finset.mem_erase.mpr ⟨hne.symm, hNK hk⟩
  | rebuild _ he hrun hfit ih =>
    obtain ⟨hcons, hPK, hNK⟩ := ih
    obtain ⟨hcons', hP', hN'⟩ := rebuild_ok he hcons.disjoint hrun hfit
    rw [hP', hN']
    exact ⟨hcons', hPK, hNK⟩

theorem Onward.emptied {t₁ : Tracker K E} (h : Onward S k t t₁) (hc : Consistent S t₁)
    (hk : k ∉ t₁.PK) : ∃ t₂, Onward S k t t₂ ∧ Consistent S t₂ ∧ t₂.PK = ∅ := by
  generalize hn : t₁.PK.card = n
  induction n generalizing t₁ with
  | zero => exact ⟨t₁, h, hc, Finset.card_eq_zero.mp hn⟩
  | succ n ih =>
    obtain ⟨p, hp⟩ := Finset.card_pos.mp (hn ▸ Nat.succ_pos n : 0 < t₁.PK.card)
    obtain ⟨flipped, t₂, hrun, hPK, -, hc₂⟩ := hc.changeToNegative_spec hp
    have hne : p ≠ k := fun heq => hk (heq ▸ hp)
    have hset : DASSTracker.setValue S t₁ (p, Bool.toNat false) = .ok (flipped, t₂) :=
      (setValue_negative (hc.query_positive hp)).trans hrun
    have hmark := not_marker hc.othello (changeToNegative_stepped hc.othello hrun).log
    refine ih (h.setValue (Or.inl hp) hne hset (.keep hmark)) hc₂ (fun hc' => ?_) ?_
    · exact hk (Finset.mem_of_mem_erase (hPK ▸ hc'))
    · rw [hPK, Finset.card_erase_of_mem hp, hn, Nat.add_sub_cancel]

theorem Consistent.query_of_empty (h : Consistent S t) (hPK : t.PK = ∅) : query S t k = 0 := by
  apply query_of_not_lookup
  rw [← Bool.not_eq_true, lookup_iff h.valid, h.contents, hPK]
  exact Multiset.notMem_zero _

theorem Consistent.query_lt (h : Consistent S t) (k : K) : query S t k < 2 := by
  rw [DASSTracker.query]
  split
  case isFalse => exact Nat.zero_lt_two
  case isTrue =>
    rw [ControlPlaneOthello.query, if_pos (plain S).dataPlane, Option.getD_some]
    obtain ⟨ha, -, hb⟩ := getIndices_bounds (P := S.othello) h.othello.ma_pos h.othello.mb_pos k
    have hzero : ∀ v < nodes t.othello, ∀ i, 1 ≤ i →
        (memGet S.othello.toConfig t.othello.mem v).getLsbD i = false := fun v hv i hi => by
      have hbit : ¬ i < S.othello.VDL := Nat.not_lt.mpr hi
      rw [getLsbD_memGet h.othello.sized hv, decide_eq_false hbit, Bool.false_and]
    refine Nat.lt_pow_two_of_testBit _ fun i (hi : 1 ≤ i) => ?_
    rw [(plain S).noDigest, Nat.shiftRight_zero, BitVec.testBit_toNat, BitVec.getLsbD_xor,
      BitVec.getLsbD_setWidth, BitVec.getLsbD_setWidth, hzero _ hb i hi,
      hzero _ (ha.trans_le (Nat.le_add_right _ _)) i hi, Bool.and_false, Bool.xor_self]

/-- A revocation lasts exactly if it does not find the key answered with 1 already. -/
theorem revoked_iff {reg : K → Option Bool} (h : Reached S t reg)
    (hP : k ∉ t.PK) : StaysRevoked S t k ↔ query S t k = 0 := by
  obtain ⟨hc, -⟩ := h.consistent
  constructor
  · intro hstays
    by_contra hq
    have hone : query S t k = 1 := by
      have hlt := Consistent.query_lt hc k
      omega
    have hset : setValue S t (k, 1) = .ok ([], t) := by
      rw [setValue, hone]
      rfl
    obtain ⟨t₂, honward, hc₂, hPK⟩ := Onward.emptied (.here (S := S) (k := k)) hc hP
    have hlast := hstays _ _ _ hset (.keep (by decide)) honward
    rw [Consistent.query_of_empty hc₂ hPK] at hlast
    cases hlast
  · intro hq r t₁ t₂ hset hs honward
    rw [setValue, hq] at hset
    obtain ⟨hPK, hNK, hc₁⟩ := hc.changeToPositive_ok hP hset
    obtain ⟨hcons, hP', -⟩ := Consistent.changed (b := true) hc hPK hNK hc₁ hs
    obtain ⟨hcons', hkeep, -⟩ := honward.consistent hcons
    refine hcons'.query_positive (hkeep ?_)
    rw [hP']
    exact Finset.mem_insert_self k _

def forgets (t : Tracker ℕ ℕ) : Bool :=
  DASSTracker.query smallTracker t 6 == 0 && DASSTracker.query smallTracker t 77 == 1 &&
    match DASSTracker.setValue smallTracker t (1, 0) with
    | .ok (flipped, t') => flipped != rebuildMarker && DASSTracker.query smallTracker t' 77 == 0
    | .error _ => false

theorem startRun_facts : startRun.map forgets = some true := by decide +kernel

theorem startRun_forgets : ∃ t flipped t', Reached smallTracker t startReg ∧ 1 ∈ t.PK ∧
    (∀ j ∈ [6, 77], j ∉ t.PK ∧ j ∉ t.NK) ∧ DASSTracker.query smallTracker t 6 = 0 ∧
    DASSTracker.query smallTracker t 77 = 1 ∧
    DASSTracker.setValue smallTracker t (1, 0) = .ok (flipped, t') ∧ flipped ≠ rebuildMarker ∧
    DASSTracker.query smallTracker t' 77 = 0 := by
  obtain ⟨t, hrun, hforgets⟩ := Option.map_eq_some_iff.mp startRun_facts
  have hstart := startRun_reached hrun
  obtain ⟨-, hreg⟩ := hstart.consistent
  have hnew : ∀ j ∈ [6, 77], j ∉ t.PK ∧ j ∉ t.NK := by
    intro j hj
    have hnone : startReg j = none := by
      rcases List.mem_pair.mp hj with rfl | rfl <;> rfl
    rw [hreg.PK, hreg.NK, hnone]
    simp
  simp only [forgets, Bool.and_eq_true, beq_iff_eq] at hforgets
  obtain ⟨⟨h6, h77⟩, hset⟩ := hforgets
  split at hset
  case h_1 flipped t' hset' =>
    simp only [Bool.and_eq_true, bne_iff_ne, beq_iff_eq] at hset
    exact ⟨t, flipped, t', hstart, (hreg.PK 1).mpr rfl, hnew, h6, h77, hset', hset⟩
  case h_2 => cases hset

theorem revoked_iff_six : ∃ t, Reached smallTracker t startReg ∧ (6 ∉ t.PK ∧ 6 ∉ t.NK) ∧
    StaysRevoked smallTracker t 6 := by
  obtain ⟨t, -, -, h, -, hnew, hq, -⟩ := startRun_forgets
  have h6 := hnew 6 (by simp)
  exact ⟨t, h, h6, (revoked_iff h h6.1).mpr hq⟩

/-- The revocation of 77 changes nothing, and 77 is forgotten with the key 1. -/
theorem revocation_forgotten : ∃ t t', Reached smallTracker t startReg ∧
    (77 ∉ t.PK ∧ 77 ∉ t.NK) ∧ DASSTracker.setValue smallTracker t (77, 1) = .ok ([], t) ∧
    Onward smallTracker 77 t t' ∧ DASSTracker.query smallTracker t' 77 = 0 ∧
    ¬ StaysRevoked smallTracker t 77 := by
  obtain ⟨t, flipped, t', h, hP, hnew, -, hq, hset, hne, hzero⟩ := startRun_forgets
  have hearly : DASSTracker.setValue smallTracker t (77, 1) = .ok ([], t) := by
    rw [DASSTracker.setValue, hq]
    rfl
  have honward : Onward smallTracker 77 t t' :=
    .setValue (b := false) .here (Or.inl hP) (by decide) hset (.keep hne)
  refine ⟨t, t', h, hnew 77 (by simp), hearly, honward, hzero, fun hstays => ?_⟩
  have hone := hstays _ _ _ hearly (.keep (by decide)) honward
  rw [hzero] at hone
  cases hone

end TrackerOnward
