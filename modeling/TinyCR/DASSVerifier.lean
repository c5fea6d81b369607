import TinyCR.TrackerSteps

/-! # `DASS_Verifier`

The device's copy: the filter and the data plane of the Othello. It replays what the tracker
did from the key, the value and the flips, deciding by its own answers what to change. -/
namespace DASSVerifier

open PackedCells ControlPlaneOthello DataPlaneOthello OthelloInvariant OthelloRun
  VacuumFilter DASSTracker TrackerInvariant

variable {K E : Type}

structure Verifier (E : Type) where
  othello : DataPlane
  vf : VacuumFilter.Filter E

def install (t : Tracker K E) : Verifier E := { othello := fullSync t.othello, vf := t.vf }

variable [DecidableEq K] [Inhabited K] (S : TrackerSetup K E)

protected def lookup (d : Verifier E) (k : K) : Bool := VacuumFilter.lookup S.hash d.vf (S.ele k)

protected def query (d : Verifier E) (k : K) : ℕ :=
  if DASSVerifier.lookup S d k then (DataPlaneOthello.query S.othello d.othello k).2.toNat else 0

/-- `none` is `exit (EXIT_FAILURE)`: the filter is too full. -/
protected def insert (d : Verifier E) (kv : K × ℕ) (flipped_indexes : List ℕ) :
    Option (Verifier E) :=
  if flipped_indexes = [] then
    if kv.2 = 1 then
      let (full, vf) := VacuumFilter.insert S.hash S.engine d.vf (S.ele kv.1)
      if full = 1 then none else some { d with vf := vf }
    else some d
  else if flipped_indexes = rebuildMarker then some d
  else if kv.2 = 1 then
    let (full, vf) := VacuumFilter.insert S.hash S.engine d.vf (S.ele kv.1)
    if full = 1 then none
    else some { othello := mem_value_flipping d.othello flipped_indexes, vf := vf }
  else if DASSVerifier.lookup S d kv.1 then
    some { d with othello := mem_value_flipping d.othello flipped_indexes }
  else some d

def flipUnlessRebuild (d : Verifier E) (flipped_indexes : List ℕ) : Verifier E :=
  if flipped_indexes = [] then d
  else if flipped_indexes = rebuildMarker then d
  else { d with othello := mem_value_flipping d.othello flipped_indexes }

/-- From 0 to 1 the result of `vf.insert` is only printed. -/
protected def setValue (d : Verifier E) (kv : K × ℕ) (flipped_indexes : List ℕ) : Verifier E :=
  let v := DASSVerifier.query S d kv.1
  if v = kv.2 then d
  else if v = 1 ∧ kv.2 = 0 then
    flipUnlessRebuild { d with vf := (del S.hash d.vf (S.ele kv.1)).2 } flipped_indexes
  else if v = 0 ∧ kv.2 = 1 then
    flipUnlessRebuild { d with vf := (VacuumFilter.insert S.hash S.engine d.vf (S.ele kv.1)).2 }
      flipped_indexes
  else d

variable {S} {t t' : Tracker K E} {kv : K × ℕ} {flipped : List ℕ}

omit [DecidableEq K] [Inhabited K] in
theorem query_fullSync (st : Othello K) (k : K) : ControlPlaneOthello.query S.othello st k =
    some (DataPlaneOthello.query S.othello (fullSync st) k).2.toNat := by
  rw [ControlPlaneOthello.query, if_pos (plain S).dataPlane, DataPlaneOthello.query]
  dsimp only
  rw [if_pos (plain S).noDigest, (plain S).noDigest]
  refine congrArg some (Nat.eq_of_testBit_eq fun b => ?_)
  have hcells : ∀ aa bb : BitVec 64, ((aa.setWidth S.othello.vBits ^^^
      bb.setWidth S.othello.vBits).toNat >>> 0).testBit b =
        ((aa ^^^ bb) >>> 0 &&& lowMask S.othello.vBits).toNat.testBit b := by
    intro aa bb
    rw [Nat.shiftRight_zero, BitVec.ushiftRight_zero]
    conv_rhs => rw [BitVec.testBit_toNat, BitVec.getLsbD_and, getLsbD_mask]
    by_cases hb : b < S.othello.vBits
    · rw [getLsbD_cut _ _ hb, decide_eq_true hb, Bool.true_and]
      by_cases h64 : b < 64
      · rw [decide_eq_true h64, Bool.and_true]
      · rw [decide_eq_false h64, Bool.and_false, BitVec.getLsbD_of_ge _ _ (Nat.le_of_not_lt h64)]
    · rw [decide_eq_false hb, Bool.false_and, Bool.and_false]
      refine Nat.testBit_eq_false_of_lt ((BitVec.isLt _).trans_le ?_)
      exact Nat.pow_le_pow_right (by decide) (Nat.le_of_not_lt hb)
  exact hcells _ _

omit [DecidableEq K] [Inhabited K] in
theorem query_install (t : Tracker K E) (k : K) :
    DASSVerifier.query S (install t) k = DASSTracker.query S t k := by
  rw [DASSVerifier.query, DASSTracker.query, query_fullSync]
  rfl

/-- The Othello has changed from `st` by the logged flips and the filter has become `vf`. -/
structure Stepped (S : TrackerSetup K E) (st : Othello K) (t' : Tracker K E) (flipped : List ℕ)
    (vf : VacuumFilter.Filter E) : Prop where
  othello : Invariant S.othello t'.othello
  log : Logged S.othello st [] t'.othello flipped
  vf : t'.vf = vf

omit [DecidableEq K] in
theorem Stepped.replayed {vf : VacuumFilter.Filter E} (h : Stepped S t.othello t' flipped vf) :
    { othello := mem_value_flipping (fullSync t.othello) flipped, vf := vf } = install t' := by
  obtain ⟨⟨hma, hmb, hab, hhd⟩, flips, heq, hrep⟩ := h.log
  obtain ⟨-, hmem⟩ := hrep rfl
  have hsync : fullSync t'.othello = mem_value_flipping (fullSync t.othello) flipped := by
    rw [fullSync, hma, hmb, hab, hhd, ← hmem, heq]
    rfl
  rw [install, hsync, h.vf]

theorem raising_stepped {k : K}
    {last : Tracker K E → List ℕ → Except Fault (List ℕ × Tracker K E)}
    (h : Invariant S.othello t.othello)
    (hlast : ∀ t₁ flipped₁, Invariant S.othello t₁.othello →
      last t₁ flipped₁ = .ok (flipped, t') → ∃ kv st, Ended S t₁ kv flipped₁ t' flipped st)
    (hrun : raising S t k last = .ok (flipped, t')) (hne : flipped ≠ rebuildMarker) :
    (VacuumFilter.insert S.hash S.engine t.vf (S.ele k)).1 ≠ 1 ∧
      Stepped S t.othello t' flipped (VacuumFilter.insert S.hash S.engine t.vf (S.ele k)).2 := by
  rcases raising_cases hrun with ⟨-, rfl, -⟩ | ⟨-, -, rfl⟩ | ⟨hok, t₁, flipped₁, hboth, hend⟩
  · exact absurd rfl hne
  · exact absurd rfl hne
  · obtain ⟨hs, hlog⟩ := promoteBoth_log (t := filled S t k) h hboth
    obtain ⟨hlog₁, hinv₁⟩ := hlog flipped₁ rfl
    obtain ⟨kv, st, rfl, hst⟩ := hlast t₁ flipped₁ hinv₁ hend
    obtain ⟨hinv, hlog₂, -⟩ := hst hne
    exact ⟨hok, hinv, hlog₁.trans hlog₂, hs.vf⟩

theorem insert_stepped (h : Invariant S.othello t.othello)
    (hrun : DASSTracker.insert S t kv = .ok (flipped, t')) (hne : flipped ≠ rebuildMarker) :
    (kv.2 = 1 ∧ (VacuumFilter.insert S.hash S.engine t.vf (S.ele kv.1)).1 ≠ 1 ∧
      Stepped S t.othello t' flipped (VacuumFilter.insert S.hash S.engine t.vf (S.ele kv.1)).2) ∨
    (kv.2 ≠ 1 ∧ Stepped S t.othello t' flipped t.vf ∧
      (lookup S t kv.1 = false → flipped = [])) := by
  obtain ⟨k, v⟩ := kv
  rw [DASSTracker.insert] at hrun
  by_cases hv : v = 1
  · subst hv
    rw [if_pos rfl] at hrun
    exact Or.inl ⟨rfl, raising_stepped (t := { t with PK := Insert.insert k t.PK }) h
      (fun t₁ flipped₁ hinv hend => ⟨(k, 1), finishInsert_ok hinv hend⟩) hrun hne⟩
  · refine Or.inr ⟨hv, ?_⟩
    rw [if_neg hv] at hrun
    dsimp only at hrun
    split at hrun
    case isTrue hl =>
      obtain ⟨st, hstate, hst⟩ := finishInsert_ok (by exact h) hrun
      obtain ⟨hinv, hlog, -⟩ := hst hne
      rw [hstate]
      exact ⟨⟨hinv, hlog, rfl⟩, fun hl' => absurd (hl.symm.trans hl') (by simp)⟩
    case isFalse hl =>
      obtain ⟨rfl, rfl⟩ := Prod.mk.inj (Except.ok.inj hrun)
      exact ⟨⟨h, Logged.refl _ _ _, rfl⟩, fun _ => rfl⟩

theorem changeToNegative_stepped (h : Invariant S.othello t.othello)
    (hrun : changeToNegative S t kv = .ok (flipped, t')) :
    Stepped S t.othello t' flipped (del S.hash t.vf (S.ele kv.1)).2 := by
  obtain ⟨t₁, flipped₁, h₁, hlog₁, hs₁, hd₁⟩ := demoteLoop_spec (S := S) (t := lowered S t kv.1)
    (position_pair S (lowered S t kv.1) kv.1).1 [] []
    ((lowered S t kv.1).FPK_table (position_pair S (lowered S t kv.1) kv.1).1) h
  obtain ⟨t₂, flipped₂, h₂, hlog₂, hs₂, hd₂⟩ := demoteLoop_spec (S := S) (t := t₁)
    (position_pair S (lowered S t kv.1) kv.1).2 flipped₁ []
    (t₁.FPK_table (position_pair S (lowered S t kv.1) kv.1).2) hd₁.othello
  rw [changeToNegative_eq, demote, h₁, ok_bind, demote, h₂, ok_bind, lastNegative] at hrun
  have hlog := hlog₁.trans hlog₂
  have hvf : t₂.vf = (del S.hash t.vf (S.ele kv.1)).2 := (hs₁.trans hs₂).vf
  split at hrun
  · obtain ⟨⟨st, flipped₃⟩, hflip, hrun⟩ := of_bind_ok hrun
    obtain ⟨rfl, rfl⟩ := Prod.mk.inj (Except.ok.inj hrun)
    obtain ⟨-, hlog₃, hinv, -⟩ := valueFlip_on_demand_at (plain S) hd₂.othello hflip
    exact ⟨hinv, hlog.trans hlog₃, hvf⟩
  · obtain ⟨⟨st, flipped₃⟩, herase, hrun⟩ := of_bind_ok hrun
    obtain ⟨rfl, rfl⟩ := Prod.mk.inj (Except.ok.inj hrun)
    obtain ⟨hlog₃, hinv, -⟩ := erase_on_demand_ok (plain S) hd₂.othello herase
    exact ⟨hinv, hlog.trans hlog₃, hvf⟩

theorem changeToPositive_stepped (h : Invariant S.othello t.othello)
    (hrun : changeToPositive S t kv = .ok (flipped, t')) (hne : flipped ≠ rebuildMarker) :
    (VacuumFilter.insert S.hash S.engine t.vf (S.ele kv.1)).1 ≠ 1 ∧
      Stepped S t.othello t' flipped (VacuumFilter.insert S.hash S.engine t.vf (S.ele kv.1)).2 := by
  rw [changeToPositive_eq] at hrun
  have hsame : (withdrawn S t kv.1).vf = t.vf ∧ (withdrawn S t kv.1).othello = t.othello := by
    rw [withdrawn]
    split <;> exact ⟨rfl, rfl⟩
  have hstep := raising_stepped (t := withdrawn S t kv.1) (hsame.2.symm ▸ h)
    (fun t₁ flipped₁ hinv hend => ⟨kv, flipOrInsert_ok hinv hend⟩) hrun hne
  rw [hsame.1] at hstep
  rw [hsame.2] at hstep
  exact hstep

theorem insert_follows (h : Invariant S.othello t.othello)
    (hrun : DASSTracker.insert S t kv = .ok (flipped, t')) (hne : flipped ≠ rebuildMarker) :
    DASSVerifier.insert S (install t) kv flipped = some (install t') ∧
      (kv.2 = 1 → (VacuumFilter.insert S.hash S.engine (install t).vf (S.ele kv.1)).1 ≠ 1) ∧
      Invariant S.othello t'.othello ∧ Logged S.othello t.othello [] t'.othello flipped := by
  rw [DASSVerifier.insert]
  rcases insert_stepped h hrun hne with ⟨hv, hok, hstep⟩ | ⟨hv, hstep, hempty⟩
  · have hdone := hstep.replayed
    have hok : (VacuumFilter.insert S.hash S.engine (install t).vf (S.ele kv.1)).1 ≠ 1 := hok
    refine ⟨?_, fun _ => hok, hstep.othello, hstep.log⟩
    by_cases hf : flipped = []
    · subst hf
      rw [if_pos rfl, if_pos hv]
      dsimp only
      rw [if_neg hok]
      exact congrArg some hdone
    · rw [if_neg hf, if_neg hne, if_pos hv]
      dsimp only
      rw [if_neg hok]
      exact congrArg some hdone
  · have hdone := hstep.replayed
    refine ⟨?_, fun hone => absurd hone hv, hstep.othello, hstep.log⟩
    by_cases hf : flipped = []
    · subst hf
      rw [if_pos rfl, if_neg hv]
      exact congrArg some hdone
    · have hl : DASSVerifier.lookup S (install t) kv.1 = true := by
        by_contra hl
        exact hf (hempty (Bool.not_eq_true _ ▸ hl))
      rw [if_neg hf, if_neg hne, if_neg hv, if_pos hl]
      exact congrArg some hdone

theorem flipUnlessRebuild_eq (dp : DataPlane) (vf : VacuumFilter.Filter E)
    (hne : flipped ≠ rebuildMarker) : flipUnlessRebuild { othello := dp, vf := vf } flipped =
      { othello := mem_value_flipping dp flipped, vf := vf } := by
  by_cases hf : flipped = []
  · rw [hf]
    rfl
  · rw [flipUnlessRebuild, if_neg hf, if_neg hne]

theorem setValue_follows (h : Invariant S.othello t.othello)
    (hrun : DASSTracker.setValue S t kv = .ok (flipped, t')) (hne : flipped ≠ rebuildMarker) :
    DASSVerifier.setValue S (install t) kv flipped = install t' ∧
      (DASSTracker.query S t kv.1 = 0 → kv.2 = 1 →
        (VacuumFilter.insert S.hash S.engine (install t).vf (S.ele kv.1)).1 ≠ 1) ∧
      Invariant S.othello t'.othello ∧ Logged S.othello t.othello [] t'.othello flipped := by
  rw [DASSVerifier.setValue, query_install]
  rw [DASSTracker.setValue] at hrun
  split at hrun
  case isTrue heq =>
    obtain ⟨rfl, rfl⟩ := Prod.mk.inj (Except.ok.inj hrun)
    rw [if_pos heq]
    refine ⟨rfl, fun h0 h1 => ?_, h, Logged.refl _ _ _⟩
    omega
  case isFalse heq =>
    rw [if_neg heq]
    split at hrun
    case isTrue hneg =>
      have hstep := changeToNegative_stepped h hrun
      rw [if_pos hneg]
      refine ⟨(flipUnlessRebuild_eq _ _ hne).trans hstep.replayed, fun h0 => ?_, hstep.othello,
        hstep.log⟩
      omega
    case isFalse hneg =>
      rw [if_neg hneg]
      split at hrun
      case isTrue hpos =>
        obtain ⟨hok, hstep⟩ := changeToPositive_stepped h hrun hne
        rw [if_pos hpos]
        exact ⟨(flipUnlessRebuild_eq _ _ hne).trans hstep.replayed, fun _ _ => hok, hstep.othello,
          hstep.log⟩
      case isFalse hpos =>
        obtain ⟨rfl, rfl⟩ := Prod.mk.inj (Except.ok.inj hrun)
        rw [if_neg hpos]
        exact ⟨rfl, fun h0 h1 => absurd ⟨h0, h1⟩ hpos, h, Logged.refl _ _ _⟩

end DASSVerifier
