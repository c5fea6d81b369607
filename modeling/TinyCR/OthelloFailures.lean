import TinyCR.OthelloDigests

/-! # Failing inserts

Which inserts that throw, or that return 0, leave the map as it was. -/
namespace OthelloFailures

open PackedCells EdgeForest ControlPlaneOthello DataPlaneOthello OthelloInvariant OthelloForests
  OthelloDigests

variable {K : Type} [Inhabited K] [DecidableEq K] {P : Setup K} {st st' : Othello K}

/-- The size, the new key's absence and the answers for all stored keys are as in `st`. -/
structure Restored (P : Setup K) (st : Othello K) (k : K) (st' : Othello K) : Prop where
  size : st'.keyCnt = st.keyCnt
  absent : isMember P st' k = false
  stored : ∀ i, i < st.keyCnt → isMember P st' (keyAt st i) = isMember P st (keyAt st i) ∧
    query P st' (keyAt st i) = query P st (keyAt st i)

theorem restored_of_entries (h : Consistent P st st.keyCnt) (h' : Consistent P st' st'.keyCnt)
    (hsame : SameEntries st st') {k : K} (hnew : isMember P st k = false) :
    Restored P st k st' := by
  have hcnt := hsame.keyCnt
  have hmember : ∀ x, isMember P st' x = true ↔ isMember P st x = true := fun x => by
    rw [h'.isMember_iff, h.isMember_iff]
    constructor
    · rintro ⟨i, hi, hx⟩
      rw [hcnt] at hi
      exact ⟨i, hi, (hsame.keyAt i hi).symm.trans hx⟩
    · rintro ⟨i, hi, hx⟩
      exact ⟨i, hcnt.symm ▸ hi, (hsame.keyAt i hi).trans hx⟩
  refine ⟨hcnt, ?_, fun i hi => ⟨Bool.eq_iff_iff.mpr (hmember _), ?_⟩⟩
  · rw [← Bool.not_eq_true, hmember, hnew]
    simp
  · have hi' : i < st'.keyCnt := hcnt.symm ▸ hi
    have hq := query_eq h' hi'
    rw [hsame.keyAt i hi, hsame.values i hi] at hq
    rw [hq, query_eq h hi]

/-- The old indices stay in array A, and array B is new, so not all keys can be members. -/
theorem gaveUp_not_restored (h : Sound P st) (hrun : makeRoom P st = .ok (false, st')) (k : K) :
    ¬ Restored P st k st' := by
  rcases h.toConsistent.keyArrays.makeRoom_spec hrun with
    ⟨-, hok, -⟩ | ⟨hroom, nextMb, hmb, ⟨-, hok, -⟩ | ⟨hres, hadd, hkeep, -, -, hgave⟩⟩
  · cases hok
  · cases hok
  intro hr
  have hle : st.keyCnt ≤ max (st.keyCnt + 1) st.minimalKeyCapacity :=
    le_max_of_le_left (Nat.le_succ _)
  obtain ⟨hsame, -, -⟩ := h.toConsistent.keyArrays.resized_entries hle hkeep
  have hcnt := hsame.keyCnt
  have hma : st.ma + st.mb ≤ st'.ma := (h.sizes.grows hroom hmb hadd hres).trans_eq hkeep.ma.symm
  have hnew : ∀ v, st'.ma ≤ v → st'.indMem.getD v 0 = 0 := by
    intro v hv
    rw [(hgave rfl).indMem, grown_indMem]
    apply getD_resized_of_le
    rw [h.indMem]
    exact hma.trans hv
  -- so the index of a key that is still a member stands at its node in array A
  have hstart : ∀ i, i < st.keyCnt → st'.indMem.getD (ends P st' i).1 0 = i := by
    intro i hi
    have hmem := (hr.stored i hi).1.trans ((h.toConsistent.isMember_iff _).mpr ⟨i, hi, rfl⟩)
    simp only [isMember, Bool.and_eq_true, decide_eq_true_eq, beq_iff_eq] at hmem
    obtain ⟨hlt, hkey⟩ := hmem
    rw [hcnt] at hlt
    have hkey' : keyAt st (queryIndex P st' (keyAt st i)) = keyAt st i :=
      (hsame.keyAt _ hlt).symm.trans hkey
    have hidx : queryIndex P st' (keyAt st i) = i := h.toConsistent.keyAt_inj hlt hi hkey'
    rw [← hsame.keyAt i hi] at hidx
    have hB : st'.indMem.getD (ends P st' i).2 0 = 0 := hnew _ (Nat.le_add_left _ _)
    have hx : st'.indMem.getD (ends P st' i).1 0 ^^^ st'.indMem.getD (ends P st' i).2 0 = i := hidx
    rwa [hB, Nat.xor_zero] at hx
  refine (hgave rfl).cyclic ?_
  rw [hcnt]
  refine acyclic_of_distinct_starts (fun i j hi hj heq => ?_) fun i j hi hj heq => ?_
  · rw [← hstart i hi, ← hstart j hj, heq]
  · have hma' : 0 < st'.ma := h.ma_pos.trans_le ((Nat.le_add_right _ _).trans hma)
    have hmb' : 0 < st'.mb := by
      have hge := nextMbOf_ge hmb
      have hmbk : st'.mb = nextMb := hkeep.mb
      omega
    have hA : (ends P st' i).1 < st'.ma := (getIndices_bounds hma' hmb' (keyAt st' i)).1
    have hB : st'.ma ≤ (ends P st' j).2 := Nat.le_add_left _ _
    omega

/-- In every state of every run: an insert that throws leaves the map as it was exactly if it may
not rebuild for the key and room could be made, and an on-demand insert that returns 0 never
does. -/
theorem reached_failures (h : Reachable P st) {kv : K × ℕ} (hnew : isMember P st kv.1 = false) :
    (∀ DoNotRebuild st', insert P DoNotRebuild st kv = .ok (none, st') →
      (Restored P st kv.1 st' ↔ DoNotRebuild = true ∧ RoomFor P st)) ∧
    ∀ flipped st' flipped', insert_on_demand P st kv flipped = .ok (false, st', flipped') →
      ¬ Restored P st kv.1 st' := by
  have hs := h.sound
  refine ⟨fun DoNotRebuild st' hrun => ?_, fun flipped st' flipped' hrun hr => ?_⟩
  · rcases hs.toConsistent.insert_fails hrun with ⟨hno, hroom⟩ |
      ⟨hroom, hb, hcons, hsame, -⟩ | ⟨-, hb, hcnt⟩
    · exact iff_of_false (gaveUp_not_restored hs hroom kv.1) fun hc => hno hc.2
    · exact iff_of_true (restored_of_entries hs.toConsistent hcons hsame hnew) ⟨hb, hroom⟩
    · refine iff_of_false (fun hr => ?_) fun hc => ?_
      · have := hr.size
        omega
      · rw [hb] at hc
        cases hc.1
  · have hlt : st.keyCnt < st.keys.length := by
      by_contra hle
      simp only [insert_on_demand, hnew, Bool.false_eq_true, if_false,
        if_pos (Nat.le_of_not_lt hle)] at hrun
      cases hrun
    obtain ⟨done, st₁, flips, hrun₁, -, -, hm, -⟩ := hs.insert_on_demand_spec hlt hnew flipped
    obtain ⟨rfl, heq⟩ := Prod.mk.inj (Except.ok.inj (hrun₁.symm.trans hrun))
    obtain ⟨rfl, -⟩ := Prod.mk.inj heq
    have hcnt : st₁.keyCnt = st.keyCnt + 1 := hm.keyCnt
    have := hr.size
    omega

def countsRefused : Except Fault (Bool × Othello ℕ) → Bool
  | .ok (true, st) =>
    match insert OthelloRun.smallSetup true st (5, 1) with
    | .ok (some _, st₁) =>
      match insert_on_demand OthelloRun.smallSetup st₁ (6, 1) [] with
      | .ok (false, st₂, _) =>
        !isMember OthelloRun.smallSetup st₁ 6 && decide (st₂.keyCnt = st₁.keyCnt + 1)
      | _ => false
    | _ => false
  | _ => false

theorem smallSetup_refuses : ∃ st st' flipped, Reachable OthelloRun.smallSetup st ∧
    isMember OthelloRun.smallSetup st 6 = false ∧
    insert_on_demand OthelloRun.smallSetup st (6, 1) [] = .ok (false, st', flipped) ∧
    st'.keyCnt = st.keyCnt + 1 := by
  have hruns : countsRefused (construct OthelloRun.smallSetup 4 0 0) = true := by decide +kernel
  obtain ⟨st, hc, hruns⟩ := of_construct hruns (by simp [countsRefused]) (by simp [countsRefused])
  rw [countsRefused] at hruns
  split at hruns
  case h_2 => simp at hruns
  case h_1 x st₁ hi =>
    split at hruns
    case h_2 => simp at hruns
    case h_1 st₂ flipped hd =>
      rw [Bool.and_eq_true, Bool.not_eq_true', decide_eq_true_eq] at hruns
      exact ⟨st₁, st₂, flipped, .insert (.construct hc) hi, hruns.1, hd, hruns.2⟩

theorem reached_failures_single : ∃ st : Othello ℕ,
    (∀ DoNotRebuild st', insert OthelloRun.smallSetup DoNotRebuild st (6, 1) = .ok (none, st') →
      (Restored OthelloRun.smallSetup st 6 st' ↔
        DoNotRebuild = true ∧ RoomFor OthelloRun.smallSetup st)) ∧
    ∀ flipped st' flipped',
      insert_on_demand OthelloRun.smallSetup st (6, 1) flipped = .ok (false, st', flipped') →
      ¬ Restored OthelloRun.smallSetup st 6 st' := by
  obtain ⟨st, st', flipped, h, hnew, -⟩ := smallSetup_refuses
  exact ⟨st, reached_failures h hnew⟩

/-- An on-demand insert that returned 0 has counted its key. -/
theorem refused_key_counted : ¬ ∀ st, Reachable OthelloRun.smallSetup st →
    ∀ kv flipped st' flipped', isMember OthelloRun.smallSetup st kv.1 = false →
      insert_on_demand OthelloRun.smallSetup st kv flipped = .ok (false, st', flipped') →
      Restored OthelloRun.smallSetup st kv.1 st' := by
  intro hall
  obtain ⟨st, st', flipped, h, hnew, hrun, hcnt⟩ := smallSetup_refuses
  have := (hall st h (6, 1) [] st' flipped hnew hrun).size
  omega

end OthelloFailures
