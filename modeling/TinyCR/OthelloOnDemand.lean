import TinyCR.OthelloForests

/-! # The on-demand operations

From every state a run reaches, `erase_on_demand`, `valueFlip_on_demand` and, for a key that
needs neither room nor a rebuild, `insert_on_demand` end where the plain operations end. -/
namespace OthelloOnDemand

open PackedCells EdgeForest ControlPlaneOthello DataPlaneOthello OthelloInvariant OthelloForests

open OthelloRun (pathSetup pathKeys asked pathSetup_reached)

variable {K : Type} [Inhabited K] [DecidableEq K] {P : Setup K} {st : Othello K}

/-- `plain` and `logged` end in the same state, and `logged` appends to the log it was given. -/
def Agree (plain : Except Fault (Othello K))
    (logged : List ℕ → Except Fault (Othello K × List ℕ)) : Prop :=
  ∃ st' flips, plain = .ok st' ∧ ∀ flipped, logged flipped = .ok (st', flipped ++ flips)

theorem erase_agrees (h : Sound P st) (k : K) :
    Agree (erase P st k) (erase_on_demand P st k) := by
  by_cases hk : queryIndex P st k ≥ st.keyCnt ∨ keyAt st (queryIndex P st k) ≠ k
  case pos =>
    exact ⟨st, [], (erase_missed [] hk).1, fun flipped => (erase_missed flipped hk).2⟩
  case neg =>
    obtain ⟨hlt, hkey⟩ := not_or.mp hk
    obtain ⟨st', flips, hrun, -⟩ := h.eraseId_spec (Nat.lt_of_not_le hlt)
    rw [not_not.mp hkey] at hrun
    exact ⟨st', flips, (erase_found [] hk hrun).1, fun flipped => (erase_found flipped hk hrun).2⟩

omit [DecidableEq K] in
theorem updateValueAt_on_demand_eq (P : Setup K) (st : Othello K) (keyId val : ℕ)
    (flipped : List ℕ) {x : BitVec 64} {st' : Othello K} {flips : List ℕ}
    (hrun : updateValueAt_on_demand P st keyId val flipped = .ok (x, st', flipped ++ flips))
    (flipped' : List ℕ) :
    updateValueAt_on_demand P st keyId val flipped' = .ok (x, st', flipped' ++ flips) := by
  simp only [updateValueAt_on_demand] at hrun ⊢
  split at hrun
  case isTrue hk => cases hrun
  case isFalse hk =>
    rw [if_neg hk]
    simp only [fixHalfTreeDFS_on_demand_eq] at hrun ⊢
    split at hrun
    case isTrue hDP =>
      rw [if_pos hDP]
      obtain ⟨⟨x₁, st₁, flips₁⟩, hfix, hrun⟩ := of_bind_ok hrun
      obtain ⟨rfl, heq⟩ := Prod.mk.inj (Except.ok.inj hrun)
      obtain ⟨rfl, hflips⟩ := Prod.mk.inj heq
      rw [hfix, ← List.append_cancel_left hflips]
      rfl
    case isFalse hDP =>
      rw [if_neg hDP]
      obtain ⟨rfl, heq⟩ := Prod.mk.inj (Except.ok.inj hrun)
      obtain ⟨rfl, hflips⟩ := Prod.mk.inj heq
      rw [← List.append_cancel_left ((List.append_nil flipped).trans hflips), List.append_nil]
      rfl

theorem valueFlip_agrees (h : Sound P st) {kv : K × ℕ} (hk : isMember P st kv.1 = true) :
    Agree (valueFlip P st kv) (valueFlip_on_demand P st kv) := by
  have hlt : queryIndex P st kv.1 < st.keyCnt := by
    simp only [isMember, Bool.and_eq_true, decide_eq_true_eq] at hk
    exact hk.1
  obtain ⟨x, st', flips, hdemand, hrun, -⟩ := h.update_spec hlt kv.2 []
  refine ⟨st', flips, ?_, fun flipped => ?_⟩
  · simp only [valueFlip, hrun, ok_bind]
    rfl
  · simp only [valueFlip_on_demand, updateValueAt_on_demand_eq P st _ _ [] hdemand flipped,
      ok_bind]
    rfl

theorem insert_agrees (h : Sound P st) {kv : K × ℕ} (hnew : isMember P st kv.1 = false)
    (hsep : ¬ Linked (graph P st st.keyCnt) (getIndices P st kv.1).1 (getIndices P st kv.1).2)
    (hkeys : st.keyCnt + 1 < st.keys.length) (hmb : st.keyCnt < st.mb) (DoNotRebuild : Bool) :
    ∃ x st' flips, insert P DoNotRebuild st kv = .ok (some x, st') ∧
      ∀ flipped, insert_on_demand P st kv flipped = .ok (true, st', flipped ++ flips) := by
  have hroom : ¬ needsRoom st := by
    rw [needsRoom]
    omega
  have hlt : st.keyCnt < st.keys.length := by omega
  obtain ⟨connected, st₁, hconn, honly, -, hiff, hlink⟩ := h.store_link hlt kv
  obtain rfl : connected = false := by
    cases connected
    · rfl
    · exact absurd (hiff.mp rfl) hsep
  obtain ⟨st₂, x, st', flips, hadd, hfix, -, -, -, -, -, hcnt⟩ := hlink rfl
  have hidx : getIndices P (storeKey st st.keyCnt kv) kv.1 =
      ((getIndices P st kv.1).1, (getIndices P st kv.1).2) := rfl
  have hmake : makeRoom P st = .ok (true, st) := if_neg hroom
  refine ⟨x, st', flips, ?_, fun flipped => ?_⟩
  · rw [insert_eq DoNotRebuild st hnew, hmake, ok_bind]
    simp only [Bool.not_true, Bool.false_eq_true, if_false, insertStored,
      if_neg (Nat.not_le_of_lt hlt), hidx, hconn, pure_bind, ok_bind, hadd, hcnt,
      Nat.add_sub_cancel, fixHalfTreeDFS_eq, hfix]
    rfl
  · simp only [insert_on_demand, hnew, Bool.false_eq_true, if_false,
      if_neg (Nat.not_le_of_lt hlt), hidx, hconn, pure_bind, ok_bind, hadd, hcnt,
      Nat.add_sub_cancel, fixHalfTreeDFS_on_demand_eq, hfix]
    rfl

/-- In every state a run reaches the two copies of each operation end in the same state. -/
theorem reached_copies_agree (h : Reachable P st) :
    (∀ k, Agree (erase P st k) (erase_on_demand P st k)) ∧
    (∀ kv, isMember P st kv.1 = true →
      Agree (valueFlip P st kv) (valueFlip_on_demand P st kv)) ∧
    (∀ kv DoNotRebuild, isMember P st kv.1 = false →
      ¬ Linked (graph P st st.keyCnt) (getIndices P st kv.1).1 (getIndices P st kv.1).2 →
      st.keyCnt + 1 < st.keys.length → st.keyCnt < st.mb →
      ∃ x st' flips, insert P DoNotRebuild st kv = .ok (some x, st') ∧
        ∀ flipped, insert_on_demand P st kv flipped = .ok (true, st', flipped ++ flips)) := by
  refine ⟨erase_agrees h.sound, fun kv hk => valueFlip_agrees h.sound hk, ?_⟩
  intro kv DoNotRebuild hnew hsep hkeys hmb
  exact insert_agrees h.sound hnew hsep hkeys hmb DoNotRebuild

theorem reached_copies_agree_path : ∃ st : Othello ℕ,
    OthelloRun.Reached pathSetup st (asked pathKeys fun _ => none) ∧
    (∀ k, Agree (erase pathSetup st k) (erase_on_demand pathSetup st k)) ∧
    Agree (valueFlip pathSetup st (1, 1)) (valueFlip_on_demand pathSetup st (1, 1)) := by
  obtain ⟨st, h⟩ := pathSetup_reached
  obtain ⟨hinv, hrep⟩ := h.represents ⟨rfl, rfl, rfl⟩
  obtain ⟨herase, hflip, -⟩ := reached_copies_agree (.of_reached h)
  exact ⟨st, h, herase, hflip (1, 1) ((hrep.member_iff hinv 1).mpr rfl)⟩

end OthelloOnDemand
