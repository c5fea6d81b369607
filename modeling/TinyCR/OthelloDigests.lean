import TinyCR.OthelloForests

/-! # Values above digests

What the two queries answer for a stored key. The control plane cuts both cells to the width
of `V` before it shifts the digest away, so high value bits are lost. -/
namespace OthelloDigests

open PackedCells EdgeForest ControlPlaneOthello DataPlaneOthello OthelloInvariant OthelloForests

variable {K : Type} [Inhabited K] {P : Setup K} {st : Othello K} {n e u v : ℕ}

theorem valueBit (h : Cells P st n) (hDP : P.maintainDP = true) (hg : graph P st n e u v) {j : ℕ}
    (hs : j + P.DL < shownWidth P (st.values.getD e 0)) :
    (memAt P st u ^^^ memAt P st v).getLsbD (j + P.DL) = (st.values.getD e 0).testBit j := by
  have hl := congrArg (BitVec.getLsbD · (j + P.DL)) (h.labels hDP e u v hg)
  have hvdl := P.vdl_le_sixty
  have hle := shownWidth_le P (st.values.getD e 0)
  have h64 : j + P.DL < 64 := by omega
  have hj64 : j < 64 := by omega
  have hmask : P.DEMASK.getLsbD (j + P.DL) = false := by
    rw [Config.DEMASK, getLsbD_mask, decide_eq_false (by omega), Bool.false_and]
  simp only [cellLabel, BitVec.getLsbD_and, BitVec.getLsbD_or, getLsbD_shown, decide_eq_true hs,
    decide_eq_true h64, hmask, Bool.and_true, Bool.and_false, Bool.false_and, Bool.or_false] at hl
  rw [hl, BitVec.getLsbD_shiftLeft, decide_eq_true h64, decide_eq_false (by omega),
    Nat.add_sub_cancel, valueAt, BitVec.getLsbD_ofNat, decide_eq_true hj64]
  rfl

theorem digestBit (h : Cells P st n) (hDP : P.maintainDP = true) (hg : graph P st n e u v) {b : ℕ}
    (hb : b < P.DL) : (memAt P st u ^^^ memAt P st v).getLsbD b =
      ((P.hd st.hd (keyAt st e)).setWidth 64 &&& P.DEMASK &&& ~~~1#64).getLsbD b := by
  have hl := congrArg (BitVec.getLsbD · b) (h.labels hDP e u v hg)
  have hvdl := P.vdl_le_sixty
  have hle := shownWidth_le P (st.values.getD e 0)
  have hs := hb.trans_le (dl_le_shownWidth P (st.values.getD e 0))
  have h64 : b < 64 := by omega
  rw [← getLsbD_digest P st e hb, ← hl, BitVec.getLsbD_and, getLsbD_shown, decide_eq_true hs,
    decide_eq_true h64, Bool.and_true, Bool.and_true]

theorem highBit (h : Cells P st n) (hDP : P.maintainDP = true) (hsh : Shape P st)
    (hg : graph P st n e u v) {b : ℕ} (hb : P.VDL ≤ b) :
    (memAt P st u ^^^ memAt P st v).getLsbD b = false := by
  have hcell : ∀ w, w < nodes st → (memAt P st w).getLsbD b = false := fun w hw => by
    rw [memAt, getLsbD_memGet (h.sized hDP) hw, decide_eq_false (Nat.not_lt.mpr hb),
      Bool.false_and]
  rw [BitVec.getLsbD_xor, hcell u (hsh.graph_lt hg).1, hcell v (hsh.graph_lt hg).2]
  rfl

/-- What `query` answers for a key stored with `value`. -/
def answer (P : Setup K) (value : ℕ) : ℕ :=
  if P.maintainDP then value % 2 ^ P.L * 2 ^ P.DL % 2 ^ P.vBits / 2 ^ P.DL else value

theorem query_eq (h : Consistent P st st.keyCnt) {i : ℕ} (hi : i < st.keyCnt) :
    query P st (keyAt st i) = some (answer P (st.values.getD i 0)) := by
  rw [query, answer]
  by_cases hDP : P.maintainDP = true
  case neg =>
    have hlt : ¬ i ≥ st.values.length := Nat.not_le_of_lt (h.values ▸ hi.trans_le h.keyCnt)
    simp only [if_neg hDP, h.queryIndex_eq hi, if_neg hlt]
  case pos =>
    have hg := graph_ends P st hi
    simp only [if_pos hDP]
    apply congrArg some
    apply Nat.eq_of_testBit_eq
    intro j
    rw [Nat.testBit_shiftRight, Nat.testBit_div_two_pow, Nat.testBit_mod_two_pow, Nat.add_comm,
      Nat.testBit_mul_two_pow, Nat.testBit_mod_two_pow, Nat.add_sub_cancel,
      decide_eq_true (Nat.le_add_left P.DL j), Bool.true_and]
    by_cases hV : j + P.DL < P.vBits
    case neg =>
      rw [decide_eq_false hV, Bool.false_and]
      exact BitVec.getLsbD_of_ge _ _ (Nat.le_of_not_lt hV)
    case pos =>
      rw [getLsbD_cut _ _ hV, decide_eq_true hV, Bool.true_and]
      by_cases hj : j < P.L
      · have hs : j + P.DL < shownWidth P (st.values.getD i 0) := by
          have hvdl : P.VDL = P.L + P.DL := rfl
          rw [shownWidth]
          split <;> omega
        rw [decide_eq_true hj, Bool.true_and]
        exact valueBit h.cells hDP hg hs
      · rw [decide_eq_false hj, Bool.false_and]
        refine highBit h.cells hDP h.toShape hg ?_
        rw [Config.VDL]
        omega

omit [Inhabited K] in
theorem answer_eq_iff (hDP : P.maintainDP = true) (value : ℕ) :
    answer P value = value % 2 ^ P.L ↔ fits P value := by
  rw [answer, if_pos hDP, fits]
  generalize value % 2 ^ P.L = x
  by_cases hle : P.DL ≤ P.vBits
  case pos =>
    have hpow : 2 ^ P.vBits = 2 ^ (P.vBits - P.DL) * 2 ^ P.DL := by
      rw [← pow_add, Nat.sub_add_cancel hle]
    constructor
    · intro heq
      rw [← heq, hpow]
      apply Nat.div_lt_of_lt_mul
      rw [Nat.mul_comm (2 ^ P.DL)]
      exact Nat.mod_lt _ (Nat.mul_pos (Nat.two_pow_pos _) (Nat.two_pow_pos _))
    · intro hlt
      have hbound : x * 2 ^ P.DL < 2 ^ P.vBits := by
        rw [hpow]
        exact Nat.mul_lt_mul_of_pos_right hlt (Nat.two_pow_pos _)
      rw [Nat.mod_eq_of_lt hbound]
      exact Nat.mul_div_cancel _ (Nat.two_pow_pos _)
  case neg =>
    have hsub : P.vBits - P.DL = 0 := by omega
    have hzero : x * 2 ^ P.DL % 2 ^ P.vBits / 2 ^ P.DL = 0 := by
      apply Nat.div_eq_of_lt
      exact (Nat.mod_lt _ (Nat.two_pow_pos _)).trans_le
        (Nat.pow_le_pow_right (by decide) (by omega))
    rw [hzero, hsub, pow_zero]
    omega

theorem digest_matches (h : Cells P st n) (hDP : P.maintainDP = true)
    (hg : graph P st n e u v) :
    ((memAt P st u ^^^ memAt P st v).setWidth 32 &&& P.DEMASK.setWidth 32 ||| 1) =
      (P.hd st.hd (keyAt st e) &&& P.DEMASK.setWidth 32) ||| 1 := by
  apply BitVec.eq_of_getLsbD_eq
  intro b hb
  have h64 : b < 64 := by omega
  simp only [BitVec.getLsbD_or, BitVec.getLsbD_and, BitVec.getLsbD_setWidth, decide_eq_true hb,
    Bool.true_and]
  by_cases h0 : b = 0
  · subst h0
    simp
  · have hone : (1#64).getLsbD b = false := by
      rw [BitVec.getLsbD_one]
      simp [h0]
    by_cases hbD : b < P.DL
    · rw [digestBit h hDP hg hbD]
      simp only [BitVec.getLsbD_and, BitVec.getLsbD_setWidth, BitVec.getLsbD_not,
        decide_eq_true h64, hone, Bool.true_and, Bool.not_false, Bool.and_true]
      rw [Bool.and_assoc, Bool.and_self]
    · have hmask : P.DEMASK.getLsbD b = false := by
        rw [Config.DEMASK, getLsbD_mask, decide_eq_false hbD, Bool.false_and]
      rw [hmask, Bool.and_false, Bool.and_false]

omit [Inhabited K] in
/-- The shifted xor of two cells is the value exactly if its value bits are. -/
theorem read_eq_iff {x : BitVec 64} (hhigh : ∀ b, P.VDL ≤ b → x.getLsbD b = false) (value : ℕ) :
    (x >>> P.DL) &&& lowMask P.vBits = BitVec.ofNat 64 (value % 2 ^ P.L) ↔
      ∀ j, j < P.L → x.getLsbD (j + P.DL) = value.testBit j := by
  have hl := P.l_le
  have hvdl : P.VDL = P.L + P.DL := rfl
  have h60 := P.vdl_le_sixty
  have hbits : ∀ j, j < 64 → ((x >>> P.DL) &&& lowMask P.vBits).getLsbD j =
      (x.getLsbD (j + P.DL) && decide (j < P.vBits)) := by
    intro j hj64
    rw [BitVec.getLsbD_and, BitVec.getLsbD_ushiftRight, getLsbD_mask, decide_eq_true hj64,
      Bool.and_true, Nat.add_comm]
  have hvalue : ∀ j, j < 64 → (BitVec.ofNat 64 (value % 2 ^ P.L)).getLsbD j =
      (decide (j < P.L) && value.testBit j) := by
    intro j hj64
    rw [BitVec.getLsbD_ofNat, decide_eq_true hj64, Bool.true_and, Nat.testBit_mod_two_pow]
  constructor
  · intro heq j hj
    have hj64 : j < 64 := by omega
    have hbit := congrArg (BitVec.getLsbD · j) heq
    rw [hbits j hj64, hvalue j hj64, decide_eq_true hj, decide_eq_true (hj.trans_le hl),
      Bool.and_true, Bool.true_and] at hbit
    exact hbit
  · intro heq
    apply BitVec.eq_of_getLsbD_eq
    intro j hj64
    rw [hbits j hj64, hvalue j hj64]
    by_cases hj : j < P.L
    · rw [heq j hj, decide_eq_true hj, decide_eq_true (hj.trans_le hl), Bool.and_true,
        Bool.true_and]
    · rw [hhigh _ (by omega), decide_eq_false hj, Bool.false_and, Bool.false_and]

theorem value_of_fits (h : Cells P st n) (hDP : P.maintainDP = true) (hsh : Shape P st)
    (hg : graph P st n e u v) (hfits : fits P (st.values.getD e 0)) :
    ((memAt P st u ^^^ memAt P st v) >>> P.DL) &&& lowMask P.vBits =
      BitVec.ofNat 64 (st.values.getD e 0 % 2 ^ P.L) := by
  rw [read_eq_iff fun b hb => highBit h hDP hsh hg hb]
  intro j hj
  apply valueBit h hDP hg
  have hvdl : P.VDL = P.L + P.DL := rfl
  rw [shownWidth, if_pos hfits]
  omega

theorem dataPlane_query_cells (h : Cells P st n) (hDP : P.maintainDP = true) {i : ℕ}
    (hi : i < n) : DataPlaneOthello.query P (fullSync st) (keyAt st i) =
      (true, ((memAt P st (ends P st i).1 ^^^ memAt P st (ends P st i).2) >>> P.DL) &&&
        lowMask P.vBits) := by
  have hg := graph_ends P st hi
  have hsync : DataPlaneOthello.getIndices P (fullSync st) (keyAt st i) =
      ((ends P st i).1, (ends P st i).2) := rfl
  simp only [DataPlaneOthello.query, hsync]
  have hmem : ∀ w, memGet P.toConfig (fullSync st).mem w = memAt P st w := fun _ => rfl
  simp only [hmem]
  by_cases hD : P.DL = 0
  · rw [if_pos hD]
  · have hmark : ∀ w : BitVec 64, w.getLsbD 0 = true → ¬ w &&& 1 = 0 := by
      intro w hw hzero
      have := (and_one_eq_zero_iff w).mp (beq_iff_eq.mpr hzero)
      rw [hw] at this
      cases this
    have htaken : ¬ (memAt P st (ends P st i).1 &&& 1 = 0 ∨ memAt P st (ends P st i).2 &&& 1 = 0) :=
      not_or.mpr ⟨hmark _ (h.taken hDP hD _ _ _ hg),
        hmark _ (h.taken hDP hD _ _ _ ((undirected_graph P st _).symm hg))⟩
    rw [if_neg hD, if_neg htaken]
    split
    · rfl
    · have hdigest := digest_matches h hDP hg
      have hhd : (fullSync st).hd = st.hd := rfl
      rw [hhd, hdigest, beq_self_eq_true]

theorem dataPlane_query_eq (h : Consistent P st st.keyCnt) (hDP : P.maintainDP = true) {i : ℕ}
    (hi : i < st.keyCnt) (hfits : fits P (st.values.getD i 0)) :
    DataPlaneOthello.query P (fullSync st) (keyAt st i) =
      (true, BitVec.ofNat 64 (st.values.getD i 0 % 2 ^ P.L)) := by
  rw [dataPlane_query_cells h.cells hDP hi,
    value_of_fits h.cells hDP h.toShape (graph_ends P st hi) hfits]

end OthelloDigests
