import Mathlib.Data.Nat.Bitwise
import Mathlib.Data.Nat.Log
import Mathlib.Tactic.Ring

/-! # The alternate position of `VacuumFilter`

The positions below `n` are rotated by the bias of the fingerprint and cut into
segments by the highest bit in which they differ from `n`; inside a segment the
alternate position is an exclusive or, so it is never the position itself and
leads back to it. -/
namespace AlternatePosition

def MultiplyDeBruijnBitPosition : List ℕ :=
  [0, 9, 1, 10, 13, 21, 2, 29, 11, 14, 16, 18, 22, 25, 3, 30,
    8, 12, 20, 28, 15, 17, 24, 7, 19, 27, 23, 6, 26, 5, 4, 31]

/-- `v |= v >> s` on an `int`. -/
def smear (v : BitVec 32) (s : ℕ) : BitVec 32 := v ||| v.sshiftRight s

def findHighestBit (v : BitVec 32) : ℕ :=
  let v := smear (smear (smear (smear (smear v 1) 2) 4) 8) 16
  MultiplyDeBruijnBitPosition.getD ((v * 0x07C4ACDD#32) >>> 27).toNat 0

theorem msb_smear {v : BitVec 32} (h : v.msb = false) (s : ℕ) : (smear v s).msb = false := by
  rw [smear, BitVec.msb_or, BitVec.msb_sshiftRight, h, Bool.or_false]

theorem getLsbD_smear {v w : BitVec 32} {s : ℕ} (hm : v.msb = false)
    (h : ∀ j, v.getLsbD j = true ↔ ∃ i, i < s ∧ w.getLsbD (j + i) = true) (j : ℕ) :
    (smear v s).getLsbD j = true ↔ ∃ i, i < 2 * s ∧ w.getLsbD (j + i) = true := by
  rw [smear, BitVec.sshiftRight_eq_of_msb_false hm, BitVec.getLsbD_or,
    BitVec.getLsbD_ushiftRight, Bool.or_eq_true, h, h]
  constructor
  · rintro (⟨i, hi, hw⟩ | ⟨i, hi, hw⟩)
    · exact ⟨i, by omega, hw⟩
    · exact ⟨s + i, by omega, by rwa [← Nat.add_assoc, Nat.add_comm j s]⟩
  · rintro ⟨i, hi, hw⟩
    by_cases his : i < s
    · exact Or.inl ⟨i, his, hw⟩
    · exact Or.inr ⟨i - s, by omega, by rwa [show s + j + (i - s) = j + i by omega]⟩

theorem getLsbD_smeared {v : BitVec 32} (hm : v.msb = false) (j : ℕ) :
    (smear (smear (smear (smear (smear v 1) 2) 4) 8) 16).getLsbD j = true ↔
      ∃ i, i < 32 ∧ v.getLsbD (j + i) = true := by
  have h1 : ∀ j, v.getLsbD j = true ↔ ∃ i, i < 1 ∧ v.getLsbD (j + i) = true := fun j =>
    ⟨fun h => ⟨0, Nat.one_pos, h⟩, fun ⟨i, hi, h⟩ => by
      rwa [Nat.lt_one_iff.mp hi, Nat.add_zero] at h⟩
  have h2 := getLsbD_smear hm h1
  have h4 := getLsbD_smear (msb_smear hm 1) h2
  have h8 := getLsbD_smear (msb_smear (msb_smear hm 1) 2) h4
  have h16 := getLsbD_smear (msb_smear (msb_smear (msb_smear hm 1) 2) 4) h8
  exact getLsbD_smear (msb_smear (msb_smear (msb_smear (msb_smear hm 1) 2) 4) 8) h16 j

/-- The multiplication by the de Bruijn word is right on every value the smearing leaves. -/
theorem table_lookup : ∀ h : Fin 31, MultiplyDeBruijnBitPosition.getD
    ((BitVec.ofNat 32 (2 ^ (h.val + 1) - 1) * 0x07C4ACDD#32) >>> 27).toNat 0 = h.val := by
  decide

theorem findHighestBit_spec {x : ℕ} (h0 : x ≠ 0) (hx : x < 2 ^ 31) :
    findHighestBit (BitVec.ofNat 32 x) = x.log2 := by
  have hlog : x.log2 < 31 := (Nat.log2_lt h0).mpr hx
  have hm : (BitVec.ofNat 32 x).msb = false := by
    rw [BitVec.msb_eq_false_iff_two_mul_lt, BitVec.toNat_ofNat, Nat.mod_eq_of_lt (by omega)]
    omega
  have hsmeared : smear (smear (smear (smear (smear (BitVec.ofNat 32 x) 1) 2) 4) 8) 16 =
      BitVec.ofNat 32 (2 ^ (x.log2 + 1) - 1) := by
    apply BitVec.eq_of_getLsbD_eq
    intro j hj
    rw [Bool.eq_iff_iff, getLsbD_smeared hm, BitVec.getLsbD_ofNat, Nat.testBit_two_pow_sub_one,
      decide_eq_true hj, Bool.true_and, decide_eq_true_eq]
    constructor
    · rintro ⟨i, -, h⟩
      rw [BitVec.getLsbD_ofNat, Bool.and_eq_true] at h
      have hle : 2 ^ (j + i) ≤ x := Nat.ge_two_pow_of_testBit h.2
      have := (Nat.le_log2 h0).mpr hle
      omega
    · intro h
      refine ⟨x.log2 - j, by omega, ?_⟩
      rw [Nat.add_sub_of_le (by omega), BitVec.getLsbD_ofNat, Bool.and_eq_true,
        decide_eq_true_eq]
      exact ⟨by omega, Nat.testBit_log2 h0⟩
  rw [findHighestBit]
  simp only [hsmeared]
  exact table_lookup ⟨x.log2, hlog⟩

section Segments

variable {n p t h : ℕ}

theorem xor_ne_zero {p n : ℕ} (h : p ≠ n) : p ^^^ n ≠ 0 := fun h0 => h (by
  rw [← Nat.xor_zero p, ← Nat.xor_self n, ← Nat.xor_assoc, h0, Nat.zero_xor])

theorem testBit_log2_xor (hp : p < n) :
    p.testBit (p ^^^ n).log2 = false ∧ n.testBit (p ^^^ n).log2 = true ∧
      ∀ j, (p ^^^ n).log2 < j → p.testBit j = n.testBit j := by
  have h0 : p ^^^ n ≠ 0 := xor_ne_zero (by omega)
  have htop : ∀ j, (p ^^^ n).log2 < j → p.testBit j = n.testBit j := by
    intro j hj
    have hlt : p ^^^ n < 2 ^ j := (Nat.log2_lt h0).mp hj
    have hbit := Nat.testBit_lt_two_pow hlt
    rw [Nat.testBit_xor] at hbit
    simpa using hbit
  have hat := Nat.testBit_log2 h0
  rw [Nat.testBit_xor] at hat
  cases hpb : p.testBit (p ^^^ n).log2 with
  | false =>
    rw [hpb, Bool.false_xor] at hat
    exact ⟨rfl, hat, htop⟩
  | true =>
    rw [hpb] at hat
    have hnb : n.testBit (p ^^^ n).log2 = false := by simpa using hat
    have := Nat.lt_of_testBit _ hnb hpb fun j hj => (htop j hj).symm
    omega

theorem segment_xor (hp : p < n) (ht : t < 2 ^ (p ^^^ n).log2) :
    p ^^^ t < n ∧ ((p ^^^ t) ^^^ n).log2 = (p ^^^ n).log2 := by
  obtain ⟨hpb, hnb, htop⟩ := testBit_log2_xor hp
  generalize hh : (p ^^^ n).log2 = h at *
  have htb : ∀ j, h ≤ j → t.testBit j = false := fun j hj =>
    Nat.testBit_lt_two_pow (ht.trans_le (Nat.pow_le_pow_right (by decide) hj))
  have hbits : ∀ j, h ≤ j → (p ^^^ t).testBit j = p.testBit j := fun j hj => by
    rw [Nat.testBit_xor, htb j hj, Bool.xor_false]
  have hlt : p ^^^ t < n := by
    refine Nat.lt_of_testBit h ?_ hnb fun j hj => ?_
    · rw [hbits h (Nat.le_refl h), hpb]
    · rw [hbits j hj.le, htop j hj]
  refine ⟨hlt, ?_⟩
  have h0 : (p ^^^ t) ^^^ n ≠ 0 := xor_ne_zero (by omega)
  refine (Nat.log2_eq_iff h0).mpr ⟨Nat.ge_two_pow_of_testBit ?_, ?_⟩
  · rw [Nat.testBit_xor, hbits h (Nat.le_refl h), hpb, hnb]
    rfl
  · apply Nat.lt_pow_two_of_testBit
    intro j hj
    rw [Nat.testBit_xor, hbits j (by omega), htop j (by omega), Bool.xor_self]

end Segments

/-- `t` of `alternate`: the number the rotated position is xored with. -/
def segmentXor (n delta pos : ℕ) : ℕ :=
  let segment_length := 1 <<< findHighestBit (BitVec.ofNat 32 (pos ^^^ n))
  let t := delta &&& (segment_length - 1)
  if t = 0 then 1 else t

def smallAlternate (n max_2_power fp_hash pos : ℕ) : ℕ :=
  let delta := fp_hash &&& (max_2_power - 1)
  let bias := delta
  let pos := if pos + bias ≥ n then pos + bias - n else pos + bias
  let ret : ℤ := (pos ^^^ segmentXor n delta pos : ℕ) - bias
  (if ret < 0 then ret + n else ret).toNat

theorem segmentXor_spec {n p : ℕ} (delta : ℕ) (he : n % 2 = 0) (hn : n < 2 ^ 31) (hp : p < n) :
    0 < segmentXor n delta p ∧ segmentXor n delta p < 2 ^ (p ^^^ n).log2 := by
  have h0 : p ^^^ n ≠ 0 := xor_ne_zero (by omega)
  have hx : p ^^^ n < 2 ^ 31 := Nat.xor_lt_two_pow (by omega) hn
  simp only [segmentXor, findHighestBit_spec h0 hx, Nat.one_shiftLeft,
    Nat.and_two_pow_sub_one_eq_mod]
  have hpos : 0 < 2 ^ (p ^^^ n).log2 := Nat.two_pow_pos _
  have hmod := Nat.mod_lt delta hpos
  -- the length-one segment would hold `n + 1`, as `n` is even
  have hlog : 1 ≤ (p ^^^ n).log2 := by
    by_contra hlt
    obtain ⟨-, hnb, -⟩ := testBit_log2_xor hp
    rw [show (p ^^^ n).log2 = 0 by omega, Nat.testBit_zero, decide_eq_true_eq] at hnb
    omega
  have htwo : 2 ≤ 2 ^ (p ^^^ n).log2 := by
    calc 2 = 2 ^ 1 := rfl
      _ ≤ _ := Nat.pow_le_pow_right (by decide) hlog
  split <;> omega

theorem segmentXor_segment {n p : ℕ} (delta : ℕ) (he : n % 2 = 0) (hn : n < 2 ^ 31)
    (hp : p < n) : segmentXor n delta (p ^^^ segmentXor n delta p) = segmentXor n delta p := by
  obtain ⟨-, hlt⟩ := segmentXor_spec delta he hn hp
  obtain ⟨hp', hlog⟩ := segment_xor hp hlt
  generalize ht : segmentXor n delta p = t at *
  have h0 : p ^^^ n ≠ 0 := xor_ne_zero (by omega)
  have h0' : (p ^^^ t) ^^^ n ≠ 0 := xor_ne_zero (by omega)
  have hx : p ^^^ n < 2 ^ 31 := Nat.xor_lt_two_pow (by omega) hn
  have hx' : (p ^^^ t) ^^^ n < 2 ^ 31 := Nat.xor_lt_two_pow (by omega) hn
  have ht' : segmentXor n delta p = t := ht
  rw [segmentXor, findHighestBit_spec h0 hx] at ht'
  rw [segmentXor, findHighestBit_spec h0' hx', hlog]
  exact ht'

section Alternate

variable {n max_2_power fp_hash pos p : ℕ}

/-- `p` is `pos` moved up by `bias` around the table. -/
def Rotated (n bias pos p : ℕ) : Prop :=
  pos < n ∧ p < n ∧ (p = pos + bias ∨ p + n = pos + bias)

theorem exists_rotated {bias : ℕ} (hb : bias < n) (hp : pos < n) : ∃ p, Rotated n bias pos p := by
  by_cases h : pos + bias < n
  · exact ⟨pos + bias, hp, h, Or.inl rfl⟩
  · exact ⟨pos + bias - n, hp, by omega, Or.inr (by omega)⟩

theorem exists_rotated_back {bias : ℕ} (hb : bias < n) (hp : p < n) :
    ∃ pos, Rotated n bias pos p := by
  by_cases h : bias ≤ p
  · exact ⟨p - bias, by omega, hp, Or.inl (by omega)⟩
  · exact ⟨p + n - bias, by omega, hp, Or.inr (by omega)⟩

theorem smallAlternate_of_rotated {q : ℕ}
    (h : Rotated n (fp_hash &&& (max_2_power - 1)) pos p)
    (h' : Rotated n (fp_hash &&& (max_2_power - 1)) q
      (p ^^^ segmentXor n (fp_hash &&& (max_2_power - 1)) p)) :
    smallAlternate n max_2_power fp_hash pos = q := by
  simp only [smallAlternate]
  generalize fp_hash &&& (max_2_power - 1) = bias at *
  obtain ⟨hpos, hp, hrot⟩ := h
  obtain ⟨hq, hp', hrot'⟩ := h'
  have hup : (if pos + bias ≥ n then pos + bias - n else pos + bias) = p := by
    split <;> omega
  rw [hup]
  split <;> omega

/-- For an even table the alternate position is another bucket, and leads back. -/
theorem smallAlternate_spec (he : n % 2 = 0) (hn : n < 2 ^ 31) (hm : max_2_power < n)
    (hpos : pos < n) :
    smallAlternate n max_2_power fp_hash pos < n ∧
      smallAlternate n max_2_power fp_hash pos ≠ pos ∧
      smallAlternate n max_2_power fp_hash (smallAlternate n max_2_power fp_hash pos) = pos := by
  have hb : fp_hash &&& (max_2_power - 1) < n := by
    have := Nat.and_le_right (n := fp_hash) (m := max_2_power - 1)
    omega
  obtain ⟨p, hrot⟩ := exists_rotated hb hpos
  obtain ⟨hseg, hlt⟩ := segmentXor_spec (fp_hash &&& (max_2_power - 1)) he hn hrot.2.1
  have hp' := (segment_xor hrot.2.1 hlt).1
  have hback := segmentXor_segment (fp_hash &&& (max_2_power - 1)) he hn hrot.2.1
  obtain ⟨q, hrot'⟩ := exists_rotated_back hb hp'
  have hq : smallAlternate n max_2_power fp_hash pos = q := smallAlternate_of_rotated hrot hrot'
  rw [hq]
  refine ⟨hrot'.1, ?_, smallAlternate_of_rotated hrot' ?_⟩
  · rintro rfl
    have hsame : p ^^^ segmentXor n (fp_hash &&& (max_2_power - 1)) p = p := by
      have h1 := hrot.2
      have h2 := hrot'.2
      omega
    have hzero := congrArg (p ^^^ ·) hsame
    simp only [← Nat.xor_assoc, Nat.xor_self, Nat.zero_xor] at hzero
    omega
  · rw [hback, Nat.xor_assoc, Nat.xor_self, Nat.xor_zero]
    exact hrot

end Alternate

end AlternatePosition
