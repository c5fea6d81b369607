import Mathlib.Data.List.Basic
import Mathlib.Tactic.Ring

/-! # Bits of word arrays

A list of machine words is read as one long bit string, least significant bit of
the first word first. Masks, shifts and words two halves wide are described by
the bits they touch, so that packed fields at any offset can be compared. -/
namespace BitWords

variable {w : ℕ}

/-- The bit at position `p`; positions past the last word read as zero. -/
def bitAt (ws : List (BitVec w)) (p : ℕ) : Bool := (ws.getD (p / w) 0).getLsbD (p % w)

theorem getLsbD_highMask (k j : ℕ) :
    (BitVec.allOnes w <<< k).getLsbD j = (decide (k ≤ j) && decide (j < w)) := by
  rw [BitVec.getLsbD_shiftLeft, BitVec.getLsbD_allOnes]
  grind

theorem getLsbD_lowMask (k j : ℕ) :
    (~~~(BitVec.allOnes w <<< k)).getLsbD j = (decide (j < k) && decide (j < w)) := by
  rw [BitVec.getLsbD_not, getLsbD_highMask]
  grind

theorem getLsbD_twoPow_sub_one {k : ℕ} (hk : k < w) (j : ℕ) :
    ((1#w <<< k) - 1#w).getLsbD j = decide (j < k) := by
  have h : (1#w <<< k) - 1#w = BitVec.ofNat w (2 ^ k - 1) := by
    apply BitVec.eq_of_toNat_eq
    have hlt : 2 ^ k < 2 ^ w := Nat.pow_lt_pow_right (by decide) hk
    have h1 : 1 < 2 ^ w := Nat.one_lt_two_pow (by omega)
    have hpos : 0 < 2 ^ k := Nat.two_pow_pos k
    rw [BitVec.toNat_sub, BitVec.toNat_shiftLeft, BitVec.toNat_ofNat, BitVec.toNat_ofNat,
      Nat.mod_eq_of_lt h1, Nat.one_shiftLeft, Nat.mod_eq_of_lt hlt,
      Nat.mod_eq_of_lt (a := 2 ^ k - 1) (by omega)]
    rw [show 2 ^ w - 1 + 2 ^ k = 2 ^ k - 1 + 2 ^ w by omega, Nat.add_mod_right,
      Nat.mod_eq_of_lt (by omega)]
  rw [h, BitVec.getLsbD_ofNat, Nat.testBit_two_pow_sub_one]
  grind

@[simp] theorem bitAt_replicate_zero (n p : ℕ) :
    bitAt (List.replicate n (0 : BitVec w)) p = false := by
  simp only [bitAt, List.getD_eq_getElem?_getD, List.getElem?_replicate]
  split <;> simp

theorem bitAt_set (ws : List (BitVec w)) (i p : ℕ) (x : BitVec w) :
    bitAt (ws.set i x) p =
      if p / w = i ∧ i < ws.length then x.getLsbD (p % w) else bitAt ws p := by
  simp only [bitAt, List.getD_eq_getElem?_getD, List.getElem?_set]
  grind

theorem ext_bitAt {us vs : List (BitVec w)} (hl : us.length = vs.length)
    (h : ∀ p, bitAt us p = bitAt vs p) : us = vs := by
  apply List.ext_getElem hl
  intro i hi hi'
  apply BitVec.eq_of_getLsbD_eq
  intro j hj
  have hp := h (w * i + j)
  have hw : 0 < w := by omega
  rw [bitAt, bitAt, Nat.mul_add_div hw, Nat.div_eq_of_lt hj, Nat.mul_add_mod,
    Nat.mod_eq_of_lt hj, Nat.add_zero] at hp
  simpa [List.getD_eq_getElem?_getD, hi, hi'] using hp

/-- The 64-bit word `i` of a table of 32-bit words, low half first. -/
def load64 (ws : List (BitVec 32)) (i : ℕ) : BitVec 64 :=
  ws.getD (2 * i + 1) 0 ++ ws.getD (2 * i) 0

def store64 (ws : List (BitVec 32)) (i : ℕ) (x : BitVec 64) : List (BitVec 32) :=
  (ws.set (2 * i) (x.extractLsb' 0 32)).set (2 * i + 1) (x.extractLsb' 32 32)

@[simp] theorem length_store64 (ws : List (BitVec 32)) (i : ℕ) (x : BitVec 64) :
    (store64 ws i x).length = ws.length := by
  simp [store64]

theorem getLsbD_load64 (ws : List (BitVec 32)) (i : ℕ) {j : ℕ} (hj : j < 64) :
    (load64 ws i).getLsbD j = bitAt ws (64 * i + j) := by
  rw [load64, BitVec.getLsbD_append, bitAt]
  by_cases h : j < 32
  · rw [show (64 * i + j) / 32 = 2 * i by omega, show (64 * i + j) % 32 = j by omega]
    simp [h]
  · rw [show (64 * i + j) / 32 = 2 * i + 1 by omega, show (64 * i + j) % 32 = j - 32 by omega]
    simp [h]

theorem bitAt_store64 (ws : List (BitVec 32)) (i p : ℕ) (x : BitVec 64)
    (hi : 2 * i + 1 < ws.length) :
    bitAt (store64 ws i x) p = if p / 64 = i then x.getLsbD (p % 64) else bitAt ws p := by
  rw [store64, bitAt_set, bitAt_set, List.length_set]
  have hx : ∀ s, (x.extractLsb' s 32).getLsbD (p % 32) = x.getLsbD (s + p % 32) := by
    intro s
    rw [BitVec.getLsbD_extractLsb']
    simp [Nat.mod_lt]
  rw [hx, hx]
  by_cases hp : p / 64 = i
  · rw [if_pos hp]
    by_cases ho : p / 32 = 2 * i + 1
    · rw [if_pos ⟨ho, hi⟩, show 32 + p % 32 = p % 64 by omega]
    · rw [if_neg (fun h => ho h.1), if_pos ⟨by omega, by omega⟩,
        show 0 + p % 32 = p % 64 by omega]
  · rw [if_neg hp, if_neg (fun h => by omega), if_neg (fun h => by omega)]

end BitWords
