import TinyCR.BijectiveMixing
import TinyCR.VacuumFilter

/-! # The finalizers of MurmurHash

The hash of the keys is a bijection of the words, so no two keys share a hash value, and neither a
fingerprint nor a first position is given to more keys than another, up to one key. -/
namespace MurmurHash

open BijectiveMixing VacuumFilter

def MurmurHash32 (h : BitVec 32) : BitVec 32 :=
  let h := h ^^^ (h >>> 16)
  let h := h * 0x85ebca6b#32
  let h := h ^^^ (h >>> 13)
  let h := h * 0xc2b2ae35#32
  h ^^^ (h >>> 16)

def MurmurHash64 (h : BitVec 64) : BitVec 64 :=
  let h := h ^^^ (h >>> 33)
  let h := h * 0xff51afd7ed558ccd#64
  let h := h ^^^ (h >>> 33)
  let h := h * 0xc4ceb9fe1a85ec53#64
  h ^^^ (h >>> 33)

/-- The class `HashUtil`. -/
def murmur : HashUtil := ⟨MurmurHash64, MurmurHash32⟩

theorem MurmurHash64_bijective : Function.Bijective MurmurHash64 := by
  have hfst : 0xff51afd7ed558ccd#64 * 0x4f74430c22a54005#64 = 1#64 := by decide
  have hsnd : 0xc4ceb9fe1a85ec53#64 * 0x9cb4b2f8129337db#64 = 1#64 := by decide
  have h33 : Function.Bijective (xorShift 33 : BitVec 64 → BitVec 64) :=
    xorShift_bijective (by decide)
  exact h33.comp ((mul_bijective hsnd).comp (h33.comp ((mul_bijective hfst).comp h33)))

variable {E : Type} {f : VacuumFilter.Filter E}

theorem hashed_bijective : Function.Bijective (hashed murmur) :=
  MurmurHash64_bijective.comp (xor_bijective _)

theorem fingerprint_eq_iff (hlen : 1 < f.fp_len) {v : ℕ} (hv : 1 ≤ v ∧ v < 2 ^ f.fp_len)
    (ele : BitVec 64) : fingerprint murmur f (hashed murmur ele) = v ↔
      (MurmurHash64 (hashed murmur ele ^^^ 0x192837319273#64)).toNat ≡ v - 1
        [MOD 2 ^ f.fp_len - 1] := by
  have h4 : 2 ^ 2 ≤ 2 ^ f.fp_len := Nat.pow_le_pow_right (by decide) hlen
  have hmod : fingerprint murmur f (hashed murmur ele) =
      (MurmurHash64 (hashed murmur ele ^^^ 0x192837319273#64)).toNat % (2 ^ f.fp_len - 1) + 1 := by
    rw [fingerprint, Nat.one_shiftLeft]
    rfl
  rw [hmod, Nat.ModEq, Nat.mod_eq_of_lt (by omega : v - 1 < 2 ^ f.fp_len - 1)]
  omega

/-- `(ele % n + n) % n` on `long long` is the residue of the word moved by half its range. -/
theorem positionHash_eq_iff {pos : ℕ} (hpos : pos < f.n) (x : BitVec 64) :
    positionHash f x = pos ↔ (x + 0x8000000000000000#64).toNat ≡ pos + 2 ^ 63 [MOD f.n] := by
  have hn : (f.n : ℤ) ≠ 0 := by omega
  have hres : ((positionHash f x : ℕ) : ℤ) = x.toInt % f.n := by
    have hlt : -(f.n : ℤ) < x.toInt.tmod f.n := Int.lt_tmod_of_pos _ (by omega)
    have hnn : 0 ≤ x.toInt.tmod f.n + f.n := by omega
    rw [positionHash, Int.tmod_eq_emod_of_nonneg hnn, Int.toNat_of_nonneg (Int.emod_nonneg _ hn),
      Int.add_emod_right, Int.tmod_def, Int.sub_mul_emod_self_left]
  have hmoved : ((x + 0x8000000000000000#64).toNat : ℤ) = x.toInt + 2 ^ 63 := by
    rw [BitVec.toInt_eq_toNat_cond, BitVec.toNat_add, BitVec.toNat_ofNat]
    have := x.isLt
    split
    · omega
    · omega
  rw [← Int.natCast_modEq_iff, hmoved, ← Int.natCast_inj, hres]
  push_cast
  constructor
  · intro h
    apply Int.ModEq.add_right
    rw [← h]
    exact (Int.mod_modEq _ _).symm
  · intro h
    have hmod : x.toInt % f.n = (pos : ℤ) % f.n := Int.ModEq.add_right_cancel' _ h
    rw [hmod, Int.emod_eq_of_lt (by omega) (by omega)]

/-- How many of the 64-bit keys have a fingerprint, and how many a first position. -/
theorem keys_spread (f : VacuumFilter.Filter E) (hfp : 4 ≤ f.fp_len ∧ f.fp_len ≤ 16) :
    (∀ v, 1 ≤ v ∧ v < 2 ^ f.fp_len →
      {ele | fingerprint murmur f (hashed murmur ele) = v}.ncard =
        share (2 ^ 64) (2 ^ f.fp_len - 1) (v - 1)) ∧
    ∀ pos < f.n, {ele | (positionPair murmur f ele).1 = pos}.ncard =
      share (2 ^ 64) f.n (pos + 2 ^ 63) := by
  constructor
  · intro v hv
    have h16 : 2 ^ 4 ≤ 2 ^ f.fp_len := Nat.pow_le_pow_right (by decide) hfp.1
    have hmix : Function.Bijective fun ele =>
        MurmurHash64 (hashed murmur ele ^^^ 0x192837319273#64) :=
      MurmurHash64_bijective.comp ((xor_bijective _).comp hashed_bijective)
    simp only [fingerprint_eq_iff (by omega) hv]
    exact ncard_residue hmix (by omega) _
  · intro pos hpos
    have hmix : Function.Bijective fun ele => hashed murmur ele + 0x8000000000000000#64 :=
      (add_bijective _).comp hashed_bijective
    simp only [positionPair, positionHash_eq_iff hpos]
    exact ncard_residue hmix (by omega) _

def sixBuckets : VacuumFilter.Filter ℕ := ⟨6, 4, 0, 4, 0, [], true, 4, 1, [], ⟨id, id⟩, 0, 0⟩

theorem keys_spread_six : {ele | (positionPair murmur sixBuckets ele).1 = 4}.ncard =
    {ele | (positionPair murmur sixBuckets ele).1 = 3}.ncard + 1 := by
  obtain ⟨-, hpos⟩ := keys_spread sixBuckets (by decide)
  rw [hpos 4 (by decide), hpos 3 (by decide)]
  decide

end MurmurHash
