import Mathlib.Data.BitVec
import Mathlib.Data.Int.CardIntervalMod
import Mathlib.Data.Set.Card

/-! # Mixing of machine words

The steps of which finalizers of hash functions are made, on words of any width: an exclusive or
with the word shifted right, a multiplication with an odd constant, an exclusive or with a
constant. Each is a bijection, so what is composed of them loses nothing, and the words spread
evenly over the residues of any modulus. -/
namespace BijectiveMixing

variable {w : ℕ}

theorem bijective_of_injective {mix : BitVec w → BitVec w} (h : Function.Injective mix) :
    Function.Bijective mix := by
  have hfinite : Finite (BitVec w) := Finite.of_equiv _ BitVec.equivFin.toEquiv.symm
  exact Finite.injective_iff_bijective.mp h

def xorShift (s : ℕ) (x : BitVec w) : BitVec w := x ^^^ (x >>> s)

theorem xorShift_bijective {s : ℕ} (hs : 0 < s) :
    Function.Bijective (xorShift s : BitVec w → BitVec w) := by
  apply bijective_of_injective
  intro x y h
  have hbit : ∀ d i, w ≤ i + d → x.getLsbD i = y.getLsbD i := by
    intro d
    induction d with
    | zero =>
      intro i hi
      rw [BitVec.getLsbD_of_ge x i hi, BitVec.getLsbD_of_ge y i hi]
    | succ d ih =>
      intro i hi
      have hupper := ih (s + i) (by omega)
      have heq : (xorShift s x).getLsbD i = (xorShift s y).getLsbD i := by rw [h]
      simp only [xorShift, BitVec.getLsbD_xor, BitVec.getLsbD_ushiftRight, hupper] at heq
      exact Bool.xor_left_inj.mp heq
  apply BitVec.eq_of_getLsbD_eq
  intro i _
  exact hbit w i (by omega)

theorem mul_bijective {c d : BitVec w} (h : c * d = 1#w) :
    Function.Bijective fun x : BitVec w => x * c := by
  apply bijective_of_injective
  intro x y hxy
  have hback : x * c * d = y * c * d := congrArg (· * d) hxy
  rwa [BitVec.mul_assoc, BitVec.mul_assoc, h, BitVec.mul_one, BitVec.mul_one] at hback

theorem xor_bijective (c : BitVec w) : Function.Bijective fun x : BitVec w => x ^^^ c := by
  apply bijective_of_injective
  intro x y hxy
  exact (BitVec.xor_left_inj c).mp hxy

theorem add_bijective (c : BitVec w) : Function.Bijective fun x : BitVec w => x + c := by
  apply bijective_of_injective
  intro x y hxy
  exact add_left_injective c hxy

/-- How many of `total` successive numbers have the residue of `v`; the shares of two residues
differ by at most one. -/
def share (total m v : ℕ) : ℕ := total / m + if v % m < total % m then 1 else 0

theorem ncard_words (p : ℕ → Prop) [DecidablePred p] :
    {x : BitVec w | p x.toNat}.ncard = Nat.count p (2 ^ w) := by
  have himage : BitVec.toNat '' {x : BitVec w | p x.toNat} =
      ((Finset.range (2 ^ w)).filter p : Set ℕ) := by
    apply Set.eq_of_subset_of_subset
    · rintro _ ⟨x, hx, rfl⟩
      exact Finset.mem_coe.mpr (Finset.mem_filter.mpr ⟨Finset.mem_range.mpr x.isLt, hx⟩)
    · intro i hi
      obtain ⟨hlt, hp⟩ := Finset.mem_filter.mp (Finset.mem_coe.mp hi)
      have hto : (BitVec.ofNat w i).toNat = i := by
        rw [BitVec.toNat_ofNat, Nat.mod_eq_of_lt (Finset.mem_range.mp hlt)]
      refine ⟨BitVec.ofNat w i, ?_, hto⟩
      rw [Set.mem_ofPred_eq, hto]
      exact hp
  have hinj : Function.Injective (BitVec.toNat : BitVec w → ℕ) := fun _ _ => BitVec.eq_of_toNat_eq
  rw [← Set.ncard_image_of_injective _ hinj, himage, Set.ncard_coe_finset,
    Nat.count_eq_card_filter_range]

theorem ncard_bijective {mix : BitVec w → BitVec w} (h : Function.Bijective mix)
    (p : BitVec w → Prop) : {x | p (mix x)}.ncard = {x | p x}.ncard := by
  have himage : mix '' {x | p (mix x)} = {x | p x} := Set.image_preimage_eq {x | p x} h.surjective
  rw [← himage, Set.ncard_image_of_injective _ h.injective]

/-- Mixed words have every residue equally often. -/
theorem ncard_residue {mix : BitVec w → BitVec w} (h : Function.Bijective mix) {m : ℕ} (hm : 0 < m)
    (v : ℕ) : {x | (mix x).toNat ≡ v [MOD m]}.ncard = share (2 ^ w) m v := by
  rw [ncard_bijective h fun x => x.toNat ≡ v [MOD m], ncard_words fun i => i ≡ v [MOD m],
    Nat.count_modEq_card _ hm, share]

end BijectiveMixing
