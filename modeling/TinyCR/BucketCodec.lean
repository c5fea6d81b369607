import TinyCR.BitWords
import Mathlib.Data.List.Sort
import Mathlib.Logic.Function.Basic
import Mathlib.Tactic.Linarith

/-! # The semi-sorted bucket of `SemiSortCuckooFilter`

Four fingerprints are kept in descending order in `4 * (fp_len - 1)` bits: their high
nibbles as one 12-bit rank among the descending nibble quadruples, their low bits as is.
The table is a `uint32_t` array read and written as 64-bit words. -/
namespace BucketCodec

open BitWords

/-- `#define ROUNDDOWN(a, b) ((a) - ((a) % (b)))` -/
def ROUNDDOWN (a b : ℕ) : ℕ := a - a % b

/-- The four slots of `store`, and `store[4]`, the number of non-zero ones. -/
structure Bucket where
  slots : List ℕ
  count : ℕ
  deriving DecidableEq, Repr

structure Tables where
  encodeTable : ℕ → ℕ
  decodeTable : ℕ → ℕ

/-- The values `plain_bit` takes in the four nested loops of `init`, in their order. -/
def plainBits : List ℕ :=
  (List.range 16).flatMap fun i =>
    (List.range (if i = 0 then 1 else i + 1)).flatMap fun j =>
      (List.range (if j = 0 then 1 else j + 1)).flatMap fun k =>
        (List.range (if k = 0 then 1 else k + 1)).map fun l =>
          (i <<< 12) + (j <<< 8) + (k <<< 4) + l

def Tables.fill (t : Tables) (index : ℕ) : List ℕ → Tables
  | [] => t
  | plain_bit :: rest =>
    Tables.fill ⟨Function.update t.encodeTable plain_bit index,
      Function.update t.decodeTable index plain_bit⟩ (index + 1) rest

/-- What `init` leaves in the two tables for `m == 4`. -/
def Tables.build (t : Tables) : Tables := t.fill 0 plainBits

/-- The tables agree with the loops of `init`. -/
def Tables.Built (t : Tables) : Prop := ∃ old : Tables, t = old.build

theorem fill_spec (ps : List ℕ) (hnd : ps.Nodup) (t : Tables) (n : ℕ) :
    (∀ i (hi : i < ps.length), (t.fill n ps).decodeTable (n + i) = ps[i] ∧
      (t.fill n ps).encodeTable ps[i] = n + i) ∧
    (∀ i, i < n → (t.fill n ps).decodeTable i = t.decodeTable i) ∧
    (∀ p, p ∉ ps → (t.fill n ps).encodeTable p = t.encodeTable p) := by
  induction ps generalizing t n with
  | nil => simp [Tables.fill]
  | cons p ps ih =>
    obtain ⟨hp, hnd⟩ := List.nodup_cons.mp hnd
    obtain ⟨h1, h2, h3⟩ := ih hnd ⟨Function.update t.encodeTable p n,
      Function.update t.decodeTable n p⟩ (n + 1)
    refine ⟨?_, ?_, ?_⟩
    · intro i hi
      rcases i with _ | i
      · exact ⟨(h2 n (by omega)).trans (Function.update_self ..),
          (h3 p hp).trans (Function.update_self ..)⟩
      · have h := h1 i (by simpa using hi)
        rw [show n + (i + 1) = n + 1 + i by omega]
        exact h
    · intro i hi
      exact (h2 i (by omega)).trans (Function.update_of_ne (by omega) _ _)
    · intro q hq
      rw [List.mem_cons, not_or] at hq
      exact (h3 q hq.2).trans (Function.update_of_ne hq.1 _ _)

theorem length_plainBits : plainBits.length = 3876 := by decide +kernel

theorem nodup_blocks {n : ℕ} {f : ℕ → List ℕ} (g : ℕ → ℕ) (hg : ∀ i < n, ∀ x ∈ f i, g x = i)
    (hf : ∀ i < n, (f i).Nodup) : ((List.range n).flatMap f).Nodup := by
  rw [List.nodup_flatMap]
  refine ⟨fun i hi => hf i (List.mem_range.mp hi), ?_⟩
  refine List.Pairwise.imp_of_mem ?_ List.nodup_range
  intro i j hi hj hne x hxi hxj
  rw [List.mem_range] at hi hj
  exact hne ((hg i hi x hxi).symm.trans (hg j hj x hxj))

theorem nodup_plainBits : plainBits.Nodup := by
  have hmem : ∀ {n j : ℕ}, n ≤ 16 → j < (if n = 0 then 1 else n + 1) → n < 16 → j < 16 := by
    intro n j _ hj hn
    split at hj <;> omega
  apply nodup_blocks (· / 4096)
  · intro i hi x hx
    simp only [List.mem_flatMap, List.mem_map, List.mem_range] at hx
    obtain ⟨j, hj, k, hk, l, hl, rfl⟩ := hx
    have hj := hmem hi.le hj hi
    have hk := hmem hj.le hk hj
    have hl := hmem hk.le hl hk
    simp only [Nat.shiftLeft_eq]
    omega
  · intro i hi
    apply nodup_blocks (· / 256 % 16)
    · intro j hj x hx
      simp only [List.mem_flatMap, List.mem_map, List.mem_range] at hx
      obtain ⟨k, hk, l, hl, rfl⟩ := hx
      have hj := hmem hi.le hj hi
      have hk := hmem hj.le hk hj
      have hl := hmem hk.le hl hk
      simp only [Nat.shiftLeft_eq]
      omega
    · intro j hj
      have hj := hmem hi.le hj hi
      apply nodup_blocks (· / 16 % 16)
      · intro k hk x hx
        simp only [List.mem_map, List.mem_range] at hx
        obtain ⟨l, hl, rfl⟩ := hx
        have hk := hmem hj.le hk hj
        have hl := hmem hk.le hl hk
        simp only [Nat.shiftLeft_eq]
        omega
      · intro k hk
        exact List.nodup_range.map fun a b h => Nat.add_left_cancel h

theorem mem_plainBits {i j k l : ℕ} (hi : i < 16) (hj : j ≤ i) (hk : k ≤ j) (hl : l ≤ k) :
    (i <<< 12) + (j <<< 8) + (k <<< 4) + l ∈ plainBits := by
  simp only [plainBits, List.mem_flatMap, List.mem_map, List.mem_range]
  refine ⟨i, hi, j, ?_, k, ?_, l, ?_, rfl⟩ <;> split <;> omega

/-- A descending nibble quadruple has a rank below 3876 and is read back from it. -/
theorem Tables.Built.round_trip {t : Tables} (h : t.Built) {p : ℕ} (hp : p ∈ plainBits) :
    t.encodeTable p < 3876 ∧ t.decodeTable (t.encodeTable p) = p := by
  obtain ⟨old, ht⟩ := h
  obtain ⟨i, hi, hip⟩ := List.getElem_of_mem hp
  obtain ⟨hd, he⟩ := (fill_spec plainBits nodup_plainBits old 0).1 i hi
  rw [Nat.zero_add, hip] at hd he
  rw [ht, Tables.build, he]
  exact ⟨Nat.lt_of_lt_of_eq hi length_plainBits, hd⟩

theorem Tables.Built.agree {t t' : Tables} (h : t.Built) (h' : t'.Built) :
    (∀ p ∈ plainBits, t.encodeTable p = t'.encodeTable p) ∧
      ∀ i < plainBits.length, t.decodeTable i = t'.decodeTable i := by
  obtain ⟨old, ht⟩ := h
  obtain ⟨old', ht'⟩ := h'
  rw [ht, ht', Tables.build, Tables.build]
  constructor
  · intro p hp
    obtain ⟨i, hi, hip⟩ := List.getElem_of_mem hp
    have h1 := ((fill_spec plainBits nodup_plainBits old 0).1 i hi).2
    have h2 := ((fill_spec plainBits nodup_plainBits old' 0).1 i hi).2
    rw [hip] at h1 h2
    rw [h1, h2]
  · intro i hi
    have h1 := ((fill_spec plainBits nodup_plainBits old 0).1 i hi).1
    have h2 := ((fill_spec plainBits nodup_plainBits old' 0).1 i hi).1
    rw [Nat.zero_add] at h1 h2
    rw [h1, h2]

theorem Tables.Built.decode_zero {t : Tables} (h : t.Built) : t.decodeTable 0 = 0 := by
  obtain ⟨old, ht⟩ := h
  have hpos : 0 < plainBits.length := by rw [length_plainBits]; decide
  obtain ⟨hd, -⟩ := (fill_spec plainBits nodup_plainBits old 0).1 0 hpos
  rw [ht, Tables.build, hd]
  rfl

theorem fill_beyond (ps : List ℕ) (t : Tables) {n i : ℕ} (hi : n + ps.length ≤ i) :
    (t.fill n ps).decodeTable i = t.decodeTable i := by
  induction ps generalizing t n with
  | nil => rfl
  | cons p ps ih =>
    rw [List.length_cons] at hi
    exact (ih _ (by omega)).trans (Function.update_of_ne (by omega) _ _)

theorem Tables.build_unwritten (t : Tables) :
    (∀ p ∉ plainBits, t.build.encodeTable p = t.encodeTable p) ∧
      ∀ i, plainBits.length ≤ i → t.build.decodeTable i = t.decodeTable i := by
  rw [Tables.build]
  refine ⟨(fill_spec plainBits nodup_plainBits t 0).2.2, fun i hi => ?_⟩
  have hbeyond : 0 + plainBits.length ≤ i := by rwa [Nat.zero_add]
  exact fill_beyond plainBits t hbeyond

/-- The encoded bits of a bucket: part 1 of `get_bucket`. -/
def readBits (T : List (BitVec 32)) (start_bit_pos bucket_length : ℕ) : BitVec 64 :=
  let end_bit_pos := start_bit_pos + bucket_length - 1
  let reading_lower_bound := start_bit_pos % 64
  let reading_upper_bound := end_bit_pos % 64
  if ROUNDDOWN start_bit_pos 64 = ROUNDDOWN end_bit_pos 64 then
    let unit := load64 T (ROUNDDOWN start_bit_pos 64 / 64)
    (unit &&& (BitVec.allOnes 64 >>> (63 - reading_upper_bound))) >>> reading_lower_bound
  else
    let unit1 := load64 T (ROUNDDOWN start_bit_pos 64 / 64)
    let unit2 := load64 T (ROUNDDOWN start_bit_pos 64 / 64 + 1)
    let t1 := unit1 >>> reading_lower_bound
    let t2 := (unit2 &&& ((1#64 <<< (reading_upper_bound + 1)) - 1#64)) <<<
      (64 - reading_lower_bound)
    t1 + t2

/-- Part 2 of `set_bucket`: the encoded bits are put in place. -/
def writeBits (T : List (BitVec 32)) (start_bit_pos bucket_length : ℕ) (all_encode : BitVec 64) :
    List (BitVec 32) :=
  let end_bit_pos := start_bit_pos + bucket_length - 1
  let writing_lower_bound := start_bit_pos % 64
  let writing_upper_bound := end_bit_pos % 64
  let index := ROUNDDOWN start_bit_pos 64 / 64
  if ROUNDDOWN start_bit_pos 64 = ROUNDDOWN end_bit_pos 64 then
    let unit := load64 T index
    store64 T index
      ((unit &&& (((1#64 <<< writing_lower_bound) - 1#64) +
          (BitVec.allOnes 64 - (BitVec.allOnes 64 >>> (63 - writing_upper_bound))))) +
        ((all_encode &&& ((1#64 <<< (writing_upper_bound - writing_lower_bound + 1)) - 1#64)) <<<
          writing_lower_bound))
  else
    let unit1 := load64 T index
    let unit2 := load64 T (index + 1)
    let lower_part := all_encode &&& ((1#64 <<< (64 - writing_lower_bound)) - 1#64)
    let higher_part := all_encode >>> (64 - writing_lower_bound)
    let T := store64 T index
      ((unit1 &&& ((1#64 <<< writing_lower_bound) - 1#64)) + (lower_part <<< writing_lower_bound))
    store64 T (index + 1)
      (((unit2 >>> (writing_upper_bound + 1)) <<< (writing_upper_bound + 1)) + higher_part)

theorem ROUNDDOWN_div (a : ℕ) : ROUNDDOWN a 64 / 64 = a / 64 := by
  unfold ROUNDDOWN
  omega

theorem ROUNDDOWN_eq_iff (a b : ℕ) : ROUNDDOWN a 64 = ROUNDDOWN b 64 ↔ a / 64 = b / 64 := by
  unfold ROUNDDOWN
  omega

theorem getLsbD_add_disjoint {x y : BitVec 64}
    (h : ∀ j, j < 64 → x.getLsbD j = true → y.getLsbD j = false) (j : ℕ) :
    (x + y).getLsbD j = (x.getLsbD j || y.getLsbD j) := by
  rw [BitVec.add_eq_or_of_and_eq_zero x y, BitVec.getLsbD_or]
  apply BitVec.eq_of_getLsbD_eq
  intro i hi
  have := h i hi
  rw [BitVec.getLsbD_and]
  cases hx : x.getLsbD i <;> simp_all

variable {T : List (BitVec 32)} {start len p : ℕ}

theorem getLsbD_readBits (h0 : 0 < len) (hlen : len < 64) (j : ℕ) :
    (readBits T start len).getLsbD j = (decide (j < len) && bitAt T (start + j)) := by
  have ho : start % 64 < 64 := Nat.mod_lt _ (by decide)
  rw [readBits]
  simp only [ROUNDDOWN_eq_iff, ROUNDDOWN_div]
  split
  case isTrue hs =>
    rw [BitVec.getLsbD_ushiftRight, BitVec.getLsbD_and, BitVec.getLsbD_ushiftRight,
      BitVec.getLsbD_allOnes]
    by_cases hj : j < len
    · rw [getLsbD_load64 _ _ (by omega),
        show 64 * (start / 64) + (start % 64 + j) = start + j by omega,
        decide_eq_true hj, decide_eq_true (by omega), Bool.and_true, Bool.true_and]
    · rw [decide_eq_false hj, decide_eq_false (by omega), Bool.and_false, Bool.false_and]
  case isFalse hs =>
    have h1 : ∀ i, ((load64 T (start / 64)) >>> (start % 64)).getLsbD i =
        (decide (start % 64 + i < 64) && bitAt T (start + i)) := by
      intro i
      rw [BitVec.getLsbD_ushiftRight]
      by_cases hi : start % 64 + i < 64
      · rw [getLsbD_load64 _ _ hi, show 64 * (start / 64) + (start % 64 + i) = start + i by omega,
          decide_eq_true hi, Bool.true_and]
      · rw [BitVec.getLsbD_of_ge _ _ (by omega), decide_eq_false hi, Bool.false_and]
    have h2 : ∀ i, ((load64 T (start / 64 + 1) &&&
        ((1#64 <<< ((start + len - 1) % 64 + 1)) - 1#64)) <<< (64 - start % 64)).getLsbD i =
        (decide (64 ≤ start % 64 + i ∧ i < len) && bitAt T (start + i)) := by
      intro i
      rw [BitVec.getLsbD_shiftLeft, BitVec.getLsbD_and, getLsbD_twoPow_sub_one (by omega)]
      by_cases hi : 64 ≤ start % 64 + i ∧ i < len
      · rw [getLsbD_load64 _ _ (by omega),
          show 64 * (start / 64 + 1) + (i - (64 - start % 64)) = start + i by omega,
          decide_eq_true hi, decide_eq_true (by omega), decide_eq_false (by omega),
          decide_eq_true (by omega)]
        simp
      · rw [decide_eq_false hi, Bool.false_and]
        by_cases hlow : i < 64 - start % 64
        · rw [decide_eq_true hlow]
          simp
        · rw [decide_eq_false (p := i - (64 - start % 64) < _) (by omega)]
          simp
    rw [getLsbD_add_disjoint, h1, h2]
    · by_cases hj : start % 64 + j < 64
      · rw [decide_eq_true hj, decide_eq_false (by omega), decide_eq_true (by omega)]
        simp
      · rw [decide_eq_false hj, Bool.false_and, Bool.false_or]
        congr 1
        exact decide_eq_decide.mpr ⟨And.right, fun h => ⟨by omega, h⟩⟩
    · intro i hi hx
      rw [h1, Bool.and_eq_true, decide_eq_true_eq] at hx
      rw [h2, decide_eq_false (by omega), Bool.false_and]

theorem getLsbD_outside {o u j : ℕ} (hou : o ≤ u) (hu : u < 64) (hj : j < 64) :
    ((1#64 <<< o) - 1#64 + (BitVec.allOnes 64 - (BitVec.allOnes 64 >>> (63 - u)))).getLsbD j =
      decide (j < o ∨ u < j) := by
  have ho : o < 64 := hou.trans_lt hu
  have hup : ∀ j, j < 64 → (BitVec.allOnes 64 - (BitVec.allOnes 64 >>> (63 - u))).getLsbD j =
      decide (u < j) := by
    intro j hj
    rw [BitVec.allOnes_sub_eq_not, BitVec.getLsbD_not, BitVec.getLsbD_ushiftRight,
      BitVec.getLsbD_allOnes, decide_eq_true hj, Bool.true_and, ← decide_not]
    exact decide_eq_decide.mpr (by omega)
  rw [getLsbD_add_disjoint, getLsbD_twoPow_sub_one ho, hup j hj, ← Bool.decide_or]
  intro i hi hx
  rw [getLsbD_twoPow_sub_one ho, decide_eq_true_eq] at hx
  rw [hup i hi]
  exact decide_eq_false (by omega)

theorem getLsbD_inside (x : BitVec 64) {o u j : ℕ} (hou : o ≤ u) (hlen : u - o + 1 < 64)
    (hj : j < 64) : ((x &&& ((1#64 <<< (u - o + 1)) - 1#64)) <<< o).getLsbD j =
      (decide (o ≤ j ∧ j ≤ u) && x.getLsbD (j - o)) := by
  rw [BitVec.getLsbD_shiftLeft, BitVec.getLsbD_and, getLsbD_twoPow_sub_one hlen,
    decide_eq_true hj, Bool.true_and, Bool.and_comm (x.getLsbD _), ← Bool.and_assoc,
    ← decide_not, ← Bool.decide_and]
  congr 1
  exact decide_eq_decide.mpr (by omega)

theorem getLsbD_lower (x : BitVec 64) {o j : ℕ} (h0 : 0 < o) (ho : o < 64) (hj : j < 64) :
    ((x &&& ((1#64 <<< (64 - o)) - 1#64)) <<< o).getLsbD j =
      (decide (o ≤ j) && x.getLsbD (j - o)) := by
  rw [BitVec.getLsbD_shiftLeft, BitVec.getLsbD_and, getLsbD_twoPow_sub_one (by omega),
    decide_eq_true hj, Bool.true_and, decide_eq_true (p := j - o < _) (by omega),
    Bool.and_true, ← decide_not]
  congr 1
  exact decide_eq_decide.mpr (by omega)

theorem getLsbD_above (x : BitVec 64) (u j : ℕ) :
    ((x >>> (u + 1)) <<< (u + 1)).getLsbD j = (decide (j < 64 ∧ u < j) && x.getLsbD j) := by
  rw [BitVec.getLsbD_shiftLeft, BitVec.getLsbD_ushiftRight, ← decide_not, ← Bool.decide_and]
  by_cases hj : j < 64 ∧ u < j
  · rw [decide_eq_true hj, decide_eq_true (by omega), Bool.true_and, Bool.true_and,
      Nat.add_sub_of_le (by omega)]
  · rw [decide_eq_false hj, decide_eq_false (by omega), Bool.false_and, Bool.false_and]

theorem bitAt_writeBits {enc : BitVec 64} (h0 : 0 < len) (hlen : len < 64)
    (henc : ∀ j, len ≤ j → enc.getLsbD j = false)
    (hT : 2 * ((start + len - 1) / 64) + 1 < T.length) (p : ℕ) :
    bitAt (writeBits T start len enc) p =
      if start ≤ p ∧ p < start + len then enc.getLsbD (p - start) else bitAt T p := by
  have ho : start % 64 < 64 := Nat.mod_lt _ (by decide)
  have hu : (start + len - 1) % 64 < 64 := Nat.mod_lt _ (by decide)
  have hp : p % 64 < 64 := Nat.mod_lt _ (by decide)
  rw [writeBits]
  simp only [ROUNDDOWN_eq_iff, ROUNDDOWN_div]
  split
  case isTrue hs =>
    have hou : start % 64 ≤ (start + len - 1) % 64 := by omega
    rw [bitAt_store64 _ _ _ _ (by omega)]
    by_cases hw : p / 64 = start / 64
    · rw [if_pos hw, getLsbD_add_disjoint, BitVec.getLsbD_and, getLsbD_outside hou hu hp,
        getLsbD_inside enc hou (by omega) hp, getLsbD_load64 _ _ hp,
        show 64 * (start / 64) + p % 64 = p by omega]
      · by_cases hin : start ≤ p ∧ p < start + len
        · rw [if_pos hin, decide_eq_false (by omega), decide_eq_true (by omega),
            show p % 64 - start % 64 = p - start by omega, Bool.and_false, Bool.false_or,
            Bool.true_and]
        · rw [if_neg hin, decide_eq_true (by omega), decide_eq_false (by omega), Bool.and_true,
            Bool.false_and, Bool.or_false]
      · intro i hi hx
        rw [BitVec.getLsbD_and, getLsbD_outside hou hu hi, Bool.and_eq_true,
          decide_eq_true_eq] at hx
        rw [getLsbD_inside enc hou (by omega) hi, decide_eq_false (by omega), Bool.false_and]
    · rw [if_neg hw, if_neg (by omega)]
  case isFalse hs =>
    have hnext : (start + len - 1) / 64 = start / 64 + 1 := by omega
    have hpos : 0 < start % 64 := by omega
    rw [bitAt_store64 _ _ _ _ (by rw [length_store64]; omega), bitAt_store64 _ _ _ _ (by omega)]
    by_cases hw2 : p / 64 = start / 64 + 1
    · rw [if_pos hw2, getLsbD_add_disjoint, getLsbD_above, BitVec.getLsbD_ushiftRight,
        getLsbD_load64 _ _ hp, show 64 * (start / 64 + 1) + p % 64 = p by omega]
      · by_cases hin : start ≤ p ∧ p < start + len
        · rw [if_pos hin, decide_eq_false (by omega), Bool.false_and, Bool.false_or,
            show 64 - start % 64 + p % 64 = p - start by omega]
        · rw [if_neg hin, decide_eq_true (by omega), Bool.true_and, henc _ (by omega),
            Bool.or_false]
      · intro i hi hx
        rw [getLsbD_above, Bool.and_eq_true, decide_eq_true_eq] at hx
        rw [BitVec.getLsbD_ushiftRight]
        exact henc _ (by omega)
    rw [if_neg hw2]
    by_cases hw : p / 64 = start / 64
    · rw [if_pos hw, getLsbD_add_disjoint, BitVec.getLsbD_and, getLsbD_twoPow_sub_one ho,
        getLsbD_lower enc hpos ho hp, getLsbD_load64 _ _ hp,
        show 64 * (start / 64) + p % 64 = p by omega]
      · by_cases hin : start ≤ p
        · rw [if_pos ⟨hin, by omega⟩, decide_eq_false (by omega), decide_eq_true (by omega),
            show p % 64 - start % 64 = p - start by omega, Bool.and_false, Bool.false_or,
            Bool.true_and]
        · rw [if_neg (by omega), decide_eq_true (by omega), decide_eq_false (by omega),
            Bool.and_true, Bool.false_and, Bool.or_false]
      · intro i hi hx
        rw [BitVec.getLsbD_and, getLsbD_twoPow_sub_one ho, Bool.and_eq_true,
          decide_eq_true_eq] at hx
        rw [getLsbD_lower enc hpos ho hi, decide_eq_false (by omega), Bool.false_and]
    · rw [if_neg hw, if_neg (by omega)]

@[simp] theorem length_writeBits (enc : BitVec 64) :
    (writeBits T start len enc).length = T.length := by
  rw [writeBits]
  dsimp only
  split <;> simp only [length_store64]

/-! ### get_bucket and set_bucket -/

/-- `if ((a) < (b)) swap(a, b);` on two places of `store`. -/
def sortPair (store : List ℕ) (i j : ℕ) : List ℕ :=
  if store.getD i 0 < store.getD j 0 then
    (store.set i (store.getD j 0)).set j (store.getD i 0)
  else store

/-- Step 0 of `set_bucket`: descending order. -/
def sortStore (store : List ℕ) : List ℕ :=
  sortPair (sortPair (sortPair (sortPair (sortPair store 0 2) 1 3) 0 1) 2 3) 1 2

/-- Step 1 of `set_bucket`: rank of the high nibbles above the low bits. -/
def encode (fp_len : ℕ) (t : Tables) (store : List ℕ) : ℕ :=
  let mask := (1 <<< (fp_len - 4)) - 1
  let low_bit := (store.getD 3 0 &&& mask) +
    ((store.getD 2 0 &&& mask) <<< (1 * (fp_len - 4))) +
    ((store.getD 1 0 &&& mask) <<< (2 * (fp_len - 4))) +
    ((store.getD 0 0 &&& mask) <<< (3 * (fp_len - 4)))
  let nibble := (1 <<< 4) - 1
  let high_bit := ((store.getD 3 0 >>> (fp_len - 4)) &&& nibble) +
    (((store.getD 2 0 >>> (fp_len - 4)) &&& nibble) <<< 4) +
    (((store.getD 1 0 >>> (fp_len - 4)) &&& nibble) <<< 8) +
    (((store.getD 0 0 >>> (fp_len - 4)) &&& nibble) <<< 12)
  let high_encode := t.encodeTable high_bit
  (high_encode <<< (4 * (fp_len - 4))) + low_bit

def decode (fp_len : ℕ) (t : Tables) (result : ℕ) : List ℕ :=
  let decode_result := t.decodeTable (result >>> (4 * (fp_len - 4)))
  let mask := (1 <<< (fp_len - 4)) - 1
  let nibble := (1 <<< 4) - 1
  [((result >>> (3 * (fp_len - 4))) &&& mask) +
      (((decode_result >>> 12) &&& nibble) <<< (fp_len - 4)),
    ((result >>> (2 * (fp_len - 4))) &&& mask) +
      (((decode_result >>> 8) &&& nibble) <<< (fp_len - 4)),
    ((result >>> (1 * (fp_len - 4))) &&& mask) +
      (((decode_result >>> 4) &&& nibble) <<< (fp_len - 4)),
    (result &&& mask) + ((decode_result &&& nibble) <<< (fp_len - 4))]

def occupied (store : List ℕ) : ℕ := store.countP (· ≠ 0)

def getBucket (fp_len : ℕ) (t : Tables) (T : List (BitVec 32)) (pos : ℕ) : Bucket :=
  let bucket_length := (fp_len - 1) * 4
  let store := decode fp_len t (readBits T (pos * bucket_length) bucket_length).toNat
  ⟨store, occupied store⟩

def setBucket (fp_len : ℕ) (t : Tables) (T : List (BitVec 32)) (pos : ℕ) (store : List ℕ) :
    List (BitVec 32) :=
  let store := sortStore store
  let bucket_length := (fp_len - 1) * 4
  writeBits T (pos * bucket_length) bucket_length (BitVec.ofNat 64 (encode fp_len t store))

theorem sortPair_perm {store : List ℕ} {i j : ℕ} (hi : i < store.length)
    (hj : j < store.length) : (sortPair store i j).Perm store := by
  rw [sortPair]
  split
  · simp only [List.getD_eq_getElem?_getD, List.getElem?_eq_getElem hi,
      List.getElem?_eq_getElem hj, Option.getD_some]
    exact List.set_set_perm hi hj
  · exact List.Perm.refl _

theorem sortStore_perm {store : List ℕ} (h : store.length = 4) :
    (sortStore store).Perm store := by
  have step : ∀ {s : List ℕ} {i j : ℕ}, s.Perm store → i < 4 → j < 4 →
      (sortPair s i j).Perm store := fun hs hi hj =>
    (sortPair_perm (by rw [hs.length_eq, h]; exact hi) (by rw [hs.length_eq, h]; exact hj)).trans hs
  exact step (step (step (step (step (List.Perm.refl _) (by decide) (by decide)) (by decide)
    (by decide)) (by decide) (by decide)) (by decide) (by decide)) (by decide) (by decide)

theorem sortPair_eq {store : List ℕ} {i j : ℕ} (hi : i < store.length) (hj : j < store.length) :
    sortPair store i j = (store.set i (max (store.getD i 0) (store.getD j 0))).set j
      (min (store.getD i 0) (store.getD j 0)) := by
  rw [sortPair]
  split
  case isTrue h => rw [max_eq_right h.le, min_eq_left h.le]
  case isFalse h =>
    rw [max_eq_left (not_lt.mp h), min_eq_right (not_lt.mp h)]
    simp only [List.getD_eq_getElem?_getD, List.getElem?_eq_getElem hi,
      List.getElem?_eq_getElem hj, Option.getD_some, List.set_getElem_self]

theorem sortStore_descending (a b c d : ℕ) :
    ∃ a' b' c' d', sortStore [a, b, c, d] = [a', b', c', d'] ∧ b' ≤ a' ∧ c' ≤ b' ∧ d' ≤ c' := by
  have h02 : ∀ a b c d : ℕ, sortPair [a, b, c, d] 0 2 = [max a c, b, min a c, d] :=
    fun a b c d => sortPair_eq (by simp) (by simp)
  have h13 : ∀ a b c d : ℕ, sortPair [a, b, c, d] 1 3 = [a, max b d, c, min b d] :=
    fun a b c d => sortPair_eq (by simp) (by simp)
  have h01 : ∀ a b c d : ℕ, sortPair [a, b, c, d] 0 1 = [max a b, min a b, c, d] :=
    fun a b c d => sortPair_eq (by simp) (by simp)
  have h23 : ∀ a b c d : ℕ, sortPair [a, b, c, d] 2 3 = [a, b, max c d, min c d] :=
    fun a b c d => sortPair_eq (by simp) (by simp)
  have h12 : ∀ a b c d : ℕ, sortPair [a, b, c, d] 1 2 = [a, max b c, min b c, d] :=
    fun a b c d => sortPair_eq (by simp) (by simp)
  have hac : min a c ≤ max a c := min_le_max
  have hbd : min b d ≤ max b d := min_le_max
  refine ⟨_, _, _, _, (?_ : sortStore [a, b, c, d] = [max (max a c) (max b d),
    max (min (max a c) (max b d)) (max (min a c) (min b d)),
    min (min (max a c) (max b d)) (max (min a c) (min b d)), min (min a c) (min b d)]), ?_, ?_, ?_⟩
  · rw [sortStore, h02, h13, h01, h23, h12]
  · exact max_le min_le_max (max_le_max hac hbd)
  · exact min_le_max
  · exact le_min (min_le_min hac hbd) min_le_max

/-- Four values in descending order, each below `2 ^ fp_len`. -/
structure Bucket.WellFormed (fp_len : ℕ) (store : List ℕ) : Prop where
  length_eq : store.length = 4
  descending : store.Pairwise (· ≥ ·)
  bounded : ∀ s ∈ store, s < 2 ^ fp_len

theorem sortStore_wellFormed {fp_len : ℕ} {store : List ℕ} (h : store.length = 4)
    (hb : ∀ s ∈ store, s < 2 ^ fp_len) : Bucket.WellFormed fp_len (sortStore store) := by
  have hperm := sortStore_perm h
  refine ⟨hperm.length_eq.trans h, ?_, fun s hs => hb s (hperm.mem_iff.mp hs)⟩
  obtain ⟨a, b, c, d, rfl⟩ := List.length_eq_four.mp h
  obtain ⟨a', b', c', d', heq, h1, h2, h3⟩ := sortStore_descending a b c d
  rw [heq]
  simp only [List.pairwise_cons, List.mem_cons, List.not_mem_nil, or_false]
  refine ⟨?_, ?_, ?_, ?_, List.Pairwise.nil⟩
  · rintro x (rfl | rfl | rfl) <;> omega
  · rintro x (rfl | rfl) <;> omega
  · rintro x rfl; omega
  · rintro x ⟨⟩

theorem nibbles (a : ℕ) {b c d : ℕ} (hb : b < 16) (hc : c < 16) (hd : d < 16) :
    (a <<< 12 + b <<< 8 + c <<< 4 + d) >>> 12 = a ∧
      (a <<< 12 + b <<< 8 + c <<< 4 + d) >>> 8 % 16 = b ∧
      (a <<< 12 + b <<< 8 + c <<< 4 + d) >>> 4 % 16 = c ∧
      (a <<< 12 + b <<< 8 + c <<< 4 + d) % 16 = d := by
  simp only [Nat.shiftLeft_eq, Nat.shiftRight_eq_div_pow]
  omega

theorem encode_digits {r a b c d : ℕ} (hs : Bucket.WellFormed (r + 4) [a, b, c, d]) :
    ∃ plain ∈ plainBits,
      (plain >>> 12 = a / 2 ^ r ∧ plain >>> 8 % 16 = b / 2 ^ r ∧ plain >>> 4 % 16 = c / 2 ^ r ∧
        plain % 16 = d / 2 ^ r) ∧ a / 2 ^ r < 16 ∧
      ∀ t : Tables, encode (r + 4) t [a, b, c, d] =
        d % 2 ^ r + 2 ^ r * (c % 2 ^ r + 2 ^ r * (b % 2 ^ r + 2 ^ r * (a % 2 ^ r + 2 ^ r *
          t.encodeTable plain))) := by
  obtain ⟨-, hd, hb⟩ := hs
  simp only [List.pairwise_cons, List.mem_cons, List.not_mem_nil, or_false, forall_eq_or_imp,
    forall_eq] at hd hb
  obtain ⟨⟨hab, -, -⟩, ⟨hbc, -⟩, hcd, -⟩ := hd
  obtain ⟨ha, -, -, -⟩ := hb
  have hnib : ∀ {s}, s ≤ a → s / 2 ^ r < 16 := fun hsa =>
    Nat.div_lt_of_lt_mul (by rw [Nat.pow_add] at ha; omega)
  have hna := hnib (Nat.le_refl a)
  have hnb := hnib hab
  have hnc := hnib (hbc.trans hab)
  have hnd := hnib (hcd.trans (hbc.trans hab))
  have hmem := mem_plainBits hna (Nat.div_le_div_right hab) (Nat.div_le_div_right hbc)
    (Nat.div_le_div_right (c := 2 ^ r) hcd)
  refine ⟨_, hmem, nibbles (a / 2 ^ r) hnb hnc hnd, hna, fun t => ?_⟩
  have hpow : ∀ k, 2 ^ (k * r) = (2 ^ r) ^ k := fun k => by rw [← Nat.pow_mul, Nat.mul_comm]
  have hsum : d / 2 ^ r + (c / 2 ^ r) <<< 4 + (b / 2 ^ r) <<< 8 + (a / 2 ^ r) <<< 12 =
      (a / 2 ^ r) <<< 12 + (b / 2 ^ r) <<< 8 + (c / 2 ^ r) <<< 4 + d / 2 ^ r := by omega
  simp only [encode, List.getD_cons_zero, List.getD_cons_succ, Nat.add_sub_cancel,
    Nat.one_shiftLeft, Nat.and_two_pow_sub_one_eq_mod, Nat.shiftRight_eq_div_pow]
  rw [Nat.mod_eq_of_lt hna, Nat.mod_eq_of_lt hnb, Nat.mod_eq_of_lt hnc, Nat.mod_eq_of_lt hnd, hsum]
  generalize t.encodeTable _ = rank
  simp only [Nat.shiftLeft_eq, hpow]
  ring

theorem digit_lt {q x y B : ℕ} (hx : x < q) (hy : y < B) : x + q * y < q * B := by
  calc x + q * y < q * (y + 1) := by rw [Nat.mul_add]; omega
    _ ≤ q * B := Nat.mul_le_mul_left _ hy

theorem encode_rank {fp_len : ℕ} (hlen : 4 ≤ fp_len) {store : List ℕ}
    (hs : Bucket.WellFormed fp_len store) : ∃ plain ∈ plainBits, ∃ low < 2 ^ (4 * (fp_len - 4)),
      ∀ t : Tables, encode fp_len t store =
        t.encodeTable plain <<< (4 * (fp_len - 4)) + low := by
  obtain ⟨a, b, c, d, rfl⟩ := List.length_eq_four.mp hs.length_eq
  obtain ⟨r, rfl⟩ : ∃ r, fp_len = r + 4 := ⟨fp_len - 4, by omega⟩
  obtain ⟨plain, hmem, -, -, henc⟩ := encode_digits hs
  have hm : ∀ x : ℕ, x % 2 ^ r < 2 ^ r := fun x => Nat.mod_lt x (Nat.two_pow_pos r)
  have hpow : 2 ^ (4 * (r + 4 - 4)) = 2 ^ r * (2 ^ r * (2 ^ r * 2 ^ r)) := by
    rw [Nat.add_sub_cancel]
    ring
  refine ⟨plain, hmem, d % 2 ^ r + 2 ^ r * (c % 2 ^ r + 2 ^ r * (b % 2 ^ r + 2 ^ r * (a % 2 ^ r))),
    ?_, fun t => ?_⟩
  · rw [hpow]
    exact digit_lt (hm d) (digit_lt (hm c) (digit_lt (hm b) (hm a)))
  · rw [henc, Nat.shiftLeft_eq, hpow]
    ring

theorem encode_spec {fp_len : ℕ} (hlen : 4 ≤ fp_len) {t : Tables} (ht : t.Built)
    {store : List ℕ} (hs : Bucket.WellFormed fp_len store) :
    encode fp_len t store < 2 ^ ((fp_len - 1) * 4) ∧
      decode fp_len t (encode fp_len t store) = store := by
  obtain ⟨a, b, c, d, rfl⟩ := List.length_eq_four.mp hs.length_eq
  obtain ⟨r, rfl⟩ : ∃ r, fp_len = r + 4 := ⟨fp_len - 4, by omega⟩
  obtain ⟨plain, hmem, ⟨p3, p2, p1, p0⟩, hna, henc⟩ := encode_digits hs
  obtain ⟨hrank, hround⟩ := ht.round_trip hmem
  have hq : 0 < 2 ^ r := Nat.two_pow_pos r
  have hpow : ∀ k, 2 ^ (k * r) = (2 ^ r) ^ k := fun k => by rw [← Nat.pow_mul, Nat.mul_comm]
  rw [henc]
  generalize t.encodeTable plain = rank at *
  have hm : ∀ x : ℕ, x % 2 ^ r < 2 ^ r := fun x => Nat.mod_lt x hq
  constructor
  · have hfactor : 2 ^ ((r + 4 - 1) * 4) = 2 ^ r * (2 ^ r * (2 ^ r * (2 ^ r * 2 ^ 12))) := by
      rw [show (r + 4 - 1) * 4 = 4 * r + 12 by omega, Nat.pow_add, hpow]
      ring
    rw [hfactor]
    have hlt : rank < 2 ^ 12 := hrank.trans_le (by decide)
    exact digit_lt (hm d) (digit_lt (hm c) (digit_lt (hm b) (digit_lt (hm a) hlt)))
  · have hmod : ∀ x y : ℕ, (x % 2 ^ r + 2 ^ r * y) % 2 ^ r = x % 2 ^ r := fun x y => by
      rw [Nat.add_mul_mod_self_left, Nat.mod_mod]
    have hdiv : ∀ x y : ℕ, (x % 2 ^ r + 2 ^ r * y) / 2 ^ r = y := fun x y => by
      rw [Nat.add_mul_div_left _ _ hq, Nat.div_eq_of_lt (hm x), Nat.zero_add]
    have hback : ∀ x : ℕ, x % 2 ^ r + x / 2 ^ r * 2 ^ r = x := fun x => by
      rw [Nat.mul_comm, Nat.mod_add_div]
    have hdrop : ∀ n k : ℕ, n / (2 ^ r) ^ (k + 1) = n / 2 ^ r / (2 ^ r) ^ k := fun n k => by
      rw [Nat.pow_succ', Nat.div_div_eq_div_mul]
    have hnibble : (1 <<< 4) - 1 = 2 ^ 4 - 1 := rfl
    simp only [decode, Nat.add_sub_cancel, hnibble, Nat.shiftLeft_eq _ r, Nat.one_mul,
      Nat.and_two_pow_sub_one_eq_mod, Nat.shiftRight_eq_div_pow _ (_ * r),
      Nat.shiftRight_eq_div_pow _ r, hpow, hdrop, hdiv, Nat.pow_zero, Nat.div_one, hround, hmod]
    rw [p3, p2, p1, p0, Nat.mod_eq_of_lt (a := a / 2 ^ r) hna]
    simp only [hback]

theorem decode_lt {fp_len : ℕ} (hlen : 4 ≤ fp_len) (t : Tables) (result : ℕ) :
    ∀ s ∈ decode fp_len t result, s < 2 ^ fp_len := by
  obtain ⟨r, rfl⟩ : ∃ r, fp_len = r + 4 := ⟨fp_len - 4, by omega⟩
  have hpart : ∀ low nibble, (low &&& (1 <<< (r + 4 - 4)) - 1) +
      ((nibble &&& (1 <<< 4) - 1) <<< (r + 4 - 4)) < 2 ^ (r + 4) := by
    intro low nibble
    have h16 : (1 <<< 4) - 1 = 2 ^ 4 - 1 := rfl
    rw [Nat.add_sub_cancel, Nat.one_shiftLeft, Nat.and_two_pow_sub_one_eq_mod, h16,
      Nat.and_two_pow_sub_one_eq_mod, Nat.shiftLeft_eq, Nat.pow_add, Nat.mul_comm _ (2 ^ r)]
    exact digit_lt (Nat.mod_lt low (Nat.two_pow_pos r)) (Nat.mod_lt nibble (by decide))
  intro s hs
  simp only [decode, List.mem_cons, List.not_mem_nil, or_false] at hs
  rcases hs with rfl | rfl | rfl | rfl <;> exact hpart _ _

variable {fp_len : ℕ} {t : Tables} {pos pos' : ℕ} {store : List ℕ}

def Room (fp_len : ℕ) (T : List (BitVec 32)) (n : ℕ) : Prop :=
  n * ((fp_len - 1) * 4) + 64 ≤ 32 * T.length

theorem Room.word {n : ℕ} (hr : Room fp_len T n) (hpos : pos < n) :
    2 * ((pos * ((fp_len - 1) * 4) + (fp_len - 1) * 4 - 1) / 64) + 1 < T.length := by
  have h : (pos + 1) * ((fp_len - 1) * 4) ≤ n * ((fp_len - 1) * 4) :=
    Nat.mul_le_mul_right _ hpos
  rw [Nat.add_mul, Nat.one_mul] at h
  rw [Room] at hr
  omega

theorem Room.congr {n : ℕ} {T' : List (BitVec 32)} (hr : Room fp_len T n)
    (h : T'.length = T.length) : Room fp_len T' n := by
  rw [Room, h]
  exact hr

@[simp] theorem length_setBucket :
    (setBucket fp_len t T pos store).length = T.length := length_writeBits _

theorem bitAt_setBucket {n : ℕ} (hlen : 4 ≤ fp_len ∧ fp_len ≤ 16) (ht : t.Built)
    (hr : Room fp_len T n) (hpos : pos < n) (h4 : store.length = 4)
    (hb : ∀ s ∈ store, s < 2 ^ fp_len) (p : ℕ) :
    bitAt (setBucket fp_len t T pos store) p =
      if pos * ((fp_len - 1) * 4) ≤ p ∧ p < pos * ((fp_len - 1) * 4) + (fp_len - 1) * 4 then
        (encode fp_len t (sortStore store)).testBit (p - pos * ((fp_len - 1) * 4))
      else bitAt T p := by
  obtain ⟨hlt, -⟩ := encode_spec hlen.1 ht (sortStore_wellFormed h4 hb)
  have henc : ∀ j, (fp_len - 1) * 4 ≤ j →
      (encode fp_len t (sortStore store)).testBit j = false := fun j hj =>
    Nat.testBit_lt_two_pow (hlt.trans_le (Nat.pow_le_pow_right (by decide) hj))
  rw [setBucket, bitAt_writeBits (by omega) (by omega) _ (hr.word hpos)]
  · split
    · rw [BitVec.getLsbD_ofNat, decide_eq_true (by omega), Bool.true_and]
    · rfl
  · intro j hj
    rw [BitVec.getLsbD_ofNat, henc j hj, Bool.and_false]

theorem readBits_congr {T' : List (BitVec 32)} (hlen : 4 ≤ fp_len ∧ fp_len ≤ 16)
    (h : ∀ j, j < (fp_len - 1) * 4 →
      bitAt T (pos * ((fp_len - 1) * 4) + j) = bitAt T' (pos * ((fp_len - 1) * 4) + j)) :
    readBits T (pos * ((fp_len - 1) * 4)) ((fp_len - 1) * 4) =
      readBits T' (pos * ((fp_len - 1) * 4)) ((fp_len - 1) * 4) := by
  apply BitVec.eq_of_getLsbD_eq
  intro j _
  rw [getLsbD_readBits (by omega) (by omega), getLsbD_readBits (by omega) (by omega)]
  by_cases hj : j < (fp_len - 1) * 4
  · rw [h j hj]
  · rw [decide_eq_false hj, Bool.false_and, Bool.false_and]

theorem encode_lt_64 (hlen : 4 ≤ fp_len ∧ fp_len ≤ 16) (ht : t.Built) (h4 : store.length = 4)
    (hb : ∀ s ∈ store, s < 2 ^ fp_len) : encode fp_len t (sortStore store) < 2 ^ 64 :=
  (encode_spec hlen.1 ht (sortStore_wellFormed h4 hb)).1.trans_le
    (Nat.pow_le_pow_right (by decide) (by omega))

theorem readBits_setBucket_same {n : ℕ} (hlen : 4 ≤ fp_len ∧ fp_len ≤ 16) (ht : t.Built)
    (hr : Room fp_len T n) (hpos : pos < n) (h4 : store.length = 4)
    (hb : ∀ s ∈ store, s < 2 ^ fp_len) :
    readBits (setBucket fp_len t T pos store) (pos * ((fp_len - 1) * 4)) ((fp_len - 1) * 4) =
      BitVec.ofNat 64 (encode fp_len t (sortStore store)) := by
  obtain ⟨hlt, -⟩ := encode_spec hlen.1 ht (sortStore_wellFormed h4 hb)
  apply BitVec.eq_of_getLsbD_eq
  intro j hj64
  rw [getLsbD_readBits (by omega) (by omega), bitAt_setBucket hlen ht hr hpos h4 hb,
    BitVec.getLsbD_ofNat, Nat.add_sub_cancel_left, decide_eq_true hj64, Bool.true_and]
  by_cases hj : j < (fp_len - 1) * 4
  · rw [if_pos (by omega), decide_eq_true hj, Bool.true_and]
  · rw [decide_eq_false hj, Bool.false_and]
    exact (Nat.testBit_lt_two_pow
      (hlt.trans_le (Nat.pow_le_pow_right (by decide) (by omega)))).symm

theorem readBits_setBucket_other {n : ℕ} (hlen : 4 ≤ fp_len ∧ fp_len ≤ 16) (ht : t.Built)
    (hr : Room fp_len T n) (hpos : pos < n) (h4 : store.length = 4)
    (hb : ∀ s ∈ store, s < 2 ^ fp_len) (hne : pos' ≠ pos) :
    readBits (setBucket fp_len t T pos store) (pos' * ((fp_len - 1) * 4)) ((fp_len - 1) * 4) =
      readBits T (pos' * ((fp_len - 1) * 4)) ((fp_len - 1) * 4) := by
  apply readBits_congr hlen
  intro j hj
  rw [bitAt_setBucket hlen ht hr hpos h4 hb, if_neg]
  rintro ⟨h1, h2⟩
  rcases Nat.lt_or_gt_of_ne hne with h | h
  · have := Nat.mul_le_mul_right ((fp_len - 1) * 4) (Nat.succ_le_of_lt h)
    rw [Nat.succ_mul] at this
    omega
  · have := Nat.mul_le_mul_right ((fp_len - 1) * 4) (Nat.succ_le_of_lt h)
    rw [Nat.succ_mul] at this
    omega

theorem getBucket_setBucket_same {n : ℕ} (hlen : 4 ≤ fp_len ∧ fp_len ≤ 16) (ht : t.Built)
    (hr : Room fp_len T n) (hpos : pos < n) (h4 : store.length = 4)
    (hb : ∀ s ∈ store, s < 2 ^ fp_len) :
    getBucket fp_len t (setBucket fp_len t T pos store) pos =
      ⟨sortStore store, occupied (sortStore store)⟩ := by
  obtain ⟨-, hdec⟩ := encode_spec hlen.1 ht (sortStore_wellFormed h4 hb)
  rw [getBucket, readBits_setBucket_same hlen ht hr hpos h4 hb, BitVec.toNat_ofNat,
    Nat.mod_eq_of_lt (encode_lt_64 hlen ht h4 hb), hdec]

theorem getBucket_setBucket_other {n : ℕ} (hlen : 4 ≤ fp_len ∧ fp_len ≤ 16) (ht : t.Built)
    (hr : Room fp_len T n) (hpos : pos < n) (h4 : store.length = 4)
    (hb : ∀ s ∈ store, s < 2 ^ fp_len) (hne : pos' ≠ pos) :
    getBucket fp_len t (setBucket fp_len t T pos store) pos' = getBucket fp_len t T pos' := by
  rw [getBucket, getBucket, readBits_setBucket_other hlen ht hr hpos h4 hb hne]

theorem readBits_zero (k : ℕ) (hlen : 4 ≤ fp_len ∧ fp_len ≤ 16) :
    readBits (List.replicate k 0) (pos * ((fp_len - 1) * 4)) ((fp_len - 1) * 4) = 0#64 := by
  apply BitVec.eq_of_getLsbD_eq
  intro j _
  rw [getLsbD_readBits (by omega) (by omega), bitAt_replicate_zero, Bool.and_false,
    BitVec.getLsbD_zero]

theorem getBucket_zero (k : ℕ) (hlen : 4 ≤ fp_len ∧ fp_len ≤ 16) (ht : t.Built) :
    getBucket fp_len t (List.replicate k 0) pos = ⟨[0, 0, 0, 0], 0⟩ := by
  rw [getBucket, readBits_zero k hlen, BitVec.toNat_zero]
  simp only [decode, Nat.zero_shiftRight, ht.decode_zero, Nat.zero_and, Nat.zero_shiftLeft]
  rfl

end BucketCodec
