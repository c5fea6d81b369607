import TinyCR.DataPlaneOthello

/-! # The difference of two memories

`othello_flipped_indexes` lists the bits in which two arrays of cells differ, in ascending order,
each as its word and its place in the word packed into 32 bits; `mem_value_flipping` unpacks and
flips them. The loop that replays the list counts in an `int`. -/
namespace MemoryDiff

open BitWords DataPlaneOthello

/-- The `while` loop over the bits of one difference, which starts at `index`. -/
def scanBits (i : ℕ) (diff : BitVec 64) (index : ℕ) : List ℕ :=
  if diff.toNat > 0 then
    let last_bit := diff &&& 1
    let flipped_id := ((i <<< 6) % 2 ^ 32 + index) % 2 ^ 32
    let rest := scanBits i (diff >>> 1) ((index + 1) % 2 ^ 8)
    if last_bit = 1 then flipped_id :: rest else rest
  else []
  termination_by diff.toNat
  decreasing_by
    rw [BitVec.toNat_ushiftRight]
    exact Nat.div_lt_self (by assumption) (by decide)

def scanWords (i : ℕ) : List (BitVec 64) → List (BitVec 64) → List ℕ
  | pre :: pre_mem, post :: post_mem =>
    scanBits i (pre ^^^ post) 0 ++ scanWords ((i + 1) % 2 ^ 32) pre_mem post_mem
  | _, _ => []

def othello_flipped_indexes (pre_mem post_mem : List (BitVec 64)) : List ℕ :=
  scanWords 0 pre_mem post_mem

/-- The loop of `mem_value_flipping` from `i` on, with what is undefined in it: `none` is an index
past the end of `mem`, or `i++` on the largest `int`. -/
def flipFrom (i : ℕ) (mem : List (BitVec 64)) : List ℕ → Option (List (BitVec 64))
  | [] => some mem
  | index_code :: flipped_indexes =>
    if mem.length ≤ index_code / 64 ∨ i + 1 = 2 ^ 31 then none
    else flipFrom (i + 1) (flipBit mem index_code) flipped_indexes

/-- Replaying the difference turns the one memory into the other, and no bit is listed twice. -/
structure RoundTrips (pre_mem post_mem : List (BitVec 64)) : Prop where
  replayed : flipFrom 0 pre_mem (othello_flipped_indexes pre_mem post_mem) = some post_mem
  nodup : (othello_flipped_indexes pre_mem post_mem).Nodup

def differing (pre_mem post_mem : List (BitVec 64)) : List ℕ :=
  (List.range (64 * pre_mem.length)).filter fun p => bitAt pre_mem p != bitAt post_mem p

variable {pre_mem post_mem mem : List (BitVec 64)} {i n : ℕ}

theorem scanBits_eq (hi : i < 2 ^ 26) (diff : BitVec 64) (index : ℕ) (hdiff : diff.toNat < 2 ^ n)
    (hn : index + n ≤ 64) : scanBits i diff index =
      ((List.range n).filter fun j => diff.getLsbD j).map fun j => 64 * i + (index + j) := by
  induction n generalizing diff index with
  | zero =>
    rw [scanBits, if_neg (by omega)]
    rfl
  | succ n ih =>
    rw [scanBits]
    split
    case isFalse hzero =>
      have hall : ∀ j, diff.getLsbD j = false := fun j => by
        rw [BitVec.getLsbD, Nat.eq_zero_of_not_pos hzero, Nat.zero_testBit]
      simp [hall]
    case isTrue =>
      have hhalf : (diff >>> 1).toNat < 2 ^ n := by
        rw [BitVec.toNat_ushiftRight, Nat.shiftRight_eq_div_pow]
        omega
      have hrest := ih (diff >>> 1) (index + 1) hhalf (by omega)
      have hshift : ∀ j, (diff >>> 1).getLsbD j = diff.getLsbD (j + 1) := fun j => by
        rw [BitVec.getLsbD_ushiftRight, Nat.add_comm]
      have hcode : ((i <<< 6) % 2 ^ 32 + index) % 2 ^ 32 = 64 * i + (index + 0) := by
        rw [Nat.shiftLeft_eq]
        omega
      have hone : diff &&& 1 = 1 ↔ diff.getLsbD 0 = true := by
        rw [← BitVec.toNat_inj, BitVec.toNat_and, BitVec.getLsbD, Nat.testBit_zero,
          decide_eq_true_eq]
        exact iff_of_eq (congrArg (· = 1) (Nat.and_one_is_mod _))
      have htail : ((List.range n).filter fun j => (diff >>> 1).getLsbD j).map
          (fun j => 64 * i + (index + 1 + j)) =
          (((List.range n).map Nat.succ).filter fun j => diff.getLsbD j).map
            fun j => 64 * i + (index + j) := by
        rw [List.filter_map, List.map_map]
        have hfilter : (fun j => (diff >>> 1).getLsbD j) =
            (fun j => diff.getLsbD j) ∘ Nat.succ := funext hshift
        rw [hfilter]
        refine List.map_congr_left fun j _ => ?_
        rw [Function.comp_apply, Nat.succ_eq_one_add, Nat.add_assoc]
      rw [Nat.mod_eq_of_lt (by omega : index + 1 < 2 ^ 8), hrest, hcode, htail,
        List.range_succ_eq_map, List.filter_cons]
      simp only [hone]
      split <;> rfl

theorem bitAt_cons_lt (x : BitVec 64) {p : ℕ} (hp : p < 64) :
    bitAt (x :: mem) p = x.getLsbD p := by
  rw [bitAt, Nat.div_eq_of_lt hp, Nat.mod_eq_of_lt hp, List.getD_cons_zero]

theorem bitAt_cons_add (x : BitVec 64) (p : ℕ) : bitAt (x :: mem) (64 + p) = bitAt mem p := by
  have hdiv : (64 + p) / 64 = p / 64 + 1 := by omega
  rw [bitAt, bitAt, hdiv, List.getD_cons_succ, Nat.add_mod_left]

theorem scanWords_eq (hlen : pre_mem.length = post_mem.length) (hi : i + pre_mem.length ≤ 2 ^ 26) :
    scanWords i pre_mem post_mem = (differing pre_mem post_mem).map (64 * i + ·) := by
  induction pre_mem generalizing post_mem i with
  | nil => rfl
  | cons pre pre_mem ih =>
    obtain ⟨post, post_mem, rfl⟩ := List.exists_cons_of_length_eq_add_one hlen.symm
    rw [List.length_cons] at hi
    have hrest := ih (i := i + 1) (Nat.succ.inj hlen) (by omega)
    have hword := scanBits_eq (n := 64) (by omega : i < 2 ^ 26) (pre ^^^ post) 0
      (BitVec.isLt _) (by omega)
    have hsplit : 64 * (pre :: pre_mem).length = 64 + 64 * pre_mem.length := by
      rw [List.length_cons]
      omega
    have hhead : (List.range 64).filter (fun p => (pre ^^^ post).getLsbD p) =
        (List.range 64).filter fun p => bitAt (pre :: pre_mem) p != bitAt (post :: post_mem) p := by
      refine List.filter_congr fun p hp => ?_
      rw [bitAt_cons_lt _ (List.mem_range.mp hp), bitAt_cons_lt _ (List.mem_range.mp hp),
        BitVec.getLsbD_xor]
    have htail : (fun p => bitAt pre_mem p != bitAt post_mem p) =
        (fun p => bitAt (pre :: pre_mem) p != bitAt (post :: post_mem) p) ∘ fun p => 64 + p := by
      funext p
      rw [Function.comp_apply, bitAt_cons_add, bitAt_cons_add]
    rw [scanWords, Nat.mod_eq_of_lt (by omega : i + 1 < 2 ^ 32), hrest, hword, differing, differing,
      hsplit, List.range_add, List.filter_append, List.map_append, List.filter_map, List.map_map,
      hhead, htail]
    refine congrArg₂ (· ++ ·) (List.map_congr_left fun p _ => ?_)
      (List.map_congr_left fun p _ => ?_)
    · rw [Nat.zero_add]
    · rw [Function.comp_apply, Nat.mul_succ, Nat.add_assoc]

theorem flipped_indexes_eq (hlen : pre_mem.length = post_mem.length)
    (hmax : pre_mem.length ≤ 2 ^ 26) :
    othello_flipped_indexes pre_mem post_mem = differing pre_mem post_mem := by
  rw [othello_flipped_indexes, scanWords_eq hlen (by omega)]
  simp

theorem flipFrom_eq {flipped_indexes : List ℕ} (hin : ∀ p ∈ flipped_indexes, p < 64 * mem.length)
    (hlt : i + flipped_indexes.length < 2 ^ 31) :
    flipFrom i mem flipped_indexes = some (flipped_indexes.foldl flipBit mem) := by
  induction flipped_indexes generalizing i mem with
  | nil => rfl
  | cons p flipped_indexes ih =>
    rw [List.length_cons] at hlt
    have hp := hin p (List.mem_cons_self ..)
    have hgo : ¬ (mem.length ≤ p / 64 ∨ i + 1 = 2 ^ 31) := by omega
    rw [flipFrom, if_neg hgo, List.foldl_cons]
    refine ih (fun q hq => ?_) (by omega)
    rw [length_flipBit]
    exact hin q (List.mem_cons_of_mem _ hq)

theorem flipFrom_none {flipped_indexes : List ℕ} (hi : i < 2 ^ 31)
    (hge : 2 ^ 31 ≤ i + flipped_indexes.length) : flipFrom i mem flipped_indexes = none := by
  induction flipped_indexes generalizing i mem with
  | nil => exact absurd hi (Nat.not_lt.mpr hge)
  | cons p flipped_indexes ih =>
    rw [List.length_cons] at hge
    rw [flipFrom]
    split
    case isTrue => rfl
    case isFalse hgo => exact ih (by omega) (by omega)

theorem differing_nodup : (differing pre_mem post_mem).Nodup := List.nodup_range.filter _

theorem foldl_differing (hlen : pre_mem.length = post_mem.length) :
    (differing pre_mem post_mem).foldl flipBit pre_mem = post_mem := by
  refine ext_bitAt ((length_foldl_flipBit _).trans hlen) fun p => ?_
  by_cases hp : p < 64 * pre_mem.length
  · rw [bitAt_foldl_flipBit hp]
    have hcount : (differing pre_mem post_mem).count p =
        if bitAt pre_mem p != bitAt post_mem p then 1 else 0 := by
      rw [List.Nodup.count differing_nodup]
      refine if_congr ?_ rfl rfl
      rw [differing, List.mem_filter, List.mem_range, and_iff_right hp]
    rw [hcount]
    cases bitAt pre_mem p <;> cases bitAt post_mem p <;> rfl
  · have hout : ∀ l : List (BitVec 64), l.length ≤ p / 64 → bitAt l p = false := fun l hl => by
      rw [bitAt, List.getD_eq_getElem?_getD, List.getElem?_eq_none hl]
      exact BitVec.getLsbD_zero
    rw [hout _ (by rw [length_foldl_flipBit]; omega), hout _ (by omega)]

/-- The round trip succeeds exactly if fewer than `2 ^ 31` bits differ. -/
theorem diff_applies_iff (hlen : pre_mem.length = post_mem.length)
    (hmax : pre_mem.length ≤ 2 ^ 26) :
    RoundTrips pre_mem post_mem ↔ (differing pre_mem post_mem).length < 2 ^ 31 := by
  have heq := flipped_indexes_eq hlen hmax
  constructor
  · rintro ⟨hreplayed, -⟩
    by_contra hge
    rw [heq, flipFrom_none (by decide) (by omega)] at hreplayed
    cases hreplayed
  · intro hlt
    refine ⟨?_, heq ▸ differing_nodup⟩
    rw [heq, flipFrom_eq (fun p hp => ?_) (by omega), foldl_differing hlen]
    exact List.mem_range.mp (List.mem_of_mem_filter hp)

theorem diff_applies_iff_two : RoundTrips [5, 0] [3, 0x8000000000000000] := by
  have hiff := @diff_applies_iff [5, 0] [3, 0x8000000000000000] rfl (by decide)
  exact hiff.mpr (by decide +kernel)

theorem length_differing_all (n : ℕ) :
    (differing (List.replicate n 0) (List.replicate n (BitVec.allOnes 64))).length = 64 * n := by
  have hall : ∀ p ∈ List.range (64 * (List.replicate n (0 : BitVec 64)).length),
      (bitAt (List.replicate n (0 : BitVec 64)) p !=
        bitAt (List.replicate n (BitVec.allOnes 64)) p) = true := by
    intro p hp
    rw [List.length_replicate, List.mem_range] at hp
    have hword : p / 64 < n := by omega
    have hone : bitAt (List.replicate n (BitVec.allOnes 64)) p = true := by
      rw [bitAt, List.getD_eq_getElem?_getD, List.getElem?_replicate, if_pos hword,
        Option.getD_some, BitVec.getLsbD_allOnes, decide_eq_true (Nat.mod_lt p (by decide))]
    rw [bitAt_replicate_zero, hone]
    rfl
  rw [differing, List.filter_eq_self.mpr hall, List.length_range, List.length_replicate]

/-- With `2 ^ 25` words that differ in all bits the counter overflows. -/
theorem counter_overflows : ∃ pre_mem post_mem : List (BitVec 64),
    pre_mem.length = 2 ^ 25 ∧ post_mem.length = 2 ^ 25 ∧
      flipFrom 0 pre_mem (othello_flipped_indexes pre_mem post_mem) = none ∧
      ¬ RoundTrips pre_mem post_mem := by
  have hlen : (List.replicate (2 ^ 25) (0 : BitVec 64)).length =
      (List.replicate (2 ^ 25) (BitVec.allOnes 64)).length := by
    rw [List.length_replicate, List.length_replicate]
  have hnone : flipFrom 0 (List.replicate (2 ^ 25) 0) (othello_flipped_indexes
      (List.replicate (2 ^ 25) 0) (List.replicate (2 ^ 25) (BitVec.allOnes 64))) = none := by
    rw [flipped_indexes_eq hlen (by rw [List.length_replicate]; decide)]
    refine flipFrom_none (by decide) ?_
    rw [length_differing_all]
    decide
  refine ⟨_, _, List.length_replicate, List.length_replicate, hnone, fun hr => ?_⟩
  have hreplayed := hr.replayed
  rw [hnone] at hreplayed
  cases hreplayed

end MemoryDiff
