import Mathlib.Data.List.Induction
import TinyCR.PackedCells

/-! # `BloomFilter`

The counting Bloom filter: `m` counters of `L` bits, packed as the cells of
`ControlPlaneOthello` are. -/
namespace BloomFilter

open BitWords PackedCells

variable {Key : Type}

structure Filter (Key : Type) where
  h : List (Key → BitVec 32)
  m : ℕ
  mem : List (BitVec 64)

/-- `multiply_high_u32(x, m)` -/
def fast_map_to_buckets (m : ℕ) (x : BitVec 32) : ℕ := x.toNat * m / 2 ^ 32

section Operations

variable (L : ℕ)

/-- The constructor, once `m` is known; the size is a 32-bit product. -/
def construct (h : List (Key → BitVec 32)) (m : ℕ) : Filter Key :=
  { h := h, m := m, mem := List.replicate ((m * L + 63) % 2 ^ 32 / 64) 0 }

def memSet (bf : Filter Key) (index : ℕ) (value : BitVec 64) : Filter Key :=
  { bf with mem := writeField L bf.mem (index * L % 2 ^ 32) value }

def getAt (bf : Filter Key) (index : ℕ) : BitVec 64 := readField L bf.mem (index * L % 2 ^ 32)

/-- The increment that the source has in a comment is not made. -/
def increaseAt (bf : Filter Key) (index : ℕ) : Filter Key := memSet L bf index 1

/-- With it, whether the slot is to be emptied. -/
def decreaseAt (bf : Filter Key) (index : ℕ) : Bool × Filter Key :=
  let result := getAt L bf index
  if result > 0 then (result - 1 == 0, memSet L bf index (result - 1))
  else (result == 0, bf)

def insert (bf : Filter Key) (key : Key) : Filter Key :=
  bf.h.foldl (fun now hash => increaseAt L now (fast_map_to_buckets bf.m (hash key))) bf

def eraseRound (m : ℕ) (key : Key) (now : BitVec 64 × BitVec 64 × Filter Key)
    (hash : Key → BitVec 32) : BitVec 64 × BitVec 64 × Filter Key :=
  let (toErase, bit, bf) := now
  let decreased := decreaseAt L bf (fast_map_to_buckets m (hash key))
  (if decreased.1 then toErase ||| bit else toErase, bit <<< 1, decreased.2)

/-- With it, the bit pattern to erase. -/
def erase (bf : Filter Key) (key : Key) : BitVec 64 × Filter Key :=
  let (toErase, _, bf') := bf.h.foldl (eraseRound L bf.m key) (0, 1, bf)
  (toErase, bf')

def isMember (bf : Filter Key) (key : Key) : Bool :=
  bf.h.all fun hash => getAt L bf (fast_map_to_buckets bf.m (hash key)) != 0

end Operations

inductive Op (Key : Type)
  | insert (key : Key)
  | erase (key : Key)
  deriving DecidableEq

def Op.key : Op Key → Key
  | .insert key => key
  | .erase key => key

def Op.inserts : Op Key → Bool
  | .insert _ => true
  | .erase _ => false

def apply (L : ℕ) (bf : Filter Key) : Op Key → Filter Key
  | .insert key => insert L bf key
  | .erase key => (erase L bf key).2

def run (L : ℕ) (bf : Filter Key) (ops : List (Op Key)) : Filter Key := ops.foldl (apply L) bf

def slots (h : List (Key → BitVec 32)) (m : ℕ) (key : Key) : List ℕ :=
  h.map fun hash => fast_map_to_buckets m (hash key)

/-- The last operation on a key with this slot was an insert. -/
def lastInserted (slots : Key → List ℕ) (ops : List (Op Key)) (s : ℕ) : Bool :=
  (ops.filter fun op => decide (s ∈ slots op.key)).getLast?.any Op.inserts

section Counts

variable [DecidableEq Key]

def Held (ops : List (Op Key)) (key : Key) : Prop :=
  ops.count (.erase key) < ops.count (.insert key)

instance (ops : List (Op Key)) (key : Key) : Decidable (Held ops key) :=
  inferInstanceAs (Decidable (_ < _))

/-- Every erase is of a key that is held. -/
def Balanced (ops : List (Op Key)) : Prop :=
  ∀ i < ops.length, ∀ key, ops[i]? = some (.erase key) → Held (ops.take i) key

def trueCount (slots : Key → List ℕ) (ops : List (Op Key)) (s : ℕ) : ℤ :=
  (ops.map fun op => if op.inserts then ((slots op.key).count s : ℤ)
    else -((slots op.key).count s : ℤ)).sum

def Counted (L : ℕ) (slots : Key → List ℕ) (m : ℕ) (ops : List (Op Key)) : Prop :=
  ∀ i ≤ ops.length, ∀ s < m, trueCount slots (ops.take i) s < 2 ^ L

def NoFalseNegatives (L : ℕ) (h : List (Key → BitVec 32)) (m : ℕ) (ops : List (Op Key)) : Prop :=
  ∀ key, Held ops key → isMember L (run L (construct L h m) ops) key = true

end Counts

structure Addressable (L : ℕ) (bf : Filter Key) : Prop where
  pos : 0 < L
  lt : L < 64
  fits : bf.m * L + 63 < 2 ^ 32
  length_eq : bf.mem.length = (bf.m * L + 63) / 64

section Slots

variable {L i j : ℕ} {bf : Filter Key}

theorem Addressable.room (h : Addressable L bf) (hi : i < bf.m) :
    i * L % 2 ^ 32 = i * L ∧ i * L + L ≤ 64 * bf.mem.length := by
  have hle : (i + 1) * L ≤ bf.m * L := Nat.mul_le_mul_right _ hi
  rw [Nat.succ_mul] at hle
  have hf := h.fits
  have hl := h.length_eq
  exact ⟨Nat.mod_eq_of_lt (by omega), by omega⟩

theorem Addressable.memSet (h : Addressable L bf) (v : BitVec 64) :
    Addressable L (memSet L bf i v) :=
  ⟨h.pos, h.lt, h.fits, (length_writeField v).trans h.length_eq⟩

theorem getLsbD_getAt (h : Addressable L bf) (hi : i < bf.m) (b : ℕ) :
    (getAt L bf i).getLsbD b = (decide (b < L) && bitAt bf.mem (i * L + b)) := by
  rw [getAt, (h.room hi).1, getLsbD_readField h.lt]

theorem getAt_memSet_same (h : Addressable L bf) (hi : i < bf.m) (v : BitVec 64) :
    getAt L (memSet L bf i v) i = v &&& lowMask L := by
  apply BitVec.eq_of_getLsbD_eq
  intro b hb
  rw [getLsbD_getAt (h.memSet v) hi, memSet, (h.room hi).1,
    bitAt_writeField h.lt (h.room hi).2, BitVec.getLsbD_and, getLsbD_mask, decide_eq_true hb,
    Bool.and_true, Bool.and_comm]
  by_cases hlt : b < L
  · rw [if_pos (by omega), Nat.add_sub_cancel_left]
  · rw [decide_eq_false hlt, Bool.and_false, Bool.and_false]

theorem getAt_memSet_other (h : Addressable L bf) (hi : i < bf.m) (hj : j < bf.m) (hne : j ≠ i)
    (v : BitVec 64) : getAt L (memSet L bf i v) j = getAt L bf j := by
  apply BitVec.eq_of_getLsbD_eq
  intro b _
  rw [getLsbD_getAt (h.memSet v) hj, getLsbD_getAt h hj, memSet, (h.room hi).1,
    bitAt_writeField h.lt (h.room hi).2]
  by_cases hlt : b < L
  · rw [if_neg (cells_disjoint hne hlt)]
  · rw [decide_eq_false hlt, Bool.false_and, Bool.false_and]

theorem one_and_lowMask (hL : 0 < L) : (1 : BitVec 64) &&& lowMask L = 1 := by
  apply BitVec.eq_of_toNat_eq
  rw [toNat_and_lowMask]
  exact Nat.mod_eq_of_lt (Nat.one_lt_two_pow (Nat.pos_iff_ne_zero.mp hL))

theorem getAt_increaseAt (h : Addressable L bf) (hi : i < bf.m) (hj : j < bf.m) :
    getAt L (increaseAt L bf i) j = if j = i then 1 else getAt L bf j := by
  by_cases hne : j = i
  · subst hne
    rw [if_pos rfl, increaseAt, getAt_memSet_same h hi, one_and_lowMask h.pos]
  · rw [if_neg hne, increaseAt, getAt_memSet_other h hi hj hne]

theorem getAt_decreaseAt (h : Addressable L bf) (hi : i < bf.m) (hj : j < bf.m)
    (hbin : getAt L bf i = 0 ∨ getAt L bf i = 1) :
    getAt L (decreaseAt L bf i).2 j = if j = i then 0 else getAt L bf j := by
  rcases hbin with hzero | hone
  · have hkept : (decreaseAt L bf i).2 = bf := by
      rw [decreaseAt, hzero]
      rfl
    rw [hkept]
    by_cases hne : j = i
    · rw [if_pos hne, hne, hzero]
    · rw [if_neg hne]
  · have hset : (decreaseAt L bf i).2 = memSet L bf i 0 := by
      rw [decreaseAt, hone]
      rfl
    rw [hset]
    by_cases hne : j = i
    · subst hne
      rw [if_pos rfl, getAt_memSet_same h hi]
      exact BitVec.zero_and
    · rw [if_neg hne, getAt_memSet_other h hi hj hne]

end Slots

section Step

variable {L s : ℕ} {bf : Filter Key}

structure Flags (L : ℕ) (bf : Filter Key) : Prop extends Addressable L bf where
  binary : ∀ i < bf.m, getAt L bf i = 0 ∨ getAt L bf i = 1

/-- `bf'` is `bf` with the listed slots all set to `v`. -/
structure Painted (L : ℕ) (v : BitVec 64) (listed : List ℕ) (bf bf' : Filter Key) : Prop where
  h_eq : bf'.h = bf.h
  m_eq : bf'.m = bf.m
  flags : Flags L bf'
  getAt_eq : ∀ s < bf.m, getAt L bf' s = if s ∈ listed then v else getAt L bf s

theorem Flags.of_getAt {bf' : Filter Key} {v : BitVec 64} {i : ℕ} (h : Flags L bf)
    (ha : Addressable L bf') (hm : bf'.m = bf.m) (hv : v = 0 ∨ v = 1)
    (hget : ∀ j < bf.m, getAt L bf' j = if j = i then v else getAt L bf j) : Flags L bf' := by
  refine ⟨ha, fun j hj => ?_⟩
  rw [hm] at hj
  rw [hget j hj]
  split
  case isTrue => exact hv
  case isFalse => exact h.binary j hj

theorem painted_increaseAt {i : ℕ} (h : Flags L bf) (hi : i < bf.m) :
    Painted L 1 [i] bf (increaseAt L bf i) := by
  have hget : ∀ j < bf.m, getAt L (increaseAt L bf i) j = if j = i then 1 else getAt L bf j :=
    fun j hj => getAt_increaseAt h.toAddressable hi hj
  refine ⟨rfl, rfl, h.of_getAt (h.memSet _) rfl (Or.inr rfl) hget, fun j hj => ?_⟩
  rw [hget j hj]
  exact if_congr List.mem_singleton.symm rfl rfl

theorem decreaseAt_shape (L : ℕ) (bf : Filter Key) (i : ℕ) :
    (decreaseAt L bf i).2 = bf ∨ ∃ v, (decreaseAt L bf i).2 = memSet L bf i v := by
  rw [decreaseAt]
  split
  case isTrue => exact Or.inr ⟨_, rfl⟩
  case isFalse => exact Or.inl rfl

theorem painted_decreaseAt {i : ℕ} (h : Flags L bf) (hi : i < bf.m) :
    Painted L 0 [i] bf (decreaseAt L bf i).2 := by
  have hget : ∀ j < bf.m,
      getAt L (decreaseAt L bf i).2 j = if j = i then 0 else getAt L bf j :=
    fun j hj => getAt_decreaseAt h.toAddressable hi hj (h.binary i hi)
  have hshape : (decreaseAt L bf i).2.h = bf.h ∧ (decreaseAt L bf i).2.m = bf.m ∧
      Addressable L (decreaseAt L bf i).2 := by
    rcases decreaseAt_shape L bf i with hkept | ⟨v, hset⟩
    · rw [hkept]
      exact ⟨rfl, rfl, h.toAddressable⟩
    · rw [hset]
      exact ⟨rfl, rfl, h.memSet v⟩
  obtain ⟨hh, hm, ha⟩ := hshape
  refine ⟨hh, hm, h.of_getAt ha hm (Or.inl rfl) hget, fun j hj => ?_⟩
  rw [hget j hj]
  exact if_congr List.mem_singleton.symm rfl rfl

theorem Painted.refl {v : BitVec 64} (h : Flags L bf) : Painted L v [] bf bf :=
  ⟨rfl, rfl, h, fun _ _ => (if_neg List.not_mem_nil).symm⟩

theorem Painted.cons {v : BitVec 64} {i : ℕ} {listed : List ℕ} {bf₁ bf₂ : Filter Key}
    (h₁ : Painted L v [i] bf bf₁) (h₂ : Painted L v listed bf₁ bf₂) :
    Painted L v (i :: listed) bf bf₂ := by
  refine ⟨h₂.h_eq.trans h₁.h_eq, h₂.m_eq.trans h₁.m_eq, h₂.flags, fun s hs => ?_⟩
  rw [h₂.getAt_eq s (h₁.m_eq ▸ hs), h₁.getAt_eq s hs]
  by_cases hlist : s ∈ listed
  · rw [if_pos hlist, if_pos (List.mem_cons_of_mem _ hlist)]
  · rw [if_neg hlist]
    refine if_congr ?_ rfl rfl
    rw [List.mem_singleton, List.mem_cons, or_iff_left hlist]

theorem painted_foldl {v : BitVec 64} {step : Filter Key → ℕ → Filter Key}
    (hstep : ∀ bf i, Flags L bf → i < bf.m → Painted L v [i] bf (step bf i)) {listed : List ℕ}
    (h : Flags L bf) (hlt : ∀ i ∈ listed, i < bf.m) :
    Painted L v listed bf (listed.foldl step bf) := by
  induction listed generalizing bf with
  | nil => exact Painted.refl h
  | cons i listed ih =>
    have hfirst := hstep bf i h (hlt i (List.mem_cons_self ..))
    apply hfirst.cons
    apply ih hfirst.flags
    intro j hj
    rw [hfirst.m_eq]
    exact hlt j (List.mem_cons_of_mem _ hj)

theorem slots_lt {h : List (Key → BitVec 32)} {m : ℕ} (hm : h ≠ [] → 0 < m) {key : Key} {i : ℕ}
    (hi : i ∈ slots h m key) : i < m := by
  obtain ⟨hash, hhash, rfl⟩ := List.mem_map.mp hi
  have hpos := hm (List.ne_nil_of_mem hhash)
  have hlt : (hash key).toNat < 2 ^ 32 := BitVec.isLt _
  rw [fast_map_to_buckets, Nat.div_lt_iff_lt_mul (by decide), Nat.mul_comm]
  exact Nat.mul_lt_mul_of_pos_left hlt hpos

theorem foldl_eraseRound {m : ℕ} {key : Key} {h : List (Key → BitVec 32)}
    (now : BitVec 64 × BitVec 64 × Filter Key) :
    (h.foldl (eraseRound L m key) now).2.2 =
      (slots h m key).foldl (fun bf i => (decreaseAt L bf i).2) now.2.2 := by
  rw [slots, List.foldl_map]
  induction h generalizing now with
  | nil => rfl
  | cons hash h ih =>
    rw [List.foldl_cons, List.foldl_cons]
    exact ih _

theorem painted_apply (h : Flags L bf) (hm : bf.h ≠ [] → 0 < bf.m) (op : Op Key) :
    Painted L (if op.inserts then 1 else 0) (slots bf.h bf.m op.key) bf (apply L bf op) := by
  have hlt : ∀ key, ∀ i ∈ slots bf.h bf.m key, i < bf.m := fun key i hi => slots_lt hm hi
  cases op with
  | insert key =>
    have hfold : apply L bf (.insert key) = (slots bf.h bf.m key).foldl (increaseAt L) bf := by
      rw [slots, List.foldl_map]
      rfl
    rw [hfold]
    exact painted_foldl (fun bf i hf hi => painted_increaseAt hf hi) h (hlt key)
  | erase key =>
    have hfold : apply L bf (.erase key) =
        (slots bf.h bf.m key).foldl (fun bf i => (decreaseAt L bf i).2) bf :=
      foldl_eraseRound (0, 1, bf)
    rw [hfold]
    exact painted_foldl (fun bf i hf hi => painted_decreaseAt hf hi) h (hlt key)

end Step

section Runs

variable {L m : ℕ} {h : List (Key → BitVec 32)}

theorem addressable_construct (hL : 0 < L) (hL64 : L < 64) (hfits : m * L + 63 < 2 ^ 32) :
    Addressable L (construct L h m) := by
  refine ⟨hL, hL64, hfits, ?_⟩
  rw [construct, List.length_replicate, Nat.mod_eq_of_lt hfits]

theorem getAt_construct (ha : Addressable L (construct L h m)) {s : ℕ} (hs : s < m) :
    getAt L (construct L h m) s = 0 := by
  apply BitVec.eq_of_getLsbD_eq
  intro b _
  rw [getLsbD_getAt ha hs, construct, bitAt_replicate_zero, Bool.and_false]
  exact BitVec.getLsbD_zero.symm

theorem lastInserted_append {slots : Key → List ℕ} {ops : List (Op Key)} {op : Op Key} {s : ℕ} :
    lastInserted slots (ops ++ [op]) s =
      if s ∈ slots op.key then op.inserts else lastInserted slots ops s := by
  rw [lastInserted, lastInserted, List.filter_append]
  by_cases hs : s ∈ slots op.key
  · rw [if_pos hs, List.filter_singleton, decide_eq_true hs, cond_true, List.getLast?_concat]
    rfl
  · rw [if_neg hs, List.filter_singleton, decide_eq_false hs, cond_false, List.append_nil]

theorem getAt_run (hL : 0 < L) (hL64 : L < 64) (hfits : m * L + 63 < 2 ^ 32)
    (hm : h ≠ [] → 0 < m) (ops : List (Op Key)) :
    (run L (construct L h m) ops).h = h ∧ (run L (construct L h m) ops).m = m ∧
      Flags L (run L (construct L h m) ops) ∧
      ∀ s < m, getAt L (run L (construct L h m) ops) s =
        if lastInserted (slots h m) ops s then 1 else 0 := by
  induction ops using List.reverseRecOn with
  | nil =>
    have ha : Addressable L (construct L h m) := addressable_construct hL hL64 hfits
    refine ⟨rfl, rfl, ⟨ha, fun i hi => ?_⟩, fun s hs => ?_⟩
    · exact Or.inl (getAt_construct ha hi)
    · exact getAt_construct ha hs
  | append_singleton ops op ih =>
    obtain ⟨hh, hm', hflags, hget⟩ := ih
    have hrun : run L (construct L h m) (ops ++ [op]) =
        apply L (run L (construct L h m) ops) op := by
      rw [run, List.foldl_append]
      rfl
    generalize run L (construct L h m) ops = bf at hh hm' hflags hget hrun
    subst hh hm'
    have hstep := painted_apply hflags hm op
    rw [hrun]
    refine ⟨hstep.h_eq, hstep.m_eq, hstep.flags, fun s hs => ?_⟩
    rw [hstep.getAt_eq s hs, hget s hs, lastInserted_append]
    by_cases hslot : s ∈ slots bf.h bf.m op.key
    · rw [if_pos hslot, if_pos hslot]
    · rw [if_neg hslot, if_neg hslot]

end Runs

section Members

variable [DecidableEq Key] {L m : ℕ} {h : List (Key → BitVec 32)} {ops : List (Op Key)}

/-- Every key that is held is a member exactly if no erase came last on one of its slots. -/
theorem no_false_negatives_iff (hL : 2 ≤ L) (hL64 : L < 64) (hfits : m * L + 63 < 2 ^ 32)
    (hm : h ≠ [] → 0 < m) :
    NoFalseNegatives L h m ops ↔
      ∀ key, Held ops key → ∀ s ∈ slots h m key, lastInserted (slots h m) ops s = true := by
  have hL0 : 0 < L := by omega
  obtain ⟨hh, hm', -, hget⟩ := getAt_run hL0 hL64 hfits hm ops
  refine forall_congr' fun key => imp_congr_right fun _ => ?_
  rw [isMember, hh, hm', List.all_eq_true, slots, List.forall_mem_map]
  refine forall₂_congr fun hash hhash => ?_
  have hlt : fast_map_to_buckets m (hash key) < m := slots_lt hm (List.mem_map_of_mem hhash)
  rw [hget _ hlt, bne_iff_ne]
  cases lastInserted (slots h m) ops (fast_map_to_buckets m (hash key)) with
  | true => exact iff_of_true (by decide) rfl
  | false => exact iff_of_false (not_not_intro rfl) Bool.false_ne_true

end Members

/-- Keys below 8 have slot 0, the next ones slot 1. -/
def halves : List (ℕ → BitVec 32) := [fun key => BitVec.ofNat 32 (key * 2 ^ 28)]

theorem no_false_negatives_iff_halves :
    NoFalseNegatives 4 halves 2 [.insert 1, .insert 8, .erase 8] := by
  have hiff := @no_false_negatives_iff ℕ _ 4 2 halves [.insert 1, .insert 8, .erase 8]
    (by decide) (by decide) (by decide) (fun _ => by decide)
  refine hiff.mpr fun key hheld s hs => ?_
  have hkey : key = 1 ∨ key = 8 := by
    have hmem : Op.insert key ∈ [Op.insert 1, .insert 8, .erase 8] :=
      List.count_pos_iff.mp (Nat.lt_of_le_of_lt (Nat.zero_le _) hheld)
    simpa using hmem
  rcases hkey with rfl | rfl
  · have hslot : s = 0 := by simpa [slots, halves, fast_map_to_buckets] using hs
    subst hslot
    decide +kernel
  · exact absurd hheld (by decide)

/-- One slot stands for two keys, and the erase of one of them empties it. -/
theorem member_erased :
    Balanced [Op.insert 1, .insert 2, .erase 2] ∧
      Counted 4 (slots halves 2) 2 [.insert 1, .insert 2, .erase 2] ∧
      ¬ NoFalseNegatives 4 halves 2 [.insert 1, .insert 2, .erase 2] := by
  refine ⟨?_, ?_, fun hnone => ?_⟩
  · intro i hi key hop
    have hlast : i = 0 ∨ i = 1 ∨ i = 2 := by
      have hlt : i < 3 := hi
      omega
    rcases hlast with rfl | rfl | rfl
    · simp at hop
    · simp at hop
    · have hkey : key = 2 := by simpa using hop.symm
      subst hkey
      decide
  · unfold Counted
    decide +kernel
  · have hlost := hnone 1 (by decide)
    revert hlost
    decide +kernel

end BloomFilter
