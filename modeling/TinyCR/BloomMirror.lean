import TinyCR.BloomFilter

/-! # The one-bit copy of a Bloom filter

`erase` returns which of the key's slots it found or left empty, and `mask` empties those in a
filter of one bit a slot. A one-bit filter that takes each insert and each mask has the members of
the counting one, whatever that one counts. -/
namespace BloomMirror

open BitWords PackedCells BloomFilter

variable {Key : Type}

/-- The loop of `mask` from hash function `i` on; `none` is a hash function that is not there. -/
def maskFrom (key : Key) :
    ℕ → ℕ → BitVec 64 → BloomFilter.Filter Key → Option (BloomFilter.Filter Key)
  | 0, _, _, bf => some bf
  | fuel + 1, i, toErase, bf =>
    if toErase = 0 then some bf
    else if toErase &&& 1 = 1 then do
      let hash ← bf.h[i]?
      maskFrom key fuel (i + 1) (toErase >>> 1)
        (memSet 1 bf (fast_map_to_buckets bf.m (hash key)) 0)
    else maskFrom key fuel (i + 1) (toErase >>> 1) bf

/-- `L` is asserted to be 1. After 64 shifts `toErase` is 0. -/
def mask (bf : BloomFilter.Filter Key) (key : Key) (toErase : BitVec 64) :
    Option (BloomFilter.Filter Key) :=
  maskFrom key 64 0 toErase bf

def mirror (L : ℕ) (both : BloomFilter.Filter Key × BloomFilter.Filter Key) :
    Op Key → Option (BloomFilter.Filter Key × BloomFilter.Filter Key)
  | .insert key => some (insert L both.1 key, insert 1 both.2 key)
  | .erase key => do
    let (toErase, bf) := erase L both.1 key
    let copy ← mask both.2 key toErase
    return (bf, copy)

variable {L m i : ℕ} {h : List (Key → BitVec 32)} {bf bf' copy copy' : BloomFilter.Filter Key}

structure LaidOut (L : ℕ) (h : List (Key → BitVec 32)) (m : ℕ) (bf : BloomFilter.Filter Key) : Prop
    extends Addressable L bf where
  h_eq : bf.h = h
  m_eq : bf.m = m

/-- The copy has the same slots empty as the filter. -/
structure Mirrors (L : ℕ) (h : List (Key → BitVec 32)) (m : ℕ)
    (bf copy : BloomFilter.Filter Key) : Prop where
  filter : LaidOut L h m bf
  copied : LaidOut 1 h m copy
  empty_iff : ∀ s < m, getAt 1 copy s = 0 ↔ getAt L bf s = 0

section Slots

structure Wrote (L : ℕ) (h : List (Key → BitVec 32)) (m i : ℕ)
    (bf bf' : BloomFilter.Filter Key) : Prop where
  laid : LaidOut L h m bf'
  others : ∀ s < m, s ≠ i → getAt L bf' s = getAt L bf s

theorem LaidOut.slot_lt (ho : LaidOut L h m bf) (hi : i < m) : i < bf.m := by
  rw [ho.m_eq]
  exact hi

theorem LaidOut.kept (ho : LaidOut L h m bf) : Wrote L h m i bf bf :=
  ⟨ho, fun _ _ _ => rfl⟩

theorem LaidOut.memSet (ho : LaidOut L h m bf) (hi : i < m) (v : BitVec 64) :
    Wrote L h m i bf (memSet L bf i v) := by
  refine ⟨⟨ho.toAddressable.memSet v, ho.h_eq, ho.m_eq⟩, fun s hs hne => ?_⟩
  exact getAt_memSet_other ho.toAddressable (ho.slot_lt hi) (ho.slot_lt hs) hne v

theorem LaidOut.getAt_memSet (ho : LaidOut L h m bf) (hi : i < m) (v : BitVec 64) :
    getAt L (BloomFilter.memSet L bf i v) i = v &&& lowMask L :=
  getAt_memSet_same ho.toAddressable (ho.slot_lt hi) v

theorem Mirrors.wrote (hc : Mirrors L h m bf copy) (hw : Wrote L h m i bf bf')
    (hw' : Wrote 1 h m i copy copy') (hempty : getAt 1 copy' i = 0 ↔ getAt L bf' i = 0) :
    Mirrors L h m bf' copy' := by
  refine ⟨hw.laid, hw'.laid, fun s hs => ?_⟩
  by_cases hne : s = i
  · rw [hne]
    exact hempty
  · rw [hw.others s hs hne, hw'.others s hs hne]
    exact hc.empty_iff s hs

theorem Mirrors.increased (hc : Mirrors L h m bf copy) (hi : i < m) :
    Mirrors L h m (increaseAt L bf i) (increaseAt 1 copy i) := by
  refine hc.wrote (hc.filter.memSet hi 1) (hc.copied.memSet hi 1) (iff_of_false ?_ ?_)
  · rw [increaseAt, hc.copied.getAt_memSet hi, one_and_lowMask hc.copied.pos]
    decide
  · rw [increaseAt, hc.filter.getAt_memSet hi, one_and_lowMask hc.filter.pos]
    decide

theorem decreaseAt_empty (hempty : getAt L bf i = 0) : decreaseAt L bf i = (true, bf) := by
  rw [decreaseAt, hempty]
  rfl

theorem decreaseAt_counted (hne : getAt L bf i ≠ 0) :
    decreaseAt L bf i = (getAt L bf i - 1 == 0, memSet L bf i (getAt L bf i - 1)) := by
  have hpos : getAt L bf i > 0 := (BitVec.pos_iff_ne_zero _).mpr hne
  rw [decreaseAt]
  exact if_pos hpos

theorem less_and_lowMask (ha : Addressable L bf) (hi : i < bf.m) (hne : getAt L bf i ≠ 0) :
    (getAt L bf i - 1) &&& lowMask L = getAt L bf i - 1 := by
  have hcut : getAt L bf i &&& lowMask L = getAt L bf i := by
    apply BitVec.eq_of_getLsbD_eq
    intro b hb
    rw [BitVec.getLsbD_and, getLsbD_getAt ha hi, getLsbD_mask, decide_eq_true hb, Bool.and_true,
      Bool.and_right_comm, Bool.and_self]
  have hlt : (getAt L bf i).toNat < 2 ^ L := by
    rw [← hcut, toNat_and_lowMask]
    exact Nat.mod_lt _ (Nat.two_pow_pos L)
  have hpos : 0 < (getAt L bf i).toNat :=
    (BitVec.toNat_pos _).mpr ((BitVec.pos_iff_ne_zero _).mpr hne)
  have hless : (getAt L bf i - 1).toNat = (getAt L bf i).toNat - 1 := BitVec.toNat_sub_of_le hpos
  apply BitVec.eq_of_toNat_eq
  rw [toNat_and_lowMask, hless]
  exact Nat.mod_eq_of_lt (by omega)

theorem Mirrors.decreased (hc : Mirrors L h m bf copy) (hi : i < m) :
    Mirrors L h m (decreaseAt L bf i).2
      (if (decreaseAt L bf i).1 then memSet 1 copy i 0 else copy) := by
  have hzero : getAt 1 (memSet 1 copy i 0) i = 0 := by
    rw [hc.copied.getAt_memSet hi]
    exact BitVec.zero_and
  by_cases hempty : getAt L bf i = 0
  · rw [decreaseAt_empty hempty, if_pos rfl]
    exact hc.wrote hc.filter.kept (hc.copied.memSet hi 0) (iff_of_true hzero hempty)
  · have hget : getAt L (memSet L bf i (getAt L bf i - 1)) i = getAt L bf i - 1 := by
      rw [hc.filter.getAt_memSet hi,
        less_and_lowMask hc.filter.toAddressable (hc.filter.slot_lt hi) hempty]
    rw [decreaseAt_counted hempty]
    by_cases hlast : getAt L bf i - 1 = 0
    · rw [if_pos (beq_iff_eq.mpr hlast)]
      exact hc.wrote (hc.filter.memSet hi _) (hc.copied.memSet hi 0)
        (iff_of_true hzero (hget.trans hlast))
    · rw [if_neg (mt beq_iff_eq.mp hlast)]
      refine hc.wrote (hc.filter.memSet hi _) hc.copied.kept ?_
      rw [hc.empty_iff i hi, hget]
      exact iff_of_false hempty hlast

theorem Mirrors.inserted (hc : Mirrors L h m bf copy) {l : List ℕ} (hl : ∀ s ∈ l, s < m) :
    Mirrors L h m (l.foldl (increaseAt L) bf) (l.foldl (increaseAt 1) copy) := by
  induction l generalizing bf copy with
  | nil => exact hc
  | cons i l ih =>
    rw [List.forall_mem_cons] at hl
    exact ih (hc.increased hl.1) hl.2

end Slots

section Pattern

variable {fuel j : ℕ} {key : Key} {toErase : BitVec 64}

theorem getLsbD_bit (hj : j < 64) : ((1 : BitVec 64) <<< i).getLsbD j = decide (j = i) := by
  rw [BitVec.getLsbD_shiftLeft, decide_eq_true hj, Bool.true_and]
  by_cases hlt : j < i
  · rw [decide_eq_true hlt, decide_eq_false (Nat.ne_of_lt hlt)]
    rfl
  · have hone : (1 : BitVec 64).getLsbD (j - i) = decide (j - i = 0) := by simp
    rw [decide_eq_false hlt, hone, Bool.not_false, Bool.true_and]
    exact decide_eq_decide.mpr (by omega)

theorem foldl_eraseRound_cons (hash : Key → BitVec 32) (rest : List (Key → BitVec 32)) :
    (hash :: rest).foldl (eraseRound L m key) (toErase, (1 : BitVec 64) <<< i, bf) =
      rest.foldl (eraseRound L m key)
        (if (decreaseAt L bf (fast_map_to_buckets m (hash key))).1
          then toErase ||| (1 : BitVec 64) <<< i else toErase, (1 : BitVec 64) <<< (i + 1),
          (decreaseAt L bf (fast_map_to_buckets m (hash key))).2) := by
  rw [List.foldl_cons, eraseRound, BitVec.shiftLeft_add]

theorem getLsbD_round {b : Bool} (hj : j < 64) :
    (if b then toErase ||| (1 : BitVec 64) <<< i else toErase).getLsbD j =
      (toErase.getLsbD j || (b && decide (j = i))) := by
  cases b with
  | false => rw [if_neg Bool.false_ne_true, Bool.false_and, Bool.or_false]
  | true => rw [if_pos rfl, BitVec.getLsbD_or, getLsbD_bit hj, Bool.true_and]

theorem foldl_eraseRound_bits {rest : List (Key → BitVec 32)} (hj : j < 64) (hlt : j < i) :
    (rest.foldl (eraseRound L m key) (toErase, (1 : BitVec 64) <<< i, bf)).1.getLsbD j =
      toErase.getLsbD j := by
  induction rest generalizing i toErase bf with
  | nil => rfl
  | cons hash rest ih =>
    rw [foldl_eraseRound_cons, ih (Nat.lt_succ_of_lt hlt), getLsbD_round hj,
      decide_eq_false (Nat.ne_of_lt hlt), Bool.and_false, Bool.or_false]

theorem foldl_eraseRound_bit {hash : Key → BitVec 32} {rest : List (Key → BitVec 32)}
    (hi : i < 64) (hnone : toErase.getLsbD i = false) :
    ((hash :: rest).foldl (eraseRound L m key) (toErase, (1 : BitVec 64) <<< i, bf)).1.getLsbD i =
      (decreaseAt L bf (fast_map_to_buckets m (hash key))).1 := by
  rw [foldl_eraseRound_cons, foldl_eraseRound_bits hi (Nat.lt_add_one i), getLsbD_round hi, hnone,
    decide_eq_true rfl, Bool.false_or, Bool.and_true]

theorem maskFrom_zero (fuel i : ℕ) : maskFrom key fuel i 0 bf = some bf := by
  cases fuel with
  | zero => rfl
  | succ fuel => exact if_pos rfl

theorem maskFrom_succ {hash : Key → BitVec 32} (hhash : bf.h[i]? = some hash) :
    maskFrom key (fuel + 1) i toErase bf = maskFrom key fuel (i + 1) (toErase >>> 1)
      (if toErase.getLsbD 0 then memSet 1 bf (fast_map_to_buckets bf.m (hash key)) 0 else bf) := by
  by_cases hzero : toErase = 0
  · have hshift : (0 : BitVec 64) >>> 1 = 0 := BitVec.zero_ushiftRight
    have hbit : (0 : BitVec 64).getLsbD 0 = false := BitVec.getLsbD_zero
    rw [hzero, maskFrom_zero, hshift, hbit, if_neg Bool.false_ne_true, maskFrom_zero]
  · have hodd : toErase &&& 1 = 1 ↔ toErase.getLsbD 0 = true := by
      rw [← BitVec.toNat_inj, BitVec.toNat_and]
      simp [BitVec.getLsbD, Nat.testBit_zero]
    rw [maskFrom, if_neg hzero, hhash]
    by_cases hbit : toErase.getLsbD 0 = true
    · rw [if_pos (hodd.mpr hbit), if_pos hbit]
      rfl
    · rw [if_neg (mt hodd.mp hbit), if_neg hbit]

/-- Round by round, `mask` does to the copy what `erase` has done to the filter. -/
theorem erase_masked {rest : List (Key → BitVec 32)} (hc : Mirrors L h m bf copy)
    (hrest : h.drop i = rest) (hlt : ∀ s ∈ slots rest m key, s < m)
    (hnone : ∀ j, i ≤ j → toErase.getLsbD j = false) (hfuel : rest.length ≤ fuel)
    (hbits : i + rest.length ≤ 64) :
    ∃ copy', maskFrom key fuel i
        ((rest.foldl (eraseRound L m key) (toErase, (1 : BitVec 64) <<< i, bf)).1 >>> i) copy =
          some copy' ∧
      Mirrors L h m (rest.foldl (eraseRound L m key) (toErase, (1 : BitVec 64) <<< i, bf)).2.2
        copy' := by
  induction rest generalizing i toErase bf copy fuel with
  | nil =>
    have hnothing : toErase >>> i = 0 := by
      apply BitVec.eq_of_getLsbD_eq
      intro j _
      rw [BitVec.getLsbD_ushiftRight, hnone _ (Nat.le_add_right i j)]
      exact BitVec.getLsbD_zero.symm
    exact ⟨copy, by rw [List.foldl_nil, hnothing, maskFrom_zero], hc⟩
  | cons hash rest ih =>
    rw [List.length_cons] at hfuel hbits
    rw [slots, List.map_cons, List.forall_mem_cons] at hlt
    obtain ⟨fuel, rfl⟩ : ∃ before, fuel = before + 1 := ⟨fuel - 1, by omega⟩
    have hhash : copy.h[i]? = some hash := by
      rw [hc.copied.h_eq, ← Nat.add_zero i, ← List.getElem?_drop, hrest]
      rfl
    have hdrop : h.drop (i + 1) = rest := by
      rw [← List.drop_drop, hrest]
      rfl
    have hi : i < 64 := by omega
    rw [maskFrom_succ hhash, BitVec.getLsbD_ushiftRight, Nat.add_zero i,
      foldl_eraseRound_bit hi (hnone i (Nat.le_refl i)), ← BitVec.shiftRight_add, hc.copied.m_eq,
      foldl_eraseRound_cons]
    refine ih (hc.decreased hlt.1) hdrop hlt.2 (fun j hj => ?_) (by omega) (by omega)
    by_cases hj64 : j < 64
    · rw [getLsbD_round hj64, hnone j (by omega), decide_eq_false (by omega : ¬ j = i),
        Bool.and_false, Bool.or_false]
    · exact BitVec.getLsbD_of_ge _ _ (Nat.le_of_not_lt hj64)

end Pattern

section Runs

theorem insert_eq (bf : BloomFilter.Filter Key) (key : Key) :
    insert L bf key = (slots bf.h bf.m key).foldl (increaseAt L) bf := by
  rw [slots, List.foldl_map]
  rfl

theorem laidOut_construct (hL : 0 < L) (hL64 : L < 64) (hfits : m * L + 63 < 2 ^ 32) :
    LaidOut L h m (construct L h m) :=
  ⟨addressable_construct hL hL64 hfits, rfl, rfl⟩

theorem mirrors_construct (hL : 0 < L) (hL64 : L < 64) (hfits : m * L + 63 < 2 ^ 32) :
    Mirrors L h m (construct L h m) (construct 1 h m) := by
  have hless : m * 1 ≤ m * L := Nat.mul_le_mul_left m hL
  have hfilter : LaidOut L h m (construct L h m) := laidOut_construct hL hL64 hfits
  have hcopy : LaidOut 1 h m (construct 1 h m) :=
    laidOut_construct (by decide) (by decide) (by omega)
  refine ⟨hfilter, hcopy, fun s hs => ?_⟩
  exact iff_of_true (getAt_construct hcopy.toAddressable hs)
    (getAt_construct hfilter.toAddressable hs)

theorem Mirrors.step (hc : Mirrors L h m bf copy) (hm : h ≠ [] → 0 < m) (hk : h.length ≤ 64)
    (op : Op Key) :
    ∃ copy', mirror L (bf, copy) op = some (apply L bf op, copy') ∧
      Mirrors L h m (apply L bf op) copy' := by
  have hlt : ∀ key, ∀ s ∈ slots h m key, s < m := fun key s hs => slots_lt hm hs
  cases op with
  | insert key =>
    refine ⟨insert 1 copy key, rfl, ?_⟩
    rw [BloomFilter.apply, insert_eq, insert_eq, hc.filter.h_eq, hc.filter.m_eq, hc.copied.h_eq,
      hc.copied.m_eq]
    exact hc.inserted (hlt key)
  | erase key =>
    have hzero : ∀ j, 0 ≤ j → (0 : BitVec 64).getLsbD j = false := fun _ _ => BitVec.getLsbD_zero
    have hwhole : 0 + h.length ≤ 64 := by rwa [Nat.zero_add]
    obtain ⟨copy', hmask, hc'⟩ := erase_masked hc List.drop_zero (hlt key) hzero hk hwhole
    have herase : erase L bf key = ((h.foldl (eraseRound L m key) (0, 1, bf)).1,
        (h.foldl (eraseRound L m key) (0, 1, bf)).2.2) := by
      rw [erase, hc.filter.h_eq, hc.filter.m_eq]
    rw [BitVec.shiftLeft_zero, BitVec.ushiftRight_zero] at hmask
    rw [BitVec.shiftLeft_zero] at hc'
    refine ⟨copy', ?_, ?_⟩
    · have hmirror : mirror L (bf, copy) (.erase key) =
          (mask copy key (erase L bf key).1).bind fun copy => some ((erase L bf key).2, copy) := rfl
      rw [hmirror, mask, herase, hmask, BloomFilter.apply, herase, Option.bind_some]
    · rw [BloomFilter.apply, herase]
      exact hc'

theorem Mirrors.run (hc : Mirrors L h m bf copy) (hm : h ≠ [] → 0 < m) (hk : h.length ≤ 64)
    (ops : List (Op Key)) :
    ∃ copy', ops.foldlM (mirror L) (bf, copy) = some (run L bf ops, copy') ∧
      Mirrors L h m (run L bf ops) copy' := by
  induction ops generalizing bf copy with
  | nil => exact ⟨copy, rfl, hc⟩
  | cons op ops ih =>
    obtain ⟨copy₁, hstep, hc₁⟩ := hc.step hm hk op
    obtain ⟨copy', hrest, hc'⟩ := ih hc₁
    refine ⟨copy', ?_, hc'⟩
    rw [List.foldlM_cons, hstep]
    exact hrest

theorem Mirrors.isMember (hc : Mirrors L h m bf copy) (hm : h ≠ [] → 0 < m) (key : Key) :
    isMember 1 copy key = isMember L bf key := by
  rw [Bool.eq_iff_iff, BloomFilter.isMember, BloomFilter.isMember, hc.filter.h_eq, hc.filter.m_eq,
    hc.copied.h_eq, hc.copied.m_eq, List.all_eq_true, List.all_eq_true]
  refine forall₂_congr fun hash hhash => ?_
  rw [bne_iff_ne, bne_iff_ne]
  exact not_congr (hc.empty_iff _ (slots_lt hm (List.mem_map_of_mem hhash)))

/-- From any memory of the filter and a copy with the same slots empty, whatever is inserted and
erased: the copy that takes the inserts and the masks has the filter's members. -/
theorem mirrored_members (hc : Mirrors L h m bf copy) (hm : h ≠ [] → 0 < m)
    (hk : h.length ≤ 64) (ops : List (Op Key)) :
    ∃ copy', ops.foldlM (mirror L) (bf, copy) = some (run L bf ops, copy') ∧
      ∀ key, isMember 1 copy' key = isMember L (run L bf ops) key := by
  obtain ⟨copy', hrun, hc'⟩ := hc.run hm hk ops
  exact ⟨copy', hrun, hc'.isMember hm⟩

end Runs

def counted : BloomFilter.Filter ℕ := { h := halves, m := 2, mem := [0x23] }

def flags : BloomFilter.Filter ℕ := { h := halves, m := 2, mem := [0x3] }

theorem mirrors_counted : Mirrors 4 halves 2 counted flags :=
  ⟨⟨⟨by decide, by decide, by decide, rfl⟩, rfl, rfl⟩,
    ⟨⟨by decide, by decide, by decide, rfl⟩, rfl, rfl⟩, by decide +kernel⟩

/-- Two erases empty slot 1, and leave one in slot 0. From new filters, an erase takes back what was
inserted. -/
theorem mirrored_members_counted : (∃ copy',
    [Op.erase 1, .erase 8, .erase 1, .erase 8].foldlM (mirror 4) (counted, flags) =
      some (run 4 counted [.erase 1, .erase 8, .erase 1, .erase 8], copy') ∧
    isMember 1 copy' 1 = true ∧ isMember 1 copy' 8 = false) ∧
    ∃ copy', [Op.insert 1, .insert 8, .erase 8].foldlM (mirror 4)
        (construct 4 halves 2, construct 1 halves 2) =
      some (run 4 (construct 4 halves 2) [.insert 1, .insert 8, .erase 8], copy') ∧
    isMember 1 copy' 1 = true ∧ isMember 1 copy' 8 = false := by
  constructor
  · obtain ⟨copy', hrun, hsame⟩ := mirrored_members mirrors_counted (fun _ => by decide) (by decide)
      [Op.erase 1, .erase 8, .erase 1, .erase 8]
    refine ⟨copy', hrun, ?_, ?_⟩
    · rw [hsame]
      decide +kernel
    · rw [hsame]
      decide +kernel
  · have hnew : Mirrors 4 halves 2 (construct 4 halves 2) (construct 1 halves 2) :=
      mirrors_construct (by decide) (by decide) (by decide)
    obtain ⟨copy', hrun, hsame⟩ := mirrored_members hnew (fun _ => by decide) (by decide)
      [Op.insert 1, .insert 8, .erase 8]
    refine ⟨copy', hrun, ?_, ?_⟩
    · rw [hsame]
      decide +kernel
    · rw [hsame]
      decide +kernel

end BloomMirror
