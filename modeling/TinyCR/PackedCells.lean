import TinyCR.BitWords

/-! # The packed cells of `ControlPlaneOthello`

The data memory `mem` is a `vector<uint64_t>` that holds one field of `VDL` bits a node,
the digest in the low `DL` bits and the value above it. A field may lie across two words. -/
namespace PackedCells

open BitWords

/-- The template arguments of `ControlPlaneOthello`; `vBits` is `sizeof(V) * 8`. -/
structure Config where
  L : ℕ
  DL : ℕ
  vBits : ℕ
  maintainDP : Bool
  maintainDisjointSet : Bool
  vdl_le : L + DL ≤ 60
  l_le : L ≤ vBits

def Config.VDL (c : Config) : ℕ := c.L + c.DL

theorem Config.vdl_le_sixty (c : Config) : c.VDL ≤ 60 := c.vdl_le

theorem Config.vdl_lt (c : Config) : c.VDL < 64 := Nat.lt_of_le_of_lt c.vdl_le (by decide)

theorem Config.l_lt (c : Config) : c.L < 64 := Nat.lt_of_le_of_lt (Nat.le_add_right ..) c.vdl_lt

def lowMask (k : ℕ) : BitVec 64 := ~~~(BitVec.allOnes 64 <<< k)

def Config.VDEMASK (c : Config) : BitVec 64 := lowMask c.VDL

def Config.DEMASK (c : Config) : BitVec 64 := lowMask c.DL

def Config.VMASK (c : Config) : BitVec 64 := lowMask c.L

/-- The body of `memGet` and `memValueGet`: `width` bits from bit `p` on. The source's `left`
is above -64 and below 64, which fits its `char`; here it is cut at 0. -/
def readField (width : ℕ) (mem : List (BitVec 64)) (p : ℕ) : BitVec 64 :=
  let start := p / 64
  let offset := p % 64
  let left := offset + width - 64
  let mask := ~~~(BitVec.allOnes 64 <<< (width - left))
  let result := (mem.getD start 0 >>> offset) &&& mask
  if left > 0 then
    let mask := ~~~(BitVec.allOnes 64 <<< left)
    result ||| ((mem.getD (start + 1) 0 &&& mask) <<< (width - left))
  else result

/-- The body of `memSet` and `memValueSet`. -/
def writeField (width : ℕ) (mem : List (BitVec 64)) (p : ℕ) (value : BitVec 64) :
    List (BitVec 64) :=
  let v := value &&& lowMask width
  let start := p / 64
  let offset := p % 64
  let left := offset + width - 64
  let mask := ~~~(lowMask width <<< offset)
  let mem := mem.set start (mem.getD start 0 &&& mask ||| v <<< offset)
  if left > 0 then
    let mask := BitVec.allOnes 64 <<< left
    mem.set (start + 1) (mem.getD (start + 1) 0 &&& mask ||| v >>> (width - left))
  else mem

def memSet (c : Config) (mem : List (BitVec 64)) (index : ℕ) (value : BitVec 64) :
    List (BitVec 64) :=
  if c.VDL = 0 then mem else writeField c.VDL mem (index * c.VDL % 2 ^ 32) value

def memGet (c : Config) (mem : List (BitVec 64)) (index : ℕ) : BitVec 64 :=
  if c.VDL = 0 then 0 else readField c.VDL mem (index * c.VDL % 2 ^ 32)

def memValueSet (c : Config) (mem : List (BitVec 64)) (index : ℕ) (value : BitVec 64) :
    List (BitVec 64) :=
  if c.L = 0 then mem else writeField c.L mem ((index * c.VDL + c.DL) % 2 ^ 32) value

def memValueGet (c : Config) (mem : List (BitVec 64)) (index : ℕ) : BitVec 64 :=
  if c.L = 0 then 0 else readField c.L mem ((index * c.VDL + c.DL) % 2 ^ 32)

/-- `readField`, where a word past the end of `mem` is not read but makes it fail. -/
def readFieldChecked (width : ℕ) (mem : List (BitVec 64)) (p : ℕ) : Option (BitVec 64) := do
  let start := p / 64
  let offset := p % 64
  let left := offset + width - 64
  let mask := ~~~(BitVec.allOnes 64 <<< (width - left))
  let word ← mem[start]?
  let result := (word >>> offset) &&& mask
  if left > 0 then
    let mask := ~~~(BitVec.allOnes 64 <<< left)
    let next ← mem[start + 1]?
    return result ||| ((next &&& mask) <<< (width - left))
  else return result

def writeFieldChecked (width : ℕ) (mem : List (BitVec 64)) (p : ℕ) (value : BitVec 64) :
    Option (List (BitVec 64)) := do
  let v := value &&& lowMask width
  let start := p / 64
  let offset := p % 64
  let left := offset + width - 64
  let mask := ~~~(lowMask width <<< offset)
  let word ← mem[start]?
  let mem := mem.set start (word &&& mask ||| v <<< offset)
  if left > 0 then
    let mask := BitVec.allOnes 64 <<< left
    let next ← mem[start + 1]?
    return mem.set (start + 1) (next &&& mask ||| v >>> (width - left))
  else return mem

def memSetChecked (c : Config) (mem : List (BitVec 64)) (index : ℕ) (value : BitVec 64) :
    Option (List (BitVec 64)) :=
  if c.VDL = 0 then some mem
  else writeFieldChecked c.VDL mem (index * c.VDL % 2 ^ 32) value

def memGetChecked (c : Config) (mem : List (BitVec 64)) (index : ℕ) : Option (BitVec 64) :=
  if c.VDL = 0 then some 0 else readFieldChecked c.VDL mem (index * c.VDL % 2 ^ 32)

def memValueSetChecked (c : Config) (mem : List (BitVec 64)) (index : ℕ) (value : BitVec 64) :
    Option (List (BitVec 64)) :=
  if c.L = 0 then some mem
  else writeFieldChecked c.L mem ((index * c.VDL + c.DL) % 2 ^ 32) value

def memValueGetChecked (c : Config) (mem : List (BitVec 64)) (index : ℕ) : Option (BitVec 64) :=
  if c.L = 0 then some 0 else readFieldChecked c.L mem ((index * c.VDL + c.DL) % 2 ^ 32)

section Fields

variable {width p : ℕ} {mem : List (BitVec 64)}

theorem getLsbD_mask (k j : ℕ) : (lowMask k).getLsbD j = (decide (j < k) && decide (j < 64)) :=
  getLsbD_lowMask k j

theorem getLsbD_readField (hw : width < 64) (j : ℕ) :
    (readField width mem p).getLsbD j = (decide (j < width) && bitAt mem (p + j)) := by
  unfold readField bitAt
  dsimp only
  have ho : p % 64 < 64 := Nat.mod_lt _ (by decide)
  have hd : (p + j) / 64 = p / 64 + (p % 64 + j) / 64 := by omega
  have hm : (p + j) % 64 = (p % 64 + j) % 64 := by omega
  rw [hd, hm]
  generalize p % 64 = o at *
  generalize p / 64 = s at *
  by_cases hj : j < width
  · by_cases hs : o + j < 64
    · rw [Nat.div_eq_of_lt hs, Nat.mod_eq_of_lt hs]
      split <;> simp only [BitVec.getLsbD_or, BitVec.getLsbD_and, BitVec.getLsbD_ushiftRight,
        BitVec.getLsbD_shiftLeft, getLsbD_lowMask, Nat.add_zero] <;> grind
    · rw [show (o + j) / 64 = 1 by omega,
        show (o + j) % 64 = j - (width - (o + width - 64)) by omega]
      have := fun h => BitVec.getLsbD_of_ge (mem.getD s 0) (o + j) h
      split <;> simp only [BitVec.getLsbD_or, BitVec.getLsbD_and, BitVec.getLsbD_ushiftRight,
        BitVec.getLsbD_shiftLeft, getLsbD_lowMask] <;> grind
  · split <;> simp only [BitVec.getLsbD_or, BitVec.getLsbD_and, BitVec.getLsbD_ushiftRight,
      BitVec.getLsbD_shiftLeft, getLsbD_lowMask] <;> grind

@[simp] theorem length_writeField (v : BitVec 64) :
    (writeField width mem p v).length = mem.length := by
  rw [writeField]
  dsimp only
  split <;> simp only [List.length_set]

theorem bitAt_writeField (hw : width < 64) (hm : p + width ≤ 64 * mem.length) (v : BitVec 64)
    (q : ℕ) :
    bitAt (writeField width mem p v) q =
      if p ≤ q ∧ q < p + width then v.getLsbD (q - p) else bitAt mem q := by
  have ho : p % 64 < 64 := Nat.mod_lt _ (by decide)
  have hq : q % 64 < 64 := Nat.mod_lt _ (by decide)
  rw [writeField]
  dsimp only
  have hfirst : ∀ j, j < 64 → (mem.getD (p / 64) 0 &&& ~~~(lowMask width <<< (p % 64)) |||
      (v &&& lowMask width) <<< (p % 64)).getLsbD j =
      if p % 64 ≤ j ∧ j < p % 64 + width then v.getLsbD (j - p % 64)
      else (mem.getD (p / 64) 0).getLsbD j := by
    intro j hj
    simp only [BitVec.getLsbD_or, BitVec.getLsbD_and, BitVec.getLsbD_not,
      BitVec.getLsbD_shiftLeft, getLsbD_mask]
    grind
  have hword : q / 64 = p / 64 → (mem.getD (p / 64) 0).getLsbD (q % 64) = bitAt mem q := by
    intro h
    rw [bitAt, h]
  split
  case isTrue hl =>
    have hlow : p / 64 + 1 < mem.length := by omega
    rw [bitAt_set, bitAt_set, List.length_set]
    by_cases h2 : q / 64 = p / 64 + 1
    · rw [if_pos ⟨h2, hlow⟩]
      simp only [BitVec.getLsbD_or, BitVec.getLsbD_and, BitVec.getLsbD_ushiftRight,
        getLsbD_highMask, getLsbD_mask]
      have hne : (mem.set (p / 64) (mem.getD (p / 64) 0 &&& ~~~(lowMask width <<< (p % 64)) |||
          (v &&& lowMask width) <<< (p % 64))).getD (p / 64 + 1) 0 = mem.getD (p / 64 + 1) 0 := by
        simp only [List.getD_eq_getElem?_getD, List.getElem?_set]
        rw [if_neg (by omega)]
      have hb : bitAt mem q = (mem.getD (p / 64 + 1) 0).getLsbD (q % 64) := by rw [bitAt, h2]
      rw [hne, hb]
      by_cases hin : p ≤ q ∧ q < p + width
      · rw [if_pos hin, decide_eq_false (by omega), decide_eq_true (by omega),
          decide_eq_true (by omega),
          show width - (p % 64 + width - 64) + q % 64 = q - p by omega,
          decide_eq_true (by omega : q - p < 64)]
        simp
      · rw [if_neg hin, decide_eq_true (by omega), decide_eq_true hq,
          decide_eq_false (p := width - (p % 64 + width - 64) + q % 64 < width) (by omega)]
        simp
    · rw [if_neg (fun h => h2 h.1)]
      by_cases h1 : q / 64 = p / 64
      · rw [if_pos ⟨h1, by omega⟩, hfirst _ hq, hword h1]
        by_cases hin : p ≤ q
        · rw [if_pos (by omega), if_pos (by omega), show q % 64 - p % 64 = q - p by omega]
        · rw [if_neg (by omega), if_neg (by omega)]
      · rw [if_neg (fun h => h1 h.1), if_neg (by omega)]
  case isFalse hl =>
    rw [bitAt_set]
    by_cases h1 : q / 64 = p / 64 ∧ p / 64 < mem.length
    · rw [if_pos h1, hfirst _ hq, hword h1.1]
      by_cases hin : p ≤ q ∧ q < p + width
      · rw [if_pos (by omega), if_pos hin, show q % 64 - p % 64 = q - p by omega]
      · rw [if_neg (by omega), if_neg hin]
    · rw [if_neg h1, if_neg (by omega)]

theorem getElem?_word {i : ℕ} (hi : i < mem.length) : mem[i]? = some (mem.getD i 0) := by
  rw [List.getD_eq_getElem?_getD, List.getElem?_eq_getElem hi, Option.getD_some]

theorem readFieldChecked_eq (hpos : 0 < width) (hm : p + width ≤ 64 * mem.length) :
    readFieldChecked width mem p = some (readField width mem p) := by
  have hstart : p / 64 < mem.length := by omega
  rw [readFieldChecked, readField]
  dsimp only
  rw [getElem?_word hstart, Option.bind_eq_bind, Option.bind_some]
  split
  case isTrue hl =>
    have hnext : p / 64 + 1 < mem.length := by omega
    rw [getElem?_word hnext]
    rfl
  case isFalse => rfl

theorem writeFieldChecked_eq (hpos : 0 < width) (hm : p + width ≤ 64 * mem.length)
    (v : BitVec 64) : writeFieldChecked width mem p v = some (writeField width mem p v) := by
  have hstart : p / 64 < mem.length := by omega
  rw [writeFieldChecked, writeField]
  dsimp only
  rw [getElem?_word hstart, Option.bind_eq_bind, Option.bind_some]
  split
  case isTrue hl =>
    have hnext : p / 64 + 1 < (mem.set (p / 64) (mem.getD (p / 64) 0 &&&
        ~~~(lowMask width <<< (p % 64)) ||| (v &&& lowMask width) <<< (p % 64))).length := by
      rw [List.length_set]
      omega
    rw [getElem?_word hnext]
    rfl
  case isFalse => rfl

end Fields

/-- `mem` was sized for `n` nodes by `memResize`, without wrapping around. -/
structure Sized (c : Config) (mem : List (BitVec 64)) (n : ℕ) : Prop where
  fits : n * c.VDL + 63 < 2 ^ 32
  length_eq : mem.length = (n * c.VDL + 63) / 64

section Cells

variable {c : Config} {mem : List (BitVec 64)} {n i j : ℕ}

theorem Sized.congr {mem' : List (BitVec 64)} (h : Sized c mem n) (hl : mem'.length = mem.length) :
    Sized c mem' n :=
  ⟨h.fits, hl.trans h.length_eq⟩

theorem Sized.room (h : Sized c mem n) (hi : i < n) :
    i * c.VDL % 2 ^ 32 = i * c.VDL ∧ i * c.VDL + c.VDL ≤ 64 * mem.length := by
  have hle : (i + 1) * c.VDL ≤ n * c.VDL := Nat.mul_le_mul_right _ hi
  rw [Nat.add_mul, Nat.one_mul] at hle
  have hf := h.fits
  have hl := h.length_eq
  exact ⟨Nat.mod_eq_of_lt (by omega), by omega⟩

@[simp] theorem length_memSet (v : BitVec 64) : (memSet c mem i v).length = mem.length := by
  rw [memSet]
  split
  · rfl
  · exact length_writeField v

@[simp] theorem length_memValueSet (v : BitVec 64) :
    (memValueSet c mem i v).length = mem.length := by
  rw [memValueSet]
  split
  · rfl
  · exact length_writeField v

theorem getLsbD_memGet (h : Sized c mem n) (hi : i < n) (b : ℕ) :
    (memGet c mem i).getLsbD b = (decide (b < c.VDL) && bitAt mem (i * c.VDL + b)) := by
  rw [memGet]
  split
  case isTrue h0 =>
    rw [h0]
    simp
  case isFalse =>
    rw [(h.room hi).1, getLsbD_readField c.vdl_lt]

theorem memGet_lt (h : Sized c mem n) (hi : i < n) :
    memGet c mem i &&& c.VDEMASK = memGet c mem i := by
  apply BitVec.eq_of_getLsbD_eq
  intro b hb
  rw [BitVec.getLsbD_and, Config.VDEMASK, getLsbD_mask, getLsbD_memGet h hi, decide_eq_true hb]
  simp [Bool.and_comm]

theorem bitAt_memSet (h : Sized c mem n) (hi : i < n) (v : BitVec 64) (q : ℕ) :
    bitAt (memSet c mem i v) q =
      if i * c.VDL ≤ q ∧ q < i * c.VDL + c.VDL then v.getLsbD (q - i * c.VDL)
      else bitAt mem q := by
  rw [memSet]
  split
  case isTrue h0 => rw [if_neg (by omega)]
  case isFalse =>
    rw [(h.room hi).1, bitAt_writeField c.vdl_lt (h.room hi).2]

theorem memGet_memSet_same (h : Sized c mem n) (hi : i < n) (v : BitVec 64) :
    memGet c (memSet c mem i v) i = v &&& c.VDEMASK := by
  apply BitVec.eq_of_getLsbD_eq
  intro b hb
  rw [getLsbD_memGet (h.congr (length_memSet v)) hi, bitAt_memSet h hi, BitVec.getLsbD_and,
    Config.VDEMASK, getLsbD_mask, decide_eq_true hb, Bool.and_true, Bool.and_comm]
  by_cases hlt : b < c.VDL
  · rw [if_pos (by omega), Nat.add_sub_cancel_left]
  · rw [decide_eq_false hlt, Bool.and_false, Bool.and_false]

theorem cells_disjoint (hne : j ≠ i) {width b : ℕ} (hb : b < width) :
    ¬ (i * width ≤ j * width + b ∧ j * width + b < i * width + width) := by
  rintro ⟨hlow, hhigh⟩
  rcases Nat.lt_or_gt_of_ne hne with hlt | hlt
  · have hmul := Nat.mul_le_mul_right width (Nat.succ_le_of_lt hlt)
    rw [Nat.succ_mul] at hmul
    omega
  · have hmul := Nat.mul_le_mul_right width (Nat.succ_le_of_lt hlt)
    rw [Nat.succ_mul] at hmul
    omega

theorem memGet_memSet_other (h : Sized c mem n) (hi : i < n) (hj : j < n) (hne : j ≠ i)
    (v : BitVec 64) : memGet c (memSet c mem i v) j = memGet c mem j := by
  apply BitVec.eq_of_getLsbD_eq
  intro b _
  rw [getLsbD_memGet (h.congr (length_memSet v)) hj, getLsbD_memGet h hj, bitAt_memSet h hi]
  by_cases hlt : b < c.VDL
  · rw [if_neg (cells_disjoint hne hlt)]
  · rw [decide_eq_false hlt, Bool.false_and, Bool.false_and]

theorem memGet_memSet (h : Sized c mem n) (hi : i < n) (hj : j < n) (v : BitVec 64) :
    memGet c (memSet c mem i v) j = Function.update (memGet c mem) i (v &&& c.VDEMASK) j := by
  by_cases hne : j = i
  · rw [hne, Function.update_self, memGet_memSet_same h hi]
  · rw [Function.update_of_ne hne, memGet_memSet_other h hi hj hne]

theorem Sized.value_room (h : Sized c mem n) (hi : i < n) :
    (i * c.VDL + c.DL) % 2 ^ 32 = i * c.VDL + c.DL ∧
      i * c.VDL + c.DL + c.L ≤ 64 * mem.length := by
  obtain ⟨-, hroom⟩ := h.room hi
  have hf := h.fits
  have hl := h.length_eq
  have hv : c.VDL = c.L + c.DL := rfl
  exact ⟨Nat.mod_eq_of_lt (by omega), by omega⟩

theorem getLsbD_memValueGet (h : Sized c mem n) (hi : i < n) (b : ℕ) :
    (memValueGet c mem i).getLsbD b =
      (decide (b < c.L) && (memGet c mem i).getLsbD (c.DL + b)) := by
  have hv : c.VDL = c.L + c.DL := rfl
  rw [getLsbD_memGet h hi, memValueGet]
  split
  case isTrue h0 =>
    rw [h0]
    simp
  case isFalse =>
    rw [(h.value_room hi).1, getLsbD_readField c.l_lt, Nat.add_assoc]
    by_cases hb : b < c.L
    · have hbv : c.DL + b < c.VDL := by omega
      rw [decide_eq_true hb, decide_eq_true hbv, Bool.true_and, Bool.true_and]
    · rw [decide_eq_false hb, Bool.false_and, Bool.false_and]

theorem bitAt_memValueSet (h : Sized c mem n) (hi : i < n) (v : BitVec 64) (q : ℕ) :
    bitAt (memValueSet c mem i v) q =
      if i * c.VDL + c.DL ≤ q ∧ q < i * c.VDL + c.DL + c.L then
        v.getLsbD (q - (i * c.VDL + c.DL))
      else bitAt mem q := by
  rw [memValueSet]
  split
  case isTrue h0 => rw [if_neg (by omega)]
  case isFalse => rw [(h.value_room hi).1, bitAt_writeField c.l_lt (h.value_room hi).2]

theorem memValueSet_xor (h : Sized c mem n) (hi : i < n) (x : BitVec 64) :
    memValueSet c mem i (x ^^^ memValueGet c mem i) =
      memSet c mem i ((x <<< c.DL) ^^^ memGet c mem i) := by
  have hv : c.VDL = c.L + c.DL := rfl
  have hvdl : c.L + c.DL ≤ 60 := c.vdl_le
  refine ext_bitAt ((length_memValueSet _).trans (length_memSet _).symm) fun q => ?_
  rw [bitAt_memValueSet h hi, bitAt_memSet h hi]
  by_cases hcell : i * c.VDL ≤ q ∧ q < i * c.VDL + c.VDL
  case neg => rw [if_neg (by omega), if_neg hcell]
  case pos =>
    have hq : bitAt mem q = (memGet c mem i).getLsbD (q - i * c.VDL) := by
      have hlt : q - i * c.VDL < c.VDL := by omega
      rw [getLsbD_memGet h hi, decide_eq_true hlt, Bool.true_and,
        show i * c.VDL + (q - i * c.VDL) = q by omega]
    have hnew : (x <<< c.DL ^^^ memGet c mem i).getLsbD (q - i * c.VDL) =
        ((x <<< c.DL).getLsbD (q - i * c.VDL) ^^ (memGet c mem i).getLsbD (q - i * c.VDL)) :=
      BitVec.getLsbD_xor
    rw [if_pos hcell, hnew, BitVec.getLsbD_shiftLeft]
    by_cases hval : i * c.VDL + c.DL ≤ q
    · have hsub : q - (i * c.VDL + c.DL) = q - i * c.VDL - c.DL := by omega
      have hlt : q - i * c.VDL - c.DL < c.L := by omega
      rw [if_pos ⟨hval, by omega⟩, BitVec.getLsbD_xor, getLsbD_memValueGet h hi, hsub,
        decide_eq_true hlt, decide_eq_true (by omega : q - i * c.VDL < 64),
        decide_eq_false (by omega : ¬ q - i * c.VDL < c.DL),
        show c.DL + (q - i * c.VDL - c.DL) = q - i * c.VDL by omega]
      simp
    · rw [if_neg (by omega), hq, decide_eq_true (by omega : q - i * c.VDL < c.DL)]
      simp

theorem memSetChecked_eq (h : Sized c mem n) (hi : i < n) (v : BitVec 64) :
    memSetChecked c mem i v = some (memSet c mem i v) := by
  rw [memSetChecked, memSet]
  split
  case isTrue => rfl
  case isFalse h0 =>
    obtain ⟨hmod, hroom⟩ := h.room hi
    rw [hmod, writeFieldChecked_eq (Nat.pos_of_ne_zero h0) hroom]

theorem memGetChecked_eq (h : Sized c mem n) (hi : i < n) :
    memGetChecked c mem i = some (memGet c mem i) := by
  rw [memGetChecked, memGet]
  split
  case isTrue => rfl
  case isFalse h0 =>
    obtain ⟨hmod, hroom⟩ := h.room hi
    rw [hmod, readFieldChecked_eq (Nat.pos_of_ne_zero h0) hroom]

theorem memValueSetChecked_eq (h : Sized c mem n) (hi : i < n) (v : BitVec 64) :
    memValueSetChecked c mem i v = some (memValueSet c mem i v) := by
  rw [memValueSetChecked, memValueSet]
  split
  case isTrue => rfl
  case isFalse h0 =>
    obtain ⟨hmod, hroom⟩ := h.value_room hi
    rw [hmod, writeFieldChecked_eq (Nat.pos_of_ne_zero h0) hroom]

theorem memValueGetChecked_eq (h : Sized c mem n) (hi : i < n) :
    memValueGetChecked c mem i = some (memValueGet c mem i) := by
  rw [memValueGetChecked, memValueGet]
  split
  case isTrue => rfl
  case isFalse h0 =>
    obtain ⟨hmod, hroom⟩ := h.value_room hi
    rw [hmod, readFieldChecked_eq (Nat.pos_of_ne_zero h0) hroom]

theorem toNat_and_lowMask {k : ℕ} (v : BitVec 64) : (v &&& lowMask k).toNat = v.toNat % 2 ^ k := by
  apply Nat.eq_of_testBit_eq
  intro b
  rw [BitVec.testBit_toNat, Nat.testBit_mod_two_pow, BitVec.testBit_toNat, BitVec.getLsbD_and,
    getLsbD_mask]
  by_cases hb : b < 64
  · rw [decide_eq_true hb, Bool.and_true, Bool.and_comm]
  · rw [BitVec.getLsbD_of_ge v b (Nat.le_of_not_lt hb), Bool.false_and, Bool.and_false]

theorem memValueGet_eq_shift (h : Sized c mem n) (hi : i < n) :
    memValueGet c mem i = memGet c mem i >>> c.DL := by
  have hv : c.VDL = c.L + c.DL := rfl
  apply BitVec.eq_of_getLsbD_eq
  intro b _
  rw [getLsbD_memValueGet h hi, BitVec.getLsbD_ushiftRight, getLsbD_memGet h hi]
  by_cases hb : b < c.L
  · rw [decide_eq_true hb, Bool.true_and]
  · rw [decide_eq_false hb, decide_eq_false (by omega : ¬ c.DL + b < c.VDL), Bool.false_and,
      Bool.false_and]

theorem getLsbD_memGet_memValueSet (h : Sized c mem n) (hi : i < n) (v : BitVec 64) (b : ℕ) :
    (memGet c (memValueSet c mem i v) i).getLsbD b =
      if c.DL ≤ b ∧ b < c.VDL then v.getLsbD (b - c.DL) else (memGet c mem i).getLsbD b := by
  have hv : c.VDL = c.L + c.DL := rfl
  rw [getLsbD_memGet (h.congr (length_memValueSet v)) hi, getLsbD_memGet h hi,
    bitAt_memValueSet h hi]
  by_cases hb : c.DL ≤ b ∧ b < c.VDL
  · rw [if_pos hb, if_pos (by omega), decide_eq_true hb.2, Bool.true_and, Nat.add_sub_add_left]
  · rw [if_neg hb]
    by_cases hlt : b < c.VDL
    · rw [if_neg (by omega)]
    · rw [decide_eq_false hlt, Bool.false_and, Bool.false_and]

theorem memValueGet_memValueSet_same (h : Sized c mem n) (hi : i < n) (v : BitVec 64) :
    memValueGet c (memValueSet c mem i v) i = v &&& c.VMASK := by
  have hv : c.VDL = c.L + c.DL := rfl
  apply BitVec.eq_of_getLsbD_eq
  intro b hb
  rw [getLsbD_memValueGet (h.congr (length_memValueSet v)) hi, getLsbD_memGet_memValueSet h hi,
    BitVec.getLsbD_and, Config.VMASK, getLsbD_mask, decide_eq_true hb, Bool.and_true,
    Bool.and_comm]
  by_cases hlt : b < c.L
  · rw [if_pos (by omega), Nat.add_sub_cancel_left]
  · rw [decide_eq_false hlt, Bool.and_false, Bool.and_false]

theorem memGet_memValueSet_digest (h : Sized c mem n) (hi : i < n) (v : BitVec 64) :
    memGet c (memValueSet c mem i v) i &&& c.DEMASK = memGet c mem i &&& c.DEMASK := by
  apply BitVec.eq_of_getLsbD_eq
  intro b _
  rw [BitVec.getLsbD_and, BitVec.getLsbD_and, Config.DEMASK, getLsbD_mask,
    getLsbD_memGet_memValueSet h hi]
  by_cases hb : b < c.DL
  · rw [if_neg (by omega)]
  · rw [decide_eq_false hb, Bool.false_and, Bool.and_false, Bool.and_false]

theorem memGet_memValueSet_other (h : Sized c mem n) (hi : i < n) (hj : j < n) (hne : j ≠ i)
    (v : BitVec 64) : memGet c (memValueSet c mem i v) j = memGet c mem j := by
  have hv : c.VDL = c.L + c.DL := rfl
  apply BitVec.eq_of_getLsbD_eq
  intro b _
  rw [getLsbD_memGet (h.congr (length_memValueSet v)) hj, getLsbD_memGet h hj,
    bitAt_memValueSet h hi]
  by_cases hlt : b < c.VDL
  · have hcell := cells_disjoint hne hlt
    rw [if_neg (by omega)]
  · rw [decide_eq_false hlt, Bool.false_and, Bool.false_and]

theorem memValueGet_eq (hD : c.DL = 0) : memValueGet c mem i = memGet c mem i := by
  rw [memValueGet, memGet, Config.VDL, hD, Nat.add_zero, Nat.add_zero]

theorem memValueSet_eq (hD : c.DL = 0) (v : BitVec 64) :
    memValueSet c mem i v = memSet c mem i v := by
  rw [memValueSet, memSet, Config.VDL, hD, Nat.add_zero, Nat.add_zero]

/-- The four routines keep the cells and the parts of a cell apart, inside the memory. -/
theorem cells_apart {ma mb : ℕ} (h : Sized c mem (ma + mb)) (hi : i < ma + mb) (v : BitVec 64) :
    ((memGet c (memSet c mem i v) i).toNat = v.toNat % 2 ^ c.VDL ∧
      ∀ j < ma + mb, j ≠ i → memGet c (memSet c mem i v) j = memGet c mem j) ∧
    ((memValueGet c (memValueSet c mem i v) i).toNat = v.toNat % 2 ^ c.L ∧
      (memGet c (memValueSet c mem i v) i).toNat % 2 ^ c.DL =
        (memGet c mem i).toNat % 2 ^ c.DL ∧
      ∀ j < ma + mb, j ≠ i → memGet c (memValueSet c mem i v) j = memGet c mem j) ∧
    memValueGet c mem i = memGet c mem i >>> c.DL ∧
    memSetChecked c mem i v = some (memSet c mem i v) ∧
    memGetChecked c mem i = some (memGet c mem i) ∧
    memValueSetChecked c mem i v = some (memValueSet c mem i v) ∧
    memValueGetChecked c mem i = some (memValueGet c mem i) := by
  refine ⟨⟨?_, fun j hj hne => memGet_memSet_other h hi hj hne v⟩,
    ⟨?_, ?_, fun j hj hne => memGet_memValueSet_other h hi hj hne v⟩,
    memValueGet_eq_shift h hi, memSetChecked_eq h hi v, memGetChecked_eq h hi,
    memValueSetChecked_eq h hi v, memValueGetChecked_eq h hi⟩
  · rw [memGet_memSet_same h hi, Config.VDEMASK, toNat_and_lowMask]
  · rw [memValueGet_memValueSet_same h hi, Config.VMASK, toNat_and_lowMask]
  · have hdigest := congrArg BitVec.toNat (memGet_memValueSet_digest h hi v)
    rwa [Config.DEMASK, toNat_and_lowMask, toNat_and_lowMask] at hdigest

def acrossConfig : Config := ⟨33, 4, 64, true, true, by decide, by decide⟩

def acrossMem : List (BitVec 64) := [0x123456789abcdef0, 0x0fedcba987654321]

theorem cells_apart_across :
    memGet acrossConfig (memValueSet acrossConfig acrossMem 1 (BitVec.allOnes 64)) 0 =
      memGet acrossConfig acrossMem 0 := by
  have hsized : Sized acrossConfig acrossMem (2 + 1) := ⟨by decide, by decide⟩
  have hcells := cells_apart hsized (by decide : 1 < 2 + 1) (BitVec.allOnes 64)
  exact hcells.2.1.2.2 0 (by decide) (by decide)

end Cells

end PackedCells
