import TinyCR.ControlPlaneOthello

/-! # `DataPlaneOthello`

The query side of data_plane_othello.h: a copy of `mem`, the table sizes and the seeds, and
the flips a device replays on it. -/
namespace DataPlaneOthello

open BitWords PackedCells ControlPlaneOthello

structure DataPlane where
  mem : List (BitVec 64)
  ma : ℕ
  mb : ℕ
  hab : BitVec 64
  hd : BitVec 32
  deriving DecidableEq, Repr

variable {K : Type} [Inhabited K]

protected def getIndices (P : Setup K) (dp : DataPlane) (k : K) : ℕ × ℕ :=
  let hash := (P.hab dp.hab k).toNat
  (multiplyHigh (hash % 2 ^ 32) dp.ma, multiplyHigh (hash / 2 ^ 32) dp.mb + dp.ma)

/-- Whether the digest matches, and the value. -/
protected def query (P : Setup K) (dp : DataPlane) (k : K) : Bool × BitVec 64 :=
  let (ha, hb) := DataPlaneOthello.getIndices P dp k
  let aa := memGet P.toConfig dp.mem ha
  let bb := memGet P.toConfig dp.mem hb
  let vd := aa ^^^ bb
  let v := (vd >>> P.DL) &&& lowMask P.vBits
  if P.DL = 0 then (true, v)
  else if aa &&& 1 = 0 ∨ bb &&& 1 = 0 then (false, v)
  else if P.DL = 1 then (true, v)
  else
    let digest := vd.setWidth 32 &&& P.DEMASK.setWidth 32
    (digest ||| 1 == (P.hd dp.hd k &&& P.DEMASK.setWidth 32) ||| 1, v)

def flipBit (mem : List (BitVec 64)) (index_code : ℕ) : List (BitVec 64) :=
  let bucket_index := index_code / 64
  let entry_index := index_code % 64
  mem.set bucket_index (mem.getD bucket_index 0 ^^^ (1 <<< entry_index))

def mem_value_flipping (dp : DataPlane) (flipped_indexes : List ℕ) : DataPlane :=
  { dp with mem := flipped_indexes.foldl flipBit dp.mem }

def fullSync (st : Othello K) : DataPlane :=
  { mem := st.mem, ma := st.ma, mb := st.mb, hab := st.hab, hd := st.hd }

/-- With one bit a node, `flipped` lists bits of `mem`, and replaying it turns `mem` into
`mem'`. -/
def Replays (c : Config) (mem : List (BitVec 64)) (flipped : List ℕ) (mem' : List (BitVec 64)) :
    Prop :=
  c.VDL = 1 → (∀ i ∈ flipped, i < 64 * mem.length) ∧ flipped.foldl flipBit mem = mem'

variable {c : Config} {mem mem' mem'' : List (BitVec 64)} {flipped flipped' : List ℕ} {n i : ℕ}

@[simp] theorem length_flipBit (i : ℕ) : (flipBit mem i).length = mem.length :=
  List.length_set ..

theorem length_foldl_flipBit (flipped : List ℕ) :
    (flipped.foldl flipBit mem).length = mem.length := by
  induction flipped generalizing mem with
  | nil => rfl
  | cons i flipped ih => rw [List.foldl_cons, ih, length_flipBit]

theorem Replays.nil (c : Config) (mem : List (BitVec 64)) : Replays c mem [] mem :=
  fun _ => ⟨fun _ hi => absurd hi List.not_mem_nil, rfl⟩

theorem Replays.append (h : Replays c mem flipped mem') (h' : Replays c mem' flipped' mem'') :
    Replays c mem (flipped ++ flipped') mem'' := by
  intro hc
  obtain ⟨hin, hmem⟩ := h hc
  obtain ⟨hin', hmem'⟩ := h' hc
  refine ⟨fun i hi => ?_, by rw [List.foldl_append, hmem, hmem']⟩
  rcases List.mem_append.mp hi with hi | hi
  · exact hin i hi
  · rw [← length_foldl_flipBit flipped, hmem]
    exact hin' i hi

theorem bitAt_flipBit (hi : i < 64 * mem.length) (q : ℕ) :
    bitAt (flipBit mem i) q = (bitAt mem q ^^ decide (q = i)) := by
  rw [flipBit, bitAt_set]
  by_cases hq : q / 64 = i / 64
  · rw [if_pos ⟨hq, by omega⟩, BitVec.getLsbD_xor, bitAt, hq]
    congr 1
    have : (1#64 <<< (i % 64)).getLsbD (q % 64) = decide (q % 64 = i % 64) := by
      have h64 : q % 64 < 64 := Nat.mod_lt _ (by decide)
      rw [BitVec.getLsbD_shiftLeft, BitVec.getLsbD_one]
      grind
    refine this.trans (decide_eq_decide.mpr ?_)
    omega
  · rw [if_neg (fun h => hq h.1), decide_eq_false (by rintro rfl; exact hq rfl), Bool.xor_false]

theorem bitAt_foldl_flipBit {q : ℕ} (hq : q < 64 * mem.length) (flipped : List ℕ) :
    bitAt (flipped.foldl flipBit mem) q = (bitAt mem q ^^ decide (flipped.count q % 2 = 1)) := by
  induction flipped generalizing mem with
  | nil => simp
  | cons i flipped ih =>
    have hone : bitAt (flipBit mem i) q = (bitAt mem q ^^ decide (q = i)) := by
      by_cases hi : i < 64 * mem.length
      · exact bitAt_flipBit hi q
      · have hout : flipBit mem i = mem := by
          rw [flipBit]
          exact List.set_eq_of_length_le (by omega)
        rw [hout, decide_eq_false (by omega), Bool.xor_false]
    rw [List.foldl_cons, ih (by rwa [length_flipBit]), hone, List.count_cons, Bool.xor_assoc]
    congr 1
    by_cases heq : q = i
    · subst heq
      rw [beq_self_eq_true, if_pos rfl, decide_eq_true rfl, Bool.true_xor, ← decide_not]
      exact decide_eq_decide.mpr (by omega)
    · rw [if_neg (by simpa using Ne.symm heq), decide_eq_false heq, Bool.false_xor, Nat.add_zero]

theorem memGet_eq_iff (hc : c.VDL = 1) (h : Sized c mem n) (hi : i < n) (v : BitVec 64) :
    memGet c mem i = v &&& c.VDEMASK ↔ bitAt mem i = v.getLsbD 0 := by
  have hget : ∀ b, (memGet c mem i).getLsbD b = (decide (b < 1) && bitAt mem (i + b)) := fun b => by
    rw [getLsbD_memGet h hi, hc, Nat.mul_one]
  have hmask : ∀ b, (v &&& c.VDEMASK).getLsbD b =
      (v.getLsbD b && (decide (b < 1) && decide (b < 64))) := fun b => by
    rw [BitVec.getLsbD_and, Config.VDEMASK, getLsbD_mask, hc]
  constructor
  · intro heq
    have h0 := hget 0
    rw [heq, hmask] at h0
    simpa using h0.symm
  · intro heq
    apply BitVec.eq_of_getLsbD_eq
    intro b hb
    rw [hget, hmask]
    by_cases hb0 : b = 0
    · rw [hb0, Nat.add_zero, heq]
      simp
    · rw [decide_eq_false (by omega), Bool.false_and, Bool.false_and, Bool.and_false]

theorem Replays.memGet_ne_iff (h : Replays c mem flipped mem') (hc : c.VDL = 1)
    (hs : Sized c mem n) (hs' : Sized c mem' n) (hi : i < n) :
    memGet c mem i ≠ memGet c mem' i ↔ Odd (flipped.count i) := by
  have hroom := (hs.room hi).2
  rw [hc] at hroom
  have hbit := memGet_eq_iff hc hs hi (memGet c mem' i)
  have hzero : (memGet c mem' i).getLsbD 0 = bitAt mem' i := by
    rw [getLsbD_memGet hs' hi, hc, Nat.mul_one]
    simp
  rw [memGet_lt hs' hi, hzero, ← (h hc).2, bitAt_foldl_flipBit (by omega)] at hbit
  rw [Nat.odd_iff, ne_eq, ← (h hc).2, hbit]
  cases bitAt mem i <;> simp

theorem Replays.memSet (h : Sized c mem n) (hi : i < n) (v : BitVec 64) :
    Replays c mem (if memGet c mem i ≠ v &&& c.VDEMASK then [i] else []) (memSet c mem i v) := by
  intro hc
  have hroom := (h.room hi).2
  rw [hc] at hroom
  refine ⟨fun j hj => ?_, ext_bitAt ?_ fun q => ?_⟩
  · split at hj
    · rw [List.mem_singleton.mp hj]
      omega
    · exact absurd hj List.not_mem_nil
  · rw [length_memSet]
    split
    · exact length_flipBit i
    · rfl
  · rw [bitAt_memSet h hi, hc, Nat.mul_one]
    have hq : i ≤ q ∧ q < i + 1 ↔ q = i := by omega
    simp only [ne_eq, memGet_eq_iff hc h hi, hq]
    by_cases hqi : q = i
    · subst hqi
      rw [if_pos rfl, Nat.sub_self]
      split
      case isTrue hne =>
        rw [List.foldl_cons, List.foldl_nil, bitAt_flipBit (by omega), decide_eq_true rfl,
          Bool.xor_true]
        exact (Bool.not_eq.mpr hne)
      case isFalse heq => exact not_not.mp heq
    · rw [if_neg hqi]
      split
      · rw [List.foldl_cons, List.foldl_nil, bitAt_flipBit (by omega), decide_eq_false hqi,
          Bool.xor_false]
      · rfl

end DataPlaneOthello
