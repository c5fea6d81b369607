import TinyCR.BucketCodec
import TinyCR.AlternatePosition
import Mathlib.Algebra.BigOperators.Group.Finset.Basic
import Mathlib.Data.Multiset.Filter
import Mathlib.Data.Sym.Sym2

/-! # The vacuum filter

`VacuumFilter` over the semi-sorted buckets of `SemiSortCuckooFilter`. A stored
fingerprint stands for an element: the unordered pair of its two positions together with
the fingerprint. The filter is the multiset of the elements of its slots. -/
namespace VacuumFilter

open BucketCodec AlternatePosition

/-- The hash functions of `HashUtil`, left arbitrary. -/
structure HashUtil where
  MurmurHash64 : BitVec 64 → BitVec 64
  MurmurHash32 : BitVec 32 → BitVec 32

/-- `default_random_engine`: the next number drawn, and the state `e.seed(1)` gives. -/
structure RandomEngine (E : Type) where
  next : E → ℕ × E
  seed : E

/-- The fields of `SemiSortCuckooFilter`. -/
structure Filter (E : Type) where
  n : ℕ
  m : ℕ
  memory_consumption : ℕ
  max_2_power : ℕ
  big_seg : ℤ
  len : List ℤ
  isSmall : Bool
  fp_len : ℕ
  e : E
  T : List (BitVec 32)
  tables : Tables
  filled_cell : ℤ
  max_kick_steps : ℕ

variable {E : Type} (hash : HashUtil) (engine : RandomEngine E)

/-- `#define ROUNDUP(a, b) ROUNDDOWN((a) + (b - 1), b)` -/
def ROUNDUP (a b : ℕ) : ℕ := ROUNDDOWN (a + (b - 1)) b

/-- `for (; max_2_power * 2 < _n;) max_2_power <<= 1;` for a 31-bit `_n`. -/
def growPower (n : ℕ) : ℕ → ℕ → ℕ
  | 0, max_2_power => max_2_power
  | fuel + 1, max_2_power =>
    if max_2_power * 2 < n then growPower n fuel (max_2_power <<< 1) else max_2_power

/-- `proper_alt_range` is floating point and stays a parameter; only large filters use it. -/
def init (properAltRange : ℕ → ℕ → ℤ) (f : Filter E) (_n _m _step fp_length : ℕ) : Filter E :=
  let _n := _n + (_n &&& 1)
  let isSmall := decide (_n < 1315800)
  let big_seg := max 0 (properAltRange _n 0)
  let n := if isSmall then _n else ROUNDUP _n big_seg.toNat
  let len := if isSmall then f.len else
    [max (big_seg - 1) 1024, properAltRange n 1 - 1, properAltRange n 2 - 1,
      max (properAltRange n 3 - 1) 31]
  let how_many_bit := n * _m * (fp_length - 1)
  let memory_consumption := ROUNDUP (how_many_bit + 64) 8 / 8 + 8
  { n := n
    m := _m
    memory_consumption := memory_consumption
    max_2_power := growPower n 31 1
    big_seg := if isSmall then f.big_seg else big_seg - 1
    len := len
    isSmall := isSmall
    fp_len := fp_length
    e := engine.seed
    T := List.replicate (memory_consumption / 4) 0
    tables := if _m = 4 then f.tables.build else f.tables
    filled_cell := 0
    max_kick_steps := _step }

def getBucket (f : Filter E) (pos : ℕ) : Bucket :=
  BucketCodec.getBucket f.fp_len f.tables f.T pos

def setBucket (f : Filter E) (pos : ℕ) (store : List ℕ) : Filter E :=
  { f with T := BucketCodec.setBucket f.fp_len f.tables f.T pos store }

/-- `(ele % n + n) % n` on `long long`. -/
def positionHash (f : Filter E) (ele : BitVec 64) : ℕ :=
  ((ele.toInt.tmod f.n + f.n).tmod f.n).toNat

/-- Never zero: the empty slot has no fingerprint. -/
def fingerprint (f : Filter E) (ele : BitVec 64) : ℕ :=
  (hash.MurmurHash64 (ele ^^^ 0x192837319273#64)).toNat % ((1 <<< f.fp_len) - 1) + 1

def alternate (f : Filter E) (pos fp : ℕ) : ℕ :=
  if f.isSmall then
    smallAlternate f.n f.max_2_power (hash.MurmurHash32 (BitVec.ofNat 32 fp)).toNat pos
  else
    let fp_hash := BitVec.ofNat 32 fp * 0x5bd1e995#32
    let seg := BitVec.ofInt 32 (f.len.getD (fp &&& 3) 0)
    pos ^^^ (fp_hash &&& seg).toNat

def hashed (ele : BitVec 64) : BitVec 64 := hash.MurmurHash64 (ele ^^^ 0x12891927#64)

def positionPair (f : Filter E) (ele : BitVec 64) : ℕ × ℕ :=
  let ele := hashed hash ele
  let fp := fingerprint hash f ele
  let pos1 := positionHash f ele
  let pos2 := alternate hash f pos1 fp
  (pos1, pos2)

/-- 1: found; 2: not found in a full bucket; 3: not found in a bucket with room. -/
def lookupInBucket (f : Filter E) (pos fp : ℕ) : ℕ :=
  let store := (getBucket f pos).slots.take f.m
  if fp ∈ store then 1 else if 0 ∈ store then 3 else 2

def lookup (f : Filter E) (ele : BitVec 64) : Bool :=
  let ele := hashed hash ele
  let fp := fingerprint hash f ele
  let pos1 := positionHash f ele
  if lookupInBucket f pos1 fp = 1 then true
  else
    let pos2 := alternate hash f pos1 fp
    decide (lookupInBucket f pos2 fp = 1)

/-- `assert(pos1 == alternate(pos2, fp))` in `lookup`. -/
def lookupAssertion (f : Filter E) (ele : BitVec 64) : Prop :=
  let ele := hashed hash ele
  let fp := fingerprint hash f ele
  let pos1 := positionHash f ele
  pos1 = alternate hash f (alternate hash f pos1 fp) fp

def delInBucket (f : Filter E) (pos fp : ℕ) : ℕ × Filter E :=
  let store := (getBucket f pos).slots
  match (List.range f.m).find? fun i => store.getD i 0 = fp with
  | some i => (1, setBucket { f with filled_cell := f.filled_cell - 1 } pos (store.set i 0))
  | none => (0, f)

def del (f : Filter E) (ele : BitVec 64) : Bool × Filter E :=
  let ele := hashed hash ele
  let fp := fingerprint hash f ele
  let pos1 := positionHash f ele
  let (ok1, f) := delInBucket f pos1 fp
  if ok1 = 1 then (true, f)
  else
    let pos2 := alternate hash f pos1 fp
    let (ok2, f) := delInBucket f pos2 fp
    (decide (ok2 = 1), f)

/-! ### insert -/

/-- 0 when `fp` went into slot 3, 1 + 4 when the bucket is full. -/
def insertToBucket (f : Filter E) (store : Bucket) (fp : ℕ) : ℕ × List ℕ :=
  if store.count = f.m then (1 + 4, store.slots) else (0, store.slots.set 3 fp)

/-- The first slot of a full bucket whose fingerprint has room at its other position. -/
def lookAhead (f : Filter E) (alt : ℕ) (store1 : List ℕ) : Option ℕ :=
  (List.range f.m).find? fun j =>
    (getBucket f (alternate hash f alt (store1.getD j 0))).count < f.m

/-- The loop over `max_kick_steps`; `tmp_fp` has been kicked out and `alt` is its place. -/
def kickLoop : ℕ → Filter E → ℕ → ℕ → ℕ × Filter E
  | 0, f, _, _ => (1, f)
  | i + 1, f, alt, tmp_fp =>
    let store1 := getBucket f alt
    if store1.count = f.m then
      match lookAhead hash f alt store1.slots with
      | some j =>
        let fp_j := store1.slots.getD j 0
        let nex := alternate hash f alt fp_j
        let store2 := (getBucket f nex).slots.set (f.m - 1) fp_j
        let f := setBucket { f with filled_cell := f.filled_cell + 1 } nex store2
        (0, setBucket f alt (store1.slots.set j tmp_fp))
      | none =>
        let (r, e) := engine.next f.e
        let rk := r % f.m
        let fp := store1.slots.getD rk 0
        let f := setBucket { f with e := e } alt (store1.slots.set rk tmp_fp)
        kickLoop i f (alternate hash f alt fp) fp
    else
      (0, setBucket { f with filled_cell := f.filled_cell + 1 } alt
        (store1.slots.set (f.m - 1) tmp_fp))

def kick (f : Filter E) (fp cur1 cur2 : ℕ) (store1 store2 : List ℕ) : ℕ × Filter E :=
  let (r, e) := engine.next f.e
  let rk := r % f.m
  let (r', e) := engine.next e
  let (cur, cur_store) := if r' &&& 1 ≠ 0 then (cur1, store1) else (cur2, store2)
  let tmp_fp := cur_store.getD rk 0
  let f := setBucket { f with e := e } cur (cur_store.set rk fp)
  kickLoop hash engine f.max_kick_steps f (alternate hash f cur tmp_fp) tmp_fp

/-- 0: the fingerprint is in; 1: the chain of kicks ran out of steps. -/
def insert (f : Filter E) (ele : BitVec 64) : ℕ × Filter E :=
  let ele := hashed hash ele
  let fp := fingerprint hash f ele
  let cur1 := positionHash f ele
  let cur2 := alternate hash f cur1 fp
  let store1 := getBucket f cur1
  let store2 := getBucket f cur2
  if store1.count ≤ store2.count then
    let (ok, store) := insertToBucket f store1 fp
    if ok = 0 then (0, setBucket { f with filled_cell := f.filled_cell + 1 } cur1 store)
    else kick hash engine f fp cur1 cur2 store1.slots store2.slots
  else
    let (ok, store) := insertToBucket f store2 fp
    if ok = 0 then (0, setBucket { f with filled_cell := f.filled_cell + 1 } cur2 store)
    else kick hash engine f fp cur1 cur2 store1.slots store2.slots

/-! ### Elements and contents -/

/-- What a fingerprint in a bucket stands for. -/
def elementAt (f : Filter E) (pos fp : ℕ) : Sym2 ℕ × ℕ := (s(pos, alternate hash f pos fp), fp)

def element (f : Filter E) (ele : BitVec 64) : Sym2 ℕ × ℕ :=
  elementAt hash f (positionHash f (hashed hash ele)) (fingerprint hash f (hashed hash ele))

def slotElements (f : Filter E) (pos : ℕ) (store : List ℕ) : Multiset (Sym2 ℕ × ℕ) :=
  (Multiset.filter (· ≠ 0) (store : Multiset ℕ)).map (elementAt hash f pos)

/-- The multiset of the elements of all non-zero slots. -/
def contents (f : Filter E) : Multiset (Sym2 ℕ × ℕ) :=
  ∑ pos ∈ Finset.range f.n, slotElements hash f pos (getBucket f pos).slots

/-- `g` is `f` up to the cells, their count and the engine. -/
def SameShape (f g : Filter E) : Prop :=
  g = { f with T := g.T, e := g.e, filled_cell := g.filled_cell }

/-- What `init` establishes for a small filter and every operation keeps. -/
structure Valid (f : Filter E) : Prop where
  small : f.isSmall = true
  four : f.m = 4
  fp_range : 4 ≤ f.fp_len ∧ f.fp_len ≤ 16
  even : f.n % 2 = 0
  two_le : 2 ≤ f.n
  n_lt : f.n < 2 ^ 31
  power : f.max_2_power < f.n
  built : f.tables.Built
  words : f.T.length = f.memory_consumption / 4
  room : Room f.fp_len f.T f.n
  sorted : ∀ pos < f.n, Bucket.WellFormed f.fp_len (getBucket f pos).slots
  filled : f.filled_cell = (contents hash f).card

/-- What the operations rely on in either mode: positions that are exchanged in pairs, and buckets
that the codec keeps apart. -/
structure Operable (f : Filter E) : Prop where
  four : f.m = 4
  fp_range : 4 ≤ f.fp_len ∧ f.fp_len ≤ 16
  pos : 0 < f.n
  paired : ∀ pos < f.n, ∀ fp, alternate hash f pos fp < f.n ∧
    alternate hash f (alternate hash f pos fp) fp = pos
  built : f.tables.Built
  words : f.T.length = f.memory_consumption / 4
  room : Room f.fp_len f.T f.n
  sorted : ∀ pos < f.n, Bucket.WellFormed f.fp_len (getBucket f pos).slots
  filled : f.filled_cell = (contents hash f).card

section Shape

variable {hash}

@[refl] theorem SameShape.refl (f : Filter E) : SameShape f f := rfl

theorem SameShape.trans {f g h : Filter E} (hfg : SameShape f g) (hgh : SameShape g h) :
    SameShape f h := by
  rw [SameShape] at *
  rw [hgh, hfg]

theorem sameShape_setBucket (f : Filter E) (c : ℤ) (e : E) (pos : ℕ) (store : List ℕ) :
    SameShape f (setBucket { f with filled_cell := c, e := e } pos store) := rfl

variable {f g : Filter E}

theorem SameShape.elementAt (h : SameShape f g) : elementAt hash g = elementAt hash f := by
  rw [h]
  rfl

theorem SameShape.element (h : SameShape f g) : element hash g = element hash f := by
  rw [h]
  rfl

theorem SameShape.positionPair (h : SameShape f g) :
    positionPair hash g = positionPair hash f := by
  rw [h]
  rfl

end Shape

theorem positionHash_lt_of_pos {f : Filter E} (hn : 0 < f.n) (ele : BitVec 64) :
    positionHash f ele < f.n := by
  have hn : (0 : ℤ) < f.n := by omega
  have h1 : -(f.n : ℤ) < ele.toInt.tmod f.n := Int.lt_tmod_of_pos _ hn
  have h2 : (ele.toInt.tmod f.n + f.n).tmod f.n < f.n := Int.tmod_lt_of_pos _ hn
  rw [positionHash]
  omega

section Positions

variable {hash} {f : Filter E}

theorem fingerprint_bounds (hash : HashUtil) (hlen : 4 ≤ f.fp_len) (ele : BitVec 64) :
    fingerprint hash f ele ≠ 0 ∧ fingerprint hash f ele < 2 ^ f.fp_len := by
  have h16 : 2 ^ 4 ≤ 2 ^ f.fp_len := Nat.pow_le_pow_right (by decide) hlen
  have hpos : 0 < 2 ^ f.fp_len - 1 := by omega
  have := Nat.mod_lt (hash.MurmurHash64 (ele ^^^ 0x192837319273#64)).toNat hpos
  rw [fingerprint, Nat.one_shiftLeft]
  omega

theorem positionHash_lt (hv : Valid hash f) (ele : BitVec 64) : positionHash f ele < f.n :=
  positionHash_lt_of_pos (by have := hv.two_le; omega) ele

theorem alternate_spec (hv : Valid hash f) {pos : ℕ} (hpos : pos < f.n) (fp : ℕ) :
    alternate hash f pos fp < f.n ∧ alternate hash f pos fp ≠ pos ∧
      alternate hash f (alternate hash f pos fp) fp = pos := by
  simp only [alternate, hv.small, if_true]
  exact smallAlternate_spec hv.even hv.n_lt hv.power hpos

theorem Valid.operable (hv : Valid hash f) : Operable hash f where
  four := hv.four
  fp_range := hv.fp_range
  pos := by
    have := hv.two_le
    omega
  paired := fun pos hpos fp =>
    ⟨(alternate_spec hv hpos fp).1, (alternate_spec hv hpos fp).2.2⟩
  built := hv.built
  words := hv.words
  room := hv.room
  sorted := hv.sorted
  filled := hv.filled

variable (hv : Operable hash f)
include hv

theorem Operable.positionHash_lt (ele : BitVec 64) : positionHash f ele < f.n :=
  positionHash_lt_of_pos hv.pos ele

theorem elementAt_alternate {pos : ℕ} (hpos : pos < f.n) (fp : ℕ) :
    elementAt hash f (alternate hash f pos fp) fp = elementAt hash f pos fp := by
  rw [elementAt, elementAt, (hv.paired pos hpos fp).2, Sym2.eq_swap]

theorem elementAt_eq_iff {pos pos' fp fp' : ℕ} (hpos : pos < f.n) :
    elementAt hash f pos' fp' = elementAt hash f pos fp ↔
      fp' = fp ∧ (pos' = pos ∨ pos' = alternate hash f pos fp) := by
  constructor
  · intro h
    rw [elementAt, elementAt, Prod.mk.injEq, Sym2.eq_iff] at h
    obtain ⟨h | h, rfl⟩ := h
    · exact ⟨rfl, Or.inl h.1⟩
    · exact ⟨rfl, Or.inr h.1⟩
  · rintro ⟨rfl, rfl | rfl⟩
    · rfl
    · exact elementAt_alternate hv hpos _

theorem Operable.lookupAssertion_holds (ele : BitVec 64) : lookupAssertion hash f ele :=
  (hv.paired _ (hv.positionHash_lt _) _).2.symm

end Positions

section Write

variable {hash} {f : Filter E}

variable (hash f) in
theorem slotElements_set (pos : ℕ) {store : List ℕ} {i : ℕ} (hi : i < store.length) (fp : ℕ) :
    slotElements hash f pos (store.set i fp) + slotElements hash f pos [store.getD i 0] =
      slotElements hash f pos store + slotElements hash f pos [fp] := by
  have hset : ((store.set i fp : List ℕ) : Multiset ℕ) + ([store.getD i 0] : List ℕ) =
      (store : Multiset ℕ) + ([fp] : List ℕ) := by
    have h1 := Multiset.coe_eq_coe.mpr (List.set_perm_cons_eraseIdx hi fp)
    have h2 := Multiset.coe_eq_coe.mpr (List.getElem_cons_eraseIdx_perm hi)
    rw [h1, ← h2, List.getD_eq_getElem?_getD, List.getElem?_eq_getElem hi, Option.getD_some]
    simp only [← Multiset.cons_coe, Multiset.coe_nil,
      ← Multiset.singleton_add]
    ac_rfl
  simp only [slotElements, ← Multiset.map_add, ← Multiset.filter_add, hset]

theorem slotElements_singleton (pos : ℕ) {fp : ℕ} (h : fp ≠ 0) :
    slotElements hash f pos [fp] = {elementAt hash f pos fp} := by
  simp [slotElements, h]

theorem slotElements_zero (pos : ℕ) : slotElements hash f pos [0] = 0 := by
  simp [slotElements]

theorem length_T_setBucket (f : Filter E) (pos : ℕ) (store : List ℕ) :
    (setBucket f pos store).T.length = f.T.length := by
  rw [setBucket, BucketCodec.length_setBucket]

theorem SameShape.slotElements {g : Filter E} (h : SameShape f g) :
    slotElements hash g = slotElements hash f := by
  funext pos store
  rw [VacuumFilter.slotElements, h.elementAt]
  rfl

theorem length_slots (pos : ℕ) : (getBucket f pos).slots.length = 4 := rfl

theorem length_slots_set (f : Filter E) (pos i fp : ℕ) :
    ((getBucket f pos).slots.set i fp).length = 4 := by
  rw [List.length_set, length_slots]

theorem slots_lt (hlen : 4 ≤ f.fp_len) (pos i : ℕ) :
    (getBucket f pos).slots.getD i 0 < 2 ^ f.fp_len := by
  rw [List.getD_eq_getElem?_getD]
  rcases h : (getBucket f pos).slots[i]? with _ | s
  · exact Nat.two_pow_pos _
  · exact decode_lt hlen _ _ s (List.mem_of_getElem? h)

theorem slots_set_lt (hlen : 4 ≤ f.fp_len) (pos i : ℕ) {fp : ℕ} (hfp : fp < 2 ^ f.fp_len) :
    ∀ s ∈ (getBucket f pos).slots.set i fp, s < 2 ^ f.fp_len := by
  intro s hs
  rcases List.mem_or_eq_of_mem_set hs with h | rfl
  · exact decode_lt hlen _ _ s h
  · exact hfp

variable (hv : Operable hash f) {pos : ℕ} (hpos : pos < f.n)
include hv hpos

theorem last_slot_free (h : (getBucket f pos).count ≠ f.m) :
    (getBucket f pos).slots.getD 3 0 = 0 := by
  have hwf := hv.sorted pos hpos
  have hcount : (getBucket f pos).count = occupied (getBucket f pos).slots := rfl
  rw [hcount, hv.four] at h
  generalize (getBucket f pos).slots = store at *
  obtain ⟨a, b, c, d, rfl⟩ := List.length_eq_four.mp hwf.length_eq
  have hd := hwf.descending
  simp only [List.pairwise_cons, List.mem_cons, List.not_mem_nil, or_false, forall_eq_or_imp,
    forall_eq] at hd
  obtain ⟨⟨hab, -, -⟩, ⟨hbc, -⟩, hcd, -⟩ := hd
  by_contra hd0
  simp only [List.getD_cons_zero, List.getD_cons_succ] at hd0
  apply h
  rw [occupied, List.countP_eq_length.mpr]
  · rfl
  · intro x hx
    simp only [List.mem_cons, List.not_mem_nil, or_false] at hx
    rw [decide_eq_true_eq]
    omega

omit hpos in
theorem slot_ne_zero (h : (getBucket f pos).count = f.m) {i : ℕ} (hi : i < f.m) :
    (getBucket f pos).slots.getD i 0 ≠ 0 := by
  rw [hv.four] at hi h
  have hcount : (getBucket f pos).slots.countP (· ≠ 0) = (getBucket f pos).slots.length := h
  have hall := List.countP_eq_length.mp hcount
  rw [List.getD_eq_getElem?_getD, List.getElem?_eq_getElem (by rw [length_slots]; exact hi)]
  simpa using hall _ (List.getElem_mem _)

variable {store : List ℕ} (h4 : store.length = 4) (hb : ∀ s ∈ store, s < 2 ^ f.fp_len) (c : ℤ)
  (e : E)
include h4 hb

theorem getBucket_setBucket_same :
    getBucket (setBucket { f with filled_cell := c, e := e } pos store) pos =
      ⟨sortStore store, occupied (sortStore store)⟩ :=
  BucketCodec.getBucket_setBucket_same hv.fp_range hv.built hv.room hpos h4 hb

theorem getBucket_setBucket_other {pos' : ℕ} (hne : pos' ≠ pos) :
    getBucket (setBucket { f with filled_cell := c, e := e } pos store) pos' =
      getBucket f pos' :=
  BucketCodec.getBucket_setBucket_other hv.fp_range hv.built hv.room hpos h4 hb hne

theorem contents_setBucket :
    contents hash (setBucket { f with filled_cell := c, e := e } pos store) +
        slotElements hash f pos (getBucket f pos).slots =
      contents hash f + slotElements hash f pos store := by
  have hshape := sameShape_setBucket f c e pos store
  have hn : (setBucket { f with filled_cell := c, e := e } pos store).n = f.n := rfl
  have hmem : pos ∈ Finset.range f.n := Finset.mem_range.mpr hpos
  have hsorted : slotElements hash f pos (sortStore store) = slotElements hash f pos store := by
    rw [slotElements, slotElements, Multiset.coe_eq_coe.mpr (sortStore_perm h4)]
  have hrest : ∀ pos' ∈ (Finset.range f.n).erase pos,
      slotElements hash f pos'
        (getBucket (setBucket { f with filled_cell := c, e := e } pos store) pos').slots =
      slotElements hash f pos' (getBucket f pos').slots := fun pos' h => by
    rw [getBucket_setBucket_other hv hpos h4 hb c e (Finset.ne_of_mem_erase h)]
  rw [contents, contents, hn, hshape.slotElements, ← Finset.add_sum_erase _ _ hmem,
    ← Finset.add_sum_erase (Finset.range f.n) (fun pos => slotElements hash f pos _) hmem,
    Finset.sum_congr rfl hrest, getBucket_setBucket_same hv hpos h4 hb, hsorted]
  ac_rfl

theorem operable_setBucket
    (hc : c = (contents hash (setBucket { f with filled_cell := c, e := e } pos store)).card) :
    Operable hash (setBucket { f with filled_cell := c, e := e } pos store) where
  four := hv.four
  fp_range := hv.fp_range
  pos := hv.pos
  paired := hv.paired
  built := hv.built
  words := (length_T_setBucket _ pos store).trans hv.words
  room := hv.room.congr (length_T_setBucket _ pos store)
  sorted := by
    intro pos' hpos'
    by_cases hne : pos' = pos
    · rw [hne, getBucket_setBucket_same hv hpos h4 hb c e]
      have hwf := sortStore_wellFormed h4 hb
      dsimp only
      exact hwf
    · rw [getBucket_setBucket_other hv hpos h4 hb c e hne]
      exact hv.sorted pos' hpos'
  filled := hc

end Write

section Slot

variable {hash} {f : Filter E} (hv : Operable hash f) {pos : ℕ} (hpos : pos < f.n) {i : ℕ}
  (hi : i < 4) {fp : ℕ} (hfp : fp < 2 ^ f.fp_len) (c : ℤ) (e : E)
include hv hpos hi hfp

theorem contents_setSlot :
    contents hash (setBucket { f with filled_cell := c, e := e } pos
        ((getBucket f pos).slots.set i fp)) +
        slotElements hash f pos [(getBucket f pos).slots.getD i 0] =
      contents hash f + slotElements hash f pos [fp] := by
  have h1 := contents_setBucket hv hpos (length_slots_set f pos i fp)
    (slots_set_lt hv.fp_range.1 pos i hfp) c e
  have h2 := slotElements_set hash f pos
    (by rw [length_slots]; exact hi : i < (getBucket f pos).slots.length) fp
  apply add_right_cancel (b := slotElements hash f pos (getBucket f pos).slots)
  calc _ = contents hash (setBucket { f with filled_cell := c, e := e } pos
            ((getBucket f pos).slots.set i fp)) +
          slotElements hash f pos (getBucket f pos).slots +
          slotElements hash f pos [(getBucket f pos).slots.getD i 0] := by ac_rfl
    _ = contents hash f + (slotElements hash f pos ((getBucket f pos).slots.set i fp) +
          slotElements hash f pos [(getBucket f pos).slots.getD i 0]) := by rw [h1, add_assoc]
    _ = _ := by rw [h2]; ac_rfl

omit hi in
theorem operable_setSlot
    (hc : c = (contents hash (setBucket { f with filled_cell := c, e := e } pos
      ((getBucket f pos).slots.set i fp))).card) :
    Operable hash (setBucket { f with filled_cell := c, e := e } pos
      ((getBucket f pos).slots.set i fp)) :=
  operable_setBucket hv hpos (length_slots_set f pos i fp) (slots_set_lt hv.fp_range.1 pos i hfp)
    c e hc

omit hi

theorem fill_slot (hi : i < 4) (hfree : (getBucket f pos).slots.getD i 0 = 0) (h0 : fp ≠ 0) :
    let g := setBucket { f with filled_cell := f.filled_cell + 1, e := e } pos
      ((getBucket f pos).slots.set i fp)
    Operable hash g ∧ SameShape f g ∧
      contents hash g = contents hash f + {elementAt hash f pos fp} := by
  intro g
  have hc := contents_setSlot hv hpos hi hfp (f.filled_cell + 1) e
  rw [hfree, slotElements_zero, add_zero, slotElements_singleton pos h0] at hc
  refine ⟨operable_setSlot hv hpos hfp _ e ?_, sameShape_setBucket .., hc⟩
  rw [hc, Multiset.card_add, Multiset.card_singleton, hv.filled]
  rfl

theorem swap_slot (hi : i < 4) (hold : (getBucket f pos).slots.getD i 0 ≠ 0) (h0 : fp ≠ 0) :
    let g := setBucket { f with filled_cell := f.filled_cell, e := e } pos
      ((getBucket f pos).slots.set i fp)
    Operable hash g ∧ SameShape f g ∧
      contents hash g + {elementAt hash f pos ((getBucket f pos).slots.getD i 0)} =
        contents hash f + {elementAt hash f pos fp} := by
  intro g
  have hc := contents_setSlot hv hpos hi hfp f.filled_cell e
  rw [slotElements_singleton pos hold, slotElements_singleton pos h0] at hc
  refine ⟨operable_setSlot hv hpos hfp _ e ?_, sameShape_setBucket .., hc⟩
  have hcard := congrArg Multiset.card hc
  simp only [Multiset.card_add, Multiset.card_singleton] at hcard
  rw [hv.filled]
  exact_mod_cast (Nat.add_right_cancel hcard).symm

omit hfp

theorem clear_slot (hi : i < 4) (hold : (getBucket f pos).slots.getD i 0 ≠ 0) :
    let g := setBucket { f with filled_cell := f.filled_cell - 1, e := e } pos
      ((getBucket f pos).slots.set i 0)
    Operable hash g ∧ SameShape f g ∧
      contents hash g + {elementAt hash f pos ((getBucket f pos).slots.getD i 0)} =
        contents hash f := by
  intro g
  have hc := contents_setSlot hv hpos hi (Nat.two_pow_pos _) (f.filled_cell - 1) e
  rw [slotElements_singleton pos hold, slotElements_zero, add_zero] at hc
  refine ⟨operable_setSlot hv hpos (Nat.two_pow_pos _) _ e ?_, sameShape_setBucket .., hc⟩
  have hcard := congrArg Multiset.card hc
  rw [Multiset.card_add, Multiset.card_singleton] at hcard
  have hfilled : f.filled_cell = _ := hv.filled.trans (congrArg Nat.cast hcard.symm)
  rw [hfilled]
  push_cast
  exact Int.add_sub_cancel _ _

end Slot

section Operations

variable {hash} {engine} {f : Filter E} (hv : Operable hash f)
include hv

theorem mem_slotElements_iff {pos pos' fp : ℕ} (hpos : pos < f.n) (h0 : fp ≠ 0) :
    elementAt hash f pos fp ∈ slotElements hash f pos' (getBucket f pos').slots ↔
      fp ∈ (getBucket f pos').slots ∧ (pos' = pos ∨ pos' = alternate hash f pos fp) := by
  simp only [slotElements, Multiset.mem_map, Multiset.mem_filter, Multiset.mem_coe]
  constructor
  · rintro ⟨x, ⟨hx, -⟩, heq⟩
    obtain ⟨rfl, h⟩ := (elementAt_eq_iff hv hpos).mp heq
    exact ⟨hx, h⟩
  · rintro ⟨hx, h⟩
    exact ⟨fp, ⟨hx, h0⟩, (elementAt_eq_iff hv hpos).mpr ⟨rfl, h⟩⟩

theorem mem_contents_iff {pos fp : ℕ} (hpos : pos < f.n) (h0 : fp ≠ 0) :
    elementAt hash f pos fp ∈ contents hash f ↔
      fp ∈ (getBucket f pos).slots ∨ fp ∈ (getBucket f (alternate hash f pos fp)).slots := by
  simp only [contents, Multiset.mem_sum, Finset.mem_range]
  constructor
  · rintro ⟨pos', -, h⟩
    obtain ⟨hx, rfl | rfl⟩ := (mem_slotElements_iff hv hpos h0).mp h
    · exact Or.inl hx
    · exact Or.inr hx
  · rintro (h | h)
    · exact ⟨pos, hpos, (mem_slotElements_iff hv hpos h0).mpr ⟨h, Or.inl rfl⟩⟩
    · exact ⟨_, (hv.paired _ hpos fp).1, (mem_slotElements_iff hv hpos h0).mpr
        ⟨h, Or.inr rfl⟩⟩

theorem lookupInBucket_eq_one (pos fp : ℕ) :
    lookupInBucket f pos fp = 1 ↔ fp ∈ (getBucket f pos).slots := by
  have htake : (getBucket f pos).slots.take f.m = (getBucket f pos).slots := by
    rw [hv.four]
    exact List.take_of_length_le (by rw [length_slots])
  rw [lookupInBucket, htake]
  split
  case isTrue h => exact iff_of_true rfl h
  case isFalse h =>
    refine iff_of_false ?_ h
    split <;> decide

theorem Operable.lookup_spec (ele : BitVec 64) :
    lookup hash f ele = true ↔ element hash f ele ∈ contents hash f := by
  rw [element, mem_contents_iff hv (hv.positionHash_lt _)
    (fingerprint_bounds hash hv.fp_range.1 _).1]
  simp only [lookup, lookupInBucket_eq_one hv]
  split
  case isTrue h => exact iff_of_true rfl (Or.inl h)
  case isFalse h => rw [decide_eq_true_eq, or_iff_right h]

theorem delInBucket_spec {pos fp : ℕ} (hpos : pos < f.n) (h0 : fp ≠ 0) :
    (fp ∈ (getBucket f pos).slots ∧ (delInBucket f pos fp).1 = 1 ∧
      Operable hash (delInBucket f pos fp).2 ∧ SameShape f (delInBucket f pos fp).2 ∧
      contents hash (delInBucket f pos fp).2 + {elementAt hash f pos fp} = contents hash f) ∨
    (fp ∉ (getBucket f pos).slots ∧ delInBucket f pos fp = (0, f)) := by
  rw [delInBucket]
  split
  case h_1 i hfind =>
    obtain ⟨hi, heq⟩ : i < 4 ∧ (getBucket f pos).slots.getD i 0 = fp := by
      have h1 := List.find?_some hfind
      have h2 := List.mem_of_find?_eq_some hfind
      rw [List.mem_range, hv.four] at h2
      exact ⟨h2, of_decide_eq_true h1⟩
    have hmem : fp ∈ (getBucket f pos).slots := by
      rw [List.getD_eq_getElem?_getD,
        List.getElem?_eq_getElem (by rw [length_slots]; exact hi), Option.getD_some] at heq
      exact heq ▸ List.getElem_mem _
    have hclear := clear_slot hv hpos f.e hi (by rw [heq]; exact h0)
    rw [heq] at hclear
    exact Or.inl ⟨hmem, rfl, hclear⟩
  case h_2 hnone =>
    refine Or.inr ⟨fun hmem => ?_, rfl⟩
    obtain ⟨i, hi, heq⟩ := List.getElem_of_mem hmem
    rw [List.find?_eq_none] at hnone
    refine hnone i (List.mem_range.mpr ?_) (decide_eq_true ?_)
    · rwa [hv.four, ← length_slots (f := f) pos]
    · rw [List.getD_eq_getElem?_getD, List.getElem?_eq_getElem hi, Option.getD_some, heq]

theorem Operable.del_spec (ele : BitVec 64) :
    (element hash f ele ∈ contents hash f ∧ (del hash f ele).1 = true ∧
      Operable hash (del hash f ele).2 ∧ SameShape f (del hash f ele).2 ∧
      contents hash (del hash f ele).2 + {element hash f ele} = contents hash f) ∨
    (element hash f ele ∉ contents hash f ∧ del hash f ele = (false, f)) := by
  have hpos := hv.positionHash_lt (hashed hash ele)
  have h0 := (fingerprint_bounds hash hv.fp_range.1 (hashed hash ele)).1
  rw [element, mem_contents_iff hv hpos h0, del]
  generalize positionHash f (hashed hash ele) = pos1 at *
  generalize fingerprint hash f (hashed hash ele) = fp at *
  rcases delInBucket_spec hv hpos h0 with ⟨hmem, h1, hv', hs, hc⟩ | ⟨hmem, h1⟩
  · generalize delInBucket f pos1 fp = r at *
    obtain ⟨ok1, f1⟩ := r
    obtain rfl : ok1 = 1 := h1
    exact Or.inl ⟨Or.inl hmem, rfl, hv', hs, hc⟩
  · rw [h1]
    rcases delInBucket_spec hv (hv.paired _ hpos fp).1 h0 with
      ⟨hmem2, h2, hv', hs, hc⟩ | ⟨hmem2, h2⟩
    · rw [elementAt_alternate hv hpos] at hc
      exact Or.inl ⟨Or.inr hmem2, decide_eq_true h2, hv', hs, hc⟩
    · simp only [zero_ne_one, if_false, h2]
      exact Or.inr ⟨not_or.mpr ⟨hmem, hmem2⟩, rfl⟩

end Operations

/-- A kicked-out fingerprint waits for its other bucket; with it the contents are `C`. -/
structure Displaced (f : Filter E) (alt tmp_fp : ℕ) (C : Multiset (Sym2 ℕ × ℕ)) : Prop where
  operable : Operable hash f
  alt_lt : alt < f.n
  ne_zero : tmp_fp ≠ 0
  bounded : tmp_fp < 2 ^ f.fp_len
  total : contents hash f + {elementAt hash f alt tmp_fp} = C

/-- How an insertion towards contents `C` ends: all of it is in, or one element is lost. What `I`
states of the filter still holds. -/
structure Landed (I : Filter E → Prop) (f : Filter E) (C : Multiset (Sym2 ℕ × ℕ))
    (r : ℕ × Filter E) : Prop where
  shape : SameShape f r.2
  valid : I r.2
  result : (r.1 = 0 ∧ contents hash r.2 = C) ∨
    (r.1 = 1 ∧ ∃ x, contents hash r.2 + {x} = C)

section Kicks

variable {hash} {engine} {f : Filter E} {alt tmp_fp : ℕ} {C : Multiset (Sym2 ℕ × ℕ)}

theorem Landed.of_shape {g : Filter E} {r : ℕ × Filter E} (hs : SameShape f g)
    (h : Landed hash (Operable hash) g C r) : Landed hash (Operable hash) f C r :=
  ⟨hs.trans h.shape, h.valid, h.result⟩

theorem lookAhead_some {store : List ℕ} (hv : Operable hash f) {j : ℕ}
    (h : lookAhead hash f alt store = some j) :
    j < 4 ∧ (getBucket f (alternate hash f alt (store.getD j 0))).count ≠ f.m := by
  have h1 := List.find?_some h
  have h2 := List.mem_of_find?_eq_some h
  rw [List.mem_range, hv.four] at h2
  exact ⟨h2, (of_decide_eq_true h1).ne⟩

theorem Displaced.land (h : Displaced hash f alt tmp_fp C)
    (hroom : (getBucket f alt).count ≠ f.m) :
    Landed hash (Operable hash) f C (0, setBucket { f with filled_cell := f.filled_cell + 1 } alt
      ((getBucket f alt).slots.set (f.m - 1) tmp_fp)) := by
  have hm : f.m - 1 = 3 := by rw [h.operable.four]
  obtain ⟨hv, hs, hc⟩ := fill_slot h.operable h.alt_lt h.bounded f.e (by decide : 3 < 4)
    (last_slot_free h.operable h.alt_lt hroom) h.ne_zero
  rw [hm]
  exact ⟨hs, hv, Or.inl ⟨rfl, hc.trans h.total⟩⟩

theorem Displaced.land_ahead (h : Displaced hash f alt tmp_fp C)
    (hfull : (getBucket f alt).count = f.m) {j : ℕ}
    (hj : lookAhead hash f alt (getBucket f alt).slots = some j) :
    Landed hash (Operable hash) f C
      (0, setBucket (setBucket { f with filled_cell := f.filled_cell + 1 }
        (alternate hash f alt ((getBucket f alt).slots.getD j 0))
        ((getBucket f (alternate hash f alt ((getBucket f alt).slots.getD j 0))).slots.set (f.m - 1)
          ((getBucket f alt).slots.getD j 0)))
        alt ((getBucket f alt).slots.set j tmp_fp)) := by
  have hm : f.m - 1 = 3 := by rw [h.operable.four]
  obtain ⟨hj4, hroom⟩ := lookAhead_some h.operable hj
  have hne0 : (getBucket f alt).slots.getD j 0 ≠ 0 :=
    slot_ne_zero h.operable hfull (by rw [h.operable.four]; exact hj4)
  have hlt := slots_lt h.operable.fp_range.1 alt j
  have hnex := (h.operable.paired alt h.alt_lt ((getBucket f alt).slots.getD j 0)).1
  have hnexne : alternate hash f alt ((getBucket f alt).slots.getD j 0) ≠ alt :=
    fun heq => hroom (heq.symm ▸ hfull)
  have helem := elementAt_alternate h.operable h.alt_lt ((getBucket f alt).slots.getD j 0)
  rw [hm]
  generalize hfp : (getBucket f alt).slots.getD j 0 = fp_j at *
  generalize alternate hash f alt fp_j = nex at *
  obtain ⟨hv1, hs1, hc1⟩ := fill_slot h.operable hnex hlt f.e (by decide : 3 < 4)
    (last_slot_free h.operable hnex hroom) hne0
  have hsame : getBucket (setBucket { f with filled_cell := f.filled_cell + 1 } nex
      ((getBucket f nex).slots.set 3 fp_j)) alt = getBucket f alt :=
    getBucket_setBucket_other h.operable hnex (length_slots_set f nex 3 fp_j)
      (slots_set_lt h.operable.fp_range.1 nex 3 hlt) _ f.e hnexne.symm
  rw [← hsame] at hfp ⊢
  have hshape1 : (setBucket { f with filled_cell := f.filled_cell + 1 } nex
      ((getBucket f nex).slots.set 3 fp_j)).n = f.n ∧ (setBucket
      { f with filled_cell := f.filled_cell + 1 } nex ((getBucket f nex).slots.set 3 fp_j)).fp_len =
      f.fp_len := ⟨rfl, rfl⟩
  generalize setBucket { f with filled_cell := f.filled_cell + 1 } nex
      ((getBucket f nex).slots.set 3 fp_j) = f1 at *
  obtain ⟨hn1, hl1⟩ := hshape1
  obtain ⟨hv2, hs2, hc2⟩ := swap_slot hv1 (hn1 ▸ h.alt_lt) (hl1 ▸ h.bounded) f1.e hj4
    (by rw [hfp]; exact hne0) h.ne_zero
  refine ⟨hs1.trans hs2, hv2, Or.inl ⟨rfl, ?_⟩⟩
  rw [hfp, hs1.elementAt, hc1, helem] at hc2
  rw [← h.total]
  apply add_right_cancel (b := {elementAt hash f alt fp_j})
  rw [hc2]
  ac_rfl

theorem Displaced.kick (h : Displaced hash f alt tmp_fp C)
    (hfull : (getBucket f alt).count = f.m) {rk : ℕ} (hrk : rk < 4) (e : E) :
    let fp := (getBucket f alt).slots.getD rk 0
    let g := setBucket { f with e := e } alt ((getBucket f alt).slots.set rk tmp_fp)
    SameShape f g ∧ Displaced hash g (alternate hash g alt fp) fp C := by
  intro fp g
  have hne0 : fp ≠ 0 := slot_ne_zero h.operable hfull (by rw [h.operable.four]; exact hrk)
  obtain ⟨hv, hs, hc⟩ := swap_slot h.operable h.alt_lt h.bounded e hrk hne0 h.ne_zero
  have halt : alt < g.n := h.alt_lt
  refine ⟨hs, hv, (hv.paired _ halt fp).1, hne0, slots_lt h.operable.fp_range.1 alt rk, ?_⟩
  rw [elementAt_alternate hv halt, hs.elementAt]
  exact hc.trans h.total

/-- Whatever the engine draws, the loop ends with `C` or with one element missing. -/
theorem kickLoop_spec (steps : ℕ) (h : Displaced hash f alt tmp_fp C) :
    Landed hash (Operable hash) f C (kickLoop hash engine steps f alt tmp_fp) := by
  induction steps generalizing f alt tmp_fp with
  | zero => exact ⟨SameShape.refl f, h.operable, Or.inr ⟨rfl, _, h.total⟩⟩
  | succ i ih =>
    rw [kickLoop]
    by_cases hfull : (getBucket f alt).count = f.m
    · rw [if_pos hfull]
      split
      case h_1 j hj => exact h.land_ahead hfull hj
      case h_2 =>
        generalize engine.next f.e = draw
        obtain ⟨r, e⟩ := draw
        have hrk : r % f.m < 4 := by rw [h.operable.four]; exact Nat.mod_lt _ (by decide)
        obtain ⟨hs, hd⟩ := h.kick hfull hrk e
        exact (ih hd).of_shape hs
    · rw [if_neg hfull]
      exact h.land hfull

theorem kick_spec (hv : Operable hash f) {fp cur1 cur2 : ℕ} (h1 : cur1 < f.n)
    (h2 : cur2 < f.n) (hfull1 : (getBucket f cur1).count = f.m)
    (hfull2 : (getBucket f cur2).count = f.m) (h0 : fp ≠ 0) (hb : fp < 2 ^ f.fp_len)
    (helem : elementAt hash f cur2 fp = elementAt hash f cur1 fp) :
    Landed hash (Operable hash) f (contents hash f + {elementAt hash f cur1 fp})
      (kick hash engine f fp cur1 cur2 (getBucket f cur1).slots (getBucket f cur2).slots) := by
  rw [kick]
  generalize engine.next f.e = draw
  obtain ⟨r, e⟩ := draw
  generalize hdraw' : engine.next e = draw'
  obtain ⟨r', e'⟩ := draw'
  simp only [hdraw']
  have hrk : r % f.m < 4 := by rw [hv.four]; exact Nat.mod_lt _ (by decide)
  have hkick : ∀ cur, cur < f.n → (getBucket f cur).count = f.m →
      elementAt hash f cur fp = elementAt hash f cur1 fp →
      Landed hash (Operable hash) f (contents hash f + {elementAt hash f cur1 fp})
        (kickLoop hash engine f.max_kick_steps
          (setBucket { f with e := e' } cur ((getBucket f cur).slots.set (r % f.m) fp))
          (alternate hash (setBucket { f with e := e' } cur
            ((getBucket f cur).slots.set (r % f.m) fp)) cur
            ((getBucket f cur).slots.getD (r % f.m) 0))
          ((getBucket f cur).slots.getD (r % f.m) 0)) := by
    intro cur hcur hfull hel
    have hd : Displaced hash f cur fp
        (contents hash f + {elementAt hash f cur1 fp}) := ⟨hv, hcur, h0, hb, by rw [hel]⟩
    obtain ⟨hs, hd'⟩ := hd.kick hfull hrk e'
    exact (kickLoop_spec f.max_kick_steps hd').of_shape hs
  split
  · exact hkick cur1 h1 hfull1 rfl
  · exact hkick cur2 h2 hfull2 helem

theorem count_le (pos : ℕ) : (getBucket f pos).count ≤ 4 :=
  List.countP_le_length

variable (engine) in
/-- 0 adds exactly the new element, 1 adds it and loses one. -/
theorem Operable.insert_spec (hv : Operable hash f) (ele : BitVec 64) :
    Landed hash (Operable hash) f (contents hash f + {element hash f ele})
      (insert hash engine f ele) := by
  have h1 := hv.positionHash_lt (hashed hash ele)
  obtain ⟨h0, hb⟩ := fingerprint_bounds hash hv.fp_range.1 (hashed hash ele)
  rw [element, insert]
  generalize positionHash f (hashed hash ele) = cur1 at *
  generalize fingerprint hash f (hashed hash ele) = fp at *
  have h2 := (hv.paired _ h1 fp).1
  have helem := elementAt_alternate hv h1 fp
  simp only
  generalize alternate hash f cur1 fp = cur2 at *
  have c1 := count_le (f := f) cur1
  have c2 := count_le (f := f) cur2
  have hm := hv.four
  -- the bucket with room is the one `insert` tries
  have hland : ∀ cur, cur < f.n → elementAt hash f cur fp = elementAt hash f cur1 fp →
      (getBucket f cur).count ≠ f.m →
      Landed hash (Operable hash) f (contents hash f + {elementAt hash f cur1 fp})
        (0, setBucket { f with filled_cell := f.filled_cell + 1 } cur
          ((getBucket f cur).slots.set 3 fp)) := by
    intro cur hcur hel hroom
    have hd : Displaced hash f cur fp
        (contents hash f + {elementAt hash f cur1 fp}) := ⟨hv, hcur, h0, hb, by rw [hel]⟩
    have hl := hd.land hroom
    rwa [show f.m - 1 = 3 by omega] at hl
  split
  case isTrue hle =>
    by_cases hfull : (getBucket f cur1).count = f.m
    · rw [insertToBucket, if_pos hfull]
      exact kick_spec hv h1 h2 hfull (by omega) h0 hb helem
    · rw [insertToBucket, if_neg hfull]
      exact hland cur1 h1 rfl hfull
  case isFalse hlt =>
    have hroom : (getBucket f cur2).count ≠ f.m := by omega
    rw [insertToBucket, if_neg hroom]
    exact hland cur2 h2 helem hroom

end Kicks

section Small

variable {hash} {engine} {f g : Filter E}

theorem Valid.of_shape (hv : Valid hash f) (hs : SameShape f g) (h : Operable hash g) :
    Valid hash g where
  small := by
    rw [hs]
    exact hv.small
  four := h.four
  fp_range := h.fp_range
  even := by
    rw [hs]
    exact hv.even
  two_le := by
    rw [hs]
    exact hv.two_le
  n_lt := by
    rw [hs]
    exact hv.n_lt
  power := by
    rw [hs]
    exact hv.power
  built := h.built
  words := h.words
  room := h.room
  sorted := h.sorted
  filled := h.filled

theorem lookup_spec (hv : Valid hash f) (ele : BitVec 64) :
    lookup hash f ele = true ↔ element hash f ele ∈ contents hash f :=
  hv.operable.lookup_spec ele

theorem del_spec (hv : Valid hash f) (ele : BitVec 64) :
    (element hash f ele ∈ contents hash f ∧ (del hash f ele).1 = true ∧
      Valid hash (del hash f ele).2 ∧ SameShape f (del hash f ele).2 ∧
      contents hash (del hash f ele).2 + {element hash f ele} = contents hash f) ∨
    (element hash f ele ∉ contents hash f ∧ del hash f ele = (false, f)) := by
  rcases hv.operable.del_spec ele with ⟨hmem, hret, h, hs, hc⟩ | h
  · exact Or.inl ⟨hmem, hret, hv.of_shape hs h, hs, hc⟩
  · exact Or.inr h

variable (engine) in
theorem insert_spec (hv : Valid hash f) (ele : BitVec 64) :
    Landed hash (Valid hash) f (contents hash f + {element hash f ele})
      (insert hash engine f ele) := by
  have h := hv.operable.insert_spec engine ele
  exact ⟨h.shape, hv.of_shape h.shape h.valid, h.result⟩

end Small

section Shapes

variable {hash} {engine} {f : Filter E}

theorem kickLoop_shape (steps alt fp : ℕ) :
    SameShape f (kickLoop hash engine steps f alt fp).2 := by
  induction steps generalizing f alt fp with
  | zero => rfl
  | succ steps ih =>
    rw [kickLoop]
    dsimp only
    split
    · split
      · rfl
      · exact (sameShape_setBucket f f.filled_cell _ _ _).trans (ih _ _)
    · rfl

variable (hash engine f) in
theorem insert_shape (ele : BitVec 64) : SameShape f (insert hash engine f ele).2 := by
  have hkick : ∀ fp cur1 cur2 store1 store2,
      SameShape f (kick hash engine f fp cur1 cur2 store1 store2).2 := by
    intro fp cur1 cur2 store1 store2
    rw [kick]
    exact (sameShape_setBucket f f.filled_cell _ _ _).trans (kickLoop_shape _ _ _)
  rw [insert]
  dsimp only
  split
  · split
    · rfl
    · exact hkick _ _ _ _ _
  · split
    · rfl
    · exact hkick _ _ _ _ _

end Shapes

theorem growPower_lt {n : ℕ} (fuel : ℕ) {x : ℕ} (h : x < n) : growPower n fuel x < n := by
  induction fuel generalizing x with
  | zero => exact h
  | succ fuel ih =>
    rw [growPower]
    split
    case isTrue hx => exact ih (by rw [Nat.shiftLeft_eq]; omega)
    case isFalse => exact h

theorem init_operable (properAltRange : ℕ → ℕ → ℤ) (f : Filter E) {n fp_length : ℕ} (step : ℕ)
    (hpos : 0 < (init engine properAltRange f n 4 step fp_length).n)
    (hpaired : ∀ pos < (init engine properAltRange f n 4 step fp_length).n, ∀ fp,
      alternate hash (init engine properAltRange f n 4 step fp_length) pos fp <
        (init engine properAltRange f n 4 step fp_length).n ∧
      alternate hash (init engine properAltRange f n 4 step fp_length)
        (alternate hash (init engine properAltRange f n 4 step fp_length) pos fp) fp = pos)
    (hfp : 4 ≤ fp_length ∧ fp_length ≤ 16) :
    Operable hash (init engine properAltRange f n 4 step fp_length) ∧
      contents hash (init engine properAltRange f n 4 step fp_length) = 0 := by
  have hbuilt : f.tables.build.Built := ⟨f.tables, rfl⟩
  have hbuckets : ∀ pos, getBucket (init engine properAltRange f n 4 step fp_length) pos =
      ⟨[0, 0, 0, 0], 0⟩ := by
    intro pos
    simp only [getBucket, init, if_true]
    exact getBucket_zero _ hfp hbuilt
  have hempty : contents hash (init engine properAltRange f n 4 step fp_length) = 0 := by
    rw [contents]
    refine Finset.sum_eq_zero fun pos _ => ?_
    rw [hbuckets]
    rfl
  refine ⟨?_, hempty⟩
  constructor
  case four => rfl
  case fp_range => exact hfp
  case pos => exact hpos
  case paired => exact hpaired
  case built =>
    simp only [init, if_true]
    exact hbuilt
  case words => simp only [init, List.length_replicate]
  case room =>
    have hT : (init engine properAltRange f n 4 step fp_length).T.length =
        (ROUNDUP ((init engine properAltRange f n 4 step fp_length).n * 4 * (fp_length - 1) + 64)
          8 / 8 + 8) / 4 := by
      simp only [init, List.length_replicate]
    have hlen : (init engine properAltRange f n 4 step fp_length).fp_len = fp_length := rfl
    rw [Room, hT, hlen, ROUNDUP, ROUNDDOWN, Nat.mul_assoc, Nat.mul_comm 4]
    generalize (init engine properAltRange f n 4 step fp_length).n * ((fp_length - 1) * 4) = k
    omega
  case sorted =>
    intro pos _
    rw [hbuckets]
    refine ⟨rfl, by decide, ?_⟩
    intro s hs
    have hs0 : s = 0 := by simpa using hs
    rw [hs0]
    exact Nat.two_pow_pos _
  case filled => rw [hempty]; rfl

theorem init_valid (properAltRange : ℕ → ℕ → ℤ) (f : Filter E) {n fp_length : ℕ} (step : ℕ)
    (h2 : 0 < n) (hsmall : n + n % 2 < 1315800) (hfp : 4 ≤ fp_length ∧ fp_length ≤ 16) :
    Valid hash (init engine properAltRange f n 4 step fp_length) ∧
      contents hash (init engine properAltRange f n 4 step fp_length) = 0 := by
  have heven : n + (n &&& 1) = n + n % 2 := by rw [Nat.and_one_is_mod]
  have hmode : (init engine properAltRange f n 4 step fp_length).isSmall = true := by
    simp only [init, heven]
    exact decide_eq_true hsmall
  have hn : (init engine properAltRange f n 4 step fp_length).n = n + n % 2 := by
    simp only [init, heven, decide_eq_true hsmall, if_true]
  have hpower : (init engine properAltRange f n 4 step fp_length).max_2_power < n + n % 2 := by
    simp only [init, heven, decide_eq_true hsmall, if_true]
    exact growPower_lt 31 (by omega)
  have hspec : ∀ pos < (init engine properAltRange f n 4 step fp_length).n, ∀ fp,
      alternate hash (init engine properAltRange f n 4 step fp_length) pos fp <
        (init engine properAltRange f n 4 step fp_length).n ∧
      alternate hash (init engine properAltRange f n 4 step fp_length)
        (alternate hash (init engine properAltRange f n 4 step fp_length) pos fp) fp = pos := by
    intro pos hpos fp
    simp only [alternate, hmode, if_true]
    have heven' : (init engine properAltRange f n 4 step fp_length).n % 2 = 0 := by omega
    have hlt : (init engine properAltRange f n 4 step fp_length).n < 2 ^ 31 := by omega
    obtain ⟨h1, -, h2⟩ := smallAlternate_spec heven' hlt (hn ▸ hpower) hpos
    exact ⟨h1, h2⟩
  obtain ⟨h, hempty⟩ := init_operable hash engine properAltRange f step (by omega) hspec hfp
  refine ⟨?_, hempty⟩
  constructor
  case small => exact hmode
  case four => exact h.four
  case fp_range => exact h.fp_range
  case even => rw [hn]; omega
  case two_le => rw [hn]; omega
  case n_lt => rw [hn]; omega
  case power => rw [hn]; exact hpower
  case built => exact h.built
  case words => exact h.words
  case room => exact h.room
  case sorted => exact h.sorted
  case filled => exact h.filled

end VacuumFilter
