import TinyCR.FilterCopy
import TinyCR.SummaryWire
import TinyCR.CRIoTControl

/-! # Full updates

`encode_full` lays a verifier out field by field, and `decode_full` reads the fields back with
an offset of 32 bits. The tables of the filter are not sent: the receiver builds its own. -/
namespace FullWire

open BucketCodec ByteReader SummaryWire DataPlaneOthello DASSTracker DASSVerifier CRIoTControl
  FilterCopy

variable {K E : Type}

/-- `<<` and `>>` of `default_random_engine`. -/
structure EngineText (E : Type) where
  print : E → List UInt8
  parse : List UInt8 → E
  parse_print : ∀ e, parse (print e) = e

/-! ### The server -/

def toUInt32 (i : ℤ) : ℕ := (BitVec.ofInt 32 i).toNat

def toInt32 (x : ℕ) : ℤ := (BitVec.ofNat 32 x).toInt

/-- `int T_len = memory_consumption * sizeof(char) / sizeof(uint32_t)` -/
def T_len (memory_consumption : ℕ) : ℕ := (toInt32 (memory_consumption / 4)).toNat

def encodeOthello (o : DataPlane) : List (List UInt8) :=
  [ split_uint_t 4 o.mem.length,
    split_uint_t_vector 8 (o.mem.map BitVec.toNat),
    split_uint_t 4 o.ma,
    split_uint_t 4 o.mb,
    split_uint_t 8 o.hab.toNat,
    split_uint_t 4 o.hd.toNat ]

def encodeFilter (X : EngineText E) (vf : VacuumFilter.Filter E) : List (List UInt8) :=
  [ split_uint_t 8 vf.memory_consumption,
    split_uint_t 4 (X.print vf.e).length ++ X.print vf.e,
    split_uint_t 8 vf.n,
    split_uint_t 4 vf.m,
    split_uint_t 4 (toUInt32 vf.filled_cell),
    split_uint_t 4 vf.max_kick_steps,
    split_uint_t 4 vf.max_2_power,
    split_uint_t 4 (toUInt32 vf.big_seg),
    [if vf.isSmall then 1 else 0],
    split_uint_t_vector 4 ((List.range 4).map fun i => toUInt32 (vf.len.getD i 0)),
    split_uint_t 4 vf.fp_len,
    split_uint_t_vector 4 ((List.range (T_len vf.memory_consumption)).map fun i =>
      (vf.T.getD i 0).toNat) ]

def encode_full (X : EngineText E) (d : Verifier E) : List (List UInt8) :=
  encodeOthello d.othello ++ encodeFilter X d.vf

/-- `'F'`, the chunks and `"finish"`, as `sendFullUpdate` sends them. -/
def fullMessage (X : EngineText E) (d : Verifier E) : List UInt8 :=
  [70] ++ (encode_full X d).flatten ++ finish

/-! ### The device -/

/-- `T` is copied into zeros; the tables are only built for four slots. -/
def init_with_params (f : VacuumFilter.Filter E) (_mc : ℕ) (_e : E) (_n _m : ℕ) (_filled_cell : ℤ)
    (_max_kick_steps _max_2_power : ℕ) (_big_seg : ℤ) (_isSmall : Bool) (_len : List ℤ)
    (_fp_len : ℕ) (_T : List (BitVec 32)) : VacuumFilter.Filter E :=
  { n := _n
    m := _m
    memory_consumption := _mc
    max_2_power := _max_2_power
    big_seg := _big_seg
    len := _len
    isSmall := _isSmall
    fp_len := _fp_len
    e := _e
    T := _T ++ List.replicate (_mc / 4 - _T.length) 0
    tables := if _m = 4 then f.tables.build else f.tables
    filled_cell := _filled_cell
    max_kick_steps := _max_kick_steps }

def readOthello (data : List UInt8) : Reader DataPlane := do
  let mem_size ← number (2 ^ 32) data 4
  let mem ← times (number (2 ^ 32) data 8) mem_size
  let ma ← number (2 ^ 32) data 4
  let mb ← number (2 ^ 32) data 4
  let hab_para ← number (2 ^ 32) data 8
  let hd_para ← number (2 ^ 32) data 4
  return {
    mem := mem.map (BitVec.ofNat 64)
    ma := ma
    mb := mb
    hab := BitVec.ofNat 64 hab_para
    hd := BitVec.ofNat 32 hd_para }

/-- `vf` is the filter the device held before. -/
def readFilter (X : EngineText E) (vf : VacuumFilter.Filter E) (data : List UInt8) :
    Reader (VacuumFilter.Filter E) := do
  let memory_consumption ← number (2 ^ 32) data 8
  let ess_length ← number (2 ^ 32) data 4
  let eState ← take (2 ^ 32) data ess_length
  let n ← number (2 ^ 32) data 8
  let m ← number (2 ^ 32) data 4
  let filled_cell ← number (2 ^ 32) data 4
  let max_kick_steps ← number (2 ^ 32) data 4
  let max_2_power ← number (2 ^ 32) data 4
  let big_seg ← number (2 ^ 32) data 4
  let isSmall ← number (2 ^ 32) data 1
  let len ← times (number (2 ^ 32) data 4) 4
  let fp_len ← number (2 ^ 32) data 4
  let T ← times (number (2 ^ 32) data 4) (T_len memory_consumption)
  return init_with_params vf memory_consumption (X.parse eState)
    (BitVec.ofNat 64 n).toInt.toNat (toInt32 m).toNat (toInt32 filled_cell)
    (toInt32 max_kick_steps).toNat (toInt32 max_2_power).toNat (toInt32 big_seg)
    (decide (isSmall ≠ 0)) (len.map toInt32) (toInt32 fp_len).toNat (T.map (BitVec.ofNat 32))

def readFull (X : EngineText E) (vo_data : Verifier E) (data : List UInt8) :
    Reader (Verifier E) := do
  let othello ← readOthello data
  let vf ← readFilter X vo_data.vf data
  return { othello := othello, vf := vf }

/-- `none` is a read past the end of the message. -/
def decode_full (X : EngineText E) (vo_data : Verifier E) (data : List UInt8) :
    Option (Verifier E) :=
  (readFull X vo_data data 1).map Prod.fst

def IsInt (i : ℤ) : Prop := -2 ^ 31 ≤ i ∧ i < 2 ^ 31

/-- The fields hold values of their types, and `init` has set the filter up. -/
structure InTypes (d : Verifier E) : Prop where
  mem : d.othello.mem.length < 2 ^ 32
  ma : d.othello.ma < 2 ^ 32
  mb : d.othello.mb < 2 ^ 32
  memory_consumption : d.vf.memory_consumption < 2 ^ 64
  n : d.vf.n < 2 ^ 63
  m : d.vf.m < 2 ^ 31
  filled_cell : IsInt d.vf.filled_cell
  max_kick_steps : d.vf.max_kick_steps < 2 ^ 31
  max_2_power : d.vf.max_2_power < 2 ^ 31
  big_seg : IsInt d.vf.big_seg
  len : d.vf.len.length = 4
  len_int : ∀ i ∈ d.vf.len, IsInt i
  fp_len : d.vf.fp_len < 2 ^ 31
  T : d.vf.T.length = d.vf.memory_consumption / 4
  built : d.vf.m = 4 → d.vf.tables.Built

def fullLength (X : EngineText E) (d : Verifier E) : ℕ :=
  86 + 8 * d.othello.mem.length + (X.print d.vf.e).length + 4 * d.vf.T.length

variable {X : EngineText E} {d vo_data : Verifier E}

theorem toInt32_toUInt32 {i : ℤ} (h : IsInt i) : toInt32 (toUInt32 i) = i := by
  obtain ⟨hlo, hhi⟩ := h
  rw [toInt32, toUInt32, BitVec.ofNat_toNat, BitVec.setWidth_eq, BitVec.toInt_ofInt]
  exact Int.bmod_eq_of_le (by omega) (by omega)

theorem toUInt32_lt (i : ℤ) : toUInt32 i < 256 ^ 4 := (BitVec.ofInt 32 i).isLt

theorem toInt32_of_lt {x : ℕ} (h : x < 2 ^ 31) : (toInt32 x).toNat = x := by
  rw [toInt32, BitVec.toInt_ofNat', Int.bmod_eq_of_le (by omega) (by omega)]
  rfl

theorem toInt64_of_lt {x : ℕ} (h : x < 2 ^ 63) : (BitVec.ofNat 64 x).toInt.toNat = x := by
  rw [BitVec.toInt_ofNat', Int.bmod_eq_of_le (by omega) (by omega)]
  rfl

/-- What the device holds then: everything but the tables comes from the message. -/
def received (vo_data d : Verifier E) : Verifier E :=
  { othello := d.othello
    vf := withTables d.vf (if d.vf.m = 4 then vo_data.vf.tables.build else vo_data.vf.tables) }

theorem map_range_getD {α β : Type} (f : α → β) (l : List α) (a : α) :
    ((List.range l.length).map fun i => f (l.getD i a)) = l.map f := by
  apply List.ext_getElem
  · rw [List.length_map, List.length_range, List.length_map]
  · intro i hi _
    rw [List.length_map, List.length_range] at hi
    rw [List.getElem_map, List.getElem_map, List.getElem_range, List.getD_eq_getElem _ _ hi]

theorem parses_words {M w : ℕ} {data : List UInt8} {l : List ℕ} (h : ∀ x ∈ l, x < 256 ^ w) :
    Parses M data (times (number M data w) l.length) (split_uint_t_vector w l) l :=
  parses_times fun x hx => parses_number (h x hx)

theorem map_ofNat_toNat {w : ℕ} (l : List (BitVec w)) :
    (l.map BitVec.toNat).map (BitVec.ofNat w) = l := by
  rw [List.map_map]
  refine (List.map_congr_left fun x _ => ?_).trans (List.map_id l)
  exact BitVec.ofNat_toNat w x |>.trans (BitVec.setWidth_eq x)

theorem toNat_lt_of_mem {w x : ℕ} {l : List (BitVec w)} (hx : x ∈ l.map BitVec.toNat) :
    x < 2 ^ w := by
  obtain ⟨y, -, rfl⟩ := List.mem_map.mp hx
  exact y.isLt

theorem T_len_eq (h : InTypes d) (hM : fullLength X d ≤ 2 ^ 32) :
    T_len d.vf.memory_consumption = d.vf.T.length := by
  rw [T_len, ← h.T, toInt32_of_lt]
  rw [fullLength] at hM
  omega

theorem init_with_params_eq (h : InTypes d) :
    init_with_params vo_data.vf d.vf.memory_consumption d.vf.e d.vf.n d.vf.m d.vf.filled_cell
      d.vf.max_kick_steps d.vf.max_2_power d.vf.big_seg d.vf.isSmall d.vf.len d.vf.fp_len d.vf.T =
    (received vo_data d).vf := by
  rw [init_with_params, h.T, Nat.sub_self, List.replicate_zero, List.append_nil]
  rfl

theorem parses_othello {data : List UInt8} {o : DataPlane} (hmem : o.mem.length < 2 ^ 32)
    (hma : o.ma < 2 ^ 32) (hmb : o.mb < 2 ^ 32) :
    Parses (2 ^ 32) data (readOthello data) (encodeOthello o).flatten o := by
  have hlen : o.mem.length = (o.mem.map BitVec.toNat).length := (List.length_map _).symm
  simp only [encodeOthello, List.flatten_cons, List.flatten_nil, List.append_nil, readOthello]
  refine (parses_number hmem).bind ?_
  rw [hlen]
  refine (parses_words fun _ hx => toNat_lt_of_mem hx).bind ?_
  refine (parses_number hma).bind ?_
  refine (parses_number hmb).bind ?_
  refine (parses_number o.hab.isLt).bind ?_
  refine (parses_number o.hd.isLt).last ?_
  rw [map_ofNat_toNat, BitVec.ofNat_toNat, BitVec.ofNat_toNat, BitVec.setWidth_eq,
    BitVec.setWidth_eq]

theorem parses_filter {data : List UInt8} (h : InTypes d) (hM : fullLength X d ≤ 2 ^ 32) :
    Parses (2 ^ 32) data (readFilter X vo_data.vf data) (encodeFilter X d.vf).flatten
      (received vo_data d).vf := by
  have hT := T_len_eq h hM
  have hess : (X.print d.vf.e).length < 2 ^ 32 := by
    rw [fullLength] at hM
    omega
  have hlen : ((List.range 4).map fun i => toUInt32 (d.vf.len.getD i 0)) =
      d.vf.len.map toUInt32 := by
    have heq := map_range_getD toUInt32 d.vf.len 0
    rwa [h.len] at heq
  have hwords : ((List.range (T_len d.vf.memory_consumption)).map fun i =>
      (d.vf.T.getD i 0).toNat) = d.vf.T.map BitVec.toNat := by
    rw [hT]
    exact map_range_getD BitVec.toNat d.vf.T 0
  have hints : (d.vf.len.map toUInt32).map toInt32 = d.vf.len := by
    rw [List.map_map]
    refine (List.map_congr_left fun i hi => ?_).trans (List.map_id _)
    exact toInt32_toUInt32 (h.len_int i hi)
  have hfour : 4 = (d.vf.len.map toUInt32).length := by rw [List.length_map, h.len]
  have hlens : Parses (2 ^ 32) data (times (number (2 ^ 32) data 4) 4)
      (split_uint_t_vector 4 (d.vf.len.map toUInt32)) (d.vf.len.map toUInt32) := by
    rw [hfour]
    refine parses_words fun x hx => ?_
    obtain ⟨i, -, rfl⟩ := List.mem_map.mp hx
    rw [← hfour]
    exact toUInt32_lt i
  have hwidth : T_len d.vf.memory_consumption = (d.vf.T.map BitVec.toNat).length := by
    rw [hT, List.length_map]
  have hsmall : ∀ b : Bool, decide ((if b then (1 : UInt8) else 0).toNat ≠ 0) = b := by decide
  simp only [encodeFilter, List.flatten_cons, List.flatten_nil, List.append_nil,
    List.append_assoc, hlen, hwords, readFilter]
  refine (parses_number h.memory_consumption).bind ?_
  refine (parses_number hess).bind ?_
  refine (parses_take _ rfl).bind ?_
  refine (parses_number (h.n.trans (by decide))).bind ?_
  refine (parses_number (h.m.trans (by decide))).bind ?_
  refine (parses_number (toUInt32_lt _)).bind ?_
  refine (parses_number (h.max_kick_steps.trans (by decide))).bind ?_
  refine (parses_number (h.max_2_power.trans (by decide))).bind ?_
  refine (parses_number (toUInt32_lt _)).bind ?_
  refine (parses_byte _).bind ?_
  refine hlens.bind ?_
  refine (parses_number (h.fp_len.trans (by decide))).bind ?_
  rw [hwidth]
  refine (parses_words fun _ hx => toNat_lt_of_mem hx).last ?_
  rw [map_ofNat_toNat, X.parse_print, toInt64_of_lt h.n, toInt32_of_lt h.m,
    toInt32_toUInt32 h.filled_cell, toInt32_of_lt h.max_kick_steps, toInt32_of_lt h.max_2_power,
    toInt32_toUInt32 h.big_seg, hsmall, hints, toInt32_of_lt h.fp_len, init_with_params_eq h]

theorem parses_full {data : List UInt8} (h : InTypes d) (hM : fullLength X d ≤ 2 ^ 32) :
    Parses (2 ^ 32) data (readFull X vo_data data) (encode_full X d).flatten
      (received vo_data d) := by
  rw [encode_full, List.flatten_append]
  exact (parses_othello h.mem h.ma h.mb).bind ((parses_filter h hM).last rfl)

theorem length_encode_full (h : InTypes d) (hM : fullLength X d ≤ 2 ^ 32) :
    ([70] ++ (encode_full X d).flatten).length = fullLength X d := by
  simp only [encode_full, encodeOthello, encodeFilter, List.flatten_append, List.flatten_cons,
    List.flatten_nil, List.append_nil, List.length_append, split_uint_t, length_bigEndian,
    length_vector, List.length_map, List.length_range, List.length_singleton, T_len_eq h hM,
    fullLength]
  omega

theorem decode_fullMessage (h : InTypes d) (hM : fullLength X d ≤ 2 ^ 32) :
    decode_full X vo_data (fullMessage X d) = some (received vo_data d) := by
  have hlen := length_encode_full h hM
  have hparse : Parses (2 ^ 32) (fullMessage X d) (readFull X vo_data (fullMessage X d)) _ _ :=
    parses_full h hM
  have hdata : fullMessage X d = [70] ++ ((encode_full X d).flatten ++ finish) :=
    List.append_assoc ..
  have hread := hparse.run hdata (hlen ▸ hM)
  rw [decode_full]
  exact congrArg (Option.map Prod.fst) hread

def withTables (d : Verifier E) (t : Tables) : Verifier E :=
  { d with vf := FilterCopy.withTables d.vf t }

/-- `d'` is a copy of `d`, and neither reads an entry that is not written. -/
def Twin (hash : VacuumFilter.HashUtil) (d d' : Verifier E) : Prop :=
  ∃ t : Tables, t.Built ∧ d' = withTables d t ∧ Sound hash d.vf

section Twins

variable {S : TrackerSetup K E} {d' : Verifier E} {t : Tables}

theorem twin_of_alike {α : Type} {r r' : α × VacuumFilter.Filter E} (dp : DataPlane)
    (ht : t.Built) (h : Alike S.hash t r r') : Twin S.hash ⟨dp, r.2⟩ ⟨dp, r'.2⟩ :=
  ⟨t, ht, congrArg (fun p => Verifier.mk dp p.2) h.1, h.2⟩

theorem exit_of_alike {r r' : ℕ × VacuumFilter.Filter E} (dp : DataPlane) (ht : t.Built)
    (h : Alike S.hash t r r') : Option.Rel (Twin S.hash)
      (if r.1 = 1 then none else some ⟨dp, r.2⟩) (if r'.1 = 1 then none else some ⟨dp, r'.2⟩) := by
  have hfull : r'.1 = r.1 := by rw [h.1]
  rw [hfull]
  split
  · exact .none
  · exact .some (twin_of_alike dp ht h)

theorem Twin.lookup (h : Twin S.hash d d') (k : K) :
    DASSVerifier.lookup S d' k = DASSVerifier.lookup S d k := by
  obtain ⟨t, ht, rfl, hs⟩ := h
  exact lookup_withTables hs ht (S.ele k)

theorem Twin.query (h : Twin S.hash d d') (k : K) :
    DASSVerifier.query S d' k = DASSVerifier.query S d k := by
  rw [DASSVerifier.query, DASSVerifier.query, h.lookup]
  obtain ⟨t, -, rfl, -⟩ := h
  rfl

theorem Twin.flipUnlessRebuild (h : Twin S.hash d d') (flipped : List ℕ) :
    Twin S.hash (flipUnlessRebuild d flipped) (flipUnlessRebuild d' flipped) := by
  obtain ⟨t, ht, rfl, hs⟩ := h
  rw [DASSVerifier.flipUnlessRebuild, DASSVerifier.flipUnlessRebuild]
  split
  · exact ⟨t, ht, rfl, hs⟩
  split
  · exact ⟨t, ht, rfl, hs⟩
  · exact ⟨t, ht, rfl, hs⟩

theorem Twin.insert (h : Twin S.hash d d') (kv : K × ℕ) (flipped : List ℕ) :
    Option.Rel (Twin S.hash) (DASSVerifier.insert S d kv flipped)
      (DASSVerifier.insert S d' kv flipped) := by
  have hlookup := h.lookup kv.1
  obtain ⟨t, ht, rfl, hs⟩ := h
  have hins := insert_withTables S.engine hs ht (S.ele kv.1)
  have hsame : Twin S.hash d (withTables d t) := ⟨t, ht, rfl, hs⟩
  rw [DASSVerifier.insert, DASSVerifier.insert, hlookup]
  split
  · split
    · exact exit_of_alike d.othello ht hins
    · exact .some hsame
  split
  · exact .some hsame
  split
  · exact exit_of_alike _ ht hins
  split
  · exact .some ⟨t, ht, rfl, hs⟩
  · exact .some hsame

theorem Twin.setValue (h : Twin S.hash d d') (kv : K × ℕ) (flipped : List ℕ) :
    Twin S.hash (DASSVerifier.setValue S d kv flipped)
      (DASSVerifier.setValue S d' kv flipped) := by
  have hquery := h.query kv.1
  have hsame := h
  obtain ⟨t, ht, rfl, hs⟩ := h
  have hins := insert_withTables S.engine hs ht (S.ele kv.1)
  have hdel := del_withTables hs ht (S.ele kv.1)
  rw [DASSVerifier.setValue, DASSVerifier.setValue, hquery]
  split
  · exact hsame
  split
  · exact (twin_of_alike d.othello ht hdel).flipUnlessRebuild flipped
  split
  · exact (twin_of_alike d.othello ht hins).flipUnlessRebuild flipped
  · exact hsame

theorem Twin.follow (h : Twin S.hash d d') (flipped : List ℕ) (x : Call K) :
    Option.Rel (Twin S.hash) (follow S d flipped x) (follow S d' flipped x) := by
  cases x with
  | insert kv => exact h.insert kv flipped
  | setValue kv => exact .some (h.setValue kv flipped)

theorem Twin.replay (h : Twin S.hash d d') (l : List (Call K × List ℕ)) :
    Option.Rel (Twin S.hash) (replay S d l) (replay S d' l) := by
  induction l generalizing d d' with
  | nil => exact .some h
  | cons xf l ih =>
    have hstep := h.follow xf.2 xf.1
    rw [CRIoTControl.replay, CRIoTControl.replay, List.foldlM_cons, List.foldlM_cons]
    generalize CRIoTControl.follow S d xf.2 xf.1 = r at *
    generalize CRIoTControl.follow S d' xf.2 xf.1 = r' at *
    cases hstep with
    | none => exact .none
    | some hnext => exact ih hnext

end Twins

structure Restored (S : TrackerSetup K E) (d d' : Verifier E) : Prop where
  othello : d'.othello = d.othello
  fields : d'.vf = FilterCopy.withTables d.vf d'.vf.tables
  tables : d.vf.m = 4 →
    (∀ plain ∈ plainBits, d'.vf.tables.encodeTable plain = d.vf.tables.encodeTable plain) ∧
    ∀ i < plainBits.length, d'.vf.tables.decodeTable i = d.vf.tables.decodeTable i
  buckets : d.vf.m = 4 → ∀ pos, rank d.vf pos < plainBits.length →
    VacuumFilter.getBucket d'.vf pos = VacuumFilter.getBucket d.vf pos
  query : Sound S.hash d.vf → ∀ k, DASSVerifier.query S d' k = DASSVerifier.query S d k
  later : Sound S.hash d.vf → ∀ l : List (Call K × List ℕ),
    Option.Rel (fun e e' => e'.othello = e.othello ∧
      e'.vf = FilterCopy.withTables e.vf e'.vf.tables ∧
      ∀ k, DASSVerifier.query S e' k = DASSVerifier.query S e k) (replay S d l) (replay S d' l)

theorem received_tables (h4 : d.vf.m = 4) :
    (received vo_data d).vf.tables = vo_data.vf.tables.build := by
  rw [received, FilterCopy.withTables]
  exact if_pos h4

theorem received_built (h4 : d.vf.m = 4) : (received vo_data d).vf.tables.Built :=
  ⟨vo_data.vf.tables, received_tables h4⟩

theorem received_twin {hash : VacuumFilter.HashUtil} (hs : Sound hash d.vf) :
    Twin hash d (received vo_data d) :=
  ⟨_, received_built hs.four, rfl, hs⟩

/-- A message that the offset can walk over restores the verifier, up to the entries of the
tables that are not written. -/
theorem full_round_trip (S : TrackerSetup K E) (h : InTypes d) (hM : fullLength X d ≤ 2 ^ 32) :
    ∃ d', decode_full X vo_data (fullMessage X d) = some d' ∧ Restored S d d' := by
  refine ⟨_, decode_fullMessage h hM, rfl, rfl, fun h4 => ?_, fun h4 pos hr => ?_, fun hs k => ?_,
    fun hs l => ?_⟩
  · exact Tables.Built.agree (received_built h4) (h.built h4)
  · exact getBucket_withTables (h.built h4) (received_built h4) hr
  · exact (received_twin hs).query k
  · have hrel : Option.Rel (Twin S.hash) (replay S d l) (replay S (received vo_data d) l) :=
      (received_twin hs).replay l
    generalize CRIoTControl.replay S d l = r at hrel
    generalize CRIoTControl.replay S (received vo_data d) l = r' at hrel
    cases hrel with
    | none => exact .none
    | some he =>
      have hquery := fun k => he.query (S := S) k
      obtain ⟨t, -, rfl, -⟩ := he
      exact .some ⟨rfl, rfl, hquery⟩

def unaryText : EngineText ℕ where
  print e := List.replicate e 49
  parse l := l.length
  parse_print _ := List.length_replicate

/-- Two buckets of four-bit fingerprints; the rank of the first is 4095. -/
def markedVerifier (mem : List (BitVec 64)) (t : Tables) : Verifier ℕ where
  othello := ⟨mem, 1, 1, 0, 0⟩
  vf := ⟨2, 4, 19, 1, 0, [0, 0, 0, 0], true, 4, 1, [0xffffffff, 0, 0, 0], t.build, 0, 400⟩

theorem markedVerifier_tables (mem : List (BitVec 64)) (t : Tables) :
    (markedVerifier mem t).vf.tables = t.build := by rw [markedVerifier]

theorem markedVerifier_inTypes {mem : List (BitVec 64)} (h : mem.length < 2 ^ 32) (t : Tables) :
    InTypes (markedVerifier mem t) := by
  have hzero : IsInt 0 := ⟨by decide, by decide⟩
  have hone : 1 < 2 ^ 31 := by decide
  refine ⟨h, hone.trans (by decide), hone.trans (by decide), (by decide : 19 < 2 ^ 64),
    (by decide : 2 < 2 ^ 63), (by decide : 4 < 2 ^ 31), hzero, (by decide : 400 < 2 ^ 31), hone,
    hzero, rfl, ?_, (by decide : 4 < 2 ^ 31), (by decide : 4 = 19 / 4),
    fun _ => ⟨t, markedVerifier_tables mem t⟩⟩
  intro i hi
  have h0 : i = 0 := by simpa [markedVerifier] using hi
  rw [h0]
  exact hzero

theorem full_round_trip_two_buckets : ∃ d',
    decode_full unaryText (markedVerifier [] ⟨id, id⟩)
      (fullMessage unaryText (markedVerifier [5, 6] ⟨id, id⟩)) = some d' ∧
    Restored TrackerRun.smallTracker (markedVerifier [5, 6] ⟨id, id⟩) d' :=
  full_round_trip TrackerRun.smallTracker (markedVerifier_inTypes (by decide) _) (by decide)

theorem ma_of_long_mem {d' : Verifier E} {rest : List (BitVec 64)}
    (hmem : d.othello.mem = 0#64 :: rest) (hlt : d.othello.mem.length < 2 ^ 32)
    (hwrap : 8 * d.othello.mem.length % 2 ^ 32 = 0)
    (h : decode_full X vo_data (fullMessage X d) = some d') : d'.othello.ma = 0 := by
  obtain ⟨⟨d', o⟩, hread, rfl⟩ := Option.map_eq_some_iff.mp h
  obtain ⟨othello, o₁, hothello, hread⟩ := of_bind_some hread
  obtain ⟨vf, o₂, -, hread⟩ := of_bind_some hread
  obtain ⟨rfl, -⟩ := Prod.mk.inj (Option.some.inj hread)
  obtain ⟨mem_size, o₃, hsize, hothello⟩ := of_bind_some hothello
  obtain ⟨mem, o₄, hwords, hothello⟩ := of_bind_some hothello
  obtain ⟨ma, o₅, hma, hothello⟩ := of_bind_some hothello
  obtain ⟨mb, o₆, -, hothello⟩ := of_bind_some hothello
  obtain ⟨hab, o₇, -, hothello⟩ := of_bind_some hothello
  obtain ⟨hd, o₈, -, hothello⟩ := of_bind_some hothello
  obtain ⟨rfl, -⟩ := Prod.mk.inj (Option.some.inj hothello)
  obtain ⟨tail, hdata⟩ : ∃ tail, fullMessage X d =
      [70] ++ (bigEndian 4 d.othello.mem.length ++ (bigEndian 4 0 ++ tail)) := by
    refine ⟨bigEndian 4 0 ++ (split_uint_t_vector 8 (rest.map BitVec.toNat) ++
      ((encodeOthello d.othello).drop 2 ++ encodeFilter X d.vf).flatten ++ finish), ?_⟩
    simp only [fullMessage, encode_full, encodeOthello, List.flatten_append, List.flatten_cons,
      List.drop_succ_cons, List.drop_zero, List.flatten_nil, List.append_nil, List.append_assoc,
      hmem, List.map_cons, split_uint_t_vector, List.flatMap_cons]
    rfl
  have hfirst : number (2 ^ 32) (fullMessage X d) 4 1 = some (d.othello.mem.length, 5) :=
    (parses_number hlt).run hdata (by simp)
  have hzero : number (2 ^ 32) (fullMessage X d) 4 5 = some (0, 9) := by
    have hdata' : fullMessage X d = ([70] ++ bigEndian 4 d.othello.mem.length) ++
        (bigEndian 4 0 ++ tail) := by rw [hdata, List.append_assoc]
    exact (parses_number (by decide)).run hdata' (by simp)
  obtain ⟨rfl, rfl⟩ := Prod.mk.inj (Option.some.inj (hfirst.symm.trans hsize))
  have ho₄ : o₄ = (5 + 8 * d.othello.mem.length) % 2 ^ 32 :=
    times_offset (by decide) (fun _ _ _ => number_offset) hwords
  have hback : o₄ = 5 := by omega
  subst hback
  exact (Prod.mk.inj (Option.some.inj (hzero.symm.trans hma))).1.symm

theorem one_not_plain : 1 ∉ plainBits := by decide +kernel

def longVerifier : Verifier ℕ := markedVerifier (List.replicate (2 ^ 29) 0) ⟨id, id⟩

def stale (x : ℕ) : Tables := ⟨fun _ => x, fun _ => x⟩

/-- A memory of 2 ^ 29 words is misread. An entry of the tables that is not written keeps what
the receiver had there, and so does a bucket that is read through such an entry. -/
theorem not_restored_whole :
    (InTypes longVerifier ∧ ¬ ∃ d',
      decode_full unaryText longVerifier (fullMessage unaryText longVerifier) = some d' ∧
      d'.othello = longVerifier.othello) ∧
    InTypes (markedVerifier [] (stale 7)) ∧
    (¬ ∃ d', decode_full unaryText (markedVerifier [] (stale 0))
        (fullMessage unaryText (markedVerifier [] (stale 7))) = some d' ∧
      d'.vf.tables = (markedVerifier [] (stale 7)).vf.tables) ∧
    ¬ ∃ d', decode_full unaryText (markedVerifier [] (stale 0))
        (fullMessage unaryText (markedVerifier [] (stale 7))) = some d' ∧
      VacuumFilter.getBucket d'.vf 0 =
        VacuumFilter.getBucket (markedVerifier [] (stale 7)).vf 0 := by
  have hlength : longVerifier.othello.mem.length = 2 ^ 29 := List.length_replicate
  have hlong : longVerifier.othello.mem.length < 2 ^ 32 := by
    rw [hlength]
    decide
  have hin : InTypes (markedVerifier [] (stale 7)) := markedVerifier_inTypes (by decide) _
  have hdec : decode_full unaryText (markedVerifier [] (stale 0))
      (fullMessage unaryText (markedVerifier [] (stale 7))) =
        some (received (markedVerifier [] (stale 0)) (markedVerifier [] (stale 7))) :=
    decode_fullMessage hin (by decide)
  refine ⟨⟨markedVerifier_inTypes hlong _, ?_⟩, hin, ?_, ?_⟩
  · rintro ⟨d', hd, heq⟩
    have hmem : longVerifier.othello.mem = 0#64 :: List.replicate (2 ^ 29 - 1) 0 := rfl
    have hzero := ma_of_long_mem hmem hlong (by rw [hlength]; decide) hd
    rw [heq] at hzero
    cases hzero
  · rintro ⟨d', hd, heq⟩
    obtain rfl := Option.some.inj (hdec.symm.trans hd)
    rw [received_tables rfl, markedVerifier_tables, markedVerifier_tables] at heq
    have hentry := congrFun (congrArg Tables.encodeTable heq) 1
    rw [(Tables.build_unwritten _).1 1 one_not_plain, (Tables.build_unwritten _).1 1 one_not_plain,
      (Tables.build_unwritten _).1 1 one_not_plain] at hentry
    cases hentry
  · rintro ⟨d', hd, heq⟩
    obtain rfl := Option.some.inj (hdec.symm.trans hd)
    have hlen : plainBits.length ≤ 4095 := by
      rw [length_plainBits]
      decide
    have hslot : ∀ t : Tables, (BucketCodec.getBucket 4 t [0xffffffff, 0, 0, 0] 0).slots.getD 3 0 =
        (4095 &&& 0) + ((t.decodeTable 4095 &&& 15) <<< 0) := fun _ => rfl
    have hleft : VacuumFilter.getBucket
        (received (markedVerifier [] (stale 0)) (markedVerifier [] (stale 7))).vf 0 =
      BucketCodec.getBucket 4 (stale 0).build.build [0xffffffff, 0, 0, 0] 0 := by
      rw [VacuumFilter.getBucket, received_tables rfl, markedVerifier_tables]
      rfl
    have hright : VacuumFilter.getBucket (markedVerifier [] (stale 7)).vf 0 =
        BucketCodec.getBucket 4 (stale 7).build [0xffffffff, 0, 0, 0] 0 := by
      rw [VacuumFilter.getBucket, markedVerifier_tables]
      rfl
    rw [hleft, hright] at heq
    have hlast := congrArg (fun b : Bucket => b.slots.getD 3 0) heq
    simp only [hslot] at hlast
    rw [(Tables.build_unwritten _).2 4095 hlen, (Tables.build_unwritten _).2 4095 hlen,
      (Tables.build_unwritten _).2 4095 hlen] at hlast
    cases hlast

end FullWire
