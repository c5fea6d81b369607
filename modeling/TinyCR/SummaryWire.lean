import TinyCR.ByteReader
import TinyCR.DASSVerifier

/-! # The summary message

`encode_batch_summary` and the client's handling of a message: a full update is told from a
summary by its first byte, which in a summary is the number of actions. -/
namespace SummaryWire

open ByteReader DASSVerifier

/-- The template arguments `K` and `V` as numbers of `sizeof` bytes; `split_uint_t` takes 32-bit and
64-bit numbers. -/
structure WireTypes (K : Type) where
  keySize : ℕ
  valueSize : ℕ
  key_size : keySize = 4 ∨ keySize = 8
  value_size : valueSize = 4 ∨ valueSize = 8
  toNat : K → ℕ
  ofNat : ℕ → K
  toNat_lt : ∀ k, toNat k < 256 ^ keySize
  ofNat_toNat : ∀ k, ofNat (toNat k) = k

def AddAction : UInt8 := 0
def RemoveAction : UInt8 := 1
def UnrevokeAction : UInt8 := 2
def RevokeAction : UInt8 := 3

structure Entry (K : Type) where
  action : UInt8
  kv : K × ℕ
  flipped_indexes : List ℕ
  deriving DecidableEq, Repr

def finish : List UInt8 := [102, 105, 110, 105, 115, 104]

variable {K : Type} (W : WireTypes K)

def split_uint_t (w x : ℕ) : List UInt8 := bigEndian w x

def split_uint_t_vector (w : ℕ) (x : List ℕ) : List UInt8 := x.flatMap (split_uint_t w)

def encode_summary (flipped_indexes : List ℕ) (kv : K × ℕ) (action : UInt8) : List UInt8 :=
  [action] ++ split_uint_t W.keySize (W.toNat kv.1) ++ split_uint_t W.valueSize kv.2 ++
    [UInt8.ofNat flipped_indexes.length] ++ split_uint_t_vector 4 flipped_indexes

/-- `none` is `std::invalid_argument`. -/
def encode_batch_summary (flipped_indexes : List ℕ) (key_value_pairs : List (K × ℕ))
    (actions : List UInt8) : Option (List UInt8) :=
  if key_value_pairs.length ≠ actions.length then none
  else some ([UInt8.ofNat actions.length] ++ (key_value_pairs.zip actions).flatMap fun p =>
    encode_summary W flipped_indexes p.1 p.2)

/-- The offset is an `int`. -/
def decode_sub_summary (summary : List UInt8) : Reader (Entry K) := do
  let action ← number (2 ^ 31) summary 1
  let k ← number (2 ^ 31) summary W.keySize
  let v ← number (2 ^ 31) summary W.valueSize
  let flipped_indexes_size ← number (2 ^ 31) summary 1
  let new_flipped_indexes ← times (number (2 ^ 31) summary 4) flipped_indexes_size
  return ⟨UInt8.ofNat action, (W.ofNat k, v), new_flipped_indexes⟩

/-- What is done with a full update and with one action; `none` ends the process. -/
structure Device (K D : Type) where
  full : D → List UInt8 → Option D
  perform : D → Entry K → Option D

variable {D : Type}

def performActions (perform : D → Entry K → Option D) (summary : List UInt8) : ℕ → D → Reader D
  | 0, d => pure d
  | n + 1, d => do
    let e ← decode_sub_summary W summary
    let d ← (perform d e : Option D)
    performActions perform summary n d

def decode_batch_summary (perform : D → Entry K → Option D) (d : D) (summary : List UInt8) :
    Option D := do
  let num_actions ← summary[0]?
  let (d, _) ← performActions W perform summary num_actions.toNat d 1
  return d

/-- A message in `listenForUpdates`; 70 is `'F'`. -/
def handleMessage (device : Device K D) (d : D) (msg : List UInt8) : Option D := do
  let first ← msg[0]?
  if first = 70 then device.full d msg else decode_batch_summary W device.perform d msg

def entries (flipped_indexes : List ℕ) (key_value_pairs : List (K × ℕ)) (actions : List UInt8) :
    List (Entry K) :=
  (key_value_pairs.zip actions).map fun p => ⟨p.2, p.1, flipped_indexes⟩

/-- The device performs the encoded actions in order, and nothing else. -/
def RoundTrips (flipped_indexes : List ℕ) (key_value_pairs : List (K × ℕ))
    (actions : List UInt8) : Prop :=
  ∃ msg, encode_batch_summary W flipped_indexes key_value_pairs actions = some msg ∧
    ∀ (D : Type) (device : Device K D) (d : D), handleMessage W device d (msg ++ finish) =
      (entries flipped_indexes key_value_pairs actions).foldlM device.perform d

variable {W} {summary : List UInt8} {flipped_indexes : List ℕ} {kv : K × ℕ} {action : UInt8}
  {kvs : List (K × ℕ)} {actions : List UInt8}

theorem parses_byte {M : ℕ} (b : UInt8) : Parses M summary (number M summary 1) [b] b.toNat :=
  (parses_take 1 rfl).last rfl

theorem toNat_count (h : flipped_indexes.length < 256) :
    (UInt8.ofNat flipped_indexes.length).toNat = flipped_indexes.length := by
  rw [UInt8.toNat_ofNat', Nat.mod_eq_of_lt h]

theorem parses_summary (hv : kv.2 < 256 ^ W.valueSize) (hf : ∀ i ∈ flipped_indexes, i < 2 ^ 32)
    (hlen : flipped_indexes.length < 256) :
    Parses (2 ^ 31) summary (decode_sub_summary W summary)
      (encode_summary W flipped_indexes kv action) ⟨action, kv, flipped_indexes⟩ := by
  have hflips : Parses (2 ^ 31) summary
      (times (number (2 ^ 31) summary 4) (UInt8.ofNat flipped_indexes.length).toNat)
      (split_uint_t_vector 4 flipped_indexes) flipped_indexes := by
    rw [toNat_count hlen]
    exact parses_times fun i hi => parses_number (hf i hi)
  have hentry : (⟨UInt8.ofNat action.toNat, (W.ofNat (W.toNat kv.1), kv.2), flipped_indexes⟩ :
      Entry K) = ⟨action, kv, flipped_indexes⟩ := by
    rw [UInt8.ofNat_toNat, W.ofNat_toNat]
  rw [encode_summary, List.append_assoc, List.append_assoc, List.append_assoc]
  exact (parses_byte action).bind ((parses_number (W.toNat_lt kv.1)).bind
    ((parses_number hv).bind ((parses_byte _).bind (hflips.last hentry))))

theorem performActions_eq (perform : D → Entry K → Option D) {x : Entry K → List UInt8}
    (l : List (Entry K)) (d : D) {offset : ℕ} {rest : List UInt8}
    (h : ∀ e ∈ l, Parses (2 ^ 31) summary (decode_sub_summary W summary) (x e) e)
    (hdrop : summary.drop offset = l.flatMap x ++ rest)
    (hM : offset + (l.flatMap x).length ≤ 2 ^ 31) :
    performActions W perform summary l.length d (offset % 2 ^ 31) =
      (l.foldlM perform d).map fun d => (d, (offset + (l.flatMap x).length) % 2 ^ 31) := by
  induction l generalizing d offset with
  | nil => rfl
  | cons e l ih =>
    rw [List.flatMap_cons, List.length_append, ← Nat.add_assoc] at hM
    rw [List.flatMap_cons, List.append_assoc] at hdrop
    have hrest : summary.drop (offset + (x e).length) = l.flatMap x ++ rest := by
      rw [← List.drop_drop, hdrop, List.drop_left]
    have hfirst := h e (List.mem_cons_self ..) offset _ hdrop (by omega)
    rw [List.length_cons, List.flatMap_cons, List.length_append, ← Nat.add_assoc]
    have hstep : performActions W perform summary (l.length + 1) d (offset % 2 ^ 31) =
        (perform d e).bind fun d =>
          performActions W perform summary l.length d ((offset + (x e).length) % 2 ^ 31) := by
      rw [performActions, bind_eq hfirst, lift_bind_eq]
    rw [hstep, List.foldlM_cons]
    cases perform d e with
    | none => rfl
    | some d' => exact ih d' (fun e he => h e (List.mem_cons_of_mem _ he)) hrest hM

theorem length_vector (w : ℕ) (x : List ℕ) : (split_uint_t_vector w x).length = w * x.length := by
  induction x with
  | nil => rfl
  | cons i x ih =>
    rw [split_uint_t_vector, List.flatMap_cons, List.length_append, split_uint_t, length_bigEndian,
      List.length_cons, Nat.mul_succ, Nat.add_comm]
    exact congrArg (· + w) ih

theorem length_summary_le (hlen : flipped_indexes.length < 256) :
    (encode_summary W flipped_indexes kv action).length ≤ 1038 := by
  rw [encode_summary, List.length_append, List.length_append, List.length_append,
    List.length_append, length_vector, split_uint_t, split_uint_t, length_bigEndian,
    length_bigEndian]
  simp only [List.length_singleton]
  rcases W.key_size with hk | hk <;> rcases W.value_size with hv | hv <;> omega

theorem length_flatMap_le {α : Type} {f : α → List UInt8} {b : ℕ} (l : List α)
    (h : ∀ a ∈ l, (f a).length ≤ b) : (l.flatMap f).length ≤ l.length * b := by
  induction l with
  | nil => exact Nat.zero_le _
  | cons a l ih =>
    have ha := h a (List.mem_cons_self ..)
    have htail := ih fun c hc => h c (List.mem_cons_of_mem _ hc)
    rw [List.flatMap_cons, List.length_append, List.length_cons, Nat.succ_mul]
    omega

theorem handle_summary (hlen : kvs.length = actions.length)
    (hv : ∀ kv ∈ kvs, kv.2 < 256 ^ W.valueSize) (hf : ∀ i ∈ flipped_indexes, i < 2 ^ 32)
    (hN : actions.length < 256) (h70 : actions.length ≠ 70)
    (hM : actions = [] ∨ flipped_indexes.length < 256) :
    RoundTrips W flipped_indexes kvs actions := by
  refine ⟨_, if_neg (not_not.mpr hlen), fun D device d => ?_⟩
  generalize hmsg : [UInt8.ofNat actions.length] ++ (kvs.zip actions).flatMap
    (fun p => encode_summary W flipped_indexes p.1 p.2) ++ finish = msg
  let x (e : Entry K) : List UInt8 := encode_summary W flipped_indexes e.kv e.action
  have hflat : (kvs.zip actions).flatMap (fun p => encode_summary W flipped_indexes p.1 p.2) =
      (entries flipped_indexes kvs actions).flatMap x := by
    rw [entries, List.flatMap_map]
  have hcount : (UInt8.ofNat actions.length).toNat = actions.length := by
    rw [UInt8.toNat_ofNat', Nat.mod_eq_of_lt hN]
  have hfirst : msg[0]? = some (UInt8.ofNat actions.length) := by rw [← hmsg]; rfl
  have hne : UInt8.ofNat actions.length ≠ 70 := fun hc => h70 (by rw [← hcount, hc]; rfl)
  have hentries : (entries flipped_indexes kvs actions).length = actions.length := by
    rw [entries, List.length_map, List.length_zip, hlen, Nat.min_self]
  have hshort : ∀ e ∈ entries flipped_indexes kvs actions, flipped_indexes.length < 256 := by
    intro e he
    rcases hM with rfl | hM
    · rw [entries, List.zip_nil_right] at he
      cases he
    · exact hM
  have hreads : ∀ e ∈ entries flipped_indexes kvs actions,
      Parses (2 ^ 31) msg (decode_sub_summary W msg) (x e) e := by
    intro e he
    obtain ⟨p, hp, rfl⟩ := List.mem_map.mp he
    exact parses_summary (hv _ (List.of_mem_zip hp).1) hf (hshort _ he)
  have hbytes : ((entries flipped_indexes kvs actions).flatMap x).length ≤
      actions.length * 1038 :=
    hentries ▸ length_flatMap_le _ fun e he => length_summary_le (hshort e he)
  have hdrop : msg.drop 1 = (entries flipped_indexes kvs actions).flatMap x ++ finish := by
    rw [← hmsg, ← hflat]
    rfl
  have hloop := performActions_eq (W := W) device.perform _ d hreads hdrop (by omega)
  rw [hentries] at hloop
  simp only [handleMessage, hfirst, Option.bind_eq_bind, Option.bind_some, if_neg hne,
    decode_batch_summary, hcount]
  have hone : (1 : ℕ) % 2 ^ 31 = 1 := rfl
  rw [hone] at hloop
  rw [hloop]
  cases (entries flipped_indexes kvs actions).foldlM device.perform d <;> rfl

def noting (K : Type) : Device K (List (Entry K)) where
  full _ _ := none
  perform l e := some (l ++ [e])

theorem flips_of_read {e : Entry K} {offset offset' : ℕ}
    (h : decode_sub_summary W summary offset = some (e, offset')) :
    e.flipped_indexes.length < 256 := by
  obtain ⟨action, o₁, -, h⟩ := of_bind_some h
  obtain ⟨k, o₂, -, h⟩ := of_bind_some h
  obtain ⟨v, o₃, -, h⟩ := of_bind_some h
  obtain ⟨size, o₄, hsize, h⟩ := of_bind_some h
  obtain ⟨flips, o₅, hflips, h⟩ := of_bind_some h
  obtain ⟨rfl, -⟩ := Prod.mk.inj (Option.some.inj h)
  have hlt := number_lt hsize
  rw [← length_of_times hflips] at hlt
  exact hlt

/-- Whatever it reads, it notes as many actions as it was told, with fewer than 256 flips each. -/
theorem noting_read {n : ℕ} {l l' : List (Entry K)} {offset offset' : ℕ}
    (h : performActions W (noting K).perform summary n l offset = some (l', offset')) :
    ∃ l₁, l' = l ++ l₁ ∧ l₁.length = n ∧ ∀ e ∈ l₁, e.flipped_indexes.length < 256 := by
  induction n generalizing l offset with
  | zero =>
    obtain ⟨rfl, -⟩ := Prod.mk.inj (Option.some.inj h)
    exact ⟨[], (List.append_nil l).symm, rfl, fun _ he => absurd he List.not_mem_nil⟩
  | succ n ih =>
    obtain ⟨e, o, he, h⟩ := of_bind_some h
    have hflips := flips_of_read he
    rw [lift_bind_eq] at h
    obtain ⟨l₁, rfl, hlen, hl₁⟩ := ih (l := l ++ [e]) h
    refine ⟨e :: l₁, List.append_assoc .., by rw [List.length_cons, hlen], fun e' he' => ?_⟩
    rcases List.mem_cons.mp he' with rfl | he'
    · exact hflips
    · exact hl₁ e' he'

theorem foldlM_noting (l l' : List (Entry K)) :
    l'.foldlM (noting K).perform l = some (l ++ l') := by
  induction l' generalizing l with
  | nil => rw [List.append_nil]; rfl
  | cons e l' ih =>
    have hstep : (noting K).perform l e = some (l ++ [e]) := rfl
    rw [List.foldlM_cons, hstep]
    refine (ih (l ++ [e])).trans ?_
    rw [List.append_assoc]
    rfl

theorem counts_of_round_trips (hlen : kvs.length = actions.length)
    (h : RoundTrips W flipped_indexes kvs actions) : actions.length < 256 ∧
      actions.length ≠ 70 ∧ (actions = [] ∨ flipped_indexes.length < 256) := by
  obtain ⟨msg, hmsg, h⟩ := h
  have hnoted := h _ (noting K) []
  rw [foldlM_noting, List.nil_append] at hnoted
  have hentries : (entries flipped_indexes kvs actions).length = actions.length := by
    rw [entries, List.length_map, List.length_zip, hlen, Nat.min_self]
  rw [encode_batch_summary, if_neg (not_not.mpr hlen)] at hmsg
  have hfirst : (msg ++ finish)[0]? = some (UInt8.ofNat actions.length) := by
    rw [← Option.some.inj hmsg]
    rfl
  simp only [handleMessage, hfirst, Option.bind_eq_bind, Option.bind_some] at hnoted
  split at hnoted
  case isTrue => cases hnoted
  case isFalse hne =>
    simp only [decode_batch_summary, hfirst, Option.bind_eq_bind, Option.bind_some] at hnoted
    obtain ⟨⟨l, o⟩, hread, hl⟩ := Option.bind_eq_some_iff.mp hnoted
    obtain ⟨l₁, rfl, hcount, hflips⟩ := noting_read hread
    obtain rfl := Option.some.inj hl
    rw [hentries] at hcount
    have hN : actions.length < 256 := hcount ▸ (UInt8.ofNat actions.length).toNat_lt
    refine ⟨hN, fun h70 => hne (by rw [h70]; rfl), ?_⟩
    cases hact : actions with
    | nil => exact Or.inl rfl
    | cons a as =>
      have hpos : 0 < (entries flipped_indexes kvs actions).length := by
        rw [hentries, hact]
        exact Nat.succ_pos _
      obtain ⟨e, he⟩ := List.exists_mem_of_length_pos hpos
      obtain ⟨p, -, hp⟩ := List.mem_map.mp he
      refine Or.inr ?_
      have hlt := hflips e he
      rw [← hp] at hlt
      exact hlt

/-- Exactly which summaries the device performs as they were encoded. -/
theorem round_trips_iff (hlen : kvs.length = actions.length)
    (hv : ∀ kv ∈ kvs, kv.2 < 256 ^ W.valueSize) (hf : ∀ i ∈ flipped_indexes, i < 2 ^ 32) :
    RoundTrips W flipped_indexes kvs actions ↔ actions.length < 256 ∧ actions.length ≠ 70 ∧
      (actions = [] ∨ flipped_indexes.length < 256) :=
  ⟨counts_of_round_trips hlen, fun h => handle_summary hlen hv hf h.1 h.2.1 h.2.2⟩

def serverTypes : WireTypes (BitVec 64) where
  keySize := 8
  valueSize := 4
  key_size := Or.inr rfl
  value_size := Or.inl rfl
  toNat := BitVec.toNat
  ofNat := BitVec.ofNat 64
  toNat_lt := fun k => k.isLt
  ofNat_toNat := fun k => BitVec.ofNat_toNat 64 k

theorem round_trips_iff_one : RoundTrips serverTypes [3, 7] [(5, 1)] [AddAction] ↔
    (1 < 256 ∧ 1 ≠ 70 ∧ ([AddAction] = [] ∨ 2 < 256)) :=
  round_trips_iff rfl (by decide) (by decide)

/-- 256 flips are sent as none, and 70 actions are taken for a full update. -/
theorem counts_cut_off : ¬ RoundTrips serverTypes (List.range 256) [(5, 1)] [AddAction] ∧
    ¬ RoundTrips serverTypes [] (List.replicate 70 (5, 1)) (List.replicate 70 AddAction) := by
  constructor
  · intro h
    rcases (counts_of_round_trips rfl h).2.2 with hc | hc
    · cases hc
    · rw [List.length_range] at hc
      exact absurd hc (by decide)
  · intro h
    refine (counts_of_round_trips ?_ h).2.1 List.length_replicate
    rw [List.length_replicate, List.length_replicate]

end SummaryWire
