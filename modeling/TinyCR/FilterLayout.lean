import TinyCR.VacuumFilter

/-! # Layout and positions of the filter

The table `init` allocates has room for every bucket, so that the codec of the buckets is
exact, and the alternate position is an involution on the buckets in both modes. -/
namespace FilterLayout

open BitWords BucketCodec VacuumFilter

variable {E : Type}

def memoryConsumption (n m fp_len : ℕ) : ℕ := ROUNDUP (n * m * (fp_len - 1) + 64) 8 / 8 + 8

example (engine : RandomEngine E) (properAltRange : ℕ → ℕ → ℤ) (f : VacuumFilter.Filter E)
    (n m step fp_length : ℕ) :
    (init engine properAltRange f n m step fp_length).memory_consumption =
      memoryConsumption (init engine properAltRange f n m step fp_length).n m fp_length := rfl

/-- The 64-bit words `get_bucket` and `set_bucket` access for the bucket `pos`. -/
def accessedWords (fp_len pos : ℕ) : List ℕ :=
  let bucket_length := (fp_len - 1) * 4
  let start_bit_pos := pos * bucket_length
  let end_bit_pos := start_bit_pos + bucket_length - 1
  if ROUNDDOWN start_bit_pos 64 = ROUNDDOWN end_bit_pos 64 then [ROUNDDOWN start_bit_pos 64 / 64]
  else [ROUNDDOWN start_bit_pos 64 / 64, ROUNDDOWN start_bit_pos 64 / 64 + 1]

section Codec

variable {fp_len n pos : ℕ} {t : Tables} {T T' : List (BitVec 32)} {store : List ℕ}

theorem getBucket_accessed (h : ∀ w ∈ accessedWords fp_len pos, load64 T w = load64 T' w) :
    getBucket fp_len t T pos = getBucket fp_len t T' pos := by
  have hread : readBits T (pos * ((fp_len - 1) * 4)) ((fp_len - 1) * 4) =
      readBits T' (pos * ((fp_len - 1) * 4)) ((fp_len - 1) * 4) := by
    rw [accessedWords] at h
    simp only [readBits]
    split
    case isTrue hs =>
      rw [if_pos hs] at h
      rw [h _ (by simp)]
    case isFalse hs =>
      rw [if_neg hs] at h
      rw [h _ (by simp), h _ (by simp)]
  rw [BucketCodec.getBucket, BucketCodec.getBucket, hread]

theorem load64_store64 {i w : ℕ} {x : BitVec 64} (hw : w ≠ i) :
    load64 (store64 T i x) w = load64 T w := by
  have hne : ∀ a b, a ≠ 2 * i → a ≠ 2 * i + 1 → b = a → (store64 T i x).getD b 0 = T.getD a 0 := by
    rintro a b h1 h2 rfl
    rw [store64, List.getD_eq_getElem?_getD, List.getElem?_set_ne (Ne.symm h2),
      List.getElem?_set_ne (Ne.symm h1), List.getD_eq_getElem?_getD]
  rw [load64, load64, hne (2 * w + 1) _ (by omega) (by omega) rfl,
    hne (2 * w) _ (by omega) (by omega) rfl]

theorem setBucket_accessed {w : ℕ} (h : w ∉ accessedWords fp_len pos) :
    load64 (setBucket fp_len t T pos store) w = load64 T w := by
  rw [accessedWords] at h
  simp only [BucketCodec.setBucket, writeBits]
  split
  case isTrue hs =>
    rw [if_pos hs, List.mem_singleton] at h
    exact load64_store64 h
  case isFalse hs =>
    simp only [if_neg hs, List.mem_cons, List.not_mem_nil, or_false, not_or] at h
    rw [load64_store64 h.2, load64_store64 h.1]

theorem room_of_memory (hT : T.length = memoryConsumption n 4 fp_len / 4) : Room fp_len T n := by
  rw [Room, hT, memoryConsumption, ROUNDUP, ROUNDDOWN, Nat.mul_assoc, Nat.mul_comm 4]
  generalize n * ((fp_len - 1) * 4) = k
  omega

theorem accessed_in_memory (hpos : pos < n) {w : ℕ} (hw : w ∈ accessedWords fp_len pos) :
    8 * w + 8 ≤ memoryConsumption n 4 fp_len := by
  have hend : (pos + 1) * ((fp_len - 1) * 4) ≤ n * ((fp_len - 1) * 4) :=
    Nat.mul_le_mul_right _ hpos
  rw [Nat.add_mul, Nat.one_mul] at hend
  have hmem : 8 * memoryConsumption n 4 fp_len ≥ n * ((fp_len - 1) * 4) + 128 - 7 := by
    rw [memoryConsumption, ROUNDUP, ROUNDDOWN, Nat.mul_assoc, Nat.mul_comm 4]
    omega
  simp only [accessedWords, ROUNDDOWN_eq_iff, ROUNDDOWN_div] at hw
  split at hw
  case isTrue hs =>
    rw [List.mem_singleton] at hw
    omega
  case isFalse hs =>
    simp only [List.mem_cons, List.not_mem_nil, or_false] at hw
    omega

/-- What `set_bucket` and then `get_bucket` do on a table of `init`. -/
structure CodecExact (fp_len n pos : ℕ) (t : Tables) (T : List (BitVec 32)) (store : List ℕ) :
    Prop where
  same_entries : (getBucket fp_len t (setBucket fp_len t T pos store) pos).slots.Perm store
  descending : (getBucket fp_len t (setBucket fp_len t T pos store) pos).slots.Pairwise (· ≥ ·)
  count : (getBucket fp_len t (setBucket fp_len t T pos store) pos).count =
    store.countP (· ≠ 0)
  others : ∀ q < n, q ≠ pos →
    getBucket fp_len t (setBucket fp_len t T pos store) q = getBucket fp_len t T q
  reads : ∀ q < n, ∀ T', (∀ w ∈ accessedWords fp_len q, load64 T w = load64 T' w) →
    getBucket fp_len t T q = getBucket fp_len t T' q
  writes : ∀ w ∉ accessedWords fp_len pos, load64 (setBucket fp_len t T pos store) w = load64 T w
  in_memory : ∀ q < n, ∀ w ∈ accessedWords fp_len q, 8 * w + 8 ≤ memoryConsumption n 4 fp_len

/-- The codec is exact for every table, bucket and entries the fingerprint length allows. -/
theorem bucket_codec_exact (hlen : 4 ≤ fp_len ∧ fp_len ≤ 16) (ht : t.Built)
    (hT : T.length = memoryConsumption n 4 fp_len / 4) (hpos : pos < n) (h4 : store.length = 4)
    (hb : ∀ s ∈ store, s < 2 ^ fp_len) : CodecExact fp_len n pos t T store := by
  have hroom : Room fp_len T n := room_of_memory hT
  have hsame := getBucket_setBucket_same hlen ht hroom hpos h4 hb
  have hslots : (getBucket fp_len t (setBucket fp_len t T pos store) pos).slots =
      sortStore store := by rw [hsame]
  have hcount : (getBucket fp_len t (setBucket fp_len t T pos store) pos).count =
      occupied (sortStore store) := by rw [hsame]
  have hperm := sortStore_perm h4
  constructor
  case same_entries =>
    rw [hslots]
    exact hperm
  case descending =>
    rw [hslots]
    exact (sortStore_wellFormed h4 hb).descending
  case count => exact hcount.trans (hperm.countP_eq _)
  case others =>
    intro q _ hne
    exact getBucket_setBucket_other hlen ht hroom hpos h4 hb hne
  case reads =>
    intro q _ T' hload
    exact getBucket_accessed hload
  case writes =>
    intro w hw
    exact setBucket_accessed hw
  case in_memory =>
    intro q hq w hw
    exact accessed_in_memory hq hw

theorem bucket_codec_exact_two_buckets :
    CodecExact 5 2 1 (Tables.build ⟨id, id⟩) (List.replicate 5 0xffffffff#32) [3, 17, 0, 31] :=
  bucket_codec_exact (by decide) ⟨_, rfl⟩ (by decide) (by decide) (by decide) (by decide)

end Codec

section Alternate

variable {hash : HashUtil} {f : VacuumFilter.Filter E}

theorem xor_lt_of_dvd {n k pos x : ℕ} (hdvd : 2 ^ k ∣ n) (hpos : pos < n) (hx : x < 2 ^ k) :
    pos ^^^ x < n := by
  obtain ⟨c, rfl⟩ := hdvd
  have hdiv : (pos ^^^ x) / 2 ^ k = pos / 2 ^ k := by
    rw [← Nat.shiftRight_eq_div_pow, Nat.shiftRight_xor_distrib, Nat.shiftRight_eq_div_pow,
      Nat.shiftRight_eq_div_pow, Nat.div_eq_of_lt hx, Nat.xor_zero]
  have hlt : (pos ^^^ x) / 2 ^ k < c := hdiv ▸ Nat.div_lt_of_lt_mul hpos
  rw [Nat.mul_comm]
  exact (Nat.div_lt_iff_lt_mul (Nat.two_pow_pos k)).mp hlt

/-- What `init` leaves in `len` for a large filter: masks of segments that divide `n`. -/
def SegmentsDivide (f : VacuumFilter.Filter E) : Prop :=
  ∀ i < 4, ∃ k, f.len.getD i 0 + 1 = 2 ^ k ∧ 2 ^ k ∣ f.n

theorem segment_lt {len : ℤ} {k : ℕ} (h : len + 1 = 2 ^ k) (x : BitVec 32) :
    (x &&& BitVec.ofInt 32 len).toNat < 2 ^ k := by
  have hle : (x &&& BitVec.ofInt 32 len).toNat ≤ (BitVec.ofInt 32 len).toNat := by
    rw [BitVec.toNat_and]
    exact Nat.and_le_right
  obtain ⟨m, rfl⟩ : ∃ m : ℕ, len = m := ⟨2 ^ k - 1, by
    have := Nat.two_pow_pos k
    push_cast [this]
    omega⟩
  have hm : m + 1 = 2 ^ k := by exact_mod_cast h
  have hmod : (BitVec.ofInt 32 (m : ℤ)).toNat = m % 2 ^ 32 := by
    rw [BitVec.ofInt_natCast, BitVec.toNat_ofNat]
  have := Nat.mod_le m (2 ^ 32)
  omega

theorem largeAlternate_spec (hlarge : f.isSmall = false) (hseg : SegmentsDivide f) {pos : ℕ}
    (fp : ℕ) : (pos < f.n → alternate hash f pos fp < f.n) ∧
      alternate hash f (alternate hash f pos fp) fp = pos := by
  simp only [alternate, hlarge, Bool.false_eq_true, if_false]
  obtain ⟨k, hk, hdvd⟩ := hseg (fp &&& 3) (Nat.lt_of_le_of_lt Nat.and_le_right (by decide))
  refine ⟨fun hpos => xor_lt_of_dvd hdvd hpos (segment_lt hk _), ?_⟩
  rw [Nat.xor_assoc, Nat.xor_self, Nat.xor_zero]

/-- The filter's positions are exchanged in pairs, and `lookup` never stops. -/
structure Paired (hash : HashUtil) (f : VacuumFilter.Filter E) : Prop where
  in_range : ∀ pos < f.n, ∀ fp, alternate hash f pos fp < f.n
  involution : ∀ pos < f.n, ∀ fp, alternate hash f (alternate hash f pos fp) fp = pos
  assertion : ∀ ele, lookupAssertion hash f ele

theorem alternate_paired (hash : HashUtil) (f : VacuumFilter.Filter E) :
    (f.isSmall = true → f.n % 2 = 0 → 2 ≤ f.n → f.n < 1315800 →
      f.max_2_power = growPower f.n 31 1 →
      Paired hash f ∧ ∀ pos < f.n, ∀ fp, alternate hash f pos fp ≠ pos) ∧
    (f.isSmall = false → SegmentsDivide f → Paired hash f) := by
  constructor
  · intro hsmall heven htwo hlt hpower
    have hspec : ∀ pos < f.n, ∀ fp, alternate hash f pos fp < f.n ∧
        alternate hash f pos fp ≠ pos ∧ alternate hash f (alternate hash f pos fp) fp = pos := by
      intro pos hpos fp
      simp only [alternate, hsmall, if_true]
      refine AlternatePosition.smallAlternate_spec heven (by omega) ?_ hpos
      rw [hpower]
      exact growPower_lt 31 (by omega)
    refine ⟨⟨fun pos hpos fp => (hspec pos hpos fp).1, fun pos hpos fp => (hspec pos hpos fp).2.2,
      fun ele => ?_⟩, fun pos hpos fp => (hspec pos hpos fp).2.1⟩
    exact (hspec _ (positionHash_lt_of_pos (by omega) _) _).2.2.symm
  · intro hlarge hseg
    refine ⟨fun pos hpos fp => (largeAlternate_spec hlarge hseg fp).1 hpos,
      fun pos _ fp => (largeAlternate_spec hlarge hseg fp).2, fun ele => ?_⟩
    exact (largeAlternate_spec hlarge hseg _).2.symm

def bareFilter (n max_2_power : ℕ) (len : List ℤ) (isSmall : Bool) : VacuumFilter.Filter ℕ :=
  ⟨n, 4, 0, max_2_power, 0, len, isSmall, 4, 1, [], ⟨id, id⟩, 0, 0⟩

theorem alternate_paired_six_and_sixteen :
    (∀ pos < 6, ∀ fp, alternate ⟨id, id⟩ (bareFilter 6 4 [] true) pos fp ≠ pos) ∧
    Paired ⟨id, id⟩ (bareFilter 16 8 [7, 3, 7, 7] false) := by
  refine ⟨((alternate_paired ⟨id, id⟩ (bareFilter 6 4 [] true)).1 rfl (by decide) (by decide)
    (by decide) (by decide)).2, (alternate_paired ⟨id, id⟩ _).2 rfl fun i hi => ?_⟩
  obtain rfl | rfl | rfl | rfl : i = 0 ∨ i = 1 ∨ i = 2 ∨ i = 3 := by omega
  · exact ⟨3, by decide, by decide⟩
  · exact ⟨2, by decide, by decide⟩
  · exact ⟨3, by decide, by decide⟩
  · exact ⟨3, by decide, by decide⟩

end Alternate

end FilterLayout
