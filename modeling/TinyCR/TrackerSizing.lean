import TinyCR.FilterLayout
import TinyCR.TrackerRun
import Mathlib.Analysis.SpecialFunctions.Log.Base

/-! # The sizes `DASS_Tracker` chooses

How many buckets and how long fingerprints `init` and the retry of `batch_insert` pass to the
filter, for which key counts the buckets hold the keys, and how long the fingerprints still
fit the bucket codec. -/
namespace TrackerSizing

open BucketCodec VacuumFilter DASSTracker FilterLayout TrackerRun ControlPlaneOthello

variable {K E : Type} [DecidableEq K] [Inhabited K]

/-- The trackers right after an `init` of the filter and `retries` longer fingerprints. -/
inductive Initialised (S : TrackerSetup K E) (n_positive_keys n_negative_keys : ℕ) :
    ℕ → Tracker K E → Prop
  | init (t : Tracker K E) :
      Initialised S n_positive_keys n_negative_keys 0
        (DASSTracker.init S t n_positive_keys n_negative_keys)
  | retry {retries t t' pos} : Initialised S n_positive_keys n_negative_keys retries t →
      insertPositives S t pos = (false, t') →
      Initialised S n_positive_keys n_negative_keys (retries + 1) (retried S t')

variable {S : TrackerSetup K E} {t : Tracker K E} {np nn retries : ℕ}

omit [Inhabited K] in
theorem Initialised.sizes (h : Initialised S np nn retries t) :
    t.n_positive_keys = np % 2 ^ 32 ∧
      t.fp_len = optimal_fp_len S (np % 2 ^ 32) (nn % 2 ^ 32) + retries ∧
      ∃ f, t.vf = initFilter S f t.n_positive_keys t.fp_len := by
  induction h with
  | init t => exact ⟨rfl, rfl, t.vf, rfl⟩
  | @retry retries t t' pos _ hfull ih =>
    obtain ⟨vf, PK, rfl, -⟩ := insertPositives_parts hfull
    refine ⟨ih.1, ?_, vf, rfl⟩
    rw [retried]
    dsimp only
    rw [ih.2.1, Nat.add_assoc]

/-- The bucket count is defined (the quotient of a negative `int` has no `uint64_t` value),
`position_hash` has something to divide by and there is a slot for every key. -/
structure HoldsKeys (t : Tracker K E) : Prop where
  defined : t.n_positive_keys < 2 ^ 31
  buckets : 1 ≤ t.vf.n
  slots : t.n_positive_keys ≤ 4 * t.vf.n

theorem bucketCount_pos_iff (n : ℕ) : 1 ≤ bucketCount n ↔ 4 ≤ n := by
  rw [bucketCount, Nat.and_one_is_mod]
  omega

/-- The rounding up of the count makes up for the lost quarter up to 75 keys only if the
quotient by 4 is odd, from 76 keys on the load factor does. -/
theorem slots_iff (n : ℕ) :
    n ≤ 4 * bucketCount n ↔ n % 4 = 0 ∨ n / 4 % 2 = 1 ∨ 76 ≤ n := by
  rw [bucketCount, Nat.and_one_is_mod]
  omega

theorem le_ROUNDUP {a b : ℕ} (hb : 0 < b) : a ≤ ROUNDUP a b := by
  have := Nat.mod_lt (a + (b - 1)) hb
  rw [ROUNDUP, ROUNDDOWN]
  omega

omit [DecidableEq K] [Inhabited K] in
theorem initFilter_n (S : TrackerSetup K E) (f : VacuumFilter.Filter E) (n fp_len : ℕ) :
    (initFilter S f n fp_len).n =
      if bucketCount n < 1315800 then bucketCount n
      else ROUNDUP (bucketCount n) (S.properAltRange (bucketCount n) 0).toNat := by
  have heven : bucketCount n + (bucketCount n &&& 1) = bucketCount n := by
    rw [Nat.and_one_is_mod, bucketCount, Nat.and_one_is_mod]
    omega
  rw [initFilter, VacuumFilter.init]
  simp only [heven, decide_eq_true_eq]
  have hmax : (max 0 (S.properAltRange (bucketCount n) 0)).toNat =
      (S.properAltRange (bucketCount n) 0).toNat := by omega
  rw [hmax]

/-- The key counts the tracker sizes its filter for. -/
def CountFits (S : TrackerSetup K E) (n : ℕ) : Prop :=
  4 ≤ n ∧ n < 2 ^ 31 ∧ (n % 4 = 0 ∨ n / 4 % 2 = 1 ∨ 76 ≤ n) ∧
    (1315800 ≤ bucketCount n → 0 < S.properAltRange (bucketCount n) 0)

omit [DecidableEq K] [Inhabited K] in
theorem filter_holds_iff (S : TrackerSetup K E) (f : VacuumFilter.Filter E) (n fp_len : ℕ) :
    (n < 2 ^ 31 ∧ 1 ≤ (initFilter S f n fp_len).n ∧ n ≤ 4 * (initFilter S f n fp_len).n) ↔
      CountFits S n := by
  have hpos := bucketCount_pos_iff n
  have hslots := slots_iff n
  rw [CountFits, initFilter_n]
  by_cases hsmall : bucketCount n < 1315800
  · rw [if_pos hsmall, hpos, hslots]
    constructor
    · rintro ⟨h1, h2, h3⟩
      exact ⟨h2, h1, h3, fun hlarge => absurd hsmall (Nat.not_lt.mpr hlarge)⟩
    · rintro ⟨h1, h2, h3, -⟩
      exact ⟨h2, h1, h3⟩
  · rw [if_neg hsmall]
    by_cases hrange : 0 < S.properAltRange (bucketCount n) 0
    · have hle : bucketCount n ≤ ROUNDUP (bucketCount n)
          (S.properAltRange (bucketCount n) 0).toNat := le_ROUNDUP (by omega)
      have hlarge : 76 ≤ n := by
        rw [bucketCount, Nat.and_one_is_mod] at hsmall
        omega
      have h3 := hslots.mpr (Or.inr (Or.inr hlarge))
      constructor
      · rintro ⟨h1, -, -⟩
        exact ⟨by omega, h1, Or.inr (Or.inr hlarge), fun _ => hrange⟩
      · rintro ⟨-, h2, -, -⟩
        exact ⟨h2, by omega, by omega⟩
    · have hzero : (S.properAltRange (bucketCount n) 0).toNat = 0 := by omega
      have hnone : ROUNDUP (bucketCount n) 0 = 0 := by
        rw [ROUNDUP, ROUNDDOWN, Nat.mod_zero, Nat.sub_self]
      rw [hzero, hnone]
      constructor
      · rintro ⟨-, h2, -⟩
        exact absurd h2 (by decide)
      · rintro ⟨-, -, -, h4⟩
        exact absurd (h4 (Nat.le_of_not_lt hsmall)) hrange

omit [Inhabited K] in
/-- The filter is sized for the positive keys exactly for these counts, retries or not. -/
theorem holds_keys_iff (h : Initialised S np nn retries t) (hnp : np < 2 ^ 32) :
    HoldsKeys t ↔ CountFits S np := by
  obtain ⟨hcount, -, f, hvf⟩ := h.sizes
  rw [Nat.mod_eq_of_lt hnp] at hcount
  rw [hcount] at hvf
  have hiff := filter_holds_iff S f np t.fp_len
  rw [← hvf] at hiff
  rw [← hiff]
  constructor
  · rintro ⟨h1, h2, h3⟩
    rw [hcount] at h1 h3
    exact ⟨h1, h2, h3⟩
  · rintro ⟨h1, h2, h3⟩
    rw [← hcount] at h1 h3
    exact ⟨h1, h2, h3⟩

theorem holds_keys_iff_eighty : HoldsKeys (init smallTracker emptyTracker 80 20) :=
  (holds_keys_iff (.init emptyTracker : Initialised smallTracker 80 20 0 _) (by decide)).mpr
    ⟨by decide, by decide, by decide, fun _ => by decide⟩

/-- One key gets no bucket, nine keys get two. -/
theorem too_few_buckets :
    (init smallTracker emptyTracker 1 1).vf.n = 0 ∧
      ¬ HoldsKeys (init smallTracker emptyTracker 1 1) ∧
    (init smallTracker emptyTracker 9 1).vf.n = 2 ∧
      ¬ HoldsKeys (init smallTracker emptyTracker 9 1) := by
  have hone : (init smallTracker emptyTracker 1 1).vf.n = 0 := by decide
  have hnine : (init smallTracker emptyTracker 9 1).vf.n = 2 := by decide
  refine ⟨hone, fun h => ?_, hnine, fun h => ?_⟩
  · have hbuckets := h.buckets
    rw [hone] at hbuckets
    exact absurd hbuckets (by decide)
  · have hslots := h.slots
    rw [hnine] at hslots
    exact absurd hslots (by decide)

/-- The shifts of 64-bit words in `get_bucket` and `set_bucket` for the bucket `pos`. -/
def shiftAmounts (fp_len pos : ℕ) : List ℕ :=
  let bucket_length := (fp_len - 1) * 4
  let start_bit_pos := pos * bucket_length
  let end_bit_pos := start_bit_pos + bucket_length - 1
  let lower_bound := start_bit_pos % 64
  let upper_bound := end_bit_pos % 64
  (if ROUNDDOWN start_bit_pos 64 = ROUNDDOWN end_bit_pos 64 then
    [63 - upper_bound, lower_bound, upper_bound - lower_bound + 1]
  else [lower_bound, 64 - lower_bound, upper_bound + 1]) ++
    [4, 8, 12, fp_len - 4, 2 * (fp_len - 4), 3 * (fp_len - 4), 4 * (fp_len - 4)]

structure FitsCodec (fp_len : ℕ) : Prop where
  width : 4 * (fp_len - 1) < 64
  shifts : ∀ pos, ∀ s ∈ shiftAmounts fp_len pos, s < 64
  words : ∀ pos, (pos * ((fp_len - 1) * 4) + (fp_len - 1) * 4 - 1) / 64 ≤
    pos * ((fp_len - 1) * 4) / 64 + 1
  round_trip : ∀ {n pos : ℕ} {t : Tables} {T : List (BitVec 32)} {store : List ℕ}, t.Built →
    T.length = memoryConsumption n 4 fp_len / 4 → pos < n → store.length = 4 →
    (∀ s ∈ store, s < 2 ^ fp_len) → CodecExact fp_len n pos t T store

theorem shiftAmounts_lt {fp_len : ℕ} (hlen : 4 ≤ fp_len ∧ fp_len ≤ 16) (pos : ℕ) :
    ∀ s ∈ shiftAmounts fp_len pos, s < 64 := by
  intro s hs
  rw [shiftAmounts, List.mem_append] at hs
  rcases hs with hs | hs
  · generalize hb : pos * ((fp_len - 1) * 4) = start at hs
    simp only [ROUNDDOWN_eq_iff] at hs
    split at hs <;> simp only [List.mem_cons, List.not_mem_nil, or_false] at hs <;> omega
  · simp only [List.mem_cons, List.not_mem_nil, or_false] at hs
    omega

theorem fitsCodec_iff {fp_len : ℕ} (h4 : 4 ≤ fp_len) : FitsCodec fp_len ↔ fp_len ≤ 16 := by
  constructor
  · intro h
    have := h.width
    omega
  · intro h16
    refine ⟨by omega, shiftAmounts_lt ⟨h4, h16⟩, fun pos => ?_, ?_⟩
    · generalize pos * ((fp_len - 1) * 4) = start
      omega
    · exact fun ht hT hpos hstore hb => bucket_codec_exact ⟨h4, h16⟩ ht hT hpos hstore hb

noncomputable def toInt (x : ℝ) : ℤ := if 0 ≤ x then ⌊x⌋ else ⌈x⌉

/-- `int((log2(1/optimal_fpr)+2)/0.95)+1` on exact reals. Without keys on one side the
logarithm is infinite and converts to `INT_MIN`. -/
noncomputable def exactFpLength (n_positive_keys n_negative_keys : ℕ) : ℤ :=
  if n_positive_keys = 0 ∨ n_negative_keys = 0 then -2 ^ 31 + 1
  else
    let key_ratio : ℝ := n_positive_keys / n_negative_keys
    let optimal_fpr := 0.618 * key_ratio / 0.95
    toInt ((Real.logb 2 (1 / optimal_fpr) + 2) / 0.95) + 1

theorem toInt_lt_iff {x : ℝ} {F : ℕ} (hF : 0 < F) : toInt x < F ↔ x < F := by
  rw [toInt]
  split
  case isTrue => rw [Int.floor_lt, Int.cast_natCast]
  case isFalse hneg =>
    have hx : x < 0 := lt_of_not_ge hneg
    have hF' : (0 : ℝ) < F := Nat.cast_pos.mpr hF
    refine iff_of_true ?_ (hx.trans hF')
    have hceil : ⌈x⌉ ≤ 0 := Int.ceil_le.mpr (by exact_mod_cast hx.le)
    omega

/-- A bound on the logarithm of a quotient in whole numbers: it is taken to the power 20,
the denominator of the 0.95. -/
theorem logb_lt_iff {a b : ℕ} (ha : 0 < a) (hb : 0 < b) (e : ℕ) :
    20 * Real.logb 2 (a / b) < e ↔ a ^ 20 < b ^ 20 * 2 ^ e := by
  have ha' : (0 : ℝ) < a := Nat.cast_pos.mpr ha
  have hb' : (0 : ℝ) < b := Nat.cast_pos.mpr hb
  have hpow : 20 * Real.logb 2 (a / b) = Real.logb 2 ((a / b : ℝ) ^ 20) := by
    rw [Real.logb_pow]
    norm_num
  rw [hpow, Real.logb_lt_iff_lt_rpow (by norm_num) (by positivity), Real.rpow_natCast, div_pow,
    div_lt_iff₀ (by positivity), mul_comm]
  exact_mod_cast Iff.rfl

theorem exactFpLength_le_iff {np nn F : ℕ} (hnp : 0 < np) (hnn : 0 < nn) (hF : 4 ≤ F) :
    exactFpLength np nn ≤ F ↔ (950 * nn) ^ 20 < (618 * np) ^ 20 * 2 ^ (19 * F - 40) := by
  have hnp' : (0 : ℝ) < np := Nat.cast_pos.mpr hnp
  have hnn' : (0 : ℝ) < nn := Nat.cast_pos.mpr hnn
  have hquot : 1 / (0.618 * ((np : ℝ) / nn) / 0.95) =
      ((950 * nn : ℕ) : ℝ) / ((618 * np : ℕ) : ℝ) := by
    push_cast
    field_simp
    norm_num
  have hexp : ((19 * F - 40 : ℕ) : ℝ) = 19 * F - 40 := by
    rw [Nat.cast_sub (by omega)]
    push_cast
    ring
  rw [exactFpLength, if_neg (by omega)]
  dsimp only
  rw [hquot, Int.add_one_le_iff, toInt_lt_iff (by omega),
    ← logb_lt_iff (by omega) (by omega) (19 * F - 40), hexp, div_lt_iff₀ (by norm_num)]
  constructor
  · intro h
    linarith
  · intro h
    linarith

/-- The key counts and numbers of retries whose fingerprints have at most 16 bits. -/
def RatioFits (n_positive_keys n_negative_keys retries : ℕ) : Prop :=
  retries ≤ 12 ∧ (n_positive_keys = 0 ∨ n_negative_keys = 0 ∨
    (950 * n_negative_keys) ^ 20 <
      (618 * n_positive_keys) ^ 20 * 2 ^ (19 * (16 - retries) - 40))

/-- The float arithmetic of `optimal_fp_len` is exact. -/
def ExactRatio (S : TrackerSetup K E) : Prop := ∀ np nn, S.fp_length np nn = exactFpLength np nn

omit [Inhabited K] in
theorem Initialised.fp_len_eq (h : Initialised S np nn retries t) (hnp : np < 2 ^ 32)
    (hnn : nn < 2 ^ 32) : t.vf.fp_len = optimal_fp_len S np nn + retries := by
  obtain ⟨-, hfp, f, hvf⟩ := h.sizes
  rw [Nat.mod_eq_of_lt hnp, Nat.mod_eq_of_lt hnn] at hfp
  rw [hvf, ← hfp]
  rfl

omit [DecidableEq K] [Inhabited K] in
theorem four_le_optimal (S : TrackerSetup K E) (np nn : ℕ) : 4 ≤ optimal_fp_len S np nn := by
  rw [optimal_fp_len]
  split <;> omega

omit [DecidableEq K] [Inhabited K] in
theorem optimal_le_iff (hexact : ExactRatio S) (np nn : ℕ) {F : ℕ} (hF : 4 ≤ F) :
    optimal_fp_len S np nn ≤ F ↔ np = 0 ∨ nn = 0 ∨
      (950 * nn) ^ 20 < (618 * np) ^ 20 * 2 ^ (19 * F - 40) := by
  have hle : optimal_fp_len S np nn ≤ F ↔ exactFpLength np nn ≤ F := by
    rw [optimal_fp_len, hexact]
    split <;> omega
  rw [hle]
  by_cases hzero : np = 0 ∨ nn = 0
  · rw [exactFpLength, if_pos hzero, ← or_assoc]
    exact iff_of_true (by omega) (Or.inl hzero)
  · rw [exactFpLength_le_iff (by omega) (by omega) hF]
    constructor
    · exact fun h => Or.inr (Or.inr h)
    · rintro (h | h | h)
      · exact absurd (Or.inl h) hzero
      · exact absurd (Or.inr h) hzero
      · exact h

omit [Inhabited K] in
theorem fp_len_le_iff (hexact : ExactRatio S) (h : Initialised S np nn retries t)
    (hnp : np < 2 ^ 32) (hnn : nn < 2 ^ 32) : t.vf.fp_len ≤ 16 ↔ RatioFits np nn retries := by
  have h4 := four_le_optimal S np nn
  rw [h.fp_len_eq hnp hnn, RatioFits]
  by_cases hr : retries ≤ 12
  · rw [← optimal_le_iff hexact np nn (F := 16 - retries) (by omega)]
    omega
  · exact iff_of_false (by omega) fun hfits => hr hfits.1

omit [Inhabited K] in
/-- The fingerprints fit the bucket codec exactly for these key counts and retries. -/
theorem fits_codec_iff (hexact : ExactRatio S) (h : Initialised S np nn retries t)
    (hnp : np < 2 ^ 32) (hnn : nn < 2 ^ 32) :
    FitsCodec t.vf.fp_len ↔ RatioFits np nn retries := by
  have h4 := four_le_optimal S np nn
  rw [← fp_len_le_iff hexact h hnp hnn]
  refine fitsCodec_iff ?_
  rw [h.fp_len_eq hnp hnn]
  omega

noncomputable def exactTracker : TrackerSetup ℕ ℕ :=
  { smallTracker with fp_length := exactFpLength }

theorem fits_codec_iff_thousand :
    FitsCodec (init exactTracker emptyTracker 1000 6000000).vf.fp_len :=
  (fits_codec_iff (fun _ _ => rfl) (.init emptyTracker : Initialised exactTracker 1000 6000000 0 _)
    (by decide) (by decide)).mpr ⟨by decide, Or.inr (Or.inr (by decide +kernel))⟩

/-- Ten thousand negative keys for each positive one ask for 17 bits. -/
theorem too_long_fingerprints :
    ¬ FitsCodec (init exactTracker emptyTracker 1000 10000000).vf.fp_len := by
  have hinit : Initialised exactTracker 1000 10000000 0
      (init exactTracker emptyTracker 1000 10000000) := .init emptyTracker
  intro h
  have hwidth := h.width
  obtain ⟨-, hfits⟩ := (fp_len_le_iff (fun _ _ => rfl) hinit (by decide) (by decide)).mp (by omega)
  have hlarge : ¬ (950 * 10000000) ^ 20 < (618 * 1000) ^ 20 * 2 ^ (19 * (16 - 0) - 40) := by
    decide +kernel
  rcases hfits with h | h | h
  · exact absurd h (by decide)
  · exact absurd h (by decide)
  · exact hlarge h

end TrackerSizing
