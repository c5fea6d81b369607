import TinyCR.FilterLayout
import TinyCR.FilterRun

/-! # Large filters

From 1315800 buckets on, `init` takes the ranges of the alternate positions from
`proper_alt_range`. They are powers of two and the number of buckets is rounded up to the first of
them, so the positions are exchanged in pairs: a large filter, too, is the multiset of its
elements over whole runs. -/
namespace LargeFilter

open VacuumFilter FilterRun FilterLayout

/-- The loop of `proper_alt_range`; `fits` is its floating-point test, left arbitrary. -/
def altRange (fits : ℕ → Bool) (M : ℕ) : ℕ → ℕ → ℤ
  | 0, _ => -1
  | fuel + 1, alt_range =>
    if alt_range < M then
      if fits alt_range then alt_range else altRange fits M fuel (alt_range <<< 1)
    else -1

def properAltRange (fits : ℕ → ℕ → ℕ → Bool) (M i : ℕ) : ℤ := altRange (fits M i) M 31 8

section Loop

variable {fits : ℕ → Bool} {M fuel : ℕ}

theorem altRange_found {j : ℕ} (h : altRange fits M fuel (2 ^ j) ≠ -1) :
    ∃ k, altRange fits M fuel (2 ^ j) = 2 ^ k ∧ fits (2 ^ k) = true := by
  induction fuel generalizing j with
  | zero => exact absurd rfl h
  | succ fuel ih =>
    rw [altRange] at h ⊢
    split at h
    case isFalse => exact absurd rfl h
    case isTrue hlt =>
      rw [if_pos hlt]
      split at h
      case isTrue hfits =>
        rw [if_pos hfits]
        exact ⟨j, by push_cast; rfl, hfits⟩
      case isFalse hfits =>
        rw [if_neg hfits]
        rw [Nat.shiftLeft_eq, ← Nat.pow_add] at h ⊢
        exact ih h

theorem altRange_le {j k : ℕ} (hjk : j ≤ k) (hfuel : k < j + fuel) (hM : 2 ^ k < M)
    (hfits : fits (2 ^ k) = true) :
    0 < altRange fits M fuel (2 ^ j) ∧ altRange fits M fuel (2 ^ j) ≤ 2 ^ k := by
  induction fuel generalizing j with
  | zero => omega
  | succ fuel ih =>
    have hj : 2 ^ j ≤ 2 ^ k := Nat.pow_le_pow_right (by decide) hjk
    rw [altRange, if_pos (Nat.lt_of_le_of_lt hj hM)]
    split
    case isTrue =>
      have hpos := Nat.two_pow_pos j
      constructor
      · exact_mod_cast hpos
      · exact_mod_cast hj
    case isFalse hno =>
      -- a range that does not fit is not the one that does
      have hne : j ≠ k := by
        rintro rfl
        exact hno hfits
      rw [Nat.shiftLeft_eq, ← Nat.pow_add]
      apply ih
      · omega
      · omega

end Loop

/-- What the floating-point test says of a filter of `M` buckets: no short range bears the full
load, a longer one does, and what bears the full load bears a lighter one. -/
structure LoadTest (fits : ℕ → ℕ → ℕ → Bool) (M : ℕ) : Prop where
  long : ∀ alt_range ≤ 1024, fits M 0 alt_range = false
  found : ∃ k, 3 ≤ k ∧ k < 31 ∧ 2 ^ k < M ∧ fits M 0 (2 ^ k) = true
  lighter : ∀ alt_range n i, fits M 0 alt_range = true → M ≤ n → n < M + alt_range →
    1 ≤ i → i < 4 → fits n i alt_range = true

section Ranges

variable {fits : ℕ → ℕ → ℕ → Bool} {M n : ℕ}

theorem ROUNDUP_spec {a b : ℕ} (hb : 0 < b) :
    a ≤ ROUNDUP a b ∧ ROUNDUP a b < a + b ∧ b ∣ ROUNDUP a b := by
  have hmod : (a + (b - 1)) % b < b := Nat.mod_lt _ hb
  have hdiv : b ∣ ROUNDUP a b := Nat.dvd_sub_mod (a + (b - 1))
  rw [ROUNDUP, BucketCodec.ROUNDDOWN] at *
  refine ⟨?_, ?_, hdiv⟩
  · omega
  · omega

theorem LoadTest.first (h : LoadTest fits M) :
    ∃ k, properAltRange fits M 0 = 2 ^ k ∧ 11 ≤ k ∧ k < 31 ∧ 2 ^ k < M ∧
      fits M 0 (2 ^ k) = true := by
  obtain ⟨k, h3, h31, hM, hfits⟩ := h.found
  obtain ⟨hpos, hle⟩ := altRange_le h3 (by omega : k < 3 + 31) hM hfits
  obtain ⟨k', hk', hfits'⟩ := altRange_found (by omega : altRange (fits M 0) M 31 (2 ^ 3) ≠ -1)
  have hlt : 2 ^ k' ≤ 2 ^ k := by
    rw [hk'] at hle
    exact_mod_cast hle
  refine ⟨k', hk', ?_, ?_, Nat.lt_of_le_of_lt hlt hM, hfits'⟩
  · by_contra hshort
    have hle10 : 2 ^ k' ≤ 2 ^ 10 := Nat.pow_le_pow_right (by decide) (by omega)
    rw [h.long _ hle10] at hfits'
    cases hfits'
  · have : k' ≤ k := (Nat.pow_le_pow_iff_right (by decide)).mp hlt
    omega

theorem LoadTest.others (h : LoadTest fits M) {k : ℕ} (hk : 11 ≤ k ∧ k < 31) (hM : 2 ^ k < M)
    (hfits : fits M 0 (2 ^ k) = true) (hn : M ≤ n ∧ n < M + 2 ^ k) {i : ℕ} (hi : 1 ≤ i)
    (h4 : i < 4) : ∃ j ≤ k, properAltRange fits n i = 2 ^ j := by
  have hlight := h.lighter _ n i hfits hn.1 hn.2 hi h4
  obtain ⟨hpos, hle⟩ := altRange_le (by omega : 3 ≤ k) (by omega : k < 3 + 31)
    (Nat.lt_of_lt_of_le hM hn.1) hlight
  obtain ⟨j, hj, -⟩ := altRange_found (by omega : altRange (fits n i) n 31 (2 ^ 3) ≠ -1)
  refine ⟨j, ?_, hj⟩
  rw [hj] at hle
  exact (Nat.pow_le_pow_iff_right (by decide : 1 < 2)).mp (by exact_mod_cast hle)

variable {E : Type} (engine : RandomEngine E) (f₀ : VacuumFilter.Filter E) (step fp_length : ℕ)

theorem init_segmentsDivide (hlarge : 1315800 ≤ n + n % 2) (h : LoadTest fits (n + n % 2)) :
    (init engine (properAltRange fits) f₀ n 4 step fp_length).isSmall = false ∧
      0 < (init engine (properAltRange fits) f₀ n 4 step fp_length).n ∧
      SegmentsDivide (init engine (properAltRange fits) f₀ n 4 step fp_length) := by
  have heven : n + (n &&& 1) = n + n % 2 := by rw [Nat.and_one_is_mod]
  have hmode : decide (n + n % 2 < 1315800) = false := decide_eq_false (by omega)
  obtain ⟨k, hr, h11, h31, hM, hfits⟩ := h.first
  have hmax : max 0 (properAltRange fits (n + n % 2) 0) = 2 ^ k := by
    rw [hr, max_eq_right (by positivity)]
  have hnat : ((2 : ℤ) ^ k).toNat = 2 ^ k := by exact_mod_cast Int.toNat_natCast (2 ^ k)
  obtain ⟨hle, hlt, hdvd⟩ := ROUNDUP_spec (a := n + n % 2) (Nat.two_pow_pos k)
  have hn : (init engine (properAltRange fits) f₀ n 4 step fp_length).n =
      ROUNDUP (n + n % 2) (2 ^ k) := by
    simp only [init, heven, hmode, hmax, hnat, Bool.false_eq_true, if_false]
  have hlen : (init engine (properAltRange fits) f₀ n 4 step fp_length).len =
      [max (2 ^ k - 1) 1024, properAltRange fits (ROUNDUP (n + n % 2) (2 ^ k)) 1 - 1,
        properAltRange fits (ROUNDUP (n + n % 2) (2 ^ k)) 2 - 1,
        max (properAltRange fits (ROUNDUP (n + n % 2) (2 ^ k)) 3 - 1) 31] := by
    simp only [init, heven, hmode, hmax, hnat, Bool.false_eq_true, if_false]
  have hsub : ∀ j ≤ k, 2 ^ j ∣ ROUNDUP (n + n % 2) (2 ^ k) := by
    intro j hj
    exact (Nat.pow_dvd_pow 2 hj).trans hdvd
  have hother : ∀ i, 1 ≤ i → i < 4 →
      ∃ j ≤ k, properAltRange fits (ROUNDUP (n + n % 2) (2 ^ k)) i = 2 ^ j :=
    fun i hi h4 => h.others ⟨h11, h31⟩ hM hfits ⟨hle, hlt⟩ hi h4
  have h2048 : (2 : ℤ) ^ 11 ≤ 2 ^ k := pow_le_pow_right₀ (by decide) h11
  refine ⟨?_, by rw [hn]; omega, ?_⟩
  · simp only [init, heven]
    exact hmode
  · intro i hi
    rw [hn, hlen]
    obtain rfl | rfl | rfl | rfl : i = 0 ∨ i = 1 ∨ i = 2 ∨ i = 3 := by omega
    · refine ⟨k, ?_, hdvd⟩
      simp only [List.getD_cons_zero]
      omega
    · obtain ⟨j, hj, hrj⟩ := hother 1 (by omega) (by omega)
      refine ⟨j, ?_, hsub j hj⟩
      simp only [List.getD_cons_succ, List.getD_cons_zero, hrj]
      omega
    · obtain ⟨j, hj, hrj⟩ := hother 2 (by omega) (by omega)
      refine ⟨j, ?_, hsub j hj⟩
      simp only [List.getD_cons_succ, List.getD_cons_zero, hrj]
      omega
    · obtain ⟨j, hj, hrj⟩ := hother 3 (by omega) (by omega)
      simp only [List.getD_cons_succ, List.getD_cons_zero, hrj]
      -- the last range is at least 32
      by_cases h5 : 5 ≤ j
      · have h32 : (2 : ℤ) ^ 5 ≤ 2 ^ j := pow_le_pow_right₀ (by decide) h5
        exact ⟨j, by omega, hsub j hj⟩
      · have h16 : (2 : ℤ) ^ j ≤ 2 ^ 4 := pow_le_pow_right₀ (by decide) (by omega)
        exact ⟨5, by omega, hsub 5 (by omega)⟩

end Ranges

section Runs

variable {E : Type} {hash : HashUtil} {engine : RandomEngine E} {fits : ℕ → ℕ → ℕ → Bool}

variable (hash engine) in
theorem init_large (f₀ : VacuumFilter.Filter E) {n : ℕ} (step : ℕ) {fp_length : ℕ}
    (hlarge : 1315800 ≤ n + n % 2) (h : LoadTest fits (n + n % 2))
    (hfp : 4 ≤ fp_length ∧ fp_length ≤ 16) :
    Operable hash (init engine (properAltRange fits) f₀ n 4 step fp_length) ∧
      contents hash (init engine (properAltRange fits) f₀ n 4 step fp_length) = 0 := by
  obtain ⟨hmode, hpos, hseg⟩ := init_segmentsDivide engine f₀ step fp_length hlarge h
  apply init_operable hash engine (properAltRange fits) f₀ step hpos ?_ hfp
  intro pos hlt fp
  obtain ⟨hin, hback⟩ := @largeAlternate_spec E hash _ hmode hseg pos fp
  exact ⟨hin hlt, hback⟩

/-- Over whole runs from `init` a large filter is a multiset, and if no insert has failed nothing
inserted and not deleted is reported absent. -/
theorem large_run_refines_multiset (f₀ : VacuumFilter.Filter E) (n step fp_length : ℕ)
    (hlarge : 1315800 ≤ n + n % 2) (hload : LoadTest fits (n + n % 2))
    (hfp : 4 ≤ fp_length ∧ fp_length ≤ 16) (ops : List Op) :
    ActsAsMultiset hash engine
        (run hash engine (init engine (properAltRange fits) f₀ n 4 step fp_length) ops) ∧
      (AllInserted hash engine (init engine (properAltRange fits) f₀ n 4 step fp_length) ops →
        ∀ ele, (deleted hash (init engine (properAltRange fits) f₀ n 4 step fp_length) ops).count
            (element hash (init engine (properAltRange fits) f₀ n 4 step fp_length) ele) <
          (inserted hash (init engine (properAltRange fits) f₀ n 4 step fp_length) ops).count
            (element hash (init engine (properAltRange fits) f₀ n 4 step fp_length) ele) →
        lookup hash
          (run hash engine (init engine (properAltRange fits) f₀ n 4 step fp_length) ops) ele =
          true) := by
  obtain ⟨hv, h0⟩ := init_large hash engine f₀ step hlarge hload hfp
  obtain ⟨hv', hs⟩ := run_preserves_operable engine hv ops
  refine ⟨operable_actsAsMultiset hv', fun hall ele hlt => ?_⟩
  have hcount := operable_count_run hv ops hall
    (element hash (init engine (properAltRange fits) f₀ n 4 step fp_length) ele)
  rw [h0, Multiset.count_zero] at hcount
  rw [hv'.lookup_spec, hs.element, ← Multiset.one_le_count_iff_mem]
  omega

theorem large_run_refines_multiset_first :
    ActsAsMultiset ⟨id, id⟩ (⟨fun n => (n, n + 1), 1⟩ : RandomEngine ℕ)
      (run ⟨id, id⟩ ⟨fun n => (n, n + 1), 1⟩
        (init ⟨fun n => (n, n + 1), 1⟩
          (properAltRange fun _ i a => decide ([16384, 128, 32, 16].getD i 0 ≤ a))
          ⟨0, 0, 0, 0, 0, [], true, 0, 1, [], ⟨id, id⟩, 0, 0⟩ 1315800 4 400 8)
        [.insert 5#64, .del 7#64, .lookup 5#64]) := by
  refine (large_run_refines_multiset _ 1315800 400 8 (by decide) ?_ (by decide) _).1
  constructor
  case long =>
    intro a ha
    exact decide_eq_false (by simp only [List.getD_cons_zero]; omega)
  case found => exact ⟨14, by decide, by decide, by decide, rfl⟩
  case lighter =>
    intro a n i hfits _ _ h1 h4
    have ha : 16384 ≤ a := of_decide_eq_true hfits
    obtain rfl | rfl | rfl : i = 1 ∨ i = 2 ∨ i = 3 := by omega
    · exact decide_eq_true (by simp only [List.getD_cons_succ, List.getD_cons_zero]; omega)
    · exact decide_eq_true (by simp only [List.getD_cons_succ, List.getD_cons_zero]; omega)
    · exact decide_eq_true (by simp only [List.getD_cons_succ, List.getD_cons_zero]; omega)

end Runs

end LargeFilter
