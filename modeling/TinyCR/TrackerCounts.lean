import TinyCR.FilterRun
import TinyCR.TrackerRun
import Mathlib.Combinatorics.Enumerative.DoubleCounting

/-! # How much the tracker stores

The cells of the filter, the keys of the Othello and the entries of the two position tables are
counted by the registered keys: no update leaves something behind. -/
namespace TrackerCounts

open ControlPlaneOthello OthelloInvariant OthelloRun VacuumFilter DASSTracker TrackerInvariant
  TrackerRun

variable {K E : Type} [DecidableEq K] [Inhabited K] {S : TrackerSetup K E} {t : Tracker K E}

omit [Inhabited K] in
theorem sum_tabled {table : ℕ → List K} {pair : K → ℕ × ℕ} {s : Finset K} {n : ℕ}
    (h : Tabled table pair (· ∈ s)) (hlt : ∀ k ∈ s, (pair k).1 < n ∧ (pair k).2 < n)
    (hne : ∀ k ∈ s, (pair k).1 ≠ (pair k).2) :
    ∑ pos ∈ Finset.range n, (table pos).length = 2 * s.card := by
  let at_position (pos : ℕ) (k : K) : Prop := pos = (pair k).1 ∨ pos = (pair k).2
  have hbucket : ∀ pos, (table pos).length = (s.filter (at_position pos)).card := by
    intro pos
    obtain ⟨hnodup, hmem⟩ := h pos
    rw [← List.toFinset_card_of_nodup hnodup]
    congr 1
    ext k
    rw [List.mem_toFinset, hmem, Finset.mem_filter]
  have hkey : ∀ k ∈ s, ((Finset.range n).filter fun pos => at_position pos k).card = 2 := by
    intro k hk
    rw [← Finset.card_pair (hne k hk)]
    congr 1
    ext pos
    rw [Finset.mem_filter, Finset.mem_range, Finset.mem_insert, Finset.mem_singleton]
    constructor
    · exact And.right
    · rintro (rfl | rfl)
      · exact ⟨(hlt k hk).1, Or.inl rfl⟩
      · exact ⟨(hlt k hk).2, Or.inr rfl⟩
  calc ∑ pos ∈ Finset.range n, (table pos).length
      = ∑ pos ∈ Finset.range n, (s.filter (at_position pos)).card :=
        Finset.sum_congr rfl fun pos _ => hbucket pos
    _ = ∑ k ∈ s, ((Finset.range n).filter fun pos => at_position pos k).card :=
        Finset.sum_card_bipartiteAbove_eq_sum_card_bipartiteBelow at_position
    _ = ∑ k ∈ s, 2 := Finset.sum_congr rfl hkey
    _ = 2 * s.card := by rw [Finset.sum_const, smul_eq_mul, Nat.mul_comm]

theorem card_keys {P : ControlPlaneOthello.Setup K} {st : Othello K} {m : K → Option ℕ}
    {s : Finset K} (h : Invariant P st) (hm : Represents st m)
    (hs : ∀ k, k ∈ s ↔ (m k).isSome = true) : st.keyCnt = s.card := by
  have himage : (Finset.range st.keyCnt).image (keyAt st) = s := by
    ext k
    rw [hs, ← hm.member_iff h, h.isMember_iff, Finset.mem_image]
    exact exists_congr fun i => and_congr_left' Finset.mem_range
  rw [← himage, Finset.card_image_of_injOn, Finset.card_range]
  intro i hi j hj hij
  exact h.keyAt_inj (Finset.mem_range.mp hi) (Finset.mem_range.mp hj) hij

theorem card_contents_le (hash : HashUtil) (f : VacuumFilter.Filter E) :
    (contents hash f).card ≤ 4 * f.n := by
  rw [FilterRun.card_contents, FilterRun.nonZeroSlots]
  calc ∑ pos ∈ Finset.range f.n, (getBucket f pos).count
      ≤ (Finset.range f.n).card • 4 := Finset.sum_le_card_nsmul _ _ 4 fun pos _ => count_le pos
    _ = 4 * f.n := by rw [Finset.card_range, smul_eq_mul, Nat.mul_comm]

theorem insert_full {hash : HashUtil} (engine : RandomEngine E) {f : VacuumFilter.Filter E}
    (hv : Valid hash f) (hfull : f.filled_cell = 4 * f.n) (ele : BitVec 64) :
    (VacuumFilter.insert hash engine f ele).1 = 1 := by
  have hland := insert_spec engine hv ele
  rcases hland.result with ⟨-, hc⟩ | ⟨h1, -⟩
  · have hroom := card_contents_le hash (VacuumFilter.insert hash engine f ele).2
    have hn : (VacuumFilter.insert hash engine f ele).2.n = f.n := by rw [hland.shape]
    rw [hc, Multiset.card_add, Multiset.card_singleton, hn] at hroom
    rw [hv.filled] at hfull
    omega
  · exact h1

def trueNegatives (S : TrackerSetup K E) (t : Tracker K E) : Finset K :=
  t.NK.filter fun k => lookup S t k = false

def falsePositives (S : TrackerSetup K E) (t : Tracker K E) : Finset K :=
  t.NK.filter fun k => lookup S t k = true

structure Counts (S : TrackerSetup K E) (t : Tracker K E) : Prop where
  filled : t.vf.filled_cell = t.PK.card
  room : t.PK.card ≤ 4 * t.vf.n
  othello : t.othello.keyCnt = t.PK.card + (falsePositives S t).card
  tnk : ∑ pos ∈ Finset.range t.vf.n, (t.TNK_table pos).length = 2 * (trueNegatives S t).card
  fpk : ∑ pos ∈ Finset.range t.vf.n, (t.FPK_table pos).length = 2 * (falsePositives S t).card

omit [DecidableEq K] [Inhabited K] in
theorem positions_lt (hv : Valid S.hash t.vf) (k : K) :
    (position_pair S t k).1 < t.vf.n ∧ (position_pair S t k).2 < t.vf.n :=
  ⟨positionHash_lt hv _, (alternate_spec hv (positionHash_lt hv _) _).1⟩

/-- In every state of every run the filter has a cell for each positive key, the Othello a key for
each positive key and each false positive, and the tables two entries for each negative key. -/
theorem reached_counts {reg : K → Option Bool} (h : Reached S t reg) : Counts S t := by
  obtain ⟨hc, -⟩ := h.consistent
  have hcard : (contents S.hash t.vf).card = t.PK.card := by
    rw [hc.contents, Multiset.card_map]
    rfl
  constructor
  case filled => rw [hc.valid.filled, hcard]
  case room =>
    rw [← hcard]
    exact card_contents_le S.hash t.vf
  case othello =>
    have hdisj : Disjoint t.PK (falsePositives S t) :=
      hc.disjoint.mono_right (Finset.filter_subset _ _)
    rw [← Finset.card_union_of_disjoint hdisj]
    apply card_keys hc.othello hc.map
    intro k
    rw [Finset.mem_union, falsePositives, Finset.mem_filter, answers]
    split
    case isTrue hP => exact iff_of_true (Or.inl hP) rfl
    case isFalse hP =>
      rw [or_iff_right hP]
      split
      case isTrue hN => exact iff_of_true hN rfl
      case isFalse hN => exact iff_of_false hN (by simp)
  case tnk =>
    have htabled := hc.tnk.congr (q := (· ∈ trueNegatives S t)) fun k => Finset.mem_filter
    exact sum_tabled htabled (fun k _ => positions_lt hc.valid k) fun k _ => positions_ne hc.valid k
  case fpk =>
    have htabled := hc.fpk.congr (q := (· ∈ falsePositives S t)) fun k => Finset.mem_filter
    exact sum_tabled htabled (fun k _ => positions_lt hc.valid k) fun k _ => positions_ne hc.valid k

theorem reached_counts_small : ∃ t, Reached smallTracker t smallReg ∧ Counts smallTracker t := by
  obtain ⟨t, h⟩ := smallRun_reached
  exact ⟨t, h, reached_counts h⟩

end TrackerCounts
