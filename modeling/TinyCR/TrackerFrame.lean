import TinyCR.TrackerRun

/-! # `setValue` of a key that is not registered

Nothing in `setValue` checks that the key is registered. Setting it to 1 registers it; setting
it to 0 when the structure happens to answer 1 takes another key's fingerprint out of the
filter and changes the value of whatever key the Othello index names. -/
namespace TrackerFrame

open ControlPlaneOthello OthelloInvariant OthelloRun VacuumFilter DASSTracker TrackerInvariant
  TrackerRun

variable {K E : Type} [DecidableEq K] [Inhabited K] {S : TrackerSetup K E} {t t' : Tracker K E}
  {k : K}

/-- No registered key is answered differently after `setValue`, unless a rebuild is asked for. -/
def FrameKept (S : TrackerSetup K E) (t : Tracker K E) (k : K) (b : Bool) : Prop :=
  ∀ flipped t', setValue S t (k, b.toNat) = .ok (flipped, t') → flipped ≠ rebuildMarker →
    ∀ j, j ∈ t.PK ∨ j ∈ t.NK → query S t' j = query S t j

/-- The key is not set from 1 to 0, or two positive keys share its place in the filter and its
Othello index is not that of a positive key. -/
def Harmless (S : TrackerSetup K E) (t : Tracker K E) (k : K) (b : Bool) : Prop :=
  b = true ∨ query S t k ≠ 1 ∨
    (1 < (t.PK.filter fun p => elem S t k = elem S t p).card ∧
      (queryIndex S.othello t.othello k < t.othello.keyCnt →
        keyAt t.othello (queryIndex S.othello t.othello k) ∉ t.PK))

omit [DecidableEq K] in
theorem not_marker {st st' : Othello K} (h : Invariant S.othello st) {flipped : List ℕ}
    (hlog : Logged S.othello st [] st' flipped) : flipped ≠ rebuildMarker := by
  rintro rfl
  obtain ⟨flips, hflips, hrep⟩ := hlog.flips
  have hin := (hrep rfl).1 0xffffffff (by
    rw [List.nil_append] at hflips
    rw [← hflips]
    exact List.mem_singleton_self _)
  have hfits := h.sized.fits
  rw [h.sized.length_eq] at hin
  have hone : S.othello.toConfig.VDL = 1 := rfl
  rw [hone] at hfits hin
  omega

theorem Consistent.count_elem (h : Consistent S t) (k : K) :
    (VacuumFilter.contents S.hash t.vf).count (elem S t k) =
      (t.PK.filter fun p => elem S t k = elem S t p).card := by
  rw [h.contents, Multiset.count_map]
  rfl

theorem Consistent.lowered_lookup_self (h : Consistent S t) (hl : lookup S t k = true) :
    lookup S (lowered S t k) k = true ↔
      1 < (t.PK.filter fun p => elem S t k = elem S t p).card := by
  obtain ⟨hv, helem, -, hc, -⟩ := lowered_spec h.valid hl
  rw [← Consistent.count_elem h, ← hc, Multiset.count_add, Multiset.count_singleton_self,
    lookup_iff hv, helem, ← Multiset.one_le_count_iff_mem]
  omega

omit [DecidableEq K] [Inhabited K] in
theorem lookup_congr (hv : Valid S.hash t.vf) {j : K} (h : elem S t j = elem S t k) :
    lookup S t j = lookup S t k := by
  rw [Bool.eq_iff_iff, lookup_iff hv, lookup_iff hv, h]

omit [Inhabited K] in
theorem lowered_lookup (hv : Valid S.hash t.vf) (hl : lookup S t k = true)
    (hself : lookup S (lowered S t k) k = true) (j : K) :
    lookup S (lowered S t k) j = lookup S t j := by
  obtain ⟨hv', helem, -, -, hnewer⟩ := lowered_spec hv hl
  rw [Bool.eq_iff_iff]
  refine ⟨fun hj => (hnewer j).mpr (Or.inl hj), fun hj => ?_⟩
  rcases (hnewer j).mp hj with hj | heq
  · exact hj
  · have hje : elem S (lowered S t k) j = elem S (lowered S t k) k := by rw [helem, heq]
    rw [lookup_congr hv' hje]
    exact hself

theorem demoteLoop_kept (pos : ℕ) (flipped : List ℕ) (kept rest : List K)
    (h : ∀ j ∈ rest, lookup S t j = true) : demoteLoop S t pos flipped kept rest =
      .ok ({ t with FPK_table := Function.update t.FPK_table pos (kept ++ rest) }, flipped) := by
  have hstep : ∀ kept j rest, lookup S t j = true →
      demoteLoop S t pos flipped kept (j :: rest) =
        demoteLoop S t pos flipped (kept ++ [j]) rest := by
    intro kept j rest hj
    rw [demoteLoop, if_pos hj]
  rw [keeps_all (demoteLoop S t pos flipped) hstep kept rest h, demoteLoop]

omit [DecidableEq K] [Inhabited K] in
theorem query_of_not_lookup (h : lookup S t k = false) : query S t k = 0 := by
  rw [DASSTracker.query, if_neg (by simp [h])]

omit [DecidableEq K] in
theorem query_of_stored (h : Invariant S.othello t.othello) {m : K → Option ℕ}
    (hm : Represents t.othello m) (hl : lookup S t k = true) {v : ℕ} (hv : m k = some v) :
    query S t k = v % 2 := by
  rw [DASSTracker.query, if_pos hl, query_of_map h hm hv]
  rfl

omit [DecidableEq K] [Inhabited K] in
theorem lookup_of_query (h : query S t k = 1) : lookup S t k = true := by
  by_contra hl
  rw [DASSTracker.query, if_neg hl] at h
  cases h

theorem Consistent.changeToNegative_kept (h : Consistent S t) (hl : lookup S t k = true)
    (hself : lookup S (lowered S t k) k = true) : changeToNegative S t (k, 0) =
      lastNegative S (k, 0) (position_pair S (lowered S t k) k) (lowered S t k, []) := by
  have hdemote : ∀ pos, demote S (lowered S t k) pos [] = .ok (lowered S t k, []) := by
    intro pos
    have hstay : ∀ j ∈ (lowered S t k).FPK_table pos, lookup S (lowered S t k) j = true := by
      intro j hj
      rw [lowered_lookup h.valid hl hself]
      exact (((h.fpk pos).2 j).mp hj).1.2
    rw [demote, demoteLoop_kept pos [] [] _ hstay, List.nil_append, Function.update_eq_self]
  rw [changeToNegative_eq, hdemote, ok_bind, hdemote, ok_bind]

/-- The changed key's value is what the Othello held already, if it is no positive key. -/
theorem Consistent.keyAt_zero (h : Consistent S t) {i : ℕ} (hi : i < t.othello.keyCnt)
    (hP : keyAt t.othello i ∉ t.PK) :
    Function.update (answers S t) (keyAt t.othello i) (some 0) = answers S t := by
  have hstored : answers S t (keyAt t.othello i) = some (t.othello.values.getD i 0) :=
    (h.map _ _).mpr ⟨i, hi, rfl, rfl⟩
  have hzero : answers S t (keyAt t.othello i) = some 0 := by
    rw [answers, if_neg hP] at hstored ⊢
    split at hstored
    case isTrue hc => exact if_pos hc
    case isFalse => cases hstored
  rw [← hzero, Function.update_eq_self]

theorem Consistent.keeps (h : Consistent S t) (h' : Consistent S t')
    (hP : ∀ j ∈ t.PK, j ∈ t'.PK) (hN : ∀ j ∈ t.NK, j ∈ t'.NK) {j : K}
    (hj : j ∈ t.PK ∨ j ∈ t.NK) : query S t' j = query S t j := by
  rcases hj with hj | hj
  · rw [h.query_positive hj, h'.query_positive (hP j hj)]
  · rw [h.query_negative hj, h'.query_negative (hN j hj)]

theorem Consistent.frame_true (h : Consistent S t) (hP : k ∉ t.PK) (hN : k ∉ t.NK) :
    FrameKept S t k true := by
  intro flipped t' hrun hne j hj
  rw [Bool.toNat_true, setValue] at hrun
  dsimp only at hrun
  split at hrun
  case isTrue =>
    obtain ⟨-, rfl⟩ := Prod.mk.inj (Except.ok.inj hrun)
    rfl
  case isFalse =>
    rw [if_neg (by simp)] at hrun
    split at hrun
    case isTrue =>
      obtain ⟨hPK, hNK, hc⟩ := h.changeToPositive_ok hP hrun
      rw [Finset.erase_eq_of_notMem hN] at hNK
      exact Consistent.keeps h (hc hne) (fun q hq => hPK ▸ Finset.mem_insert_of_mem hq)
        (fun q hq => hNK ▸ hq) hj
    case isFalse =>
      obtain ⟨-, rfl⟩ := Prod.mk.inj (Except.ok.inj hrun)
      rfl

theorem frame_unchanged (h : query S t k ≠ 1) : FrameKept S t k false := by
  intro flipped t' hrun _ j _
  rw [Bool.toNat_false, setValue] at hrun
  dsimp only at hrun
  split at hrun
  case isTrue =>
    obtain ⟨-, rfl⟩ := Prod.mk.inj (Except.ok.inj hrun)
    rfl
  case isFalse =>
    rw [if_neg fun hc => h hc.1, if_neg (by simp)] at hrun
    obtain ⟨-, rfl⟩ := Prod.mk.inj (Except.ok.inj hrun)
    rfl

theorem setValue_negative (h : query S t k = 1) :
    setValue S t (k, 0) = changeToNegative S t (k, 0) := by
  rw [setValue, h]
  rfl

theorem Consistent.frame_lost (h : Consistent S t) (hq : query S t k = 1)
    (hself : lookup S (lowered S t k) k = false) : ¬ FrameKept S t k false := by
  have hl := lookup_of_query hq
  obtain ⟨hv, helem, -, -, -⟩ := lowered_spec h.valid hl
  have hmem := (lookup_iff h.valid k).mp hl
  rw [h.contents, Multiset.mem_map] at hmem
  obtain ⟨p, hp, hpk⟩ := hmem
  have hpP : p ∈ t.PK := hp
  obtain ⟨t₂, flipped₁, h₁, hlog₁, hs₁, hd₁⟩ := demoteLoop_spec (S := S) (t := lowered S t k)
    (position_pair S (lowered S t k) k).1 [] []
    ((lowered S t k).FPK_table (position_pair S (lowered S t k) k).1) h.othello
  obtain ⟨t₃, flipped₂, h₂, hlog₂, hs₂, hd₂⟩ := demoteLoop_spec (S := S) (t := t₂)
    (position_pair S (lowered S t k) k).2 flipped₁ []
    (t₂.FPK_table (position_pair S (lowered S t k) k).2) hd₁.othello
  have hs := hs₁.trans hs₂
  obtain ⟨st, flips, -, herase, -⟩ :=
    (represents_entries hd₂.othello).erase (plain S) hd₂.othello k flipped₂
  obtain ⟨hlog₃, -, -⟩ := erase_on_demand_ok (plain S) hd₂.othello herase
  have hl₃ : lookup S t₃ k = false := by rw [hs.lookup, hself]
  have hrun : setValue S t (k, false.toNat) = .ok (flipped₂ ++ flips, { t₃ with
      TNK_table := record t₃.TNK_table (position_pair S (lowered S t k) k) k, othello := st }) := by
    rw [Bool.toNat_false, setValue_negative hq, changeToNegative_eq, demote, h₁, ok_bind, demote,
      h₂, ok_bind, lastNegative, if_neg (by simp [hl₃]), herase]
    rfl
  intro hframe
  have hsame := hframe _ _ hrun (not_marker h.othello ((hlog₁.trans hlog₂).trans hlog₃)) p
    (Or.inl hpP)
  have hpl : lookup S t₃ p = false := by
    have hpe : elem S (lowered S t k) p = elem S (lowered S t k) k := by rw [helem, hpk]
    rw [hs.lookup, lookup_congr hv hpe, hself]
  have hzero := query_of_not_lookup (S := S) (t := { t₃ with
    TNK_table := record t₃.TNK_table (position_pair S (lowered S t k) k) k, othello := st }) hpl
  rw [h.query_positive hpP, hzero] at hsame
  cases hsame

def relabelled (S : TrackerSetup K E) (t : Tracker K E) (k : K) (st : Othello K) : Tracker K E :=
  { lowered S t k with
    FPK_table := record t.FPK_table (position_pair S (lowered S t k) k) k, othello := st }

theorem Consistent.frame_kept_iff (h : Consistent S t) (hq : query S t k = 1)
    (hself : lookup S (lowered S t k) k = true) : FrameKept S t k false ↔
      (queryIndex S.othello t.othello k < t.othello.keyCnt →
        keyAt t.othello (queryIndex S.othello t.othello k) ∉ t.PK) := by
  have hl := lookup_of_query hq
  have hlook : ∀ st j, lookup S (relabelled S t k st) j = lookup S t j :=
    fun st => lowered_lookup h.valid hl hself
  have hrun : setValue S t (k, false.toNat) =
      valueFlip_on_demand S.othello t.othello (k, 0) [] >>= fun r =>
        .ok (r.2, relabelled S t k r.1) := by
    rw [Bool.toNat_false, setValue_negative hq, Consistent.changeToNegative_kept h hl hself,
      lastNegative, if_pos hself]
    rfl
  constructor
  · intro hframe hi hpos
    obtain ⟨x, st, flips, hup, -⟩ := h.othello.update_spec (plain S) hi 0 []
    have hflip : valueFlip_on_demand S.othello t.othello (k, 0) [] = .ok (st, [] ++ flips) := by
      rw [valueFlip_on_demand, hup]
      rfl
    obtain ⟨-, hlog, hinv, hrep⟩ := valueFlip_on_demand_at (plain S) h.othello hflip
    rw [hflip] at hrun
    have hsame := hframe _ _ hrun (not_marker h.othello hlog) _ (Or.inl hpos)
    have hzero := query_of_stored (t := relabelled S t k st) hinv (hrep _ h.map)
      ((hlook st _).trans (h.lookup_of_mem hpos)) (Function.update_self ..)
    rw [h.query_positive hpos, hzero] at hsame
    cases hsame
  · intro hindex flipped t' hset _ j hj
    rw [hrun] at hset
    obtain ⟨⟨st, flips⟩, hflip, hset⟩ := of_bind_ok hset
    obtain ⟨-, rfl⟩ := Prod.mk.inj (Except.ok.inj hset)
    obtain ⟨hi, -, hinv, hrep⟩ := valueFlip_on_demand_at (plain S) h.othello hflip
    have hmap := hrep _ h.map
    rw [Consistent.keyAt_zero h hi (hindex hi)] at hmap
    rcases hj with hj | hj
    · rw [h.query_positive hj]
      exact query_of_stored hinv hmap ((hlook st j).trans (h.lookup_of_mem hj)) (if_pos hj)
    · have hjP : j ∉ t.PK := Finset.disjoint_right.mp h.disjoint hj
      rw [h.query_negative hj]
      cases hjl : lookup S t j with
      | true =>
        exact query_of_stored hinv hmap ((hlook st j).trans hjl)
          ((if_neg hjP).trans (if_pos ⟨hj, hjl⟩))
      | false => exact query_of_not_lookup ((hlook st j).trans hjl)

/-- Exactly when changing a key that is not registered leaves the others alone. -/
theorem reached_frame_iff {reg : K → Option Bool} (h : Reached S t reg) (hP : k ∉ t.PK)
    (hN : k ∉ t.NK) (b : Bool) : FrameKept S t k b ↔ Harmless S t k b := by
  obtain ⟨hc, -⟩ := h.consistent
  cases b with
  | true => exact iff_of_true (Consistent.frame_true hc hP hN) (Or.inl rfl)
  | false =>
    by_cases hq : query S t k = 1
    · have hcard := Consistent.lowered_lookup_self hc (lookup_of_query hq)
      have hharm : Harmless S t k false ↔ lookup S (lowered S t k) k = true ∧
          (queryIndex S.othello t.othello k < t.othello.keyCnt →
            keyAt t.othello (queryIndex S.othello t.othello k) ∉ t.PK) := by
        rw [Harmless, hcard, or_iff_right (by simp), or_iff_right (not_not.mpr hq)]
      rw [hharm]
      cases hself : lookup S (lowered S t k) k with
      | true =>
        rw [Consistent.frame_kept_iff hc hq hself, and_iff_right rfl]
      | false =>
        exact iff_of_false (Consistent.frame_lost hc hq hself) fun hh => by simp at hh
    · exact iff_of_true (frame_unchanged hq) (Or.inr (Or.inl hq))

def disturbs (t : Tracker ℕ ℕ) : Bool :=
  query smallTracker t 77 == 1 &&
    match setValue smallTracker t (77, 0) with
    | .ok (flipped, t') => flipped != rebuildMarker && query smallTracker t' 1 == 0
    | .error _ => false

theorem startRun_facts : startRun.map disturbs = some true := by decide +kernel

theorem startRun_unregistered : ∃ t, Reached smallTracker t startReg ∧ disturbs t = true ∧
    1 ∈ t.PK ∧ 77 ∉ t.PK ∧ 77 ∉ t.NK := by
  obtain ⟨t, hrun, hdisturbs⟩ := Option.map_eq_some_iff.mp startRun_facts
  have hstart := startRun_reached hrun
  obtain ⟨-, hreg⟩ := hstart.consistent
  refine ⟨t, hstart, hdisturbs, (hreg.PK 1).mpr rfl, fun h => ?_, fun h => ?_⟩
  · simpa [startReg] using (hreg.PK 77).mp h
  · simpa [startReg] using (hreg.NK 77).mp h

theorem reached_frame_iff_seventy_seven : ∃ t, Reached smallTracker t startReg ∧
    (FrameKept smallTracker t 77 false ↔ Harmless smallTracker t 77 false) ∧
    FrameKept smallTracker t 77 true := by
  obtain ⟨t, h, -, -, hP, hN⟩ := startRun_unregistered
  exact ⟨t, h, reached_frame_iff h hP hN false, (reached_frame_iff h hP hN true).mpr (Or.inl rfl)⟩

/-- 77 was never registered and has the filter element of 1: setting it to 0 unsets 1. -/
theorem unregistered_disturbs : ∃ t, Reached smallTracker t startReg ∧
    (77 ∉ t.PK ∧ 77 ∉ t.NK) ∧ 1 ∈ t.PK ∧ ¬ FrameKept smallTracker t 77 false := by
  obtain ⟨t, h, hdisturbs, hP, hk⟩ := startRun_unregistered
  refine ⟨t, h, hk, hP, fun hframe => ?_⟩
  rw [disturbs, Bool.and_eq_true] at hdisturbs
  obtain ⟨-, hset⟩ := hdisturbs
  split at hset
  case h_1 flipped t' hrun =>
    rw [Bool.and_eq_true, bne_iff_ne, beq_iff_eq] at hset
    have hsame := hframe flipped t' hrun hset.1 1 (Or.inl hP)
    rw [hset.2, h.consistent.1.query_positive hP] at hsame
    cases hsame
  case h_2 => cases hset

end TrackerFrame
