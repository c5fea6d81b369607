import TinyCR.TrackerRun

/-! # `DASS_Tracker::erase`

A positive key goes out of the filter, and negative keys that were false positives through it
have to change tables; the loop that moves them asks the Othello to erase the wrong one. A
negative key goes out of `FPK_table` only. -/
namespace TrackerErase

open ControlPlaneOthello OthelloInvariant OthelloRun VacuumFilter DASSTracker TrackerInvariant
  TrackerRun

variable {K E : Type} [DecidableEq K] [Inhabited K] {S : TrackerSetup K E} {t t' : Tracker K E}
  {k : K}

/-- `k` is gone, nothing is left of it, and every other key is answered as before. -/
structure Erased (S : TrackerSetup K E) (t : Tracker K E) (k : K) (t' : Tracker K E) : Prop where
  positive : t'.PK = t.PK.erase k
  negative : t'.NK = t.NK.erase k
  query_positive : ∀ j ∈ t'.PK, query S t' j = 1
  query_negative : ∀ j ∈ t'.NK, query S t' j = 0
  tables : ∀ pos, k ∉ t'.TNK_table pos ∧ k ∉ t'.FPK_table pos
  othello : isMember S.othello t'.othello k = false
  fresh : ∀ (b : Bool) flipped t'', DASSTracker.insert S t' (k, b.toNat) = .ok (flipped, t'') →
    flipped ≠ rebuildMarker → query S t'' k = b.toNat ∧
      (∀ j ∈ t'.PK, query S t'' j = 1) ∧ ∀ j ∈ t'.NK, query S t'' j = 0

def ErasedExactly (S : TrackerSetup K E) (t : Tracker K E) (k : K) : Prop :=
  ∃ t', DASSTracker.erase S t k = .ok t' ∧ Erased S t k t'

/-- No negative key is a false positive through `k` alone, if `k` is positive; `k` is a false
positive, if it is negative. -/
structure Erasable (S : TrackerSetup K E) (t : Tracker K E) (k : K) : Prop where
  shared : k ∈ t.PK → ∀ j ∈ t.NK, elem S t j = elem S t k →
    ∃ p ∈ t.PK, p ≠ k ∧ elem S t p = elem S t k
  listed : k ∈ t.NK → lookup S t k = true

theorem Consistent.erased (h : Consistent S t') (hPK : t'.PK = t.PK.erase k)
    (hNK : t'.NK = t.NK.erase k) : Erased S t k t' := by
  have hP : k ∉ t'.PK := hPK ▸ Finset.notMem_erase k t.PK
  have hN : k ∉ t'.NK := hNK ▸ Finset.notMem_erase k t.NK
  refine ⟨hPK, hNK, fun j => h.query_positive, fun j => h.query_negative, fun pos => ⟨?_, ?_⟩,
    (h.map.not_member_iff h.othello k).mpr (answers_fresh hP hN), fun b flipped t'' hins hne => ?_⟩
  · exact fun hmem => hN (((h.tnk pos).2 k).mp hmem).1.1
  · exact fun hmem => hN (((h.fpk pos).2 k).mp hmem).1.1
  · obtain ⟨hPK', hNK', hc⟩ := h.insert_ok hP hN hins
    have hc := hc hne
    cases b with
    | true =>
      rw [if_pos rfl] at hPK' hNK'
      refine ⟨hc.query_positive (hPK' ▸ Finset.mem_insert_self k _), fun j hj => ?_, fun j hj => ?_⟩
      · exact hc.query_positive (hPK' ▸ Finset.mem_insert_of_mem hj)
      · exact hc.query_negative (hNK' ▸ hj)
    | false =>
      simp only [Bool.false_eq_true, if_false] at hPK' hNK'
      refine ⟨hc.query_negative (hNK' ▸ Finset.mem_insert_self k _), fun j hj => ?_, fun j hj => ?_⟩
      · exact hc.query_positive (hPK' ▸ hj)
      · exact hc.query_negative (hNK' ▸ Finset.mem_insert_of_mem hj)

theorem eraseLoop_kept (pos : ℕ) (kept rest : List K) (h : ∀ j ∈ rest, lookup S t j = true) :
    eraseLoop S t pos kept rest =
      .ok { t with FPK_table := Function.update t.FPK_table pos (kept ++ rest) } := by
  have hstep : ∀ kept j rest, lookup S t j = true →
      eraseLoop S t pos kept (j :: rest) = eraseLoop S t pos (kept ++ [j]) rest := by
    intro kept j rest hj
    rw [eraseLoop, if_pos hj]
  rw [keeps_all (eraseLoop S t pos) hstep kept rest h, eraseLoop]

def removed (S : TrackerSetup K E) (t : Tracker K E) (k : K) : Tracker K E :=
  { t with PK := t.PK.erase k, vf := (del S.hash t.vf (S.ele k)).2 }

theorem erase_positive_eq (h : query S t k = 1) : DASSTracker.erase S t k =
    eraseLoop S (removed S t k) (position_pair S (removed S t k) k).1 []
        ((removed S t k).FPK_table (position_pair S (removed S t k) k).1) >>= fun t₁ =>
      eraseLoop S t₁ (position_pair S (removed S t k) k).2 []
          (t₁.FPK_table (position_pair S (removed S t k) k).2) >>= fun t₂ =>
        ControlPlaneOthello.erase S.othello t₂.othello k >>= fun othello =>
          .ok { t₂ with othello := othello } := by
  rw [DASSTracker.erase, if_pos h]
  rfl

theorem erase_negative_eq (h : query S t k = 0) : DASSTracker.erase S t k =
    if lookup S t k then
      ControlPlaneOthello.erase S.othello t.othello k >>= fun othello =>
        .ok { t with
          NK := t.NK.erase k
          FPK_table := unrecord t.FPK_table (position_pair S t k) k, othello := othello }
    else .ok { t with NK := t.NK.erase k } := by
  rw [DASSTracker.erase, if_neg (by simp [h])]
  rfl

theorem Consistent.removed_lookup (h : Consistent S t) (hk : k ∈ t.PK)
    (hshared : ∀ j ∈ t.NK, elem S t j = elem S t k → ∃ p ∈ t.PK, p ≠ k ∧ elem S t p = elem S t k)
    {j : K} (hj : j ∈ t.NK) : lookup S (removed S t k) j = lookup S t j := by
  obtain ⟨hv, helem, -, hc, hnewer⟩ := h.lower hk
  rw [Bool.eq_iff_iff]
  refine ⟨fun hl => (hnewer j).mpr (Or.inl hl), fun hl => ?_⟩
  rcases (hnewer j).mp hl with hl | heq
  · exact hl
  · obtain ⟨p, hp, hpk, hpe⟩ := hshared j hj heq
    have hmem : elem S (lowered S t k) j ∈ VacuumFilter.contents S.hash (lowered S t k).vf := by
      rw [hc, helem, heq, ← hpe]
      exact Multiset.mem_map_of_mem _ (Finset.mem_erase.mpr ⟨hpk, hp⟩)
    exact (lookup_iff hv j).mpr hmem

theorem Consistent.erase_positive (h : Consistent S t) (hk : k ∈ t.PK)
    (hshared : ∀ j ∈ t.NK, elem S t j = elem S t k → ∃ p ∈ t.PK, p ≠ k ∧ elem S t p = elem S t k) :
    ErasedExactly S t k := by
  obtain ⟨hv, helem, hpair, hc, -⟩ := h.lower hk
  have hP : k ∉ (removed S t k).PK := Finset.notMem_erase k t.PK
  have hN : k ∉ t.NK := Finset.disjoint_left.mp h.disjoint hk
  have hlook : ∀ j ∈ t.NK, lookup S (removed S t k) j = lookup S t j :=
    fun j => Consistent.removed_lookup h hk hshared
  have hloop : ∀ pos, eraseLoop S (removed S t k) pos [] ((removed S t k).FPK_table pos) =
      .ok (removed S t k) := by
    intro pos
    have hstay : ∀ j ∈ (removed S t k).FPK_table pos, lookup S (removed S t k) j = true := by
      intro j hj
      obtain ⟨⟨hjN, hjl⟩, -⟩ := ((h.fpk pos).2 j).mp hj
      rw [hlook j hjN]
      exact hjl
    rw [eraseLoop_kept pos [] _ hstay, List.nil_append, Function.update_eq_self]
  obtain ⟨st, flips, herase, -, hinv, hrep, -⟩ := h.map.erase (plain S) h.othello k []
  have hrun : DASSTracker.erase S t k = .ok { removed S t k with othello := st } := by
    rw [erase_positive_eq (h.query_positive hk), hloop, ok_bind, hloop, ok_bind]
    exact congrArg (· >>= _) herase
  refine ⟨_, hrun, Consistent.erased ?_ rfl (Finset.erase_eq_of_notMem hN).symm⟩
  have hans : Function.update (answers S t) k none = answers S (removed S t k) := by
    funext q
    by_cases hq : q = k
    · rw [hq, Function.update_self, answers_fresh hP hN]
    · have hmem : q ∈ (removed S t k).PK ↔ q ∈ t.PK :=
        Finset.mem_erase.trans (and_iff_right hq)
      have hfalse : (q ∈ (removed S t k).NK ∧ lookup S (removed S t k) q = true) ↔
          q ∈ t.NK ∧ lookup S t q = true := and_congr_right fun hqN => by rw [hlook q hqN]
      rw [Function.update_of_ne hq, answers, answers]
      simp only [hmem, hfalse]
  have hpair' : position_pair S { removed S t k with othello := st } = position_pair S t := hpair
  refine ⟨hv, ?_, h.disjoint.mono_left (Finset.erase_subset k _), hinv, hans ▸ hrep, ?_, ?_⟩
  · exact hc.trans (congrArg (fun f => (t.PK.erase k).val.map f) helem.symm)
  · rw [hpair']
    exact h.tnk.congr fun q => and_congr_right fun hq => by rw [← hlook q hq]; rfl
  · rw [hpair']
    exact h.fpk.congr fun q => and_congr_right fun hq => by rw [← hlook q hq]; rfl

theorem Consistent.erase_negative (h : Consistent S t) (hk : k ∈ t.NK)
    (hl : lookup S t k = true) : ErasedExactly S t k := by
  have hP : k ∉ t.PK := Finset.disjoint_right.mp h.disjoint hk
  obtain ⟨st, flips, herase, -, hinv, hrep, -⟩ := h.map.erase (plain S) h.othello k []
  have hrun : DASSTracker.erase S t k = .ok { t with
      NK := t.NK.erase k
      FPK_table := unrecord t.FPK_table (position_pair S t k) k, othello := st } := by
    rw [erase_negative_eq (h.query_negative hk), if_pos hl, herase]
    rfl
  refine ⟨_, hrun, Consistent.erased ?_ (Finset.erase_eq_of_notMem hP).symm rfl⟩
  have hans : Function.update (answers S t) k none = answers S { t with
      NK := t.NK.erase k
      FPK_table := unrecord t.FPK_table (position_pair S t k) k, othello := st } := by
    funext q
    by_cases hq : q = k
    · rw [hq, Function.update_self]
      exact (answers_fresh (t := { t with NK := t.NK.erase k, FPK_table := _, othello := st }) hP
        (Finset.notMem_erase k t.NK)).symm
    · rw [Function.update_of_ne hq, answers, answers]
      simp only [Finset.mem_erase, and_iff_right hq]
      rfl
  refine ⟨h.valid, h.contents, h.disjoint.mono_right (Finset.erase_subset k _), hinv,
    hans ▸ hrep, h.tnk.congr fun q => ?_, h.fpk.unrecord.congr fun q => ?_⟩
  · constructor
    · exact fun hq => ⟨Finset.mem_of_mem_erase hq.1, hq.2⟩
    · rintro ⟨hq, hql⟩
      refine ⟨Finset.mem_erase.mpr ⟨fun heq => ?_, hq⟩, hql⟩
      rw [heq, hl] at hql
      cases hql
  · constructor
    · exact fun hq => ⟨⟨Finset.mem_of_mem_erase hq.1, hq.2⟩, Finset.ne_of_mem_erase hq.1⟩
    · exact fun hq => ⟨Finset.mem_erase.mpr ⟨hq.2, hq.1.1⟩, hq.1.2⟩

theorem Consistent.not_erased (h : Consistent S t) (hk : k ∈ t.NK)
    (hl : lookup S t k = false) : ¬ ErasedExactly S t k := by
  rintro ⟨t', hrun, he⟩
  rw [erase_negative_eq (h.query_negative hk), if_neg (by simp [hl])] at hrun
  obtain rfl := Except.ok.inj hrun
  refine (he.tables (position_pair S t k).1).1 ?_
  exact ((h.tnk _).2 k).mpr ⟨⟨hk, hl⟩, Or.inl rfl⟩

/-- In every reachable state `erase` removes the keys it can remove. -/
theorem reached_erases_exactly {reg : K → Option Bool} (h : Reached S t reg)
    (hk : k ∈ t.PK ∨ k ∈ t.NK) : (Erasable S t k → ErasedExactly S t k) ∧
      (k ∈ t.NK → ErasedExactly S t k → Erasable S t k) := by
  obtain ⟨hc, -⟩ := h.consistent
  refine ⟨fun he => ?_, fun hN hex => ⟨fun hP => ?_, fun _ => ?_⟩⟩
  · rcases hk with hP | hN
    · exact Consistent.erase_positive hc hP (he.shared hP)
    · exact Consistent.erase_negative hc hN (he.listed hN)
  · exact absurd hN (Finset.disjoint_left.mp hc.disjoint hP)
  · by_contra hl
    exact Consistent.not_erased hc hN (Bool.not_eq_true _ ▸ hl) hex

def runsOut : Except Fault (Tracker ℕ ℕ) → Bool
  | .error .outOfBounds => true
  | _ => false

theorem startRun_facts : startRun.map (fun t => (runsOut (DASSTracker.erase smallTracker t 1),
    lookup smallTracker t 5, lookup smallTracker t 18,
    decide (elem smallTracker t 5 = elem smallTracker t 2 ∨
      elem smallTracker t 18 = elem smallTracker t 2))) = some (true, false, true, false) := by
  decide +kernel

theorem startRun_erasing : ∃ t, Reached smallTracker t startReg ∧ 1 ∈ t.PK ∧ 5 ∈ t.NK ∧
    18 ∈ t.NK ∧ runsOut (DASSTracker.erase smallTracker t 1) = true ∧
    lookup smallTracker t 5 = false ∧ lookup smallTracker t 18 = true ∧
    ¬ (elem smallTracker t 5 = elem smallTracker t 2 ∨
      elem smallTracker t 18 = elem smallTracker t 2) := by
  obtain ⟨t, hrun, hfacts⟩ := Option.map_eq_some_iff.mp startRun_facts
  simp only [Prod.mk.injEq, decide_eq_false_iff_not] at hfacts
  have hstart := startRun_reached hrun
  obtain ⟨-, hreg⟩ := hstart.consistent
  exact ⟨t, hstart, (hreg.PK 1).mpr rfl, (hreg.NK 5).mpr rfl, (hreg.NK 18).mpr rfl, hfacts⟩

theorem reached_erases_exactly_eighteen : ∃ t, Reached smallTracker t startReg ∧
    (2 ∈ t.PK ∧ ErasedExactly smallTracker t 2) ∧ 18 ∈ t.NK ∧ ErasedExactly smallTracker t 18 := by
  obtain ⟨t, h, -, -, hN, -, -, hl, hne⟩ := startRun_erasing
  obtain ⟨hc, hreg⟩ := h.consistent
  have h2 : 2 ∈ t.PK := (hreg.PK 2).mpr rfl
  have h2N : 2 ∉ t.NK := Finset.disjoint_left.mp hc.disjoint h2
  have hP : 18 ∉ t.PK := Finset.disjoint_right.mp hc.disjoint hN
  have hshared : ∀ j ∈ t.NK, elem smallTracker t j = elem smallTracker t 2 →
      ∃ p ∈ t.PK, p ≠ 2 ∧ elem smallTracker t p = elem smallTracker t 2 := by
    intro j hj heq
    have hin : j = 5 ∨ j = 18 := by
      have hfalse := (hreg.NK j).mp hj
      rw [startReg] at hfalse
      split_ifs at hfalse with _ hneg
      · cases hfalse
      · simpa using hneg
    rcases hin with rfl | rfl
    · exact absurd (Or.inl heq) hne
    · exact absurd (Or.inr heq) hne
  exact ⟨t, h, ⟨h2, (reached_erases_exactly h (Or.inl h2)).1
      ⟨fun _ => hshared, fun hc => absurd hc h2N⟩⟩,
    hN, (reached_erases_exactly h (Or.inr hN)).1 ⟨fun hc => absurd hc hP, fun _ => hl⟩⟩

/-- Erasing 1 reads past the end of a table, and erasing 5 leaves it in one. -/
theorem erase_goes_wrong : ∃ t reg, Reached smallTracker t reg ∧ 1 ∈ t.PK ∧ 5 ∈ t.NK ∧
    DASSTracker.erase smallTracker t 1 = .error .outOfBounds ∧
    ¬ ErasedExactly smallTracker t 1 ∧ ¬ ErasedExactly smallTracker t 5 := by
  obtain ⟨t, h, hP, hN, -, hout, hl, -⟩ := startRun_erasing
  have hfault : DASSTracker.erase smallTracker t 1 = .error .outOfBounds := by
    generalize DASSTracker.erase smallTracker t 1 = r at hout
    rcases r with f | t'
    · cases f <;> first | rfl | cases hout
    · cases hout
  refine ⟨t, _, h, hP, hN, hfault, ?_, Consistent.not_erased h.consistent.1 hN hl⟩
  rintro ⟨t', hrun, -⟩
  rw [hfault] at hrun
  cases hrun

end TrackerErase
