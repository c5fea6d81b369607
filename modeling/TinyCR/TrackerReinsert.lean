import TinyCR.TrackerCounts
import TinyCR.TrackerOnward

/-! # `insert` of a key that is registered

The server's add command does not look whether the key is registered, and neither does `insert`. A
positive key's second fingerprint takes no negative key along, so that the Othello is asked for a
key it has; only a filter without room for the fingerprint stops before that. A negative key
ends in both sets, in the Othello twice, or twice in a table. -/
namespace TrackerReinsert

open ControlPlaneOthello OthelloInvariant OthelloRun VacuumFilter DASSTracker TrackerInvariant
  TrackerRun TrackerFrame TrackerOnward

variable {K E : Type} [DecidableEq K] [Inhabited K] {S : TrackerSetup K E} {t t' : Tracker K E}
  {k : K} {b : Bool}

structure Once (t : Tracker K E) (k : K) (b : Bool) : Prop where
  positive : k ∈ t.PK ↔ b = true
  negative : k ∈ t.NK ↔ b = false
  tables : ∀ pos, (t.TNK_table pos ++ t.FPK_table pos).count k ≤ 1

/-- The tracker `t'` has the key with its new value, can give it the other one later, and answers
the other keys of `t` as `t` did. -/
structure Replaced (S : TrackerSetup K E) (t : Tracker K E) (k : K) (b : Bool)
    (t' : Tracker K E) : Prop where
  once : Once t' k b
  query : DASSTracker.query S t' k = b.toNat
  changes : ∀ t₁, Onward S k t' t₁ → ∃ r, setValue S t₁ (k, (!b).toNat) = .ok r ∧
    ∀ t₂, Settled S r t₂ → DASSTracker.query S t₂ k = (!b).toNat
  others : ∀ j, j ∈ t.PK ∨ j ∈ t.NK → j ≠ k → DASSTracker.query S t' j = DASSTracker.query S t j

/-- `insert` returns with the key in the set of its value only, and what is settled then has the
key's value replaced. -/
def Reinserts (S : TrackerSetup K E) (t : Tracker K E) (k : K) (b : Bool) : Prop :=
  ∃ r, DASSTracker.insert S t (k, b.toNat) = .ok r ∧ (k ∈ r.2.PK ↔ b = true) ∧
    (k ∈ r.2.NK ↔ b = false) ∧ ∀ t', Settled S r t' → Replaced S t k b t'

theorem promoteLoop_kept (check : Bool) (pos : ℕ) (flipped : List ℕ) (kept rest : List K)
    (h : ∀ j ∈ rest, lookup S t j = false) : promoteLoop S check t pos flipped kept rest =
      .ok (true, { t with TNK_table := Function.update t.TNK_table pos (kept ++ rest) },
        flipped) := by
  have hstep : ∀ kept j rest, lookup S t j = false →
      promoteLoop S check t pos flipped kept (j :: rest) =
        promoteLoop S check t pos flipped (kept ++ [j]) rest := by
    intro kept j rest hj
    rw [promoteLoop, if_neg (by simp [hj])]
  rw [keeps_all (promoteLoop S check t pos flipped) hstep kept rest h, promoteLoop]

theorem promoteBoth_kept (h : ∀ pos, ∀ j ∈ t.TNK_table pos, lookup S t j = false)
    (pos_pair : ℕ × ℕ) : promoteBoth S t pos_pair = .ok (some [], t) := by
  have hone : ∀ check pos, promote S check t pos [] = .ok (true, t, []) := by
    intro check pos
    rw [promote, promoteLoop_kept check pos [] [] _ (h pos), List.nil_append,
      Function.update_eq_self]
  rw [promoteBoth, hone, ok_bind]
  simp only [Bool.not_true, Bool.false_eq_true, if_false, hone, ok_bind]
  rfl

theorem Consistent.filled_lookup (h : Consistent S t) (hk : k ∈ t.PK)
    (hok : (VacuumFilter.insert S.hash S.engine t.vf (S.ele k)).1 ≠ 1) (j : K) :
    lookup S (filled S t k) j = lookup S t j := by
  have hland := insert_spec S.engine h.valid (S.ele k)
  have hv : Valid S.hash (filled S t k).vf := hland.valid
  have hc : contents S.hash (filled S t k).vf = contents S.hash t.vf + {elem S t k} := by
    rcases hland.result with ⟨-, hc⟩ | ⟨hfull, -⟩
    · exact hc
    · exact absurd hfull hok
  have helem : elem S (filled S t k) = elem S t := (elem_of_shape hland.shape).1
  rw [Bool.eq_iff_iff, lookup_iff hv, lookup_iff h.valid, helem, hc, Multiset.mem_add,
    Multiset.mem_singleton]
  refine or_iff_left_of_imp fun heq => ?_
  rw [heq]
  exact (lookup_iff h.valid k).mp (h.lookup_of_mem hk)

theorem finishInsert_member (kv : K × ℕ) (h : isMember S.othello t.othello kv.1 = true)
    (flipped : List ℕ) : finishInsert S t kv flipped = .error .assertion := by
  rw [finishInsert, insert_on_demand, if_pos h]
  rfl

theorem Consistent.isMember_iff (h : Consistent S t) (k : K) :
    isMember S.othello t.othello k = true ↔ k ∈ t.PK ∨ (k ∈ t.NK ∧ lookup S t k = true) := by
  rw [h.map.member_iff h.othello, answers]
  split_ifs with hP hN
  · exact iff_of_true rfl (Or.inl hP)
  · exact iff_of_true rfl (Or.inr hN)
  · exact iff_of_false (by simp) (not_or.mpr ⟨hP, hN⟩)

theorem Consistent.reinsert_asserts (h : Consistent S t) (hk : k ∈ t.PK)
    (hok : (VacuumFilter.insert S.hash S.engine t.vf (S.ele k)).1 ≠ 1) :
    DASSTracker.insert S t (k, 1) = .error .assertion := by
  have hsame : { t with PK := Insert.insert k t.PK } = t := by rw [Finset.insert_eq_of_mem hk]
  have hstay : ∀ pos, ∀ j ∈ (filled S t k).TNK_table pos, lookup S (filled S t k) j = false := by
    intro pos j hj
    rw [Consistent.filled_lookup h hk hok]
    exact (((h.tnk pos).2 j).mp hj).1.2
  have hmem : isMember S.othello (filled S t k).othello k = true :=
    (Consistent.isMember_iff h k).mpr (Or.inl hk)
  have hboth := promoteBoth_kept hstay (position_pair S (filled S t k) k)
  rw [insert_positive_eq, hsame, raising]
  simp only [if_neg hok]
  rw [filled] at hboth hmem
  rw [hboth, ok_bind]
  dsimp only
  have hlast := finishInsert_member (k, 1) hmem []
  rw [hlast]

theorem raising_sets {flipped : List ℕ}
    (h : Invariant S.othello t.othello)
    (hrun : raising S t k (fun t => finishInsert S t (k, 1)) = .ok (flipped, t')) :
    t'.PK = t.PK ∧ t'.NK = t.NK := by
  rcases raising_cases hrun with ⟨-, -, rfl⟩ | ⟨-, hboth, -⟩ | ⟨-, t₁, flipped₁, hboth, hend⟩
  · exact ⟨rfl, rfl⟩
  · obtain ⟨hs, -⟩ := promoteBoth_log (t := filled S t k) h hboth
    exact ⟨hs.PK, hs.NK⟩
  · obtain ⟨hs, hlog⟩ := promoteBoth_log (t := filled S t k) h hboth
    obtain ⟨-, hinv⟩ := hlog flipped₁ rfl
    obtain ⟨st, rfl, -⟩ := finishInsert_ok hinv hend
    exact ⟨hs.PK, hs.NK⟩

theorem insert_sets {r : List ℕ × Tracker K E} (h : Invariant S.othello t.othello)
    (hrun : DASSTracker.insert S t (k, b.toNat) = .ok r) :
    r.2.PK = (if b then Insert.insert k t.PK else t.PK) ∧
      r.2.NK = (if b then t.NK else Insert.insert k t.NK) := by
  obtain ⟨flipped, t'⟩ := r
  cases b with
  | true =>
    rw [Bool.toNat_true, insert_positive_eq] at hrun
    exact raising_sets (by exact h) hrun
  | false =>
    rw [Bool.toNat_false, insert_negative_eq] at hrun
    split at hrun
    case isTrue =>
      obtain ⟨st, rfl, -⟩ := finishInsert_ok (by exact h) hrun
      exact ⟨rfl, rfl⟩
    case isFalse =>
      obtain ⟨-, rfl⟩ := Prod.mk.inj (Except.ok.inj hrun)
      exact ⟨rfl, rfl⟩

theorem Consistent.doubled (h : Consistent S t) (hN : k ∈ t.NK) (hl : lookup S t k = false) :
    ∃ t', DASSTracker.insert S t (k, 0) = .ok ([], t') ∧
      (t'.TNK_table (position_pair S t k).1).count k = 2 := by
  refine ⟨_, by rw [insert_negative_eq, if_neg (by simp [hl])], ?_⟩
  have hin : k ∈ t.TNK_table (position_pair S t k).1 :=
    ((h.tnk _).2 k).mpr ⟨⟨hN, hl⟩, Or.inl rfl⟩
  have hone := List.count_eq_one_of_mem (h.tnk (position_pair S t k).1).1 hin
  dsimp only
  rw [mem_record (positions_ne h.valid k), if_pos (Or.inl rfl), List.count_append, hone,
    List.count_singleton_self]

theorem Consistent.reinsert_negative_asserts (h : Consistent S t) (hN : k ∈ t.NK)
    (hl : lookup S t k = true) : DASSTracker.insert S t (k, 0) = .error .assertion := by
  rw [insert_negative_eq, if_pos hl]
  have hmem := (Consistent.isMember_iff h k).mpr (Or.inr ⟨hN, hl⟩)
  apply finishInsert_member
  exact hmem

theorem Consistent.once_positive (h : Consistent S t) (hk : k ∈ t.PK) : Once t k true := by
  have hN : k ∉ t.NK := Finset.disjoint_left.mp h.disjoint hk
  refine ⟨iff_of_true hk rfl, iff_of_false hN (by simp), fun pos => ?_⟩
  have hout : k ∉ t.TNK_table pos ++ t.FPK_table pos := by
    rw [List.mem_append, (h.tnk pos).2, (h.fpk pos).2]
    exact fun hc => hN (hc.elim (fun hc => hc.1.1) fun hc => hc.1.1)
  rw [List.count_eq_zero_of_not_mem hout]
  exact Nat.zero_le 1

theorem Consistent.replaced (h : Consistent S t) (hk : k ∈ t.PK) (h' : Consistent S t')
    (hPK : t'.PK = t.PK) (hNK : t'.NK = t.NK) : Replaced S t k true t' where
  once := Consistent.once_positive h' (hPK ▸ hk)
  query := h'.query_positive (hPK ▸ hk)
  changes t₁ honward := by
    obtain ⟨h₁, hkeep, -⟩ := honward.consistent h'
    have hk₁ := hkeep (hPK ▸ hk)
    obtain ⟨flipped, t₂, hrun, hP, hN, hc⟩ := h₁.changeToNegative_spec hk₁
    refine ⟨(flipped, t₂), (setValue_negative (h₁.query_positive hk₁)).trans hrun, fun t₃ hs => ?_⟩
    obtain ⟨h₃, -, hN₃⟩ := Consistent.changed (b := false) h₁ hP hN (fun _ => hc) hs
    apply h₃.query_negative
    rw [hN₃]
    exact Finset.mem_insert_self k _
  others j hj _ := Consistent.keeps h h' (fun q hq => hPK ▸ hq) (fun q hq => hNK ▸ hq) hj

/-- A registered key can be added again exactly if it is positive, stays positive, and the filter
has no room for it: then the rebuild sets things right. -/
theorem reinserts_iff {reg : K → Option Bool} (h : Reached S t reg)
    (hk : k ∈ t.PK ∨ k ∈ t.NK) : Reinserts S t k b ↔ k ∈ t.PK ∧ b = true ∧
      (VacuumFilter.insert S.hash S.engine t.vf (S.ele k)).1 = 1 := by
  obtain ⟨hc, -⟩ := h.consistent
  constructor
  · rintro ⟨r, hrun, hP, hN, hsettled⟩
    obtain ⟨hPK, hNK⟩ := insert_sets hc.othello hrun
    rw [hPK] at hP
    rw [hNK] at hN
    rcases hk with hk | hk
    · cases b with
      | true =>
        refine ⟨hk, rfl, ?_⟩
        by_contra hok
        rw [Bool.toNat_true, Consistent.reinsert_asserts hc hk hok] at hrun
        cases hrun
      | false => exact absurd (hP.mp hk) (by simp)
    · cases b with
      | true => exact absurd (hN.mp hk) (by simp)
      | false =>
        rw [Bool.toNat_false] at hrun
        cases hl : lookup S t k with
        | true =>
          rw [Consistent.reinsert_negative_asserts hc hk hl] at hrun
          cases hrun
        | false =>
          obtain ⟨t', hrun', hcount⟩ := Consistent.doubled hc hk hl
          obtain rfl := Except.ok.inj (hrun'.symm.trans hrun)
          have htables := (hsettled t' (.keep (by decide))).once.tables (position_pair S t k).1
          rw [List.count_append, hcount] at htables
          omega
  · rintro ⟨hk, rfl, hfull⟩
    have hrun : DASSTracker.insert S t (k, true.toNat) = .ok (rebuildMarker,
        filled S { t with PK := Insert.insert k t.PK } k) := by
      rw [Bool.toNat_true, insert_positive_eq, raising]
      simp only [hfull, if_true]
      rfl
    have hN : k ∉ t.NK := Finset.disjoint_left.mp hc.disjoint hk
    have hPK : (filled S { t with PK := Insert.insert k t.PK } k).PK = t.PK :=
      Finset.insert_eq_of_mem hk
    have hNK : (filled S { t with PK := Insert.insert k t.PK } k).NK = t.NK := rfl
    refine ⟨_, hrun, ?_, ?_, fun t' hs => ?_⟩
    · exact iff_of_true (Finset.mem_insert_self k _) rfl
    · exact iff_of_false hN (by simp)
    · obtain ⟨hcons, hPK', hNK'⟩ := Settled.keeps hs (hPK.symm ▸ hc.disjoint)
        fun hne => absurd rfl hne
      exact Consistent.replaced hc hk hcons (hPK'.trans hPK) hNK'

def asserts : Except Fault (List ℕ × Tracker ℕ ℕ) → Bool
  | .error .assertion => true
  | _ => false

/-- Adding 1 again fires the assertion. Adding the true negative key 5 again does not, but then
adding the fresh key 22, which has the filter element of 5, does. -/
def assertsLater (t : Tracker ℕ ℕ) : Bool :=
  asserts (DASSTracker.insert smallTracker t (1, 1)) &&
    !asserts (DASSTracker.insert smallTracker t (22, 1)) &&
    match DASSTracker.insert smallTracker t (5, 0) with
    | .ok (_, t') => asserts (DASSTracker.insert smallTracker t' (22, 1))
    | .error _ => false

theorem startRun_facts : startRun.map assertsLater = some true := by decide +kernel

theorem asserts_eq {r : Except Fault (List ℕ × Tracker ℕ ℕ)} (h : asserts r = true) :
    r = .error .assertion := by
  rcases r with f | r
  · cases f <;> first | rfl | cases h
  · cases h

theorem startRun_asserts : ∃ t r, Reached smallTracker t startReg ∧ 1 ∈ t.PK ∧ 5 ∈ t.NK ∧
    DASSTracker.insert smallTracker t (1, 1) = .error .assertion ∧
    DASSTracker.insert smallTracker t (22, 1) ≠ .error .assertion ∧
    DASSTracker.insert smallTracker t (5, 0) = .ok r ∧
    DASSTracker.insert smallTracker r.2 (22, 1) = .error .assertion := by
  obtain ⟨t, hrun, hfacts⟩ := Option.map_eq_some_iff.mp startRun_facts
  have hstart := startRun_reached hrun
  obtain ⟨-, hreg⟩ := hstart.consistent
  simp only [assertsLater, Bool.and_eq_true, Bool.not_eq_true'] at hfacts
  obtain ⟨⟨h1, h22⟩, h5⟩ := hfacts
  have hfresh : DASSTracker.insert smallTracker t (22, 1) ≠ .error .assertion := by
    intro heq
    rw [heq] at h22
    cases h22
  split at h5
  case h_1 flipped t' hrun' =>
    exact ⟨t, _, hstart, (hreg.PK 1).mpr rfl, (hreg.NK 5).mpr rfl, asserts_eq h1, hfresh, hrun',
      asserts_eq h5⟩
  case h_2 => cases h5

def fullRun : Option (Tracker ℕ ℕ) :=
  started (batch_insert smallTracker 1 (DASSTracker.init smallTracker emptyTracker 8 0)
    [1, 2, 3, 4, 5, 6, 7, 8] [])

theorem fullRun_facts : fullRun.map (fun t => (t.vf.n, t.vf.filled_cell)) = some (2, 8) := by
  decide +kernel

theorem reinserts_iff_one :
    (∃ t, Reached smallTracker t startReg ∧ 5 ∈ t.NK ∧ ¬ Reinserts smallTracker t 5 false) ∧
    ∃ t reg, Reached smallTracker t reg ∧ 1 ∈ t.PK ∧ Reinserts smallTracker t 1 true := by
  constructor
  · obtain ⟨t, -, h, -, hN, -⟩ := startRun_asserts
    refine ⟨t, h, hN, fun hre => ?_⟩
    obtain ⟨-, hb, -⟩ := (reinserts_iff h (Or.inr hN)).mp hre
    cases hb
  · obtain ⟨t, hrun, hfacts⟩ := Option.map_eq_some_iff.mp fullRun_facts
    obtain ⟨hn, hcell⟩ := Prod.mk.inj hfacts
    have hfull : t.vf.filled_cell = 4 * t.vf.n := by rw [hn, hcell]; rfl
    obtain ⟨done, hbatch, hfit⟩ := started_some hrun
    have h : Reached smallTracker t fun k =>
        if k ∈ [1, 2, 3, 4, 5, 6, 7, 8] then some true else if k ∈ [] then some false else none :=
      .start (t := emptyTracker) ⟨rfl, rfl⟩ (by decide) (by decide) (by simp) (by decide)
        (by decide) hbatch hfit
    obtain ⟨hc, hreg⟩ := h.consistent
    have h1 : 1 ∈ t.PK := (hreg.PK 1).mpr (by simp)
    have hroom := TrackerCounts.insert_full smallTracker.engine hc.valid hfull (smallTracker.ele 1)
    exact ⟨t, _, h, h1, (reinserts_iff h (Or.inl h1)).mpr ⟨h1, rfl, hroom⟩⟩

/-- The positive key 1 is refused by the Othello; the negative key 5 is listed twice, which stops
a later `insert` of another key. -/
theorem reinserting_asserts : ∃ t r, Reached smallTracker t startReg ∧ 1 ∈ t.PK ∧ 5 ∈ t.NK ∧
    DASSTracker.insert smallTracker t (1, 1) = .error .assertion ∧
    ¬ Reinserts smallTracker t 1 true ∧
    DASSTracker.insert smallTracker t (22, 1) ≠ .error .assertion ∧
    DASSTracker.insert smallTracker t (5, 0) = .ok r ∧
    DASSTracker.insert smallTracker r.2 (22, 1) = .error .assertion := by
  obtain ⟨t, r, h, hP, hN, h1, h22, h5, hlater⟩ := startRun_asserts
  refine ⟨t, r, h, hP, hN, h1, ?_, h22, h5, hlater⟩
  rintro ⟨r', hrun, -⟩
  rw [Bool.toNat_true, h1] at hrun
  cases hrun

end TrackerReinsert
