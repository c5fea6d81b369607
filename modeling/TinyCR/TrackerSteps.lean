import TinyCR.TrackerInvariant

/-! # The operations of `DASS_Tracker` keep its invariant

`insert` and `setValue` move the keys whose filter answer changes between the tables and
the Othello, unless they ask for a rebuild; `batch_insert` builds everything anew. -/
namespace TrackerInvariant

open PackedCells ControlPlaneOthello DataPlaneOthello OthelloInvariant OthelloRun VacuumFilter
  DASSTracker

variable {K E : Type} [DecidableEq K] [Inhabited K] {S : TrackerSetup K E} {t t' : Tracker K E}
  {k : K} {flipped : List ℕ} {m : K → Option ℕ} {look : K → Bool}

/-- The tracker is consistent but for the key `k`, whose Othello entry is that of `m`. -/
structure Without (S : TrackerSetup K E) (t : Tracker K E) (k : K) (m : K → Option ℕ) :
    Prop where
  valid : Valid S.hash t.vf
  contents : VacuumFilter.contents S.hash t.vf = (t.PK.erase k).val.map (elem S t)
  disjoint : Disjoint t.PK t.NK
  othello : Invariant S.othello t.othello
  map : Represents t.othello m
  old : ∀ q, q ≠ k → m q = answers S t q
  tnk : Tabled t.TNK_table (position_pair S t) fun q =>
    (q ∈ t.NK ∧ lookup S t q = false) ∧ q ≠ k
  fpk : Tabled t.FPK_table (position_pair S t) fun q =>
    (q ∈ t.NK ∧ lookup S t q = true) ∧ q ≠ k

omit [DecidableEq K] [Inhabited K] in
theorem elem_of_shape {vf : VacuumFilter.Filter E} (hs : SameShape t.vf vf) :
    elem S { t with vf := vf } = elem S t ∧
      position_pair S { t with vf := vf } = position_pair S t := by
  constructor
  · funext q
    exact congrFun hs.element (S.ele q)
  · funext q
    exact congrFun hs.positionPair (S.ele q)

theorem Consistent.without_positive (h : Consistent S t) (hP : k ∉ t.PK) (hN : k ∉ t.NK) :
    Without S { t with PK := Insert.insert k t.PK } k (answers S t) where
  valid := h.valid
  contents := by
    rw [h.contents, Finset.erase_insert hP]
    rfl
  disjoint := Finset.disjoint_insert_left.mpr ⟨hN, h.disjoint⟩
  othello := h.othello
  map := h.map
  old q hq := by
    rw [answers, answers]
    simp only [Finset.mem_insert, or_iff_right hq]
    rfl
  tnk := h.tnk.congr fun q => and_iff_left_of_imp fun hq heq => hN (heq ▸ hq.1)
  fpk := h.fpk.congr fun q => and_iff_left_of_imp fun hq heq => hN (heq ▸ hq.1)

theorem Consistent.without_negative (h : Consistent S t) (hP : k ∉ t.PK) (hN : k ∉ t.NK) :
    Without S { t with NK := Insert.insert k t.NK } k (answers S t) where
  valid := h.valid
  contents := by
    rw [h.contents, Finset.erase_eq_of_notMem hP]
    rfl
  disjoint := Finset.disjoint_insert_right.mpr ⟨hP, h.disjoint⟩
  othello := h.othello
  map := h.map
  old q hq := by
    rw [answers, answers]
    simp only [Finset.mem_insert, or_iff_right hq]
    rfl
  tnk := h.tnk.congr fun q => by
    have hne : q ∈ t.NK → q ≠ k := fun hq heq => hN (heq ▸ hq)
    simp only [Finset.mem_insert]
    tauto
  fpk := h.fpk.congr fun q => by
    have hne : q ∈ t.NK → q ≠ k := fun hq heq => hN (heq ▸ hq)
    simp only [Finset.mem_insert]
    tauto

/-- The state in which `changeToPositive` calls `vf.insert`. -/
def withdrawn (S : TrackerSetup K E) (t : Tracker K E) (k : K) : Tracker K E :=
  let t := { t with NK := t.NK.erase k, PK := Insert.insert k t.PK }
  if lookup S t k then { t with FPK_table := unrecord t.FPK_table (position_pair S t k) k }
  else { t with TNK_table := unrecord t.TNK_table (position_pair S t k) k }

theorem Consistent.without_withdrawn (h : Consistent S t) (hP : k ∉ t.PK) :
    Without S (withdrawn S t k) k (answers S t) := by
  have hparts : (withdrawn S t k).vf = t.vf ∧ (withdrawn S t k).othello = t.othello ∧
      (withdrawn S t k).NK = t.NK.erase k ∧ (withdrawn S t k).PK = Insert.insert k t.PK := by
    rw [withdrawn]
    split <;> exact ⟨rfl, rfl, rfl, rfl⟩
  obtain ⟨hvf, hoth, hNK, hPK⟩ := hparts
  have hlook : lookup S (withdrawn S t k) = lookup S t := by
    funext q
    rw [DASSTracker.lookup, DASSTracker.lookup, hvf]
  have hpair : position_pair S (withdrawn S t k) = position_pair S t := by
    funext q
    rw [DASSTracker.position_pair, DASSTracker.position_pair, hvf]
  have helem : elem S (withdrawn S t k) = elem S t := by
    funext q
    rw [elem, elem, hvf]
  refine ⟨hvf ▸ h.valid, ?_, ?_, hoth ▸ h.othello, hoth ▸ h.map, fun q hq => ?_, ?_, ?_⟩
  · rw [hvf, hPK, helem, Finset.erase_insert hP]
    exact h.contents
  · rw [hPK, hNK]
    refine Finset.disjoint_insert_left.mpr ⟨Finset.notMem_erase k _, ?_⟩
    exact h.disjoint.mono_right (Finset.erase_subset k _)
  · rw [answers, answers, hPK, hNK, hlook]
    simp only [Finset.mem_insert, Finset.mem_erase, or_iff_right hq, and_iff_right hq]
  · rw [hpair, hlook, hNK]
    have hiff : ∀ q, ((q ∈ t.NK.erase k ∧ lookup S t q = false) ∧ q ≠ k) ↔
        (q ∈ t.NK ∧ lookup S t q = false) ∧ q ≠ k := fun q => by
      rw [Finset.mem_erase]
      tauto
    refine Tabled.congr (p := fun q => (q ∈ t.NK ∧ lookup S t q = false) ∧ q ≠ k) ?_ hiff
    rw [withdrawn]
    split
    case isTrue hl =>
      refine h.tnk.congr fun q => and_iff_left_of_imp fun hq heq => ?_
      have hl' : lookup S t k = true := hl
      rw [heq, hl'] at hq
      exact absurd hq.2 (by simp)
    case isFalse => exact h.tnk.unrecord
  · rw [hpair, hlook, hNK]
    have hiff : ∀ q, ((q ∈ t.NK.erase k ∧ lookup S t q = true) ∧ q ≠ k) ↔
        (q ∈ t.NK ∧ lookup S t q = true) ∧ q ≠ k := fun q => by
      rw [Finset.mem_erase]
      tauto
    refine Tabled.congr (p := fun q => (q ∈ t.NK ∧ lookup S t q = true) ∧ q ≠ k) ?_ hiff
    rw [withdrawn]
    split
    case isTrue => exact h.fpk.unrecord
    case isFalse hl =>
      refine h.fpk.congr fun q => and_iff_left_of_imp fun hq heq => ?_
      exact absurd (heq ▸ hq.2) hl

theorem Without.enrol_positive (h : Without S t k m) (hN : k ∈ t.NK) (hl : lookup S t k = true)
    {st : Othello K} (hst : Invariant S.othello st)
    (hm : Represents st (Function.update m k (some 0))) :
    Consistent S { t with
      FPK_table := record t.FPK_table (position_pair S t k) k, othello := st } := by
  have hP : k ∉ t.PK := Finset.disjoint_right.mp h.disjoint hN
  have hans : Function.update m k (some 0) = answers S t := by
    funext q
    by_cases hq : q = k
    · rw [hq, Function.update_self, answers, if_neg hP, if_pos ⟨hN, hl⟩]
    · rw [Function.update_of_ne hq, h.old q hq]
  refine ⟨h.valid, ?_, h.disjoint, hst, hans ▸ hm, ?_, ?_⟩
  · exact h.contents.trans (by rw [Finset.erase_eq_of_notMem hP]; rfl)
  · refine h.tnk.congr fun q => (and_iff_left_of_imp fun hq heq => ?_).symm
    have hl' : lookup S t k = false := heq ▸ hq.2
    rw [hl] at hl'
    cases hl'
  · refine (h.fpk.record (positions_ne h.valid k) fun hk => hk.2 rfl).congr fun q => ?_
    by_cases hq : q = k
    · subst hq
      exact iff_of_true ⟨hN, hl⟩ (Or.inr rfl)
    · exact ⟨fun hk => Or.inl ⟨hk, hq⟩, fun hk => (hk.resolve_right hq).1⟩

theorem Without.enrol_negative (h : Without S t k m) (hN : k ∈ t.NK) (hl : lookup S t k = false)
    {st : Othello K} (hst : Invariant S.othello st)
    (hm : Represents st (Function.update m k none)) :
    Consistent S { t with
      TNK_table := record t.TNK_table (position_pair S t k) k, othello := st } := by
  have hP : k ∉ t.PK := Finset.disjoint_right.mp h.disjoint hN
  have hans : Function.update m k none = answers S t := by
    funext q
    by_cases hq : q = k
    · rw [hq, Function.update_self, answers, if_neg hP, if_neg (by simp [hl])]
    · rw [Function.update_of_ne hq, h.old q hq]
  refine ⟨h.valid, ?_, h.disjoint, hst, hans ▸ hm, ?_, ?_⟩
  · exact h.contents.trans (by rw [Finset.erase_eq_of_notMem hP]; rfl)
  · refine (h.tnk.record (positions_ne h.valid k) fun hk => hk.2 rfl).congr fun q => ?_
    by_cases hq : q = k
    · subst hq
      exact iff_of_true ⟨hN, hl⟩ (Or.inr rfl)
    · exact ⟨fun hk => Or.inl ⟨hk, hq⟩, fun hk => (hk.resolve_right hq).1⟩
  · refine h.fpk.congr fun q => (and_iff_left_of_imp fun hq heq => ?_).symm
    have hl' : lookup S t k = true := heq ▸ hq.2
    rw [hl] at hl'
    cases hl'

theorem Without.raise (h : Without S t k m) (hP : k ∈ t.PK)
    (hok : (VacuumFilter.insert S.hash S.engine t.vf (S.ele k)).1 ≠ 1) :
    Raised S { t with vf := (VacuumFilter.insert S.hash S.engine t.vf (S.ele k)).2 } k
      (lookup S t) m := by
  have hN : k ∉ t.NK := Finset.disjoint_left.mp h.disjoint hP
  have hne : ∀ q, q ∈ t.NK → q ≠ k := fun q hq heq => hN (heq ▸ hq)
  have hland := insert_spec S.engine h.valid (S.ele k)
  generalize VacuumFilter.insert S.hash S.engine t.vf (S.ele k) = r at *
  obtain ⟨helem, hpair⟩ := elem_of_shape (S := S) hland.shape
  have hc : VacuumFilter.contents S.hash r.2 =
      VacuumFilter.contents S.hash t.vf + {elem S t k} := by
    rcases hland.result with ⟨-, hc⟩ | ⟨h1, -⟩
    · exact hc
    · exact absurd h1 hok
  refine ⟨hland.valid, ?_, h.disjoint, hP, fun q => ?_, h.othello, h.map, fun q hq => ?_, ?_, ?_⟩
  · show VacuumFilter.contents S.hash r.2 = _
    rw [hc, h.contents, helem, add_comm, Multiset.singleton_add, ← Multiset.map_cons,
      ← Finset.insert_val_of_notMem (Finset.notMem_erase k _), Finset.insert_erase hP]
  · rw [lookup_iff hland.valid, helem]
    show elem S t q ∈ VacuumFilter.contents S.hash r.2 ↔ _
    rw [hc, Multiset.mem_add, Multiset.mem_singleton, lookup_iff h.valid]
  · rw [h.old q hq]
    rfl
  · rw [hpair]
    exact h.tnk.congr fun q => ⟨fun hq => ⟨hq, hne q hq.1⟩, And.left⟩
  · rw [hpair]
    exact h.fpk.congr fun q => ⟨fun hq => ⟨hq, hne q hq.1⟩, And.left⟩

theorem Raised.finish (h : Raised S t k look m)
    (hrun : promoteBoth S t (position_pair S t k) = .ok (some flipped, t')) :
    SameKeys t t' ∧ Invariant S.othello t'.othello ∧ ∃ m', Represents t'.othello m' ∧
      m' k = m k ∧ ∀ st, Invariant S.othello st → Represents st (Function.update m' k (some 1)) →
        Consistent S { t' with othello := st } := by
  obtain ⟨hs, hinv, htnk, hfpk, m', hm', hk, hother⟩ := h.promoteBoth_ok hrun
  refine ⟨hs, hinv, m', hm', hk, fun st hst hrep => ?_⟩
  have hP : k ∈ t'.PK := hs.PK ▸ h.mem
  have hans : Function.update m' k (some 1) = answers S t' := by
    funext q
    by_cases hq : q = k
    · rw [hq, Function.update_self, answers, if_pos hP]
    · rw [Function.update_of_ne hq, hother q hq]
  refine ⟨hs.vf ▸ h.valid, ?_, ?_, hst, hans ▸ hrep, htnk, hfpk⟩
  · show VacuumFilter.contents S.hash t'.vf = t'.PK.val.map (elem S t')
    rw [hs.vf, hs.PK, hs.elem, h.contents]
  · rw [hs.PK, hs.NK]
    exact h.disjoint

/-- How an update leaves the Othello: nothing else changes, and the Othello stores `kv`
unless a rebuild is asked for. -/
structure Ended (S : TrackerSetup K E) (t : Tracker K E) (kv : K × ℕ) (flipped : List ℕ)
    (t' : Tracker K E) (flipped' : List ℕ) (st : Othello K) : Prop where
  state : t' = { t with othello := st }
  done : flipped' ≠ rebuildMarker → Invariant S.othello st ∧
    Logged S.othello t.othello flipped st flipped' ∧
    ∀ m, Represents t.othello m → Represents st (Function.update m kv.1 (some kv.2))

theorem finishInsert_ok {kv : K × ℕ} {flipped' : List ℕ} (h : Invariant S.othello t.othello)
    (hrun : finishInsert S t kv flipped = .ok (flipped', t')) :
    ∃ st, Ended S t kv flipped t' flipped' st := by
  obtain ⟨⟨done, st, flipped₁⟩, hins, hrun⟩ := of_bind_ok hrun
  obtain ⟨hlog, hdone⟩ := insert_on_demand_ok (plain S) h hins
  obtain ⟨rfl, rfl⟩ := Prod.mk.inj (Except.ok.inj hrun)
  refine ⟨st, rfl, fun hne => ?_⟩
  cases done with
  | false => exact absurd rfl hne
  | true =>
    obtain ⟨hinv, hrep⟩ := hdone rfl
    exact ⟨hinv, hlog, fun m hm => (hrep m hm).2⟩

theorem finishInsert_faults (kv : K × ℕ) (h : Invariant S.othello t.othello)
    (hnew : isMember S.othello t.othello kv.1 = false) (flipped : List ℕ) :
    (∃ r, finishInsert S t kv flipped = .ok r) ∨
      finishInsert S t kv flipped = .error .outOfBounds := by
  rcases insert_on_demand_faults (plain S) h kv hnew flipped with ⟨r, hr⟩ | hr
  · exact Or.inl ⟨_, by rw [finishInsert, hr]; rfl⟩
  · exact Or.inr (by rw [finishInsert, hr]; rfl)

def flipOrInsert (S : TrackerSetup K E) (kv : K × ℕ) (t : Tracker K E) (flipped : List ℕ) :
    Except Fault (List ℕ × Tracker K E) :=
  if isMember S.othello t.othello kv.1 then do
    let (othello, flipped) ← valueFlip_on_demand S.othello t.othello kv flipped
    return (flipped, { t with othello := othello })
  else finishInsert S t kv flipped

theorem flipOrInsert_ok {kv : K × ℕ} {flipped' : List ℕ} (h : Invariant S.othello t.othello)
    (hrun : flipOrInsert S kv t flipped = .ok (flipped', t')) :
    ∃ st, Ended S t kv flipped t' flipped' st := by
  rw [flipOrInsert] at hrun
  split at hrun
  case isTrue hmem =>
    obtain ⟨⟨st, flipped₁⟩, hflip, hrun⟩ := of_bind_ok hrun
    obtain ⟨hlog, hinv, hrep⟩ := valueFlip_on_demand_ok (plain S) h hflip
    obtain ⟨rfl, rfl⟩ := Prod.mk.inj (Except.ok.inj hrun)
    exact ⟨st, rfl, fun _ => ⟨hinv, hlog, fun m hm => hrep m hm ((hm.member_iff h _).mp hmem)⟩⟩
  case isFalse => exact finishInsert_ok h hrun

theorem flipOrInsert_faults (kv : K × ℕ) (h : Invariant S.othello t.othello)
    (flipped : List ℕ) : (∃ r, flipOrInsert S kv t flipped = .ok r) ∨
      flipOrInsert S kv t flipped = .error .outOfBounds := by
  rw [flipOrInsert]
  split
  case isTrue hmem =>
    have hm := represents_entries h
    obtain ⟨st, flips, -, hflip, -⟩ :=
      hm.valueFlip (plain S) h _ ((hm.member_iff h kv.1).mp hmem) flipped
    exact Or.inl ⟨_, by rw [hflip]; rfl⟩
  case isFalse hmem => exact finishInsert_faults _ h (Bool.not_eq_true _ ▸ hmem) flipped

/-- What `insert` and `changeToPositive` share, up to their last step. -/
def raising (S : TrackerSetup K E) (t : Tracker K E) (k : K)
    (last : Tracker K E → List ℕ → Except Fault (List ℕ × Tracker K E)) :
    Except Fault (List ℕ × Tracker K E) := do
  let (full, vf) := VacuumFilter.insert S.hash S.engine t.vf (S.ele k)
  let t := { t with vf := vf }
  if full = 1 then return (rebuildMarker, t)
  match ← promoteBoth S t (position_pair S t k) with
  | (none, t) => return (rebuildMarker, t)
  | (some flipped, t) => last t flipped

theorem insert_positive_eq (t : Tracker K E) (k : K) : DASSTracker.insert S t (k, 1) =
    raising S { t with PK := Insert.insert k t.PK } k fun t => finishInsert S t (k, 1) := rfl

theorem changeToPositive_eq (t : Tracker K E) (kv : K × ℕ) : changeToPositive S t kv =
    raising S (withdrawn S t kv.1) kv.1 (flipOrInsert S kv) := rfl

section Raising

variable {last : Tracker K E → List ℕ → Except Fault (List ℕ × Tracker K E)}

def filled (S : TrackerSetup K E) (t : Tracker K E) (k : K) : Tracker K E :=
  { t with vf := (VacuumFilter.insert S.hash S.engine t.vf (S.ele k)).2 }

theorem raising_cases (hrun : raising S t k last = .ok (flipped, t')) :
    ((VacuumFilter.insert S.hash S.engine t.vf (S.ele k)).1 = 1 ∧ flipped = rebuildMarker ∧
      t' = filled S t k) ∨
    ((VacuumFilter.insert S.hash S.engine t.vf (S.ele k)).1 ≠ 1 ∧
      promoteBoth S (filled S t k) (position_pair S (filled S t k) k) = .ok (none, t') ∧
      flipped = rebuildMarker) ∨
    ((VacuumFilter.insert S.hash S.engine t.vf (S.ele k)).1 ≠ 1 ∧
      ∃ t₁ flipped₁, promoteBoth S (filled S t k) (position_pair S (filled S t k) k) =
        .ok (some flipped₁, t₁) ∧ last t₁ flipped₁ = .ok (flipped, t')) := by
  rw [raising] at hrun
  by_cases hfull : (VacuumFilter.insert S.hash S.engine t.vf (S.ele k)).1 = 1
  · simp only [hfull, if_true] at hrun
    obtain ⟨rfl, rfl⟩ := Prod.mk.inj (Except.ok.inj hrun)
    exact Or.inl ⟨hfull, rfl, rfl⟩
  · simp only [hfull, if_false] at hrun
    obtain ⟨⟨_ | flipped₁, t₁⟩, hboth, hrun⟩ := of_bind_ok hrun
    · obtain ⟨rfl, rfl⟩ := Prod.mk.inj (Except.ok.inj hrun)
      exact Or.inr (Or.inl ⟨hfull, hboth, rfl⟩)
    · exact Or.inr (Or.inr ⟨hfull, t₁, flipped₁, hboth, hrun⟩)

theorem Without.raising_ok (h : Without S t k m) (hP : k ∈ t.PK)
    (hlast : ∀ t₁ flipped₁, Invariant S.othello t₁.othello →
      last t₁ flipped₁ = .ok (flipped, t') → ∃ st, Ended S t₁ (k, 1) flipped₁ t' flipped st)
    (hrun : raising S t k last = .ok (flipped, t')) :
    t'.PK = t.PK ∧ t'.NK = t.NK ∧ (flipped ≠ rebuildMarker → Consistent S t') := by
  rcases raising_cases hrun with ⟨-, rfl, rfl⟩ | ⟨hok, hboth, rfl⟩ |
    ⟨hok, t₁, flipped₁, hboth, hend⟩
  · exact ⟨rfl, rfl, fun hne => absurd rfl hne⟩
  · obtain ⟨hs, -⟩ := promoteBoth_log (t := filled S t k) h.othello hboth
    exact ⟨hs.PK, hs.NK, fun hne => absurd rfl hne⟩
  · obtain ⟨hs, hinv, m', hm', -, hdone⟩ := (h.raise hP hok).finish hboth
    obtain ⟨st, rfl, hst⟩ := hlast t₁ flipped₁ hinv hend
    refine ⟨hs.PK, hs.NK, fun hne => ?_⟩
    obtain ⟨hinv', -, hrep⟩ := hst hne
    exact hdone st hinv' (hrep m' hm')

theorem Without.raising_faults (h : Without S t k m) (hP : k ∈ t.PK)
    (hlast : ∀ t₁ flipped₁ m', Invariant S.othello t₁.othello → Represents t₁.othello m' →
      m' k = m k → (∃ r, last t₁ flipped₁ = .ok r) ∨ last t₁ flipped₁ = .error .outOfBounds) :
    (∃ r, raising S t k last = .ok r) ∨ raising S t k last = .error .outOfBounds := by
  rw [raising]
  by_cases hfull : (VacuumFilter.insert S.hash S.engine t.vf (S.ele k)).1 = 1
  · simp only [hfull, if_true]
    exact Or.inl ⟨_, rfl⟩
  · simp only [hfull, if_false]
    have hr := h.raise hP hfull
    rcases hr.promoteBoth_faults with ⟨⟨_ | flipped₁, t₁⟩, hboth⟩ | hboth
    · exact Or.inl ⟨(rebuildMarker, t₁), by rw [hboth]; rfl⟩
    · obtain ⟨-, hinv, m', hm', hk, -⟩ := hr.finish hboth
      rw [hboth]
      exact hlast t₁ flipped₁ m' hinv hm' hk
    · exact Or.inr (by rw [hboth]; rfl)

end Raising

theorem insert_negative_eq (t : Tracker K E) (k : K) : DASSTracker.insert S t (k, 0) =
    if lookup S t k then
      finishInsert S { t with
        NK := Insert.insert k t.NK
        FPK_table := record t.FPK_table (position_pair S t k) k } (k, 0) []
    else .ok ([], { t with
      NK := Insert.insert k t.NK
      TNK_table := record t.TNK_table (position_pair S t k) k }) := rfl

omit [Inhabited K] in
theorem answers_fresh (hP : k ∉ t.PK) (hN : k ∉ t.NK) : answers S t k = none := by
  rw [answers, if_neg hP, if_neg fun hc => hN hc.1]

theorem Consistent.insert_ok (h : Consistent S t) (hP : k ∉ t.PK) (hN : k ∉ t.NK) {b : Bool}
    (hrun : DASSTracker.insert S t (k, b.toNat) = .ok (flipped, t')) :
    t'.PK = (if b then Insert.insert k t.PK else t.PK) ∧
      t'.NK = (if b then t.NK else Insert.insert k t.NK) ∧
      (flipped ≠ rebuildMarker → Consistent S t') := by
  cases b with
  | true =>
    rw [Bool.toNat_true, insert_positive_eq] at hrun
    exact (h.without_positive hP hN).raising_ok (Finset.mem_insert_self k _)
      (fun t₁ flipped₁ hinv => finishInsert_ok hinv) hrun
  | false =>
    have hw := h.without_negative hP hN
    rw [Bool.toNat_false, insert_negative_eq] at hrun
    split at hrun
    case isTrue hl =>
      obtain ⟨st, rfl, hst⟩ := finishInsert_ok (by exact h.othello) hrun
      refine ⟨rfl, rfl, fun hne => ?_⟩
      obtain ⟨hinv, -, hrep⟩ := hst hne
      exact hw.enrol_positive (Finset.mem_insert_self k _) hl hinv (hrep _ h.map)
    case isFalse hl =>
      obtain ⟨rfl, rfl⟩ := Prod.mk.inj (Except.ok.inj hrun)
      refine ⟨rfl, rfl, fun _ => ?_⟩
      refine hw.enrol_negative (Finset.mem_insert_self k _) (Bool.not_eq_true _ ▸ hl) h.othello ?_
      rw [← answers_fresh (S := S) hP hN, Function.update_eq_self]
      exact h.map

theorem Consistent.insert_faults (h : Consistent S t) (hP : k ∉ t.PK) (hN : k ∉ t.NK)
    (b : Bool) : (∃ r, DASSTracker.insert S t (k, b.toNat) = .ok r) ∨
      DASSTracker.insert S t (k, b.toNat) = .error .outOfBounds := by
  have hnone := answers_fresh (S := S) hP hN
  cases b with
  | true =>
    rw [Bool.toNat_true, insert_positive_eq]
    refine (h.without_positive hP hN).raising_faults (Finset.mem_insert_self k _)
      fun t₁ flipped₁ m' hinv hm' hk => ?_
    refine finishInsert_faults (k, 1) hinv ?_ flipped₁
    exact (hm'.not_member_iff hinv k).mpr (hk.trans hnone)
  | false =>
    rw [Bool.toNat_false, insert_negative_eq]
    split
    case isTrue =>
      refine finishInsert_faults (k, 0) ?_ ?_ []
      · exact h.othello
      · exact (h.map.not_member_iff h.othello k).mpr hnone
    case isFalse => exact Or.inl ⟨_, rfl⟩

def lowered (S : TrackerSetup K E) (t : Tracker K E) (k : K) : Tracker K E :=
  { t with
    PK := t.PK.erase k
    NK := Insert.insert k t.NK
    vf := (del S.hash t.vf (S.ele k)).2 }

omit [Inhabited K] in
theorem lowered_spec (hv : Valid S.hash t.vf) (hl : lookup S t k = true) :
    Valid S.hash (lowered S t k).vf ∧ elem S (lowered S t k) = elem S t ∧
      position_pair S (lowered S t k) = position_pair S t ∧
      VacuumFilter.contents S.hash (lowered S t k).vf + {elem S t k} =
        VacuumFilter.contents S.hash t.vf ∧
      ∀ q, lookup S t q = true ↔ lookup S (lowered S t k) q = true ∨ elem S t q = elem S t k := by
  rcases del_spec hv (S.ele k) with ⟨-, -, hv', hs, hc⟩ | ⟨hout, -⟩
  · obtain ⟨helem, hpair⟩ := elem_of_shape (S := S) hs
    refine ⟨hv', helem, hpair, hc, fun q => ?_⟩
    rw [lookup_iff hv, lookup_iff hv', ← hc, Multiset.mem_add, Multiset.mem_singleton]
    have hq : elem S (lowered S t k) q = elem S t q := congrFun helem q
    rw [hq]
    rfl
  · exact absurd ((lookup_iff hv k).mp hl) hout

theorem Consistent.lower (h : Consistent S t) (hk : k ∈ t.PK) :
    Valid S.hash (lowered S t k).vf ∧ elem S (lowered S t k) = elem S t ∧
      position_pair S (lowered S t k) = position_pair S t ∧
      VacuumFilter.contents S.hash (lowered S t k).vf = (t.PK.erase k).val.map (elem S t) ∧
      ∀ q, lookup S t q = true ↔ lookup S (lowered S t k) q = true ∨ elem S t q = elem S t k := by
  obtain ⟨hv, helem, hpair, hc, hnewer⟩ := lowered_spec h.valid (h.lookup_of_mem hk)
  refine ⟨hv, helem, hpair, ?_, hnewer⟩
  have hsplit : t.PK.val.map (elem S t) = (t.PK.erase k).val.map (elem S t) + {elem S t k} := by
    rw [← Multiset.map_singleton, ← Multiset.map_add, add_comm, Multiset.singleton_add,
      ← Finset.insert_val_of_notMem (Finset.notMem_erase k _), Finset.insert_erase hk]
  rw [h.contents, hsplit] at hc
  exact add_right_cancel hc

omit [Inhabited K] in
theorem demoted_none {l : List K} {q : K} (hm : m q = none) : demoted m l q = none := by
  rw [demoted]
  split
  case isTrue => rfl
  case isFalse => exact hm

omit [Inhabited K] in
theorem demoted_not_mem {l : List K} {q : K} (hq : q ∉ l) : demoted m l q = m q := if_neg hq

omit [Inhabited K] in
theorem demoted_mem {l : List K} {q : K} (hq : q ∈ l) : demoted m l q = none := if_pos hq

section Lowered

variable (h : Consistent S t) (hk : k ∈ t.PK)
include h hk

theorem Consistent.lost_position {q : K} {pos : ℕ} (hl : lookup S t q = true)
    (hl' : lookup S (lowered S t k) q = false)
    (hpos : pos = (position_pair S t q).1 ∨ pos = (position_pair S t q).2) :
    pos = (position_pair S t k).1 ∨ pos = (position_pair S t k).2 := by
  obtain ⟨-, -, -, -, hnewer⟩ := h.lower hk
  have heq := ((hnewer q).mp hl).resolve_left (by simp [hl'])
  rw [at_position_iff, heq] at hpos
  exact at_position_iff.mpr hpos

theorem Consistent.lowered_answers {q : K} (hq : q ≠ k) :
    demoted (demoted (answers S t)
        ((t.FPK_table (position_pair S t k).1).filter fun q => !lookup S (lowered S t k) q))
      ((t.FPK_table (position_pair S t k).2).filter fun q => !lookup S (lowered S t k) q) q =
      answers S (lowered S t k) q := by
  obtain ⟨-, -, -, -, hnewer⟩ := h.lower hk
  have hgoal : answers S (lowered S t k) q = if q ∈ (lowered S t k).PK then some 1
      else if q ∈ (lowered S t k).NK ∧ lookup S (lowered S t k) q = true then some 0 else none :=
    rfl
  rw [hgoal]
  by_cases hP : q ∈ t.PK
  case pos =>
    have hqN : q ∉ t.NK := Finset.disjoint_left.mp h.disjoint hP
    have hqF : ∀ pos f, q ∉ (t.FPK_table pos).filter f := fun pos f hc =>
      hqN (((h.fpk pos).2 q).mp (List.mem_of_mem_filter hc)).1.1
    have hP' : q ∈ (lowered S t k).PK := Finset.mem_erase.mpr ⟨hq, hP⟩
    rw [demoted_not_mem (hqF _ _), demoted_not_mem (hqF _ _), answers, if_pos hP, if_pos hP']
  case neg =>
    have hP' : q ∉ (lowered S t k).PK := fun hc => hP (Finset.mem_of_mem_erase hc)
    have hN' : q ∈ (lowered S t k).NK ↔ q ∈ t.NK :=
      Finset.mem_insert.trans (or_iff_right hq)
    rw [if_neg hP']
    simp only [hN']
    cases hl' : lookup S (lowered S t k) q with
    | true =>
      have hqF : ∀ pos, q ∉ (t.FPK_table pos).filter fun q => !lookup S (lowered S t k) q :=
        fun pos hc => by simp [hl'] at hc
      rw [demoted_not_mem (hqF _), demoted_not_mem (hqF _), answers, if_neg hP,
        (hnewer q).mpr (Or.inl hl')]
    | false =>
      rw [if_neg fun hc => by simp at hc]
      by_cases hF : q ∈ t.NK ∧ lookup S t q = true
      · rcases Consistent.lost_position h hk hF.2 hl' (Or.inl rfl) with hpos | hpos
        · refine demoted_none (demoted_mem (List.mem_filter.mpr ⟨?_, by rw [hl']; rfl⟩))
          exact ((h.fpk _).2 q).mpr ⟨hF, Or.inl hpos.symm⟩
        · refine demoted_mem (List.mem_filter.mpr ⟨?_, by rw [hl']; rfl⟩)
          exact ((h.fpk _).2 q).mpr ⟨hF, Or.inl hpos.symm⟩
      · refine demoted_none (demoted_none ?_)
        rw [answers, if_neg hP, if_neg hF]

theorem Consistent.lowered_tnk :
    Tabled (Function.update (Function.update t.TNK_table (position_pair S t k).1
        (t.TNK_table (position_pair S t k).1 ++
          (t.FPK_table (position_pair S t k).1).filter fun q => !lookup S (lowered S t k) q))
      (position_pair S t k).2 (t.TNK_table (position_pair S t k).2 ++
        (t.FPK_table (position_pair S t k).2).filter fun q => !lookup S (lowered S t k) q))
      (position_pair S t) fun q =>
        (q ∈ (lowered S t k).NK ∧ lookup S (lowered S t k) q = false) ∧ q ≠ k := by
  obtain ⟨-, -, -, -, hnewer⟩ := h.lower hk
  have hkN : k ∉ t.NK := Finset.disjoint_left.mp h.disjoint hk
  refine (h.tnk.grow h.fpk (f := fun q => !lookup S (lowered S t k) q) (fun q hq hq' => ?_)
    fun q pos hq hl hpos => Consistent.lost_position h hk hq.2 (by simpa using hl) hpos).congr
    fun q => ?_
  · rw [hq.2] at hq'
    exact absurd hq'.2 (by simp)
  · rw [Bool.not_eq_true']
    constructor
    · rintro ⟨⟨hn, hl'⟩, hqk⟩
      have hn' : q ∈ t.NK := (Finset.mem_insert.mp hn).resolve_left hqk
      cases hl : lookup S t q with
      | false => exact Or.inl ⟨hn', rfl⟩
      | true => exact Or.inr ⟨⟨hn', rfl⟩, hl'⟩
    · rintro (⟨hn, hl⟩ | ⟨⟨hn, -⟩, hl'⟩)
      · refine ⟨⟨Finset.mem_insert_of_mem hn, ?_⟩, fun heq => hkN (heq ▸ hn)⟩
        rw [← Bool.not_eq_true] at hl ⊢
        exact fun hc => hl ((hnewer q).mpr (Or.inl hc))
      · exact ⟨⟨Finset.mem_insert_of_mem hn, hl'⟩, fun heq => hkN (heq ▸ hn)⟩

theorem Consistent.lowered_fpk :
    Tabled (Function.update (Function.update t.FPK_table (position_pair S t k).1
        ((t.FPK_table (position_pair S t k).1).filter (lookup S (lowered S t k))))
      (position_pair S t k).2
        ((t.FPK_table (position_pair S t k).2).filter (lookup S (lowered S t k))))
      (position_pair S t) fun q =>
        (q ∈ (lowered S t k).NK ∧ lookup S (lowered S t k) q = true) ∧ q ≠ k := by
  obtain ⟨-, -, -, -, hnewer⟩ := h.lower hk
  have hkN : k ∉ t.NK := Finset.disjoint_left.mp h.disjoint hk
  refine (h.fpk.shrink (f := lookup S (lowered S t k)) fun q pos hq hl hpos =>
    Consistent.lost_position h hk hq.2 hl hpos).congr fun q => ?_
  constructor
  · rintro ⟨⟨hn, hl'⟩, hqk⟩
    exact ⟨⟨(Finset.mem_insert.mp hn).resolve_left hqk, (hnewer q).mpr (Or.inl hl')⟩, hl'⟩
  · rintro ⟨⟨hn, -⟩, hl'⟩
    exact ⟨⟨Finset.mem_insert_of_mem hn, hl'⟩, fun heq => hkN (heq ▸ hn)⟩

end Lowered

/-- After both demotions the tracker is consistent but for `k`, which the Othello still has
with value 1. -/
theorem Consistent.demoteBoth (h : Consistent S t) (hk : k ∈ t.PK) :
    ∃ t₂ flipped₁ t₃ flipped₂ m,
      demote S (lowered S t k) (position_pair S (lowered S t k) k).1 [] = .ok (t₂, flipped₁) ∧
      demote S t₂ (position_pair S (lowered S t k) k).2 flipped₁ = .ok (t₃, flipped₂) ∧
      SameKeys (lowered S t k) t₃ ∧ Logged S.othello t.othello [] t₃.othello flipped₂ ∧
      Without S t₃ k m ∧ m k = some 1 := by
  obtain ⟨hv, helem, hpair, hc, hnewer⟩ := h.lower hk
  have hkN : k ∉ t.NK := Finset.disjoint_left.mp h.disjoint hk
  have hne := positions_ne h.valid k
  have hanswers : ∀ q, q ≠ k → _ := fun q => Consistent.lowered_answers h hk (q := q)
  have htnk := Consistent.lowered_tnk h hk
  have hfpk := Consistent.lowered_fpk h hk
  rw [hpair]
  generalize (position_pair S t k).1 = a at *
  generalize (position_pair S t k).2 = b at *
  obtain ⟨t₂, flipped₁, h₁, hlog₁, hs₁, hd₁⟩ := demoteLoop_spec (S := S) (t := lowered S t k)
    a [] [] (t.FPK_table a) h.othello
  obtain ⟨t₃, flipped₂, h₂, hlog₂, hs₂, hd₂⟩ := demoteLoop_spec (S := S) (t := t₂)
    b flipped₁ [] (t₂.FPK_table b) hd₁.othello
  have hs := hs₁.trans hs₂
  have hF₁ : t₂.FPK_table = Function.update t.FPK_table a
      ((t.FPK_table a).filter (lookup S (lowered S t k))) := hd₁.FPK
  have hT₁ : t₂.TNK_table = Function.update t.TNK_table a
      (t.TNK_table a ++ (t.FPK_table a).filter fun q => !lookup S (lowered S t k) q) := hd₁.TNK
  have hbF : t₂.FPK_table b = t.FPK_table b := by rw [hF₁, Function.update_of_ne hne.symm]
  have hbT : t₂.TNK_table b = t.TNK_table b := by rw [hT₁, Function.update_of_ne hne.symm]
  have hF₂ := hd₂.FPK
  have hT₂ := hd₂.TNK
  have hmap := hd₂.map _ (hd₁.map _ h.map)
  rw [hbF, hs₁.lookup, hF₁, List.nil_append] at hF₂
  rw [hbF, hbT, hs₁.lookup, hT₁] at hT₂
  rw [hbF, hs₁.lookup] at hmap
  have hkF : ∀ pos f, k ∉ (t.FPK_table pos).filter f := fun pos f hc =>
    hkN (((h.fpk pos).2 k).mp (List.mem_of_mem_filter hc)).1.1
  refine ⟨t₂, flipped₁, t₃, flipped₂, _, h₁, h₂, hs, hlog₁.trans hlog₂,
    ⟨hs.vf ▸ hv, ?_, ?_, hd₂.othello, hmap, fun q hq => ?_, ?_, ?_⟩, ?_⟩
  · rw [hs.vf, hs.PK, hs.elem, helem, hc]
    show _ = ((t.PK.erase k).erase k).val.map (elem S t)
    rw [Finset.erase_eq_of_notMem (Finset.notMem_erase k _)]
  · rw [hs.PK, hs.NK]
    refine Finset.disjoint_insert_right.mpr ⟨Finset.notMem_erase k _, ?_⟩
    exact h.disjoint.mono_left (Finset.erase_subset k _)
  · rw [hs.answers]
    exact hanswers q hq
  · rw [hT₂, hs.position_pair, hs.NK, hs.lookup, hpair]
    exact htnk
  · rw [hF₂, hs.position_pair, hs.NK, hs.lookup, hpair]
    exact hfpk
  · rw [demoted_not_mem (hkF _ _), demoted_not_mem (hkF _ _), answers, if_pos hk]

def lastNegative (S : TrackerSetup K E) (kv : K × ℕ) (pos_pair : ℕ × ℕ)
    (r : Tracker K E × List ℕ) : Except Fault (List ℕ × Tracker K E) :=
  if lookup S r.1 kv.1 then do
    let (othello, flipped) ← valueFlip_on_demand S.othello r.1.othello kv r.2
    return (flipped, { r.1 with
      FPK_table := record r.1.FPK_table pos_pair kv.1, othello := othello })
  else do
    let (othello, flipped) ← erase_on_demand S.othello r.1.othello kv.1 r.2
    return (flipped, { r.1 with
      TNK_table := record r.1.TNK_table pos_pair kv.1, othello := othello })

theorem changeToNegative_eq (t : Tracker K E) (kv : K × ℕ) : changeToNegative S t kv =
    demote S (lowered S t kv.1) (position_pair S (lowered S t kv.1) kv.1).1 [] >>= fun r =>
      demote S r.1 (position_pair S (lowered S t kv.1) kv.1).2 r.2 >>=
        lastNegative S kv (position_pair S (lowered S t kv.1) kv.1) := rfl

/-- Changing a positive key to negative never fails and never asks for a rebuild. -/
theorem Consistent.changeToNegative_spec (h : Consistent S t) (hk : k ∈ t.PK) :
    ∃ flipped t', changeToNegative S t (k, 0) = .ok (flipped, t') ∧ t'.PK = t.PK.erase k ∧
      t'.NK = Insert.insert k t.NK ∧ Consistent S t' := by
  obtain ⟨t₂, flipped₁, t₃, flipped₂, m, h₁, h₂, hs, -, hw, hm⟩ := h.demoteBoth hk
  have hN : k ∈ t₃.NK := hs.NK ▸ Finset.mem_insert_self k _
  have hpos : position_pair S (lowered S t k) k = position_pair S t₃ k := by rw [hs.position_pair]
  have hrun : changeToNegative S t (k, 0) = lastNegative S (k, 0) (position_pair S t₃ k)
      (t₃, flipped₂) := by
    rw [changeToNegative_eq, h₁, ok_bind, h₂, ok_bind, hpos]
  rw [lastNegative] at hrun
  cases hl : lookup S t₃ k with
  | true =>
    obtain ⟨st, flips, -, hflip, hinv, hrep, -⟩ :=
      hw.map.valueFlip (plain S) hw.othello (k, 0) (by simp [hm]) flipped₂
    rw [if_pos hl, hflip, ok_bind] at hrun
    exact ⟨_, _, hrun, hs.PK, hs.NK, hw.enrol_positive hN hl hinv hrep⟩
  | false =>
    obtain ⟨st, flips, -, herase, hinv, hrep, -⟩ :=
      hw.map.erase (plain S) hw.othello k flipped₂
    rw [if_neg (by simp [hl]), herase, ok_bind] at hrun
    exact ⟨_, _, hrun, hs.PK, hs.NK, hw.enrol_negative hN hl hinv hrep⟩

theorem Consistent.changeToPositive_ok (h : Consistent S t) (hk : k ∉ t.PK)
    (hrun : changeToPositive S t (k, 1) = .ok (flipped, t')) :
    t'.PK = Insert.insert k t.PK ∧ t'.NK = t.NK.erase k ∧
      (flipped ≠ rebuildMarker → Consistent S t') := by
  have hsets : (withdrawn S t k).PK = Insert.insert k t.PK ∧
      (withdrawn S t k).NK = t.NK.erase k := by
    rw [withdrawn]
    split <;> exact ⟨rfl, rfl⟩
  rw [changeToPositive_eq] at hrun
  have hP : k ∈ (withdrawn S t k).PK := hsets.1 ▸ Finset.mem_insert_self k _
  obtain ⟨hPK, hNK, hc⟩ := (h.without_withdrawn hk).raising_ok hP
    (fun t₁ flipped₁ hinv => flipOrInsert_ok hinv) hrun
  exact ⟨hPK.trans hsets.1, hNK.trans hsets.2, hc⟩

theorem Consistent.changeToPositive_faults (h : Consistent S t) (hk : k ∉ t.PK) :
    (∃ r, changeToPositive S t (k, 1) = .ok r) ∨
      changeToPositive S t (k, 1) = .error .outOfBounds := by
  have hP : k ∈ (withdrawn S t k).PK := by
    rw [withdrawn]
    split <;> exact Finset.mem_insert_self k _
  rw [changeToPositive_eq]
  exact (h.without_withdrawn hk).raising_faults hP
    fun t₁ flipped₁ m' hinv _ _ => flipOrInsert_faults (k, 1) hinv flipped₁

theorem Consistent.setValue_ok (h : Consistent S t) (hk : k ∈ t.PK ∨ k ∈ t.NK) {b : Bool}
    (hrun : setValue S t (k, b.toNat) = .ok (flipped, t')) :
    t'.PK = (if b then Insert.insert k t.PK else t.PK.erase k) ∧
      t'.NK = (if b then t.NK.erase k else Insert.insert k t.NK) ∧
      (flipped ≠ rebuildMarker → Consistent S t') := by
  rcases hk with hP | hN
  · have hN : k ∉ t.NK := Finset.disjoint_left.mp h.disjoint hP
    rw [setValue, h.query_positive hP] at hrun
    cases b with
    | true =>
      obtain ⟨-, rfl⟩ := Prod.mk.inj (Except.ok.inj hrun)
      refine ⟨(Finset.insert_eq_of_mem hP).symm, (Finset.erase_eq_of_notMem hN).symm, fun _ => h⟩
    | false =>
      obtain ⟨flipped₁, t₁, hrun₁, hPK, hNK, hc⟩ := h.changeToNegative_spec hP
      obtain ⟨-, rfl⟩ := Prod.mk.inj (Except.ok.inj (hrun₁.symm.trans hrun))
      exact ⟨hPK, hNK, fun _ => hc⟩
  · have hP : k ∉ t.PK := Finset.disjoint_right.mp h.disjoint hN
    rw [setValue, h.query_negative hN] at hrun
    cases b with
    | true => exact h.changeToPositive_ok hP hrun
    | false =>
      obtain ⟨-, rfl⟩ := Prod.mk.inj (Except.ok.inj hrun)
      refine ⟨(Finset.erase_eq_of_notMem hP).symm, (Finset.insert_eq_of_mem hN).symm, fun _ => h⟩

theorem Consistent.setValue_faults (h : Consistent S t) (hk : k ∈ t.PK ∨ k ∈ t.NK) (b : Bool) :
    (∃ r, setValue S t (k, b.toNat) = .ok r) ∨
      setValue S t (k, b.toNat) = .error .outOfBounds := by
  rcases hk with hP | hN
  · rw [setValue, h.query_positive hP]
    cases b with
    | true => exact Or.inl ⟨_, rfl⟩
    | false =>
      obtain ⟨flipped, t', hrun, -⟩ := h.changeToNegative_spec hP
      exact Or.inl ⟨_, hrun⟩
  · have hP : k ∉ t.PK := Finset.disjoint_right.mp h.disjoint hN
    rw [setValue, h.query_negative hN]
    cases b with
    | true => exact h.changeToPositive_faults hP
    | false => exact Or.inl ⟨_, rfl⟩

end TrackerInvariant
