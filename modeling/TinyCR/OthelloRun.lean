import TinyCR.OthelloInsert

/-! # Runs of the Othello

Over any run of the operations the Othello is a finite map: the stored keys are those that
were inserted and not erased since, and each answers with the value it was given last. -/
namespace OthelloRun

open PackedCells EdgeLabels ControlPlaneOthello DataPlaneOthello OthelloInvariant

variable {K : Type} [Inhabited K] {P : Setup K} {st st' : Othello K} {m : K → Option ℕ}

/-- The entries of `st` are the pairs of the map `m`. -/
def Represents (st : Othello K) (m : K → Option ℕ) : Prop :=
  ∀ x v, m x = some v ↔ ∃ i, i < st.keyCnt ∧ keyAt st i = x ∧ st.values.getD i 0 = v

theorem Represents.member_iff [DecidableEq K] (hm : Represents st m) (h : Invariant P st) (x : K) :
    isMember P st x = true ↔ (m x).isSome = true := by
  rw [h.isMember_iff, Option.isSome_iff_exists]
  constructor
  · rintro ⟨i, hi, hx⟩
    exact ⟨_, (hm x _).mpr ⟨i, hi, hx, rfl⟩⟩
  · rintro ⟨v, hv⟩
    obtain ⟨i, hi, hx, -⟩ := (hm x v).mp hv
    exact ⟨i, hi, hx⟩

theorem Represents.not_member_iff [DecidableEq K] (hm : Represents st m) (h : Invariant P st)
    (x : K) : isMember P st x = false ↔ m x = none := by
  rw [← Bool.not_eq_true, hm.member_iff h, Option.not_isSome_iff_eq_none]

def entries [DecidableEq K] (P : Setup K) (st : Othello K) (x : K) : Option ℕ :=
  if isMember P st x then some (st.values.getD (queryIndex P st x) 0) else none

theorem represents_entries [DecidableEq K] (h : Invariant P st) :
    Represents st (entries P st) := by
  intro x v
  rw [entries]
  split
  case isTrue hmem =>
    obtain ⟨i, hi, rfl⟩ := (h.isMember_iff x).mp hmem
    rw [h.queryIndex_eq hi, Option.some_inj]
    constructor
    · intro hv
      exact ⟨i, hi, rfl, hv⟩
    · rintro ⟨j, hj, hkey, hv⟩
      rw [← h.keyAt_inj hj hi hkey]
      exact hv
  case isFalse hmem =>
    rw [h.isMember_iff] at hmem
    constructor
    · intro hc
      cases hc
    · rintro ⟨i, hi, hkey, -⟩
      exact absurd ⟨i, hi, hkey⟩ hmem

theorem represents_empty (h : st.keyCnt = 0) : Represents st fun _ => none := by
  intro x v
  constructor
  · intro hc
    cases hc
  · rintro ⟨i, hi, -⟩
    omega

variable [DecidableEq K]

theorem Represents.store (hm : Represents st m) {kv : K × ℕ} (hnew : m kv.1 = none)
    (hs : Stored st kv st') : Represents st' (Function.update m kv.1 (some kv.2)) := by
  intro x v
  rw [hs.keyCnt]
  by_cases hx : x = kv.1
  · subst hx
    rw [Function.update_self, Option.some_inj]
    constructor
    · rintro rfl
      exact ⟨st.keyCnt, Nat.lt_succ_self _, hs.newKey, hs.newValue⟩
    · rintro ⟨i, hi, hkey, hval⟩
      rcases Nat.lt_succ_iff_lt_or_eq.mp hi with hi | rfl
      · rw [hs.keyAt i hi] at hkey
        have := (hm kv.1 (st.values.getD i 0)).mpr ⟨i, hi, hkey, rfl⟩
        simp [hnew] at this
      · exact hs.newValue.symm.trans hval
  · rw [Function.update_of_ne hx, hm]
    constructor
    · rintro ⟨i, hi, hkey, hval⟩
      exact ⟨i, Nat.lt_succ_of_lt hi, (hs.keyAt i hi).trans hkey, (hs.values i hi).trans hval⟩
    · rintro ⟨i, hi, hkey, hval⟩
      rcases Nat.lt_succ_iff_lt_or_eq.mp hi with hi | rfl
      · exact ⟨i, hi, (hs.keyAt i hi).symm.trans hkey, (hs.values i hi).symm.trans hval⟩
      · exact absurd (hs.newKey.symm.trans hkey) (Ne.symm hx)

theorem Represents.assign (hm : Represents st m) (h : Invariant P st) {keyId val : ℕ}
    (hk : keyId < st.keyCnt) (hs : SameMap { st with values := st.values.set keyId val } st') :
    Represents st' (Function.update m (keyAt st keyId) (some val)) := by
  have hkeys : ∀ i, keyAt st' i = keyAt st i := fun i => by rw [keyAt, hs.keys, keyAt]
  have hvals : ∀ i, st'.values.getD i 0 =
      Function.update (fun i => st.values.getD i 0) keyId val i := fun i => by
    rw [hs.values]
    have hlen : keyId < st.values.length := h.values ▸ hk.trans_le h.keyCnt
    exact congrFun (NodeLists.getD_set st.values hlen val 0) i
  intro x v
  rw [hs.keyCnt]
  by_cases hx : x = keyAt st keyId
  · subst hx
    rw [Function.update_self, Option.some_inj]
    constructor
    · rintro rfl
      exact ⟨keyId, hk, hkeys keyId, by rw [hvals, Function.update_self]⟩
    · rintro ⟨i, hi, hkey, hval⟩
      rw [hkeys] at hkey
      rw [h.keyAt_inj hi hk hkey, hvals, Function.update_self] at hval
      exact hval
  · rw [Function.update_of_ne hx, hm]
    refine exists_congr fun i => and_congr_right fun hi => ?_
    rw [hkeys, hvals]
    refine and_congr_right fun hkey => ?_
    rw [Function.update_of_ne]
    rintro rfl
    exact hx hkey.symm

theorem Represents.drop (hm : Represents st m) (h : Invariant P st) {keyId : ℕ}
    (hk : keyId < st.keyCnt) (her : Erased st keyId st') :
    Represents st' (Function.update m (keyAt st keyId) none) := by
  have hcnt := her.keyCnt
  have hold := her.entries
  have hold_lt : ∀ e, e < st'.keyCnt →
      oldId st'.keyCnt keyId e < st.keyCnt ∧ oldId st'.keyCnt keyId e ≠ keyId := by
    intro e he
    unfold oldId
    split <;> omega
  intro x v
  by_cases hx : x = keyAt st keyId
  · subst hx
    rw [Function.update_self]
    refine ⟨fun hc => absurd hc (by simp), ?_⟩
    rintro ⟨i, hi, hkey, -⟩
    obtain ⟨hlt, hne⟩ := hold_lt i hi
    exact absurd (h.keyAt_inj hlt hk ((hold i hi).1.symm.trans hkey)) hne
  · rw [Function.update_of_ne hx, hm]
    constructor
    · rintro ⟨i, hi, hkey, hval⟩
      have hik : i ≠ keyId := by
        rintro rfl
        exact hx hkey.symm
      by_cases hlast : i = st'.keyCnt
      · have hkl : keyId < st'.keyCnt := by omega
        refine ⟨keyId, hkl, ?_⟩
        rw [(hold keyId hkl).1, (hold keyId hkl).2, oldId, if_pos rfl, ← hlast]
        exact ⟨hkey, hval⟩
      · have hil : i < st'.keyCnt := by omega
        refine ⟨i, hil, ?_⟩
        rw [(hold i hil).1, (hold i hil).2, oldId, if_neg hik]
        exact ⟨hkey, hval⟩
    · rintro ⟨i, hi, hkey, hval⟩
      exact ⟨_, (hold_lt i hi).1, (hold i hi).1.symm.trans hkey, (hold i hi).2.symm.trans hval⟩

theorem Represents.insert_on_demand (hP : Plain P) (h : Invariant P st) (hm : Represents st m)
    {kv : K × ℕ} (hnew : m kv.1 = none) (hlt : st.keyCnt < st.keys.length) (flipped : List ℕ) :
    ∃ done st' flips, insert_on_demand P st kv flipped = .ok (done, st', flipped ++ flips) ∧
      Replays P.toConfig st.mem flips st'.mem ∧ SameTables st st' ∧
      (done = true →
        Invariant P st' ∧ Represents st' (Function.update m kv.1 (some kv.2))) := by
  obtain ⟨done, st', flips, hrun, ht, hmap, hrep, hdone, -⟩ :=
    h.insert_on_demand_spec hP hlt ((hm.not_member_iff h _).mpr hnew) flipped
  refine ⟨done, st', flips, hrun, hrep, ht, fun hd => ⟨hdone hd, hm.store hnew ?_⟩⟩
  exact stored_storeKey ⟨rfl, fun _ _ => rfl, fun _ _ => rfl⟩ hlt h.values hmap

theorem Represents.erase (hP : Plain P) (h : Invariant P st) (hm : Represents st m) (k : K)
    (flipped : List ℕ) :
    ∃ st' flips, erase P st k = .ok st' ∧
      erase_on_demand P st k flipped = .ok (st', flipped ++ flips) ∧ Invariant P st' ∧
      Represents st' (Function.update m k none) ∧ Replays P.toConfig st.mem flips st'.mem ∧
      SameTables st st' ∧ st'.keys.length = st.keys.length := by
  by_cases hk : queryIndex P st k ≥ st.keyCnt ∨ keyAt st (queryIndex P st k) ≠ k
  · have hnone : m k = none := by
      rw [← hm.not_member_iff h, ← Bool.not_eq_true, h.isMember_iff]
      rintro ⟨i, hi, rfl⟩
      rw [h.queryIndex_eq hi] at hk
      rcases hk with hk | hk
      · omega
      · exact hk rfl
    obtain ⟨hrun, hrun'⟩ := erase_missed flipped hk
    refine ⟨st, [], hrun, hrun', h, ?_, Replays.nil _ _, SameTables.refl st, rfl⟩
    rw [← hnone, Function.update_eq_self]
    exact hm
  · have hlt : queryIndex P st k < st.keyCnt := Nat.lt_of_not_le fun hc => hk (Or.inl hc)
    have hkey : keyAt st (queryIndex P st k) = k := by
      by_contra hc
      exact hk (Or.inr hc)
    obtain ⟨st', flips, hrun, hinv, hrep, ht, her⟩ := h.eraseId_spec hP hlt
    rw [hkey] at hrun
    obtain ⟨herase, herase'⟩ := erase_found flipped hk hrun
    have hdrop := hm.drop h hlt her
    rw [hkey] at hdrop
    exact ⟨st', flips, herase, herase', hinv, hdrop, hrep, ht, her.length⟩

theorem Represents.updateValueAt (hP : Plain P) (h : Invariant P st) (hm : Represents st m)
    {keyId : ℕ} (hk : keyId < st.keyCnt) (val : ℕ) :
    ∃ x st', updateValueAt P st keyId val = .ok (x, st') ∧ Invariant P st' ∧
      Represents st' (Function.update m (keyAt st keyId) (some val)) := by
  obtain ⟨x, st', -, -, hrun, hinv, -, -, hmap⟩ := h.update_spec hP hk val []
  exact ⟨x, st', hrun, hinv, hm.assign h hk hmap⟩

theorem Represents.valueFlip (hP : Plain P) (h : Invariant P st) (hm : Represents st m)
    (kv : K × ℕ) (hk : (m kv.1).isSome = true) (flipped : List ℕ) :
    ∃ st' flips, valueFlip P st kv = .ok st' ∧
      valueFlip_on_demand P st kv flipped = .ok (st', flipped ++ flips) ∧ Invariant P st' ∧
      Represents st' (Function.update m kv.1 (some kv.2)) ∧
      Replays P.toConfig st.mem flips st'.mem ∧ SameTables st st' ∧
      st'.keys.length = st.keys.length := by
  rw [← hm.member_iff h, h.isMember_iff] at hk
  obtain ⟨i, hi, hkey⟩ := hk
  have hidx : queryIndex P st kv.1 = i := hkey ▸ h.queryIndex_eq hi
  obtain ⟨x, st', flips, hrun, hrun', hinv, hrep, ht, hmap⟩ := h.update_spec hP hi kv.2 flipped
  refine ⟨st', flips, ?_, ?_, hinv, ?_, hrep, ht, congrArg List.length hmap.keys⟩
  · simp only [ControlPlaneOthello.valueFlip, hidx, hrun', ok_bind]
    rfl
  · simp only [ControlPlaneOthello.valueFlip_on_demand, hidx, hrun, ok_bind]
    rfl
  · have := hm.assign h hi hmap
    rwa [hkey] at this

/-- The flips from `flipped` to `flipped'` turn the cells of `st` into those of `st'`. -/
structure Logged (P : Setup K) (st : Othello K) (flipped : List ℕ) (st' : Othello K)
    (flipped' : List ℕ) : Prop where
  tables : SameTables st st'
  flips : ∃ flips, flipped' = flipped ++ flips ∧ Replays P.toConfig st.mem flips st'.mem

omit [Inhabited K] [DecidableEq K] in
theorem Logged.refl (P : Setup K) (st : Othello K) (flipped : List ℕ) :
    Logged P st flipped st flipped :=
  ⟨SameTables.refl st, [], (List.append_nil _).symm, Replays.nil _ _⟩

omit [Inhabited K] [DecidableEq K] in
theorem Logged.trans {st'' : Othello K} {flipped flipped' flipped'' : List ℕ}
    (h : Logged P st flipped st' flipped') (h' : Logged P st' flipped' st'' flipped'') :
    Logged P st flipped st'' flipped'' := by
  obtain ⟨f, rfl, hr⟩ := h.flips
  obtain ⟨f', rfl, hr'⟩ := h'.flips
  exact ⟨h.tables.trans h'.tables, f ++ f', List.append_assoc .., hr.append hr'⟩

theorem insert_on_demand_ok (hP : Plain P) (h : Invariant P st) {kv : K × ℕ}
    {flipped flipped' : List ℕ} {done : Bool}
    (hrun : insert_on_demand P st kv flipped = .ok (done, st', flipped')) :
    Logged P st flipped st' flipped' ∧
      (done = true → Invariant P st' ∧ ∀ m, Represents st m →
        m kv.1 = none ∧ Represents st' (Function.update m kv.1 (some kv.2))) := by
  have hnew : isMember P st kv.1 = false := by
    cases hmem : isMember P st kv.1 with
    | false => rfl
    | true =>
      simp only [insert_on_demand, hmem, if_true] at hrun
      cases hrun
  have hlt : st.keyCnt < st.keys.length := by
    by_contra hle
    simp only [insert_on_demand, hnew, Bool.false_eq_true, if_false,
      if_pos (Nat.le_of_not_lt hle)] at hrun
    cases hrun
  obtain ⟨done₁, st₁, flips, hrun₁, ht, hmap, hrep, hdone, -⟩ :=
    h.insert_on_demand_spec hP hlt hnew flipped
  obtain ⟨rfl, heq⟩ := Prod.mk.inj (Except.ok.inj (hrun₁.symm.trans hrun))
  obtain ⟨rfl, rfl⟩ := Prod.mk.inj heq
  refine ⟨⟨ht, flips, rfl, hrep⟩, fun hd => ⟨hdone hd, fun m hm => ?_⟩⟩
  have hnone := (hm.not_member_iff h kv.1).mp hnew
  exact ⟨hnone, hm.store hnone
    (stored_storeKey ⟨rfl, fun _ _ => rfl, fun _ _ => rfl⟩ hlt h.values hmap)⟩

theorem insert_on_demand_faults (hP : Plain P) (h : Invariant P st) (kv : K × ℕ)
    (hnew : isMember P st kv.1 = false) (flipped : List ℕ) :
    (∃ r, insert_on_demand P st kv flipped = .ok r) ∨
      insert_on_demand P st kv flipped = .error .outOfBounds := by
  by_cases hlt : st.keyCnt < st.keys.length
  · obtain ⟨done, st₁, flips, hrun, -⟩ := h.insert_on_demand_spec hP hlt hnew flipped
    exact Or.inl ⟨_, hrun⟩
  · right
    simp only [insert_on_demand, hnew, Bool.false_eq_true, if_false,
      if_pos (Nat.le_of_not_lt hlt)]
    rfl

theorem erase_on_demand_ok (hP : Plain P) (h : Invariant P st) {k : K}
    {flipped flipped' : List ℕ} (hrun : erase_on_demand P st k flipped = .ok (st', flipped')) :
    Logged P st flipped st' flipped' ∧ Invariant P st' ∧
      ∀ m, Represents st m → Represents st' (Function.update m k none) := by
  obtain ⟨st₁, flips, -, hrun₁, hinv, -, hrep, ht, -⟩ :=
    (represents_entries h).erase hP h k flipped
  obtain ⟨rfl, rfl⟩ := Prod.mk.inj (Except.ok.inj (hrun₁.symm.trans hrun))
  refine ⟨⟨ht, flips, rfl, hrep⟩, hinv, fun m hm => ?_⟩
  obtain ⟨st₂, flips₂, -, hrun₂, -, hrep₂, -⟩ := hm.erase hP h k flipped
  obtain ⟨rfl, -⟩ := Prod.mk.inj (Except.ok.inj (hrun₂.symm.trans hrun))
  exact hrep₂

/-- Whatever key is asked for, the value of the key its index names is changed. -/
theorem valueFlip_on_demand_at (hP : Plain P) (h : Invariant P st) {kv : K × ℕ}
    {flipped flipped' : List ℕ}
    (hrun : valueFlip_on_demand P st kv flipped = .ok (st', flipped')) :
    queryIndex P st kv.1 < st.keyCnt ∧ Logged P st flipped st' flipped' ∧ Invariant P st' ∧
      ∀ m, Represents st m →
        Represents st' (Function.update m (keyAt st (queryIndex P st kv.1)) (some kv.2)) := by
  have hlt : queryIndex P st kv.1 < st.keyCnt := by
    by_contra hle
    simp only [valueFlip_on_demand, updateValueAt_on_demand, if_pos (Nat.le_of_not_lt hle)] at hrun
    cases hrun
  obtain ⟨x, st₁, flips, hrun₁, -, hinv, hrep, ht, hmap⟩ := h.update_spec hP hlt kv.2 flipped
  simp only [valueFlip_on_demand, hrun₁, ok_bind] at hrun
  obtain ⟨rfl, rfl⟩ := Prod.mk.inj (Except.ok.inj hrun)
  exact ⟨hlt, ⟨ht, flips, rfl, hrep⟩, hinv, fun m hm => hm.assign h hlt hmap⟩

theorem valueFlip_on_demand_ok (hP : Plain P) (h : Invariant P st) {kv : K × ℕ}
    {flipped flipped' : List ℕ}
    (hrun : valueFlip_on_demand P st kv flipped = .ok (st', flipped')) :
    Logged P st flipped st' flipped' ∧ Invariant P st' ∧
      ∀ m, Represents st m → (m kv.1).isSome = true →
        Represents st' (Function.update m kv.1 (some kv.2)) := by
  obtain ⟨-, hlog, hinv, hrep⟩ := valueFlip_on_demand_at hP h hrun
  refine ⟨hlog, hinv, fun m hm hk => ?_⟩
  rw [← hm.member_iff h, h.isMember_iff] at hk
  obtain ⟨i, hi, hkey⟩ := hk
  have hidx : queryIndex P st kv.1 = i := hkey ▸ h.queryIndex_eq hi
  have hrep := hrep m hm
  rwa [hidx, hkey] at hrep

/-- The states a run can reach, with the map of what was asked of it. -/
inductive Reached (P : Setup K) : Othello K → (K → Option ℕ) → Prop
  | construct {scaledCapacity draws hd st} :
      construct P scaledCapacity hd draws = .ok (true, st) → Reached P st fun _ => none
  | insert {st m DoNotRebuild kv x st'} : Reached P st m → m kv.1 = none →
      insert P DoNotRebuild st kv = .ok (some x, st') →
      Reached P st' (Function.update m kv.1 (some kv.2))
  | insert_on_demand {st m kv flipped st' flipped'} : Reached P st m → m kv.1 = none →
      st.keyCnt < st.keys.length →
      insert_on_demand P st kv flipped = .ok (true, st', flipped') →
      Reached P st' (Function.update m kv.1 (some kv.2))
  | erase {st m k st'} : Reached P st m → erase P st k = .ok st' →
      Reached P st' (Function.update m k none)
  | erase_on_demand {st m k flipped st' flipped'} : Reached P st m →
      erase_on_demand P st k flipped = .ok (st', flipped') →
      Reached P st' (Function.update m k none)
  | updateValueAt {st m keyId val x st'} : Reached P st m → keyId < st.keyCnt →
      updateValueAt P st keyId val = .ok (x, st') →
      Reached P st' (Function.update m (keyAt st keyId) (some val))
  | valueFlip {st m kv st'} : Reached P st m → (m kv.1).isSome = true →
      valueFlip P st kv = .ok st' → Reached P st' (Function.update m kv.1 (some kv.2))
  | valueFlip_on_demand {st m kv flipped st' flipped'} : Reached P st m →
      (m kv.1).isSome = true → valueFlip_on_demand P st kv flipped = .ok (st', flipped') →
      Reached P st' (Function.update m kv.1 (some kv.2))

theorem Reached.represents (hP : Plain P) (h : Reached P st m) :
    Invariant P st ∧ Represents st m := by
  induction h with
  | construct hrun =>
    obtain ⟨hinv, hcnt⟩ := construct_spec hP hrun
    exact ⟨hinv, represents_empty hcnt⟩
  | insert _ hnew hrun ih =>
    obtain ⟨-, hinv, hstored⟩ := ih.1.insert_spec hP hrun
    exact ⟨hinv, ih.2.store hnew hstored⟩
  | @insert_on_demand st m kv flipped st' flipped' _ hnew hlt hrun ih =>
    obtain ⟨done, st₁, flips, hrun₁, -, -, hdone⟩ :=
      ih.2.insert_on_demand hP ih.1 hnew hlt flipped
    obtain ⟨rfl, heq⟩ := Prod.mk.inj (Except.ok.inj (hrun₁.symm.trans hrun))
    obtain ⟨rfl, -⟩ := Prod.mk.inj heq
    exact hdone rfl
  | @erase st m k st' _ hrun ih =>
    obtain ⟨st₁, flips, hrun₁, -, hinv, hrep, -⟩ := ih.2.erase hP ih.1 k []
    obtain rfl := Except.ok.inj (hrun₁.symm.trans hrun)
    exact ⟨hinv, hrep⟩
  | @erase_on_demand st m k flipped st' flipped' _ hrun ih =>
    obtain ⟨st₁, flips, -, hrun₁, hinv, hrep, -⟩ := ih.2.erase hP ih.1 k flipped
    obtain ⟨rfl, -⟩ := Prod.mk.inj (Except.ok.inj (hrun₁.symm.trans hrun))
    exact ⟨hinv, hrep⟩
  | @updateValueAt st m keyId val x st' _ hk hrun ih =>
    obtain ⟨x₁, st₁, hrun₁, hinv, hrep⟩ := ih.2.updateValueAt hP ih.1 hk val
    obtain ⟨-, rfl⟩ := Prod.mk.inj (Except.ok.inj (hrun₁.symm.trans hrun))
    exact ⟨hinv, hrep⟩
  | @valueFlip st m kv st' _ hk hrun ih =>
    obtain ⟨st₁, flips, hrun₁, -, hinv, hrep, -⟩ := ih.2.valueFlip hP ih.1 _ hk []
    obtain rfl := Except.ok.inj (hrun₁.symm.trans hrun)
    exact ⟨hinv, hrep⟩
  | @valueFlip_on_demand st m kv flipped st' flipped' _ hk hrun ih =>
    obtain ⟨st₁, flips, -, hrun₁, hinv, hrep, -⟩ := ih.2.valueFlip hP ih.1 _ hk flipped
    obtain ⟨rfl, -⟩ := Prod.mk.inj (Except.ok.inj (hrun₁.symm.trans hrun))
    exact ⟨hinv, hrep⟩

structure ActsAsMap (P : Setup K) (st : Othello K) (m : K → Option ℕ) : Prop where
  distinct : ∀ i j, i < st.keyCnt → j < st.keyCnt → keyAt st i = keyAt st j → i = j
  integrity : checkIntegrity P st
  members : ∀ x, isMember P st x = true ↔ (m x).isSome = true
  values : ∀ x v, m x = some v → ∃ q, query P st x = some q ∧
    BitVec.ofNat 64 q &&& P.VMASK = BitVec.ofNat 64 v &&& P.VMASK
  insert_on_demand : ∀ kv flipped, m kv.1 = none → st.keyCnt < st.keys.length →
    ∃ r, insert_on_demand P st kv flipped = .ok r
  erase : ∀ k flipped, (∃ r, erase P st k = .ok r) ∧
    ∃ r, erase_on_demand P st k flipped = .ok r
  updateValueAt : ∀ keyId val, keyId < st.keyCnt → ∃ r, updateValueAt P st keyId val = .ok r
  valueFlip : ∀ kv flipped, (m kv.1).isSome = true → (∃ r, valueFlip P st kv = .ok r) ∧
    ∃ r, valueFlip_on_demand P st kv flipped = .ok r

/-- In every state of every run the Othello is the map of what was asked of it. -/
theorem reached_acts_as_map (hP : Plain P) (h : Reached P st m) : ActsAsMap P st m := by
  obtain ⟨hinv, hm⟩ := h.represents hP
  refine
    { distinct := fun i j hi hj => hinv.keyAt_inj hi hj
      integrity := hinv.checkIntegrity hP
      members := hm.member_iff hinv
      values := fun x v hv => ?_
      insert_on_demand := fun kv flipped hnew hlt => ?_
      erase := fun k flipped => ?_
      updateValueAt := fun keyId val hk => ?_
      valueFlip := fun kv flipped hk => ?_ }
  · obtain ⟨i, hi, rfl, rfl⟩ := (hm x v).mp hv
    exact hinv.query_eq hP hi
  · obtain ⟨done, st', flips, hrun, -⟩ := hm.insert_on_demand hP hinv hnew hlt flipped
    exact ⟨_, hrun⟩
  · obtain ⟨st', flips, hrun, hrun', -⟩ := hm.erase hP hinv k flipped
    exact ⟨⟨_, hrun⟩, ⟨_, hrun'⟩⟩
  · obtain ⟨x, st', hrun, -⟩ := hm.updateValueAt hP hinv hk val
    exact ⟨_, hrun⟩
  · obtain ⟨st', flips, hrun, hrun', -⟩ := hm.valueFlip hP hinv _ hk flipped
    exact ⟨⟨_, hrun⟩, ⟨_, hrun'⟩⟩

def smallSetup : Setup ℕ :=
  { L := 1, DL := 0, vBits := 8, maintainDP := true, maintainDisjointSet := true
    vdl_le := bit_cells_fit, l_le := bit_values_fit
    hab := fun _ k => BitVec.ofNat 64 k, hd := fun _ k => BitVec.ofNat 32 k
    rand := fun i => BitVec.ofNat 64 i }

/-- Keys `2 * i` and `2 * i + 1` have a node of array A in common, `2 * i + 1` and `2 * i + 2` one
of array B: the first keys form a path. -/
def pathSetup : Setup ℕ :=
  { L := 1, DL := 0, vBits := 8, maintainDP := true, maintainDisjointSet := true
    vdl_le := bit_cells_fit, l_le := bit_values_fit
    hab := fun _ k => BitVec.ofNat 64 (k / 2 * 2 ^ 30 + (k + 1) / 2 * 2 ^ 62)
    hd := fun _ k => BitVec.ofNat 32 k
    rand := fun i => BitVec.ofNat 64 i }

def takeKeys (P : Setup K) : Othello K → List (K × ℕ) → Option (Othello K)
  | st, [] => some st
  | st, kv :: kvs =>
    if st.keyCnt < st.keys.length then
      match insert_on_demand P st kv [] with
      | .ok (true, st', _) => takeKeys P st' kvs
      | _ => none
    else none

def asked (kvs : List (K × ℕ)) (m : K → Option ℕ) : K → Option ℕ :=
  kvs.foldl (fun m kv => Function.update m kv.1 (some kv.2)) m

theorem takeKeys_reached {kvs : List (K × ℕ)} (h : Reached P st m)
    (hnew : ∀ kv ∈ kvs, m kv.1 = none) (hdiff : (kvs.map Prod.fst).Nodup) {st' : Othello K}
    (htake : takeKeys P st kvs = some st') : Reached P st' (asked kvs m) := by
  induction kvs generalizing st m with
  | nil =>
    obtain rfl := Option.some.inj htake
    exact h
  | cons kv kvs ih =>
    rw [List.map_cons, List.nodup_cons] at hdiff
    rw [List.forall_mem_cons] at hnew
    rw [takeKeys] at htake
    split at htake
    case isFalse => cases htake
    case isTrue hlt =>
      split at htake
      case h_2 => cases htake
      case h_1 st₁ flipped hrun =>
        refine ih (.insert_on_demand h hnew.1 hlt hrun) (fun other hmem => ?_) hdiff.2 htake
        have hne : other.1 ≠ kv.1 := fun heq =>
          hdiff.1 (List.mem_map.mpr ⟨other, hmem, heq⟩)
        exact (Function.update_of_ne hne ..).trans (hnew.2 other hmem)

def pathKeys : List (ℕ × ℕ) := [(0, 1), (1, 0), (2, 1), (3, 1), (4, 0)]

theorem pathSetup_reached : ∃ st, Reached pathSetup st (asked pathKeys fun _ => none) := by
  have htakes : ∃ st, construct pathSetup 4 0 0 = .ok (true, st) ∧
      (takeKeys pathSetup st pathKeys).isSome := by
    have hruns : (match construct pathSetup 4 0 0 with
      | .ok (true, st) => (takeKeys pathSetup st pathKeys).isSome
      | _ => false) = true := by decide +kernel
    split at hruns
    case h_1 st hc => exact ⟨st, hc, hruns⟩
    case h_2 => cases hruns
  obtain ⟨st₀, hc, htake⟩ := htakes
  obtain ⟨st, htake⟩ := Option.isSome_iff_exists.mp htake
  exact ⟨st, takeKeys_reached (.construct hc) (fun _ _ => rfl) (by decide) htake⟩

theorem reached_acts_as_map_path : ∃ st, Reached pathSetup st (asked pathKeys fun _ => none) ∧
    ActsAsMap pathSetup st (asked pathKeys fun _ => none) := by
  obtain ⟨st, h⟩ := pathSetup_reached
  exact ⟨st, h, reached_acts_as_map ⟨rfl, rfl, rfl⟩ h⟩

/-- `l` lists exactly the cells that change from `st` to `st'`, up to pairs, and a data plane
with the old cells that replays it gets the new ones. -/
structure FlipsExact (P : Setup K) (st st' : Othello K) (l : List ℕ) : Prop where
  cells : ∀ j < st.ma + st.mb,
    memGet P.toConfig st.mem j ≠ memGet P.toConfig st'.mem j ↔ Odd (l.count j)
  replay : ∀ dp : DataPlane, dp.mem = st.mem → (mem_value_flipping dp l).mem = st'.mem

omit [DecidableEq K] in
theorem Logged.flipsExact {flipped flipped' : List ℕ} (hlog : Logged P st flipped st' flipped')
    (hone : P.VDL = 1) (h : Invariant P st) (h' : Invariant P st') :
    ∃ l, flipped' = flipped ++ l ∧ FlipsExact P st st' l := by
  obtain ⟨l, rfl, hrep⟩ := hlog.flips
  refine ⟨l, rfl, fun j hj => ?_, fun dp hdp => ?_⟩
  · have hn : nodes st' = nodes st := by rw [nodes, nodes, hlog.tables.ma, hlog.tables.mb]
    exact hrep.memGet_ne_iff hone h.sized (hn ▸ h'.sized) hj
  · rw [mem_value_flipping, hdp]
    exact (hrep hone).2

/-- With one bit a cell, every on-demand operation in every run logs its flips exactly. -/
theorem reached_flips_exact (hP : Plain P) (hL : P.L = 1) (h : Reached P st m) :
    (∀ kv flipped st' flipped', insert_on_demand P st kv flipped = .ok (true, st', flipped') →
      ∃ l, flipped' = flipped ++ l ∧ FlipsExact P st st' l) ∧
    (∀ k flipped st' flipped', erase_on_demand P st k flipped = .ok (st', flipped') →
      ∃ l, flipped' = flipped ++ l ∧ FlipsExact P st st' l) ∧
    (∀ kv flipped st' flipped', (m kv.1).isSome = true →
      valueFlip_on_demand P st kv flipped = .ok (st', flipped') →
      ∃ l, flipped' = flipped ++ l ∧ FlipsExact P st st' l) := by
  obtain ⟨hinv, -⟩ := h.represents hP
  have hone : P.VDL = 1 := by rw [Config.VDL, hL, hP.noDigest]
  refine ⟨fun kv flipped st' flipped' hrun => ?_, fun k flipped st' flipped' hrun => ?_,
    fun kv flipped st' flipped' _ hrun => ?_⟩
  · obtain ⟨hlog, hdone⟩ := insert_on_demand_ok hP hinv hrun
    exact hlog.flipsExact hone hinv (hdone rfl).1
  · obtain ⟨hlog, hinv', -⟩ := erase_on_demand_ok hP hinv hrun
    exact hlog.flipsExact hone hinv hinv'
  · obtain ⟨hlog, hinv', -⟩ := valueFlip_on_demand_ok hP hinv hrun
    exact hlog.flipsExact hone hinv hinv'

theorem reached_flips_exact_path : ∃ (st st₁ st₂ : Othello ℕ) (l₁ l₂ : List ℕ),
    Reached pathSetup st (asked pathKeys fun _ => none) ∧
    valueFlip_on_demand pathSetup st (1, 1) [] = .ok (st₁, l₁) ∧ FlipsExact pathSetup st st₁ l₁ ∧
    erase_on_demand pathSetup st 2 [] = .ok (st₂, l₂) ∧ FlipsExact pathSetup st st₂ l₂ := by
  obtain ⟨st, h⟩ := pathSetup_reached
  obtain ⟨-, herase, hflip⟩ := reached_flips_exact ⟨rfl, rfl, rfl⟩ rfl h
  obtain ⟨hinv, hm⟩ := h.represents ⟨rfl, rfl, rfl⟩
  obtain ⟨st₁, flips₁, -, hrun₁, -⟩ := hm.valueFlip ⟨rfl, rfl, rfl⟩ hinv (1, 1) rfl []
  obtain ⟨st₂, flips₂, -, hrun₂, -⟩ := hm.erase ⟨rfl, rfl, rfl⟩ hinv 2 []
  obtain ⟨l₁, hl₁, hexact₁⟩ := hflip (1, 1) [] st₁ _ rfl hrun₁
  obtain ⟨l₂, hl₂, hexact₂⟩ := herase 2 [] st₂ _ hrun₂
  rw [hl₁] at hrun₁
  rw [hl₂] at hrun₂
  exact ⟨st, st₁, st₂, l₁, l₂, h, hrun₁, hexact₁, hrun₂, hexact₂⟩

end OthelloRun
