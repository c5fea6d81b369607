import TinyCR.OthelloRefill
import TinyCR.OthelloRun

/-! # Migration of the values

`compose` renames the values of an Othello and erases the keys whose value has no new name. The
loop moves the last key into the place of an erased one and looks at that place again, so that
every value is migrated once. -/
namespace OthelloMigration

open PackedCells ControlPlaneOthello DataPlaneOthello OthelloInvariant OthelloForests
  OthelloRefill OthelloRun

variable {K : Type} [Inhabited K] {P : Setup K} {st st' : Othello K} {values : List ℕ} {i : ℕ}

/-- What becomes of one value: `(uint16_t) -1` erases it. -/
def migrate (migration : ℕ → Option ℕ) (v : ℕ) : Option ℕ :=
  match migration v with
  | none => some v
  | some dst => if dst = 2 ^ 16 - 1 then none else some dst

def migrated (migration : ℕ → Option ℕ) (m : K → Option ℕ) (x : K) : Option ℕ :=
  (m x).bind (migrate migration)

/-- The pairs the loop ends with, if `values` are migrated below `i` and no further. -/
def Pending (migration : ℕ → Option ℕ) (st : Othello K) (values : List ℕ) (i : ℕ) (x : K) (w : ℕ) :
    Prop :=
  ∃ j, j < st.keyCnt ∧ keyAt st j = x ∧
    (j < i ∧ values.getD j 0 = w ∨ i ≤ j ∧ migrate migration (values.getD j 0) = some w)

section Loop

variable {migration : ℕ → Option ℕ} {x : K} {w : ℕ}

theorem pending_end (h : st.keyCnt ≤ i) : Pending migration st values i x w ↔
    ∃ j, j < st.keyCnt ∧ keyAt st j = x ∧ values.getD j 0 = w := by
  constructor
  · rintro ⟨j, hj, hx, ⟨-, hw⟩ | ⟨hij, -⟩⟩
    · exact ⟨j, hj, hx, hw⟩
    · omega
  · rintro ⟨j, hj, hx, hw⟩
    exact ⟨j, hj, hx, Or.inl ⟨by omega, hw⟩⟩

theorem pending_keep (h : migrate migration (values.getD i 0) = some (values.getD i 0)) :
    Pending migration st values (i + 1) x w ↔ Pending migration st values i x w := by
  refine exists_congr fun j => and_congr_right fun _ => and_congr_right fun _ => ?_
  rcases Nat.lt_trichotomy j i with hlt | rfl | hgt
  · exact ⟨fun hor => Or.inl ⟨hlt, hor.elim And.right fun hle => by omega⟩,
      fun hor => Or.inl ⟨by omega, hor.elim And.right fun hle => by omega⟩⟩
  · rw [h, Option.some_inj]
    constructor
    · rintro (⟨-, hw⟩ | ⟨hle, -⟩)
      · exact Or.inr ⟨Nat.le_refl j, hw⟩
      · omega
    · rintro (⟨hlt, -⟩ | ⟨-, hw⟩)
      · omega
      · exact Or.inl ⟨Nat.lt_succ_self j, hw⟩
  · exact ⟨fun hor => Or.inr ⟨by omega, hor.elim (fun hlt => by omega) And.right⟩,
      fun hor => Or.inr ⟨by omega, hor.elim (fun hlt => by omega) And.right⟩⟩

theorem pending_set {dst : ℕ} (hi : i < values.length)
    (h : migrate migration (values.getD i 0) = some dst) :
    Pending migration st (values.set i dst) (i + 1) x w ↔ Pending migration st values i x w := by
  have hself : (values.set i dst).getD i 0 = dst := by
    have hset := congrFun (NodeLists.getD_set values hi dst 0) i
    rwa [Function.update_self] at hset
  refine exists_congr fun j => and_congr_right fun _ => and_congr_right fun _ => ?_
  by_cases hij : j = i
  · rw [hij, hself, h, Option.some_inj]
    constructor
    · rintro (⟨-, hw⟩ | ⟨hle, -⟩)
      · exact Or.inr ⟨Nat.le_refl i, hw⟩
      · omega
    · rintro (⟨hlt, -⟩ | ⟨-, hw⟩)
      · omega
      · exact Or.inl ⟨Nat.lt_succ_self i, hw⟩
  · have hlt : j < i + 1 ↔ j < i := by omega
    have hle : i + 1 ≤ j ↔ i ≤ j := by omega
    rw [NodeLists.getD_set_of_ne values hij, hlt, hle]

theorem getD_erasedValues {cnt : ℕ} (hi : i < values.length) {e : ℕ} (he : e < cnt - 1) :
    (erasedValues values cnt i).getD e 0 = values.getD (oldId (cnt - 1) i e) 0 := by
  rw [erasedValues, oldId]
  by_cases hlast : i = cnt - 1
  · rw [if_neg (by omega : ¬ i ≠ cnt - 1), if_neg (by omega : e ≠ i)]
  · rw [if_pos hlast]
    have hset := congrFun (NodeLists.getD_set values hi (values.getD (cnt - 1) 0) 0) e
    refine hset.trans ?_
    rw [Function.update_apply]
    split
    · rfl
    · rfl

/-- An erased key leaves its place to the last one, which is still to be migrated. -/
theorem pending_erase (hi : i < st.keyCnt) (hlen : i < values.length) (her : Erased st i st')
    (h : migrate migration (values.getD i 0) = none) :
    Pending migration st' (erasedValues values st.keyCnt i) i x w ↔
      Pending migration st values i x w := by
  have hcnt := her.keyCnt
  constructor
  · rintro ⟨e, he, hx, hw⟩
    rw [getD_erasedValues hlen (hcnt ▸ he)] at hw
    rw [(her.entries e he).1, hcnt] at hx
    by_cases hei : e = i
    · -- the key that was the last one
      rw [oldId, if_pos hei] at hx hw
      refine ⟨st.keyCnt - 1, by omega, hx, ?_⟩
      rcases hw with ⟨hlt, -⟩ | ⟨-, hw⟩
      · omega
      · exact Or.inr ⟨by omega, hw⟩
    · rw [oldId, if_neg hei] at hx hw
      exact ⟨e, by omega, hx, hw⟩
  · rintro ⟨j, hj, hx, hw⟩
    have hji : j ≠ i := by
      rintro rfl
      rcases hw with ⟨hlt, -⟩ | ⟨-, hw⟩
      · omega
      · rw [h] at hw
        cases hw
    by_cases hlast : j = st.keyCnt - 1
    · have hold : oldId (st.keyCnt - 1) i i = j := by rw [oldId, if_pos rfl, hlast]
      have hi' : i < st'.keyCnt := by omega
      refine ⟨i, hi', ?_, ?_⟩
      · rw [(her.entries i hi').1, hcnt, hold]
        exact hx
      · rw [getD_erasedValues hlen (hcnt ▸ hi'), hold]
        rcases hw with ⟨hlt, -⟩ | ⟨-, hw⟩
        · omega
        · exact Or.inr ⟨Nat.le_refl i, hw⟩
    · have hold : oldId (st.keyCnt - 1) i j = j := by rw [oldId, if_neg hji]
      have hj' : j < st'.keyCnt := by omega
      refine ⟨j, hj', ?_, ?_⟩
      · rw [(her.entries j hj').1, hcnt, hold]
        exact hx
      · rw [getD_erasedValues hlen (hcnt ▸ hj'), hold]
        exact hw

end Loop

variable [DecidableEq K]

theorem composeFrom_pending (migration : ℕ → Option ℕ) (h : Reachable P st)
    (hlen : values.length = st.values.length) {fuel : ℕ} (hfuel : st.keyCnt - i < fuel) :
    ∃ st₁ values₁, composeFrom P migration (withValues st values) i fuel =
        .ok (withValues st₁ values₁) ∧ Reachable P st₁ ∧
      values₁.length = st₁.values.length ∧
      ∀ x w, (∃ j, j < st₁.keyCnt ∧ keyAt st₁ j = x ∧ values₁.getD j 0 = w) ↔
        Pending migration st values i x w := by
  induction fuel generalizing st values i with
  | zero => omega
  | succ fuel ih =>
    have hcnt : (withValues st values).keyCnt = st.keyCnt := rfl
    have hvals : (withValues st values).values = values := rfl
    by_cases hi : i < st.keyCnt
    case neg =>
      refine ⟨st, values, ?_, h, hlen, fun x w => (pending_end (by omega)).symm⟩
      rw [composeFrom, hcnt, if_neg hi]
    case pos =>
      have hlt : i < values.length := by
        rw [hlen, h.sound.values]
        exact hi.trans_le h.sound.keyCnt
      rw [composeFrom, hcnt, if_pos hi, hvals]
      cases hmig : migration (values.getD i 0) with
      | none =>
        have hkeep : migrate migration (values.getD i 0) = some (values.getD i 0) := by
          rw [migrate, hmig]
        obtain ⟨st₁, values₁, hrun, h₁, hlen₁, hpairs⟩ := ih (i := i + 1) h hlen (by omega)
        exact ⟨st₁, values₁, hrun, h₁, hlen₁, fun x w => (hpairs x w).trans (pending_keep hkeep)⟩
      | some dst =>
        dsimp only
        by_cases hdst : dst = 2 ^ 16 - 1
        case pos =>
          have hnone : migrate migration (values.getD i 0) = none := by
            rw [migrate, hmig]
            exact if_pos hdst
          obtain ⟨st', flips, hrun, -, -, -, -, her⟩ := h.sound.eraseId_spec hi
          have herase : eraseAt P st i = .ok st' := by
            simp only [eraseAt, if_neg (Nat.not_le_of_lt hi), eraseKey_eq, hrun, ok_bind]
            rfl
          have h' : Reachable P st' := .eraseAt h herase
          have hlen' : (erasedValues values st.keyCnt i).length = st'.values.length := by
            rw [h'.sound.values, her.length, ← h.sound.values, ← hlen, erasedValues]
            split
            · exact List.length_set ..
            · rfl
          have hcnt' := her.keyCnt
          obtain ⟨st₁, values₁, hrest, h₁, hlen₁, hpairs⟩ := ih (i := i) h' hlen' (by omega)
          refine ⟨st₁, values₁, ?_, h₁, hlen₁, fun x w =>
            (hpairs x w).trans (pending_erase hi hlt her hnone)⟩
          rw [if_pos hdst, eraseAt_values, herase]
          exact hrest
        case neg =>
          have hsome : migrate migration (values.getD i 0) = some dst := by
            rw [migrate, hmig]
            exact if_neg hdst
          have hset : (values.set i dst).length = st.values.length :=
            (List.length_set ..).trans hlen
          obtain ⟨st₁, values₁, hrest, h₁, hlen₁, hpairs⟩ := ih (i := i + 1) h hset (by omega)
          refine ⟨st₁, values₁, ?_, h₁, hlen₁, fun x w =>
            (hpairs x w).trans (pending_set hlt hsome)⟩
          rw [if_neg hdst]
          exact hrest

omit [DecidableEq K] in
theorem fillValue_map (hD : P.DL = 0) {keepDigest : Bool} (hsh : Shape P st)
    (hl : Linking P st st.keyCnt) (hz : Sized P.toConfig st.mem (nodes st))
    (hrun : fillValue P keepDigest st = .ok st') : SameMap st st' := by
  have hkd : keepDigest = true → P.DL = 0 := fun _ => hD
  by_cases hA : ∀ r, r < st.ma + st.mb →
      DisjointSet.isRoot st.connectivityForest r = true → r < st.ma
  case neg =>
    push Not at hA
    obtain ⟨r, hr, hroot, hB⟩ := hA
    rw [fillValue, fillValueFrom_assertion hkd hsh hl (fun _ => hz)
      ⟨r, Nat.zero_le r, by omega, hroot, hB⟩] at hrun
    cases hrun
  case pos =>
    obtain ⟨st₁, hfill, honly, -⟩ := fillValueFrom_spec (i := 0) (m := st.ma + st.mb) hkd hsh hl
      (fun _ => hz) fun r _ hr => hA r (by omega)
    obtain rfl : st₁ = st' := Except.ok.inj (hfill.symm.trans hrun)
    rw [honly]
    exact ⟨rfl, rfl, rfl⟩

omit [DecidableEq K] in
theorem represents_same {m : K → Option ℕ} (hm : Represents st m) (h : SameMap st st') :
    Represents st' m := by
  intro x v
  rw [hm x v, h.keyCnt, h.values]
  simp only [keyAt, h.keys]

/-- In every state of every run `compose` migrates each value once: without cells at once, with
cells as far as they can be refilled, and then the data plane answers with the migrated values. -/
theorem compose_migrates (hD : P.DL = 0) (h : Reachable P st) {m : K → Option ℕ}
    (hm : Represents st m) (migration : ℕ → Option ℕ) :
    ∃ st₁, composeFrom P migration st 0 (st.keyCnt + 1) = .ok st₁ ∧
      Represents st₁ (migrated migration m) ∧
      (P.maintainDP = false → compose P st migration = .ok st₁) ∧
      (P.maintainDP = true → Refillable P st₁ →
        ∃ st', compose P st migration = .ok st' ∧ Represents st' (migrated migration m) ∧
          ∀ x v, migrated migration m x = some v →
            DataPlaneOthello.query P (fullSync st') x =
              (true, BitVec.ofNat 64 (v % 2 ^ P.L))) := by
  obtain ⟨st₂, values, hloop, h₂, hlen, hpairs⟩ :=
    composeFrom_pending (i := 0) migration h (rfl : st.values.length = st.values.length)
      (by omega : st.keyCnt - 0 < st.keyCnt + 1)
  have hloop : composeFrom P migration st 0 (st.keyCnt + 1) = .ok (withValues st₂ values) := hloop
  have hs := h₂.sound
  have hmap : Represents (withValues st₂ values) (migrated migration m) := by
    intro x w
    refine Iff.trans ?_ (hpairs x w).symm
    rw [migrated, Option.bind_eq_some_iff]
    constructor
    · rintro ⟨v, hv, hw⟩
      obtain ⟨j, hj, hx, rfl⟩ := (hm x v).mp hv
      exact ⟨j, hj, hx, Or.inr ⟨Nat.zero_le j, hw⟩⟩
    · rintro ⟨j, hj, hx, ⟨hlt, -⟩ | ⟨-, hw⟩⟩
      · omega
      · exact ⟨st.values.getD j 0, (hm x _).mpr ⟨j, hj, hx, rfl⟩, hw⟩
  have hmaint : (withValues st₂ values).maintainingDP = P.maintainDP := hs.cells.maintaining
  refine ⟨withValues st₂ values, hloop, hmap, ?_, ?_⟩
  · intro hDP
    simp only [compose, hloop, ok_bind, hmaint, hDP, Bool.false_eq_true, if_false]
    rfl
  · intro hDP hfillable
    have hind : Indexed P (withValues st₂ values) st₂.keyCnt := hs.toIndexed.withValues values hlen
    have hz : Sized P.toConfig (withValues st₂ values).mem (nodes (withValues st₂ values)) :=
      hs.cells.sized hDP
    obtain ⟨st', hfill, hanswers⟩ :=
      (refill_iff hD true hind.toShape hind.linking (hmaint.trans hDP) hz).mpr hfillable
    have hmap' : Represents st' (migrated migration m) :=
      represents_same hmap (fillValue_map hD hind.toShape hind.linking hz hfill)
    refine ⟨st', ?_, hmap', ?_⟩
    · simp only [compose, hloop, ok_bind, hmaint, hDP, if_true]
      exact hfill
    · intro x v hv
      obtain ⟨j, hj, rfl, rfl⟩ := (hmap' x v).mp hv
      exact hanswers j hj

def storesKey : Except Fault (Bool × Othello ℕ) → Bool
  | .ok (true, st) =>
    match insert refillSetup true st (5, 1) with
    | .ok (some _, st₁) =>
      decide (st₁.keyCnt = 1 ∧ keyAt st₁ 0 = 5 ∧ st₁.values.getD 0 0 = 1)
    | _ => false
  | _ => false

def oneKey (x : ℕ) : Option ℕ := if x = 5 then some 1 else none

theorem refillSetup_stored : ∃ st, Reachable refillSetup st ∧ Represents st oneKey := by
  have hruns : storesKey (construct refillSetup 4 0 0) = true := by decide +kernel
  obtain ⟨st, hc, hruns⟩ := of_construct hruns (by simp [storesKey]) (by simp [storesKey])
  rw [storesKey] at hruns
  split at hruns
  case h_2 => cases hruns
  case h_1 y st₁ hi =>
    obtain ⟨hcnt, hkey, hval⟩ := of_decide_eq_true hruns
    refine ⟨st₁, .insert (.construct hc) hi, fun x v => ?_⟩
    rw [oneKey, hcnt]
    constructor
    · intro hx
      split at hx
      case isTrue h5 => exact ⟨0, by decide, hkey.trans h5.symm, hval.trans (by simpa using hx)⟩
      case isFalse => cases hx
    · rintro ⟨j, hj, rfl, rfl⟩
      obtain rfl : j = 0 := by omega
      rw [hkey, hval, if_pos rfl]

theorem compose_migrates_erased : ∃ st st₁, Reachable refillSetup st ∧ Represents st oneKey ∧
    compose refillSetup st (fun _ => some (2 ^ 16 - 1)) = .ok st₁ ∧ ∀ v, ¬ ∃ i, i < st₁.keyCnt ∧
      keyAt st₁ i = 5 ∧ st₁.values.getD i 0 = v := by
  obtain ⟨st, h, hm⟩ := refillSetup_stored
  obtain ⟨st₁, -, hmap, hrun, -⟩ := compose_migrates rfl h hm fun _ => some (2 ^ 16 - 1)
  refine ⟨st, st₁, h, hm, hrun rfl, fun v hv => ?_⟩
  cases (hmap 5 v).mpr hv

end OthelloMigration
