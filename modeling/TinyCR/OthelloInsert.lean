import TinyCR.OthelloBuild

/-! # Growing and inserting

`resizeKey` grows the arrays and rebuilds when the tables change their size; `insert` makes
room first and rebuilds when the new key would close a cycle. -/
namespace OthelloInvariant

open PackedCells EdgeForest EdgeLabels NodeLists ComponentSets ControlPlaneOthello
  DataPlaneOthello

variable {K : Type} [Inhabited K] {P : Setup K} {st : Othello K} {n : ℕ}

structure SameEntries (st st' : Othello K) : Prop where
  keyCnt : st'.keyCnt = st.keyCnt
  keyAt : ∀ i, i < st.keyCnt → keyAt st' i = ControlPlaneOthello.keyAt st i
  values : ∀ i, i < st.keyCnt → st'.values.getD i 0 = st.values.getD i 0

theorem SameEntries.refl (st : Othello K) : SameEntries st st :=
  ⟨rfl, fun _ _ => rfl, fun _ _ => rfl⟩

theorem SameMap.entries {st st' : Othello K} (h : SameMap st st') : SameEntries st st' :=
  ⟨h.keyCnt, fun i _ => by rw [keyAt, h.keys, keyAt], fun i _ => by rw [h.values]⟩

theorem SameEntries.trans {st st' st'' : Othello K} (h : SameEntries st st')
    (h' : SameEntries st' st'') : SameEntries st st'' :=
  ⟨h'.keyCnt.trans h.keyCnt,
    fun i hi => (h'.keyAt i (h.keyCnt.symm ▸ hi)).trans (h.keyAt i hi),
    fun i hi => (h'.values i (h.keyCnt.symm ▸ hi)).trans (h.values i hi)⟩

@[simp] theorem length_resized {α : Type} (l : List α) (n : ℕ) (pad : α) :
    (resized l n pad).length = n := by
  simp [resized]
  omega

theorem getD_resized {α : Type} (l : List α) {n i : ℕ} (pad d : α) (hi : i < l.length)
    (hn : i < n) : (resized l n pad).getD i d = l.getD i d := by
  have hlen : i < (l.take n).length := by
    rw [List.length_take]
    omega
  rw [resized, List.getD_eq_getElem?_getD, List.getElem?_append_left hlen,
    List.getElem?_take_of_lt hn, List.getD_eq_getElem?_getD]

theorem getD_resized_of_le {α : Type} (l : List α) (n : ℕ) {i : ℕ} (pad : α) (hi : l.length ≤ i) :
    (resized l n pad).getD i pad = pad := by
  have hlen : (l.take n).length ≤ i := (List.length_take_le' _ _).trans hi
  rw [resized, List.getD_eq_getElem?_getD, List.getElem?_append_right hlen,
    List.getElem?_replicate]
  split <;> rfl

structure KeyArrays (st : Othello K) : Prop where
  values : st.values.length = st.keys.length
  nextAtA : st.nextAtA.length = st.keys.length
  nextAtB : st.nextAtB.length = st.keys.length
  keyCnt : st.keyCnt ≤ st.keys.length

omit [Inhabited K] in
theorem Shape.keyArrays (h : Shape P st) : KeyArrays st :=
  ⟨h.values, h.nextAtA, h.nextAtB, h.keyCnt⟩

theorem KeyArrays.reserve (h : KeyArrays st) {capacity : ℕ} (hle : st.keyCnt ≤ capacity) :
    KeyArrays (reserveKeys st capacity) ∧ SameEntries st (reserveKeys st capacity) ∧
      SameStore st (reserveKeys st capacity) st.keyCnt ∧
      SameSettings st (reserveKeys st capacity) ∧
      capacity ≤ (reserveKeys st capacity).keys.length := by
  rw [reserveKeys]
  split
  case isTrue hgrow =>
    have hcnt := h.keyCnt
    have hkeys : ∀ i, i < st.keyCnt → (resized st.keys (max 256 (capacity * 2)) default).getD i
        default = st.keys.getD i default := fun i hi =>
      getD_resized _ _ _ (hi.trans_le hcnt) (by omega)
    have hvalues : ∀ i, i < st.keyCnt → (resized st.values (max 256 (capacity * 2)) 0).getD i 0 =
        st.values.getD i 0 := fun i hi =>
      getD_resized _ _ _ (by rw [h.values]; omega) (by omega)
    refine ⟨⟨by simp, by simp, by simp, ?_⟩, ⟨rfl, hkeys, hvalues⟩,
      { tables := ⟨rfl, rfl, rfl, rfl⟩, maintainingDP := rfl, mem := rfl, indMem := rfl
        head := rfl, forest := rfl, keyAt := hkeys, values := hvalues
        nextAtA := fun e he => getD_resized _ _ _ (by rw [h.nextAtA]; omega) (by omega)
        nextAtB := fun e he => getD_resized _ _ _ (by rw [h.nextAtB]; omega) (by omega)
        length := ?_ }, ⟨rfl, rfl⟩, ?_⟩
    all_goals
      simp
      omega
  case isFalse hroom =>
    exact ⟨h, SameEntries.refl st,
      { tables := SameTables.refl st, maintainingDP := rfl, mem := rfl, indMem := rfl
        head := rfl, forest := rfl, keyAt := fun _ _ => rfl, values := fun _ _ => rfl
        nextAtA := fun _ _ => rfl, nextAtB := fun _ _ => rfl, length := h.keyCnt },
      ⟨rfl, rfl⟩, by omega⟩

theorem Consistent.reserved (h : Consistent P st st.keyCnt) {capacity : ℕ}
    (hle : st.keyCnt ≤ capacity) : Consistent P (reserveKeys st capacity) st.keyCnt := by
  obtain ⟨harrays, hentries, hstore, -, -⟩ := h.keyArrays.reserve hle
  have hn := nodes_same hstore.tables
  refine h.congr ?_ hstore
  exact
    { ma_pos := hstore.tables.ma.symm ▸ h.ma_pos, mb_pos := hstore.tables.mb.symm ▸ h.mb_pos
      indMem := by rw [hstore.indMem, hn]; exact h.indMem
      head := by rw [hstore.head, hn]; exact h.head
      forest := by rw [hstore.forest, hn]; exact h.forest
      values := harrays.values, nextAtA := harrays.nextAtA, nextAtB := harrays.nextAtB
      keyCnt := harrays.keyCnt }

theorem growMb_ge {target fuel mb mb' : ℕ} (h : growMb target fuel mb = some mb') :
    target ≤ mb' := by
  induction fuel generalizing mb with
  | zero => simp [growMb] at h
  | succ fuel ih =>
    rw [growMb] at h
    split at h
    · exact ih h
    · obtain rfl := Option.some.inj h
      omega

theorem nextMaOf_pos {mb : ℕ} (h : 0 < mb) : 0 < nextMaOf mb := by
  rw [nextMaOf]
  omega

/-- The next number of B nodes, for the capacity `resizeKey` goes for. -/
def nextMbOf (st : Othello K) (capacity : ℕ) (compact : Bool) : Option ℕ :=
  if compact then some capacity else growMb capacity 33 st.minimalKeyCapacity

omit [Inhabited K] in
theorem nextMbOf_ge {capacity nextMb : ℕ} {compact : Bool}
    (h : nextMbOf st capacity compact = some nextMb) : capacity ≤ nextMb := by
  rw [nextMbOf] at h
  split at h
  · exact (Option.some.inj h).le
  · exact growMb_ge h

def resizes (st : Othello K) (nextMb : ℕ) : Prop :=
  nextMaOf nextMb > st.ma ∨ 5 * nextMaOf nextMb < 4 * st.ma

instance (st : Othello K) (nextMb : ℕ) : Decidable (resizes st nextMb) :=
  inferInstanceAs (Decidable (_ ∨ _))

theorem reserveKeys_ma (st : Othello K) (capacity : ℕ) : (reserveKeys st capacity).ma = st.ma := by
  rw [reserveKeys]
  split <;> rfl

theorem reserveKeys_maintaining (st : Othello K) (capacity : ℕ) :
    (reserveKeys st capacity).maintainingDP = st.maintainingDP := by
  rw [reserveKeys]
  split <;> rfl

theorem resizeKey_eq (P : Setup K) (st : Othello K) (target : ℕ) (compact : Bool) :
    resizeKey P st target compact =
      if max target st.minimalKeyCapacity < st.keyCnt then .ok (false, st)
      else
        match nextMbOf st (max target st.minimalKeyCapacity) compact with
        | none => .error .diverge
        | some nextMb =>
          if resizes st nextMb then
            if addressable P st.maintainingDP (nextMaOf nextMb) nextMb then
              build P (resizeTables P (reserveKeys st (max target st.minimalKeyCapacity))
                (nextMaOf nextMb) nextMb)
            else .error .outOfBounds
          else .ok (true, reserveKeys st (max target st.minimalKeyCapacity)) := by
  have hma := reserveKeys_ma st (max target st.minimalKeyCapacity)
  have hm := reserveKeys_maintaining st (max target st.minimalKeyCapacity)
  simp only [resizeKey, nextMbOf]
  split
  case isTrue => rfl
  case isFalse =>
    have hrest : ∀ nextMb, (do
        let st₁ := reserveKeys st (max target st.minimalKeyCapacity)
        if nextMaOf nextMb > st.ma ∨ 5 * nextMaOf nextMb < 4 * st.ma then
          if !addressable P st.maintainingDP (nextMaOf nextMb) nextMb then throw .outOfBounds
          build P (resizeTables P st₁ (nextMaOf nextMb) nextMb)
        else return (true, st₁)) = (if resizes st nextMb then
          if addressable P st.maintainingDP (nextMaOf nextMb) nextMb then
            build P (resizeTables P (reserveKeys st (max target st.minimalKeyCapacity))
              (nextMaOf nextMb) nextMb)
          else .error .outOfBounds
        else .ok (true, reserveKeys st (max target st.minimalKeyCapacity)) :
          Except Fault (Bool × Othello K)) := by
      intro nextMb
      by_cases hres : resizes st nextMb
      · have hres' : nextMaOf nextMb > st.ma ∨ 5 * nextMaOf nextMb < 4 * st.ma := hres
        simp only [if_pos hres, if_pos hres']
        cases addressable P st.maintainingDP (nextMaOf nextMb) nextMb <;> rfl
      · have hres' : ¬ (nextMaOf nextMb > st.ma ∨ 5 * nextMaOf nextMb < 4 * st.ma) := hres
        simp only [if_neg hres, if_neg hres']
        rfl
    cases compact
    case true =>
      simp only [if_true, pure_bind, hma, hm]
      exact hrest _
    case false =>
      simp only [Bool.false_eq_true, if_false]
      cases growMb (max target st.minimalKeyCapacity) 33 st.minimalKeyCapacity with
      | none => rfl
      | some nextMb =>
        simp only [pure_bind, hma, hm]
        exact hrest _

omit [Inhabited K] in
theorem KeyArrays.shape (h : KeyArrays st) {nextMa nextMb : ℕ} (ha : 0 < nextMa)
    (hb : 0 < nextMb) : Shape P (resizeTables P st nextMa nextMb) where
  ma_pos := ha
  mb_pos := hb
  indMem := length_resized ..
  head := length_resized ..
  forest := DisjointSet.length_resize ..
  values := h.values
  nextAtA := h.nextAtA
  nextAtB := h.nextAtB
  keyCnt := h.keyCnt

def grown (P : Setup K) (st : Othello K) (capacity nextMb : ℕ) : Othello K :=
  resizeTables P (reserveKeys st capacity) (nextMaOf nextMb) nextMb

theorem grown_draws (st : Othello K) (capacity nextMb : ℕ) :
    (grown P st capacity nextMb).draws = st.draws := by
  simp only [grown, resizeTables, reserveKeys]
  split <;> rfl

theorem memFits_grown (st : Othello K) (capacity : ℕ) {nextMb : ℕ}
    (hadd : addressable P st.maintainingDP (nextMaOf nextMb) nextMb = true) :
    MemFits P (grown P st capacity nextMb) := by
  intro hm
  have hm₁ : (reserveKeys st capacity).maintainingDP = true := hm
  have hm₂ : st.maintainingDP = true := (reserveKeys_maintaining st capacity).symm.trans hm₁
  rw [addressable, decide_eq_true_eq] at hadd
  have hfits := hadd.2 hm₂
  refine ⟨hfits, ?_⟩
  simp only [grown, resizeTables, hm₁, if_true, length_resized, memWords]
  rw [Nat.mod_eq_of_lt hfits]
  rfl

theorem grown_indMem (st : Othello K) (capacity nextMb : ℕ) :
    (grown P st capacity nextMb).indMem =
      resized st.indMem (nextMaOf nextMb + nextMb) 0 := by
  simp only [grown, resizeTables, reserveKeys]
  split <;> rfl

theorem KeyArrays.resizeKey_spec (h : KeyArrays st) {target : ℕ} {compact ok : Bool}
    {st' : Othello K} (hpos : 0 < max target st.minimalKeyCapacity)
    (hle : st.keyCnt ≤ max target st.minimalKeyCapacity)
    (hrun : resizeKey P st target compact = .ok (ok, st')) :
    ∃ nextMb, nextMbOf st (max target st.minimalKeyCapacity) compact = some nextMb ∧
      ((resizes st nextMb ∧ addressable P st.maintainingDP (nextMaOf nextMb) nextMb = true ∧
        Shape P st' ∧ MemFits P st' ∧
        Rebuilt (grown P st (max target st.minimalKeyCapacity) nextMb) st' ∧
        (ok = true ↔ ∃ i < MAX_REHASH, Acyclic (seeded P
          (grown P st (max target st.minimalKeyCapacity) nextMb) (P.rand (st.draws + i)))) ∧
        (ok = true → Built P st') ∧
        (ok = false → GaveUp P (grown P st (max target st.minimalKeyCapacity) nextMb) st')) ∨
      (¬ resizes st nextMb ∧ ok = true ∧
        st' = reserveKeys st (max target st.minimalKeyCapacity))) := by
  rw [resizeKey_eq, if_neg (Nat.not_lt.mpr hle)] at hrun
  cases hmb : nextMbOf st (max target st.minimalKeyCapacity) compact with
  | none =>
    rw [hmb] at hrun
    cases hrun
  | some nextMb =>
    rw [hmb] at hrun
    refine ⟨nextMb, rfl, ?_⟩
    have hmbpos : 0 < nextMb := hpos.trans_le (nextMbOf_ge hmb)
    dsimp only at hrun
    split at hrun
    case isTrue hres =>
      split at hrun
      case isTrue hadd =>
        obtain ⟨harrays, -⟩ := h.reserve hle
        have hgrown : Shape P (grown P st (max target st.minimalKeyCapacity) nextMb) :=
          harrays.shape (nextMaOf_pos hmbpos) hmbpos
        obtain ⟨built, st₁, hbuild, hsh, hz, hkeep, hiff, hbuilt, hgave⟩ :=
          hgrown.build_spec (memFits_grown _ _ hadd)
        obtain ⟨rfl, rfl⟩ := Prod.mk.inj (Except.ok.inj (hbuild.symm.trans hrun))
        rw [grown_draws] at hiff
        exact Or.inl ⟨hres, hadd, hsh, hz, hkeep, hiff, hbuilt, hgave⟩
      case isFalse => cases hrun
    case isFalse hres =>
      obtain ⟨rfl, rfl⟩ := Prod.mk.inj (Except.ok.inj hrun)
      exact Or.inr ⟨hres, rfl, rfl⟩

theorem KeyArrays.resized_entries (h : KeyArrays st) {capacity nextMb : ℕ}
    {st' : Othello K} (hle : st.keyCnt ≤ capacity)
    (hkeep : Rebuilt (grown P st capacity nextMb) st') :
    SameEntries st st' ∧ SameSettings st st' ∧ capacity ≤ st'.keys.length := by
  obtain ⟨-, hentries, -, hset, hlen⟩ := h.reserve hle
  have hsame : SameEntries (reserveKeys st capacity) (grown P st capacity nextMb) :=
    ⟨rfl, fun _ _ => rfl, fun _ _ => rfl⟩
  refine ⟨(hentries.trans hsame).trans hkeep.map.entries,
    hset.trans ⟨hkeep.settings.maintainingDP, hkeep.settings.minimalKeyCapacity⟩, ?_⟩
  rw [hkeep.map.keys]
  exact hlen

theorem Consistent.resizeKey (h : Consistent P st st.keyCnt) {target : ℕ} {compact : Bool}
    {st' : Othello K} (hpos : 0 < target) (hle : st.keyCnt ≤ target)
    (hrun : resizeKey P st target compact = .ok (true, st')) :
    Consistent P st' st'.keyCnt ∧ SameEntries st st' ∧ SameSettings st st' ∧
      target ≤ st'.keys.length := by
  have hpos' : 0 < max target st.minimalKeyCapacity := lt_max_of_lt_left hpos
  have hle' : st.keyCnt ≤ max target st.minimalKeyCapacity := le_max_of_le_left hle
  obtain ⟨nextMb, -, ⟨-, -, -, hz, hkeep, -, hbuilt, -⟩ | ⟨-, -, rfl⟩⟩ :=
    h.keyArrays.resizeKey_spec hpos' hle' hrun
  · obtain ⟨hentries, hset, hlen⟩ := h.keyArrays.resized_entries hle' hkeep
    exact ⟨(hbuilt rfl).consistent hz (hset.maintainingDP.trans h.cells.maintaining), hentries,
      hset, (le_max_left _ _).trans hlen⟩
  · obtain ⟨-, hentries, -, hset, hlen⟩ := h.keyArrays.reserve hle'
    exact ⟨hentries.keyCnt.symm ▸ h.reserved hle', hentries, hset, (le_max_left _ _).trans hlen⟩

/-- The least capacity was doubled to get the tables, and the key arrays keep up with them. -/
structure Sizes (st : Othello K) : Prop where
  ma : st.ma = nextMaOf st.mb
  mb : ∃ j, st.mb = st.minimalKeyCapacity * 2 ^ j
  keys : st.mb < 2 * st.keys.length

omit [Inhabited K] in
theorem Sizes.same {st' : Othello K} (h : Sizes st) (hma : st'.ma = st.ma) (hmb : st'.mb = st.mb)
    (hs : SameSettings st st') (hl : st.keys.length ≤ st'.keys.length) : Sizes st' where
  ma := by rw [hma, hmb, h.ma]
  mb := by
    rw [hmb, hs.minimalKeyCapacity]
    exact h.mb
  keys := by
    rw [hmb]
    exact h.keys.trans_le (Nat.mul_le_mul_left 2 hl)

omit [Inhabited K] in
theorem nextMb_lt {maintainingDP : Bool} {nextMb : ℕ}
    (h : addressable P maintainingDP (nextMaOf nextMb) nextMb = true) : nextMb < 2 ^ 31 := by
  rw [addressable, decide_eq_true_eq] at h
  have hma : nextMb ≤ nextMaOf nextMb := by
    rw [nextMaOf]
    omega
  omega

theorem growMb_doubles {target fuel mb r : ℕ} (h : growMb target fuel mb = some r)
    (hr : r < 2 ^ 31) : ∃ i, r = mb * 2 ^ i ∧ (r = mb ∨ r < 2 * target) := by
  have hge := growMb_ge h
  induction fuel generalizing mb with
  | zero => simp [growMb] at h
  | succ fuel ih =>
    rw [growMb] at h
    split at h
    case isTrue hlt =>
      have hdouble : (mb <<< 1) % 2 ^ 32 = 2 * mb := by
        rw [Nat.shiftLeft_eq, pow_one, Nat.mod_eq_of_lt (by omega)]
        omega
      rw [hdouble] at h
      obtain ⟨i, hi, hor⟩ := ih h
      refine ⟨i + 1, ?_, Or.inr ?_⟩
      · rw [hi, pow_succ']
        ring
      · rcases hor with hor | hor <;> omega
    case isFalse =>
      obtain rfl := Option.some.inj h
      exact ⟨0, by rw [pow_zero, Nat.mul_one], Or.inl rfl⟩

omit [Inhabited K] in
theorem sizes_of_next {st' : Othello K} {capacity nextMb : ℕ}
    (hmb : nextMbOf st capacity false = some nextMb)
    (hadd : addressable P st.maintainingDP (nextMaOf nextMb) nextMb = true) (hpos : 0 < capacity)
    (hmin : st.minimalKeyCapacity ≤ capacity) (hma' : st'.ma = nextMaOf nextMb)
    (hmb' : st'.mb = nextMb) (hs : SameSettings st st') (hl : capacity ≤ st'.keys.length) :
    Sizes st' := by
  obtain ⟨i, hi, hor⟩ := growMb_doubles (by simpa [nextMbOf] using hmb) (nextMb_lt hadd)
  refine ⟨by rw [hma', hmb'], ⟨i, ?_⟩, ?_⟩
  · rw [hmb', hs.minimalKeyCapacity]
    exact hi
  · rw [hmb']
    rcases hor with hor | hor <;> omega

theorem nextMaOf_double {mb nextMb : ℕ} (h : 2 * mb ≤ nextMb) :
    nextMaOf mb + mb ≤ nextMaOf nextMb := by
  rw [nextMaOf, nextMaOf]
  omega

omit [Inhabited K] in
/-- The tables only change when they grow, and then array A takes in all the old nodes. -/
theorem Sizes.grows (h : Sizes st) {nextMb : ℕ}
    (hroom : st.keyCnt + 1 ≥ st.keys.length ∨ st.keyCnt ≥ st.mb)
    (hmb : nextMbOf st (max (st.keyCnt + 1) st.minimalKeyCapacity) false = some nextMb)
    (hadd : addressable P st.maintainingDP (nextMaOf nextMb) nextMb = true)
    (hres : resizes st nextMb) :
    st.ma + st.mb ≤ nextMaOf nextMb := by
  have hge := nextMbOf_ge hmb
  obtain ⟨i, hi, hor⟩ := growMb_doubles (by simpa [nextMbOf] using hmb) (nextMb_lt hadd)
  obtain ⟨j, hj⟩ := h.mb
  have hkeys := h.keys
  rw [h.ma]
  apply nextMaOf_double
  -- both sizes are the least capacity times a power of two
  rcases Nat.lt_trichotomy i j with hij | rfl | hij
  · have hle : 2 * nextMb ≤ st.mb := by
      rw [hi, hj]
      calc 2 * (st.minimalKeyCapacity * 2 ^ i) = st.minimalKeyCapacity * 2 ^ (i + 1) := by ring
        _ ≤ st.minimalKeyCapacity * 2 ^ j :=
          Nat.mul_le_mul_left _ (Nat.pow_le_pow_right (by decide) hij)
    omega
  · have heq : nextMb = st.mb := hi.trans hj.symm
    rw [resizes, heq, h.ma] at hres
    omega
  · rw [hi, hj]
    calc 2 * (st.minimalKeyCapacity * 2 ^ j) = st.minimalKeyCapacity * 2 ^ (j + 1) := by ring
      _ ≤ st.minimalKeyCapacity * 2 ^ i :=
        Nat.mul_le_mul_left _ (Nat.pow_le_pow_right (by decide) hij)

def blank (P : Setup K) (scaledCapacity : ℕ) (hd : BitVec 32) (draws : ℕ) : Othello K :=
  { mem := [], ma := 0, mb := 0, hab := P.rand draws, hd := hd, maintainingDP := P.maintainDP,
    keyCnt := 0, minimalKeyCapacity := scaledCapacity + 1, keys := [], values := [],
    indMem := [], head := [], nextAtA := [], nextAtB := [], connectivityForest := [],
    draws := draws + 1 }

theorem construct_eq (P : Setup K) (scaledCapacity : ℕ) (hd : BitVec 32) (draws : ℕ) :
    construct P scaledCapacity hd draws = (do
      let (ok, st) ← resizeKey P (blank P scaledCapacity hd draws) 0 true
      if ok then build P (resetBuildState P st)
      else return (false, st)) := rfl

omit [Inhabited K] in
theorem keyArrays_blank (P : Setup K) (scaledCapacity : ℕ) (hd : BitVec 32) (draws : ℕ) :
    KeyArrays (blank P scaledCapacity hd draws) :=
  ⟨rfl, rfl, rfl, Nat.le_refl 0⟩

omit [Inhabited K] in
/-- A check that only a constructed Othello passes. -/
theorem of_construct {α : Type} {r : Except Fault (Bool × Othello K)} {a : α}
    {f : Except Fault (Bool × Othello K) → α} (h : f r = a) (herror : ∀ e, f (.error e) ≠ a)
    (hthrown : ∀ st, f (.ok (false, st)) ≠ a) :
    ∃ st, r = .ok (true, st) ∧ f (.ok (true, st)) = a := by
  rcases r with e | ⟨_ | _, st⟩
  · exact absurd h (herror e)
  · exact absurd h (hthrown st)
  · exact ⟨st, rfl, h⟩

theorem construct_consistent {scaledCapacity draws : ℕ} {hd : BitVec 32} {st' : Othello K}
    (hrun : construct P scaledCapacity hd draws = .ok (true, st')) :
    Consistent P st' st'.keyCnt ∧ st'.keyCnt = 0 ∧
      st'.minimalKeyCapacity = scaledCapacity + 1 ∧ Sizes st' ∧ Built P st' := by
  have harrays := keyArrays_blank P scaledCapacity hd draws
  rw [construct_eq] at hrun
  generalize hst₀ : blank P scaledCapacity hd draws = st₀ at hrun harrays
  have hmin : st₀.minimalKeyCapacity = scaledCapacity + 1 := hst₀ ▸ rfl
  have hcnt : st₀.keyCnt = 0 := hst₀ ▸ rfl
  have hma : st₀.ma = 0 := hst₀ ▸ rfl
  have hmaint : st₀.maintainingDP = P.maintainDP := hst₀ ▸ rfl
  have hpos : 0 < max 0 st₀.minimalKeyCapacity := by
    rw [hmin]
    exact lt_max_of_lt_right (Nat.succ_pos _)
  have hle : st₀.keyCnt ≤ max 0 st₀.minimalKeyCapacity := by
    rw [hcnt]
    exact Nat.zero_le _
  cases hres : ControlPlaneOthello.resizeKey P st₀ 0 true with
  | error f =>
    rw [hres] at hrun
    cases hrun
  | ok r =>
    obtain ⟨ok, st₁⟩ := r
    rw [hres, ok_bind] at hrun
    cases ok with
    | false => cases hrun
    | true =>
      replace hrun : build P (resetBuildState P st₁) = .ok (true, st') := hrun
      obtain ⟨nextMb, hmb, ⟨-, hadd, hsh, hz, hkeep, -⟩ | ⟨hno, -, -⟩⟩ :=
        harrays.resizeKey_spec hpos hle hres
      case inr =>
        refine absurd (Or.inl ?_) hno
        rw [hma]
        exact nextMaOf_pos (hpos.trans_le (nextMbOf_ge hmb))
      case inl =>
        obtain ⟨hentries, hset, hlen⟩ := harrays.resized_entries hle hkeep
        obtain ⟨built, st₂, hbuild, -, hz₂, hkeep₂, -, hbuilt, -⟩ :=
          hsh.reset.build_spec hz.reset
        obtain ⟨rfl, rfl⟩ := Prod.mk.inj (Except.ok.inj (hbuild.symm.trans hrun))
        have hset₂ : SameSettings st₁ st₂ :=
          ⟨hkeep₂.settings.maintainingDP, hkeep₂.settings.minimalKeyCapacity⟩
        have hcnt₂ : st₂.keyCnt = st₁.keyCnt := hkeep₂.map.keyCnt
        have hcap : nextMb = scaledCapacity + 1 := by
          rw [hmin, Nat.zero_max, nextMbOf, if_pos rfl] at hmb
          exact (Option.some.inj hmb).symm
        have hmb₂ : st₂.mb = nextMb := hkeep₂.mb.trans hkeep.mb
        have hma₂ : st₂.ma = nextMaOf nextMb := hkeep₂.ma.trans hkeep.ma
        have hmin₂ := (hset.trans hset₂).minimalKeyCapacity.trans hmin
        refine ⟨(hbuilt rfl).consistent hz₂ ?_, hcnt₂.trans (hentries.keyCnt.trans hcnt), hmin₂,
          ⟨by rw [hma₂, hmb₂], ⟨0, by rw [hmb₂, hmin₂, hcap, pow_zero, Nat.mul_one]⟩, ?_⟩,
          hbuilt rfl⟩
        · exact (hset.trans hset₂).maintainingDP.trans hmaint
        · rw [hmin, Nat.zero_max] at hlen
          have hkeys₂ : st₂.keys.length = st₁.keys.length := congrArg List.length hkeep₂.map.keys
          omega

structure Stored (st : Othello K) (kv : K × ℕ) (st' : Othello K) : Prop where
  keyCnt : st'.keyCnt = st.keyCnt + 1
  keyAt : ∀ i, i < st.keyCnt → keyAt st' i = ControlPlaneOthello.keyAt st i
  values : ∀ i, i < st.keyCnt → st'.values.getD i 0 = st.values.getD i 0
  newKey : ControlPlaneOthello.keyAt st' st.keyCnt = kv.1
  newValue : st'.values.getD st.keyCnt 0 = kv.2

theorem stored_storeKey {st₁ : Othello K} {kv : K × ℕ} (h : SameEntries st st₁)
    (hlt : st₁.keyCnt < st₁.keys.length) (hv : st₁.values.length = st₁.keys.length)
    {st' : Othello K} (hm : SameMap (storeKey st₁ st₁.keyCnt kv) st') : Stored st kv st' := by
  have hcnt := h.keyCnt
  refine ⟨hm.keyCnt.trans (congrArg (· + 1) hcnt), fun i hi => ?_, fun i hi => ?_, ?_, ?_⟩
  · rw [keyAt, hm.keys, storeKey, ← h.keyAt i hi, keyAt]
    exact getD_set_of_ne _ (hcnt ▸ hi.ne) _ _
  · rw [hm.values, storeKey, ← h.values i hi]
    exact getD_set_of_ne _ (hcnt ▸ hi.ne) _ _
  · rw [keyAt, hm.keys, storeKey, ← hcnt]
    simp [List.getD_eq_getElem?_getD, hlt]
  · rw [hm.values, storeKey, ← hcnt]
    simp [List.getD_eq_getElem?_getD, hv ▸ hlt]

/-- `insert` looks for a larger table first. -/
def needsRoom (st : Othello K) : Prop := st.keyCnt + 1 ≥ st.keys.length ∨ st.keyCnt ≥ st.mb

instance (st : Othello K) : Decidable (needsRoom st) := inferInstanceAs (Decidable (_ ∨ _))

def makeRoom (P : Setup K) (st : Othello K) : Except Fault (Bool × Othello K) :=
  if needsRoom st then resizeKey P st (st.keyCnt + 1) false else pure (true, st)

def insertStored (P : Setup K) (DoNotRebuild : Bool) (lastIndex : ℕ) (st : Othello K)
    (kv : K × ℕ) : Except Fault (Option (BitVec 64) × Othello K) := do
  if st.keys.length ≤ lastIndex then throw .outOfBounds
  let st := storeKey st lastIndex kv
  let (ha, hb) := getIndices P st kv.1
  let (connected, st) ← isConnectedDFS P st ha hb
  if connected then
    if DoNotRebuild then return (none, { st with keyCnt := st.keyCnt - 1 })
    let (built, st) ← build P st
    return (if built then some (1 <<< P.VDL) else none, st)
  let st ← addEdge st lastIndex ha hb
  let (x, st) ← fixHalfTreeDFS P P.maintainDP true false st (st.keyCnt - 1) ha hb
  return (some x, st)

theorem insert_eq [DecidableEq K] (DoNotRebuild : Bool) (st : Othello K) {kv : K × ℕ}
    (hnew : isMember P st kv.1 = false) : insert P DoNotRebuild st kv = (do
      let (ok, st₁) ← makeRoom P st
      if !ok then return (none, st₁)
      insertStored P DoNotRebuild st.keyCnt st₁ kv) := by
  by_cases hroom : needsRoom st
  · have hneeds : st.keyCnt + 1 ≥ st.keys.length ∨ st.keyCnt ≥ st.mb := hroom
    have hmake : makeRoom P st = resizeKey P st (st.keyCnt + 1) false := if_pos hroom
    simp only [ControlPlaneOthello.insert, hnew, Bool.false_eq_true, if_false, if_pos hneeds, hmake]
    rfl
  · have hneeds : ¬ (st.keyCnt + 1 ≥ st.keys.length ∨ st.keyCnt ≥ st.mb) := hroom
    have hmake : makeRoom P st = pure (true, st) := if_neg hroom
    simp only [ControlPlaneOthello.insert, hnew, Bool.false_eq_true, if_false, if_neg hneeds, hmake]
    rfl

theorem Consistent.makeRoom_spec (h : Consistent P st st.keyCnt) {st₁ : Othello K}
    (hrun : makeRoom P st = .ok (true, st₁)) :
    Consistent P st₁ st₁.keyCnt ∧ SameEntries st st₁ ∧ SameSettings st st₁ ∧
      st₁.keyCnt < st₁.keys.length := by
  rw [makeRoom] at hrun
  split at hrun
  case isTrue =>
    obtain ⟨hcons, hentries, hset, hlen⟩ := h.resizeKey (Nat.succ_pos _) (Nat.le_succ _) hrun
    exact ⟨hcons, hentries, hset, by rw [hentries.keyCnt]; exact hlen⟩
  case isFalse hroom =>
    obtain ⟨-, rfl⟩ := Prod.mk.inj (Except.ok.inj hrun)
    rw [needsRoom] at hroom
    exact ⟨h, SameEntries.refl _, ⟨rfl, rfl⟩, by omega⟩

theorem KeyArrays.makeRoom_spec (h : KeyArrays st) {ok : Bool} {st' : Othello K}
    (hrun : makeRoom P st = .ok (ok, st')) :
    (¬ needsRoom st ∧ ok = true ∧ st' = st) ∨
    (needsRoom st ∧ ∃ nextMb,
      nextMbOf st (max (st.keyCnt + 1) st.minimalKeyCapacity) false = some nextMb ∧
      ((¬ resizes st nextMb ∧ ok = true ∧
        st' = reserveKeys st (max (st.keyCnt + 1) st.minimalKeyCapacity)) ∨
      (resizes st nextMb ∧ addressable P st.maintainingDP (nextMaOf nextMb) nextMb = true ∧
        Rebuilt (grown P st (max (st.keyCnt + 1) st.minimalKeyCapacity) nextMb) st' ∧
        (ok = true ↔ ∃ i < MAX_REHASH, Acyclic (seeded P
          (grown P st (max (st.keyCnt + 1) st.minimalKeyCapacity) nextMb)
          (P.rand (st.draws + i)))) ∧
        (ok = true → Built P st') ∧
        (ok = false →
          GaveUp P (grown P st (max (st.keyCnt + 1) st.minimalKeyCapacity) nextMb) st')))) := by
  rw [makeRoom] at hrun
  split at hrun
  case isFalse hroom =>
    obtain ⟨rfl, rfl⟩ := Prod.mk.inj (Except.ok.inj hrun)
    exact Or.inl ⟨hroom, rfl, rfl⟩
  case isTrue hroom =>
    obtain ⟨nextMb, hmb, ⟨hres, hadd, -, -, hkeep, hiff, hbuilt, hgave⟩ | ⟨hres, hok, hst⟩⟩ :=
      h.resizeKey_spec (lt_max_of_lt_left (Nat.succ_pos _)) (le_max_of_le_left (Nat.le_succ _)) hrun
    · exact Or.inr ⟨hroom, nextMb, hmb, Or.inr ⟨hres, hadd, hkeep, hiff, hbuilt, hgave⟩⟩
    · exact Or.inr ⟨hroom, nextMb, hmb, Or.inl ⟨hres, hok, hst⟩⟩

theorem Sizes.makeRoom (h : Sizes st) (hk : KeyArrays st) {ok : Bool} {st' : Othello K}
    (hrun : makeRoom P st = .ok (ok, st')) : Sizes st' := by
  have hle : st.keyCnt ≤ max (st.keyCnt + 1) st.minimalKeyCapacity := le_max_of_le_left
    (Nat.le_succ _)
  rcases hk.makeRoom_spec hrun with ⟨-, -, rfl⟩ | ⟨-, nextMb, hmb, ⟨-, -, rfl⟩ |
    ⟨-, hadd, hkeep, -, -⟩⟩
  · exact h
  · obtain ⟨-, -, hsame, hset, -⟩ := hk.reserve hle
    refine h.same hsame.tables.ma hsame.tables.mb hset ?_
    rw [reserveKeys]
    split
    · rw [length_resized]
      omega
    · exact Nat.le_refl _
  · obtain ⟨-, hset, hlen⟩ := hk.resized_entries hle hkeep
    exact sizes_of_next hmb hadd (lt_max_of_lt_left (Nat.succ_pos _)) (le_max_right _ _) hkeep.ma
      hkeep.mb hset hlen

/-- Storing a key without closing a cycle, the two ways out of a cycle, and what a rebuild
depends on. -/
theorem Consistent.insertStored_spec (h : Consistent P st st.keyCnt)
    (hlt : st.keyCnt < st.keys.length) (DoNotRebuild : Bool) (kv : K × ℕ) :
    (¬ Linked (graph P st st.keyCnt) (getIndices P st kv.1).1 (getIndices P st kv.1).2 ∧
      ∃ x st', insertStored P DoNotRebuild st.keyCnt st kv = .ok (some x, st') ∧
        Consistent P st' st'.keyCnt ∧ SameMap (storeKey st st.keyCnt kv) st' ∧
        SameTables st st' ∧ SameSettings st st') ∨
    (Linked (graph P st st.keyCnt) (getIndices P st kv.1).1 (getIndices P st kv.1).2 ∧
      DoNotRebuild = true ∧
      ∃ st', insertStored P DoNotRebuild st.keyCnt st kv = .ok (none, st') ∧
        Consistent P st' st'.keyCnt ∧ SameEntries st st' ∧ SameTables st st' ∧
        SameSettings st st' ∧ st'.keys.length = st.keys.length) ∨
    (Linked (graph P st st.keyCnt) (getIndices P st kv.1).1 (getIndices P st kv.1).2 ∧
      DoNotRebuild = false ∧
      ∃ built st', insertStored P DoNotRebuild st.keyCnt st kv =
          .ok (if built then some (1 <<< P.VDL) else none, st') ∧
        Rebuilt (storeKey st st.keyCnt kv) st' ∧
        (built = true ↔ ∃ i < MAX_REHASH,
          Acyclic (seeded P (storeKey st st.keyCnt kv) (P.rand (st.draws + i)))) ∧
        (built = true → Consistent P st' st'.keyCnt)) := by
  obtain ⟨connected, st₁, hconn, honly, hcons, hiff, hlink⟩ := h.store_link hlt kv
  have hidx : getIndices P (storeKey st st.keyCnt kv) kv.1 =
      ((getIndices P st kv.1).1, (getIndices P st kv.1).2) := rfl
  have hstart : insertStored P DoNotRebuild st.keyCnt st kv = (do
      if connected then
        if DoNotRebuild then return (none, { st₁ with keyCnt := st₁.keyCnt - 1 })
        let (built, st) ← build P st₁
        return (if built then some (1 <<< P.VDL) else none, st)
      let st₂ ← addEdge st₁ st.keyCnt (getIndices P st kv.1).1 (getIndices P st kv.1).2
      let (x, st') ← fixHalfTreeDFS P P.maintainDP true false st₂ (st₂.keyCnt - 1)
        (getIndices P st kv.1).1 (getIndices P st kv.1).2
      return (some x, st')) := by
    simp only [insertStored, if_neg (Nat.not_le.mpr hlt), hidx, hconn]
    rfl
  have htables : SameTables st (storeKey st st.keyCnt kv) := ⟨rfl, rfl, rfl, rfl⟩
  have hsettings : SameSettings st (storeKey st st.keyCnt kv) := ⟨rfl, rfl⟩
  have hcnt₁ : st₁.keyCnt = st.keyCnt + 1 := honly.map.keyCnt
  cases connected
  case false =>
    obtain ⟨st₂, x, st', flips, hadd, hfix, hcons', -, ht, hm, hset, hcnt⟩ := hlink rfl
    refine Or.inl ⟨fun hl => by simpa using hiff.mpr hl, x, st', ?_, hcons', hm, ht, hset⟩
    rw [hstart]
    simp only [Bool.false_eq_true, if_false, hadd, ok_bind, hcnt, Nat.add_sub_cancel,
      fixHalfTreeDFS_eq, hfix]
    rfl
  case true =>
    cases DoNotRebuild
    case true =>
      refine Or.inr (Or.inl ⟨hiff.mp rfl, rfl, { st₁ with keyCnt := st.keyCnt }, ?_, ?_,
        ⟨rfl, fun i hi => ?_, fun i hi => ?_⟩, ?_, ?_, ?_⟩)
      · rw [hstart, if_pos rfl, if_pos rfl, hcnt₁, Nat.add_sub_cancel]
        rfl
      · refine hcons.congr
          { ma_pos := hcons.ma_pos, mb_pos := hcons.mb_pos, indMem := hcons.indMem
            head := hcons.head, forest := hcons.forest, values := hcons.values
            nextAtA := hcons.nextAtA, nextAtB := hcons.nextAtB, keyCnt := hcons.linking.n_le }
          { tables := ⟨rfl, rfl, rfl, rfl⟩, maintainingDP := rfl, mem := rfl, indMem := rfl
            head := rfl, forest := rfl, nextAtA := fun _ _ => rfl, nextAtB := fun _ _ => rfl
            keyAt := fun _ _ => rfl, values := fun _ _ => rfl, length := hcons.linking.n_le }
      · have hkeys : st₁.keys = st.keys.set st.keyCnt kv.1 := honly.map.keys
        exact (congrArg (fun l => List.getD l i default) hkeys).trans
          (getD_set_of_ne _ hi.ne _ _)
      · have hvalues : st₁.values = st.values.set st.keyCnt kv.2 := honly.map.values
        exact (congrArg (fun l => List.getD l i 0) hvalues).trans (getD_set_of_ne _ hi.ne _ _)
      · have ht := htables.trans honly.tables
        exact ⟨ht.ma, ht.mb, ht.hab, ht.hd⟩
      · have hs := hsettings.trans honly.settings
        exact ⟨hs.maintainingDP, hs.minimalKeyCapacity⟩
      · have hkeys : st₁.keys = st.keys.set st.keyCnt kv.1 := honly.map.keys
        exact (congrArg List.length hkeys).trans (List.length_set ..)
    case false =>
      have hm₁ : st₁.maintainingDP = P.maintainDP := hcons.cells.maintaining
      obtain ⟨built, st', hbuild, -, hz, hkeep, hbuilt, hfull, -⟩ :=
        hcons.toShape.build_spec fun hm => hcons.cells.sized (hm₁.symm.trans hm)
      have hkeep₁ : Rebuilt (storeKey st st.keyCnt kv) st₁ :=
        ⟨honly.tables.ma, honly.tables.mb, honly.tables.hd, honly.map, honly.settings⟩
      have hdraws : st₁.draws = st.draws := honly.draws
      refine Or.inr (Or.inr ⟨hiff.mp rfl, rfl, built, st', ?_, hkeep₁.trans hkeep, ?_,
        fun hb => (hfull hb).consistent hz (hkeep.settings.maintainingDP.trans hm₁)⟩)
      · rw [hstart]
        simp only [if_true, Bool.false_eq_true, if_false, hbuild, ok_bind]
        rfl
      · simp only [hbuilt, hdraws, hkeep₁.seeded]

theorem Consistent.insertStored_sizes (h : Consistent P st st.keyCnt)
    (hlt : st.keyCnt < st.keys.length) {DoNotRebuild : Bool} {kv : K × ℕ}
    {r : Option (BitVec 64)} {st' : Othello K}
    (hrun : insertStored P DoNotRebuild st.keyCnt st kv = .ok (r, st')) :
    st'.ma = st.ma ∧ st'.mb = st.mb ∧ SameSettings st st' ∧
      st'.keys.length = st.keys.length := by
  have hkeys : (storeKey st st.keyCnt kv).keys.length = st.keys.length := List.length_set ..
  rcases h.insertStored_spec hlt DoNotRebuild kv with
    ⟨-, x, st₁, hres, -, hm, ht, hset⟩ | ⟨-, -, st₁, hres, -, -, ht, hset, hlen⟩ |
    ⟨-, -, built, st₁, hres, hkeep, -, -⟩
  · obtain ⟨-, rfl⟩ := Prod.mk.inj (Except.ok.inj (hres.symm.trans hrun))
    exact ⟨ht.ma, ht.mb, hset, (congrArg List.length hm.keys).trans hkeys⟩
  · obtain ⟨-, rfl⟩ := Prod.mk.inj (Except.ok.inj (hres.symm.trans hrun))
    exact ⟨ht.ma, ht.mb, hset, hlen⟩
  · obtain ⟨-, rfl⟩ := Prod.mk.inj (Except.ok.inj (hres.symm.trans hrun))
    exact ⟨hkeep.ma, hkeep.mb,
      ⟨hkeep.settings.maintainingDP, hkeep.settings.minimalKeyCapacity⟩,
      (congrArg List.length hkeep.map.keys).trans hkeys⟩

theorem Consistent.insert_spec [DecidableEq K] (h : Consistent P st st.keyCnt)
    {DoNotRebuild : Bool} {kv : K × ℕ} {x : BitVec 64} {st' : Othello K}
    (hrun : insert P DoNotRebuild st kv = .ok (some x, st')) :
    isMember P st kv.1 = false ∧ Consistent P st' st'.keyCnt ∧ Stored st kv st' ∧
      SameSettings st st' ∧ (Sizes st → Sizes st') := by
  cases hmem : isMember P st kv.1 with
  | true =>
    simp only [ControlPlaneOthello.insert, hmem, if_true] at hrun
    cases hrun
  | false =>
    rw [insert_eq DoNotRebuild st hmem] at hrun
    obtain ⟨⟨ok, st₁⟩, hroom, hrun⟩ := of_bind_ok hrun
    cases ok with
    | false => cases hrun
    | true =>
      obtain ⟨hcons, hentries, hset, hlt⟩ := h.makeRoom_spec hroom
      have hrun' : insertStored P DoNotRebuild st₁.keyCnt st₁ kv = .ok (some x, st') := by
        rw [hentries.keyCnt]
        exact hrun
      have hsettings : SameSettings st₁ (storeKey st₁ st₁.keyCnt kv) := ⟨rfl, rfl⟩
      obtain ⟨hma', hmb', hset', hlen'⟩ := hcons.insertStored_sizes hlt hrun'
      have hsizes : Sizes st → Sizes st' := fun hs =>
        (hs.makeRoom h.keyArrays hroom).same hma' hmb' hset' hlen'.ge
      refine ⟨rfl, ?_⟩
      rcases hcons.insertStored_spec hlt DoNotRebuild kv with
        ⟨-, y, st₂, hres, hcons', hm, -, hset'⟩ | ⟨-, -, st₂, hres, -⟩ |
        ⟨-, -, built, st₂, hres, hkeep, -, hcons'⟩
      · obtain ⟨-, rfl⟩ := Prod.mk.inj (Except.ok.inj (hres.symm.trans hrun'))
        exact ⟨hcons', stored_storeKey hentries hlt hcons.values hm, hset.trans hset', hsizes⟩
      · cases hres.symm.trans hrun'
      · cases built
        case false => cases hres.symm.trans hrun'
        case true =>
          obtain ⟨-, rfl⟩ := Prod.mk.inj (Except.ok.inj (hres.symm.trans hrun'))
          exact ⟨hcons' rfl, stored_storeKey hentries hlt hcons.values hkeep.map,
            (hset.trans hsettings).trans hkeep.settings, hsizes⟩

/-- Room can be made for one more key: if the tables have to grow, one of the next seeds gives a
forest in the larger ones. -/
def RoomFor (P : Setup K) (st : Othello K) : Prop :=
  needsRoom st → ∀ nextMb,
    nextMbOf st (max (st.keyCnt + 1) st.minimalKeyCapacity) false = some nextMb →
    resizes st nextMb → ∃ i < MAX_REHASH, Acyclic (seeded P
      (grown P st (max (st.keyCnt + 1) st.minimalKeyCapacity) nextMb) (P.rand (st.draws + i)))

theorem KeyArrays.roomFor_iff (h : KeyArrays st) {ok : Bool} {st' : Othello K}
    (hrun : makeRoom P st = .ok (ok, st')) : ok = true ↔ RoomFor P st := by
  rcases h.makeRoom_spec hrun with ⟨hroom, hok, -⟩ | ⟨hroom, nextMb, hmb, hcases⟩
  · exact iff_of_true hok fun hc => absurd hc hroom
  · have hone : ∀ mb, nextMbOf st (max (st.keyCnt + 1) st.minimalKeyCapacity) false = some mb →
        mb = nextMb := fun mb h' => Option.some.inj (h'.symm.trans hmb)
    rcases hcases with ⟨hres, hok, -⟩ | ⟨hres, -, -, hiff, -⟩
    · refine iff_of_true hok fun _ mb hmb' hres' => ?_
      rw [hone mb hmb'] at hres'
      exact absurd hres' hres
    · rw [hiff]
      constructor
      · intro hseed _ mb hmb' _
        rw [hone mb hmb']
        exact hseed
      · intro hr
        exact hr hroom nextMb hmb hres

/-- The three ways an insert throws: no room, a cycle it may not rebuild for, a rebuild that gives
up. -/
theorem Consistent.insert_fails [DecidableEq K] (h : Consistent P st st.keyCnt)
    {DoNotRebuild : Bool} {kv : K × ℕ} {st' : Othello K}
    (hrun : insert P DoNotRebuild st kv = .ok (none, st')) :
    (¬ RoomFor P st ∧ makeRoom P st = .ok (false, st')) ∨
    (RoomFor P st ∧ DoNotRebuild = true ∧ Consistent P st' st'.keyCnt ∧ SameEntries st st' ∧
      SameSettings st st' ∧ (Sizes st → Sizes st')) ∨
    (RoomFor P st ∧ DoNotRebuild = false ∧ st'.keyCnt = st.keyCnt + 1) := by
  cases hmem : isMember P st kv.1 with
  | true =>
    simp only [ControlPlaneOthello.insert, hmem, if_true] at hrun
    cases hrun
  | false =>
    rw [insert_eq DoNotRebuild st hmem] at hrun
    obtain ⟨⟨ok, st₁⟩, hroom, hrun⟩ := of_bind_ok hrun
    have hiff := h.keyArrays.roomFor_iff hroom
    cases ok with
    | false =>
      obtain ⟨-, rfl⟩ := Prod.mk.inj (Except.ok.inj hrun)
      exact Or.inl ⟨fun hr => absurd (hiff.mpr hr) (by simp), hroom⟩
    | true =>
      obtain ⟨hcons, hentries, hset, hlt⟩ := h.makeRoom_spec hroom
      have hcnt := hentries.keyCnt
      have hrun' : insertStored P DoNotRebuild st₁.keyCnt st₁ kv = .ok (none, st') := by
        rw [hcnt]
        exact hrun
      obtain ⟨hma', hmb', hset', hlen'⟩ := hcons.insertStored_sizes hlt hrun'
      refine Or.inr ?_
      rcases hcons.insertStored_spec hlt DoNotRebuild kv with
        ⟨-, y, st₂, hres, -⟩ | ⟨-, hb, st₂, hres, hcons', hentries', -, hset₂, -⟩ |
        ⟨-, hb, built, st₂, hres, hkeep, -, -⟩
      · cases hres.symm.trans hrun'
      · obtain ⟨-, rfl⟩ := Prod.mk.inj (Except.ok.inj (hres.symm.trans hrun'))
        exact Or.inl ⟨hiff.mp rfl, hb, hcons', hentries.trans hentries', hset.trans hset₂,
          fun hs => (hs.makeRoom h.keyArrays hroom).same hma' hmb' hset' hlen'.ge⟩
      · obtain ⟨-, rfl⟩ := Prod.mk.inj (Except.ok.inj (hres.symm.trans hrun'))
        refine Or.inr ⟨hiff.mp rfl, hb, hkeep.map.keyCnt.trans ?_⟩
        rw [storeKey, hcnt]

theorem construct_spec (hP : Plain P) {scaledCapacity draws : ℕ} {hd : BitVec 32}
    {st' : Othello K} (hrun : construct P scaledCapacity hd draws = .ok (true, st')) :
    Invariant P st' ∧ st'.keyCnt = 0 := by
  obtain ⟨hcons, hcnt, -⟩ := construct_consistent hrun
  exact ⟨hcons.invariant hP, hcnt⟩

theorem Invariant.insert_spec [DecidableEq K] (hP : Plain P) (h : Invariant P st)
    {DoNotRebuild : Bool} {kv : K × ℕ} {x : BitVec 64} {st' : Othello K}
    (hrun : insert P DoNotRebuild st kv = .ok (some x, st')) :
    isMember P st kv.1 = false ∧ Invariant P st' ∧ Stored st kv st' := by
  obtain ⟨hnew, hcons, hstored, -⟩ := (h.consistent hP).insert_spec hrun
  exact ⟨hnew, hcons.invariant hP, hstored⟩

end OthelloInvariant
