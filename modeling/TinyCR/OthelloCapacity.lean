import TinyCR.OthelloRun

/-! # Room for one more key

The array lengths fit the tables in every state the operations leave behind, also after an
exception, when the keys need not be answered any more. -/
namespace OthelloCapacity

open PackedCells EdgeForest ControlPlaneOthello OthelloInvariant

variable {K : Type} {P : Setup K} {st st' : Othello K}

/-- Every result of `x` satisfies `Q`; faults have no result. -/
def Returns {α : Type} (x : Except Fault α) (Q : α → Prop) : Prop := ∀ a, x = .ok a → Q a

section Returns

variable {α β : Type} {Q : α → Prop} {R : β → Prop}

theorem Returns.ok {a : α} (h : Q a) : Returns (.ok a) Q := by
  intro b hb
  obtain rfl := Except.ok.inj hb
  exact h

theorem Returns.error (f : Fault) : Returns (.error f) Q := by
  intro b hb
  cases hb

theorem Returns.bind {x : Except Fault α} {k : α → Except Fault β} (hx : Returns x Q)
    (hk : ∀ a, Q a → Returns (k a) R) : Returns (x >>= k) R := by
  intro b hb
  obtain ⟨a, ha, hka⟩ := of_bind_ok hb
  exact hk a (hx a ha) b hka

end Returns

theorem returns_traversal {σ : Type} {Q : σ → Prop} {visit : σ → Visit ℕ ℕ → σ}
    (hvisit : ∀ s t, Q s → Q (visit s t)) (st : Othello K) (prev : Option ℕ) (root : ℕ) {s : σ}
    (hs : Q s) : Returns (traversal st prev root visit s) Q := by
  intro s' hrun
  have htraverse : ∀ fuel stack s, Q s → ∀ s', traverse (adjacent st) visit fuel stack s = some s' →
      Q s' := by
    intro fuel
    induction fuel with
    | zero =>
      intro stack s hs s' h
      cases stack with
      | nil => exact Option.some.inj h ▸ hs
      | cons c stack => cases h
    | succ fuel ih =>
      intro stack s hs s' h
      cases stack with
      | nil => exact Option.some.inj h ▸ hs
      | cons c stack =>
        rw [EdgeForest.traverse] at h
        split at h
        · cases h
        · refine ih _ _ ?_ s' h
          exact List.foldlRecOn _ _ hs fun s hs c _ => hvisit s _ hs
  rw [traversal] at hrun
  split at hrun
  case h_1 s₁ hs₁ =>
    obtain rfl := Except.ok.inj hrun
    exact htraverse _ _ _ hs _ hs₁
  case h_2 => cases hrun

structure Extents where
  ma : ℕ
  mb : ℕ
  keyCnt : ℕ
  keys : ℕ
  values : ℕ
  nextAtA : ℕ
  nextAtB : ℕ
  indMem : ℕ
  head : ℕ
  connectivityForest : ℕ
  mem : ℕ
  maintainingDP : Bool

def extents (st : Othello K) : Extents where
  ma := st.ma
  mb := st.mb
  keyCnt := st.keyCnt
  keys := st.keys.length
  values := st.values.length
  nextAtA := st.nextAtA.length
  nextAtB := st.nextAtB.length
  indMem := st.indMem.length
  head := st.head.length
  connectivityForest := st.connectivityForest.length
  mem := st.mem.length
  maintainingDP := st.maintainingDP

/-- The arrays have the lengths of the tables, whatever they hold. -/
structure Laid (P : Setup K) (st : Othello K) : Prop where
  ma : st.ma = nextMaOf st.mb
  indMem : st.indMem.length = nodes st
  head : st.head.length = nodes st
  forest : st.connectivityForest.length = nodes st
  arrays : KeyArrays st
  mem : MemFits P st

theorem Laid.congr (h : Laid P st) (he : extents st' = extents st) : Laid P st' := by
  simp only [extents, Extents.mk.injEq] at he
  obtain ⟨hma, hmb, hcnt, hkeys, hvalues, hA, hB, hind, hhead, hforest, hmem, hm⟩ := he
  have hn : nodes st' = nodes st := by rw [nodes, nodes, hma, hmb]
  refine ⟨by rw [hma, hmb]; exact h.ma, by rw [hind, hn]; exact h.indMem,
    by rw [hhead, hn]; exact h.head, by rw [hforest, hn]; exact h.forest,
    ⟨by rw [hvalues, hkeys]; exact h.arrays.values, by rw [hA, hkeys]; exact h.arrays.nextAtA,
      by rw [hB, hkeys]; exact h.arrays.nextAtB, by rw [hcnt, hkeys]; exact h.arrays.keyCnt⟩, ?_⟩
  intro hm'
  rw [hn]
  exact (h.mem (hm.symm.trans hm')).congr hmem

theorem Laid.shape (h : Laid P st) (hb : 0 < st.mb) : Shape P st where
  ma_pos := h.ma.symm ▸ nextMaOf_pos hb
  mb_pos := hb
  indMem := h.indMem
  head := h.head
  forest := h.forest
  values := h.arrays.values
  nextAtA := h.arrays.nextAtA
  nextAtB := h.arrays.nextAtB
  keyCnt := h.arrays.keyCnt

theorem extents_cells (st : Othello K) {mem : List (BitVec 64)} {indMem : List ℕ}
    (hmem : mem.length = st.mem.length) (hind : indMem.length = st.indMem.length) :
    extents { st with mem := mem, indMem := indMem } = extents st := by
  simp only [extents, hmem, hind]

theorem returns_addEdge (st : Othello K) (key ha hb : ℕ) :
    Returns (addEdge st key ha hb) fun st' => extents st' = extents st := by
  rw [addEdge]
  split
  case h_1 forest hmerge =>
    apply Returns.ok
    simp only [extents, List.length_set, DisjointSet.length_merge hmerge]
  case h_2 => exact Returns.error _

theorem returns_isConnectedDFS (st : Othello K) (ha hb : ℕ) :
    Returns (isConnectedDFS P st ha hb) fun r => extents r.2 = extents st := by
  rw [isConnectedDFS]
  split
  · split
    case h_1 same forest hsame =>
      apply Returns.ok
      simp only [extents, DisjointSet.length_sameSet hsame]
    case h_2 => exact Returns.error _
  · split
    · exact Returns.ok rfl
    · exact Returns.bind (Q := fun _ => True) (fun _ _ => trivial) fun _ _ => Returns.ok rfl

theorem returns_connect (st : Othello K) (root : ℕ) :
    Returns (connect P st root) fun r => extents r.1 = extents st := by
  have hroot : extents { st with
      connectivityForest := DisjointSet.set st.connectivityForest root root } = extents st := by
    simp only [extents, DisjointSet.length_set]
  simp only [connect]
  split
  · apply Returns.ok
    split
    · simp only [extents, DisjointSet.length_set, length_memSet]
    · exact hroot
  · refine Returns.bind (Q := fun s => extents s = extents st) ?_ fun s hs => Returns.ok hs
    apply returns_traversal
    · intro s t hs
      rw [← hs]
      simp only [extents, DisjointSet.length_set]
    · exact hroot

theorem Laid.reset (h : Laid P st) : Laid P (resetBuildState P st) where
  ma := h.ma
  indMem := h.indMem
  head := (List.length_map ..).trans h.head
  forest := (DisjointSet.length_reset _).trans h.forest
  arrays :=
    ⟨h.arrays.values, (List.length_map ..).trans h.arrays.nextAtA,
      (List.length_map ..).trans h.arrays.nextAtB, h.arrays.keyCnt⟩
  mem := h.mem.reset

theorem laid_of_rebuilt {st₁ : Othello K} (h : Rebuilt st st₁) (hma : st.ma = nextMaOf st.mb)
    (hsh : Shape P st₁) (hz : MemFits P st₁) : Laid P st₁ where
  ma := by rw [h.ma, h.mb, hma]
  indMem := hsh.indMem
  head := hsh.head
  forest := hsh.forest
  arrays := hsh.keyArrays
  mem := hz

theorem Laid.storeKey (h : Laid P st) (hlt : st.keyCnt < st.keys.length) (kv : K × ℕ) :
    Laid P (ControlPlaneOthello.storeKey st st.keyCnt kv) where
  ma := h.ma
  indMem := h.indMem
  head := h.head
  forest := h.forest
  arrays :=
    { values := by simp only [ControlPlaneOthello.storeKey, List.length_set, h.arrays.values]
      nextAtA := by simp only [ControlPlaneOthello.storeKey, List.length_set, h.arrays.nextAtA]
      nextAtB := by simp only [ControlPlaneOthello.storeKey, List.length_set, h.arrays.nextAtB]
      keyCnt := by
        simp only [ControlPlaneOthello.storeKey, List.length_set]
        exact hlt }
  mem := h.mem

theorem Laid.fewer (h : Laid P st) {n : ℕ} (hn : n ≤ st.keyCnt) :
    Laid P { st with keyCnt := n } where
  ma := h.ma
  indMem := h.indMem
  head := h.head
  forest := h.forest
  arrays := ⟨h.arrays.values, h.arrays.nextAtA, h.arrays.nextAtB, hn.trans h.arrays.keyCnt⟩
  mem := h.mem

theorem Laid.relinked (h : Laid P st) {keys : List K} {values : List ℕ}
    {head nextAtA nextAtB : List (Option OthelloCPCell)} (hkeys : keys.length = st.keys.length)
    (hvalues : values.length = st.values.length) (hhead : head.length = st.head.length)
    (hA : nextAtA.length = st.nextAtA.length) (hB : nextAtB.length = st.nextAtB.length) :
    Laid P { st with
      keys := keys, values := values, head := head, nextAtA := nextAtA, nextAtB := nextAtB } := by
  apply h.congr
  simp only [extents, hkeys, hvalues, hhead, hA, hB]

section Fix

variable (fillValue fillIndex keepDigest : Bool)

theorem length_fixMem (mem : List (BitVec 64)) (v : ℕ) (x : BitVec 64) :
    (fixMem P fillValue keepDigest mem v x).length = mem.length := by
  rw [fixMem]
  split
  · split
    · exact length_memValueSet _
    · exact length_memSet _
  · rfl

theorem length_set_if (l : List ℕ) (c : Bool) (i a : ℕ) :
    (if c then l.set i a else l).length = l.length := by
  split
  · exact List.length_set ..
  · rfl

theorem extents_fixSingle (st : Othello K) (nodeToFix : ℕ) (x : BitVec 64) (ix : ℕ) :
    extents (fixSingle P fillValue fillIndex keepDigest st nodeToFix x ix) = extents st := by
  rw [fixSingle_parts]
  apply extents_cells
  · apply length_fixMem
  · apply length_set_if

theorem extents_swapEnds (st : Othello K) (root hb : ℕ) :
    extents (swapEnds P fillValue st root hb).1 = extents st := by
  rw [swapEnds_parts]
  refine extents_cells st ?_ rfl
  rw [enterMem]
  split
  · exact length_memSet _
  · rfl

end Fix

variable [Inhabited K]

section Fill

variable (fillValue fillIndex keepDigest : Bool)

theorem length_fillMem (st : Othello K) (mem : List (BitVec 64)) (e v u : ℕ) :
    (fillMem P st fillValue keepDigest mem e v u).length = mem.length := by
  rw [fillMem]
  split
  · split
    · exact length_memValueSet _
    · exact length_memSet _
  · rfl

theorem extents_fillSingle (st : Othello K) (keyId nodeToFill oppositeNode : ℕ) :
    extents (fillSingle P fillValue fillIndex keepDigest st keyId nodeToFill oppositeNode) =
      extents st := by
  rw [fillSingle_parts]
  apply extents_cells
  · apply length_fillMem
  · apply length_set_if

theorem returns_fixHalfTree (st : Othello K) (keyId root hb : ℕ) :
    Returns (fixHalfTree P fillValue fillIndex keepDigest st keyId root hb)
      fun r => OnlyFilled st r.2.1 ∧ extents r.2.1 = extents st := by
  have hfill : ∀ s e v u, OnlyFilled s (fillSingle P fillValue fillIndex keepDigest s e v u) := by
    intro s e v u
    rw [fillSingle_parts]
    rfl
  have hfix : ∀ s v x ix, OnlyFilled s (fixSingle P fillValue fillIndex keepDigest s v x ix) := by
    intro s v x ix
    rw [fixSingle_parts]
    rfl
  have henter : OnlyFilled st (swapEnds P fillValue st root hb).1 := by
    rw [swapEnds_parts]
    rfl
  simp only [fixHalfTree]
  split
  · exact Returns.error _
  · have hswap := extents_swapEnds (P := P) fillValue st root hb
    generalize swapEnds P fillValue st root hb = r at hswap henter
    obtain ⟨st₁, root, hb, swapped⟩ := r
    have hfilled := (extents_fillSingle (P := P) fillValue fillIndex keepDigest st₁ keyId root
      hb).trans hswap
    refine Returns.bind (Q := fun s => OnlyFilled st s.1 ∧ extents s.1 = extents st) ?_
      fun s hs => Returns.ok hs
    apply returns_traversal
    · intro s t hs
      exact ⟨hs.1.trans (hfix ..), (extents_fixSingle ..).trans hs.2⟩
    · exact ⟨henter.trans (hfill ..), hfilled⟩

theorem returns_fixHalfTreeDFS (st : Othello K) (keyId root hb : ℕ) :
    Returns (fixHalfTreeDFS P fillValue fillIndex keepDigest st keyId root hb)
      fun r => OnlyFilled st r.2 ∧ extents r.2 = extents st := by
  rw [fixHalfTreeDFS_eq]
  exact Returns.bind (returns_fixHalfTree _ _ _ _ _ _ _) fun r hr => Returns.ok hr

end Fill

/-! ### Resizing -/

theorem build_empty (P : Setup K) (st : Othello K) (h0 : st.keyCnt = 0) :
    build P st = .ok (true, resetBuildState P
      { st with hab := P.rand st.draws, draws := st.draws + 1 }) := by
  have h0' : (resetBuildState P
      { st with hab := P.rand st.draws, draws := st.draws + 1 }).keyCnt = 0 := h0
  simp only [build, MAX_REHASH, buildFrom, tryBuild, h0', if_true]
  rfl

theorem Laid.build (h : Laid P st) (hb : 0 < st.mb) : Returns (build P st) fun r => Laid P r.2 := by
  rintro ⟨ok, st'⟩ hrun
  obtain ⟨built, st₁, hbuild, hsh, hz, hkeep, -⟩ := (h.shape hb).build_spec h.mem
  obtain ⟨-, rfl⟩ := Prod.mk.inj (Except.ok.inj (hbuild.symm.trans hrun))
  exact laid_of_rebuilt hkeep h.ma hsh hz

theorem Laid.grown (h : Laid P st) {capacity nextMb : ℕ} (hle : st.keyCnt ≤ capacity)
    (hadd : addressable P st.maintainingDP (nextMaOf nextMb) nextMb = true) :
    Laid P (OthelloInvariant.grown P st capacity nextMb) where
  ma := rfl
  indMem := length_resized ..
  head := length_resized ..
  forest := DisjointSet.length_resize ..
  arrays := ⟨(h.arrays.reserve hle).1.values, (h.arrays.reserve hle).1.nextAtA,
    (h.arrays.reserve hle).1.nextAtB, (h.arrays.reserve hle).1.keyCnt⟩
  mem := memFits_grown _ _ hadd

theorem Laid.reserve (h : Laid P st) {capacity : ℕ} (hle : st.keyCnt ≤ capacity) :
    Laid P (reserveKeys st capacity) := by
  obtain ⟨harrays, -, hsame, -, -⟩ := h.arrays.reserve hle
  have hn := nodes_same hsame.tables
  refine ⟨by rw [hsame.tables.ma, hsame.tables.mb]; exact h.ma,
    by rw [hsame.indMem, hn]; exact h.indMem, by rw [hsame.head, hn]; exact h.head,
    by rw [hsame.forest, hn]; exact h.forest, harrays, ?_⟩
  intro hm
  rw [hsame.mem, hn]
  exact h.mem (hsame.maintainingDP.symm.trans hm)

/-- A resize keeps the lengths right, also for capacity 0 and when it throws. -/
theorem Laid.resizeKey (h : Laid P st) (target : ℕ) (compact : Bool) :
    Returns (resizeKey P st target compact) fun r => Laid P r.2 := by
  rw [resizeKey_eq]
  split
  case isTrue => exact Returns.ok h
  case isFalse hle =>
    replace hle := Nat.le_of_not_lt hle
    split
    case h_1 => exact Returns.error _
    case h_2 nextMb hmb =>
      split
      · split
        case isTrue hadd =>
          have hgrown := h.grown hle hadd
          rcases Nat.eq_zero_or_pos nextMb with rfl | hpos
          · -- the capacity is 0, so there are no keys
            have h0 : (OthelloInvariant.grown P st (max target st.minimalKeyCapacity) 0).keyCnt =
                0 := by
              have hge := nextMbOf_ge hmb
              have hcnt : (OthelloInvariant.grown P st (max target st.minimalKeyCapacity)
                  0).keyCnt = st.keyCnt := (h.arrays.reserve hle).2.1.keyCnt
              omega
            rw [OthelloInvariant.grown] at h0 hgrown
            rw [build_empty P _ h0]
            apply Returns.ok
            apply Laid.reset
            exact hgrown.congr rfl
          · exact hgrown.build hpos
        case isFalse => exact Returns.error _
      · exact Returns.ok (h.reserve hle)

structure Roomy (st : Othello K) : Prop where
  ma : 0 < st.ma
  mb : 0 < st.mb
  keys : st.keyCnt < st.keys.length
  keyCnt : st.keyCnt ≤ st.mb

theorem nextMaOf_le {mb mb' : ℕ} (h : nextMaOf mb' ≤ nextMaOf mb) : mb' ≤ mb := by
  rw [nextMaOf, nextMaOf] at h
  omega

theorem Laid.makeRoom (h : Laid P st) :
    Returns (makeRoom P st) fun r => Laid P r.2 ∧ Roomy r.2 ∧ r.2.keyCnt = st.keyCnt := by
  rintro ⟨ok, st'⟩ hrun
  have hlaid : Laid P st' := by
    have hrun' := hrun
    rw [OthelloInvariant.makeRoom] at hrun'
    split at hrun'
    · exact h.resizeKey _ _ _ hrun'
    · obtain ⟨-, rfl⟩ := Prod.mk.inj (Except.ok.inj hrun')
      exact h
  refine ⟨hlaid, ?_⟩
  have hle : st.keyCnt ≤ max (st.keyCnt + 1) st.minimalKeyCapacity :=
    le_max_of_le_left (Nat.le_succ _)
  have hcap : st.keyCnt + 1 ≤ max (st.keyCnt + 1) st.minimalKeyCapacity := le_max_left _ _
  -- array A has nodes as soon as array B has
  have hroomy : 0 < st'.mb → st'.keyCnt < st'.keys.length → st'.keyCnt ≤ st'.mb → Roomy st' :=
    fun hb hk hc => ⟨hlaid.ma.symm ▸ nextMaOf_pos hb, hb, hk, hc⟩
  rcases h.arrays.makeRoom_spec hrun with
    ⟨hroom, -, rfl⟩ | ⟨-, nextMb, hmb, ⟨hres, -, rfl⟩ | ⟨-, -, hkeep, -, -⟩⟩
  · rw [needsRoom] at hroom
    exact ⟨hroomy (by omega) (by omega) (by omega), rfl⟩
  · have hge := nextMbOf_ge hmb
    obtain ⟨-, hentries, hsame, -, hlen⟩ := h.arrays.reserve hle
    have hcnt := hentries.keyCnt
    have hbig : nextMb ≤ st.mb := by
      apply nextMaOf_le
      rw [← h.ma]
      rw [resizes] at hres
      omega
    rw [← hsame.tables.mb] at hbig
    exact ⟨hroomy (by omega) (by omega) (by omega), hcnt⟩
  · have hge := nextMbOf_ge hmb
    obtain ⟨hentries, -, hlen⟩ := h.arrays.resized_entries hle hkeep
    have hcnt := hentries.keyCnt
    have hmb' : st'.mb = nextMb := hkeep.mb
    exact ⟨hroomy (by omega) (by omega) (by omega), hcnt⟩

theorem Laid.insertStored (h : Laid P st) (hroom : Roomy st) (DoNotRebuild : Bool) (kv : K × ℕ) :
    Returns (insertStored P DoNotRebuild st.keyCnt st kv) fun r => Laid P r.2 := by
  simp only [OthelloInvariant.insertStored, if_neg (Nat.not_le.mpr hroom.keys)]
  have hstored := h.storeKey hroom.keys kv
  refine Returns.bind (returns_isConnectedDFS _ _ _) ?_
  rintro ⟨connected, st₁⟩ he
  have hlaid : Laid P st₁ := hstored.congr he
  have hmb : 0 < st₁.mb := by
    have hmb₁ : st₁.mb = st.mb := congrArg Extents.mb he
    exact hmb₁ ▸ hroom.mb
  cases connected
  case true =>
    cases DoNotRebuild
    case true => exact Returns.ok (hlaid.fewer (Nat.sub_le _ _))
    case false => exact Returns.bind (hlaid.build hmb) fun _ hr => Returns.ok hr
  case false =>
    refine Returns.bind (returns_addEdge _ _ _ _) fun st₂ he₂ => ?_
    refine Returns.bind (returns_fixHalfTreeDFS _ _ _ _ _ _ _) fun r he₃ => ?_
    exact Returns.ok (hlaid.congr (he₃.2.trans he₂))

theorem Laid.insert [DecidableEq K] (h : Laid P st) (DoNotRebuild : Bool) (kv : K × ℕ) :
    Returns (insert P DoNotRebuild st kv) fun r => Laid P r.2 := by
  cases hmem : isMember P st kv.1 with
  | true =>
    simp only [ControlPlaneOthello.insert, hmem, if_true]
    exact Returns.error _
  | false =>
    rw [insert_eq DoNotRebuild st hmem]
    refine Returns.bind h.makeRoom ?_
    rintro ⟨ok, st₁⟩ ⟨hlaid, hroom, hcnt⟩
    cases ok
    case false => exact Returns.ok hlaid
    case true =>
      rw [← hcnt]
      exact hlaid.insertStored hroom DoNotRebuild kv

theorem length_unlinkCell {head next head' next' : List (Option OthelloCPCell)}
    {node keyId : ℕ} (h : unlinkCell head next node keyId = some (head', next')) :
    head'.length = head.length ∧ next'.length = next.length := by
  simp only [unlinkCell, Option.bind_eq_bind, Option.bind_eq_some_iff] at h
  obtain ⟨cell, -, h⟩ := h
  split at h
  · obtain ⟨rfl, rfl⟩ := Prod.mk.inj (Option.some.inj h)
    exact ⟨List.length_set .., rfl⟩
  · obtain ⟨t, -, h⟩ := Option.bind_eq_some_iff.mp h
    obtain ⟨rfl, rfl⟩ := Prod.mk.inj (Option.some.inj h)
    exact ⟨rfl, List.length_set ..⟩

theorem length_renameCell {head next head' next' : List (Option OthelloCPCell)}
    {node last keyId opposite : ℕ}
    (h : renameCell head next node last keyId opposite = some (head', next')) :
    head'.length = head.length ∧ next'.length = next.length := by
  simp only [renameCell, Option.bind_eq_bind, Option.bind_eq_some_iff] at h
  obtain ⟨cell, -, h⟩ := h
  split at h
  · obtain ⟨rfl, rfl⟩ := Prod.mk.inj (Option.some.inj h)
    exact ⟨List.length_set .., List.length_set ..⟩
  · obtain ⟨t, -, h⟩ := Option.bind_eq_some_iff.mp h
    obtain ⟨rfl, rfl⟩ := Prod.mk.inj (Option.some.inj h)
    exact ⟨rfl, (List.length_set ..).trans (List.length_set ..)⟩

theorem returns_orOutOfBounds {α : Type} {Q : α → Prop} {x : Option α} (h : ∀ a, x = some a → Q a) :
    Returns (orOutOfBounds x) Q := by
  cases x with
  | none => exact Returns.error _
  | some a => exact Returns.ok (h a rfl)

theorem Laid.moveLast (h : Laid P st) (keyId : ℕ) :
    Returns (moveLast P st keyId) fun r => Laid P r.1 := by
  simp only [ControlPlaneOthello.moveLast]
  refine Returns.bind (returns_orOutOfBounds fun _ h₁ => length_renameCell h₁) ?_
  rintro ⟨head₁, nextAtA⟩ ⟨hhead₁, hA⟩
  refine Returns.bind (returns_orOutOfBounds fun _ h₂ => length_renameCell h₂) ?_
  rintro ⟨head₂, nextAtB⟩ ⟨hhead₂, hB⟩
  have hmoved := h.relinked (List.length_set (i := keyId) (a := keyAt st st.keyCnt))
    (List.length_set (i := keyId) (a := st.values.getD st.keyCnt 0)) (hhead₂.trans hhead₁) hA hB
  refine Returns.bind (returns_fixHalfTree _ _ _ _ _ _ _) fun r hr => ?_
  exact Returns.ok (hmoved.congr hr.2)

theorem Laid.detach (h : Laid P st) (ha hb keyId : ℕ) :
    Returns (detach P st ha hb keyId) fun r => Laid P r.1 := by
  have hfewer := h.fewer (Nat.sub_le st.keyCnt 1)
  simp only [ControlPlaneOthello.detach]
  refine Returns.bind (returns_orOutOfBounds fun _ h₁ => length_unlinkCell h₁) ?_
  rintro ⟨head₁, nextAtA⟩ ⟨hhead₁, hA⟩
  refine Returns.bind (returns_orOutOfBounds fun _ h₂ => length_unlinkCell h₂) ?_
  rintro ⟨head₂, nextAtB⟩ ⟨hhead₂, hB⟩
  have hunlinked := hfewer.relinked rfl rfl (hhead₂.trans hhead₁) hA hB
  split
  · exact hunlinked.moveLast keyId
  · exact Returns.ok hunlinked

theorem Laid.eraseKey (h : Laid P st) (k : K) (keyId : ℕ) :
    Returns (eraseKey P st k keyId) (Laid P) := by
  simp only [eraseKey_eq, eraseId]
  refine Returns.bind (Q := fun r => Laid P r.1) ?_ fun r hr => Returns.ok hr
  refine Returns.bind (h.detach _ _ keyId) fun r hr => ?_
  split
  · refine Returns.bind (returns_connect _ _) fun r₁ h₁ => ?_
    refine Returns.bind (returns_connect _ _) fun r₂ h₂ => ?_
    exact Returns.ok ((hr.congr h₁).congr h₂)
  · exact Returns.ok hr

theorem Laid.erase [DecidableEq K] (h : Laid P st) (k : K) :
    Returns (erase P st k) (Laid P) := by
  simp only [ControlPlaneOthello.erase]
  split
  · exact Returns.ok h
  · exact h.eraseKey _ _

/-- The states some sequence of operations leaves behind, exceptions included. -/
inductive Ran [DecidableEq K] (P : Setup K) : Othello K → Prop
  | construct {scaledCapacity draws hd st} :
    construct P scaledCapacity hd draws = .ok (true, st) → Ran P st
  | insert {st DoNotRebuild kv x st'} : Ran P st → insert P DoNotRebuild st kv = .ok (x, st') →
    Ran P st'
  | erase {st k st'} : Ran P st → erase P st k = .ok st' → Ran P st'
  | clear {st ok st'} : Ran P st → clear P st = .ok (ok, st') → Ran P st'
  | setMinimalKeyCapacity {st c ok st'} : Ran P st →
    setMinimalKeyCapacity P st c = .ok (ok, st') → Ran P st'

theorem Laid.setMinimalKeyCapacity (h : Laid P st) (c : ℕ) :
    Returns (setMinimalKeyCapacity P st c) fun r => Laid P r.2 :=
  have hset : Laid P { st with minimalKeyCapacity := c } := h.congr rfl
  hset.resizeKey 0 false

theorem Ran.laid [DecidableEq K] (h : Ran P st) : Laid P st := by
  induction h with
  | construct hrun =>
    obtain ⟨hcons, -, -, hsizes, -⟩ := construct_consistent hrun
    exact ⟨hsizes.ma, hcons.indMem, hcons.head, hcons.forest, hcons.toShape.keyArrays,
      fun hm => hcons.cells.sized (hcons.cells.maintaining.symm.trans hm)⟩
  | insert _ hrun ih => exact ih.insert _ _ _ hrun
  | erase _ hrun ih => exact ih.erase _ _ hrun
  | clear _ hrun ih => exact (ih.fewer (Nat.zero_le _)).setMinimalKeyCapacity 0 _ hrun
  | setMinimalKeyCapacity _ hrun ih => exact ih.setMinimalKeyCapacity _ _ hrun

end OthelloCapacity
