import TinyCR.OthelloRun

/-! # Builds and forests

A build succeeds exactly if the keys are the edges of a forest, and in every state that the
operations reach the disjoint set and the graph search tell the same. -/
namespace OthelloForests

open PackedCells EdgeForest EdgeLabels ControlPlaneOthello DataPlaneOthello OthelloInvariant

open OthelloRun (pathSetup pathKeys asked pathSetup_reached)

variable {K : Type} [Inhabited K] {P : Setup K} {st st' : Othello K}

structure Encodes (P : Setup K) (st : Othello K) (i : ℕ) : Prop where
  index : indAt st (ends P st i).1 ^^^ indAt st (ends P st i).2 = i
  value : st.maintainingDP = true →
    (memGet P.toConfig st.mem (ends P st i).1 ^^^ memGet P.toConfig st.mem (ends P st i).2).toNat =
      st.values.getD i 0 % 2 ^ P.L

theorem Built.encodes (h : Built P st) (hz : MemFits P st) (hD : P.DL = 0) {i : ℕ}
    (hi : i < st.keyCnt) : Encodes P st i := by
  have hg := graph_ends P st hi
  refine ⟨(h.answers i _ _ hg).index, fun hm => ?_⟩
  have hl := (h.answers i _ _ hg).label hm
  have hb := h.toShape.graph_lt hg
  rw [shown_eq hD, cellLabel_eq hD, memAt, memAt, mask_xor _ _ _ (memGet_lt (hz hm) hb.2),
    memGet_lt (hz hm) hb.1] at hl
  have hw : P.VDL = P.L := by rw [Config.VDL, hD, Nat.add_zero]
  rw [hl, label, Config.VDEMASK, hw, toNat_and_lowMask, valueAt, BitVec.toNat_ofNat,
    Nat.mod_mod_of_dvd]
  exact pow_dvd_pow 2 (by have := P.vdl_le; omega)

/-- For any tables, hash functions and keys: `tryBuild` never meets an assertion, it succeeds
exactly if the keys are the edges of a forest, and then every key answers. -/
theorem tryBuild_exact (h : Shape P st) (hz : MemFits P st) (hD : P.DL = 0) :
    ∃ built st', tryBuild P st = .ok (built, st') ∧ SameTables st st' ∧ SameMap st st' ∧
      (built = true ↔ Acyclic (graph P st st.keyCnt)) ∧
      (built = true → ∀ i < st.keyCnt, Encodes P st' i) := by
  obtain ⟨built, st', hrun, -, hz', hkeep, hhab, -, hiff, hbuilt, -⟩ :=
    h.tryBuild_spec hz
  refine ⟨built, st', hrun, ⟨hkeep.ma, hkeep.mb, hhab, hkeep.hd⟩, hkeep.map, hiff,
    fun hb i hi => ?_⟩
  apply Built.encodes (hbuilt hb) hz' hD
  rw [hkeep.map.keyCnt]
  exact hi

theorem tryBuild_exact_path : ∃ st st' : Othello ℕ,
    OthelloRun.Reached pathSetup st (asked pathKeys fun _ => none) ∧
    tryBuild pathSetup st = .ok (true, st') ∧ SameTables st st' ∧ SameMap st st' ∧
    ∀ i < st.keyCnt, Encodes pathSetup st' i := by
  obtain ⟨st, h⟩ := pathSetup_reached
  obtain ⟨hinv, -⟩ := h.represents ⟨rfl, rfl, rfl⟩
  obtain ⟨built, st', hrun, ht, hm, hiff, hbuilt⟩ :=
    tryBuild_exact hinv.toShape (fun _ => hinv.sized) rfl
  obtain rfl := hiff.mpr hinv.linking.acyclic
  exact ⟨st, st', h, hrun, ht, hm, hbuilt rfl⟩

section Runs

variable [DecidableEq K]

/-- The states that any sequence of operations reaches. Each succeeds, or it is an insert that
may not rebuild and finds room but a cycle. -/
inductive Reachable (P : Setup K) : Othello K → Prop
  | construct {scaledCapacity draws hd st} :
      construct P scaledCapacity hd draws = .ok (true, st) → Reachable P st
  | insert {st DoNotRebuild kv x st'} : Reachable P st →
      insert P DoNotRebuild st kv = .ok (some x, st') → Reachable P st'
  | refuse {st kv st'} : Reachable P st → RoomFor P st →
      insert P true st kv = .ok (none, st') → Reachable P st'
  | insert_on_demand {st kv flipped st' flipped'} : Reachable P st →
      insert_on_demand P st kv flipped = .ok (true, st', flipped') → Reachable P st'
  | erase {st k st'} : Reachable P st → erase P st k = .ok st' → Reachable P st'
  | erase_on_demand {st k flipped st' flipped'} : Reachable P st →
      erase_on_demand P st k flipped = .ok (st', flipped') → Reachable P st'
  | eraseAt {st keyId st'} : Reachable P st → eraseAt P st keyId = .ok st' → Reachable P st'
  | updateValueAt {st keyId val x st'} : Reachable P st →
      updateValueAt P st keyId val = .ok (x, st') → Reachable P st'
  | updateValueAt_on_demand {st keyId val flipped x st' flipped'} : Reachable P st →
      updateValueAt_on_demand P st keyId val flipped = .ok (x, st', flipped') → Reachable P st'
  | valueFlip {st kv st'} : Reachable P st → valueFlip P st kv = .ok st' → Reachable P st'
  | valueFlip_on_demand {st kv flipped st' flipped'} : Reachable P st →
      valueFlip_on_demand P st kv flipped = .ok (st', flipped') → Reachable P st'

theorem Reachable.of_reached {m : K → Option ℕ} (h : OthelloRun.Reached P st m) :
    Reachable P st := by
  induction h with
  | construct hrun => exact .construct hrun
  | insert _ _ hrun ih => exact ih.insert hrun
  | insert_on_demand _ _ _ hrun ih => exact ih.insert_on_demand hrun
  | erase _ hrun ih => exact ih.erase hrun
  | erase_on_demand _ hrun ih => exact ih.erase_on_demand hrun
  | updateValueAt _ _ hrun ih => exact ih.updateValueAt hrun
  | valueFlip _ _ hrun ih => exact ih.valueFlip hrun
  | valueFlip_on_demand _ _ hrun ih => exact ih.valueFlip_on_demand hrun

structure Sound (P : Setup K) (st : Othello K) : Prop extends Consistent P st st.keyCnt where
  sizes : Sizes st

omit [DecidableEq K] in
theorem Sound.of_same (h : Sound P st) (hcons : Consistent P st' st'.keyCnt)
    (ht : SameTables st st') (hset : SameSettings st st')
    (hlen : st'.keys.length = st.keys.length) : Sound P st' :=
  { hcons with sizes := h.sizes.same ht.ma ht.mb hset hlen.ge }

theorem Sound.insert_on_demand (h : Sound P st) {kv : K × ℕ} {flipped flipped' : List ℕ}
    (hrun : insert_on_demand P st kv flipped = .ok (true, st', flipped')) : Sound P st' := by
  have hnew : isMember P st kv.1 = false := by
    cases hmem : isMember P st kv.1 with
    | false => rfl
    | true =>
      simp only [ControlPlaneOthello.insert_on_demand, hmem, if_true] at hrun
      cases hrun
  have hlt : st.keyCnt < st.keys.length := by
    by_contra hle
    simp only [ControlPlaneOthello.insert_on_demand, hnew, Bool.false_eq_true, if_false,
      if_pos (Nat.le_of_not_lt hle)] at hrun
    cases hrun
  obtain ⟨done, st₁, flips, hrun₁, ht, hset, hm, -, hdone, -⟩ :=
    h.insert_on_demand_spec hlt hnew flipped
  obtain ⟨rfl, heq⟩ := Prod.mk.inj (Except.ok.inj (hrun₁.symm.trans hrun))
  obtain ⟨rfl, -⟩ := Prod.mk.inj heq
  exact h.of_same (hdone rfl) ht hset ((congrArg List.length hm.keys).trans (List.length_set ..))

omit [DecidableEq K] in
theorem Sound.updateValueAt_on_demand (h : Sound P st) {keyId val : ℕ} {x : BitVec 64}
    {flipped flipped' : List ℕ}
    (hrun : updateValueAt_on_demand P st keyId val flipped = .ok (x, st', flipped')) :
    Sound P st' := by
  have hk : keyId < st.keyCnt := by
    by_contra hle
    simp only [ControlPlaneOthello.updateValueAt_on_demand, if_pos (Nat.le_of_not_lt hle)] at hrun
    cases hrun
  obtain ⟨x₁, st₁, flips, hrun₁, -, hcons, -, ht, hset, hm⟩ := h.update_spec hk val flipped
  obtain ⟨-, heq⟩ := Prod.mk.inj (Except.ok.inj (hrun₁.symm.trans hrun))
  obtain ⟨rfl, -⟩ := Prod.mk.inj heq
  exact h.of_same hcons ht hset (congrArg List.length hm.keys)

omit [DecidableEq K] in
theorem Sound.updateValueAt (h : Sound P st) {keyId val : ℕ} {x : BitVec 64}
    (hrun : updateValueAt P st keyId val = .ok (x, st')) : Sound P st' := by
  have hk : keyId < st.keyCnt := by
    by_contra hle
    simp only [ControlPlaneOthello.updateValueAt, if_pos (Nat.le_of_not_lt hle)] at hrun
    cases hrun
  obtain ⟨x₁, st₁, flips, hdemand, hrun₁, -⟩ := h.update_spec hk val []
  obtain ⟨-, rfl⟩ := Prod.mk.inj (Except.ok.inj (hrun₁.symm.trans hrun))
  exact h.updateValueAt_on_demand hdemand

omit [DecidableEq K] in
theorem Sound.eraseAt (h : Sound P st) {keyId : ℕ} (hrun : eraseAt P st keyId = .ok st') :
    Sound P st' := by
  have hk : keyId < st.keyCnt := by
    by_contra hle
    simp only [ControlPlaneOthello.eraseAt, if_pos (Nat.le_of_not_lt hle)] at hrun
    cases hrun
  obtain ⟨st₁, flips, hrun₁, hcons, -, ht, hset, her⟩ := h.eraseId_spec hk
  simp only [ControlPlaneOthello.eraseAt, if_neg (Nat.not_le_of_lt hk), eraseKey_eq, hrun₁,
    ok_bind] at hrun
  obtain rfl := Except.ok.inj hrun
  exact h.of_same hcons ht hset her.length

theorem Reachable.sound (h : Reachable P st) : Sound P st := by
  induction h with
  | construct hrun =>
    obtain ⟨hcons, -, -, hsizes, -⟩ := construct_consistent hrun
    exact { hcons with sizes := hsizes }
  | insert _ hrun ih =>
    obtain ⟨-, hcons, -, -, hsizes⟩ := ih.toConsistent.insert_spec hrun
    exact { hcons with sizes := hsizes ih.sizes }
  | refuse _ hroom hrun ih =>
    rcases ih.toConsistent.insert_fails hrun with ⟨hno, -⟩ | ⟨-, -, hcons, -, -, hsizes⟩ |
      ⟨-, hb, -⟩
    · exact absurd hroom hno
    · exact { hcons with sizes := hsizes ih.sizes }
    · cases hb
  | insert_on_demand _ hrun ih => exact ih.insert_on_demand hrun
  | @erase st k st' _ hrun ih =>
    obtain ⟨st₁, flips, hrun₁, -, hcons, -, ht, hset, hlen⟩ := ih.toConsistent.erase_spec k []
    obtain rfl := Except.ok.inj (hrun₁.symm.trans hrun)
    exact ih.of_same hcons ht hset hlen
  | @erase_on_demand st k flipped st' flipped' _ hrun ih =>
    obtain ⟨st₁, flips, -, hrun₁, hcons, -, ht, hset, hlen⟩ :=
      ih.toConsistent.erase_spec k flipped
    obtain ⟨rfl, -⟩ := Prod.mk.inj (Except.ok.inj (hrun₁.symm.trans hrun))
    exact ih.of_same hcons ht hset hlen
  | eraseAt _ hrun ih => exact ih.eraseAt hrun
  | updateValueAt _ hrun ih => exact ih.updateValueAt hrun
  | updateValueAt_on_demand _ hrun ih => exact ih.updateValueAt_on_demand hrun
  | valueFlip _ hrun ih =>
    obtain ⟨⟨x, st₁⟩, hupdate, hrun⟩ := of_bind_ok hrun
    obtain rfl := Except.ok.inj hrun
    exact ih.updateValueAt hupdate
  | valueFlip_on_demand _ hrun ih =>
    obtain ⟨⟨x, st₁, flipped₁⟩, hupdate, hrun⟩ := of_bind_ok hrun
    obtain ⟨rfl, -⟩ := Prod.mk.inj (Except.ok.inj hrun)
    exact ih.updateValueAt_on_demand hupdate

/-- The same Othello with the graph search for its connectivity test. -/
def searching (P : Setup K) : Setup K :=
  { P with maintainDisjointSet := false, vdl_le := P.cells_fit, l_le := P.values_fit }

omit [DecidableEq K] in
theorem Sound.searching_spec (h : Sound P st) {a b : ℕ} (ha : a < nodes st) (hb : b < nodes st) :
    ∃ found st', isConnectedDFS (searching P) st a b = .ok (found, st') ∧
      (found = true ↔ Linked (graph P st st.keyCnt) a b) := by
  have hcons : Consistent (searching P) st st.keyCnt :=
    { ma_pos := h.ma_pos, mb_pos := h.mb_pos, indMem := h.indMem, head := h.head
      forest := h.forest, values := h.values, nextAtA := h.nextAtA, nextAtB := h.nextAtB
      keyCnt := h.keyCnt
      linking := ⟨h.linking.n_le, h.linking.listsA, h.linking.listsB, h.linking.acyclic⟩
      indices := h.indices
      cells := ⟨h.cells.maintaining,
        fun hDP => ⟨(h.cells.sized hDP).fits, (h.cells.sized hDP).length_eq⟩, h.cells.labels,
        h.cells.taken⟩
      valid := h.valid, components := by simp [searching] }
  obtain ⟨found, st', hrun, -, -, hiff⟩ := hcons.isConnectedDFS_spec ha hb
  exact ⟨found, st', hrun, hiff⟩

/-- In every state of every run, representatives exist, and two nodes share theirs exactly if a
path of stored keys joins them, which is what the search finds. -/
theorem reached_same_set (hset : P.maintainDisjointSet = true) (h : Reachable P st) {a b : ℕ}
    (ha : a < st.ma) (hb : st.ma ≤ b ∧ b < st.ma + st.mb) :
    ∃ ra rb forest forest', DisjointSet.representative st.connectivityForest a = some (ra, forest) ∧
      DisjointSet.representative forest b = some (rb, forest') ∧
      (ra = rb ↔ Linked (graph P st st.keyCnt) a b) ∧
      ∃ found st', isConnectedDFS (searching P) st a b = .ok (found, st') ∧
        (found = true ↔ ra = rb) := by
  have hs := h.sound
  have hcomp := hs.components hset
  have haN : a < nodes st := ha.trans_le (Nat.le_add_right _ _)
  have hbN : b < nodes st := hb.2
  have hlen := hcomp.length
  obtain ⟨ra, forest, rb, forest', hra, hrb, -, hRa, hRb, -⟩ :=
    DisjointSet.two_representatives hs.valid (hlen ▸ haN) (hlen ▸ hbN)
  have hiff : ra = rb ↔ Linked (graph P st st.keyCnt) a b := by
    rw [← hcomp.same a b haN hbN]
    constructor
    · intro heq
      exact ⟨ra, hRa, heq ▸ hRb⟩
    · rintro ⟨r, hr, hr'⟩
      exact (hRa.unique hr).trans (hr'.unique hRb)
  obtain ⟨found, st', hrun, hfound⟩ := hs.searching_spec haN hbN
  exact ⟨ra, rb, forest, forest', hra, hrb, hiff, found, st', hrun, hfound.trans hiff.symm⟩

theorem path_linked {st : Othello ℕ}
    (h : OthelloRun.Reached pathSetup st (asked pathKeys fun _ => none)) :
    Linked (graph pathSetup st st.keyCnt) (getIndices pathSetup st 4).1
      (getIndices pathSetup st 0).2 := by
  obtain ⟨-, hm⟩ := h.represents ⟨rfl, rfl, rfl⟩
  have hkey : ∀ k v, asked pathKeys (fun _ => none) k = some v →
      Linked (graph pathSetup st st.keyCnt) (getIndices pathSetup st k).1
        (getIndices pathSetup st k).2 := by
    intro k v hv
    obtain ⟨i, hi, rfl, -⟩ := (hm k v).mp hv
    exact .edge (graph_ends pathSetup st hi)
  have hback : ∀ {u v}, Linked (graph pathSetup st st.keyCnt) u v →
      Linked (graph pathSetup st st.keyCnt) v u := Linked.symm (undirected_graph _ _ _)
  -- the hashes of two neighbours agree in one half
  have h43 : (getIndices pathSetup st 4).2 = (getIndices pathSetup st 3).2 := by
    simp [getIndices, pathSetup]
  have h32 : (getIndices pathSetup st 3).1 = (getIndices pathSetup st 2).1 := by
    simp [getIndices, pathSetup]
  have h21 : (getIndices pathSetup st 2).2 = (getIndices pathSetup st 1).2 := by
    simp [getIndices, pathSetup]
  have h10 : (getIndices pathSetup st 1).1 = (getIndices pathSetup st 0).1 := by
    simp [getIndices, pathSetup]
  have hfirst := (h43 ▸ hkey 4 0 rfl).trans (hback (hkey 3 1 rfl))
  have hsecond := (h21 ▸ hkey 2 1 rfl).trans (hback (hkey 1 0 rfl))
  exact ((h32 ▸ hfirst).trans (h10 ▸ hsecond)).trans (hkey 0 1 rfl)

theorem reached_same_set_path : ∃ (st : Othello ℕ) (ra rb : ℕ) (forest forest' : DisjointSet.Mem),
    OthelloRun.Reached pathSetup st (asked pathKeys fun _ => none) ∧
    DisjointSet.representative st.connectivityForest (getIndices pathSetup st 4).1 =
      some (ra, forest) ∧
    DisjointSet.representative forest (getIndices pathSetup st 0).2 = some (rb, forest') ∧
    ra = rb ∧ ∃ st', isConnectedDFS (searching pathSetup) st (getIndices pathSetup st 4).1
      (getIndices pathSetup st 0).2 = .ok (true, st') := by
  obtain ⟨st, h⟩ := pathSetup_reached
  have hr := Reachable.of_reached h
  obtain ⟨ha, -⟩ := getIndices_bounds (P := pathSetup) hr.sound.ma_pos hr.sound.mb_pos 4
  obtain ⟨-, hb⟩ := getIndices_bounds (P := pathSetup) hr.sound.ma_pos hr.sound.mb_pos 0
  obtain ⟨ra, rb, forest, forest', hra, hrb, hiff, found, st', hrun, hfound⟩ :=
    reached_same_set rfl hr ha hb
  have hsame := hiff.mpr (path_linked h)
  obtain rfl := hfound.mpr hsame
  exact ⟨st, ra, rb, forest, forest', h, hra, hrb, hsame, st', hrun⟩

end Runs

end OthelloForests
