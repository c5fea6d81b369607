import TinyCR.OthelloCells

/-! # The operations of `ControlPlaneOthello` keep its invariants

Linking an edge, fixing the half tree behind it, and unlinking and renaming edges, for any
template arguments; then the operations without a rebuild. -/
namespace OthelloInvariant

open PackedCells EdgeForest EdgeLabels NodeLists ComponentSets ControlPlaneOthello
  DataPlaneOthello

variable {K : Type} {P : Setup K} {st : Othello K} {n keyId : ℕ}

/-- Without digests, `flips` is what an operation has to log. -/
def Logs (P : Setup K) (st : Othello K) (flips : List ℕ) (st' : Othello K) : Prop :=
  P.DL = 0 → P.maintainDP = true → Replays P.toConfig st.mem flips st'.mem

theorem Logs.of_mem {st' : Othello K} (h : st'.mem = st.mem) : Logs P st [] st' := fun _ _ => by
  rw [h]
  exact Replays.nil _ _

theorem Logs.trans {st' st'' : Othello K} {flips flips' : List ℕ} (h : Logs P st flips st')
    (h' : Logs P st' flips' st'') : Logs P st (flips ++ flips') st'' :=
  fun hD hDP => (h hD hDP).append (h' hD hDP)

def OnlyForest (st st' : Othello K) : Prop :=
  st' = { st with connectivityForest := st'.connectivityForest }

theorem OnlyForest.tables {st' : Othello K} (h : OnlyForest st st') : SameTables st st' := by
  rw [h]
  exact ⟨rfl, rfl, rfl, rfl⟩

theorem OnlyForest.map {st' : Othello K} (h : OnlyForest st st') : SameMap st st' := by
  rw [h]
  exact ⟨rfl, rfl, rfl⟩

theorem OnlyForest.settings {st' : Othello K} (h : OnlyForest st st') : SameSettings st st' := by
  rw [h]
  exact ⟨rfl, rfl⟩

theorem OnlyForest.mem {st' : Othello K} (h : OnlyForest st st') : st'.mem = st.mem := by
  rw [h]

theorem OnlyForest.draws {st' : Othello K} (h : OnlyForest st st') : st'.draws = st.draws := by
  rw [h]

variable [Inhabited K]

/-- The first `n` keys are linked and answer with their values and indices. -/
structure Kept (P : Setup K) (st : Othello K) (n : ℕ) : Prop extends Indexed P st n where
  cells : Cells P st n

/-- The disjoint set holds their components too, if it is maintained. -/
structure Consistent (P : Setup K) (st : Othello K) (n : ℕ) : Prop extends Kept P st n where
  valid : DisjointSet.Valid st.connectivityForest
  components : P.maintainDisjointSet = true →
    Components st.connectivityForest (nodes st) (graph P st n)

omit [Inhabited K] in
theorem shown_eq (hD : P.DL = 0) (st : Othello K) (e : ℕ) : shown P st e = P.VDEMASK := by
  have hfits : fits P (st.values.getD e 0) := by
    have hlt := Nat.mod_lt (st.values.getD e 0) (Nat.two_pow_pos P.L)
    rw [fits, hD, Nat.sub_zero]
    exact hlt.trans_le (Nat.pow_le_pow_right (by decide) P.l_le)
  rw [shown, shownWidth, if_pos hfits]
  rfl

theorem cellLabel_eq (hD : P.DL = 0) (st : Othello K) (e : ℕ) :
    cellLabel P st e = label P st e := by
  have hmask : P.DEMASK = 0 := by
    rw [Config.DEMASK, hD]
    rfl
  rw [cellLabel, label, shown_eq hD, hmask, hD, BitVec.shiftLeft_zero]
  simp

theorem Cells.labelled (h : Cells P st n) (hD : P.DL = 0) (hDP : P.maintainDP = true)
    {e u v : ℕ} (hsh : Shape P st) (hg : graph P st n e u v) :
    memAt P st u ^^^ memAt P st v = label P st e := by
  have hz := h.sized hDP
  have hl := h.labels hDP e u v hg
  rw [shown_eq hD, cellLabel_eq hD, memAt, memAt,
    mask_xor _ _ _ (memGet_lt hz (hsh.graph_lt hg).2), memGet_lt hz (hsh.graph_lt hg).1] at hl
  exact hl

section Plain

variable (hP : Plain P)
include hP

theorem Recorded.kept (h : Recorded P st n) : Kept P st n :=
  { h.indexed with
    cells :=
      { maintaining := h.maintaining.trans hP.dataPlane.symm
        sized := fun _ => h.sized
        labels := fun _ e u v hg => by
          have hl : memAt P st u ^^^ memAt P st v = label P st e := h.labels e u v hg
          rw [hl, cellLabel_eq hP.noDigest, shown_eq hP.noDigest, label, BitVec.and_assoc,
            BitVec.and_self]
        taken := fun _ hD => absurd hP.noDigest hD } }

theorem Kept.recorded (h : Kept P st n) : Recorded P st n :=
  { h.toShape with
    maintaining := h.cells.maintaining.trans hP.dataPlane
    sized := h.cells.sized hP.dataPlane
    linking := h.linking
    labels := fun _ _ _ hg => h.cells.labelled hP.noDigest hP.dataPlane h.toShape hg
    indices := h.indices }

theorem Invariant.consistent (h : Invariant P st) : Consistent P st st.keyCnt :=
  { Recorded.kept hP h.toRecorded with
    valid := h.components.valid
    components := fun _ => h.components }

theorem Consistent.invariant (h : Consistent P st st.keyCnt) : Invariant P st :=
  { h.toKept.recorded hP with components := h.components hP.disjointSet }

end Plain

theorem Indexed.withForest (h : Indexed P st n) {forest : DisjointSet.Mem}
    (hf : forest.length = nodes st) : Indexed P { st with connectivityForest := forest } n where
  ma_pos := h.ma_pos
  mb_pos := h.mb_pos
  indMem := h.indMem
  head := h.head
  forest := hf
  values := h.values
  nextAtA := h.nextAtA
  nextAtB := h.nextAtB
  keyCnt := h.keyCnt
  linking := ⟨h.linking.n_le, h.linking.listsA, h.linking.listsB, h.linking.acyclic⟩
  indices := h.indices

theorem Kept.withForest (h : Kept P st n) {forest : DisjointSet.Mem}
    (hf : forest.length = nodes st) : Kept P { st with connectivityForest := forest } n :=
  { h.toIndexed.withForest hf with cells := h.cells.withForest forest }

theorem foldl_found (D : List (Visit ℕ ℕ)) (b : ℕ) (found : Bool) :
    D.foldl (fun found t => found || t.child == b) found = true ↔
      found = true ∨ b ∈ D.map Visit.child := by
  induction D generalizing found with
  | nil => simp
  | cons t D ih =>
    rw [List.foldl_cons, ih, Bool.or_eq_true, beq_iff_eq, List.map_cons, List.mem_cons, or_assoc,
      @eq_comm _ t.child b]

theorem Linking.search (hsh : Shape P st) (h : Linking P st n) {a b : ℕ} (ha : a < nodes st)
    (hab : a ≠ b) : ∃ found, ControlPlaneOthello.traversal st none a
      (fun found t => found || t.child == b) false = .ok found ∧
      (found = true ↔ Linked (graph P st n) a b) := by
  obtain ⟨D, hD, hS⟩ := h.traversal hsh none ha (by simp)
    (fun found t => found || t.child == b) false
  refine ⟨_, hD, ?_⟩
  rw [foldl_found, or_iff_right (by simp)]
  have hmem := hS.mem_iff (v := b)
  rw [List.mem_cons, or_iff_right (Ne.symm hab)] at hmem
  exact hmem.trans (linked_congr (fun e u v => and_iff_left (by simp)) a b)

theorem Consistent.isConnectedDFS_spec (h : Consistent P st n) {a b : ℕ} (ha : a < nodes st)
    (hb : b < nodes st) :
    ∃ connected st', isConnectedDFS P st a b = .ok (connected, st') ∧ OnlyForest st st' ∧
      Consistent P st' n ∧ (connected = true ↔ Linked (graph P st n) a b) := by
  by_cases hset : P.maintainDisjointSet = true
  case pos =>
    obtain ⟨same, forest, hsame, hcomp, hiff, -⟩ := (h.components hset).sameSet ha hb
    refine ⟨same, { st with connectivityForest := forest }, ?_, rfl,
      { h.toKept.withForest hcomp.length with
        valid := hcomp.valid, components := fun _ => hcomp }, hiff⟩
    rw [isConnectedDFS, if_pos hset, hsame]
  case neg =>
    by_cases hab : a = b
    case pos =>
      refine ⟨true, st, ?_, rfl, h, iff_of_true rfl (hab ▸ Linked.refl a)⟩
      rw [isConnectedDFS, if_neg hset, if_pos hab]
    case neg =>
      obtain ⟨found, hfound, hiff⟩ := h.linking.search h.toShape ha hab
      refine ⟨found, st, ?_, rfl, h, hiff⟩
      rw [isConnectedDFS, if_neg hset, if_neg hab, hfound]
      rfl

theorem Consistent.link (h : Consistent P st n) (hn : n < st.keys.length)
    (hsep : ¬ Linked (graph P st n) (ends P st n).1 (ends P st n).2) :
    ∃ st₁ x st' flips, addEdge st n (ends P st n).1 (ends P st n).2 = .ok st₁ ∧
      fixHalfTree P P.maintainDP true false st₁ n (ends P st n).1 (ends P st n).2 =
        .ok (x, st', flips) ∧
      Consistent P st' (n + 1) ∧ Logs P st flips st' ∧ SameTables st st' ∧ SameMap st st' ∧
      SameSettings st st' ∧ st₁.keyCnt = st.keyCnt := by
  obtain ⟨hA, hB, hBn⟩ := h.ends_bounds n
  have hAn : (ends P st n).1 < nodes st := by omega
  obtain ⟨-, -, forest, hmerge, hlen, hvalid, -⟩ := DisjointSet.merge_spec h.valid
    (h.forest.symm ▸ hAn) (h.forest.symm ▸ hBn)
  have hlen : forest.length = nodes st := hlen.trans h.forest
  have hadd : addEdge st n (ends P st n).1 (ends P st n).2 =
      .ok (edgeAdded st n (ends P st n).1 (ends P st n).2 forest) := addEdge_eq st hmerge
  have hlink := Linking.edge_added h.toShape h.linking hn hsep forest
  have hsh' := h.toShape.edge_added n (ends P st n).1 (ends P st n).2 hlen
  have hlt : ∀ e u v, graph P st (n + 1) e u v → e ≠ n → graph P st n e u v := fun e u v hg hne =>
    ⟨Nat.lt_of_le_of_ne (Nat.le_of_lt_succ hg.1) hne, hg.2⟩
  have hcomp : P.maintainDisjointSet = true →
      Components forest (nodes st) (graph P st (n + 1)) := by
    intro hset
    obtain ⟨-, -, forest', hmerge', hcomp, -⟩ := (h.components hset).merge hAn hBn n
    obtain rfl := Option.some.inj (hmerge'.symm.trans hmerge)
    exact hcomp.congr fun u v => linked_congr (fun e u v => graph_succ.symm) u v
  have hab : ends P (edgeAdded st n (ends P st n).1 (ends P st n).2 forest) n =
      ((ends P st n).1, (ends P st n).2) := rfl
  have hbut : CellsBut P (edgeAdded st n (ends P st n).1 (ends P st n).2 forest) (n + 1) n :=
    { maintaining := h.cells.maintaining, sized := h.cells.sized
      labels := fun hDP e u v hg hne => h.cells.labels hDP e u v (hlt e u v hg hne)
      taken := fun hDP hD e u v hg hne => h.cells.taken hDP hD e u v (hlt e u v hg hne) }
  have hlogs : ∀ D, P.maintainDP = true → P.DL = 0 → Spans (graph P (edgeAdded st n
      (ends P st n).1 (ends P st n).2 forest) (n + 1)) (some n) (ends P st n).1 D →
      Replays P.toConfig st.mem (halfFlips P (edgeAdded st n (ends P st n).1 (ends P st n).2 forest)
        true false n (ends P st n).1 (ends P st n).2 D) (halfCells P (edgeAdded st n
          (ends P st n).1 (ends P st n).2 forest) true false n (ends P st n).1 (ends P st n).2 D) :=
    fun D hDP hD hS => half_replays hD hsh' (h.cells.maintaining.trans hDP) hDP
      (h.cells.sized hDP) (Nat.lt_succ_self n) false hS
  generalize hst₁ : edgeAdded st n (ends P st n).1 (ends P st n).2 forest = st₁ at *
  obtain ⟨D, x, ind, hS, hfix, hind⟩ := hlink.fixHalfTree_spec hsh' (Nat.lt_succ_self n)
    P.maintainDP true false fun e u v hg hne => by
      rw [← hst₁] at hg ⊢
      exact h.indices e u v (hlt e u v hg (hne rfl))
  have hcells := hbut.fix hsh' hlink (Nat.lt_succ_self n) hS ind
  rw [hab] at hfix hS hcells hind
  refine ⟨st₁, x, _, _, hadd, hfix, { hind with
    cells := hcells, valid := ?_, components := fun hset => ?_ }, fun hD hDP => ?_, ?_, ?_, ?_, ?_⟩
  · rw [← hst₁]
    exact hvalid
  · rw [← hst₁]
    exact hcomp hset
  · have hends : halfEnds P st₁ true (ends P st n).1 (ends P st n).2 =
        ((ends P st n).1, (ends P st n).2) := by
      rw [halfEnds, hD]
      rfl
    rw [hDP, hends] at hS
    rw [hDP]
    exact hlogs D hDP hD hS
  all_goals
    rw [← hst₁]
  · exact ⟨rfl, rfl, rfl, rfl⟩
  · exact ⟨rfl, rfl, rfl⟩
  · exact ⟨rfl, rfl⟩
  · rfl

structure SameStore (st st' : Othello K) (n : ℕ) : Prop where
  tables : SameTables st st'
  maintainingDP : st'.maintainingDP = st.maintainingDP
  mem : st'.mem = st.mem
  indMem : st'.indMem = st.indMem
  head : st'.head = st.head
  forest : st'.connectivityForest = st.connectivityForest
  nextAtA : ∀ e, e < n → st'.nextAtA.getD e none = st.nextAtA.getD e none
  nextAtB : ∀ e, e < n → st'.nextAtB.getD e none = st.nextAtB.getD e none
  keyAt : ∀ e, e < n → keyAt st' e = ControlPlaneOthello.keyAt st e
  values : ∀ e, e < n → st'.values.getD e 0 = st.values.getD e 0
  length : n ≤ st'.keys.length

theorem SameStore.graph_iff {st' : Othello K} (h : SameStore st st' n) (e u v : ℕ) :
    graph P st' n e u v ↔ graph P st n e u v :=
  graph_congr fun e he => by rw [ends, h.tables.indices_eq, h.keyAt e he, ends]

theorem Consistent.congr {st' : Othello K} (h : Consistent P st n) (hsh : Shape P st')
    (hs : SameStore st st' n) : Consistent P st' n := by
  have hgraph := hs.graph_iff (P := P)
  have hnodes : nodes st' = nodes st := nodes_same hs.tables
  have hlinking : Linking P st' n := by
    refine ⟨hs.length, ?_, ?_, h.linking.acyclic.mono fun e u v => (hgraph e u v).mp⟩
    · rw [hs.tables.ma]
      exact h.linking.listsA.congr (fun v _ => by rw [hs.head])
        (fun v _ e w hg => hs.nextAtA e hg.1) fun v _ e w => hgraph e v w
    · rw [hs.tables.ma, hnodes]
      exact h.linking.listsB.congr (fun v _ => by rw [hs.head])
        (fun v _ e w hg => hs.nextAtB e hg.1) fun v _ e w => hgraph e v w
  refine { hsh with
    linking := hlinking, indices := fun e u v hg => ?_, cells := ?_, valid := ?_
    components := fun hset => ?_ }
  · rw [indAt, indAt, hs.indMem]
    exact h.indices e u v ((hgraph e u v).mp hg)
  · exact h.cells.congr hs.maintainingDP hs.mem hnodes fun e u v hg =>
      ⟨e, (hgraph e u v).mp hg, cellLabel_congr hs.tables.hd (hs.keyAt e hg.1) (hs.values e hg.1),
        shown_congr (hs.values e hg.1)⟩
  · rw [hs.forest]
    exact h.valid
  · rw [hs.forest, hnodes]
    exact (h.components hset).congr fun u v =>
      linked_congr (fun e u v => (hgraph e u v).symm) u v

theorem Consistent.stored (h : Consistent P st st.keyCnt) (hlt : st.keyCnt < st.keys.length)
    (kv : K × ℕ) : Consistent P (storeKey st st.keyCnt kv) st.keyCnt ∧
      ends P (storeKey st st.keyCnt kv) st.keyCnt = getIndices P st kv.1 := by
  have hsh : Shape P (storeKey st st.keyCnt kv) :=
    { ma_pos := h.ma_pos, mb_pos := h.mb_pos
      indMem := h.indMem, head := h.head, forest := h.forest
      values := (List.length_set ..).trans (h.values.trans (List.length_set ..).symm)
      nextAtA := h.nextAtA.trans (List.length_set ..).symm
      nextAtB := h.nextAtB.trans (List.length_set ..).symm
      keyCnt := hlt.trans_eq (List.length_set ..).symm }
  refine ⟨h.congr hsh
    { tables := ⟨rfl, rfl, rfl, rfl⟩, maintainingDP := rfl, mem := rfl, indMem := rfl, head := rfl
      forest := rfl, nextAtA := fun _ _ => rfl, nextAtB := fun _ _ => rfl
      keyAt := fun e he => getD_set_of_ne _ he.ne _ _
      values := fun e he => getD_set_of_ne _ he.ne _ _
      length := hlt.le.trans_eq (List.length_set ..).symm }, ?_⟩
  have : keyAt (storeKey st st.keyCnt kv) st.keyCnt = kv.1 := by
    simp [keyAt, storeKey, List.getD_eq_getElem?_getD, hlt]
  rw [ends, this]
  rfl

theorem graph_storeKey (P : Setup K) (st : Othello K) (kv : K × ℕ) (e u v : ℕ) :
    graph P (storeKey st st.keyCnt kv) st.keyCnt e u v ↔ graph P st st.keyCnt e u v := by
  refine graph_congr fun e he => ?_
  rw [ends, ends, keyAt, keyAt, storeKey, getD_set_of_ne _ he.ne]
  rfl

theorem Consistent.searched_ends (h : Consistent P st st.keyCnt)
    (hlt : st.keyCnt < st.keys.length) {kv : K × ℕ} {st₁ : Othello K}
    (honly : OnlyForest (storeKey st st.keyCnt kv) st₁) :
    ends P st₁ st.keyCnt = getIndices P st kv.1 ∧ st.keyCnt < st₁.keys.length := by
  refine ⟨?_, ?_⟩
  · rw [← (h.stored hlt kv).2, ends, honly.tables.indices_eq, keyAt, honly.map.keys]
    rfl
  · rw [honly.map.keys]
    exact hlt.trans_eq (List.length_set ..).symm

theorem Consistent.store_link (h : Consistent P st st.keyCnt) (hlt : st.keyCnt < st.keys.length)
    (kv : K × ℕ) :
    ∃ connected st₁, isConnectedDFS P (storeKey st st.keyCnt kv)
        (getIndices P st kv.1).1 (getIndices P st kv.1).2 = .ok (connected, st₁) ∧
      OnlyForest (storeKey st st.keyCnt kv) st₁ ∧ Consistent P st₁ st.keyCnt ∧
      (connected = true ↔ Linked (graph P st st.keyCnt) (getIndices P st kv.1).1
        (getIndices P st kv.1).2) ∧
      (connected = false → ∃ st₂ x st' flips,
        addEdge st₁ st.keyCnt (getIndices P st kv.1).1 (getIndices P st kv.1).2 = .ok st₂ ∧
        fixHalfTree P P.maintainDP true false st₂ st.keyCnt (getIndices P st kv.1).1
          (getIndices P st kv.1).2 = .ok (x, st', flips) ∧
        Consistent P st' st'.keyCnt ∧ Logs P st flips st' ∧ SameTables st st' ∧
        SameMap (storeKey st st.keyCnt kv) st' ∧ SameSettings st st' ∧
        st₂.keyCnt = st.keyCnt + 1) := by
  obtain ⟨hstored, hends⟩ := h.stored hlt kv
  obtain ⟨hA, hB, hBn⟩ := hstored.ends_bounds st.keyCnt
  have hAn : (ends P (storeKey st st.keyCnt kv) st.keyCnt).1 <
      nodes (storeKey st st.keyCnt kv) := by omega
  obtain ⟨connected, st₁, hconn, honly, hcons, hiff⟩ := hstored.isConnectedDFS_spec hAn hBn
  rw [hends] at hconn hiff
  refine ⟨connected, st₁, hconn, honly, hcons,
    hiff.trans (linked_congr (graph_storeKey P st kv) _ _), ?_⟩
  rintro rfl
  obtain ⟨hends₁, hlen⟩ := h.searched_ends hlt honly
  have hsep : ¬ Linked (graph P st₁ st.keyCnt) (ends P st₁ st.keyCnt).1
      (ends P st₁ st.keyCnt).2 := by
    rw [hends₁, graph_same honly.tables honly.map]
    exact fun hl => absurd (hiff.mpr hl) (by simp)
  obtain ⟨st₂, x, st', flips, hadd, hfix, hcons', hlogs, ht, hm, hset, hcnt⟩ :=
    hcons.link hlen hsep
  rw [hends₁] at hadd hfix
  have hcnt' : st'.keyCnt = st.keyCnt + 1 := hm.keyCnt.trans honly.map.keyCnt
  rw [← hcnt'] at hcons'
  have htables : SameTables st (storeKey st st.keyCnt kv) := ⟨rfl, rfl, rfl, rfl⟩
  have hsettings : SameSettings st (storeKey st st.keyCnt kv) := ⟨rfl, rfl⟩
  refine ⟨st₂, x, st', flips, hadd, hfix, hcons', ?_, (htables.trans honly.tables).trans ht,
    honly.map.trans hm, (hsettings.trans honly.settings).trans hset,
    hcnt.trans honly.map.keyCnt⟩
  have hmem : st₁.mem = st.mem := honly.mem
  exact (Logs.of_mem hmem).trans hlogs

theorem Consistent.insert_on_demand_spec [DecidableEq K] (h : Consistent P st st.keyCnt)
    (hlt : st.keyCnt < st.keys.length) {kv : K × ℕ} (hnew : isMember P st kv.1 = false)
    (flipped : List ℕ) :
    ∃ done st' flips, insert_on_demand P st kv flipped = .ok (done, st', flipped ++ flips) ∧
      SameTables st st' ∧ SameSettings st st' ∧ SameMap (storeKey st st.keyCnt kv) st' ∧
      Logs P st flips st' ∧ (done = true → Consistent P st' st'.keyCnt) ∧
      (done = false → OnlyForest (storeKey st st.keyCnt kv) st' ∧ Consistent P st' st.keyCnt) ∧
      (done = false ↔ Linked (graph P st st.keyCnt) (getIndices P st kv.1).1
        (getIndices P st kv.1).2) := by
  obtain ⟨connected, st₁, hconn, honly, hcons, hiff, hlink⟩ := h.store_link hlt kv
  have hunfold : insert_on_demand P st kv flipped = (do
      if connected then return (false, st₁, flipped)
      let st ← addEdge st₁ st.keyCnt (getIndices P st kv.1).1 (getIndices P st kv.1).2
      let fixed ← fixHalfTreeDFS_on_demand P P.maintainDP true false st
        (st.keyCnt - 1) (getIndices P st₁ kv.1).1 (getIndices P st₁ kv.1).2 flipped
      return (true, fixed.2.1, fixed.2.2)) := by
    have hidx : getIndices P (storeKey st st.keyCnt kv) kv.1 = getIndices P st kv.1 := rfl
    simp only [insert_on_demand, hnew, Bool.false_eq_true, if_false,
      if_neg (Nat.not_le.mpr hlt), hidx, hconn, honly.tables.indices_eq]
    rfl
  have htables : SameTables st (storeKey st st.keyCnt kv) := ⟨rfl, rfl, rfl, rfl⟩
  have hsettings : SameSettings st (storeKey st st.keyCnt kv) := ⟨rfl, rfl⟩
  cases connected
  case true =>
    have hmem : st₁.mem = st.mem := honly.mem
    refine ⟨false, st₁, [], ?_, htables.trans honly.tables, hsettings.trans honly.settings,
      honly.map, Logs.of_mem hmem, by simp, fun _ => ⟨honly, hcons⟩,
      iff_of_true rfl (hiff.mp rfl)⟩
    rw [hunfold, List.append_nil]
    rfl
  case false =>
    obtain ⟨st₂, x, st', flips, hadd, hfix, hcons', hlogs, ht, hm, hset, hcnt⟩ := hlink rfl
    refine ⟨true, st', flips, ?_, ht, hset, hm, hlogs, fun _ => hcons', by simp,
      iff_of_false (by simp) fun hl => by simpa using hiff.mpr hl⟩
    have hidx : getIndices P st₁ kv.1 = getIndices P st kv.1 := honly.tables.indices_eq kv.1
    rw [hunfold, hidx]
    simp only [Bool.false_eq_true, if_false, hadd, ok_bind, hcnt, Nat.add_sub_cancel,
      fixHalfTreeDFS_on_demand_eq, hfix]
    rfl

theorem Indexed.withValues (h : Indexed P st n) (values : List ℕ)
    (hl : values.length = st.values.length) : Indexed P { st with values := values } n where
  ma_pos := h.ma_pos
  mb_pos := h.mb_pos
  indMem := h.indMem
  head := h.head
  forest := h.forest
  values := hl.trans h.values
  nextAtA := h.nextAtA
  nextAtB := h.nextAtB
  keyCnt := h.keyCnt
  linking := ⟨h.linking.n_le, h.linking.listsA, h.linking.listsB, h.linking.acyclic⟩
  indices := h.indices

theorem Consistent.update_spec (h : Consistent P st st.keyCnt) (hk : keyId < st.keyCnt)
    (val : ℕ) (flipped : List ℕ) :
    ∃ x st' flips,
      updateValueAt_on_demand P st keyId val flipped = .ok (x, st', flipped ++ flips) ∧
      updateValueAt P st keyId val = .ok (x, st') ∧ Consistent P st' st'.keyCnt ∧
      Logs P st flips st' ∧ SameTables st st' ∧ SameSettings st st' ∧
      SameMap { st with values := st.values.set keyId val } st' := by
  have hoff := h.cells.value_off hk val
  have hind := h.toIndexed.withValues (st.values.set keyId val) (List.length_set ..)
  by_cases hDP : P.maintainDP = true
  case neg =>
    refine ⟨0, { st with values := st.values.set keyId val }, [], ?_, ?_,
      { hind with
        cells := ⟨hoff.maintaining, fun hc => absurd hc hDP, fun hc => absurd hc hDP,
          fun hc => absurd hc hDP⟩
        valid := h.valid, components := h.components },
      fun _ hc => absurd hc hDP, ⟨rfl, rfl, rfl, rfl⟩, ⟨rfl, rfl⟩, ⟨rfl, rfl, rfl⟩⟩
    · simp only [updateValueAt_on_demand, if_neg (Nat.not_le.mpr hk), if_neg hDP, List.append_nil]
      rfl
    · simp only [updateValueAt, if_neg (Nat.not_le.mpr hk), if_neg hDP]
      rfl
  case pos =>
    obtain ⟨D, x, ind, hS, hfix, hindexed⟩ := hind.linking.fixHalfTree_spec hind.toShape hk true
      false true fun e u v hg _ => hind.indices e u v hg
    have hcells := hoff.fix hind.toShape hind.linking hk hDP hS ind
    have hends := (hoff.not_entered hDP).2
    rw [hends] at hS
    have hlogs : P.DL = 0 → _ := fun hD => half_replays hD hind.toShape
      (hoff.maintaining.trans hDP) hDP (hoff.sized hDP) hk true hS
    refine ⟨x, _, _, ?_, ?_, { hindexed with
        cells := hcells, valid := h.valid, components := h.components },
      fun hD _ => hlogs hD, ⟨rfl, rfl, rfl, rfl⟩, ⟨rfl, rfl⟩, ⟨rfl, rfl, rfl⟩⟩
    · simp only [updateValueAt_on_demand, if_neg (Nat.not_le.mpr hk), hDP, if_true,
        fixHalfTreeDFS_on_demand_eq]
      exact congrArg (fun r => r >>= fun p => Except.ok (p.1, p.2.1, flipped ++ p.2.2)) hfix
    · simp only [updateValueAt, if_neg (Nat.not_le.mpr hk), hDP, if_true, fixHalfTreeDFS_eq]
      exact congrArg (fun r => r >>= fun p => Except.ok (p.1, p.2.1)) hfix

theorem Kept.detach_spec (h : Kept P st (n + 1)) (hcnt : st.keyCnt = n + 1) (hk : keyId ≤ n) :
    ∃ st₁, detach P st (ends P st keyId).1 (ends P st keyId).2 keyId = .ok (st₁, []) ∧
      Detached P st n keyId st₁ ∧ SameSettings st st₁ ∧ Kept P st₁ n := by
  obtain ⟨st₁, hrun, hdet, hset, hind⟩ := h.toIndexed.detach_spec hcnt hk
  refine ⟨st₁, hrun, hdet, hset, { hind with
    cells := h.cells.congr hset.maintainingDP hdet.mem (nodes_same hdet.tables) ?_ }⟩
  intro e u v hg
  obtain ⟨he, hg⟩ := hdet.graph_iff.mp hg
  exact ⟨_, hg, cellLabel_congr hdet.tables.hd (hdet.keyAt e he) (hdet.values e he),
    shown_congr (hdet.values e he)⟩

/-- `connectBFS` compares cells cut to 32 bits, which is enough for one-bit cells. -/
theorem setWidth_inj {a b m : BitVec 64} (hm : m = lowMask 1) (ha : a &&& m = a)
    (hb : b &&& m = b) (h : a.setWidth 32 = b.setWidth 32) : a = b := by
  apply BitVec.eq_of_getLsbD_eq
  intro i hi
  have hmi : m.getLsbD i = (decide (i < 1) && decide (i < 64)) := by rw [hm, getLsbD_mask]
  rw [← ha, ← hb, BitVec.getLsbD_and, BitVec.getLsbD_and, hmi]
  by_cases h0 : i < 1
  · have hbit := congrArg (BitVec.getLsbD · i) h
    simp only [BitVec.getLsbD_setWidth, decide_eq_true (show i < 32 by omega), Bool.true_and]
      at hbit
    rw [hbit]
  · rw [decide_eq_false h0, Bool.false_and, Bool.and_false, Bool.and_false]

theorem linked_alone {root : ℕ} (halone : ∀ e w, ¬ graph P st n e root w) (v : ℕ) :
    Linked (graph P st n) root v ↔ v = root := by
  constructor
  · intro hv
    rcases Relation.ReflTransGen.cases_head hv with heq | ⟨w, ⟨e, he⟩, -⟩
    · exact heq.symm
    · exact absurd he (halone e w)
  · rintro rfl
    exact Linked.refl v

/-- `connect` makes a node without edges its own root and clears its cell, which changes no
answer. -/
theorem Kept.connect_isolated (h : Kept P st n) {root : ℕ} (hroot : root < nodes st)
    (hnone : st.head.getD root none = none) :
    ∃ st' flips, connect P st root = .ok (st', flips) ∧ Kept P st' n ∧ SameTables st st' ∧
      SameMap st st' ∧ SameSettings st st' ∧ Logs P st flips st' ∧
      st'.connectivityForest = DisjointSet.set st.connectivityForest root root := by
  have hkept : Kept P { st with
      connectivityForest := DisjointSet.set st.connectivityForest root root } n :=
    h.withForest ((DisjointSet.length_set ..).trans h.forest)
  by_cases hm : st.maintainingDP = true
  case neg =>
    have hDP : ¬ P.maintainDP = true := h.cells.maintaining ▸ hm
    refine ⟨{ st with connectivityForest := DisjointSet.set st.connectivityForest root root },
      [], ?_, hkept, ⟨rfl, rfl, rfl, rfl⟩, ⟨rfl, rfl, rfl⟩, ⟨rfl, rfl⟩,
      fun _ hc => absurd hc hDP, rfl⟩
    simp only [connect, hnone, if_true, if_neg hm, ne_eq, not_true_eq_false, if_false]
  case pos =>
    have hz := h.cells.sized (h.cells.maintaining.symm.trans hm)
    have halone := Linking.isolated h.linking hroot hnone
    generalize hclear : memGet P.toConfig st.mem root &&& (BitVec.allOnes 64 <<< 1) = cleared
    refine ⟨{ st with
        connectivityForest := DisjointSet.set st.connectivityForest root root
        mem := memSet P.toConfig st.mem root cleared },
      if (memGet P.toConfig st.mem root).setWidth 32 ≠ (memGet P.toConfig
        (memSet P.toConfig st.mem root cleared) root).setWidth 32 then [root] else [], ?_,
      ?_, ⟨rfl, rfl, rfl, rfl⟩, ⟨rfl, rfl, rfl⟩, ⟨rfl, rfl⟩, fun hD _ => ?_, rfl⟩
    · simp only [connect, hnone, if_true, hm, hclear]
    · have hind : Indexed P { st with
          connectivityForest := DisjointSet.set st.connectivityForest root root
          mem := memSet P.toConfig st.mem root cleared } n :=
        { ma_pos := h.ma_pos, mb_pos := h.mb_pos, indMem := h.indMem, head := h.head
          forest := hkept.forest, values := h.values, nextAtA := h.nextAtA
          nextAtB := h.nextAtB, keyCnt := h.keyCnt
          linking := ⟨h.linking.n_le, h.linking.listsA, h.linking.listsB, h.linking.acyclic⟩
          indices := h.indices }
      exact { hind with
        cells := Cells.write_alone hkept.toShape hkept.cells hroot halone cleared }
    · intro hc
      have hrep := Replays.memSet hz hroot cleared
      rw [← memGet_memSet_same hz hroot] at hrep
      have hmask : P.VDEMASK = lowMask 1 := by rw [Config.VDEMASK, hc]
      have hiff : (memGet P.toConfig st.mem root).setWidth 32 = (memGet P.toConfig
          (memSet P.toConfig st.mem root cleared) root).setWidth 32 ↔
          memGet P.toConfig st.mem root =
            memGet P.toConfig (memSet P.toConfig st.mem root cleared) root :=
        ⟨setWidth_inj hmask (memGet_lt hz hroot) (memGet_lt (sized_memSet hz root cleared) hroot),
          fun heq => congrArg _ heq⟩
      simp only [ne_eq, hiff]
      exact hrep hc

theorem Kept.connect_spec (h : Kept P st n) {root : ℕ} (hroot : root < nodes st) :
    ∃ st' flips, connect P st root = .ok (st', flips) ∧ Kept P st' n ∧ SameTables st st' ∧
      SameMap st st' ∧ SameSettings st st' ∧ Logs P st flips st' ∧
      (∀ v, Linked (graph P st n) root v →
        DisjointSet.parent st'.connectivityForest v = some root) ∧
      (∀ v, ¬ Linked (graph P st n) root v →
        DisjointSet.parent st'.connectivityForest v =
          DisjointSet.parent st.connectivityForest v) := by
  have hrootF : root < st.connectivityForest.length := h.forest.symm ▸ hroot
  have hset := DisjointSet.parent_set hrootF root
  by_cases hnone : st.head.getD root none = none
  case pos =>
    have halone := Linking.isolated h.linking hroot hnone
    obtain ⟨st', flips, hrun, hkept, ht, hm, hs, hlogs, hforest⟩ := h.connect_isolated hroot hnone
    refine ⟨st', flips, hrun, hkept, ht, hm, hs, hlogs, fun v hv => ?_, fun v hv => ?_⟩
    · rw [hforest, (linked_alone halone v).mp hv, hset, Function.update_self]
    · rw [hforest, hset,
        Function.update_of_ne fun heq => hv ((linked_alone halone v).mpr heq)]
  case neg =>
    have hkept : Kept P { st with
        connectivityForest := DisjointSet.set st.connectivityForest root root } n :=
      h.withForest ((DisjointSet.length_set ..).trans h.forest)
    obtain ⟨D, hD, hS⟩ := Linking.traversal hkept.toShape hkept.linking none hroot
      (by simp) (fun st t => { st with
        connectivityForest := DisjointSet.set st.connectivityForest t.child root })
      { st with connectivityForest := DisjointSet.set st.connectivityForest root root }
    rw [foldl_forest] at hD
    have hmem : ∀ v, v ∈ root :: D.map Visit.child ↔ Linked (graph P st n) root v := fun v => by
      rw [hS.mem_iff]
      exact linked_congr (fun e u v => and_iff_left (by simp)) root v
    have hpar := fun v => (parent_foldl_set Visit.child D root
      (DisjointSet.set st.connectivityForest root root)
      (fun t ht => by rw [DisjointSet.length_set, h.forest]; exact hkept.toShape.child_lt hS ht)
      v)
    refine ⟨_, [], ?_, h.withForest ((hpar 0).2.trans ((DisjointSet.length_set ..).trans h.forest)),
      ⟨rfl, rfl, rfl, rfl⟩, ⟨rfl, rfl, rfl⟩, ⟨rfl, rfl⟩, Logs.of_mem rfl, fun v hv => ?_,
      fun v hv => ?_⟩
    · simp only [connect, hnone, if_false]
      rw [hD]
      rfl
    · rw [(hpar v).1]
      split
      case isTrue => rfl
      case isFalse hvD =>
        have : v = root := by
          rcases List.mem_cons.mp ((hmem v).mpr hv) with heq | hin
          · exact heq
          · exact absurd hin hvD
        rw [this, hset, Function.update_self]
    · rw [← hmem, List.mem_cons, not_or] at hv
      rw [(hpar v).1, if_neg hv.2, hset, Function.update_of_ne hv.1]

structure Erased (st : Othello K) (keyId : ℕ) (st' : Othello K) : Prop where
  keyCnt : st'.keyCnt = st.keyCnt - 1
  entries : ∀ e, e < st'.keyCnt → keyAt st' e = keyAt st (oldId st'.keyCnt keyId e) ∧
    st'.values.getD e 0 = st.values.getD (oldId st'.keyCnt keyId e) 0
  length : st'.keys.length = st.keys.length

theorem Detached.erased {st₁ st' : Othello K} (h : Detached P st n keyId st₁)
    (hcnt : st.keyCnt = n + 1) (hm : SameMap st₁ st') : Erased st keyId st' := by
  have hcnt' : st'.keyCnt = n := hm.keyCnt.trans h.keyCnt
  refine ⟨by omega, fun e he => ?_, ?_⟩
  · rw [hcnt'] at he ⊢
    rw [ControlPlaneOthello.keyAt, hm.keys, hm.values]
    exact ⟨h.keyAt e he, h.values e he⟩
  · rw [hm.keys, h.length]

theorem Consistent.components_erased (h : Consistent P st (n + 1)) (hk : keyId ≤ n)
    (hc : Components st.connectivityForest (nodes st) (graph P st (n + 1))) {st₁ : Othello K}
    (hdet : Detached P st n keyId st₁) (forest : DisjointSet.Mem) (hl : forest.length = nodes st)
    (hpa : ∀ v, Linked (graph P st₁ n) (ends P st keyId).1 v →
      ¬ Linked (graph P st₁ n) (ends P st keyId).2 v →
      DisjointSet.parent forest v = some (ends P st keyId).1)
    (hpb : ∀ v, Linked (graph P st₁ n) (ends P st keyId).2 v →
      DisjointSet.parent forest v = some (ends P st keyId).2)
    (hpo : ∀ v, ¬ Linked (graph P st₁ n) (ends P st keyId).1 v →
      ¬ Linked (graph P st₁ n) (ends P st keyId).2 v →
      DisjointSet.parent forest v = DisjointSet.parent st.connectivityForest v) :
    Components forest (nodes st) (graph P st₁ n) := by
  obtain ⟨hA, hB, hBn⟩ := h.ends_bounds keyId
  have hg := graph_ends P st (Nat.lt_succ_of_le hk)
  have hU := undirected_graph P st (n + 1)
  have hU₁ := undirected_graph P st₁ n
  generalize (ends P st keyId).1 = a at *
  generalize (ends P st keyId).2 = b at *
  have hsep : ¬ Linked (graph P st₁ n) a b := fun hl =>
    h.linking.acyclic.not_linked_avoid hU hg ((hdet.linked_iff hk a b).mp hl)
  exact hc.split (a := a) (b := b) hU₁
    (fun u v hl => Linked.of_avoid ((hdet.linked_iff hk u v).mp hl))
    (fun u v hu hl => (hdet.linked_iff hk u v).mpr (linked_avoid_of_not_linked hU hg hu hl))
    (fun v hl => (linked_avoid_or hU hg hl).imp (hdet.linked_iff hk a v).mpr
      (hdet.linked_iff hk b v).mpr)
    (Linked.edge hg) hsep hU (by omega) hBn hl
    (fun v _ hl => hpa v hl fun hb => hsep (hl.trans (hb.symm hU₁)))
    (fun v _ hl => hpb v hl) (fun v _ hna hnb => hpo v hna hnb)

theorem Consistent.eraseId_spec (h : Consistent P st st.keyCnt) (hk : keyId < st.keyCnt) :
    ∃ st' flips, eraseId P st (keyAt st keyId) keyId = .ok (st', flips) ∧
      Consistent P st' st'.keyCnt ∧ Logs P st flips st' ∧ SameTables st st' ∧
      SameSettings st st' ∧ Erased st keyId st' := by
  obtain ⟨n, hcnt⟩ : ∃ n, st.keyCnt = n + 1 := ⟨st.keyCnt - 1, by omega⟩
  rw [hcnt] at h hk
  have hkn : keyId ≤ n := Nat.le_of_lt_succ hk
  obtain ⟨hA, hB, hBn⟩ := h.ends_bounds keyId
  have hnodes : nodes st = st.ma + st.mb := rfl
  obtain ⟨st₁, hdetach, hdet, hset₁, hkept₁⟩ := h.toKept.detach_spec hcnt hkn
  have hab : getIndices P st (keyAt st keyId) = ((ends P st keyId).1, (ends P st keyId).2) := rfl
  by_cases hset : P.maintainDisjointSet = true
  case neg =>
    have hm : SameMap st₁ st₁ := ⟨rfl, rfl, rfl⟩
    refine ⟨st₁, [], ?_, ?_, Logs.of_mem hdet.mem, hdet.tables, hset₁, hdet.erased hcnt hm⟩
    · simp only [eraseId, hab, hdetach, ok_bind, if_neg hset]
      rfl
    · rw [hdet.keyCnt]
      exact { hkept₁ with
        valid := hdet.forest ▸ h.valid, components := fun hc => absurd hc hset }
  case pos =>
    have hcomp := h.components_erased hkn (h.components hset) hdet
    generalize (ends P st keyId).1 = a at *
    generalize (ends P st keyId).2 = b at *
    have hn₁ := nodes_same hdet.tables
    have hA₁ : a < nodes st₁ := by omega
    obtain ⟨st₂, flipsA, hconnA, hkept₂, ht₂, hm₂, hset₂, hlogs₂, hlinkA, hotherA⟩ :=
      hkept₁.connect_spec hA₁
    have hB₂ : b < nodes st₂ := by rw [nodes_same ht₂, hn₁]; exact hBn
    obtain ⟨st₃, flipsB, hconnB, hkept₃, ht₃, hm₃, hset₃, hlogs₃, hlinkB, hotherB⟩ :=
      hkept₂.connect_spec hB₂
    rw [graph_same ht₂ hm₂] at hlinkB hotherB
    have ht := (hdet.tables.trans ht₂).trans ht₃
    have hcnt₃ : st₃.keyCnt = n := hm₃.keyCnt.trans (hm₂.keyCnt.trans hdet.keyCnt)
    have hgraph₃ : graph P st₃ n = graph P st₁ n :=
      (graph_same ht₃ hm₃ n).trans (graph_same ht₂ hm₂ n)
    have hcomp₃ : Components st₃.connectivityForest (nodes st₃) (graph P st₃ n) := by
      rw [nodes_same ht, hgraph₃]
      refine hcomp _ (hkept₃.forest.trans (nodes_same ht)) (fun v hl hnb => ?_) hlinkB
        fun v hna hnb => ?_
      · rw [hotherB v hnb, hlinkA v hl]
      · rw [hotherB v hnb, hotherA v hna, hdet.forest]
    refine ⟨st₃, [] ++ flipsA ++ flipsB, ?_, ?_,
      ((Logs.of_mem hdet.mem).trans hlogs₂).trans hlogs₃, ht,
      (hset₁.trans hset₂).trans hset₃, hdet.erased hcnt (hm₂.trans hm₃)⟩
    · simp only [eraseId, hab, hdetach, ok_bind, hset, if_true, hconnA, hconnB]
      rfl
    · rw [hcnt₃]
      exact { hkept₃ with valid := hcomp₃.valid, components := fun _ => hcomp₃ }

/-- What both kinds of `erase` do, whether or not the key is stored. -/
theorem Consistent.erase_spec [DecidableEq K] (h : Consistent P st st.keyCnt) (k : K)
    (flipped : List ℕ) :
    ∃ st' flips, erase P st k = .ok st' ∧
      erase_on_demand P st k flipped = .ok (st', flipped ++ flips) ∧
      Consistent P st' st'.keyCnt ∧ Logs P st flips st' ∧ SameTables st st' ∧
      SameSettings st st' ∧ st'.keys.length = st.keys.length := by
  by_cases hk : queryIndex P st k ≥ st.keyCnt ∨ keyAt st (queryIndex P st k) ≠ k
  · obtain ⟨hrun, hrun'⟩ := erase_missed flipped hk
    exact ⟨st, [], hrun, hrun', h, Logs.of_mem rfl, SameTables.refl st, ⟨rfl, rfl⟩, rfl⟩
  · obtain ⟨hlt, hkey⟩ := not_or.mp hk
    obtain ⟨st', flips, hrun, hcons, hlogs, ht, hset, her⟩ :=
      h.eraseId_spec (Nat.lt_of_not_le hlt)
    rw [not_not.mp hkey] at hrun
    obtain ⟨herase, herase'⟩ := erase_found flipped hk hrun
    exact ⟨st', flips, herase, herase', hcons, hlogs, ht, hset, her.length⟩

section Plain

variable (hP : Plain P)
include hP

omit [Inhabited K] in
theorem Logs.replays {st' : Othello K} {flips : List ℕ} (h : Logs P st flips st') :
    Replays P.toConfig st.mem flips st'.mem :=
  h hP.noDigest hP.dataPlane

theorem Invariant.insert_on_demand_spec [DecidableEq K] (h : Invariant P st)
    (hlt : st.keyCnt < st.keys.length) {kv : K × ℕ} (hnew : isMember P st kv.1 = false)
    (flipped : List ℕ) :
    ∃ done st' flips, insert_on_demand P st kv flipped = .ok (done, st', flipped ++ flips) ∧
      SameTables st st' ∧ SameMap (storeKey st st.keyCnt kv) st' ∧
      Replays P.toConfig st.mem flips st'.mem ∧ (done = true → Invariant P st') ∧
      (done = false ↔ Linked (graph P st st.keyCnt) (getIndices P st kv.1).1
        (getIndices P st kv.1).2) := by
  obtain ⟨done, st', flips, hrun, ht, -, hm, hlogs, hdone, -, hiff⟩ :=
    (h.consistent hP).insert_on_demand_spec hlt hnew flipped
  exact ⟨done, st', flips, hrun, ht, hm, hlogs.replays hP,
    fun hd => (hdone hd).invariant hP, hiff⟩

theorem Invariant.update_spec (h : Invariant P st) (hk : keyId < st.keyCnt)
    (val : ℕ) (flipped : List ℕ) :
    ∃ x st' flips,
      updateValueAt_on_demand P st keyId val flipped = .ok (x, st', flipped ++ flips) ∧
      updateValueAt P st keyId val = .ok (x, st') ∧ Invariant P st' ∧
      Replays P.toConfig st.mem flips st'.mem ∧ SameTables st st' ∧
      SameMap { st with values := st.values.set keyId val } st' := by
  obtain ⟨x, st', flips, hrun, hrun', hcons, hlogs, ht, -, hm⟩ :=
    (h.consistent hP).update_spec hk val flipped
  exact ⟨x, st', flips, hrun, hrun', hcons.invariant hP, hlogs.replays hP, ht, hm⟩

theorem Invariant.eraseId_spec (h : Invariant P st) (hk : keyId < st.keyCnt) :
    ∃ st' flips, eraseId P st (keyAt st keyId) keyId = .ok (st', flips) ∧ Invariant P st' ∧
      Replays P.toConfig st.mem flips st'.mem ∧ SameTables st st' ∧ Erased st keyId st' := by
  obtain ⟨st', flips, hrun, hcons, hlogs, ht, -, her⟩ := (h.consistent hP).eraseId_spec hk
  exact ⟨st', flips, hrun, hcons.invariant hP, hlogs.replays hP, ht, her⟩

end Plain

end OthelloInvariant
