import TinyCR.ComponentSets
import TinyCR.EdgeLabels
import TinyCR.NodeLists

/-! # The invariant of `ControlPlaneOthello`

For `DL = 0` with data plane and disjoint set maintained: the stored keys are the edges of a
forest, the lists hold the edges of each node, the disjoint set its components, and the
cells of the two ends of a key xor to its value and to its index. -/
namespace OthelloInvariant

open PackedCells EdgeForest EdgeLabels NodeLists ComponentSets ControlPlaneOthello

variable {K : Type} [Inhabited K]

/-- The configuration the invariant is about. -/
structure Plain (P : Setup K) : Prop where
  noDigest : P.DL = 0
  dataPlane : P.maintainDP = true
  disjointSet : P.maintainDisjointSet = true

def nodes (st : Othello K) : ℕ := st.ma + st.mb

def ends (P : Setup K) (st : Othello K) (e : ℕ) : ℕ × ℕ := getIndices P st (keyAt st e)

/-- Edge `e < n` joins the two nodes of key `e`. -/
def graph (P : Setup K) (st : Othello K) (n : ℕ) (e u v : ℕ) : Prop :=
  e < n ∧ (ends P st e = (u, v) ∨ ends P st e = (v, u))

structure Shape (P : Setup K) (st : Othello K) : Prop where
  ma_pos : 0 < st.ma
  mb_pos : 0 < st.mb
  indMem : st.indMem.length = nodes st
  head : st.head.length = nodes st
  forest : st.connectivityForest.length = nodes st
  values : st.values.length = st.keys.length
  nextAtA : st.nextAtA.length = st.keys.length
  nextAtB : st.nextAtB.length = st.keys.length
  keyCnt : st.keyCnt ≤ st.keys.length

structure Skeleton (P : Setup K) (st : Othello K) : Prop extends Shape P st where
  maintaining : st.maintainingDP = true
  sized : Sized P.toConfig st.mem (nodes st)

/-- The lists hold the first `n` keys, which form a forest. -/
structure Linking (P : Setup K) (st : Othello K) (n : ℕ) : Prop where
  n_le : n ≤ st.keys.length
  listsA : SideLists st.head st.nextAtA (· < st.ma) (graph P st n)
  listsB : SideLists st.head st.nextAtB (fun v => st.ma ≤ v ∧ v < nodes st) (graph P st n)
  acyclic : Acyclic (graph P st n)

def indAt (st : Othello K) (v : ℕ) : ℕ := st.indMem.getD v 0

/-- The first `n` keys are linked, and the ends of each xor to its index. -/
structure Indexed (P : Setup K) (st : Othello K) (n : ℕ) : Prop extends Shape P st where
  linking : Linking P st n
  indices : Labelled (graph P st n) (· ^^^ ·) (indAt st) id

/-- The value bits `query` has to return for edge `e`. -/
def label (P : Setup K) (st : Othello K) (e : ℕ) : BitVec 64 := valueAt st e &&& P.VDEMASK

def memAt (P : Setup K) (st : Othello K) (v : ℕ) : BitVec 64 := memGet P.toConfig st.mem v

structure Recorded (P : Setup K) (st : Othello K) (n : ℕ) : Prop extends Skeleton P st where
  linking : Linking P st n
  labels : Labelled (graph P st n) (· ^^^ ·) (memAt P st) (label P st)
  indices : Labelled (graph P st n) (· ^^^ ·) (indAt st) id

structure Invariant (P : Setup K) (st : Othello K) : Prop
    extends Recorded P st st.keyCnt where
  components : Components st.connectivityForest (nodes st) (graph P st st.keyCnt)

theorem involutive_word : Involutive (fun a b : BitVec 64 => a ^^^ b) where
  assoc := BitVec.xor_assoc
  comm := BitVec.xor_comm
  cancel a b := by rw [← BitVec.xor_assoc, BitVec.xor_self, BitVec.zero_xor]

theorem involutive_nat : Involutive (fun a b : ℕ => a ^^^ b) where
  assoc := Nat.xor_assoc
  comm := Nat.xor_comm
  cancel a b := by rw [← Nat.xor_assoc, Nat.xor_self, Nat.zero_xor]

section Graph

variable {P : Setup K} {st st' : Othello K} {n e u v : ℕ}

theorem multiplyHigh_lt {x y : ℕ} (hx : x < 2 ^ 32) (hy : 0 < y) : multiplyHigh x y < y := by
  rw [multiplyHigh]
  exact Nat.div_lt_of_lt_mul (Nat.mul_lt_mul_of_pos_right hx hy)

omit [Inhabited K] in
theorem getIndices_bounds (ha : 0 < st.ma) (hb : 0 < st.mb) (k : K) :
    (getIndices P st k).1 < st.ma ∧ st.ma ≤ (getIndices P st k).2 ∧
      (getIndices P st k).2 < nodes st := by
  have hlo : (P.hab st.hab k).toNat % 2 ^ 32 < 2 ^ 32 := Nat.mod_lt _ (by decide)
  have hhi : (P.hab st.hab k).toNat / 2 ^ 32 < 2 ^ 32 := by
    have := (P.hab st.hab k).isLt
    omega
  have h1 := multiplyHigh_lt hlo ha
  have h2 := multiplyHigh_lt hhi hb
  rw [getIndices, nodes]
  dsimp only
  omega

theorem Shape.ends_bounds (h : Shape P st) (e : ℕ) :
    (ends P st e).1 < st.ma ∧ st.ma ≤ (ends P st e).2 ∧ (ends P st e).2 < nodes st :=
  getIndices_bounds h.ma_pos h.mb_pos _

theorem graph_ends (P : Setup K) (st : Othello K) (h : e < n) :
    graph P st n e (ends P st e).1 (ends P st e).2 :=
  ⟨h, Or.inl rfl⟩

theorem undirected_graph (P : Setup K) (st : Othello K) (n : ℕ) : Undirected (graph P st n) :=
  undirected_firstEdges (ends P st) n

theorem Shape.graph_lt (h : Shape P st) (hg : graph P st n e u v) :
    u < nodes st ∧ v < nodes st := by
  obtain ⟨h1, h2, h3⟩ := h.ends_bounds e
  have hn : nodes st = st.ma + st.mb := rfl
  obtain ⟨-, hg | hg⟩ := hg <;> rw [hg] at h1 h2 h3 <;> dsimp only at h1 h2 h3 <;>
    constructor <;> omega

theorem Shape.graph_A (h : Shape P st) (hu : u < st.ma) :
    graph P st n e u v ↔ e < n ∧ ends P st e = (u, v) := by
  refine and_congr_right fun _ => or_iff_left fun hg => ?_
  obtain ⟨-, h2, -⟩ := h.ends_bounds e
  rw [hg] at h2
  dsimp only at h2
  omega

theorem Shape.graph_B (h : Shape P st) (hu : st.ma ≤ u) :
    graph P st n e u v ↔ e < n ∧ ends P st e = (v, u) := by
  refine and_congr_right fun _ => or_iff_right fun hg => ?_
  obtain ⟨h1, -, -⟩ := h.ends_bounds e
  rw [hg] at h1
  dsimp only at h1
  omega

theorem Shape.oneEnd_A (h : Shape P st) : OneEnd (· < st.ma) (graph P st n) := by
  intro e v v' w w' hv hv' hg hg'
  have h1 := ((h.graph_A hv).mp hg).2
  have h2 := ((h.graph_A hv').mp hg').2
  rw [h1, Prod.mk.injEq] at h2
  exact h2

theorem Shape.oneEnd_B (h : Shape P st) :
    OneEnd (fun v => st.ma ≤ v ∧ v < nodes st) (graph P st n) := by
  intro e v v' w w' hv hv' hg hg'
  have h1 := ((h.graph_B hv.1).mp hg).2
  have h2 := ((h.graph_B hv'.1).mp hg').2
  rw [h1, Prod.mk.injEq] at h2
  exact h2.symm

theorem graph_congr (hends : ∀ e, e < n → ends P st' e = ends P st e) :
    graph P st' n e u v ↔ graph P st n e u v := by
  refine and_congr_right fun h => ?_
  rw [hends e h]

theorem graph_succ : graph P st (n + 1) e u v ↔
    withEdge (graph P st n) n (ends P st n).1 (ends P st n).2 e u v :=
  firstEdges_succ

end Graph

section Traversals

variable {P : Setup K} {st : Othello K} {n root : ℕ} {skip : Option ℕ}

theorem Linking.adjacent (h : Linking P st n) {v : ℕ} (hv : v < nodes st) :
    ∃ l, adjacent st v = some l ∧ (l.map Prod.fst).Nodup ∧
      ∀ e w, (e, w) ∈ l ↔ graph P st n e v w := by
  obtain ⟨l, hl, hnd, hmem⟩ : ∃ l, IntrusiveLists.Chain OthelloCPCell.keyId
      (nextKeyOfThisKey st v) (st.head.getD v none) l ∧
      (l.map OthelloCPCell.keyId).Nodup ∧ ∀ e w, ⟨e, w⟩ ∈ l ↔ graph P st n e v w := by
    by_cases hvA : v < st.ma
    · have hnext : nextKeyOfThisKey st v = fun i => st.nextAtA.getD i none := by
        funext i
        rw [nextKeyOfThisKey, if_pos hvA]
      rw [hnext]
      exact h.listsA v hvA
    · have hnext : nextKeyOfThisKey st v = fun i => st.nextAtB.getD i none := by
        funext i
        rw [nextKeyOfThisKey, if_neg hvA]
      rw [hnext]
      exact h.listsB v ⟨Nat.le_of_not_lt hvA, hv⟩
  have hlen : l.length ≤ st.keys.length := length_le hnd fun c hc =>
    ((hmem c.keyId c.nodeId).mp hc).1.trans_le h.n_le
  refine ⟨l.map fun c => (c.keyId, c.nodeId), ?_, ?_, ?_⟩
  · rw [ControlPlaneOthello.adjacent, hl.walk_eq hlen]
    rfl
  · rw [List.map_map]
    exact hnd
  · intro e w
    rw [← hmem, List.mem_map]
    constructor
    · rintro ⟨c, hc, heq⟩
      obtain ⟨rfl, rfl⟩ := Prod.mk.injEq .. ▸ heq
      exact hc
    · exact fun hc => ⟨_, hc, rfl⟩

/-- Every traversal of the forest ends and spans the component it starts in. -/
theorem Linking.traversal (hsk : Shape P st) (h : Linking P st n) (skip : Option ℕ)
    (hroot : root < nodes st)
    (hskip : ∀ e, skip = some e → (∃ b, graph P st n e root b) ∨ ∀ u v, ¬ graph P st n e u v)
    {σ : Type}
    (visit : σ → Visit ℕ ℕ → σ) (s : σ) :
    ∃ D, traversal st skip root visit s = .ok (D.foldl visit s) ∧
      Spans (graph P st n) skip root D := by
  obtain ⟨D, hD, hS⟩ := traverse_spans (Finset.range (nodes st)) skip
    (undirected_graph P st n) h.acyclic
    (fun e u v hg => Finset.mem_range.mpr (hsk.graph_lt hg).2) (Finset.mem_range.mpr hroot) hskip
    (fun v hv => h.adjacent (Finset.mem_range.mp hv)) visit s
    (by rw [Finset.card_range, hsk.head] : _ ≤ st.head.length)
  exact ⟨D, by rw [ControlPlaneOthello.traversal, hD], hS⟩

theorem Shape.child_lt (hsk : Shape P st) {D : List (Visit ℕ ℕ)}
    (hS : Spans (graph P st n) skip root D) {t : Visit ℕ ℕ} (ht : t ∈ D) : t.child < nodes st :=
  (hsk.graph_lt (hS.link t ht).1).2

end Traversals

section Cells

variable {P : Setup K} {st : Othello K}

omit [Inhabited K] in
theorem memStore (P : Setup K) (n : ℕ) : Store n (fun m => Sized P.toConfig m n)
    (memGet P.toConfig) (memSet P.toConfig) (· &&& P.VDEMASK) where
  ok_set h := h.congr (length_memSet _)
  get_set h hi hj := memGet_memSet h hi hj _

theorem indStore (n : ℕ) : Store n (fun l : List ℕ => l.length = n) (fun l v => l.getD v 0)
    (fun l i v => l.set i v) id where
  ok_set h := (List.length_set ..).trans h
  get_set {l _ j v} h hi _ := congrFun (getD_set l (h ▸ hi) v 0) j

theorem mask_xor (a b m : BitVec 64) (hb : b &&& m = b) : (a ^^^ b) &&& m = (a &&& m) ^^^ b := by
  apply BitVec.eq_of_getLsbD_eq
  intro i hi
  have hbi := congrArg (BitVec.getLsbD · i) hb
  simp only [BitVec.getLsbD_and, BitVec.getLsbD_xor] at hbi ⊢
  rw [← hbi]
  cases a.getLsbD i <;> cases b.getLsbD i <;> cases m.getLsbD i <;> rfl

end Cells

section Queries

variable {P : Setup K} {st : Othello K} {n : ℕ}

theorem Indexed.queryIndex_eq (h : Indexed P st st.keyCnt) {i : ℕ} (hi : i < st.keyCnt) :
    queryIndex P st (keyAt st i) = i :=
  h.indices i _ _ (graph_ends P st hi)

theorem Indexed.keyAt_inj (h : Indexed P st st.keyCnt) {i j : ℕ} (hi : i < st.keyCnt)
    (hj : j < st.keyCnt) (heq : keyAt st i = keyAt st j) : i = j := by
  rw [← h.queryIndex_eq hi, heq, h.queryIndex_eq hj]

theorem Indexed.isMember_iff [DecidableEq K] (h : Indexed P st st.keyCnt) (x : K) :
    isMember P st x = true ↔ ∃ i, i < st.keyCnt ∧ keyAt st i = x := by
  simp only [isMember, Bool.and_eq_true, decide_eq_true_eq, beq_iff_eq]
  constructor
  · rintro ⟨hlt, heq⟩
    exact ⟨_, hlt, heq⟩
  · rintro ⟨i, hi, rfl⟩
    rw [h.queryIndex_eq hi]
    exact ⟨hi, rfl⟩

theorem Recorded.indexed (h : Recorded P st n) : Indexed P st n :=
  { h.toShape with linking := h.linking, indices := h.indices }

theorem Invariant.queryIndex_eq (h : Invariant P st) {i : ℕ} (hi : i < st.keyCnt) :
    queryIndex P st (keyAt st i) = i :=
  h.indexed.queryIndex_eq hi

theorem Invariant.keyAt_inj (h : Invariant P st) {i j : ℕ} (hi : i < st.keyCnt)
    (hj : j < st.keyCnt) (heq : keyAt st i = keyAt st j) : i = j :=
  h.indexed.keyAt_inj hi hj heq

theorem Invariant.isMember_iff [DecidableEq K] (h : Invariant P st) (x : K) :
    isMember P st x = true ↔ ∃ i, i < st.keyCnt ∧ keyAt st i = x :=
  h.indexed.isMember_iff x

theorem getLsbD_cut (a b : BitVec 64) {w i : ℕ} (hi : i < w) :
    (a.setWidth w ^^^ b.setWidth w).toNat.testBit i = (a ^^^ b).getLsbD i := by
  rw [BitVec.testBit_toNat, BitVec.getLsbD_xor, BitVec.getLsbD_setWidth, BitVec.getLsbD_setWidth,
    decide_eq_true hi, Bool.true_and, Bool.true_and, BitVec.getLsbD_xor]

omit [Inhabited K] in
theorem query_cells (hP : Plain P) (st : Othello K) (k : K) :
    ∃ q, query P st k = some q ∧ BitVec.ofNat 64 q &&& P.VMASK =
      (memAt P st (getIndices P st k).1 ^^^ memAt P st (getIndices P st k).2) &&& P.VMASK := by
  refine ⟨_, by rw [query, if_pos hP.dataPlane], ?_⟩
  apply BitVec.eq_of_getLsbD_eq
  intro i hi
  rw [BitVec.getLsbD_and, BitVec.getLsbD_and, Config.VMASK, getLsbD_mask, hP.noDigest,
    Nat.shiftRight_zero, BitVec.getLsbD_ofNat, decide_eq_true hi, Bool.and_true, Bool.true_and]
  by_cases hL : i < P.L
  · rw [getLsbD_cut _ _ (hL.trans_le P.l_le)]
    rfl
  · rw [decide_eq_false hL, Bool.and_false, Bool.and_false]

omit [Inhabited K] in
theorem vmask_eq (hP : Plain P) : P.VMASK = P.VDEMASK := by
  rw [Config.VMASK, Config.VDEMASK, Config.VDL, hP.noDigest, Nat.add_zero]

theorem Invariant.query_eq (hP : Plain P) (h : Invariant P st) {i : ℕ} (hi : i < st.keyCnt) :
    ∃ q, query P st (keyAt st i) = some q ∧
      BitVec.ofNat 64 q &&& P.VMASK = valueAt st i &&& P.VMASK := by
  obtain ⟨q, hq, hval⟩ := query_cells hP st (keyAt st i)
  refine ⟨q, hq, hval.trans ?_⟩
  have hl : memAt P st (ends P st i).1 ^^^ memAt P st (ends P st i).2 = label P st i :=
    h.labels i _ _ (graph_ends P st hi)
  rw [show getIndices P st (keyAt st i) = ends P st i from rfl, hl, label, vmask_eq hP,
    BitVec.and_assoc, BitVec.and_self]

theorem Invariant.checkIntegrity (hP : Plain P) (h : Invariant P st) : checkIntegrity P st :=
  fun _ hi => ⟨h.queryIndex_eq hi, Invariant.query_eq hP h hi⟩

end Queries

end OthelloInvariant
