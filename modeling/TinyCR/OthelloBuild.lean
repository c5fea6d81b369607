import TinyCR.OthelloSteps

/-! # Building the Othello

`testHash` links all keys or stops at a cycle, `fillValue` fills the trees of the roots it
meets; so `build` succeeds with the first seed whose graph is a forest, and then every key
answers. -/
namespace OthelloInvariant

open PackedCells EdgeForest EdgeLabels NodeLists ComponentSets ControlPlaneOthello
  DataPlaneOthello ParentPointers

variable {K : Type} [Inhabited K] {P : Setup K} {st : Othello K} {n : ℕ}

/-- The data memory fits the tables, if there is one. -/
def MemFits (P : Setup K) (st : Othello K) : Prop :=
  st.maintainingDP = true → Sized P.toConfig st.mem (nodes st)

/-- The first `n` keys are linked, and their trees have roots in array A. -/
structure Tested (P : Setup K) (st : Othello K) (n : ℕ) : Prop extends Shape P st where
  linking : Linking P st n
  components : Components st.connectivityForest (nodes st) (graph P st n)
  roots : RootsIn (· < st.ma) st.connectivityForest (graph P st n)

omit [Inhabited K] in
theorem Shape.withForest (h : Shape P st) {forest : DisjointSet.Mem}
    (hf : forest.length = nodes st) : Shape P { st with connectivityForest := forest } where
  ma_pos := h.ma_pos
  mb_pos := h.mb_pos
  indMem := h.indMem
  head := h.head
  forest := hf
  values := h.values
  nextAtA := h.nextAtA
  nextAtB := h.nextAtB
  keyCnt := h.keyCnt

structure OnlyLinks (st st' : Othello K) : Prop where
  tables : SameTables st st'
  map : SameMap st st'
  settings : SameSettings st st'
  mem : st'.mem = st.mem
  indMem : st'.indMem = st.indMem
  draws : st'.draws = st.draws

omit [Inhabited K] in
theorem OnlyLinks.trans {st' st'' : Othello K} (h : OnlyLinks st st') (h' : OnlyLinks st' st'') :
    OnlyLinks st st'' :=
  ⟨h.tables.trans h'.tables, h.map.trans h'.map, h.settings.trans h'.settings,
    h'.mem.trans h.mem, h'.indMem.trans h.indMem, h'.draws.trans h.draws⟩

theorem Tested.step (h : Tested P st n) (hn : n < st.keys.length) :
    ∃ same forest, DisjointSet.sameSet st.connectivityForest (ends P st n).1 (ends P st n).2 =
        some (same, forest) ∧ forest.length = nodes st ∧
      (same = true → Linked (graph P st n) (ends P st n).1 (ends P st n).2) ∧
      (same = false → ∃ st', addEdge { st with connectivityForest := forest } n (ends P st n).1
          (ends P st n).2 = .ok st' ∧ Tested P st' (n + 1) ∧ OnlyLinks st st') := by
  have hsh := h.toShape
  obtain ⟨hA, hB, hBn⟩ := hsh.ends_bounds n
  have hAn : (ends P st n).1 < nodes st := by omega
  obtain ⟨same, forest, hsame, hcomp, hiff, hcompr, ht₁⟩ := h.components.sameSet hAn hBn
  refine ⟨same, forest, hsame, hcomp.length, hiff.mp, ?_⟩
  rintro rfl
  have hsep : ¬ Linked (graph P st n) (ends P st n).1 (ends P st n).2 := fun hl =>
    absurd (hiff.mpr hl) (by simp)
  obtain ⟨ra, rb, forest', hmerge, hcomp', hra, hrb, hmove, ht₂⟩ := hcomp.merge hAn hBn n
  have hlink := Linking.edge_added hsh h.linking hn hsep forest'
  have hsh' := hsh.edge_added n (ends P st n).1 (ends P st n).2 hcomp'.length
  have hroots := h.roots.merge h.components (undirected_graph P st n)
    (fun e u v hg => (hsh.graph_lt hg).1) hAn hBn hA n hcompr hra hrb hmove
    (touched_trans hcompr (h.components.length ▸ hAn) (h.components.length ▸ hBn) ht₁ ht₂)
  have hgraph : graph P (edgeAdded st n (ends P st n).1 (ends P st n).2 forest') (n + 1) =
      withEdge (graph P st n) n (ends P st n).1 (ends P st n).2 := by
    funext e u v
    exact propext graph_succ
  rw [← hgraph] at hcomp' hroots
  exact ⟨_, addEdge_eq { st with connectivityForest := forest } hmerge,
    ⟨hsh', hlink, hcomp', hroots⟩, ⟨rfl, rfl, rfl, rfl⟩, ⟨rfl, rfl, rfl⟩, ⟨rfl, rfl⟩, rfl, rfl,
    rfl⟩

theorem graph_le {m : ℕ} (hm : n ≤ m) (e u v : ℕ) (h : graph P st n e u v) :
    graph P st m e u v :=
  ⟨h.1.trans_le hm, h.2⟩

theorem Tested.testHashFrom {m : ℕ} (h : Tested P st n) (hm : n + m = st.keyCnt) :
    ∃ succ st', testHashFrom P st n m = .ok (succ, st') ∧ Shape P st' ∧ OnlyLinks st st' ∧
      (succ = true ↔ Acyclic (graph P st st.keyCnt)) ∧
      (succ = true → Tested P st' st'.keyCnt) := by
  induction m generalizing st n with
  | zero =>
    rw [Nat.add_zero] at hm
    subst hm
    exact ⟨true, st, rfl, h.toShape, ⟨SameTables.refl st, ⟨rfl, rfl, rfl⟩, ⟨rfl, rfl⟩, rfl, rfl,
      rfl⟩, iff_of_true rfl h.linking.acyclic, fun _ => h⟩
  | succ m ih =>
    have hn : n < st.keys.length := by
      have := h.keyCnt
      omega
    obtain ⟨same, forest, hsame, hlen, hcycle, hadd⟩ := h.step hn
    have hidx : getIndices P st (keyAt st n) = ((ends P st n).1, (ends P st n).2) := rfl
    cases same
    case true =>
      refine ⟨false, { st with connectivityForest := forest }, ?_, h.toShape.withForest hlen,
        ⟨⟨rfl, rfl, rfl, rfl⟩, ⟨rfl, rfl, rfl⟩, ⟨rfl, rfl⟩, rfl, rfl, rfl⟩,
        iff_of_false (by simp) fun hA => ?_, by simp⟩
      · simp only [ControlPlaneOthello.testHashFrom, hidx, hsame, if_true]
      · have hA' : Acyclic (graph P st (n + 1)) := hA.mono (graph_le (by omega))
        exact Acyclic.next_not_linked hA' (hcycle rfl)
    case false =>
      obtain ⟨st₁, hst₁, htest, honly⟩ := hadd rfl
      obtain ⟨succ, st', hrun, hsh', honly', hiff, hsucc⟩ :=
        ih htest (by rw [honly.map.keyCnt]; omega)
      rw [graph_same honly.tables honly.map, honly.map.keyCnt] at hiff
      refine ⟨succ, st', ?_, hsh', honly.trans honly', hiff, hsucc⟩
      simp only [ControlPlaneOthello.testHashFrom, hidx, hsame, Bool.false_eq_true, if_false, hst₁,
        ok_bind, hrun]

structure Answers (P : Setup K) (st : Othello K) (e u v : ℕ) : Prop where
  index : indAt st u ^^^ indAt st v = e
  label : st.maintainingDP = true →
    (memAt P st u ^^^ memAt P st v) &&& shown P st e = cellLabel P st e
  taken : st.maintainingDP = true → P.DL ≠ 0 → (memAt P st u).getLsbD 0 = true
  exact : st.maintainingDP = true → P.DL ≠ 0 → ∀ b, b ≠ 0 → b < P.VDL →
    (memAt P st u ^^^ memAt P st v).getLsbD b = (filledLabel P st e).getLsbD b

/-- Only `mem` and `indMem` changed. -/
def OnlyFilled (st st' : Othello K) : Prop :=
  st' = { st with mem := st'.mem, indMem := st'.indMem }

omit [Inhabited K] in
theorem OnlyFilled.trans {st' st'' : Othello K} (h : OnlyFilled st st') (h' : OnlyFilled st' st'') :
    OnlyFilled st st'' := by
  rw [h] at h'
  exact h'

section Tree

variable {D : List (Visit ℕ ℕ)} {root : ℕ}

theorem fill_indices (hsh : Shape P st) (hroot : root < nodes st)
    (hS : Spans (graph P st n) none root D) {ind : List ℕ}
    (hind : ind = D.foldl (fun l t => l.set t.child (t.edge ^^^ l.getD t.parent 0)) st.indMem) :
    ind.length = nodes st ∧
    (∀ e u v, graph P st n e u v → Linked (graph P st n) root u →
      ind.getD u 0 ^^^ ind.getD v 0 = e) ∧
    ∀ v, v < nodes st → ¬ Linked (graph P st n) root v → ind.getD v 0 = indAt st v := by
  obtain ⟨hok, hfill, hrest⟩ := (indStore (nodes st)).fill hS.grows hroot
    (fun t ht => hsh.child_lt hS ht) hsh.indMem fun t a => t.edge ^^^ a
  rw [← hind] at hok hfill hrest
  refine ⟨hok, fun e u v he hu =>
    labelled_of_filled id (fun v => ind.getD v 0) involutive_nat hS hfill he hu,
    fun v hv hnl => hrest v hv fun hmem => ?_⟩
  exact hnl ((hS.mem_iff.mp (List.mem_cons_of_mem _ hmem)).mono fun _ _ _ h => h.1)

theorem fill_cells (hsh : Shape P st) (hroot : root < nodes st)
    (hS : Spans (graph P st n) none root D) {mem mem' : List (BitVec 64)}
    (hz : Sized P.toConfig mem (nodes st))
    (hmark : P.DL ≠ 0 → (memGet P.toConfig mem root).getLsbD 0 = true)
    (hmem' : mem' = D.foldl (fun m t => memSet P.toConfig m t.child
      (fillWord P st t.edge (memGet P.toConfig m t.parent))) mem) :
    Sized P.toConfig mem' (nodes st) ∧
    (∀ e u v, graph P st n e u v → Linked (graph P st n) root u →
      (memGet P.toConfig mem' u ^^^ memGet P.toConfig mem' v) &&& shown P st e = cellLabel P st e ∧
      (P.DL ≠ 0 → (memGet P.toConfig mem' u).getLsbD 0 = true) ∧
      (P.DL ≠ 0 → ∀ b, b ≠ 0 → b < P.VDL →
        (memGet P.toConfig mem' u ^^^ memGet P.toConfig mem' v).getLsbD b =
          (filledLabel P st e).getLsbD b)) ∧
    ∀ v, v < nodes st → ¬ Linked (graph P st n) root v →
      memGet P.toConfig mem' v = memGet P.toConfig mem v := by
  obtain ⟨hok, hfill, hrest⟩ := (memStore P (nodes st)).fill hS.grows hroot
    (fun t ht => hsh.child_lt hS ht) hz fun t a => fillWord P st t.edge a
  rw [← hmem'] at hok hfill hrest
  have htaken : P.DL ≠ 0 → ∀ u ∈ root :: D.map Visit.child,
      (memGet P.toConfig mem' u).getLsbD 0 = true := by
    intro hD u hu
    rcases List.mem_cons.mp hu with rfl | hu
    · rw [hrest u hroot (List.nodup_cons.mp hS.grows.nodup).1]
      exact hmark hD
    · obtain ⟨t, ht, rfl⟩ := List.mem_map.mp hu
      rw [hfill t ht, BitVec.getLsbD_and, getLsbD_vdemask, decide_eq_true (vdl_pos hD),
        fillWord_taken P st _ _ hD]
      rfl
  have hedge : ∀ t ∈ D, (memGet P.toConfig mem' t.child ^^^ memGet P.toConfig mem' t.parent) &&&
      shown P st t.edge = cellLabel P st t.edge := by
    intro t ht
    rw [hfill t ht, and_xor_shown, masked_shown, ← and_xor_shown]
    exact fillWord_label P st t.edge fun hD => htaken hD _ (hS.grows.parent_mem ht)
  have hexact : ∀ t ∈ D, P.DL ≠ 0 → ∀ b, b ≠ 0 → b < P.VDL →
      (memGet P.toConfig mem' t.child ^^^ memGet P.toConfig mem' t.parent).getLsbD b =
        (filledLabel P st t.edge).getLsbD b := by
    intro t ht hD b hb hlt
    have h64 : b < 64 := by
      have := P.vdl_le_sixty
      omega
    rw [BitVec.getLsbD_xor, hfill t ht, BitVec.getLsbD_and, getLsbD_vdemask, decide_eq_true hlt,
      decide_eq_true h64, Bool.and_true, Bool.and_true, ← BitVec.getLsbD_xor]
    exact fillWord_exact P st t.edge _ hD hb
  refine ⟨hok, fun e u v he hu => ?_, fun v hv hnl => hrest v hv fun hmem => ?_⟩
  · have hlinked : Linked (avoid (graph P st n) none) root u :=
      hu.mono fun _ _ _ h => ⟨h, by simp⟩
    have hin := hS.mem_iff.mpr hlinked
    obtain ⟨t, ht, rfl, ⟨rfl, rfl⟩ | ⟨rfl, rfl⟩⟩ := hS.closed u hin e v ⟨he, by simp⟩
    · rw [BitVec.xor_comm]
      exact ⟨hedge t ht, fun hD => htaken hD _ hin, hexact t ht⟩
    · exact ⟨hedge t ht, fun hD => htaken hD _ hin, hexact t ht⟩
  · exact hnl ((hS.mem_iff.mp (List.mem_cons_of_mem _ hmem)).mono fun _ _ _ h => h.1)

theorem foldl_fillMem {keepDigest : Bool} (hkd : keepDigest = true → P.DL = 0)
    (hm : st.maintainingDP = true) (D : List (Visit ℕ ℕ)) (mem : List (BitVec 64)) :
    D.foldl (fun m t => fillMem P st true keepDigest m t.edge t.child t.parent) mem =
      D.foldl (fun m t => memSet P.toConfig m t.child
        (fillWord P st t.edge (memGet P.toConfig m t.parent))) mem := by
  have hstep : ∀ m e v u, fillMem P st true keepDigest m e v u =
      memSet P.toConfig m v (fillWord P st e (memGet P.toConfig m u)) := by
    intro m e v u
    rw [fillMem, hm]
    cases keepDigest
    · rfl
    · simp only [memValueGet_eq (hkd rfl), memValueSet_eq (hkd rfl), fillWord, hkd rfl]
      rfl
  simp only [hstep]

def marked (P : Setup K) (st : Othello K) (i : ℕ) : Othello K :=
  if P.DL ≠ 0 ∧ st.maintainingDP = true then { st with mem := memSet P.toConfig st.mem i 1 }
  else st

/-- `fillTreeDFS` from a root in array A: the edges of its tree answer, the other nodes keep what
they had. -/
theorem fillTree_spec (hsh : Shape P st) (hl : Linking P st n) (hz : MemFits P st)
    (hA : root < st.ma) {keepDigest : Bool} (hkd : keepDigest = true → P.DL = 0) :
    ∃ st', fillTreeDFS P true true keepDigest (marked P st root) root = .ok st' ∧
      OnlyFilled st st' ∧ Shape P st' ∧ MemFits P st' ∧
      (∀ e u v, graph P st n e u v → Linked (graph P st n) root u → Answers P st' e u v) ∧
      ∀ v, v < nodes st → ¬ Linked (graph P st n) root v → indAt st' v = indAt st v ∧
        (st.maintainingDP = true → memAt P st' v = memAt P st v) := by
  have hroot : root < nodes st := hA.trans_le (Nat.le_add_right _ _)
  generalize hmem : (if P.DL ≠ 0 ∧ st.maintainingDP = true then
    memSet P.toConfig st.mem root 1 else st.mem) = mem
  have hmarked : marked P st root = { st with mem := mem } := by
    rw [marked, ← hmem]
    split <;> rfl
  obtain ⟨D, hD, hS⟩ := hl.traversal hsh none hroot (by simp)
    (fun st t => fillSingle P true true keepDigest st t.edge t.child t.parent)
    { st with mem := mem }
  rw [foldl_fill_parts] at hD
  obtain ⟨hlen, hindEdges, hindRest⟩ := fill_indices hsh hroot hS rfl
  generalize hind : D.foldl (fun l t => l.set t.child (t.edge ^^^ l.getD t.parent 0)) st.indMem =
    ind at hlen hindEdges hindRest
  generalize hcells : D.foldl (fun m t =>
    fillMem P st true keepDigest m t.edge t.child t.parent) mem = mem'
  have hrun : fillTreeDFS P true true keepDigest (marked P st root) root =
      .ok { st with mem := mem', indMem := ind } := by
    rw [hmarked, fillTreeDFS, if_pos hA, ← hcells, ← hind]
    exact hD
  refine ⟨_, hrun, rfl,
    { ma_pos := hsh.ma_pos, mb_pos := hsh.mb_pos, indMem := hlen, head := hsh.head
      forest := hsh.forest, values := hsh.values, nextAtA := hsh.nextAtA
      nextAtB := hsh.nextAtB, keyCnt := hsh.keyCnt }, ?_⟩
  by_cases hm : st.maintainingDP = true
  case neg =>
    exact ⟨fun hc => absurd hc hm,
      fun e u v he hu => ⟨hindEdges e u v he hu, fun hc => absurd hc hm, fun hc => absurd hc hm,
        fun hc => absurd hc hm⟩,
      fun v hv hnl => ⟨hindRest v hv hnl, fun hc => absurd hc hm⟩⟩
  case pos =>
    have hzm : Sized P.toConfig mem (nodes st) := by
      rw [← hmem]
      split
      · exact sized_memSet (hz hm) root 1
      · exact hz hm
    have hmark : P.DL ≠ 0 → (memGet P.toConfig mem root).getLsbD 0 = true := fun hD => by
      rw [← hmem, if_pos ⟨hD, hm⟩, memGet_memSet_same (hz hm) hroot, BitVec.getLsbD_and,
        getLsbD_vdemask, decide_eq_true (vdl_pos hD)]
      rfl
    have hkeep : ∀ v, v < nodes st → v ≠ root →
        memGet P.toConfig mem v = memGet P.toConfig st.mem v := fun v hv hne => by
      rw [← hmem]
      split
      · exact memGet_memSet_other (hz hm) hroot hv hne 1
      · rfl
    rw [foldl_fillMem hkd hm] at hcells
    obtain ⟨hok, hedges, hrest⟩ := fill_cells hsh hroot hS hzm hmark hcells.symm
    refine ⟨fun _ => hok, fun e u v he hu => ⟨hindEdges e u v he hu,
      fun _ => (hedges e u v he hu).1, fun _ => (hedges e u v he hu).2.1,
      fun _ => (hedges e u v he hu).2.2⟩,
      fun v hv hnl => ⟨hindRest v hv hnl, fun _ => ?_⟩⟩
    refine (hrest v hv hnl).trans (hkeep v hv ?_)
    rintro rfl
    exact hnl (Linked.refl v)

end Tree

theorem Answers.kept {st' : Othello K} {e u v : ℕ} (h : Answers P st e u v)
    (honly : OnlyFilled st st')
    (hu : indAt st' u = indAt st u ∧ (st.maintainingDP = true → memAt P st' u = memAt P st u))
    (hv : indAt st' v = indAt st v ∧ (st.maintainingDP = true → memAt P st' v = memAt P st v)) :
    Answers P st' e u v := by
  have hmaint : st'.maintainingDP = st.maintainingDP := by rw [honly]
  have hlabel : cellLabel P st' e = cellLabel P st e ∧ shown P st' e = shown P st e ∧
      filledLabel P st' e = filledLabel P st e := by
    rw [honly]
    exact ⟨rfl, rfl, rfl⟩
  refine ⟨?_, fun hm => ?_, fun hm hD => ?_, fun hm hD => ?_⟩
  · rw [hu.1, hv.1]
    exact h.index
  all_goals rw [hmaint] at hm
  · rw [hu.2 hm, hv.2 hm, hlabel.1, hlabel.2.1]
    exact h.label hm
  · rw [hu.2 hm]
    exact h.taken hm hD
  · rw [hu.2 hm, hv.2 hm, hlabel.2.2]
    exact h.exact hm hD

theorem fillValueFrom_spec {keepDigest : Bool} (hkd : keepDigest = true → P.DL = 0) {i m : ℕ}
    (hsh : Shape P st) (hl : Linking P st n) (hz : MemFits P st)
    (hroots : ∀ j, i ≤ j → j < i + m → DisjointSet.isRoot st.connectivityForest j = true →
      j < st.ma) :
    ∃ st', fillValueFrom P keepDigest st i m = .ok st' ∧ OnlyFilled st st' ∧ Shape P st' ∧
      MemFits P st' ∧
      (∀ e u v r, graph P st n e u v → i ≤ r → r < i + m →
        DisjointSet.isRoot st.connectivityForest r = true → Linked (graph P st n) r u →
        Answers P st' e u v) ∧
      ∀ v, v < nodes st → (∀ r, i ≤ r → r < i + m →
          DisjointSet.isRoot st.connectivityForest r = true → ¬ Linked (graph P st n) r v) →
        indAt st' v = indAt st v ∧ (st.maintainingDP = true → memAt P st' v = memAt P st v) := by
  induction m generalizing st i with
  | zero => exact ⟨st, rfl, rfl, hsh, hz, fun e u v r _ h1 h2 => by omega, fun v _ _ => ⟨rfl,
      fun _ => rfl⟩⟩
  | succ m ih =>
    have hU := undirected_graph P st n
    cases hroot : DisjointSet.isRoot st.connectivityForest i
    case false =>
      obtain ⟨st', hrun, honly, hsh', hz', hedges, hrest⟩ := ih (i := i + 1) hsh hl hz
        fun j h1 h2 => hroots j (by omega) (by omega)
      have hlater : ∀ {r}, i ≤ r → DisjointSet.isRoot st.connectivityForest r = true →
          i + 1 ≤ r := by
        intro r hir hr
        rcases Nat.lt_or_eq_of_le hir with hlt | rfl
        · exact hlt
        · rw [hroot] at hr
          cases hr
      refine ⟨st', ?_, honly, hsh', hz',
        fun e u v r hg h1 h2 hr => hedges e u v r hg (hlater h1 hr) (by omega) hr,
        fun v hv hnone => hrest v hv fun r h1 h2 => hnone r (by omega) (by omega)⟩
      simp only [ControlPlaneOthello.fillValueFrom, hroot, Bool.false_eq_true, if_false, hrun]
    case true =>
      obtain ⟨st₁, hfill, honly₁, hsh₁, hz₁, hedges₁, hrest₁⟩ :=
        fillTree_spec hsh hl hz (hroots i (Nat.le_refl i) (by omega) hroot) hkd
      have hfields : st₁.ma = st.ma ∧ st₁.mb = st.mb ∧
          st₁.connectivityForest = st.connectivityForest ∧ graph P st₁ n = graph P st n ∧
          st₁.maintainingDP = st.maintainingDP := by
        rw [honly₁]
        exact ⟨rfl, rfl, rfl, rfl, rfl⟩
      obtain ⟨hma, hmb, hforest, hgraph, hmaint⟩ := hfields
      have hnodes : nodes st₁ = nodes st := by rw [nodes, nodes, hma, hmb]
      have hl₁ : Linking P st₁ n := by
        rw [honly₁]
        exact ⟨hl.n_le, hl.listsA, hl.listsB, hl.acyclic⟩
      obtain ⟨st', hrun, honly, hsh', hz', hedges, hrest⟩ := ih (i := i + 1) hsh₁ hl₁ hz₁
        fun j h1 h2 => by
        rw [hforest, hma]
        exact hroots j (by omega) (by omega)
      rw [hgraph, hforest] at hedges hrest
      rw [hnodes, hmaint] at hrest
      refine ⟨st', ?_, ?_, hsh', hz', fun e u v r hg h1 h2 hr hru => ?_,
        fun v hv hnone => ?_⟩
      · have hm : (if P.DL ≠ 0 ∧ st.maintainingDP = true then
            { st with mem := memSet P.toConfig st.mem i 1 } else st) = marked P st i := rfl
        simp only [ControlPlaneOthello.fillValueFrom, hroot, if_true, hm, hfill, ok_bind, hrun]
      · exact honly₁.trans honly
      · by_cases hlate : ∃ r, i + 1 ≤ r ∧ r < i + 1 + m ∧
            DisjointSet.isRoot st.connectivityForest r = true ∧ Linked (graph P st n) r u
        · obtain ⟨r, h1, h2, hr, hru⟩ := hlate
          exact hedges e u v r hg h1 h2 hr hru
        · -- no later root fills this tree again
          have hri : r = i := by
            by_contra hne
            exact hlate ⟨r, by omega, by omega, hr, hru⟩
          subst hri
          have huv : Linked (graph P st n) u v := Linked.edge hg
          obtain ⟨hun, hvn⟩ := hsh.graph_lt hg
          obtain ⟨hiu, hmu⟩ := hrest u hun fun r' h1 h2 hr' hl' => hlate ⟨r', h1, h2, hr', hl'⟩
          obtain ⟨hiv, hmv⟩ := hrest v hvn fun r' h1 h2 hr' hl' =>
            hlate ⟨r', h1, h2, hr', hl'.trans (huv.symm hU)⟩
          rw [← hmaint] at hmu hmv
          exact (hedges₁ e u v hg hru).kept honly ⟨hiu, hmu⟩ ⟨hiv, hmv⟩
      · obtain ⟨hi₁, hm₁⟩ := hrest₁ v hv (hnone i (Nat.le_refl i) (by omega) hroot)
        obtain ⟨hi₂, hm₂⟩ := hrest v hv fun r h1 h2 => hnone r (by omega) (by omega)
        exact ⟨hi₂.trans hi₁, fun hm => (hm₂ hm).trans (hm₁ hm)⟩

theorem Tested.fillValue_spec (h : Tested P st st.keyCnt) (keepDigest : Bool)
    (hkd : keepDigest = true → P.DL = 0) (hz : MemFits P st) :
    ∃ st', fillValue P keepDigest st = .ok st' ∧ OnlyFilled st st' ∧ Shape P st' ∧
      MemFits P st' ∧ ∀ e u v, graph P st st.keyCnt e u v → Answers P st' e u v := by
  obtain ⟨st', hrun, honly, hsh, hz', hedges, -⟩ := fillValueFrom_spec (i := 0) (m := nodes st) hkd
    h.toShape h.linking hz fun j _ _ hj => h.roots.isRoot hj
  refine ⟨st', hrun, honly, hsh, hz', fun e u v hg => ?_⟩
  have hu := (h.graph_lt hg).1
  have huF : u < st.connectivityForest.length := h.forest.symm ▸ hu
  obtain ⟨r, hr⟩ := h.components.valid.rep u huF
  have hrn : r < nodes st := h.forest ▸ h.components.valid.rep_lt huF hr
  have hlinked : Linked (graph P st st.keyCnt) r u :=
    (h.components.same r u hrn hu).mp ⟨r, Rep.self hr.isRoot, hr⟩
  exact hedges e u v r hg (Nat.zero_le r) (by rwa [Nat.zero_add])
    (h.roots.isRoot_of_rep ⟨e, v, hg⟩ hr) hlinked

theorem sized_foldl_memSet {c : Config} {N : ℕ} (l : List ℕ) {mem : List (BitVec 64)}
    (h : Sized c mem N) : Sized c (l.foldl (fun mem i => memSet c mem i 0) mem) N := by
  induction l generalizing mem with
  | nil => exact h
  | cons i l ih => exact ih (sized_memSet h i 0)

omit [Inhabited K] in
theorem Shape.reset (h : Shape P st) : Shape P (resetBuildState P st) where
  ma_pos := h.ma_pos
  mb_pos := h.mb_pos
  indMem := h.indMem
  head := (List.length_map ..).trans h.head
  forest := (DisjointSet.length_reset _).trans h.forest
  values := h.values
  nextAtA := (List.length_map ..).trans h.nextAtA
  nextAtB := (List.length_map ..).trans h.nextAtB
  keyCnt := h.keyCnt

omit [Inhabited K] in
theorem MemFits.reset (h : MemFits P st) : MemFits P (resetBuildState P st) := by
  intro hm
  have hm' : st.maintainingDP = true := hm
  simp only [resetBuildState, hm', if_true]
  exact sized_foldl_memSet _ (h hm')

theorem Shape.tested_reset (h : Shape P st) : Tested P (resetBuildState P st) 0 := by
  have hG : ∀ e u v, ¬ graph P (resetBuildState P st) 0 e u v := fun e u v hg =>
    absurd hg.1 (Nat.not_lt_zero e)
  have hhead : ∀ v, (resetBuildState P st).head.getD v none = none := by
    intro v
    simp only [resetBuildState, List.getD_eq_getElem?_getD, List.getElem?_map]
    cases st.head[v]? <;> rfl
  have hlists : ∀ next side, SideLists (resetBuildState P st).head next side
      (graph P (resetBuildState P st) 0) := by
    intro next side v _
    refine ⟨[], ?_, List.nodup_nil, fun e w => ⟨by simp, fun hg => absurd hg (hG e v w)⟩⟩
    rw [hhead]
    exact .nil
  exact { h.reset with
    linking := ⟨Nat.zero_le _, hlists _ _, hlists _ _, acyclic_of_empty hG⟩
    components := components_reset hG h.forest
    roots := rootsIn_reset _ hG }

structure Built (P : Setup K) (st : Othello K) : Prop extends Tested P st st.keyCnt where
  answers : ∀ e u v, graph P st st.keyCnt e u v → Answers P st e u v

theorem Built.consistent (h : Built P st) (hz : MemFits P st)
    (hm : st.maintainingDP = P.maintainDP) : Consistent P st st.keyCnt where
  toIndexed := { h.toShape with
    linking := h.linking, indices := fun e u v hg => (h.answers e u v hg).index }
  cells :=
    { maintaining := hm, sized := fun hDP => hz (hm.trans hDP)
      labels := fun hDP e u v hg => (h.answers e u v hg).label (hm.trans hDP)
      taken := fun hDP hD e u v hg => (h.answers e u v hg).taken (hm.trans hDP) hD }
  valid := h.components.valid
  components _ := h.components

structure Rebuilt (st st' : Othello K) : Prop where
  ma : st'.ma = st.ma
  mb : st'.mb = st.mb
  hd : st'.hd = st.hd
  map : SameMap st st'
  settings : SameSettings st st'

omit [Inhabited K] in
theorem Rebuilt.refl (st : Othello K) : Rebuilt st st :=
  ⟨rfl, rfl, rfl, ⟨rfl, rfl, rfl⟩, ⟨rfl, rfl⟩⟩

omit [Inhabited K] in
theorem Rebuilt.trans {st' st'' : Othello K} (h : Rebuilt st st') (h' : Rebuilt st' st'') :
    Rebuilt st st'' :=
  ⟨h'.ma.trans h.ma, h'.mb.trans h.mb, h'.hd.trans h.hd, h.map.trans h'.map,
    h.settings.trans h'.settings⟩

/-- `tryBuild` succeeds exactly on forests, and then every key answers. -/
theorem Shape.tryBuild_spec (h : Shape P st) (hz : MemFits P st) :
    ∃ built st', tryBuild P st = .ok (built, st') ∧ Shape P st' ∧ MemFits P st' ∧
      Rebuilt st st' ∧ st'.hab = st.hab ∧ st'.draws = st.draws ∧
      (built = true ↔ Acyclic (graph P st st.keyCnt)) ∧ (built = true → Built P st') ∧
      (built = false → st'.indMem = st.indMem) := by
  have hreset := h.tested_reset
  have hkeep : Rebuilt st (resetBuildState P st) :=
    ⟨rfl, rfl, rfl, ⟨rfl, rfl, rfl⟩, ⟨rfl, rfl⟩⟩
  have hgraph : graph P (resetBuildState P st) = graph P st := rfl
  by_cases h0 : st.keyCnt = 0
  · have h0' : (resetBuildState P st).keyCnt = 0 := h0
    refine ⟨true, resetBuildState P st, ?_, h.reset, hz.reset, hkeep, rfl, rfl,
      iff_of_true rfl ?_, fun _ => ?_, fun _ => rfl⟩
    · simp only [tryBuild, h0', if_true]
      rfl
    · rw [h0]
      exact hreset.linking.acyclic
    · rw [← h0'] at hreset
      exact ⟨hreset, fun e u v hg => absurd hg.1 (by rw [h0']; exact Nat.not_lt_zero e)⟩
  · have h0' : (resetBuildState P st).keyCnt ≠ 0 := h0
    obtain ⟨succ, st₁, htest, hsh₁, honly, hiff, hsucc⟩ :=
      hreset.testHashFrom (m := (resetBuildState P st).keyCnt) (Nat.zero_add _)
    have hkeep₁ : Rebuilt st st₁ := hkeep.trans
      ⟨honly.tables.ma, honly.tables.mb, honly.tables.hd, honly.map, honly.settings⟩
    have hz₁ : MemFits P st₁ := fun hm => by
      rw [honly.mem, nodes_same honly.tables]
      exact hz.reset (honly.settings.maintainingDP.symm.trans hm)
    cases succ
    case false =>
      refine ⟨false, st₁, ?_, hsh₁, hz₁, hkeep₁, honly.tables.hab, honly.draws, hiff, by simp,
        fun _ => honly.indMem⟩
      simp only [tryBuild, h0', if_false, testHash, htest, ok_bind, Bool.false_eq_true]
      rfl
    case true =>
      have htested := hsucc rfl
      obtain ⟨st₂, hfill, hfilled, hsh₂, hz₂, hans⟩ :=
        htested.fillValue_spec false (by simp) hz₁
      have hsame : Rebuilt st₁ st₂ ∧ st₂.hab = st₁.hab ∧ st₂.draws = st₁.draws ∧
          (Shape P st₂ → Tested P st₂ st₂.keyCnt) ∧ graph P st₂ st₂.keyCnt =
            graph P st₁ st₁.keyCnt := by
        rw [hfilled]
        refine ⟨⟨rfl, rfl, rfl, ⟨rfl, rfl, rfl⟩, ⟨rfl, rfl⟩⟩, rfl, rfl, fun hsh => ?_, rfl⟩
        exact { hsh with
          linking := ⟨htested.linking.n_le, htested.linking.listsA, htested.linking.listsB,
            htested.linking.acyclic⟩
          components := htested.components, roots := htested.roots }
      obtain ⟨hkeep₂, hhab, hdraws, htested₂, hgraph₂⟩ := hsame
      refine ⟨true, st₂, ?_, hsh₂, hz₂, hkeep₁.trans hkeep₂, hhab.trans honly.tables.hab,
        hdraws.trans honly.draws, hiff, fun _ => ⟨htested₂ hsh₂, fun e u v hg => ?_⟩, by simp⟩
      · simp only [tryBuild, h0', if_false, testHash, htest, ok_bind, if_true, hfill]
        rfl
      · rw [hgraph₂] at hg
        exact hans e u v hg

def seeded (P : Setup K) (st : Othello K) (hab : BitVec 64) : ℕ → ℕ → ℕ → Prop :=
  graph P { st with hab := hab } st.keyCnt

theorem Rebuilt.seeded {st' : Othello K} (h : Rebuilt st st') (hab : BitVec 64) :
    seeded P st' hab = OthelloInvariant.seeded P st hab := by
  have ht : SameTables { st with hab := hab } { st' with hab := hab } := ⟨h.ma, h.mb, rfl, h.hd⟩
  have hm : SameMap { st with hab := hab } { st' with hab := hab } :=
    ⟨h.map.keyCnt, h.map.keys, h.map.values⟩
  rw [OthelloInvariant.seeded, OthelloInvariant.seeded, h.map.keyCnt]
  exact graph_same ht hm _

/-- What is left when every seed of a build fails: the old indices, over a graph with a cycle. -/
structure GaveUp (P : Setup K) (st st' : Othello K) : Prop where
  indMem : st'.indMem = st.indMem
  cyclic : ¬ Acyclic (graph P st' st'.keyCnt)

/-- `build` stops at the first seed whose graph is a forest, or gives up. -/
theorem Shape.buildFrom_spec (h : Shape P st) (hz : MemFits P st) (tries : ℕ) :
    ∃ built st', buildFrom P st tries = .ok (built, st') ∧ Shape P st' ∧ MemFits P st' ∧
      Rebuilt st st' ∧
      (built = true ↔ ∃ i < tries, Acyclic (seeded P st (P.rand (st.draws + i)))) ∧
      (built = true → Built P st') ∧
      (built = false → st'.indMem = st.indMem ∧
        (0 < tries → ¬ Acyclic (graph P st' st'.keyCnt))) := by
  induction tries generalizing st with
  | zero => exact ⟨false, st, rfl, h, hz, Rebuilt.refl st,
      iff_of_false (by simp) fun ⟨i, hi, _⟩ => absurd hi (Nat.not_lt_zero i), by simp,
      fun _ => ⟨rfl, fun hpos => absurd hpos (Nat.lt_irrefl 0)⟩⟩
  | succ tries ih =>
    generalize hst₀ : ({ st with hab := P.rand st.draws, draws := st.draws + 1 } : Othello K) = st₀
    have hsh₀ : Shape P st₀ := by
      rw [← hst₀]
      exact { ma_pos := h.ma_pos, mb_pos := h.mb_pos, indMem := h.indMem, head := h.head,
              forest := h.forest, values := h.values, nextAtA := h.nextAtA,
              nextAtB := h.nextAtB, keyCnt := h.keyCnt }
    have hz₀ : MemFits P st₀ := by
      rw [← hst₀]
      exact hz
    have hkeep₀ : Rebuilt st st₀ := by
      rw [← hst₀]
      exact ⟨rfl, rfl, rfl, ⟨rfl, rfl, rfl⟩, ⟨rfl, rfl⟩⟩
    have hdraws₀ : st₀.draws = st.draws + 1 := by rw [← hst₀]
    have hgraph₀ : graph P st₀ st₀.keyCnt = seeded P st (P.rand (st.draws + 0)) := by
      rw [← hst₀]
      rfl
    have hind₀ : st₀.indMem = st.indMem := by rw [← hst₀]
    obtain ⟨built, st₁, hrun, hsh₁, hz₁, hkeep₁, hhab₁, hdraws₁, hiff, hbuilt, hind₁⟩ :=
      hsh₀.tryBuild_spec hz₀
    have hgraph₁ : graph P st₁ st₁.keyCnt = graph P st₀ st₀.keyCnt := by
      rw [hkeep₁.map.keyCnt]
      exact graph_same ⟨hkeep₁.ma, hkeep₁.mb, hhab₁, hkeep₁.hd⟩ hkeep₁.map _
    rw [← hgraph₁] at hiff
    rw [← hgraph₁] at hgraph₀
    cases built
    case true =>
      refine ⟨true, st₁, ?_, hsh₁, hz₁, hkeep₀.trans hkeep₁,
        iff_of_true rfl ⟨0, Nat.succ_pos _, hgraph₀ ▸ hiff.mp rfl⟩, hbuilt, by simp⟩
      simp only [buildFrom, hst₀, hrun, ok_bind, if_true]
      rfl
    case false =>
      obtain ⟨built, st₂, hrest, hsh₂, hz₂, hkeep₂, hiff₂, hbuilt₂, hgave⟩ := ih hsh₁ hz₁
      refine ⟨built, st₂, ?_, hsh₂, hz₂, (hkeep₀.trans hkeep₁).trans hkeep₂, hiff₂.trans ?_,
        hbuilt₂, fun hb => ⟨(hgave hb).1.trans ((hind₁ rfl).trans hind₀), fun _ => ?_⟩⟩
      · simp only [buildFrom, hst₀, hrun, ok_bind, Bool.false_eq_true, if_false, hrest]
      · simp only [(hkeep₀.trans hkeep₁).seeded, hdraws₁, hdraws₀]
        constructor
        · rintro ⟨i, hi, hA⟩
          refine ⟨i + 1, Nat.succ_lt_succ hi, ?_⟩
          rw [Nat.add_comm i 1, ← Nat.add_assoc]
          exact hA
        · rintro ⟨_ | i, hi, hA⟩
          · exact absurd (hiff.mpr (hgraph₀ ▸ hA)) (by simp)
          · refine ⟨i, Nat.lt_of_succ_lt_succ hi, ?_⟩
            rw [Nat.add_comm i 1, ← Nat.add_assoc] at hA
            exact hA
      · cases tries with
        | succ tries => exact (hgave hb).2 (Nat.succ_pos tries)
        | zero =>
          obtain rfl : st₂ = st₁ := (Prod.mk.inj (Except.ok.inj hrest)).2.symm
          exact fun hA => absurd (hiff.mpr hA) (by simp)

theorem Shape.build_spec (h : Shape P st) (hz : MemFits P st) :
    ∃ built st', build P st = .ok (built, st') ∧ Shape P st' ∧ MemFits P st' ∧
      Rebuilt st st' ∧
      (built = true ↔ ∃ i < MAX_REHASH, Acyclic (seeded P st (P.rand (st.draws + i)))) ∧
      (built = true → Built P st') ∧ (built = false → GaveUp P st st') := by
  obtain ⟨built, st', hrun, hsh, hz', hkeep, hiff, hbuilt, hgave⟩ := h.buildFrom_spec hz MAX_REHASH
  exact ⟨built, st', hrun, hsh, hz', hkeep, hiff, hbuilt,
    fun hb => ⟨(hgave hb).1, (hgave hb).2 (by decide)⟩⟩

end OthelloInvariant
