import TinyCR.OthelloCopies
import TinyCR.OthelloInvariant

/-! # The lists and indices of the Othello

Whatever the template arguments are, the lists hold a forest of key edges, and the index
cells of the two ends of a key xor to its index. Nothing here asks what `mem` holds. -/
namespace OthelloInvariant

open PackedCells EdgeForest EdgeLabels NodeLists ComponentSets ControlPlaneOthello

variable {K : Type} {P : Setup K} {st : Othello K} {n keyId : ℕ}

/-- The tables and seeds, which only a rebuild changes. -/
structure SameTables (st st' : Othello K) : Prop where
  ma : st'.ma = st.ma
  mb : st'.mb = st.mb
  hab : st'.hab = st.hab
  hd : st'.hd = st.hd

structure SameMap (st st' : Othello K) : Prop where
  keyCnt : st'.keyCnt = st.keyCnt
  keys : st'.keys = st.keys
  values : st'.values = st.values

structure SameSettings (st st' : Othello K) : Prop where
  maintainingDP : st'.maintainingDP = st.maintainingDP
  minimalKeyCapacity : st'.minimalKeyCapacity = st.minimalKeyCapacity

theorem SameSettings.trans {st st' st'' : Othello K} (h : SameSettings st st')
    (h' : SameSettings st' st'') : SameSettings st st'' :=
  ⟨h'.maintainingDP.trans h.maintainingDP, h'.minimalKeyCapacity.trans h.minimalKeyCapacity⟩

theorem SameTables.refl (st : Othello K) : SameTables st st := ⟨rfl, rfl, rfl, rfl⟩

theorem SameTables.trans {st st' st'' : Othello K} (h : SameTables st st')
    (h' : SameTables st' st'') : SameTables st st'' :=
  ⟨h'.ma.trans h.ma, h'.mb.trans h.mb, h'.hab.trans h.hab, h'.hd.trans h.hd⟩

theorem SameMap.trans {st st' st'' : Othello K} (h : SameMap st st') (h' : SameMap st' st'') :
    SameMap st st'' :=
  ⟨h'.keyCnt.trans h.keyCnt, h'.keys.trans h.keys, h'.values.trans h.values⟩

theorem SameTables.indices_eq {st st' : Othello K} (h : SameTables st st') (k : K) :
    getIndices P st' k = getIndices P st k := by
  rw [getIndices, getIndices, h.hab, h.ma, h.mb]

theorem nodes_same {st st' : Othello K} (ht : SameTables st st') : nodes st' = nodes st := by
  rw [nodes, nodes, ht.ma, ht.mb]

variable [Inhabited K]

theorem graph_same {st st' : Othello K} (ht : SameTables st st') (hm : SameMap st st') (n : ℕ) :
    graph P st' n = graph P st n := by
  funext e u v
  have hends : ends P st' e = ends P st e := by
    rw [ends, ht.indices_eq, keyAt, hm.keys, ends, keyAt]
  rw [graph, hends, graph]

section Parts

variable (P st) (fillValue fillIndex keepDigest : Bool)

/-- What a node gets from the cell `a` of the other end of edge `e`. -/
def fillWord (e : ℕ) (a : BitVec 64) : BitVec 64 :=
  if P.DL ≠ 0 then
    ((shiftedValue P (st.values.getD e 0) |||
      ((P.hd st.hd (keyAt st e)).setWidth 64 &&& P.DEMASK)) ^^^ a) ||| 1#64
  else valueAt st e ^^^ a

def fillMem (mem : List (BitVec 64)) (e v u : ℕ) : List (BitVec 64) :=
  if fillValue && st.maintainingDP then
    if keepDigest then
      memValueSet P.toConfig mem v (valueAt st e ^^^ memValueGet P.toConfig mem u)
    else memSet P.toConfig mem v (fillWord P st e (memGet P.toConfig mem u))
  else mem

def fixMem (mem : List (BitVec 64)) (v : ℕ) (x : BitVec 64) : List (BitVec 64) :=
  if fillValue && P.maintainDP then
    if keepDigest then memValueSet P.toConfig mem v (x ^^^ memValueGet P.toConfig mem v)
    else memSet P.toConfig mem v (x ^^^ memGet P.toConfig mem v)
  else mem

theorem fillSingle_parts (e v u : ℕ) :
    fillSingle P fillValue fillIndex keepDigest st e v u = { st with
      mem := fillMem P st fillValue keepDigest st.mem e v u
      indMem := if fillIndex then st.indMem.set v (e ^^^ st.indMem.getD u 0) else st.indMem } := by
  rw [fillSingle, fillMem]
  cases fillValue && st.maintainingDP
  case false => cases fillIndex <;> rfl
  case true =>
    cases keepDigest
    case true => cases fillIndex <;> rfl
    case false =>
      by_cases hD : P.DL ≠ 0
      · simp only [fillWord, if_pos hD, Bool.false_eq_true, if_false, if_true]
        cases fillIndex <;> rfl
      · simp only [fillWord, if_neg hD, Bool.false_eq_true, if_false, if_true]
        cases fillIndex <;> rfl

omit [Inhabited K] in
theorem fixSingle_parts (v : ℕ) (x : BitVec 64) (ix : ℕ) :
    fixSingle P fillValue fillIndex keepDigest st v x ix = { st with
      mem := fixMem P fillValue keepDigest st.mem v x
      indMem := if fillIndex then st.indMem.set v (ix ^^^ st.indMem.getD v 0) else st.indMem } := by
  rw [fixSingle, fixMem]
  cases fillValue && P.maintainDP <;> cases keepDigest <;> cases fillIndex <;> rfl

variable {P st}

theorem foldl_fill_parts (D : List (Visit ℕ ℕ)) :
    D.foldl (fun st t => fillSingle P fillValue fillIndex keepDigest st t.edge t.child t.parent)
      st = { st with
        mem := D.foldl (fun m t => fillMem P st fillValue keepDigest m t.edge t.child t.parent)
          st.mem
        indMem := if fillIndex then
            D.foldl (fun l t => l.set t.child (t.edge ^^^ l.getD t.parent 0)) st.indMem
          else st.indMem } := by
  induction D generalizing st with
  | nil => cases fillIndex <;> rfl
  | cons t D ih =>
    rw [List.foldl_cons, fillSingle_parts, ih]
    cases fillIndex <;> rfl

omit [Inhabited K] in
theorem foldl_fix_parts (D : List (Visit ℕ ℕ)) (x : BitVec 64) (ix : ℕ) (flipped : List ℕ) :
    D.foldl (fun (p : Othello K × List ℕ) t =>
        (fixSingle P fillValue fillIndex keepDigest p.1 t.child x ix,
          if x ≠ 0 then p.2 ++ [t.child] else p.2)) (st, flipped) =
      ({ st with
        mem := D.foldl (fun m t => fixMem P fillValue keepDigest m t.child x) st.mem
        indMem := if fillIndex then
            D.foldl (fun l t => l.set t.child (ix ^^^ l.getD t.child 0)) st.indMem
          else st.indMem },
        if x ≠ 0 then flipped ++ D.map Visit.child else flipped) := by
  induction D generalizing st flipped with
  | nil => cases fillIndex <;> simp
  | cons t D ih =>
    rw [List.foldl_cons, fixSingle_parts, ih]
    refine Prod.ext ?_ ?_
    · cases fillIndex <;> rfl
    · by_cases hx : x ≠ 0
      · simp only [if_pos hx, List.map_cons, List.append_assoc, List.cons_append, List.nil_append]
      · simp only [if_neg hx]

end Parts

section Half

variable (P st) (fillValue keepDigest : Bool)

def enterMem (hb : ℕ) : List (BitVec 64) :=
  if fillValue && decide (P.DL ≠ 0) && memGet P.toConfig st.mem hb &&& 1#64 == 0#64 then
    memSet P.toConfig st.mem hb (memGet P.toConfig st.mem hb ||| 1#64)
  else st.mem

/-- The root of the half tree that is fixed, and the other end. -/
def halfEnds (root hb : ℕ) : ℕ × ℕ :=
  if fillValue && decide (P.DL ≠ 0) && memGet P.toConfig st.mem hb &&& 1#64 == 0#64 &&
      memGet P.toConfig st.mem root &&& 1#64 == 1#64 then (hb, root)
  else (root, hb)

def readCell (mem : List (BitVec 64)) (v : ℕ) : BitVec 64 :=
  if keepDigest then memValueGet P.toConfig mem v else memGet P.toConfig mem v

def rootMem (keyId root hb : ℕ) : List (BitVec 64) :=
  fillMem P st fillValue keepDigest (enterMem P st fillValue hb) keyId
    (halfEnds P st fillValue root hb).1 (halfEnds P st fillValue root hb).2

/-- The xor template of the half tree. -/
def halfTemplate (keyId root hb : ℕ) : BitVec 64 :=
  if fillValue then
    readCell P keepDigest (enterMem P st fillValue hb) (halfEnds P st fillValue root hb).1 ^^^
      readCell P keepDigest (rootMem P st fillValue keepDigest keyId root hb)
        (halfEnds P st fillValue root hb).1
  else 0

def halfCells (keyId root hb : ℕ) (D : List (Visit ℕ ℕ)) : List (BitVec 64) :=
  D.foldl (fun m t => fixMem P fillValue keepDigest m t.child
      (halfTemplate P st fillValue keepDigest keyId root hb))
    (rootMem P st fillValue keepDigest keyId root hb)

def halfFlips (keyId root hb : ℕ) (D : List (Visit ℕ ℕ)) : List ℕ :=
  (if memGet P.toConfig (enterMem P st fillValue hb) (halfEnds P st fillValue root hb).1 ≠
      memGet P.toConfig (rootMem P st fillValue keepDigest keyId root hb)
        (halfEnds P st fillValue root hb).1 then [(halfEnds P st fillValue root hb).1] else []) ++
    if halfTemplate P st fillValue keepDigest keyId root hb ≠ 0 then D.map Visit.child else []

variable {P}

def halfInd (st : Othello K) (keyId root hb : ℕ) (D : List (Visit ℕ ℕ)) : List ℕ :=
  let filled := st.indMem.set root (keyId ^^^ st.indMem.getD hb 0)
  D.foldl (fun l t => l.set t.child
    ((st.indMem.getD root 0 ^^^ filled.getD root 0) ^^^ l.getD t.child 0)) filled

variable {st}

omit [Inhabited K] in
theorem swapEnds_parts (root hb : ℕ) : swapEnds P fillValue st root hb =
    ({ st with mem := enterMem P st fillValue hb }, (halfEnds P st fillValue root hb).1,
      (halfEnds P st fillValue root hb).2,
      fillValue && decide (P.DL ≠ 0) && memGet P.toConfig st.mem hb &&& 1#64 == 0#64 &&
        memGet P.toConfig st.mem root &&& 1#64 == 1#64) := by
  rw [swapEnds, enterMem, halfEnds]
  cases fillValue && decide (P.DL ≠ 0) && memGet P.toConfig st.mem hb &&& 1#64 == 0#64
  case false => rfl
  case true =>
    cases hr : memGet P.toConfig st.mem root &&& 1#64 == 1#64 <;> rfl

omit [Inhabited K] in
theorem halfEnds_cases (P : Setup K) (st : Othello K) (fillValue : Bool) (root hb : ℕ) :
    halfEnds P st fillValue root hb = (root, hb) ∨
      halfEnds P st fillValue root hb = (hb, root) := by
  rw [halfEnds]
  split
  · exact Or.inr rfl
  · exact Or.inl rfl

theorem Linking.fixHalfTree_parts (hsh : Shape P st) (h : Linking P st n) (hk : keyId < n)
    (fillIndex : Bool) {root hb : ℕ}
    (hends : halfEnds P st fillValue (ends P st keyId).1 (ends P st keyId).2 = (root, hb)) :
    ∃ D x, graph P st n keyId root hb ∧ Spans (graph P st n) (some keyId) root D ∧
      fixHalfTree P fillValue fillIndex keepDigest st keyId (ends P st keyId).1
          (ends P st keyId).2 =
        .ok (x, { st with
            mem := halfCells P st fillValue keepDigest keyId (ends P st keyId).1
              (ends P st keyId).2 D
            indMem := if fillIndex then halfInd st keyId root hb D else st.indMem },
          halfFlips P st fillValue keepDigest keyId (ends P st keyId).1 (ends P st keyId).2 D) := by
  have hA := (hsh.ends_bounds keyId).1
  have hg : graph P st n keyId root hb := by
    have hab := graph_ends P st hk
    rcases halfEnds_cases P st fillValue (ends P st keyId).1 (ends P st keyId).2
      with he | he
    · obtain ⟨rfl, rfl⟩ := Prod.mk.inj (he.symm.trans hends)
      exact hab
    · obtain ⟨rfl, rfl⟩ := Prod.mk.inj (he.symm.trans hends)
      exact (undirected_graph P st n).symm hab
  generalize hx : halfTemplate P st fillValue keepDigest keyId (ends P st keyId).1
    (ends P st keyId).2 = x
  generalize hix : (if fillIndex then st.indMem.getD root 0 ^^^
    (st.indMem.set root (keyId ^^^ st.indMem.getD hb 0)).getD root 0 else 0) = ix
  generalize hfirst : (if memGet P.toConfig (enterMem P st fillValue (ends P st keyId).2) root ≠
    memGet P.toConfig (rootMem P st fillValue keepDigest keyId (ends P st keyId).1
      (ends P st keyId).2) root then [root] else []) = first
  obtain ⟨D, hD, hS⟩ := h.traversal hsh _ (hsh.graph_lt hg).1
    (fun e he => Or.inl ⟨hb, Option.some.inj he ▸ hg⟩)
    (fun (p : Othello K × List ℕ) t =>
      (fixSingle P fillValue fillIndex keepDigest p.1 t.child x ix,
        if x ≠ 0 then p.2 ++ [t.child] else p.2))
    ({ st with
        mem := rootMem P st fillValue keepDigest keyId (ends P st keyId).1 (ends P st keyId).2
        indMem := if fillIndex then st.indMem.set root (keyId ^^^ st.indMem.getD hb 0)
          else st.indMem }, first)
  rw [foldl_fix_parts] at hD
  generalize hsw : (fillValue && decide (P.DL ≠ 0) &&
    memGet P.toConfig st.mem (ends P st keyId).2 &&& 1#64 == 0#64 &&
    memGet P.toConfig st.mem (ends P st keyId).1 &&& 1#64 == 1#64) = swapped
  have hflips : halfFlips P st fillValue keepDigest keyId (ends P st keyId).1
      (ends P st keyId).2 D = if x ≠ 0 then first ++ D.map Visit.child else first := by
    rw [halfFlips, hends, hfirst, hx]
    split
    · rfl
    · exact List.append_nil _
  refine ⟨D, if swapped then -x else x, hg, hS, ?_⟩
  rw [hflips]
  subst hx hix hfirst
  have hread : ∀ (st : Othello K) v, readNode P keepDigest st v = readCell P keepDigest st.mem v :=
    fun _ _ => rfl
  have htrav : ∀ mem indMem (visit : Othello K × List ℕ → Visit ℕ ℕ → Othello K × List ℕ) s,
      ControlPlaneOthello.traversal { st with mem := mem, indMem := indMem } (some keyId) root visit
        s = ControlPlaneOthello.traversal st (some keyId) root visit s := fun _ _ _ _ => rfl
  have hfill : ∀ mem m, fillMem P { st with mem := mem } fillValue keepDigest m keyId root hb =
      fillMem P st fillValue keepDigest m keyId root hb := fun _ _ => rfl
  simp only [fixHalfTree, if_neg (not_le.mpr hA), swapEnds_parts, hends, fillSingle_parts, hsw,
    hread, htrav, hfill]
  cases fillValue <;> cases fillIndex <;>
    simp only [halfTemplate, hends, rootMem, halfCells, if_true, Bool.false_eq_true, if_false]
      at hD ⊢ <;> rw [hD] <;> rfl

theorem halfInd_spec (hsk : Shape P st) (h : Linking P st n) {root hb : ℕ}
    (hg : graph P st n keyId root hb) {D : List (Visit ℕ ℕ)}
    (hS : Spans (graph P st n) (some keyId) root D)
    (hl : ∀ e u v, graph P st n e u v → e ≠ keyId → indAt st u ^^^ indAt st v = e) :
    (halfInd st keyId root hb D).length = nodes st ∧ Labelled (graph P st n) (· ^^^ ·)
      (fun v => (halfInd st keyId root hb D).getD v 0) id := by
  obtain ⟨hrn, hbn⟩ := hsk.graph_lt hg
  have hstore := indStore (nodes st)
  have hfilled : (st.indMem.set root (keyId ^^^ st.indMem.getD hb 0)).length = nodes st :=
    hstore.ok_set hsk.indMem
  have hroot : (st.indMem.set root (keyId ^^^ st.indMem.getD hb 0)).getD root 0 =
      keyId ^^^ indAt st hb := by
    rw [hstore.get_set hsk.indMem hrn hrn, Function.update_self]
    rfl
  have hother : ∀ v, v < nodes st → v ≠ root →
      (st.indMem.set root (keyId ^^^ st.indMem.getD hb 0)).getD v 0 = indAt st v := fun v _ hne =>
    getD_set_of_ne _ hne _ _
  have hx : (st.indMem.getD root 0 ^^^ (keyId ^^^ indAt st hb)) ^^^ indAt st root =
      keyId ^^^ indAt st hb := by
    rw [Nat.xor_comm]
    exact involutive_nat.cancel _ _
  obtain ⟨hok, hfix⟩ := hstore.fix hS.grows (fun t ht => hsk.child_lt hS ht) hfilled
    ((st.indMem.getD root 0 ^^^ (keyId ^^^ indAt st hb)) ^^^ ·)
  have hrootD : root ∉ D.map Visit.child := (List.nodup_cons.mp hS.grows.nodup).1
  rw [halfInd, hroot]
  refine ⟨hok, Labelled.half involutive_nat (undirected_graph P st n) h.acyclic hg hS
    (f := indAt st) (d := st.indMem.getD root 0 ^^^ (keyId ^^^ indAt st hb)) hl ?_ ?_ ?_⟩
  · intro v hv
    rcases List.mem_cons.mp hv with rfl | hv
    · rw [hfix _ hrn, if_neg hrootD, hroot, hx]
    · have hvn : v < nodes st := by
        obtain ⟨t, ht, rfl⟩ := List.mem_map.mp hv
        exact hsk.child_lt hS ht
      have hne : v ≠ root := fun heq => hrootD (heq ▸ hv)
      rw [hfix v hvn, if_pos hv, hother v hvn hne]
      rfl
  · intro e u v he hu
    rw [List.mem_cons, not_or] at hu
    have hun := (hsk.graph_lt he).1
    rw [hfix u hun, if_neg hu.2, hother u hun hu.1]
  · rw [hx, Nat.xor_assoc, Nat.xor_self, Nat.xor_zero]
    rfl

end Half

theorem halfCells_false (keepDigest : Bool) (root hb : ℕ) (D : List (Visit ℕ ℕ)) :
    halfCells P st false keepDigest keyId root hb D = st.mem := by
  have hfix : ∀ (D : List (Visit ℕ ℕ)) m x,
      D.foldl (fun m t => fixMem P false keepDigest m t.child x) m = m := by
    intro D m x
    induction D with
    | nil => rfl
    | cons t D ih => exact ih
  rw [halfCells, hfix]
  rfl

theorem halfFlips_false (keepDigest : Bool) (root hb : ℕ) (D : List (Visit ℕ ℕ)) :
    halfFlips P st false keepDigest keyId root hb D = [] := by
  simp [halfFlips, halfTemplate, rootMem, fillMem]

/-- The index may be off at one key. -/
theorem Linking.fixHalfTree_spec (hsh : Shape P st) (h : Linking P st n) (hk : keyId < n)
    (fillValue fillIndex keepDigest : Bool)
    (hind : ∀ e u v, graph P st n e u v → (fillIndex = true → e ≠ keyId) →
      indAt st u ^^^ indAt st v = e) :
    ∃ D x ind, Spans (graph P st n) (some keyId)
        (halfEnds P st fillValue (ends P st keyId).1 (ends P st keyId).2).1 D ∧
      fixHalfTree P fillValue fillIndex keepDigest st keyId (ends P st keyId).1
          (ends P st keyId).2 =
        .ok (x, { st with
            mem := halfCells P st fillValue keepDigest keyId (ends P st keyId).1
              (ends P st keyId).2 D
            indMem := ind },
          halfFlips P st fillValue keepDigest keyId (ends P st keyId).1 (ends P st keyId).2 D) ∧
      Indexed P { st with
        mem := halfCells P st fillValue keepDigest keyId (ends P st keyId).1
          (ends P st keyId).2 D
        indMem := ind } n := by
  generalize hpair : halfEnds P st fillValue (ends P st keyId).1 (ends P st keyId).2 = pair
  obtain ⟨D, x, hg, hS, hrun⟩ := h.fixHalfTree_parts fillValue keepDigest hsh hk fillIndex hpair
  refine ⟨D, x, _, hS, hrun, ?_⟩
  have hparts : (if fillIndex then halfInd st keyId pair.1 pair.2 D else st.indMem).length =
      nodes st ∧ Labelled (graph P st n) (· ^^^ ·)
        (fun v => (if fillIndex then halfInd st keyId pair.1 pair.2 D else st.indMem).getD v 0)
        id := by
    cases fillIndex
    · exact ⟨hsh.indMem, fun e u v hg => hind e u v hg (by simp)⟩
    · exact halfInd_spec hsh h hg hS fun e u v hg hne => hind e u v hg fun _ => hne
  exact
    { ma_pos := hsh.ma_pos, mb_pos := hsh.mb_pos, indMem := hparts.1, head := hsh.head
      forest := hsh.forest, values := hsh.values, nextAtA := hsh.nextAtA, nextAtB := hsh.nextAtB
      keyCnt := hsh.keyCnt
      linking := ⟨h.n_le, h.listsA, h.listsB, h.acyclic⟩, indices := hparts.2 }

def edgeAdded (st : Othello K) (key ha hb : ℕ) (forest : DisjointSet.Mem) : Othello K :=
  { st with
    head := (st.head.set ha (some ⟨key, hb⟩)).set hb (some ⟨key, ha⟩)
    nextAtA := st.nextAtA.set key (st.head.getD ha none)
    nextAtB := st.nextAtB.set key ((st.head.set ha (some ⟨key, hb⟩)).getD hb none)
    connectivityForest := forest }

omit [Inhabited K] in
theorem addEdge_eq (st : Othello K) {key ha hb : ℕ} {forest : DisjointSet.Mem}
    (h : DisjointSet.merge st.connectivityForest ha hb = some forest) :
    addEdge st key ha hb = .ok (edgeAdded st key ha hb forest) := by
  rw [addEdge]
  simp only [h]
  rfl

omit [Inhabited K] in
theorem Shape.edge_added (h : Shape P st) (key ha hb : ℕ) {forest : DisjointSet.Mem}
    (hf : forest.length = nodes st) : Shape P (edgeAdded st key ha hb forest) where
  ma_pos := h.ma_pos
  mb_pos := h.mb_pos
  indMem := h.indMem
  head := by
    rw [edgeAdded, List.length_set, List.length_set]
    exact h.head
  forest := hf
  values := h.values
  nextAtA := (List.length_set ..).trans h.nextAtA
  nextAtB := (List.length_set ..).trans h.nextAtB
  keyCnt := h.keyCnt

theorem linked_congr {G H : ℕ → ℕ → ℕ → Prop} (h : ∀ e u v, G e u v ↔ H e u v) (u v : ℕ) :
    Linked G u v ↔ Linked H u v :=
  ⟨Linked.mono fun e u v => (h e u v).mp, Linked.mono fun e u v => (h e u v).mpr⟩

theorem graph_self (P : Setup K) (st : Othello K) (n u v : ℕ) : ¬ graph P st n n u v :=
  fun h => absurd h.1 (Nat.lt_irrefl n)

theorem Linking.edge_added (hsk : Shape P st) (h : Linking P st n) (hn : n < st.keys.length)
    (hsep : ¬ Linked (graph P st n) (ends P st n).1 (ends P st n).2) (forest : DisjointSet.Mem) :
    Linking P (edgeAdded st n (ends P st n).1 (ends P st n).2 forest) (n + 1) := by
  obtain ⟨hA, hB, hBn⟩ := hsk.ends_bounds n
  have hne : (ends P st n).1 ≠ (ends P st n).2 := by omega
  have hnodes : nodes st = st.ma + st.mb := rfl
  have hgraph : ∀ e u v, graph P (edgeAdded st n (ends P st n).1 (ends P st n).2
      forest) (n + 1) e u v ↔ withEdge (graph P st n) n (ends P st n).1 (ends P st n).2 e u v :=
    fun e u v => graph_succ
  refine ⟨hn, ?_, ?_, ?_⟩
  · have hpush := h.listsA.push (k := n) (b := (ends P st n).2) hA (by rw [hsk.head]; omega)
      (by rw [hsk.nextAtA]; exact hn) (graph_self P st n)
    refine hpush.congr (fun v hv => ?_) (fun _ _ _ _ _ => rfl) fun v hv e w => ?_
    · have hvA : v < st.ma := hv
      exact getD_set_of_ne _ (by omega) _ _
    · have hvA : v < st.ma := hv
      rw [hgraph, withEdge]
      refine or_congr_right (and_congr_right fun _ => or_iff_left fun hc => ?_)
      omega
  · have hB' : SideLists (st.head.set (ends P st n).1 (some ⟨n, (ends P st n).2⟩)) st.nextAtB
        (fun v => st.ma ≤ v ∧ v < nodes st) (graph P st n) :=
      h.listsB.congr (fun v hv => getD_set_of_ne _ (by rintro rfl; omega) _ _)
        (fun _ _ _ _ _ => rfl) fun _ _ _ _ => Iff.rfl
    have hpush := hB'.push (k := n) (b := (ends P st n).1) ⟨hB, hBn⟩
      (by rw [List.length_set, hsk.head]; exact hBn) (by rw [hsk.nextAtB]; exact hn)
      (graph_self P st n)
    refine hpush.congr (fun _ _ => rfl) (fun _ _ _ _ _ => rfl) fun v hv e w => ?_
    have hvB : st.ma ≤ v := hv.1
    rw [hgraph, withEdge]
    refine or_congr_right (and_congr_right fun _ => or_iff_right fun hc => ?_)
    omega
  · exact (h.acyclic.with_edge (undirected_graph P st n) (graph_self P st n) hsep).mono
      fun e u v hg => (hgraph e u v).mp hg

theorem Linking.unlink (hsk : Shape P st) (h : Linking P st n) (hk : keyId < n) :
    ∃ head₁ nextA head₂ nextB,
      unlinkCell st.head st.nextAtA (ends P st keyId).1 keyId = some (head₁, nextA) ∧
      unlinkCell head₁ st.nextAtB (ends P st keyId).2 keyId = some (head₂, nextB) ∧
      head₂.length = nodes st ∧ nextA.length = st.keys.length ∧
      nextB.length = st.keys.length ∧
      SideLists head₂ nextA (· < st.ma) (fun e v w => graph P st n e v w ∧ e ≠ keyId) ∧
      SideLists head₂ nextB (fun v => st.ma ≤ v ∧ v < nodes st)
        (fun e v w => graph P st n e v w ∧ e ≠ keyId) := by
  obtain ⟨hA, hB, hBn⟩ := hsk.ends_bounds keyId
  have hg := graph_ends P st hk
  have hnodes : nodes st = st.ma + st.mb := rfl
  have hlt : ∀ e v w, graph P st n e v w → e < st.keys.length := fun e v w hg =>
    hg.1.trans_le h.n_le
  obtain ⟨head₁, nextA, hu₁, hl₁, hn₁, hh₁, hs₁⟩ := h.listsA.unlink hA
    (by rw [hsk.head]; omega) hg (by rw [hsk.nextAtA]; exact hlt) hsk.oneEnd_A
  have hB₁ : SideLists head₁ st.nextAtB (fun v => st.ma ≤ v ∧ v < nodes st) (graph P st n) :=
    h.listsB.congr (fun v hv => hh₁ v (by omega)) (fun _ _ _ _ _ => rfl) fun _ _ _ _ => Iff.rfl
  obtain ⟨head₂, nextB, hu₂, hl₂, hn₂, hh₂, hs₂⟩ := hB₁.unlink ⟨hB, hBn⟩
    (by rw [hl₁, hsk.head]; exact hBn) ((undirected_graph P st n).symm hg)
    (by rw [hsk.nextAtB]; exact hlt) hsk.oneEnd_B
  refine ⟨head₁, nextA, head₂, nextB, hu₁, hu₂, hl₂.trans (hl₁.trans hsk.head),
    hn₁.trans hsk.nextAtA, hn₂.trans hsk.nextAtB, ?_, hs₂⟩
  refine hs₁.congr (fun v hv => hh₂ v ?_) (fun _ _ _ _ _ => rfl) fun _ _ _ _ => Iff.rfl
  have hvA : v < st.ma := hv
  omega

/-- The index a key had before the last key was moved to slot `keyId`. -/
def oldId (n keyId e : ℕ) : ℕ := if e = keyId then n else e

theorem oldId_inj {n keyId e e' : ℕ} (he : e < n) (he' : e' < n)
    (h : oldId n keyId e = oldId n keyId e') : e = e' := by
  unfold oldId at h
  split at h <;> split at h <;> omega

/-- Key `keyId` of `n + 1` keys is gone, and the last one has its slot. -/
structure Detached (P : Setup K) (st : Othello K) (n keyId : ℕ) (st₁ : Othello K) : Prop where
  keyCnt : st₁.keyCnt = n
  keyAt : ∀ e, e < n → keyAt st₁ e = ControlPlaneOthello.keyAt st (oldId n keyId e)
  values : ∀ e, e < n → st₁.values.getD e 0 = st.values.getD (oldId n keyId e) 0
  length : st₁.keys.length = st.keys.length
  tables : SameTables st st₁
  forest : st₁.connectivityForest = st.connectivityForest
  mem : st₁.mem = st.mem

theorem Detached.ends {st₁ : Othello K} (h : Detached P st n keyId st₁) {e : ℕ} (he : e < n) :
    ends P st₁ e = OthelloInvariant.ends P st (oldId n keyId e) := by
  rw [OthelloInvariant.ends, h.tables.indices_eq, h.keyAt e he, OthelloInvariant.ends]

theorem Detached.graph_iff {st₁ : Othello K} (h : Detached P st n keyId st₁)
    {e u v : ℕ} : graph P st₁ n e u v ↔
      e < n ∧ graph P st (n + 1) (oldId n keyId e) u v := by
  refine and_congr_right fun he => ?_
  have hlt : oldId n keyId e < n + 1 := by
    unfold oldId
    split <;> omega
  rw [h.ends he, graph, and_iff_right hlt]

theorem Detached.acyclic {st₁ : Othello K} (h : Detached P st n keyId st₁)
    (hA : Acyclic (graph P st (n + 1))) : Acyclic (graph P st₁ n) :=
  hA.rename (oldId n keyId) (fun _ _ _ hg => (h.graph_iff.mp hg).2)
    fun _ _ _ _ _ _ hg hg' heq => oldId_inj hg.1 hg'.1 heq

theorem Detached.linked_iff {st₁ : Othello K} (h : Detached P st n keyId st₁) (hk : keyId ≤ n)
    (u v : ℕ) :
    Linked (graph P st₁ n) u v ↔ Linked (avoid (graph P st (n + 1)) (some keyId)) u v := by
  constructor
  · refine Linked.relabel fun e a b he => ?_
    obtain ⟨hlt, hg⟩ := h.graph_iff.mp he
    refine ⟨oldId n keyId e, hg, fun heq => ?_⟩
    have := Option.some.inj heq
    unfold oldId at this
    split at this <;> omega
  · refine Linked.relabel fun e a b ⟨hg, hne⟩ => ?_
    have hek : e ≠ keyId := fun heq => hne (congrArg some heq)
    have hle : e < n + 1 := hg.1
    by_cases hen : e = n
    · have hkn : keyId < n := by omega
      refine ⟨keyId, h.graph_iff.mpr ⟨hkn, ?_⟩⟩
      rw [oldId, if_pos rfl]
      exact hen ▸ hg
    · refine ⟨e, h.graph_iff.mpr ⟨by omega, ?_⟩⟩
      rw [oldId, if_neg hek]
      exact hg

theorem Detached.indices {st₁ : Othello K} (h : Detached P st n keyId st₁)
    (hind : st₁.indMem = st.indMem)
    (hl : Labelled (graph P st (n + 1)) (· ^^^ ·) (indAt st) id) :
    ∀ e u v, graph P st₁ n e u v → e ≠ keyId → indAt st₁ u ^^^ indAt st₁ v = e := by
  intro e u v hg hne
  obtain ⟨-, hg⟩ := h.graph_iff.mp hg
  rw [oldId, if_neg hne] at hg
  rw [indAt, indAt, hind]
  exact hl _ _ _ hg

theorem Detached.moved_iff {st₁ : Othello K} (h : Detached P st n keyId st₁) (hk : keyId < n)
    {e v w a b : ℕ} (hends : ∀ e, graph P st (n + 1) n v e ↔ v = a ∧ e = b) :
    graph P st₁ n e v w ↔ ((graph P st (n + 1) e v w ∧ e ≠ keyId) ∧ e ≠ n) ∨
      (e = keyId ∧ v = a ∧ w = b) := by
  rw [h.graph_iff]
  constructor
  · rintro ⟨he, hg⟩
    by_cases hek : e = keyId
    · rw [oldId, if_pos hek, hends] at hg
      exact Or.inr ⟨hek, hg⟩
    · rw [oldId, if_neg hek] at hg
      exact Or.inl ⟨⟨hg, hek⟩, he.ne⟩
  · rintro (⟨⟨hg, hek⟩, hen⟩ | ⟨rfl, hg⟩)
    · have hlt : e < n + 1 := hg.1
      rw [oldId, if_neg hek]
      exact ⟨by omega, hg⟩
    · rw [oldId, if_pos rfl, hends]
      exact ⟨hk, hg⟩

theorem Linking.move (hsk : Shape P st) (h : Linking P st (n + 1)) (hk : keyId < n)
    {head₂ nextA nextB : List (Option OthelloCPCell)} (hlen : head₂.length = nodes st)
    (hlenA : nextA.length = st.keys.length) (hlenB : nextB.length = st.keys.length)
    (hA : SideLists head₂ nextA (· < st.ma) (fun e v w => graph P st (n + 1) e v w ∧ e ≠ keyId))
    (hB : SideLists head₂ nextB (fun v => st.ma ≤ v ∧ v < nodes st)
      (fun e v w => graph P st (n + 1) e v w ∧ e ≠ keyId)) :
    ∃ head₃ nextA' head₄ nextB',
      renameCell head₂ nextA (ends P st n).1 n keyId (ends P st n).2 = some (head₃, nextA') ∧
      renameCell head₃ nextB (ends P st n).2 n keyId (ends P st n).1 = some (head₄, nextB') ∧
      head₄.length = nodes st ∧ nextA'.length = st.keys.length ∧
      nextB'.length = st.keys.length ∧
      SideLists head₄ nextA' (· < st.ma)
        (fun e v w => ((graph P st (n + 1) e v w ∧ e ≠ keyId) ∧ e ≠ n) ∨
          (e = keyId ∧ v = (ends P st n).1 ∧ w = (ends P st n).2)) ∧
      SideLists head₄ nextB' (fun v => st.ma ≤ v ∧ v < nodes st)
        (fun e v w => ((graph P st (n + 1) e v w ∧ e ≠ keyId) ∧ e ≠ n) ∨
          (e = keyId ∧ v = (ends P st n).2 ∧ w = (ends P st n).1)) := by
  obtain ⟨hAn, hBm, hBn⟩ := hsk.ends_bounds n
  have hnodes : nodes st = st.ma + st.mb := rfl
  have hg := graph_ends P st (Nat.lt_succ_self n)
  have hne : n ≠ keyId := hk.ne'
  have hlt : ∀ e v w, graph P st (n + 1) e v w ∧ e ≠ keyId → e < st.keys.length :=
    fun e v w hg => hg.1.1.trans_le h.n_le
  have hkl : keyId < st.keys.length := hk.trans (Nat.lt_of_succ_le h.n_le)
  have honeA : OneEnd (· < st.ma) (fun e v w => graph P st (n + 1) e v w ∧ e ≠ keyId) :=
    fun e v v' w w' hv hv' hg hg' => hsk.oneEnd_A e v v' w w' hv hv' hg.1 hg'.1
  have honeB : OneEnd (fun v => st.ma ≤ v ∧ v < nodes st)
      (fun e v w => graph P st (n + 1) e v w ∧ e ≠ keyId) :=
    fun e v v' w w' hv hv' hg hg' => hsk.oneEnd_B e v v' w w' hv hv' hg.1 hg'.1
  have hnew : ∀ v w, ¬ (graph P st (n + 1) keyId v w ∧ keyId ≠ keyId) := fun v w hc => hc.2 rfl
  obtain ⟨head₃, nextA', hr₃, hl₃, hn₃, hh₃, hs₃⟩ := hA.rename hAn (by rw [hlen]; omega)
    ⟨hg, hne⟩ (by rw [hlenA]; exact hlt) (by rw [hlenA]; exact hkl) hnew honeA
  have hB₃ : SideLists head₃ nextB (fun v => st.ma ≤ v ∧ v < nodes st)
      (fun e v w => graph P st (n + 1) e v w ∧ e ≠ keyId) :=
    hB.congr (fun v hv => hh₃ v (by omega)) (fun _ _ _ _ _ => rfl) fun _ _ _ _ => Iff.rfl
  obtain ⟨head₄, nextB', hr₄, hl₄, hn₄, hh₄, hs₄⟩ := hB₃.rename ⟨hBm, hBn⟩
    (by rw [hl₃, hlen]; exact hBn) ⟨(undirected_graph P st (n + 1)).symm hg, hne⟩
    (by rw [hlenB]; exact hlt) (by rw [hlenB]; exact hkl) hnew honeB
  refine ⟨head₃, nextA', head₄, nextB', hr₃, hr₄, hl₄.trans (hl₃.trans hlen),
    hn₃.trans hlenA, hn₄.trans hlenB, ?_, hs₄⟩
  refine hs₃.congr (fun v hv => hh₄ v ?_) (fun _ _ _ _ _ => rfl) fun _ _ _ _ => Iff.rfl
  have hvA : v < st.ma := hv
  omega

theorem moveLast_eq {head₃ nextA head₄ nextB : List (Option OthelloCPCell)} {x : BitVec 64}
    {st' : Othello K} {flips : List ℕ}
    (hr₁ : renameCell st.head st.nextAtA (ends P st st.keyCnt).1 st.keyCnt keyId
      (ends P st st.keyCnt).2 = some (head₃, nextA))
    (hr₂ : renameCell head₃ st.nextAtB (ends P st st.keyCnt).2 st.keyCnt keyId
      (ends P st st.keyCnt).1 = some (head₄, nextB))
    (hfix : fixHalfTree P false true true { st with
        keys := st.keys.set keyId (keyAt st st.keyCnt)
        values := st.values.set keyId (st.values.getD st.keyCnt 0)
        head := head₄, nextAtA := nextA, nextAtB := nextB } keyId (ends P st st.keyCnt).1
      (ends P st st.keyCnt).2 = .ok (x, st', flips)) :
    moveLast P st keyId = .ok (st', flips) := by
  have hidx : ∀ keys values, getIndices P { st with keys := keys, values := values }
      (keyAt st st.keyCnt) = ends P st st.keyCnt := fun _ _ => rfl
  simp only [moveLast, hidx, hr₁, hr₂, orOutOfBounds, ok_bind, hfix]
  rfl

def lastMoved (st : Othello K) (n keyId : ℕ) (head nextA nextB : List (Option OthelloCPCell)) :
    Othello K :=
  { st with
    keyCnt := n
    keys := st.keys.set keyId (keyAt st n)
    values := st.values.set keyId (st.values.getD n 0)
    head := head
    nextAtA := nextA
    nextAtB := nextB }

def lastDropped (st : Othello K) (n : ℕ) (head nextA nextB : List (Option OthelloCPCell)) :
    Othello K :=
  { st with keyCnt := n, head := head, nextAtA := nextA, nextAtB := nextB }

theorem detached_lastMoved (hsk : Shape P st) (hk : keyId < n) (hn : n < st.keys.length)
    (head nextA nextB : List (Option OthelloCPCell)) :
    Detached P st n keyId (lastMoved st n keyId head nextA nextB) := by
  refine ⟨rfl, fun e he => ?_, fun e he => ?_, List.length_set .., ⟨rfl, rfl, rfl, rfl⟩, rfl, rfl⟩
  · have hget := congrFun (getD_set st.keys (hk.trans hn) (keyAt st n) default) e
    rw [keyAt, lastMoved, hget, Function.update_apply, oldId]
    split <;> rfl
  · have hget := congrFun
      (getD_set st.values (hsk.values ▸ hk.trans hn) (st.values.getD n 0) 0) e
    rw [lastMoved, hget, Function.update_apply, oldId]
    split <;> rfl

theorem detached_lastDropped (P : Setup K) (st : Othello K) (n : ℕ)
    (head nextA nextB : List (Option OthelloCPCell)) :
    Detached P st n n (lastDropped st n head nextA nextB) := by
  have hold : ∀ e, e < n → oldId n n e = e := fun e he => if_neg he.ne
  refine ⟨rfl, fun e he => ?_, fun e he => ?_, rfl, ⟨rfl, rfl, rfl, rfl⟩, rfl, rfl⟩
  · rw [hold e he]
    rfl
  · rw [hold e he]
    rfl

theorem Linking.lastMoved (hsk : Shape P st) (h : Linking P st (n + 1)) (hk : keyId < n) :
    ∃ head₁ nextA head₂ nextB head₃ nextA' head₄ nextB',
      unlinkCell st.head st.nextAtA (ends P st keyId).1 keyId = some (head₁, nextA) ∧
      unlinkCell head₁ st.nextAtB (ends P st keyId).2 keyId = some (head₂, nextB) ∧
      renameCell head₂ nextA (ends P st n).1 n keyId (ends P st n).2 = some (head₃, nextA') ∧
      renameCell head₃ nextB (ends P st n).2 n keyId (ends P st n).1 = some (head₄, nextB') ∧
      Shape P (lastMoved st n keyId head₄ nextA' nextB') ∧
      Linking P (OthelloInvariant.lastMoved st n keyId head₄ nextA' nextB') n := by
  have hkl : n < st.keys.length := Nat.lt_of_succ_le h.n_le
  obtain ⟨head₁, nextA, head₂, nextB, hu₁, hu₂, hlen, hlenA, hlenB, hsA, hsB⟩ :=
    Linking.unlink hsk h (hk.trans (Nat.lt_succ_self n))
  obtain ⟨head₃, nextA', head₄, nextB', hr₁, hr₂, hlen', hlenA', hlenB', hmA, hmB⟩ :=
    Linking.move hsk h hk hlen hlenA hlenB hsA hsB
  have hdet := detached_lastMoved hsk hk hkl head₄ nextA' nextB'
  have hendsA : ∀ v, v < st.ma → ∀ w, graph P st (n + 1) n v w ↔
      v = (ends P st n).1 ∧ w = (ends P st n).2 := fun v hv w => by
    rw [hsk.graph_A hv, and_iff_right (Nat.lt_succ_self n), Prod.ext_iff]
    exact and_congr eq_comm eq_comm
  have hendsB : ∀ v, st.ma ≤ v → ∀ w, graph P st (n + 1) n v w ↔
      v = (ends P st n).2 ∧ w = (ends P st n).1 := fun v hv w => by
    rw [hsk.graph_B hv, and_iff_right (Nat.lt_succ_self n), Prod.ext_iff, and_comm]
    exact and_congr eq_comm eq_comm
  refine ⟨head₁, nextA, head₂, nextB, head₃, nextA', head₄, nextB', hu₁, hu₂, hr₁, hr₂,
    { ma_pos := hsk.ma_pos, mb_pos := hsk.mb_pos
      indMem := hsk.indMem, head := hlen', forest := hsk.forest
      values := (List.length_set ..).trans (hsk.values.trans (List.length_set ..).symm)
      nextAtA := hlenA'.trans (List.length_set ..).symm
      nextAtB := hlenB'.trans (List.length_set ..).symm
      keyCnt := hkl.le.trans_eq (List.length_set ..).symm },
    hkl.le.trans_eq hdet.length.symm, ?_, ?_, hdet.acyclic h.acyclic⟩
  · exact hmA.congr (fun v _ => rfl) (fun _ _ _ _ _ => rfl) fun v hv e w =>
      hdet.moved_iff hk (e := e) (w := w) (hendsA v hv)
  · exact hmB.congr (fun v _ => rfl) (fun _ _ _ _ _ => rfl) fun v hv e w =>
      hdet.moved_iff hk (e := e) (w := w) (hendsB v hv.1)

theorem Linking.lastDropped (hsk : Shape P st) (h : Linking P st (n + 1)) :
    ∃ head₁ nextA head₂ nextB,
      unlinkCell st.head st.nextAtA (ends P st n).1 n = some (head₁, nextA) ∧
      unlinkCell head₁ st.nextAtB (ends P st n).2 n = some (head₂, nextB) ∧
      Shape P (lastDropped st n head₂ nextA nextB) ∧
      Linking P (OthelloInvariant.lastDropped st n head₂ nextA nextB) n := by
  have hkl : n < st.keys.length := Nat.lt_of_succ_le h.n_le
  obtain ⟨head₁, nextA, head₂, nextB, hu₁, hu₂, hlen, hlenA, hlenB, hsA, hsB⟩ :=
    Linking.unlink hsk h (Nat.lt_succ_self n)
  have hdet := detached_lastDropped P st n head₂ nextA nextB
  have hold : ∀ e, e < n → oldId n n e = e := fun e he => if_neg he.ne
  have hgraph : ∀ e v w, graph P (OthelloInvariant.lastDropped st n head₂ nextA nextB) n e v w ↔
      graph P st (n + 1) e v w ∧ e ≠ n := fun e v w => by
    rw [hdet.graph_iff]
    constructor
    · rintro ⟨he, hg⟩
      exact ⟨hold e he ▸ hg, he.ne⟩
    · rintro ⟨hg, hne⟩
      have he : e < n := Nat.lt_of_le_of_ne (Nat.le_of_lt_succ hg.1) hne
      exact ⟨he, (hold e he).symm ▸ hg⟩
  refine ⟨head₁, nextA, head₂, nextB, hu₁, hu₂,
    { ma_pos := hsk.ma_pos, mb_pos := hsk.mb_pos
      indMem := hsk.indMem, head := hlen, forest := hsk.forest
      values := hsk.values, nextAtA := hlenA, nextAtB := hlenB, keyCnt := hkl.le },
    hkl.le, ?_, ?_, hdet.acyclic h.acyclic⟩
  · exact hsA.congr (fun v _ => rfl) (fun _ _ _ _ _ => rfl) fun v _ e w => hgraph e v w
  · exact hsB.congr (fun v _ => rfl) (fun _ _ _ _ _ => rfl) fun v _ e w => hgraph e v w

/-- `detach` takes exactly this key out, changes no cell of `mem` and logs no flip. -/
theorem Indexed.detach_spec (h : Indexed P st (n + 1)) (hcnt : st.keyCnt = n + 1)
    (hk : keyId ≤ n) :
    ∃ st₁, detach P st (ends P st keyId).1 (ends P st keyId).2 keyId = .ok (st₁, []) ∧
      Detached P st n keyId st₁ ∧ SameSettings st st₁ ∧ Indexed P st₁ n := by
  have hsk := h.toShape
  rcases Nat.lt_or_eq_of_le hk with hlt | rfl
  case inl =>
    obtain ⟨head₁, nextA, head₂, nextB, head₃, nextA', head₄, nextB', hu₁, hu₂, hr₁, hr₂, hsk₁,
      hlinking⟩ := Linking.lastMoved hsk h.linking hlt
    have hdet := detached_lastMoved hsk hlt (Nat.lt_of_succ_le h.linking.n_le) head₄ nextA' nextB'
    obtain ⟨D, x, ind, -, hfix, hrec⟩ := hlinking.fixHalfTree_spec hsk₁ hlt false
      true true fun e u v hg hne => hdet.indices rfl h.indices e u v hg (hne rfl)
    rw [halfFlips_false, halfCells_false] at hfix
    rw [halfCells_false] at hrec
    refine ⟨{ lastMoved st n keyId head₄ nextA' nextB' with indMem := ind }, ?_, ?_, ⟨rfl, rfl⟩,
      hrec⟩
    · have hendsK : ends P (lastMoved st n keyId head₄ nextA' nextB') keyId = ends P st n := by
        rw [hdet.ends hlt, oldId, if_pos rfl]
      rw [hendsK] at hfix
      simp only [detach, hcnt, Nat.add_sub_cancel, hu₁, hu₂, orOutOfBounds, ok_bind,
        if_pos hlt.ne]
      exact moveLast_eq hr₁ hr₂ hfix
    · exact ⟨rfl, hdet.keyAt, hdet.values, hdet.length, ⟨rfl, rfl, rfl, rfl⟩, rfl, rfl⟩
  case inr =>
    obtain ⟨head₁, nextA, head₂, nextB, hu₁, hu₂, hsk₁, hlinking⟩ :=
      Linking.lastDropped hsk h.linking
    have hdet := detached_lastDropped P st keyId head₂ nextA nextB
    refine ⟨lastDropped st keyId head₂ nextA nextB, ?_, hdet, ⟨rfl, rfl⟩, { hsk₁ with
      linking := hlinking
      indices := fun e u v hg => hdet.indices rfl h.indices e u v hg hg.1.ne }⟩
    simp only [detach, hcnt, Nat.add_sub_cancel, hu₁, hu₂, orOutOfBounds, ok_bind, ne_eq,
      not_true_eq_false, if_false]
    rfl

theorem Linking.isolated (h : Linking P st n) {root : ℕ}
    (hroot : root < nodes st) (hnone : st.head.getD root none = none) (e w : ℕ) :
    ¬ graph P st n e root w := by
  intro hg
  obtain ⟨l, hl, -, hmem⟩ : ∃ l, IntrusiveLists.Chain OthelloCPCell.keyId
      (fun i => (if root < st.ma then st.nextAtA else st.nextAtB).getD i none)
      (st.head.getD root none) l ∧ (l.map OthelloCPCell.keyId).Nodup ∧
      ∀ e w, ⟨e, w⟩ ∈ l ↔ graph P st n e root w := by
    by_cases hA : root < st.ma
    · simp only [if_pos hA]
      exact h.listsA root hA
    · simp only [if_neg hA]
      exact h.listsB root ⟨Nat.le_of_not_lt hA, hroot⟩
  rw [hnone] at hl
  cases hl
  simpa using (hmem e w).mpr hg

omit [Inhabited K] in
theorem foldl_forest (D : List (Visit ℕ ℕ)) (root : ℕ) (st : Othello K) :
    D.foldl (fun st t => { st with
        connectivityForest := DisjointSet.set st.connectivityForest t.child root }) st =
      { st with
        connectivityForest :=
          D.foldl (fun m t => DisjointSet.set m t.child root) st.connectivityForest } := by
  induction D generalizing st with
  | nil => rfl
  | cons t D ih => rw [List.foldl_cons, ih, List.foldl_cons]

end OthelloInvariant
