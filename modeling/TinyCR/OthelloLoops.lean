import TinyCR.OthelloForests

/-! # The loops of the Othello end

The stack loops keep no set of visited nodes, and a search for a predecessor would run past an
end marker. Wherever an operation of a run starts them, the lists hold a forest. -/
namespace OthelloLoops

open PackedCells EdgeForest NodeLists ControlPlaneOthello OthelloInvariant OthelloForests

open OthelloRun (pathSetup pathKeys asked pathSetup_reached)

variable {K : Type} [Inhabited K] {P : Setup K} {st : Othello K}

/-- The visits and their start are the nodes of a component, each once; `skip` is the edge that
is left out. -/
structure OnceEach (P : Setup K) (st : Othello K) (skip : Option ℕ) (root : ℕ)
    (D : List (Visit ℕ ℕ)) : Prop where
  nodup : (root :: D.map Visit.child).Nodup
  mem_iff : ∀ v, v ∈ root :: D.map Visit.child ↔
    Linked (avoid (graph P st st.keyCnt) skip) root v

/-- A loop from `root` stops: whatever is done at a node is done at each once. The `result` is
what `visit` makes of `s` there. -/
def Ends (P : Setup K) (st : Othello K) (skip : Option ℕ) (root : ℕ) {σ : Type}
    (visit : σ → Visit ℕ ℕ → σ) (s : σ) (result : Except Fault σ) : Prop :=
  ∃ D, OnceEach P st skip root D ∧
    (∀ (τ : Type) (act : τ → Visit ℕ ℕ → τ) (t : τ),
      traversal st skip root act t = .ok (D.foldl act t)) ∧
    result = .ok (D.foldl visit s)

def Skips (P : Setup K) (st : Othello K) (skip root : ℕ) : Prop :=
  (∃ b, graph P st st.keyCnt skip root b) ∨ st.keyCnt ≤ skip

theorem skips_none {root : ℕ} : ∀ e, (none : Option ℕ) = some e → Skips P st e root :=
  fun _ he => nomatch he

section Loops

variable (P) (fillValue fillIndex keepDigest : Bool)

def fillVisit (st : Othello K) (t : Visit ℕ ℕ) : Othello K :=
  fillSingle P fillValue fillIndex keepDigest st t.edge t.child t.parent

def fixVisit (x : BitVec 64) (ix : ℕ) (st : Othello K) (t : Visit ℕ ℕ) : Othello K :=
  fixSingle P fillValue fillIndex keepDigest st t.child x ix

def fixVisit_on_demand (x : BitVec 64) (ix : ℕ) (now : Othello K × List ℕ) (t : Visit ℕ ℕ) :
    Othello K × List ℕ :=
  (fixSingle P fillValue fillIndex keepDigest now.1 t.child x ix,
    if x ≠ 0 then now.2 ++ [t.child] else now.2)

end Loops

def connectVisit (root : ℕ) (st : Othello K) (t : Visit ℕ ℕ) : Othello K :=
  { st with connectivityForest := DisjointSet.set st.connectivityForest t.child root }

structure LoopsEnd (P : Setup K) (st : Othello K) : Prop where
  fillTreeDFS : ∀ fillValue fillIndex keepDigest, ∀ root < st.ma,
    Ends P st none root (fillVisit P fillValue fillIndex keepDigest) st
      (fillTreeDFS P fillValue fillIndex keepDigest st root)
  /-- a root in array B, which only the assertion keeps out -/
  fillTreeB : ∀ fillValue fillIndex keepDigest root, st.ma ≤ root → root < st.ma + st.mb →
    Ends P st none root (fillVisit P fillValue fillIndex keepDigest) st
      (traversal st none root (fillVisit P fillValue fillIndex keepDigest) st)
  fixHalfTreeDFS : ∀ fillValue fillIndex keepDigest, ∀ keyId < st.keyCnt,
    ∃ root x ix st₁ y st', (root = (ends P st keyId).1 ∨ root = (ends P st keyId).2) ∧
      Ends P st (some keyId) root (fixVisit P fillValue fillIndex keepDigest x ix) st₁ (.ok st') ∧
      fixHalfTreeDFS P fillValue fillIndex keepDigest st keyId (ends P st keyId).1
        (ends P st keyId).2 = .ok (y, st')
  fixHalfTreeDFS_on_demand : ∀ fillValue fillIndex keepDigest, ∀ keyId < st.keyCnt,
    ∀ flipped_index, ∃ root x ix now y next,
      (root = (ends P st keyId).1 ∨ root = (ends P st keyId).2) ∧
      Ends P st (some keyId) root (fixVisit_on_demand P fillValue fillIndex keepDigest x ix) now
        (.ok next) ∧
      fixHalfTreeDFS_on_demand P fillValue fillIndex keepDigest st keyId (ends P st keyId).1
        (ends P st keyId).2 flipped_index = .ok (y, next.1, next.2)
  getConnectedComponent : ∀ skip, ∀ root < st.ma + st.mb, Skips P st skip root →
    Ends P st (some skip) root (fun result t => result ++ [t.child]) []
      (getConnectedComponent st skip root)
  connectBFS : ∀ root < st.ma + st.mb, ∃ st₁,
    Ends P st none root (connectVisit root) st₁ (connectBFS P st root)
  connectBFS_on_demand : ∀ root < st.ma + st.mb, ∀ flipped_index, ∃ st₁ st' flipped,
    Ends P st none root (connectVisit root) st₁ (.ok st') ∧
      connectBFS_on_demand P st root flipped_index = .ok (st', flipped)

/-- The searches of `erase` and `erase_on_demand` find what they look for: the edge of the key
in the lists of its two nodes, and then the last edge, which takes the place of the key. -/
def SearchesEnd (P : Setup K) (st : Othello K) (keyId : ℕ) : Prop :=
  ∃ head₁ nextA head₂ nextB,
    unlinkCell st.head st.nextAtA (ends P st keyId).1 keyId = some (head₁, nextA) ∧
    unlinkCell head₁ st.nextAtB (ends P st keyId).2 keyId = some (head₂, nextB) ∧
    ∀ last, last + 1 = st.keyCnt → keyId ≠ last → ∃ head₃ nextA' head₄ nextB',
      renameCell head₂ nextA (ends P st last).1 last keyId (ends P st last).2 =
        some (head₃, nextA') ∧
      renameCell head₃ nextB (ends P st last).2 last keyId (ends P st last).1 =
        some (head₄, nextB')

theorem Spans.onceEach {skip : Option ℕ} {root : ℕ} {D : List (Visit ℕ ℕ)}
    (h : Spans (graph P st st.keyCnt) skip root D) : OnceEach P st skip root D :=
  ⟨h.grows.nodup, fun _ => h.mem_iff⟩

section Forest

variable (hsh : Shape P st) (h : Linking P st st.keyCnt)
include hsh h

omit [Inhabited K] hsh h in
theorem traversal_foldl {skip : Option ℕ} {root : ℕ} {D : List (Visit ℕ ℕ)}
    (hD : traversal st skip root (fun D t => D ++ [t]) [] = .ok D) {σ : Type}
    (visit : σ → Visit ℕ ℕ → σ) (s : σ) :
    traversal st skip root visit s = .ok (D.foldl visit s) := by
  have hvisit : ∀ (D : List (Visit ℕ ℕ)) (t : Visit ℕ ℕ),
      (D ++ [t]).foldl visit s = visit (D.foldl visit s) t := by
    intro D t
    rw [List.foldl_append]
    rfl
  have hmap := traversal_map (fun D : List (Visit ℕ ℕ) => D.foldl visit s) (fun D t => D ++ [t])
    hvisit st skip root []
  rw [hD] at hmap
  exact hmap

theorem traversal_ends {skip : Option ℕ} {root : ℕ} (hroot : root < nodes st)
    (hskip : ∀ e, skip = some e → Skips P st e root) {σ : Type} (visit : σ → Visit ℕ ℕ → σ)
    (s : σ) : Ends P st skip root visit s (traversal st skip root visit s) := by
  have hgraph : ∀ e, skip = some e → (∃ b, graph P st st.keyCnt e root b) ∨
      ∀ u v, ¬ graph P st st.keyCnt e u v := fun e he =>
    (hskip e he).imp_right fun hle _ _ hg => absurd hg.1 (Nat.not_lt_of_le hle)
  obtain ⟨D, hD, hS⟩ := h.traversal hsh skip hroot hgraph (fun D t => D ++ [t]) []
  rw [List.foldl_append_eq_append, List.nil_append, ← List.flatMap_def,
    List.flatMap_singleton'] at hD
  exact ⟨D, Spans.onceEach hS, fun _ => traversal_foldl hD, traversal_foldl hD visit s⟩

omit hsh in
theorem onceEach_isolated {root : ℕ} {D : List (Visit ℕ ℕ)} (hroot : root < nodes st)
    (hnone : st.head.getD root none = none) (honce : OnceEach P st none root D) : D = [] := by
  cases D with
  | nil => rfl
  | cons t D =>
    have hlink := (honce.mem_iff t.child).mp (by simp)
    have hwhole : Linked (graph P st st.keyCnt) root t.child :=
      (linked_congr (fun e u v => and_iff_left (Option.some_ne_none e)) root t.child).mp hlink
    rw [linked_alone (Linking.isolated h hroot hnone)] at hwhole
    have hnodup := honce.nodup
    simp [hwhole] at hnodup

end Forest

section Shapes

variable (fillValue fillIndex keepDigest : Bool)

theorem fixHalfTreeDFS_loop (keyId hb : ℕ) {root : ℕ} (hA : root < st.ma) :
    ∃ x ix mem indMem y,
      fixHalfTreeDFS P fillValue fillIndex keepDigest st keyId root hb = (do
        let st' ← traversal st (some keyId) (halfEnds P st fillValue root hb).1
          (fixVisit P fillValue fillIndex keepDigest x ix)
          { st with mem := mem, indMem := indMem }
        return (y, st')) := by
  simp only [fixHalfTreeDFS, if_neg (Nat.not_le_of_lt hA), swapEnds_parts, fillSingle_parts]
  exact ⟨_, _, _, _, _, rfl⟩

theorem fixHalfTreeDFS_on_demand_loop (keyId hb : ℕ) {root : ℕ} (hA : root < st.ma)
    (flipped_index : List ℕ) :
    ∃ x ix mem indMem flipped y,
      fixHalfTreeDFS_on_demand P fillValue fillIndex keepDigest st keyId root hb flipped_index =
        (do
          let next ← traversal st (some keyId) (halfEnds P st fillValue root hb).1
            (fixVisit_on_demand P fillValue fillIndex keepDigest x ix)
            ({ st with mem := mem, indMem := indMem }, flipped)
          return (y, next.1, next.2)) := by
  simp only [fixHalfTreeDFS_on_demand, if_neg (Nat.not_le_of_lt hA), swapEnds_parts,
    fillSingle_parts]
  exact ⟨_, _, _, _, _, _, rfl⟩

end Shapes

theorem halfEnds_or (P : Setup K) (st : Othello K) (fillValue : Bool) (keyId : ℕ) :
    (halfEnds P st fillValue (ends P st keyId).1 (ends P st keyId).2).1 = (ends P st keyId).1 ∨
      (halfEnds P st fillValue (ends P st keyId).1 (ends P st keyId).2).1 = (ends P st keyId).2 :=
  (halfEnds_cases P st fillValue _ _).imp (congrArg Prod.fst) (congrArg Prod.fst)

section Forest

variable (hsh : Shape P st) (h : Linking P st st.keyCnt)
include hsh h

theorem half_ends {keyId root : ℕ} (hk : keyId < st.keyCnt)
    (hroot : root = (ends P st keyId).1 ∨ root = (ends P st keyId).2) {σ : Type}
    (visit : σ → Visit ℕ ℕ → σ) (s : σ) :
    Ends P st (some keyId) root visit s (traversal st (some keyId) root visit s) := by
  have hedge : ∃ b, graph P st st.keyCnt keyId root b := by
    rcases hroot with rfl | rfl
    · exact ⟨_, graph_ends P st hk⟩
    · exact ⟨_, (undirected_graph P st st.keyCnt).symm (graph_ends P st hk)⟩
  obtain ⟨b, hb⟩ := hedge
  apply traversal_ends hsh h (hsh.graph_lt hb).1
  intro e he
  obtain rfl := Option.some.inj he
  exact Or.inl ⟨b, hb⟩

theorem connect_ends {root : ℕ} (hroot : root < nodes st) :
    ∃ st₁ st' flipped, Ends P st none root (connectVisit root) st₁ (.ok st') ∧
      connect P st root = .ok (st', flipped) := by
  obtain ⟨D, honce, hacts, hD⟩ := traversal_ends hsh h hroot skips_none (connectVisit root)
    { st with connectivityForest := DisjointSet.set st.connectivityForest root root }
  by_cases hnone : st.head.getD root none = none
  case pos =>
    obtain rfl := onceEach_isolated h hroot hnone honce
    simp only [connect, hnone, if_true]
    exact ⟨_, _, _, ⟨[], honce, hacts, rfl⟩, rfl⟩
  case neg =>
    refine ⟨{ st with connectivityForest := DisjointSet.set st.connectivityForest root root }, _,
      [], ⟨D, honce, hacts, rfl⟩, ?_⟩
    simp only [connect, hnone, if_false]
    exact congrArg (fun r => r >>= fun st' => Except.ok (st', [])) hD

theorem loopsEnd_of_forest : LoopsEnd P st where
  fillTreeDFS fillValue fillIndex keepDigest root hroot := by
    rw [fillTreeDFS, if_pos hroot]
    exact traversal_ends hsh h (hroot.trans_le (Nat.le_add_right _ _)) skips_none _ _
  fillTreeB fillValue fillIndex keepDigest root _ hroot :=
    traversal_ends hsh h hroot skips_none _ _
  fixHalfTreeDFS fillValue fillIndex keepDigest keyId hk := by
    have hroot := halfEnds_or P st fillValue keyId
    obtain ⟨x, ix, mem, indMem, y, hrun⟩ := fixHalfTreeDFS_loop fillValue fillIndex keepDigest
      keyId (ends P st keyId).2 (hsh.ends_bounds keyId).1
    obtain ⟨D, honce, hacts, hD⟩ := half_ends hsh h hk hroot
      (fixVisit P fillValue fillIndex keepDigest x ix) { st with mem := mem, indMem := indMem }
    rw [hD] at hrun
    exact ⟨_, x, ix, _, y, _, hroot, ⟨D, honce, hacts, rfl⟩, hrun⟩
  fixHalfTreeDFS_on_demand fillValue fillIndex keepDigest keyId hk flipped_index := by
    have hroot := halfEnds_or P st fillValue keyId
    obtain ⟨x, ix, mem, indMem, flipped, y, hrun⟩ := fixHalfTreeDFS_on_demand_loop fillValue
      fillIndex keepDigest keyId (ends P st keyId).2 (hsh.ends_bounds keyId).1 flipped_index
    obtain ⟨D, honce, hacts, hD⟩ := half_ends hsh h hk hroot
      (fixVisit_on_demand P fillValue fillIndex keepDigest x ix)
      ({ st with mem := mem, indMem := indMem }, flipped)
    rw [hD] at hrun
    exact ⟨_, x, ix, _, y, _, hroot, ⟨D, honce, hacts, rfl⟩, hrun⟩
  getConnectedComponent skip root hroot hskip := by
    apply traversal_ends hsh h hroot
    intro e he
    obtain rfl := Option.some.inj he
    exact hskip
  connectBFS root hroot := by
    obtain ⟨st₁, st', flipped, ⟨D, honce, hacts, hD⟩, hrun⟩ := connect_ends hsh h hroot
    refine ⟨st₁, D, honce, hacts, ?_⟩
    rw [connectBFS_eq, hrun, ← hD]
    rfl
  connectBFS_on_demand root hroot flipped_index := by
    obtain ⟨st₁, st', flipped, hends, hrun⟩ := connect_ends hsh h hroot
    refine ⟨st₁, st', flipped_index ++ flipped, hends, ?_⟩
    rw [connectBFS_on_demand_eq, hrun]
    rfl

theorem searchesEnd_of_forest {keyId : ℕ} (hk : keyId < st.keyCnt) : SearchesEnd P st keyId := by
  obtain ⟨n, hcnt⟩ : ∃ n, st.keyCnt = n + 1 := ⟨st.keyCnt - 1, by omega⟩
  rw [hcnt] at h hk
  rcases Nat.lt_or_eq_of_le (Nat.le_of_lt_succ hk) with hlt | rfl
  · obtain ⟨head₁, nextA, head₂, nextB, head₃, nextA', head₄, nextB', hu₁, hu₂, hr₁, hr₂, -⟩ :=
      Linking.lastMoved hsh h hlt
    refine ⟨head₁, nextA, head₂, nextB, hu₁, hu₂, fun last hlast _ => ?_⟩
    obtain rfl : last = n := by omega
    exact ⟨head₃, nextA', head₄, nextB', hr₁, hr₂⟩
  · obtain ⟨head₁, nextA, head₂, nextB, hu₁, hu₂, -⟩ := Linking.lastDropped hsh h
    exact ⟨head₁, nextA, head₂, nextB, hu₁, hu₂, fun last hlast hne => absurd (by omega) hne⟩

end Forest

inductive Try (P : Setup K) (st : Othello K) : Othello K → Prop
  | first : Try P st { st with hab := P.rand st.draws, draws := st.draws + 1 }
  | next {st₁ st₂} : Try P st st₁ → tryBuild P st₁ = .ok (false, st₂) →
      Try P st { st₂ with hab := P.rand st₂.draws, draws := st₂.draws + 1 }

section Runs

variable [DecidableEq K]

def Roomy (P : Setup K) (st st₁ : Othello K) : Prop :=
  (st₁ = st ∧ st.keyCnt < st.keys.length) ∨ makeRoom P st = .ok (true, st₁)

/-- The states that are given to `build`: by `resizeKey`, by the constructor and by an `insert`
that meets a cycle. -/
inductive Building (P : Setup K) : Othello K → Prop
  | constructing {scaledCapacity hd draws} :
      addressable P P.maintainDP (nextMaOf (scaledCapacity + 1)) (scaledCapacity + 1) = true →
      Building P (grown P (blank P scaledCapacity hd draws) (scaledCapacity + 1)
        (scaledCapacity + 1))
  | constructed {scaledCapacity hd draws} {st : Othello K} :
      resizeKey P (blank P scaledCapacity hd draws) 0 true = .ok (true, st) →
      Building P (resetBuildState P st)
  | resize {st : Othello K} {nextMb} : Reachable P st →
      nextMbOf st (max (st.keyCnt + 1) st.minimalKeyCapacity) false = some nextMb →
      addressable P st.maintainingDP (nextMaOf nextMb) nextMb = true →
      Building P (grown P st (max (st.keyCnt + 1) st.minimalKeyCapacity) nextMb)
  | cycle {st : Othello K} {st₁ kv st₂} : Reachable P st → Roomy P st st₁ →
      isConnectedDFS P (storeKey st₁ st₁.keyCnt kv) (getIndices P st₁ kv.1).1
        (getIndices P st₁ kv.1).2 = .ok (true, st₂) → Building P st₂

/-- The states in which the operations of a run start a loop. -/
inductive LoopState (P : Setup K) : Othello K → Prop
  /-- `getConnectedComponent`, and what is about to erase -/
  | idle {st : Othello K} : Reachable P st → LoopState P st
  /-- what the loops write and do not read: `updateValueAt`, `prepareDP` and `compose` change
  these before, and a loop leaves them to the next one -/
  | data {st : Othello K} {mem indMem values connectivityForest maintainingDP} : LoopState P st →
      indMem.length = st.indMem.length → values.length = st.values.length →
      connectivityForest.length = st.connectivityForest.length →
      LoopState P { st with
        mem := mem, indMem := indMem, values := values, connectivityForest := connectivityForest
        maintainingDP := maintainingDP }
  /-- `insert` and `insert_on_demand` -/
  | linked {st : Othello K} {st₁ kv st₂ st₃} : Reachable P st → Roomy P st st₁ →
      isConnectedDFS P (storeKey st₁ st₁.keyCnt kv) (getIndices P st₁ kv.1).1
        (getIndices P st₁ kv.1).2 = .ok (false, st₂) →
      addEdge st₂ st₁.keyCnt (getIndices P st₁ kv.1).1 (getIndices P st₁ kv.1).2 = .ok st₃ →
      LoopState P st₃
  /-- `erase` and `erase_on_demand` of the last key -/
  | dropped {st : Othello K} {n head₁ nextA head₂ nextB} : Reachable P st → st.keyCnt = n + 1 →
      unlinkCell st.head st.nextAtA (ends P st n).1 n = some (head₁, nextA) →
      unlinkCell head₁ st.nextAtB (ends P st n).2 n = some (head₂, nextB) →
      LoopState P (lastDropped st n head₂ nextA nextB)
  /-- and of another one -/
  | moved {st : Othello K} {n keyId head₁ nextA head₂ nextB head₃ nextA' head₄ nextB'} :
      Reachable P st → st.keyCnt = n + 1 → keyId < n →
      unlinkCell st.head st.nextAtA (ends P st keyId).1 keyId = some (head₁, nextA) →
      unlinkCell head₁ st.nextAtB (ends P st keyId).2 keyId = some (head₂, nextB) →
      renameCell head₂ nextA (ends P st n).1 n keyId (ends P st n).2 = some (head₃, nextA') →
      renameCell head₃ nextB (ends P st n).2 n keyId (ends P st n).1 = some (head₄, nextB') →
      LoopState P (lastMoved st n keyId head₄ nextA' nextB')
  /-- `fillValue` in `tryBuild` -/
  | tested {st : Othello K} {st₁ st₂} : Building P st → Try P st st₁ →
      testHash P (resetBuildState P st₁) = .ok (true, st₂) → LoopState P st₂

omit [DecidableEq K] in
theorem Roomy.consistent {st₁ : Othello K} (h : Roomy P st st₁)
    (hc : Consistent P st st.keyCnt) :
    Consistent P st₁ st₁.keyCnt ∧ st₁.keyCnt < st₁.keys.length := by
  rcases h with ⟨rfl, hlt⟩ | hmake
  · exact ⟨hc, hlt⟩
  · obtain ⟨hcons, -, -, hlt⟩ := hc.makeRoom_spec hmake
    exact ⟨hcons, hlt⟩

theorem Building.shape (h : Building P st) : Shape P st ∧ MemFits P st := by
  cases h with
  | @constructing scaledCapacity hd draws hadd =>
    obtain ⟨harrays, -⟩ := (keyArrays_blank P scaledCapacity hd draws).reserve
      (Nat.zero_le (scaledCapacity + 1))
    exact ⟨harrays.shape (nextMaOf_pos (Nat.succ_pos _)) (Nat.succ_pos _),
      memFits_grown _ _ hadd⟩
  | @constructed scaledCapacity hd draws st₁ hrun =>
    have hpos : 0 < max 0 (blank P scaledCapacity hd draws).minimalKeyCapacity :=
      lt_max_of_lt_right (Nat.succ_pos _)
    obtain ⟨nextMb, hmb, ⟨-, -, hsh, hz, -⟩ | ⟨hno, -⟩⟩ :=
      (keyArrays_blank P scaledCapacity hd draws).resizeKey_spec hpos (Nat.zero_le _) hrun
    · exact ⟨hsh.reset, hz.reset⟩
    · exact absurd (Or.inl (nextMaOf_pos (hpos.trans_le (nextMbOf_ge hmb)))) hno
  | @resize st₁ nextMb hr hmb hadd =>
    have hle : st₁.keyCnt ≤ max (st₁.keyCnt + 1) st₁.minimalKeyCapacity :=
      le_max_of_le_left (Nat.le_succ _)
    have hpos : 0 < nextMb :=
      (lt_max_of_lt_left (Nat.succ_pos _)).trans_le (nextMbOf_ge hmb)
    obtain ⟨harrays, -⟩ := hr.sound.keyArrays.reserve hle
    exact ⟨harrays.shape (nextMaOf_pos hpos) hpos, memFits_grown _ _ hadd⟩
  | @cycle st₀ st₁ kv _ hr hroom hconn =>
    obtain ⟨hc, hlt⟩ := hroom.consistent hr.sound.toConsistent
    obtain ⟨connected, st₂, hconn₂, -, hcons, -⟩ := hc.store_link hlt kv
    obtain ⟨-, rfl⟩ := Prod.mk.inj (Except.ok.inj (hconn₂.symm.trans hconn))
    refine ⟨hcons.toShape, fun hm => hcons.cells.sized ?_⟩
    exact hcons.cells.maintaining.symm.trans hm

omit [DecidableEq K] in
theorem Try.shape {st₁ : Othello K} (h : Try P st st₁) (hsh : Shape P st) (hz : MemFits P st) :
    Shape P st₁ ∧ MemFits P st₁ := by
  have hdraw : ∀ {st : Othello K} hab draws, Shape P st → MemFits P st →
      Shape P { st with hab := hab, draws := draws } ∧
        MemFits P { st with hab := hab, draws := draws } := fun _ _ hsh hz =>
    ⟨{ ma_pos := hsh.ma_pos, mb_pos := hsh.mb_pos, indMem := hsh.indMem, head := hsh.head
       forest := hsh.forest, values := hsh.values, nextAtA := hsh.nextAtA
       nextAtB := hsh.nextAtB, keyCnt := hsh.keyCnt }, hz⟩
  induction h with
  | first => exact hdraw _ _ hsh hz
  | next _ hrun ih =>
    obtain ⟨built, st₂, hrun₂, hsh₂, hz₂, -⟩ := ih.1.tryBuild_spec ih.2
    obtain ⟨-, rfl⟩ := Prod.mk.inj (Except.ok.inj (hrun₂.symm.trans hrun))
    exact hdraw _ _ hsh₂ hz₂

omit [DecidableEq K] in
theorem linked_forest (h : Consistent P st st.keyCnt) (hlt : st.keyCnt < st.keys.length)
    {kv : K × ℕ} {st₁ st₂ : Othello K}
    (hconn : isConnectedDFS P (storeKey st st.keyCnt kv) (getIndices P st kv.1).1
      (getIndices P st kv.1).2 = .ok (false, st₁))
    (hadd : addEdge st₁ st.keyCnt (getIndices P st kv.1).1 (getIndices P st kv.1).2 = .ok st₂) :
    Shape P st₂ ∧ Linking P st₂ st₂.keyCnt := by
  obtain ⟨connected, st', hconn', honly, hcons, hiff, -⟩ := h.store_link hlt kv
  obtain ⟨rfl, rfl⟩ := Prod.mk.inj (Except.ok.inj (hconn'.symm.trans hconn))
  obtain ⟨hends, hlen⟩ := h.searched_ends hlt honly
  obtain ⟨hA, hB, hBn⟩ := hcons.ends_bounds st.keyCnt
  have hAn : (ends P st' st.keyCnt).1 < nodes st' := by omega
  obtain ⟨-, -, forest, hmerge, hforest, -⟩ := DisjointSet.merge_spec hcons.valid
    (hcons.forest.symm ▸ hAn) (hcons.forest.symm ▸ hBn)
  have hsep : ¬ Linked (graph P st' st.keyCnt) (ends P st' st.keyCnt).1
      (ends P st' st.keyCnt).2 := by
    rw [hends, graph_same honly.tables honly.map, linked_congr (graph_storeKey P st kv)]
    exact fun hl => absurd (hiff.mpr hl) Bool.false_ne_true
  rw [← hends, addEdge_eq st' hmerge] at hadd
  obtain rfl := Except.ok.inj hadd
  have hcnt : st'.keyCnt = st.keyCnt + 1 := honly.map.keyCnt
  have hlink := Linking.edge_added hcons.toShape hcons.linking hlen hsep forest
  rw [← hcnt] at hlink
  exact ⟨hcons.toShape.edge_added _ _ _ (hforest.trans hcons.forest), hlink⟩

theorem LoopState.forest (h : LoopState P st) : Shape P st ∧ Linking P st st.keyCnt := by
  induction h with
  | idle hr => exact ⟨hr.sound.toShape, hr.sound.linking⟩
  | data _ hind hvalues hforest ih =>
    obtain ⟨hsh, hl⟩ := ih
    exact ⟨{ ma_pos := hsh.ma_pos, mb_pos := hsh.mb_pos, indMem := hind.trans hsh.indMem
             head := hsh.head, forest := hforest.trans hsh.forest
             values := hvalues.trans hsh.values, nextAtA := hsh.nextAtA
             nextAtB := hsh.nextAtB, keyCnt := hsh.keyCnt },
      ⟨hl.n_le, hl.listsA, hl.listsB, hl.acyclic⟩⟩
  | @linked st st₁ kv st₂ st₃ hr hroom hconn hadd =>
    obtain ⟨hc, hlt⟩ := hroom.consistent hr.sound.toConsistent
    exact linked_forest hc hlt hconn hadd
  | @dropped st n head₁ nextA head₂ nextB hr hcnt hu₁ hu₂ =>
    have hl := hr.sound.linking
    rw [hcnt] at hl
    obtain ⟨h₁, a, h₂, b, hu₁', hu₂', hsh', hl'⟩ := Linking.lastDropped hr.sound.toShape hl
    obtain ⟨rfl, rfl⟩ := Prod.mk.inj (Option.some.inj (hu₁'.symm.trans hu₁))
    obtain ⟨rfl, rfl⟩ := Prod.mk.inj (Option.some.inj (hu₂'.symm.trans hu₂))
    exact ⟨hsh', hl'⟩
  | @moved st n keyId head₁ nextA head₂ nextB head₃ nextA' head₄ nextB' hr hcnt hk hu₁ hu₂ hr₁
      hr₂ =>
    have hl := hr.sound.linking
    rw [hcnt] at hl
    obtain ⟨h₁, a, h₂, b, h₃, a', h₄, b', hu₁', hu₂', hr₁', hr₂', hsh', hl'⟩ :=
      Linking.lastMoved hr.sound.toShape hl hk
    obtain ⟨rfl, rfl⟩ := Prod.mk.inj (Option.some.inj (hu₁'.symm.trans hu₁))
    obtain ⟨rfl, rfl⟩ := Prod.mk.inj (Option.some.inj (hu₂'.symm.trans hu₂))
    obtain ⟨rfl, rfl⟩ := Prod.mk.inj (Option.some.inj (hr₁'.symm.trans hr₁))
    obtain ⟨rfl, rfl⟩ := Prod.mk.inj (Option.some.inj (hr₂'.symm.trans hr₂))
    exact ⟨hsh', hl'⟩
  | @tested st st₁ st₂ hb htry htest =>
    obtain ⟨hsh, hz⟩ := hb.shape
    obtain ⟨hsh₁, -⟩ := htry.shape hsh hz
    obtain ⟨succ, st', hrun, -, -, -, hsucc⟩ := hsh₁.tested_reset.testHashFrom
      (m := (resetBuildState P st₁).keyCnt) (Nat.zero_add _)
    obtain ⟨rfl, rfl⟩ := Prod.mk.inj (Except.ok.inj (hrun.symm.trans htest))
    exact ⟨(hsucc rfl).toShape, (hsucc rfl).linking⟩

/-- In every run: the stack loops visit each node of their component once and stop, and the
searches for a predecessor find it. -/
theorem run_loops_end (P : Setup K) :
    (∀ st, LoopState P st → LoopsEnd P st) ∧
      ∀ st, Reachable P st → ∀ keyId < st.keyCnt, SearchesEnd P st keyId := by
  refine ⟨fun st h => ?_, fun st h keyId hk => ?_⟩
  · obtain ⟨hsh, hl⟩ := h.forest
    exact loopsEnd_of_forest hsh hl
  · exact searchesEnd_of_forest h.sound.toShape h.sound.linking hk

theorem run_loops_end_path : ∃ (st : Othello ℕ) (i : ℕ),
    OthelloRun.Reached pathSetup st (asked pathKeys fun _ => none) ∧ i < st.keyCnt ∧
    keyAt st i = 2 ∧ LoopsEnd pathSetup st ∧ SearchesEnd pathSetup st i := by
  obtain ⟨st, h⟩ := pathSetup_reached
  obtain ⟨-, hrep⟩ := h.represents ⟨rfl, rfl, rfl⟩
  obtain ⟨i, hi, hkey, -⟩ := (hrep 2 1).mp rfl
  have hr := Reachable.of_reached h
  exact ⟨st, i, h, hi, hkey, (run_loops_end _).1 st (.idle hr), (run_loops_end _).2 st hr i hi⟩

end Runs

end OthelloLoops
