import TinyCR.ControlPlaneOthello

/-! # The two copies of the operations

Fixing a half tree, repairing the disjoint set and erasing are written twice in the source,
plain and with a flip log. Here each is one function that returns the log; the plain copy
drops it and the on-demand copy appends it to the log it got. -/
namespace ControlPlaneOthello

open PackedCells EdgeForest IntrusiveLists

variable {K : Type} [Inhabited K] (P : Setup K)

omit [Inhabited K] in
theorem traversal_map {σ τ : Type} (f : σ → τ) (visit : σ → Visit ℕ ℕ → σ)
    {visit' : τ → Visit ℕ ℕ → τ} (hf : ∀ s t, f (visit s t) = visit' (f s) t) (st : Othello K)
    (prev : Option ℕ) (root : ℕ) (s : σ) :
    traversal st prev root visit' (f s) = (traversal st prev root visit s).map f := by
  rw [traversal, traversal, traverse_map f hf]
  cases traverse (adjacent st) visit st.head.length [(prev, root)] s <;> rfl

theorem append_log (log : List ℕ) (node : ℕ) (c : Prop) [Decidable c] :
    (if c then log ++ [node] else log) = log ++ if c then [node] else [] := by
  split
  · rfl
  · exact (List.append_nil _).symm

section Fill

variable (fillValue fillIndex keepDigest : Bool)

/-- The xor template, the state and the nodes whose memory changed. -/
def fixHalfTree (st : Othello K) (keyId root hb : ℕ) :
    Except Fault (BitVec 64 × Othello K × List ℕ) := do
  if st.ma ≤ root then throw .assertion
  let (st, root, hb, swapped) := swapEnds P fillValue st root hb
  let x := if fillValue then readNode P keepDigest st root else 0
  let ix := if fillIndex then st.indMem.getD root 0 else 0
  let pre_root_value := memGet P.toConfig st.mem root
  let st := fillSingle P fillValue fillIndex keepDigest st keyId root hb
  let post_root_value := memGet P.toConfig st.mem root
  let flipped := if pre_root_value ≠ post_root_value then [root] else []
  let x := if fillValue then x ^^^ readNode P keepDigest st root else 0
  let ix := if fillIndex then ix ^^^ st.indMem.getD root 0 else 0
  let (st, flipped) ← traversal st (some keyId) root
    (fun (st, flipped) t => (fixSingle P fillValue fillIndex keepDigest st t.child x ix,
      if x ≠ 0 then flipped ++ [t.child] else flipped)) (st, flipped)
  return (if swapped then -x else x, st, flipped)

theorem fixHalfTreeDFS_eq (st : Othello K) (keyId root hb : ℕ) :
    fixHalfTreeDFS P fillValue fillIndex keepDigest st keyId root hb = (do
      let (x, st, _) ← fixHalfTree P fillValue fillIndex keepDigest st keyId root hb
      return (x, st)) := by
  simp only [fixHalfTreeDFS, fixHalfTree]
  by_cases hroot : st.ma ≤ root
  case pos =>
    simp only [if_pos hroot]
    rfl
  case neg =>
    simp only [if_neg hroot]
    obtain ⟨st, root, hb, swapped⟩ := swapEnds P fillValue st root hb
    dsimp only [pure_bind]
    generalize fillSingle P fillValue fillIndex keepDigest st keyId root hb = st₁
    generalize (if fillValue = true then _ else (0 : BitVec 64)) = x
    generalize (if fillIndex = true then _ else (0 : ℕ)) = ix
    generalize (if memGet P.toConfig st.mem root ≠ _ then _ else ([] : List ℕ)) = flipped
    rw [traversal_map Prod.fst (fun (p : Othello K × List ℕ) t =>
        (fixSingle P fillValue fillIndex keepDigest p.1 t.child x ix,
          if x ≠ 0 then p.2 ++ [t.child] else p.2)) (fun _ _ => rfl) st₁ (some keyId) root
      (st₁, flipped)]
    cases traversal st₁ (some keyId) root _ (st₁, flipped) <;> rfl

theorem fixHalfTreeDFS_on_demand_eq (st : Othello K) (keyId root hb : ℕ)
    (flipped_index : List ℕ) :
    fixHalfTreeDFS_on_demand P fillValue fillIndex keepDigest st keyId root hb flipped_index =
      (do
        let (x, st, flipped) ← fixHalfTree P fillValue fillIndex keepDigest st keyId root hb
        return (x, st, flipped_index ++ flipped)) := by
  simp only [fixHalfTreeDFS_on_demand, fixHalfTree]
  by_cases hroot : st.ma ≤ root
  case pos =>
    simp only [if_pos hroot]
    rfl
  case neg =>
    simp only [if_neg hroot]
    obtain ⟨st, root, hb, swapped⟩ := swapEnds P fillValue st root hb
    dsimp only [pure_bind]
    generalize fillSingle P fillValue fillIndex keepDigest st keyId root hb = st₁
    generalize (if fillValue = true then _ else (0 : BitVec 64)) = x
    generalize (if fillIndex = true then _ else (0 : ℕ)) = ix
    rw [append_log]
    generalize (if memGet P.toConfig st.mem root ≠ _ then _ else ([] : List ℕ)) = flipped
    rw [traversal_map (fun p : Othello K × List ℕ => (p.1, flipped_index ++ p.2))
      (fun p t => (fixSingle P fillValue fillIndex keepDigest p.1 t.child x ix,
        if x ≠ 0 then p.2 ++ [t.child] else p.2)) (fun s t => ?_) st₁ (some keyId) root
      (st₁, flipped)]
    · cases traversal st₁ (some keyId) root _ (st₁, flipped) <;> rfl
    · refine Prod.ext rfl ?_
      by_cases hx : x ≠ 0
      · simp only [if_pos hx, List.append_assoc]
      · simp only [if_neg hx]

end Fill

def connect (st : Othello K) (root : ℕ) : Except Fault (Othello K × List ℕ) :=
  let st := { st with connectivityForest := DisjointSet.set st.connectivityForest root root }
  if st.head.getD root none = none then
    let pre_root_value := (memGet P.toConfig st.mem root).setWidth 32
    let st :=
      if st.maintainingDP then
        let cleared := memGet P.toConfig st.mem root &&& (BitVec.allOnes 64 <<< 1)
        { st with mem := memSet P.toConfig st.mem root cleared }
      else st
    let post_root_value := (memGet P.toConfig st.mem root).setWidth 32
    .ok (st, if pre_root_value ≠ post_root_value then [root] else [])
  else do
    let st ← traversal st none root (fun st t => { st with
      connectivityForest := DisjointSet.set st.connectivityForest t.child root }) st
    return (st, [])

omit [Inhabited K] in
theorem connectBFS_eq (st : Othello K) (root : ℕ) : connectBFS P st root = (do
    let (st, _) ← connect P st root
    return st) := by
  simp only [connectBFS, connect]
  split
  · split <;> rfl
  · cases traversal _ none root _ _ <;> rfl

omit [Inhabited K] in
theorem connectBFS_on_demand_eq (st : Othello K) (root : ℕ) (flipped_index : List ℕ) :
    connectBFS_on_demand P st root flipped_index = (do
      let (st, flipped) ← connect P st root
      return (st, flipped_index ++ flipped)) := by
  simp only [connectBFS_on_demand, connect, append_log]
  split
  · rfl
  · cases traversal _ none root _ _ with
    | error f => rfl
    | ok st => exact congrArg (fun l => Except.ok (st, l)) (List.append_nil _).symm

def moveLast (st : Othello K) (keyId : ℕ) : Except Fault (Othello K × List ℕ) := do
  let lastKey := keyAt st st.keyCnt
  let st := { st with
    keys := st.keys.set keyId lastKey
    values := st.values.set keyId (st.values.getD st.keyCnt 0) }
  let (hal, hbl) := getIndices P st lastKey
  let (head, nextAtA) ← orOutOfBounds (renameCell st.head st.nextAtA hal st.keyCnt keyId hbl)
  let (head, nextAtB) ← orOutOfBounds (renameCell head st.nextAtB hbl st.keyCnt keyId hal)
  let st := { st with head := head, nextAtA := nextAtA, nextAtB := nextAtB }
  let (_, st, flipped) ← fixHalfTree P false true true st keyId hal hbl
  return (st, flipped)

/-- Takes the key with ends `ha` and `hb` out of the lists and the arrays. -/
def detach (st : Othello K) (ha hb keyId : ℕ) : Except Fault (Othello K × List ℕ) := do
  let st := { st with keyCnt := st.keyCnt - 1 }
  let (head, nextAtA) ← orOutOfBounds (unlinkCell st.head st.nextAtA ha keyId)
  let (head, nextAtB) ← orOutOfBounds (unlinkCell head st.nextAtB hb keyId)
  let st := { st with head := head, nextAtA := nextAtA, nextAtB := nextAtB }
  if keyId ≠ st.keyCnt then moveLast P st keyId else return (st, [])

def eraseId (st : Othello K) (k : K) (keyId : ℕ) : Except Fault (Othello K × List ℕ) := do
  let (ha, hb) := getIndices P st k
  let (st, flipped) ← detach P st ha hb keyId
  if P.maintainDisjointSet then
    let (st, flippedA) ← connect P st ha
    let (st, flippedB) ← connect P st hb
    return (st, flipped ++ flippedA ++ flippedB)
  return (st, flipped)

theorem eraseKey_eq (st : Othello K) (k : K) (keyId : ℕ) : eraseKey P st k keyId = (do
    let (st, _) ← eraseId P st k keyId
    return st) := by
  simp only [eraseKey, eraseId, detach, moveLast, fixHalfTreeDFS_eq, connectBFS_eq]
  by_cases hlast : keyId ≠ st.keyCnt - 1
  · by_cases hset : P.maintainDisjointSet = true
    · simp only [if_pos hlast, if_pos hset, bind_assoc, pure_bind]
    · simp only [if_pos hlast, if_neg hset, bind_assoc, pure_bind]
  · by_cases hset : P.maintainDisjointSet = true
    · simp only [if_neg hlast, if_pos hset, bind_assoc, pure_bind]
    · simp only [if_neg hlast, if_neg hset, bind_assoc, pure_bind]

theorem eraseKey_on_demand_eq (st : Othello K) (k : K) (keyId : ℕ) (flipped_index : List ℕ) :
    eraseKey_on_demand P st k keyId flipped_index = (do
      let (st, flipped) ← eraseId P st k keyId
      return (st, flipped_index ++ flipped)) := by
  simp only [eraseKey_on_demand, eraseId, detach, moveLast, fixHalfTreeDFS_on_demand_eq,
    connectBFS_on_demand_eq]
  by_cases hlast : keyId ≠ st.keyCnt - 1
  · by_cases hset : P.maintainDisjointSet = true
    · simp only [if_pos hlast, if_pos hset, bind_assoc, pure_bind, List.append_assoc]
    · simp only [if_pos hlast, if_neg hset, bind_assoc, pure_bind]
  · by_cases hset : P.maintainDisjointSet = true
    · simp only [if_neg hlast, if_pos hset, bind_assoc, pure_bind, List.append_assoc,
        List.nil_append]
    · simp only [if_neg hlast, if_neg hset, bind_assoc, pure_bind, List.append_nil]

section Erase

variable {P} [DecidableEq K] {st : Othello K} {k : K} (flipped_index : List ℕ)

theorem erase_missed
    (hk : queryIndex P st k ≥ st.keyCnt ∨ keyAt st (queryIndex P st k) ≠ k) :
    erase P st k = .ok st ∧
      erase_on_demand P st k flipped_index = .ok (st, flipped_index ++ []) := by
  simp only [erase, erase_on_demand, if_pos hk, List.append_nil]
  exact ⟨rfl, rfl⟩

theorem erase_found {st' : Othello K} {flipped : List ℕ}
    (hk : ¬ (queryIndex P st k ≥ st.keyCnt ∨ keyAt st (queryIndex P st k) ≠ k))
    (hrun : eraseId P st k (queryIndex P st k) = .ok (st', flipped)) :
    erase P st k = .ok st' ∧
      erase_on_demand P st k flipped_index = .ok (st', flipped_index ++ flipped) := by
  simp only [erase, erase_on_demand, if_neg hk, eraseKey_eq, eraseKey_on_demand_eq, hrun, ok_bind]
  exact ⟨rfl, rfl⟩

end Erase

end ControlPlaneOthello
