import TinyCR.DisjointSet
import TinyCR.EdgeForest
import TinyCR.IntrusiveLists
import TinyCR.PackedCells

/-! # `ControlPlaneOthello`

The class of control_plane_othello.h with `randomized = false`. Keys are edges of a
bipartite graph on the `ma + mb` nodes; the adjacency lists are threaded through `head`,
`nextAtA` and `nextAtB`, and -1 (here `none`) ends a list. -/
namespace ControlPlaneOthello

open PackedCells EdgeForest IntrusiveLists

/-- Where a run of the code stops being defined. -/
inductive Fault
  | assertion
  | exception
  | outOfBounds
  | diverge
  deriving DecidableEq, Repr

/-- The template arguments, the two seeded hash functions and the seeds `build` draws. -/
structure Setup (K : Type) extends Config where
  hab : BitVec 64 → K → BitVec 64
  hd : BitVec 32 → K → BitVec 32
  rand : ℕ → BitVec 64

theorem Setup.cells_fit {K : Type} (P : Setup K) : P.L + P.DL ≤ 60 := P.vdl_le

theorem Setup.values_fit {K : Type} (P : Setup K) : P.L ≤ P.vBits := P.l_le

theorem bit_cells_fit : 1 + 0 ≤ 60 := by decide

theorem bit_values_fit : 1 ≤ 8 := by decide

@[simp] theorem ok_bind {α β : Type} (a : α) (f : α → Except Fault β) :
    (Except.ok a >>= f) = f a := rfl

theorem of_bind_ok {α β : Type} {x : Except Fault α} {f : α → Except Fault β} {b : β}
    (h : x >>= f = .ok b) : ∃ a, x = .ok a ∧ f a = .ok b := by
  cases x with
  | error e => cases h
  | ok a => exact ⟨a, rfl, h⟩

structure OthelloCPCell where
  keyId : ℕ
  nodeId : ℕ
  deriving DecidableEq, Repr

structure Othello (K : Type) where
  mem : List (BitVec 64)
  ma : ℕ
  mb : ℕ
  hab : BitVec 64
  hd : BitVec 32
  maintainingDP : Bool
  keyCnt : ℕ
  minimalKeyCapacity : ℕ
  keys : List K
  values : List ℕ
  indMem : List ℕ
  head : List (Option OthelloCPCell)
  nextAtA : List (Option OthelloCPCell)
  nextAtB : List (Option OthelloCPCell)
  connectivityForest : DisjointSet.Mem
  /-- how many seeds were drawn -/
  draws : ℕ

def MAX_REHASH : ℕ := 50

variable {K : Type} [DecidableEq K] [Inhabited K] (P : Setup K)

def resized {α : Type} (l : List α) (n : ℕ) (pad : α) : List α :=
  l.take n ++ List.replicate (n - l.length) pad

/-- `(x * y) >> 32` on 32-bit numbers. -/
def multiplyHigh (x y : ℕ) : ℕ := x * y / 2 ^ 32

def getIndices (st : Othello K) (k : K) : ℕ × ℕ :=
  let hash := (P.hab st.hab k).toNat
  (multiplyHigh (hash % 2 ^ 32) st.ma, multiplyHigh (hash / 2 ^ 32) st.mb + st.ma)

def queryIndex (st : Othello K) (k : K) : ℕ :=
  let (ha, hb) := getIndices P st k
  st.indMem.getD ha 0 ^^^ st.indMem.getD hb 0

def query (st : Othello K) (k : K) : Option ℕ :=
  if P.maintainDP then
    let (ha, hb) := getIndices P st k
    let aa := (memGet P.toConfig st.mem ha).setWidth P.vBits
    let bb := (memGet P.toConfig st.mem hb).setWidth P.vBits
    some ((aa ^^^ bb).toNat >>> P.DL)
  else
    let index := queryIndex P st k
    if index ≥ st.values.length then none else some (st.values.getD index 0)

def isMember (st : Othello K) (x : K) : Bool :=
  let index := queryIndex P st x
  decide (index < st.keyCnt) && st.keys.getD index default == x

def keyAt (st : Othello K) (keyId : ℕ) : K := st.keys.getD keyId default

def valueAt (st : Othello K) (keyId : ℕ) : BitVec 64 := BitVec.ofNat 64 (st.values.getD keyId 0)

def nextKeyOfThisKey (st : Othello K) (nid : ℕ) (keyId : ℕ) : Option OthelloCPCell :=
  (if nid < st.ma then st.nextAtA else st.nextAtB).getD keyId none

def adjacent (st : Othello K) (nid : ℕ) : Option (List (ℕ × ℕ)) :=
  (walk OthelloCPCell.keyId (nextKeyOfThisKey st nid) st.keys.length (st.head.getD nid none)).map
    (List.map fun cell => (cell.keyId, cell.nodeId))

/-- The stack loop the traversals share; `prev` is the edge to the root that is skipped. -/
def traversal {σ : Type} (st : Othello K) (prev : Option ℕ) (root : ℕ)
    (visit : σ → Visit ℕ ℕ → σ) (s : σ) : Except Fault σ :=
  match traverse (adjacent st) visit st.head.length [(prev, root)] s with
  | some s => .ok s
  | none => .error .diverge

def addEdge (st : Othello K) (key ha hb : ℕ) : Except Fault (Othello K) :=
  let nextAtA := st.nextAtA.set key (st.head.getD ha none)
  let head := st.head.set ha (some ⟨key, hb⟩)
  let nextAtB := st.nextAtB.set key (head.getD hb none)
  let head := head.set hb (some ⟨key, ha⟩)
  match DisjointSet.merge st.connectivityForest ha hb with
  | some connectivityForest =>
    .ok { st with
      head := head, nextAtA := nextAtA, nextAtB := nextAtB,
      connectivityForest := connectivityForest }
  | none => .error .diverge

def isConnectedDFS (st : Othello K) (ha0 hb0 : ℕ) : Except Fault (Bool × Othello K) :=
  if P.maintainDisjointSet then
    match DisjointSet.sameSet st.connectivityForest ha0 hb0 with
    | some (same, connectivityForest) =>
      .ok (same, { st with connectivityForest := connectivityForest })
    | none => .error .diverge
  else if ha0 = hb0 then .ok (true, st)
  else do
    let found ← traversal st none ha0 (fun found t => found || t.child == hb0) false
    return (found, st)

def getConnectedComponent (st : Othello K) (skip root : ℕ) : Except Fault (List ℕ) :=
  traversal st (some skip) root (fun result t => result ++ [t.child]) []

/-- `values[keyId] << DL`, shifted as an `int` when `V` is shorter, then widened. -/
def shiftedValue (value : ℕ) : BitVec 64 :=
  let shifted := BitVec.ofNat (max 32 P.vBits) value <<< P.DL
  if P.vBits < 32 then shifted.signExtend 64 else shifted.setWidth 64

section Fill

variable (fillValue fillIndex keepDigest : Bool)

def readNode (st : Othello K) (node : ℕ) : BitVec 64 :=
  if keepDigest then memValueGet P.toConfig st.mem node else memGet P.toConfig st.mem node

def fillSingle (st : Othello K) (keyId nodeToFill oppositeNode : ℕ) : Othello K :=
  let st :=
    if fillValue && st.maintainingDP then
      if keepDigest then
        let valueToFill := valueAt st keyId ^^^ memValueGet P.toConfig st.mem oppositeNode
        { st with mem := memValueSet P.toConfig st.mem nodeToFill valueToFill }
      else if P.DL ≠ 0 then
        let digest := (P.hd st.hd (keyAt st keyId)).setWidth 64 &&& P.DEMASK
        let vd := shiftedValue P (st.values.getD keyId 0) ||| digest
        let valueToFill := (vd ^^^ memGet P.toConfig st.mem oppositeNode) ||| 1#64
        { st with mem := memSet P.toConfig st.mem nodeToFill valueToFill }
      else
        let valueToFill := valueAt st keyId ^^^ memGet P.toConfig st.mem oppositeNode
        { st with mem := memSet P.toConfig st.mem nodeToFill valueToFill }
    else st
  if fillIndex then
    { st with indMem := st.indMem.set nodeToFill (keyId ^^^ st.indMem.getD oppositeNode 0) }
  else st

def fixSingle (st : Othello K) (nodeToFix : ℕ) (x : BitVec 64) (ix : ℕ) : Othello K :=
  let st :=
    if fillValue && P.maintainDP then
      if keepDigest then
        let valueToFill := x ^^^ memValueGet P.toConfig st.mem nodeToFix
        { st with mem := memValueSet P.toConfig st.mem nodeToFix valueToFill }
      else
        let valueToFill := x ^^^ memGet P.toConfig st.mem nodeToFix
        { st with mem := memSet P.toConfig st.mem nodeToFix valueToFill }
    else st
  if fillIndex then
    { st with indMem := st.indMem.set nodeToFix (ix ^^^ st.indMem.getD nodeToFix 0) }
  else st

def fillTreeDFS (st : Othello K) (root : ℕ) : Except Fault (Othello K) :=
  if root < st.ma then
    traversal st none root
      (fun st t => fillSingle P fillValue fillIndex keepDigest st t.edge t.child t.parent) st
  else .error .assertion

/-- With digests: which end of the new edge is fixed, and whether they were swapped. -/
def swapEnds (st : Othello K) (root hb : ℕ) : Othello K × ℕ × ℕ × Bool :=
  let rootVal := memGet P.toConfig st.mem root
  let hbVal := memGet P.toConfig st.mem hb
  if fillValue && decide (P.DL ≠ 0) && hbVal &&& 1#64 == 0#64 then
    let st := { st with mem := memSet P.toConfig st.mem hb (hbVal ||| 1#64) }
    if rootVal &&& 1#64 == 1#64 then (st, hb, root, true) else (st, root, hb, false)
  else (st, root, hb, false)

/-- The xor template, negated if the ends were swapped. -/
def fixHalfTreeDFS (st : Othello K) (keyId root hb : ℕ) :
    Except Fault (BitVec 64 × Othello K) := do
  if st.ma ≤ root then throw .assertion
  let (st, root, hb, swapped) := swapEnds P fillValue st root hb
  let x := if fillValue then readNode P keepDigest st root else 0
  let ix := if fillIndex then st.indMem.getD root 0 else 0
  let st := fillSingle P fillValue fillIndex keepDigest st keyId root hb
  let x := if fillValue then x ^^^ readNode P keepDigest st root else 0
  let ix := if fillIndex then ix ^^^ st.indMem.getD root 0 else 0
  let st ← traversal st (some keyId) root
    (fun st t => fixSingle P fillValue fillIndex keepDigest st t.child x ix) st
  return (if swapped then -x else x, st)

/-- The copy of `fixHalfTreeDFS` that logs the nodes whose memory changed. -/
def fixHalfTreeDFS_on_demand (st : Othello K) (keyId root hb : ℕ) (flipped_index : List ℕ) :
    Except Fault (BitVec 64 × Othello K × List ℕ) := do
  if st.ma ≤ root then throw .assertion
  let (st, root, hb, swapped) := swapEnds P fillValue st root hb
  let x := if fillValue then readNode P keepDigest st root else 0
  let ix := if fillIndex then st.indMem.getD root 0 else 0
  let pre_root_value := memGet P.toConfig st.mem root
  let st := fillSingle P fillValue fillIndex keepDigest st keyId root hb
  let post_root_value := memGet P.toConfig st.mem root
  let flipped_index :=
    if pre_root_value ≠ post_root_value then flipped_index ++ [root] else flipped_index
  let x := if fillValue then x ^^^ readNode P keepDigest st root else 0
  let ix := if fillIndex then ix ^^^ st.indMem.getD root 0 else 0
  let (st, flipped_index) ← traversal st (some keyId) root
    (fun (st, flipped_index) t => (fixSingle P fillValue fillIndex keepDigest st t.child x ix,
      if x ≠ 0 then flipped_index ++ [t.child] else flipped_index)) (st, flipped_index)
  return (if swapped then -x else x, st, flipped_index)

end Fill

def connectBFS (st : Othello K) (root : ℕ) : Except Fault (Othello K) :=
  let st := { st with connectivityForest := DisjointSet.set st.connectivityForest root root }
  if st.head.getD root none = none then
    if st.maintainingDP then
      let cleared := memGet P.toConfig st.mem root &&& (BitVec.allOnes 64 <<< 1)
      .ok { st with mem := memSet P.toConfig st.mem root cleared }
    else .ok st
  else
    traversal st none root (fun st t => { st with
      connectivityForest := DisjointSet.set st.connectivityForest t.child root }) st

/-- The copy of `connectBFS` that logs a cleared node; it compares 32 bits. -/
def connectBFS_on_demand (st : Othello K) (root : ℕ) (flipped_index : List ℕ) :
    Except Fault (Othello K × List ℕ) :=
  let st := { st with connectivityForest := DisjointSet.set st.connectivityForest root root }
  if st.head.getD root none = none then
    let pre_root_value := (memGet P.toConfig st.mem root).setWidth 32
    let st :=
      if st.maintainingDP then
        let cleared := memGet P.toConfig st.mem root &&& (BitVec.allOnes 64 <<< 1)
        { st with mem := memSet P.toConfig st.mem root cleared }
      else st
    let post_root_value := (memGet P.toConfig st.mem root).setWidth 32
    .ok (st, if pre_root_value ≠ post_root_value then flipped_index ++ [root] else flipped_index)
  else do
    let st ← traversal st none root (fun st t => { st with
      connectivityForest := DisjointSet.set st.connectivityForest t.child root }) st
    return (st, flipped_index)

/-! ### build -/

def resetBuildState (st : Othello K) : Othello K :=
  { st with
    mem := if st.maintainingDP then
        (List.range (st.ma + st.mb)).foldl (fun mem i => memSet P.toConfig mem i 0) st.mem
      else st.mem
    head := st.head.map fun _ => none
    nextAtA := st.nextAtA.map fun _ => none
    nextAtB := st.nextAtB.map fun _ => none
    connectivityForest := DisjointSet.reset st.connectivityForest }

def testHashFrom (st : Othello K) (i : ℕ) : ℕ → Except Fault (Bool × Othello K)
  | 0 => .ok (true, st)
  | n + 1 =>
    let (ha, hb) := getIndices P st (keyAt st i)
    match DisjointSet.sameSet st.connectivityForest ha hb with
    | none => .error .diverge
    | some (same, connectivityForest) =>
      let st := { st with connectivityForest := connectivityForest }
      if same then .ok (false, st)
      else do
        let st ← addEdge st i ha hb
        testHashFrom st (i + 1) n

def testHash (st : Othello K) : Except Fault (Bool × Othello K) := testHashFrom P st 0 st.keyCnt

def fillValueFrom (keepDigest : Bool) (st : Othello K) (i : ℕ) : ℕ → Except Fault (Othello K)
  | 0 => .ok st
  | n + 1 =>
    if DisjointSet.isRoot st.connectivityForest i then do
      let st :=
        if P.DL ≠ 0 ∧ st.maintainingDP = true then
          { st with mem := memSet P.toConfig st.mem i 1 }
        else st
      let st ← fillTreeDFS P true true keepDigest st i
      fillValueFrom keepDigest st (i + 1) n
    else fillValueFrom keepDigest st (i + 1) n

def fillValue (keepDigest : Bool) (st : Othello K) : Except Fault (Othello K) :=
  fillValueFrom P keepDigest st 0 (st.ma + st.mb)

def tryBuild (st : Othello K) : Except Fault (Bool × Othello K) := do
  let st := resetBuildState P st
  if st.keyCnt = 0 then return (true, st)
  let (succ, st) ← testHash P st
  if succ then
    let st ← fillValue P false st
    return (true, st)
  return (false, st)

/-- The tries of `build`, at most `n`; `false` is its `throw exception()`. -/
def buildFrom (st : Othello K) : ℕ → Except Fault (Bool × Othello K)
  | 0 => .ok (false, st)
  | n + 1 => do
    let st := { st with hab := P.rand st.draws, draws := st.draws + 1 }
    let (built, st) ← tryBuild P st
    if built then return (true, st)
    buildFrom st n

def build (st : Othello K) : Except Fault (Bool × Othello K) := buildFrom P st MAX_REHASH

/-- `while (nextMb < targetCapacity) nextMb <<= 1;` on `uint32_t`, which can reach 0. -/
def growMb (targetCapacity : ℕ) : ℕ → ℕ → Option ℕ
  | 0, _ => none
  | fuel + 1, nextMb =>
    if nextMb < targetCapacity then growMb targetCapacity fuel ((nextMb <<< 1) % 2 ^ 32)
    else some nextMb

/-- `uint32_t(1.33334 * nextMb)`, read as exact. -/
def nextMaOf (nextMb : ℕ) : ℕ := 133334 * nextMb / 100000

/-- Node numbers are 32 bits wide, and so are bit numbers where cells are kept: `resetBuildState`
would leave `mem` in a larger table. -/
def addressable (maintainingDP : Bool) (ma mb : ℕ) : Bool :=
  decide (ma + mb < 2 ^ 32 ∧ (maintainingDP = true → (ma + mb) * P.VDL + 63 < 2 ^ 32))

/-- The number of words `memResize` makes, a 32-bit product. -/
def memWords (n : ℕ) : ℕ := (n * P.VDL + 63) % 2 ^ 32 / 64

def reserveKeys (st : Othello K) (targetCapacity : ℕ) : Othello K :=
  if targetCapacity > st.keys.length then
    let keyCntReserve := max 256 (targetCapacity * 2)
    { st with
      keys := resized st.keys keyCntReserve default
      values := resized st.values keyCntReserve 0
      nextAtA := resized st.nextAtA keyCntReserve (some ⟨0, 0⟩)
      nextAtB := resized st.nextAtB keyCntReserve (some ⟨0, 0⟩) }
  else st

def resizeTables (st : Othello K) (nextMa nextMb : ℕ) : Othello K :=
  let n := nextMa + nextMb
  { st with
    ma := nextMa
    mb := nextMb
    mem := if st.maintainingDP then resized st.mem (memWords P n) 0 else st.mem
    indMem := resized st.indMem n 0
    head := resized st.head n (some ⟨0, 0⟩)
    connectivityForest := DisjointSet.resize st.connectivityForest n }

def resizeKey (st : Othello K) (targetCapacity : ℕ) (compact : Bool) :
    Except Fault (Bool × Othello K) := do
  let targetCapacity := max targetCapacity st.minimalKeyCapacity
  if targetCapacity < st.keyCnt then return (false, st)
  let nextMb ←
    if compact then pure targetCapacity
    else
      match growMb targetCapacity 33 st.minimalKeyCapacity with
      | some nextMb => pure nextMb
      | none => throw .diverge
  let nextMa := nextMaOf nextMb
  let st := reserveKeys st targetCapacity
  if nextMa > st.ma ∨ 5 * nextMa < 4 * st.ma then
    if !addressable P st.maintainingDP nextMa nextMb then throw .outOfBounds
    build P (resizeTables P st nextMa nextMb)
  else return (true, st)

/-- The constructor; `scaledCapacity` is `(uint32_t)(keyCapacity * o_ratio)`, `draws` the
number of seeds drawn before. -/
def construct (scaledCapacity : ℕ) (hd : BitVec 32) (draws : ℕ) :
    Except Fault (Bool × Othello K) := do
  let st : Othello K :=
    { mem := [], ma := 0, mb := 0, hab := P.rand draws, hd := hd, maintainingDP := P.maintainDP,
      keyCnt := 0, minimalKeyCapacity := scaledCapacity + 1, keys := [], values := [],
      indMem := [], head := [], nextAtA := [], nextAtB := [], connectivityForest := [],
      draws := draws + 1 }
  let (ok, st) ← resizeKey P st 0 true
  if ok then build P (resetBuildState P st)
  else return (false, st)

def setMinimalKeyCapacity (st : Othello K) (minimalKeyCapacity : ℕ) :
    Except Fault (Bool × Othello K) :=
  resizeKey P { st with minimalKeyCapacity := minimalKeyCapacity } 0 false

def clear (st : Othello K) : Except Fault (Bool × Othello K) :=
  setMinimalKeyCapacity P { st with keyCnt := 0 } 0

/-! ### insert -/

def storeKey (st : Othello K) (lastIndex : ℕ) (kv : K × ℕ) : Othello K :=
  { st with
    keyCnt := st.keyCnt + 1
    keys := st.keys.set lastIndex kv.1
    values := st.values.set lastIndex kv.2 }

/-- The xor template, or `none` for an exception. -/
def insert (DoNotRebuild : Bool) (st : Othello K) (kv : K × ℕ) :
    Except Fault (Option (BitVec 64) × Othello K) := do
  if isMember P st kv.1 then throw .assertion
  let lastIndex := st.keyCnt
  let (ok, st) ←
    if st.keyCnt + 1 ≥ st.keys.length ∨ st.keyCnt ≥ st.mb then resizeKey P st (st.keyCnt + 1) false
    else pure (true, st)
  if !ok then return (none, st)
  if st.keys.length ≤ lastIndex then throw .outOfBounds
  let st := storeKey st lastIndex kv
  let (ha, hb) := getIndices P st kv.1
  let (connected, st) ← isConnectedDFS P st ha hb
  if connected then
    if DoNotRebuild then return (none, { st with keyCnt := st.keyCnt - 1 })
    let (built, st) ← build P st
    return (if built then some (1 <<< P.VDL) else none, st)
  let st ← addEdge st lastIndex ha hb
  let (x, st) ← fixHalfTreeDFS P P.maintainDP true false st (st.keyCnt - 1) ha hb
  return (some x, st)

/-- `false`: a rebuild is necessary. -/
def insert_on_demand (st : Othello K) (kv : K × ℕ) (flipped_index : List ℕ) :
    Except Fault (Bool × Othello K × List ℕ) := do
  if isMember P st kv.1 then throw .assertion
  let lastIndex := st.keyCnt
  if st.keys.length ≤ lastIndex then throw .outOfBounds
  let st := storeKey st lastIndex kv
  let (ha, hb) := getIndices P st kv.1
  let (connected, st) ← isConnectedDFS P st ha hb
  if connected then return (false, st, flipped_index)
  let st ← addEdge st lastIndex ha hb
  let (_, st, flipped_index) ←
    fixHalfTreeDFS_on_demand P P.maintainDP true false st (st.keyCnt - 1) ha hb flipped_index
  return (true, st, flipped_index)

def updateValueAt (st : Othello K) (keyId : ℕ) (val : ℕ) :
    Except Fault (BitVec 64 × Othello K) := do
  if keyId ≥ st.keyCnt then throw .exception
  let st := { st with values := st.values.set keyId val }
  if P.maintainDP then
    let (ha, hb) := getIndices P st (keyAt st keyId)
    fixHalfTreeDFS P true false true st keyId ha hb
  else return (0, st)

def updateValueAt_on_demand (st : Othello K) (keyId : ℕ) (val : ℕ) (flipped_index : List ℕ) :
    Except Fault (BitVec 64 × Othello K × List ℕ) := do
  if keyId ≥ st.keyCnt then throw .exception
  let st := { st with values := st.values.set keyId val }
  if P.maintainDP then
    let (ha, hb) := getIndices P st (keyAt st keyId)
    fixHalfTreeDFS_on_demand P true false true st keyId ha hb flipped_index
  else return (0, st, flipped_index)

def valueFlip (st : Othello K) (kv : K × ℕ) : Except Fault (Othello K) := do
  let (_, st) ← updateValueAt P st (queryIndex P st kv.1) kv.2
  return st

def valueFlip_on_demand (st : Othello K) (kv : K × ℕ) (flipped_index : List ℕ) :
    Except Fault (Othello K × List ℕ) := do
  let (_, st, flipped_index) ←
    updateValueAt_on_demand P st (queryIndex P st kv.1) kv.2 flipped_index
  return (st, flipped_index)

/-! ### erase -/

/-- Takes edge `keyId` out of the list at `node`: `head[node]` or its predecessor skips it. -/
def unlinkCell (head next : List (Option OthelloCPCell)) (node keyId : ℕ) :
    Option (List (Option OthelloCPCell) × List (Option OthelloCPCell)) := do
  let cell ← head.getD node none
  if cell.keyId = keyId then return (head.set node (next.getD keyId none), next)
  let t ← findPrev OthelloCPCell.keyId (fun i => next.getD i none) keyId next.length cell.keyId
  return (head, next.set t (next.getD keyId none))

def renameCell (head next : List (Option OthelloCPCell)) (node last keyId opposite : ℕ) :
    Option (List (Option OthelloCPCell) × List (Option OthelloCPCell)) := do
  let next := next.set keyId (next.getD last none)
  let cell ← head.getD node none
  if cell.keyId = last then return (head.set node (some ⟨keyId, opposite⟩), next)
  let t ← findPrev OthelloCPCell.keyId (fun i => next.getD i none) last next.length cell.keyId
  return (head, next.set t (some ⟨keyId, opposite⟩))

/-- A list search that meets the end marker reads `next[-1]`. -/
def orOutOfBounds {α : Type} : Option α → Except Fault α
  | some a => .ok a
  | none => .error .outOfBounds

def eraseKey (st : Othello K) (k : K) (keyId : ℕ) : Except Fault (Othello K) := do
  let (ha, hb) := getIndices P st k
  let st := { st with keyCnt := st.keyCnt - 1 }
  let (head, nextAtA) ← orOutOfBounds (unlinkCell st.head st.nextAtA ha keyId)
  let (head, nextAtB) ← orOutOfBounds (unlinkCell head st.nextAtB hb keyId)
  let st := { st with head := head, nextAtA := nextAtA, nextAtB := nextAtB }
  let st ←
    if keyId ≠ st.keyCnt then do
      let lastKey := keyAt st st.keyCnt
      let st := { st with
        keys := st.keys.set keyId lastKey
        values := st.values.set keyId (st.values.getD st.keyCnt 0) }
      let (hal, hbl) := getIndices P st lastKey
      let (head, nextAtA) ← orOutOfBounds (renameCell st.head st.nextAtA hal st.keyCnt keyId hbl)
      let (head, nextAtB) ← orOutOfBounds (renameCell head st.nextAtB hbl st.keyCnt keyId hal)
      let st := { st with head := head, nextAtA := nextAtA, nextAtB := nextAtB }
      let (_, st) ← fixHalfTreeDFS P false true true st keyId hal hbl
      pure st
    else pure st
  if P.maintainDisjointSet then do
    let st ← connectBFS P st ha
    connectBFS P st hb
  else pure st

def eraseKey_on_demand (st : Othello K) (k : K) (keyId : ℕ) (flipped_index : List ℕ) :
    Except Fault (Othello K × List ℕ) := do
  let (ha, hb) := getIndices P st k
  let st := { st with keyCnt := st.keyCnt - 1 }
  let (head, nextAtA) ← orOutOfBounds (unlinkCell st.head st.nextAtA ha keyId)
  let (head, nextAtB) ← orOutOfBounds (unlinkCell head st.nextAtB hb keyId)
  let st := { st with head := head, nextAtA := nextAtA, nextAtB := nextAtB }
  let (st, flipped_index) ←
    if keyId ≠ st.keyCnt then do
      let lastKey := keyAt st st.keyCnt
      let st := { st with
        keys := st.keys.set keyId lastKey
        values := st.values.set keyId (st.values.getD st.keyCnt 0) }
      let (hal, hbl) := getIndices P st lastKey
      let (head, nextAtA) ← orOutOfBounds (renameCell st.head st.nextAtA hal st.keyCnt keyId hbl)
      let (head, nextAtB) ← orOutOfBounds (renameCell head st.nextAtB hbl st.keyCnt keyId hal)
      let st := { st with head := head, nextAtA := nextAtA, nextAtB := nextAtB }
      let (_, st, flipped_index) ←
        fixHalfTreeDFS_on_demand P false true true st keyId hal hbl flipped_index
      pure (st, flipped_index)
    else pure (st, flipped_index)
  if P.maintainDisjointSet then do
    let (st, flipped_index) ← connectBFS_on_demand P st ha flipped_index
    connectBFS_on_demand P st hb flipped_index
  else pure (st, flipped_index)

def erase (st : Othello K) (k : K) : Except Fault (Othello K) := do
  let keyId := queryIndex P st k
  if keyId ≥ st.keyCnt ∨ keyAt st keyId ≠ k then return st
  eraseKey P st k keyId

def erase_on_demand (st : Othello K) (k : K) (flipped_index : List ℕ) :
    Except Fault (Othello K × List ℕ) := do
  let keyId := queryIndex P st k
  if keyId ≥ st.keyCnt ∨ keyAt st keyId ≠ k then return (st, flipped_index)
  eraseKey_on_demand P st k keyId flipped_index

def eraseAt (st : Othello K) (keyId : ℕ) : Except Fault (Othello K) := do
  if keyId ≥ st.keyCnt then throw .exception
  eraseKey P st (keyAt st keyId) keyId

def memResize (st : Othello K) : Othello K :=
  if st.maintainingDP then
    { st with mem := resized st.mem (memWords P (st.ma + st.mb)) 0 }
  else st

def prepareDP (st : Othello K) : Except Fault (Othello K) := do
  if P.maintainDP then return st
  let st ← fillValue P false (memResize P { st with maintainingDP := true })
  return { st with maintainingDP := false }

/-- The loop of `compose` from key `i` on; `(uint16_t) -1` erases a key. -/
def composeFrom (migration : ℕ → Option ℕ) (st : Othello K) (i : ℕ) : ℕ → Except Fault (Othello K)
  | 0 => .error .diverge
  | fuel + 1 =>
    if i < st.keyCnt then
      match migration (st.values.getD i 0) with
      | none => composeFrom migration st (i + 1) fuel
      | some dst =>
        if dst = 2 ^ 16 - 1 then do
          let st ← eraseAt P st i
          composeFrom migration st i fuel
        else composeFrom migration { st with values := st.values.set i dst } (i + 1) fuel
    else .ok st

def compose (st : Othello K) (migration : ℕ → Option ℕ) : Except Fault (Othello K) := do
  let st ← composeFrom P migration st 0 (st.keyCnt + 1)
  if st.maintainingDP then fillValue P true st else return st

def checkIntegrity (st : Othello K) : Prop :=
  ∀ i, i < st.keyCnt → queryIndex P st (keyAt st i) = i ∧
    ∃ q, query P st (keyAt st i) = some q ∧
      BitVec.ofNat 64 q &&& P.VMASK = valueAt st i &&& P.VMASK

end ControlPlaneOthello
