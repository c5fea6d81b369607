import TinyCR.OthelloRun
import TinyCR.VacuumFilter
import Mathlib.Data.Finset.Basic

/-! # `DASS_Tracker` and `DASS_Verifier`

The server keeps the positive keys in a vacuum filter and in an Othello the positive keys
and those negative keys the filter takes for positive. The device holds the filter and the
data plane of the Othello, and replays the flips the server logs. -/
namespace DASSTracker

open ControlPlaneOthello VacuumFilter

/-- The template arguments of `DASS_Tracker<K, V>`, what it calls outside the repository and
the results of its `float` computations. `ele` is the conversion of a key to `uint64_t`. -/
structure TrackerSetup (K E : Type) where
  vBits : ℕ
  one_le : 1 ≤ vBits
  hab : BitVec 64 → K → BitVec 64
  hdHash : BitVec 32 → K → BitVec 32
  rand : ℕ → BitVec 64
  randHd : ℕ → BitVec 32
  hash : HashUtil
  engine : RandomEngine E
  properAltRange : ℕ → ℕ → ℤ
  ele : K → BitVec 64
  /-- `int((log2(1/optimal_fpr)+2)/0.95)+1` from the key counts -/
  fp_length : ℕ → ℕ → ℤ
  /-- `(uint32_t)(keyCapacity * o_ratio)` -/
  scaledCapacity : ℕ → ℕ

variable {K E : Type}

/-- `ControlPlaneOthello<K, V, 1, 0>` -/
def TrackerSetup.othello (S : TrackerSetup K E) : Setup K where
  L := 1
  DL := 0
  vBits := S.vBits
  maintainDP := true
  maintainDisjointSet := true
  vdl_le := bit_cells_fit
  l_le := S.one_le
  hab := S.hab
  hd := S.hdHash
  rand := S.rand

structure Tracker (K E : Type) where
  othello : Othello K
  vf : VacuumFilter.Filter E
  PK : Finset K
  NK : Finset K
  n_positive_keys : ℕ
  n_negative_keys : ℕ
  TNK_table : ℕ → List K
  FPK_table : ℕ → List K
  fp_len : ℕ

variable [DecidableEq K] [Inhabited K] (S : TrackerSetup K E)

/-- `[0xffffffff]`: a rebuild is needed. -/
def rebuildMarker : List ℕ := [0xffffffff]

def optimal_fp_len (n_positive_keys n_negative_keys : ℕ) : ℕ :=
  let fp_length := S.fp_length n_positive_keys n_negative_keys
  (if fp_length < 4 then 4 else fp_length).toNat

/-- `m = (uint64_t)(n / b / 0.95); m += m & 1` with `b = 4`, read as exact. -/
def bucketCount (n : ℕ) : ℕ :=
  let m := n / 4 * 20 / 19
  m + (m &&& 1)

def initFilter (f : VacuumFilter.Filter E) (n fp_len : ℕ) : VacuumFilter.Filter E :=
  VacuumFilter.init S.engine S.properAltRange f (bucketCount n) 4 400 fp_len

def init (t : Tracker K E) (n_positive_keys n_negative_keys : ℕ) : Tracker K E :=
  let n_positive_keys := n_positive_keys % 2 ^ 32
  let n_negative_keys := n_negative_keys % 2 ^ 32
  let fp_len := optimal_fp_len S n_positive_keys n_negative_keys
  { t with
    n_positive_keys := n_positive_keys
    n_negative_keys := n_negative_keys
    fp_len := fp_len
    vf := initFilter S t.vf n_positive_keys fp_len
    TNK_table := fun _ => []
    FPK_table := fun _ => [] }

def lookup (t : Tracker K E) (k : K) : Bool := VacuumFilter.lookup S.hash t.vf (S.ele k)

def position_pair (t : Tracker K E) (k : K) : ℕ × ℕ := positionPair S.hash t.vf (S.ele k)

def pushBack (table : ℕ → List K) (pos : ℕ) (k : K) : ℕ → List K :=
  Function.update table pos (table pos ++ [k])

def record (table : ℕ → List K) (pos : ℕ × ℕ) (k : K) : ℕ → List K :=
  pushBack (pushBack table pos.1 k) pos.2 k

/-- `table[pos].erase(remove(..., k), table[pos].end())` at both positions. -/
def removeAt (table : ℕ → List K) (pos : ℕ) (k : K) : ℕ → List K :=
  Function.update table pos ((table pos).filter (· ≠ k))

def unrecord (table : ℕ → List K) (pos : ℕ × ℕ) (k : K) : ℕ → List K :=
  removeAt (removeAt table pos.1 k) pos.2 k

/-- The loop over the positive keys; `false` when the filter is too full. -/
def insertPositives (t : Tracker K E) : List K → Bool × Tracker K E
  | [] => (true, t)
  | k :: positive_keys =>
    let (ok, vf) := VacuumFilter.insert S.hash S.engine t.vf (S.ele k)
    if ok = 1 then (false, { t with vf := vf })
    else insertPositives { t with vf := vf, PK := insert k t.PK } positive_keys

def recordNegatives (t : Tracker K E) (FPK : List K) : List K → Tracker K E × List K
  | [] => (t, FPK)
  | k :: negative_keys =>
    let pos_pair := position_pair S t k
    let NK := insert k t.NK
    if lookup S t k then
      recordNegatives { t with NK := NK, FPK_table := record t.FPK_table pos_pair k } (FPK ++ [k])
        negative_keys
    else
      recordNegatives { t with NK := NK, TNK_table := record t.TNK_table pos_pair k } FPK
        negative_keys

def insertAll (st : Othello K) : List (K × ℕ) → Except Fault (Othello K)
  | [] => .ok st
  | kv :: kvs =>
    match ControlPlaneOthello.insert S.othello false st kv with
    | .error f => .error f
    | .ok (none, _) => .error .exception
    | .ok (some _, st) => insertAll st kvs

def buildOthello (t : Tracker K E) (positive_keys FPK : List K) : Except Fault (Othello K) := do
  let (ok, st) ← construct S.othello (S.scaledCapacity (t.n_positive_keys + FPK.length))
    (S.randHd t.othello.draws) t.othello.draws
  if !ok then throw .exception
  insertAll S st (positive_keys.map (fun k => (k, 1)) ++ FPK.map fun k => (k, 0))

/-- Every try needs one more fingerprint bit; `n` bounds the tries. -/
def batch_insert (n : ℕ) (t : Tracker K E) (positive_keys negative_keys : List K) :
    Except Fault (Bool × Tracker K E) :=
  match n with
  | 0 => .error .diverge
  | n + 1 =>
    if t.n_positive_keys ≠ positive_keys.length ∨ t.n_negative_keys ≠ negative_keys.length then
      .ok (true, t)
    else
      match insertPositives S t positive_keys with
      | (false, t) =>
        let fp_len := t.fp_len + 1
        let t := { t with
          PK := ∅, NK := ∅, fp_len := fp_len, vf := initFilter S t.vf t.n_positive_keys fp_len }
        (batch_insert n t positive_keys negative_keys).map fun r => (false, r.2)
      | (true, t) =>
        let (t, FPK) := recordNegatives S t [] negative_keys
        (buildOthello S t positive_keys FPK).map fun othello =>
          (true, { t with othello := othello })

/-- `positive_keys` and `negative_keys` enumerate the unordered sets `PK` and `NK`. -/
def rebuild (n : ℕ) (t : Tracker K E) (positive_keys negative_keys : List K) :
    Except Fault (Bool × Tracker K E) :=
  let t := { t with PK := ∅, NK := ∅ }
  let t := init S t positive_keys.length negative_keys.length
  batch_insert S n t positive_keys negative_keys

/-- The loop over `TNK_table[pos]`: a key the filter now takes for positive moves to
`FPK_table[pos]` and into the Othello. `kept` is the part that stays. -/
def promoteLoop (check : Bool) (t : Tracker K E) (pos : ℕ) (flipped : List ℕ) (kept : List K) :
    List K → Except Fault (Bool × Tracker K E × List ℕ)
  | [] => .ok (true, { t with TNK_table := Function.update t.TNK_table pos kept }, flipped)
  | k :: rest =>
    if lookup S t k then
      let t := { t with FPK_table := pushBack t.FPK_table pos k }
      if check && isMember S.othello t.othello k then promoteLoop check t pos flipped kept rest
      else
        match insert_on_demand S.othello t.othello (k, 0) flipped with
        | .error f => .error f
        | .ok (false, othello, flipped) =>
          .ok (false, { t with
            othello := othello
            TNK_table := Function.update t.TNK_table pos (kept ++ rest) }, flipped)
        | .ok (true, othello, flipped) =>
          promoteLoop check { t with othello := othello } pos flipped kept rest
    else promoteLoop check t pos flipped (kept ++ [k]) rest

def promote (check : Bool) (t : Tracker K E) (pos : ℕ) (flipped : List ℕ) :
    Except Fault (Bool × Tracker K E × List ℕ) :=
  promoteLoop S check t pos flipped [] (t.TNK_table pos)

/-- The loop over `FPK_table[pos]`: a key the filter no longer holds moves to `TNK_table[pos]`
and out of the Othello. -/
def demoteLoop (t : Tracker K E) (pos : ℕ) (flipped : List ℕ) (kept : List K) :
    List K → Except Fault (Tracker K E × List ℕ)
  | [] => .ok ({ t with FPK_table := Function.update t.FPK_table pos kept }, flipped)
  | k :: rest =>
    if lookup S t k then demoteLoop t pos flipped (kept ++ [k]) rest
    else
      let t := { t with TNK_table := pushBack t.TNK_table pos k }
      if isMember S.othello t.othello k then
        match erase_on_demand S.othello t.othello k flipped with
        | .error f => .error f
        | .ok (othello, flipped) => demoteLoop { t with othello := othello } pos flipped kept rest
      else demoteLoop t pos flipped kept rest

def demote (t : Tracker K E) (pos : ℕ) (flipped : List ℕ) :
    Except Fault (Tracker K E × List ℕ) :=
  demoteLoop S t pos flipped [] (t.FPK_table pos)

def query (t : Tracker K E) (k : K) : ℕ :=
  if lookup S t k then (ControlPlaneOthello.query S.othello t.othello k).getD 0 else 0

def finishInsert (t : Tracker K E) (kv : K × ℕ) (flipped : List ℕ) :
    Except Fault (List ℕ × Tracker K E) := do
  let (is_success, othello, flipped) ← insert_on_demand S.othello t.othello kv flipped
  return (if is_success then flipped else rebuildMarker, { t with othello := othello })

/-- Both promotion loops after `vf.insert`; `none` asks for a rebuild. -/
def promoteBoth (t : Tracker K E) (pos_pair : ℕ × ℕ) :
    Except Fault (Option (List ℕ) × Tracker K E) := do
  let (ok, t, flipped) ← promote S false t pos_pair.1 []
  if !ok then return (none, t)
  let (ok, t, flipped) ← promote S true t pos_pair.2 flipped
  return (if ok then some flipped else none, t)

def insert (t : Tracker K E) (kv : K × ℕ) : Except Fault (List ℕ × Tracker K E) := do
  if kv.2 = 1 then
    let t := { t with PK := Insert.insert kv.1 t.PK }
    let (full, vf) := VacuumFilter.insert S.hash S.engine t.vf (S.ele kv.1)
    let t := { t with vf := vf }
    if full = 1 then return (rebuildMarker, t)
    match ← promoteBoth S t (position_pair S t kv.1) with
    | (none, t) => return (rebuildMarker, t)
    | (some flipped, t) => finishInsert S t kv flipped
  else
    let t := { t with NK := Insert.insert kv.1 t.NK }
    if lookup S t kv.1 then
      let t := { t with FPK_table := record t.FPK_table (position_pair S t kv.1) kv.1 }
      finishInsert S t kv []
    else
      let t := { t with TNK_table := record t.TNK_table (position_pair S t kv.1) kv.1 }
      return ([], t)

/-- `setValue` from 1 to 0. -/
def changeToNegative (t : Tracker K E) (kv : K × ℕ) : Except Fault (List ℕ × Tracker K E) := do
  let t := { t with PK := t.PK.erase kv.1, NK := Insert.insert kv.1 t.NK }
  let t := { t with vf := (del S.hash t.vf (S.ele kv.1)).2 }
  let pos_pair := position_pair S t kv.1
  let (t, flipped) ← demote S t pos_pair.1 []
  let (t, flipped) ← demote S t pos_pair.2 flipped
  if lookup S t kv.1 then
    let t := { t with FPK_table := record t.FPK_table pos_pair kv.1 }
    let (othello, flipped) ← valueFlip_on_demand S.othello t.othello kv flipped
    return (flipped, { t with othello := othello })
  else
    let t := { t with TNK_table := record t.TNK_table pos_pair kv.1 }
    let (othello, flipped) ← erase_on_demand S.othello t.othello kv.1 flipped
    return (flipped, { t with othello := othello })

/-- `setValue` from 0 to 1. -/
def changeToPositive (t : Tracker K E) (kv : K × ℕ) : Except Fault (List ℕ × Tracker K E) := do
  let t := { t with NK := t.NK.erase kv.1, PK := Insert.insert kv.1 t.PK }
  let pos_pair := position_pair S t kv.1
  let t :=
    if lookup S t kv.1 then { t with FPK_table := unrecord t.FPK_table pos_pair kv.1 }
    else { t with TNK_table := unrecord t.TNK_table pos_pair kv.1 }
  let (full, vf) := VacuumFilter.insert S.hash S.engine t.vf (S.ele kv.1)
  let t := { t with vf := vf }
  if full = 1 then return (rebuildMarker, t)
  match ← promoteBoth S t (position_pair S t kv.1) with
  | (none, t) => return (rebuildMarker, t)
  | (some flipped, t) =>
    if isMember S.othello t.othello kv.1 then
      let (othello, flipped) ← valueFlip_on_demand S.othello t.othello kv flipped
      return (flipped, { t with othello := othello })
    else finishInsert S t kv flipped

def setValue (t : Tracker K E) (kv : K × ℕ) : Except Fault (List ℕ × Tracker K E) :=
  let v := query S t kv.1
  if v = kv.2 then .ok ([], t)
  else if v = 1 ∧ kv.2 = 0 then changeToNegative S t kv
  else if v = 0 ∧ kv.2 = 1 then changeToPositive S t kv
  else .ok ([], t)

/-- The loop over `FPK_table[pos]` in `erase`. When the Othello is asked to erase `*it`, the
iterator has already moved on to the next key or to the end. -/
def eraseLoop (t : Tracker K E) (pos : ℕ) (kept : List K) : List K → Except Fault (Tracker K E)
  | [] => .ok { t with FPK_table := Function.update t.FPK_table pos kept }
  | k :: rest =>
    if lookup S t k then eraseLoop t pos (kept ++ [k]) rest
    else
      match rest.head? with
      | none => .error .outOfBounds
      | some it =>
        match ControlPlaneOthello.erase S.othello t.othello it with
        | .error f => .error f
        | .ok othello =>
          eraseLoop { t with TNK_table := pushBack t.TNK_table pos k, othello := othello } pos kept
            rest

def erase (t : Tracker K E) (key : K) : Except Fault (Tracker K E) := do
  if query S t key = 1 then
    let t := { t with PK := t.PK.erase key }
    let t := { t with vf := (del S.hash t.vf (S.ele key)).2 }
    let pos_pair := position_pair S t key
    let t ← eraseLoop S t pos_pair.1 [] (t.FPK_table pos_pair.1)
    let t ← eraseLoop S t pos_pair.2 [] (t.FPK_table pos_pair.2)
    let othello ← ControlPlaneOthello.erase S.othello t.othello key
    return { t with othello := othello }
  else
    let t := { t with NK := t.NK.erase key }
    if lookup S t key then
      let t := { t with FPK_table := unrecord t.FPK_table (position_pair S t key) key }
      let othello ← ControlPlaneOthello.erase S.othello t.othello key
      return { t with othello := othello }
    else return t

end DASSTracker
