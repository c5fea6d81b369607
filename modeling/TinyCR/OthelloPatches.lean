import TinyCR.OthelloLoops
import TinyCR.OthelloRefill

/-! # Patching a data plane by components

A new value, and a new key that closes no cycle, change the cells of one half tree by one
template, which the operation returns. `fixHalfTreeByConnectedComponent` does that to a data plane
that is told the nodes. `getConnectedComponent` names all of them but its root. -/
namespace OthelloPatches

open PackedCells EdgeForest ControlPlaneOthello DataPlaneOthello OthelloInvariant OthelloForests
  OthelloRefill OthelloLoops

variable {K : Type}

/-- With `keepDigest`. -/
def fixSingle (P : Setup K) (dp : DataPlane) (nodeToFix : ℕ) (x : BitVec 64) : DataPlane :=
  let valueToFill := x ^^^ memValueGet P.toConfig dp.mem nodeToFix
  { dp with mem := memValueSet P.toConfig dp.mem nodeToFix valueToFill }

/-- The template is a `uint32_t`. -/
def fixHalfTreeByConnectedComponent (P : Setup K) (dp : DataPlane) (indices : List ℕ)
    (xorTemplate : BitVec 32) : DataPlane :=
  indices.foldl (fun dp index => fixSingle P dp index (xorTemplate.setWidth 64)) dp

variable {P : Setup K} {st st' : Othello K} {n keyId root hb : ℕ} {x : BitVec 64}

theorem memSet_mask (c : Config) (mem : List (BitVec 64)) (i : ℕ) (v : BitVec 64) :
    memSet c mem i (v &&& c.VDEMASK) = memSet c mem i v := by
  have hmask : v &&& c.VDEMASK &&& lowMask c.VDL = v &&& lowMask c.VDL := by
    rw [Config.VDEMASK, BitVec.and_assoc, BitVec.and_self]
  rw [memSet, memSet, writeField, writeField, hmask]

section Node

variable (fillIndex keepDigest : Bool)

theorem readNode_eq (hD : P.DL = 0) (st : Othello K) (v : ℕ) :
    readNode P keepDigest st v = memGet P.toConfig st.mem v := by
  rw [readNode, memValueGet_eq hD, ite_self]

theorem fixSingle_sync (hD : P.DL = 0) (hDP : P.maintainDP = true) (v : ℕ) (ix : ℕ) :
    fullSync (ControlPlaneOthello.fixSingle P true fillIndex keepDigest st v x ix) =
      fixSingle P (fullSync st) v x := by
  rw [fixSingle_parts, fixMem, hDP, Bool.and_self, if_pos rfl, memValueSet_eq hD,
    memValueGet_eq hD, ite_self, fixSingle, memValueSet_eq hD, memValueGet_eq hD]
  rfl

theorem foldl_fixSingle_sync (hD : P.DL = 0) (hDP : P.maintainDP = true) (ix : ℕ)
    (D : List (Visit ℕ ℕ)) :
    fullSync (D.foldl (fun st t =>
        ControlPlaneOthello.fixSingle P true fillIndex keepDigest st t.child x ix) st) =
      (D.map Visit.child).foldl (fun dp v => fixSingle P dp v x) (fullSync st) := by
  induction D generalizing st with
  | nil => rfl
  | cons t D ih =>
    rw [List.foldl_cons, ih, fixSingle_sync fillIndex keepDigest hD hDP]
    rfl

end Node

theorem traversal_visits {σ : Type} {skip : Option ℕ} {visit : σ → Visit ℕ ℕ → σ} {s r : σ}
    (h : traversal st skip root visit s = .ok r) :
    ∃ D, traversal st skip root (fun D t => D ++ [t]) [] = .ok D ∧ r = D.foldl visit s := by
  cases hD : traversal st skip root (fun D t => D ++ [t]) [] with
  | error f =>
    have hvisit : ∀ (D : List (Visit ℕ ℕ)) (t : Visit ℕ ℕ),
        (D ++ [t]).foldl visit s = visit (D.foldl visit s) t := fun D t => by
      rw [List.foldl_append]
      rfl
    have hmap := traversal_map (fun D : List (Visit ℕ ℕ) => D.foldl visit s) (fun D t => D ++ [t])
      hvisit st skip root []
    rw [hD] at hmap
    cases hmap.symm.trans h
  | ok D => exact ⟨D, rfl, Except.ok.inj (h.symm.trans (traversal_foldl hD visit s))⟩

theorem template_kept (hL : P.VDL ≤ 32) (hx : x &&& P.VDEMASK = x) :
    (x.setWidth 32).setWidth 64 = x := by
  apply BitVec.eq_of_getLsbD_eq
  intro b hb
  rw [BitVec.getLsbD_setWidth, BitVec.getLsbD_setWidth, decide_eq_true hb, Bool.true_and]
  by_cases h32 : b < 32
  · rw [decide_eq_true h32, Bool.true_and]
  · have hhigh : ¬ b < P.VDL := by omega
    rw [← hx, BitVec.getLsbD_and, Config.VDEMASK, getLsbD_mask, decide_eq_false hhigh]
    simp

theorem swapEnds_plain (hD : P.DL = 0) (fillValue : Bool) (st : Othello K) (root hb : ℕ) :
    swapEnds P fillValue st root hb = (st, root, hb, false) := by
  rw [swapEnds, hD, decide_eq_false (not_not.mpr rfl), Bool.and_false, Bool.false_and]
  rfl

theorem foldl_fixSingle_lists (P : Setup K) (st : Othello K) (x : BitVec 64)
    (fillIndex keepDigest : Bool) (ix : ℕ) (D : List (Visit ℕ ℕ)) :
    ∃ mem indMem, D.foldl (fun st t =>
        ControlPlaneOthello.fixSingle P true fillIndex keepDigest st t.child x ix) st =
      { st with mem := mem, indMem := indMem } := by
  induction D generalizing st with
  | nil => exact ⟨st.mem, st.indMem, rfl⟩
  | cons t D ih =>
    rw [List.foldl_cons, fixSingle_parts]
    obtain ⟨mem, indMem, heq⟩ := ih _
    exact ⟨mem, indMem, heq⟩

theorem addEdge_sync {key ha hb : ℕ} (h : addEdge st key ha hb = .ok st') :
    fullSync st' = fullSync st ∧ st'.maintainingDP = st.maintainingDP := by
  rw [addEdge] at h
  split at h
  · obtain rfl := Except.ok.inj h
    exact ⟨rfl, rfl⟩
  · cases h

variable [Inhabited K]

section Fill

variable (fillIndex keepDigest : Bool)

theorem fillSingle_mem (hD : P.DL = 0) (hm : st.maintainingDP = true) (e v u : ℕ) :
    (fillSingle P true fillIndex keepDigest st e v u).mem =
      memSet P.toConfig st.mem v (valueAt st e ^^^ memGet P.toConfig st.mem u) := by
  rw [fillSingle_parts, fillMem, hm, Bool.and_self, if_pos rfl, memValueSet_eq hD,
    memValueGet_eq hD, fillWord, if_neg (not_not.mpr hD), ite_self]

theorem fillSingle_sync (hD : P.DL = 0) (hm : st.maintainingDP = true)
    (hz : Sized P.toConfig st.mem n) (e : ℕ) {v : ℕ} (hv : v < n) (u : ℕ) :
    fullSync (fillSingle P true fillIndex keepDigest st e v u) =
      fixSingle P (fullSync st) v (readNode P keepDigest st v ^^^
        readNode P keepDigest (fillSingle P true fillIndex keepDigest st e v u) v) := by
  have hmem := fillSingle_mem fillIndex keepDigest hD hm e v u
  have hsync : fullSync (fillSingle P true fillIndex keepDigest st e v u) =
      { fullSync st with
        mem := (fillSingle P true fillIndex keepDigest st e v u).mem } := by
    rw [fillSingle_parts]
    rfl
  have hold : (fullSync st).mem = st.mem := rfl
  -- the old cell cancels out, and a write cuts what the read had cut
  rw [hsync, fixSingle, readNode_eq keepDigest hD, readNode_eq keepDigest hD, memValueSet_eq hD,
    memValueGet_eq hD, hold, hmem, memGet_memSet_same hz hv, BitVec.xor_comm (_ ^^^ _),
    involutive_word.cancel, memSet_mask]

end Fill

/-- What `fixHalfTreeDFS` does to the cells, the component and the template do to a data plane. -/
theorem half_patched (hD : P.DL = 0) (hDP : P.maintainDP = true) (hL : P.VDL ≤ 32)
    (hm : st.maintainingDP = true) (hz : Sized P.toConfig st.mem n) (hroot : root < n)
    {fillIndex keepDigest : Bool}
    (hrun : fixHalfTreeDFS P true fillIndex keepDigest st keyId root hb = .ok (x, st')) :
    x &&& P.VDEMASK = x ∧ ∃ component, getConnectedComponent st' keyId root = .ok component ∧
      fixHalfTreeByConnectedComponent P (fullSync st) (root :: component) (x.setWidth 32) =
        fullSync st' := by
  simp only [fixHalfTreeDFS, swapEnds_plain hD, if_true] at hrun
  split at hrun
  case isTrue => cases hrun
  case isFalse =>
    obtain ⟨st₂, htrav, hret⟩ := of_bind_ok hrun
    obtain ⟨hx, rfl⟩ := Prod.mk.inj (Except.ok.inj hret)
    rw [if_neg Bool.false_ne_true] at hx
    have hfilled := fillSingle_sync fillIndex keepDigest hD hm hz keyId hroot hb
    rw [hx] at htrav hfilled
    have hcell : ∀ mem : List (BitVec 64), Sized P.toConfig mem n →
        memGet P.toConfig mem root &&& P.VDEMASK = memGet P.toConfig mem root := fun mem hz =>
      memGet_lt hz hroot
    have hmask : x &&& P.VDEMASK = x := by
      have hz₁ : Sized P.toConfig (memSet P.toConfig st.mem root
          (valueAt st keyId ^^^ memGet P.toConfig st.mem hb)) n := hz.congr (length_memSet _)
      rw [← hx, readNode_eq keepDigest hD, readNode_eq keepDigest hD,
        fillSingle_mem fillIndex keepDigest hD hm, mask_xor _ _ _ (hcell _ hz₁), hcell _ hz]
    obtain ⟨D, hD₁, rfl⟩ := traversal_visits htrav
    obtain ⟨mem, indMem, hlists⟩ := foldl_fixSingle_lists P
      (fillSingle P true fillIndex keepDigest st keyId root hb) x fillIndex keepDigest _ D
    refine ⟨hmask, D.map Visit.child, ?_, ?_⟩
    · rw [hlists]
      have hnodes : D.foldl (fun result t => result ++ [t.child]) [] = D.map Visit.child := by
        rw [List.foldl_append_eq_append, List.nil_append, ← List.flatMap_def, List.map_eq_flatMap]
      exact hnodes ▸ traversal_foldl hD₁ (fun result t => result ++ [t.child]) []
    · rw [foldl_fixSingle_sync fillIndex keepDigest hD hDP, hfilled,
        fixHalfTreeByConnectedComponent, template_kept hL hmask]
      rfl

/-- From the template an operation on key `keyId` has returned and the component of `root`, the
data plane gets what a new export of `st'` would have. -/
def Patches (P : Setup K) (dp : DataPlane) (keyId root : ℕ) (x : BitVec 64) (st' : Othello K) :
    Prop :=
  ∃ component, getConnectedComponent st' keyId root = .ok component ∧
    fixHalfTreeByConnectedComponent P dp (root :: component) (x.setWidth 32) = fullSync st'

section Operations

variable [DecidableEq K]

omit [DecidableEq K] in
theorem update_patches (hD : P.DL = 0) (hDP : P.maintainDP = true) (hL : P.VDL ≤ 32)
    (h : Sound P st) (hk : keyId < st.keyCnt) {val : ℕ}
    (hrun : updateValueAt P st keyId val = .ok (x, st')) :
    Patches P (fullSync st) keyId (ends P st keyId).1 x st' := by
  have hroot : (ends P st keyId).1 < nodes st :=
    (h.ends_bounds keyId).1.trans_le (Nat.le_add_right _ _)
  simp only [updateValueAt, if_neg (Nat.not_le.mpr hk), if_pos hDP] at hrun
  have hm : st.maintainingDP = true := h.cells.maintaining.trans hDP
  refine (half_patched hD hDP hL ?_ ?_ hroot hrun).2
  · exact hm
  · exact h.cells.sized hDP

theorem insert_template (h : Sound P st) {DoNotRebuild : Bool} {kv : K × ℕ}
    (hroom : ¬ needsRoom st) (hrun : insert P DoNotRebuild st kv = .ok (some x, st'))
    (hx : x ≠ 1 <<< P.VDL) :
    ∃ st₂, fullSync st₂ = fullSync st ∧ st₂.maintainingDP = st.maintainingDP ∧
      fixHalfTreeDFS P P.maintainDP true false st₂ st.keyCnt (getIndices P st kv.1).1
        (getIndices P st kv.1).2 = .ok (x, st') := by
  obtain ⟨hnew, -⟩ := h.toConsistent.insert_spec hrun
  have hlt : st.keyCnt < st.keys.length := by
    rw [needsRoom] at hroom
    omega
  rw [insert_eq DoNotRebuild st hnew, makeRoom, if_neg hroom] at hrun
  have hstored : insertStored P DoNotRebuild st.keyCnt st kv = .ok (some x, st') := hrun
  obtain ⟨connected, st₁, hconn, honly, -, -, hlink⟩ := h.toConsistent.store_link hlt kv
  have hidx : getIndices P (storeKey st st.keyCnt kv) kv.1 = getIndices P st kv.1 := rfl
  simp only [insertStored, if_neg (Nat.not_le.mpr hlt), hidx, hconn, ok_bind] at hstored
  cases connected
  case true =>
    cases DoNotRebuild
    case true => cases hstored
    case false =>
      -- a rebuild returns a bit that no template has
      obtain ⟨⟨built, st₂⟩, -, hret⟩ := of_bind_ok hstored
      cases built
      case false => cases hret
      case true =>
        obtain ⟨hbit, -⟩ := Prod.mk.inj (Except.ok.inj hret)
        exact absurd (Option.some.inj hbit).symm hx
  case false =>
    obtain ⟨st₂, -, -, -, hadd, -, -, -, -, -, -, hcnt⟩ := hlink rfl
    simp only [Bool.false_eq_true, if_false, hadd, ok_bind, hcnt, Nat.add_sub_cancel] at hstored
    obtain ⟨⟨y, st₃⟩, hfix, hret⟩ := of_bind_ok hstored
    obtain ⟨rfl, rfl⟩ : y = x ∧ st₃ = st' := by
      obtain ⟨hy, hst⟩ := Prod.mk.inj (Except.ok.inj hret)
      exact ⟨Option.some.inj hy, hst⟩
    obtain ⟨hsync, hm⟩ := addEdge_sync hadd
    have hsame : fullSync st₁ = fullSync st ∧ st₁.maintainingDP = st.maintainingDP := by
      rw [honly]
      exact ⟨rfl, rfl⟩
    exact ⟨st₂, hsync.trans hsame.1, hm.trans hsame.2, hfix⟩

theorem insert_patches (hD : P.DL = 0) (hDP : P.maintainDP = true) (hL : P.VDL ≤ 32)
    (h : Sound P st) {DoNotRebuild : Bool} {kv : K × ℕ} (hroom : ¬ needsRoom st)
    (hrun : insert P DoNotRebuild st kv = .ok (some x, st')) (hx : x ≠ 1 <<< P.VDL) :
    Patches P (fullSync st) st.keyCnt (getIndices P st kv.1).1 x st' := by
  obtain ⟨st₂, hsync, hsame, hfix⟩ := insert_template h hroom hrun hx
  have hm : st₂.maintainingDP = true := hsame.trans (h.cells.maintaining.trans hDP)
  have hmem : st₂.mem = st.mem := congrArg DataPlane.mem hsync
  have hA := (getIndices_bounds (P := P) h.ma_pos h.mb_pos kv.1).1
  have hroot : (getIndices P st kv.1).1 < nodes st := hA.trans_le (Nat.le_add_right _ _)
  rw [hDP] at hfix
  obtain ⟨-, hpatched⟩ := half_patched hD hDP hL hm (hmem ▸ h.cells.sized hDP) hroot hfix
  rw [hsync] at hpatched
  exact hpatched

/-- In every state of every run: what a new value or a new key without a rebuild changes, a data
plane gets from the component and the template, and then it answers every key. -/
theorem component_patches (hD : P.DL = 0) (hDP : P.maintainDP = true) (hL : P.L ≤ 32)
    (h : Reachable P st) :
    (∀ keyId val, keyId < st.keyCnt → ∃ x st', updateValueAt P st keyId val = .ok (x, st') ∧
      Patches P (fullSync st) keyId (ends P st keyId).1 x st' ∧
      ∀ i < st'.keyCnt, Answered P st' i) ∧
    ∀ DoNotRebuild kv x st', ¬ needsRoom st →
      insert P DoNotRebuild st kv = .ok (some x, st') → x ≠ 1 <<< P.VDL →
      Patches P (fullSync st) st.keyCnt (getIndices P st kv.1).1 x st' ∧
      ∀ i < st'.keyCnt, Answered P st' i := by
  have hs := h.sound
  have hwidth : P.VDL ≤ 32 := by
    rw [Config.VDL, hD]
    exact hL
  constructor
  · intro keyId val hk
    obtain ⟨x, st', -, -, hrun, -⟩ := hs.toConsistent.update_spec hk val []
    have hnext := (Reachable.updateValueAt h hrun).sound
    exact ⟨x, st', hrun, update_patches hD hDP hwidth hs hk hrun,
      fun i hi => answered_of_maintained hD hDP hnext hi⟩
  · intro DoNotRebuild kv x st' hroom hrun hx
    have hnext := (Reachable.insert h hrun).sound
    exact ⟨insert_patches hD hDP hwidth hs hroom hrun hx,
      fun i hi => answered_of_maintained hD hDP hnext hi⟩

end Operations

def wordSetup : Setup ℕ :=
  { L := 16, DL := 0, vBits := 16, maintainDP := true, maintainDisjointSet := true
    vdl_le := by decide, l_le := by decide
    hab := fun _ k => BitVec.ofNat 64 k, hd := fun _ k => BitVec.ofNat 32 k
    rand := fun i => BitVec.ofNat 64 i }

def takesWord : Except Fault (Bool × Othello ℕ) → Bool
  | .ok (true, st) =>
    match insert wordSetup true st (5, 777) with
    | .ok (some x, st₁) => decide (¬ needsRoom st ∧ x ≠ 1 <<< wordSetup.VDL ∧ 0 < st₁.keyCnt)
    | _ => false
  | _ => false

theorem component_patches_word : ∃ st x st₁ y st₂,
    insert wordSetup true st (5, 777) = .ok (some x, st₁) ∧
    Patches wordSetup (fullSync st) st.keyCnt (getIndices wordSetup st 5).1 x st₁ ∧
    updateValueAt wordSetup st₁ 0 2000 = .ok (y, st₂) ∧
    Patches wordSetup (fullSync st₁) 0 (ends wordSetup st₁ 0).1 y st₂ := by
  have htakes : takesWord (construct wordSetup 4 0 0) = true := by decide +kernel
  obtain ⟨st, hc, htakes⟩ := of_construct htakes (by simp [takesWord]) (by simp [takesWord])
  rw [takesWord] at htakes
  split at htakes
  case h_2 => cases htakes
  case h_1 x st₁ hi =>
    obtain ⟨hroom, hx, hcnt⟩ := of_decide_eq_true htakes
    have h : Reachable wordSetup st := .construct hc
    obtain ⟨hfirst, -⟩ := (component_patches rfl rfl (by decide) h).2 true (5, 777) x st₁ hroom hi hx
    obtain ⟨y, st₂, hrun, hsecond, -⟩ :=
      (component_patches rfl rfl (by decide) (Reachable.insert h hi)).1 0 2000 hcnt
    exact ⟨st, x, st₁, y, st₂, hi, hfirst, hrun, hsecond⟩

end OthelloPatches
