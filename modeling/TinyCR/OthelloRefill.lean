import TinyCR.OthelloForests

/-! # Refilling the data memory

`fillValue` fills the trees of the roots of the disjoint set. After erases these need not be
one node of array A for each component: when the refill comes out right. -/
namespace OthelloRefill

open PackedCells EdgeForest EdgeLabels ControlPlaneOthello DataPlaneOthello OthelloInvariant
  OthelloForests

variable {K : Type} [Inhabited K] {P : Setup K} {st st' : Othello K} {n : ℕ}

theorem fillValueFrom_assertion {keepDigest : Bool} (hkd : keepDigest = true → P.DL = 0) {i m : ℕ}
    (hsh : Shape P st) (hl : Linking P st n) (hz : MemFits P st)
    (hB : ∃ r, i ≤ r ∧ r < i + m ∧ DisjointSet.isRoot st.connectivityForest r = true ∧
      st.ma ≤ r) : fillValueFrom P keepDigest st i m = .error .assertion := by
  induction m generalizing st i with
  | zero =>
    obtain ⟨r, h1, h2, -⟩ := hB
    omega
  | succ m ih =>
    obtain ⟨r, h1, h2, hr, hma⟩ := hB
    cases hroot : DisjointSet.isRoot st.connectivityForest i with
    | false =>
      have hne : r ≠ i := fun heq => by
        rw [heq, hroot] at hr
        cases hr
      simp only [fillValueFrom, hroot, Bool.false_eq_true, if_false]
      exact ih hsh hl hz ⟨r, by omega, by omega, hr, hma⟩
    | true =>
      have hm : (if P.DL ≠ 0 ∧ st.maintainingDP = true then
          { st with mem := memSet P.toConfig st.mem i 1 } else st) = marked P st i := rfl
      simp only [fillValueFrom, hroot, if_true, hm]
      by_cases hA : i < st.ma
      case neg =>
        have hma : (marked P st i).ma = st.ma := by
          rw [marked]
          split <;> rfl
        rw [fillTreeDFS, hma, if_neg hA]
        rfl
      case pos =>
        obtain ⟨st₁, hfill, honly, hsh₁, hz₁, -⟩ := fillTree_spec hsh hl hz hA hkd
        rw [hfill, ok_bind]
        have hfields : st₁.ma = st.ma ∧ st₁.connectivityForest = st.connectivityForest := by
          rw [honly]
          exact ⟨rfl, rfl⟩
        refine ih hsh₁ ?_ hz₁ ⟨r, by omega, by omega, ?_, ?_⟩
        · rw [honly]
          exact ⟨hl.n_le, hl.listsA, hl.listsB, hl.acyclic⟩
        · rw [hfields.2]
          exact hr
        · rw [hfields.1]
          exact hma

/-- The data plane that copies `st` answers key `i` with its value bits. -/
def Answered (P : Setup K) (st : Othello K) (i : ℕ) : Prop :=
  DataPlaneOthello.query P (fullSync st) (keyAt st i) =
    (true, BitVec.ofNat 64 (st.values.getD i 0 % 2 ^ P.L))

omit [Inhabited K] in
theorem label_eq (hD : P.DL = 0) (st : Othello K) (e : ℕ) :
    label P st e = BitVec.ofNat 64 (st.values.getD e 0 % 2 ^ P.L) := by
  have hw : P.VDL = P.L := by rw [Config.VDL, hD, Nat.add_zero]
  have hL : P.L ≤ 64 := by
    have := P.vdl_le
    omega
  have hcut : st.values.getD e 0 % 2 ^ 64 % 2 ^ P.L = st.values.getD e 0 % 2 ^ P.L :=
    Nat.mod_mod_of_dvd _ (pow_dvd_pow 2 hL)
  have hlt : st.values.getD e 0 % 2 ^ P.L < 2 ^ 64 :=
    (Nat.mod_lt _ (Nat.two_pow_pos P.L)).trans_le (Nat.pow_le_pow_right (by decide) hL)
  apply BitVec.eq_of_toNat_eq
  rw [label, Config.VDEMASK, hw, toNat_and_lowMask, valueAt, BitVec.toNat_ofNat,
    BitVec.toNat_ofNat, hcut, Nat.mod_eq_of_lt hlt]

theorem answered_iff (hD : P.DL = 0) (hsh : Shape P st) (hz : Sized P.toConfig st.mem (nodes st))
    {i : ℕ} : Answered P st i ↔
      memAt P st (ends P st i).1 ^^^ memAt P st (ends P st i).2 = label P st i := by
  have hb := hsh.ends_bounds i
  have hnodes : nodes st = st.ma + st.mb := rfl
  have hA : (ends P st i).1 < nodes st := by omega
  have hB : (ends P st i).2 < nodes st := by omega
  have hcell : ∀ w, w < nodes st → memAt P st w &&& lowMask P.vBits = memAt P st w := by
    intro w hw
    apply BitVec.eq_of_getLsbD_eq
    intro b hb64
    rw [BitVec.getLsbD_and, getLsbD_mask, memAt, getLsbD_memGet hz hw, decide_eq_true hb64,
      Bool.and_true]
    by_cases hb : b < P.VDL
    · have hV : b < P.vBits := by
        have hl := P.l_le
        rw [Config.VDL, hD] at hb
        omega
      rw [decide_eq_true hV, Bool.and_true]
    · rw [decide_eq_false hb, Bool.false_and, Bool.false_and]
  have hsync : DataPlaneOthello.getIndices P (fullSync st) (keyAt st i) =
      ((ends P st i).1, (ends P st i).2) := rfl
  have hmem : ∀ w, memGet P.toConfig (fullSync st).mem w = memAt P st w := fun _ => rfl
  have hquery : DataPlaneOthello.query P (fullSync st) (keyAt st i) =
      (true, memAt P st (ends P st i).1 ^^^ memAt P st (ends P st i).2) := by
    simp only [DataPlaneOthello.query, hsync, hmem, hD, if_true, BitVec.ushiftRight_zero,
      and_xor_shown, hcell _ hA, hcell _ hB]
  rw [Answered, hquery, label_eq hD, Prod.mk.injEq]
  exact and_iff_right rfl

/-- No node of array B is a root, and every key hangs below a root or is answered right already. -/
structure Refillable (P : Setup K) (st : Othello K) : Prop where
  inA : ∀ r, r < st.ma + st.mb → DisjointSet.isRoot st.connectivityForest r = true → r < st.ma
  covered : ∀ i, i < st.keyCnt →
    (∃ r, r < st.ma + st.mb ∧ DisjointSet.isRoot st.connectivityForest r = true ∧
      Linked (graph P st st.keyCnt) r (ends P st i).1) ∨ Answered P st i

theorem refill_iff (hD : P.DL = 0) (keepDigest : Bool) (hsh : Shape P st)
    (hl : Linking P st st.keyCnt) (hm : st.maintainingDP = true)
    (hz : Sized P.toConfig st.mem (nodes st)) :
    (∃ st', fillValue P keepDigest st = .ok st' ∧ ∀ i, i < st'.keyCnt → Answered P st' i) ↔
      Refillable P st := by
  have hfits : MemFits P st := fun _ => hz
  by_cases hA : ∀ r, r < st.ma + st.mb →
      DisjointSet.isRoot st.connectivityForest r = true → r < st.ma
  case neg =>
    refine iff_of_false ?_ fun h => hA h.inA
    rintro ⟨st', hrun, -⟩
    have hB : ∃ r, 0 ≤ r ∧ r < 0 + (st.ma + st.mb) ∧
        DisjointSet.isRoot st.connectivityForest r = true ∧ st.ma ≤ r := by
      by_contra hno
      refine hA fun r h1 h2 => Nat.lt_of_not_le fun h3 => hno ⟨r, Nat.zero_le r, ?_, h2, h3⟩
      rwa [Nat.zero_add]
    rw [fillValue, fillValueFrom_assertion (fun _ => hD) hsh hl hfits hB] at hrun
    cases hrun
  case pos =>
    obtain ⟨st₁, hrun, honly, hsh₁, hz₁, hedges, hrest⟩ := fillValueFrom_spec (i := 0)
      (m := st.ma + st.mb) (fun _ : keepDigest = true => hD) hsh hl hfits
      fun r _ h2 hr => hA r (by omega) hr
    have hfields : st₁.ma = st.ma ∧ st₁.mb = st.mb ∧ st₁.keyCnt = st.keyCnt ∧
        st₁.maintainingDP = st.maintainingDP ∧ (∀ i, ends P st₁ i = ends P st i) ∧
        ∀ i, label P st₁ i = label P st i := by
      rw [honly]
      exact ⟨rfl, rfl, rfl, rfl, fun _ => rfl, fun _ => rfl⟩
    obtain ⟨hma, hmb, hcnt, hmaint, hends, hlabel⟩ := hfields
    have hm₁ := hmaint.trans hm
    have hanswered₁ : ∀ i, Answered P st₁ i ↔
        memAt P st₁ (ends P st i).1 ^^^ memAt P st₁ (ends P st i).2 = label P st i := fun i => by
      rw [answered_iff hD hsh₁ (hz₁ hm₁), hends, hlabel]
    -- a key that no root reaches keeps its cells
    have hkept : ∀ i, i < st.keyCnt → (¬ ∃ r, r < st.ma + st.mb ∧
        DisjointSet.isRoot st.connectivityForest r = true ∧
        Linked (graph P st st.keyCnt) r (ends P st i).1) →
        (Answered P st₁ i ↔ Answered P st i) := by
      intro i hi hno
      have hg := graph_ends P st hi
      have huv : Linked (graph P st st.keyCnt) (ends P st i).1 (ends P st i).2 := Linked.edge hg
      have hu := (hrest _ (hsh.graph_lt hg).1 fun r h1 h2 hr hl' =>
        hno ⟨r, by omega, hr, hl'⟩).2 hm
      have hv := (hrest _ (hsh.graph_lt hg).2 fun r h1 h2 hr hl' => hno ⟨r, by omega, hr,
        hl'.trans (huv.symm (undirected_graph P st _))⟩).2 hm
      rw [hanswered₁, answered_iff hD hsh hz, hu, hv]
    have hfilled : ∀ i, i < st.keyCnt → (∃ r, r < st.ma + st.mb ∧
        DisjointSet.isRoot st.connectivityForest r = true ∧
        Linked (graph P st st.keyCnt) r (ends P st i).1) → Answered P st₁ i := by
      rintro i hi ⟨r, hr, hroot, hlink⟩
      have hg := graph_ends P st hi
      have hl := (hedges i _ _ r hg (Nat.zero_le r) (by omega) hroot hlink).label hm₁
      have hb := hsh.graph_lt hg
      have hnodes : nodes st₁ = nodes st := by rw [nodes, nodes, hma, hmb]
      have hz' := hz₁ hm₁
      rw [hnodes] at hz'
      rw [shown_eq hD, cellLabel_eq hD, memAt, memAt, mask_xor _ _ _ (memGet_lt hz' hb.2),
        memGet_lt hz' hb.1, hlabel] at hl
      exact (hanswered₁ i).mpr hl
    constructor
    · rintro ⟨st', hrun', hall⟩
      obtain rfl : st₁ = st' := Except.ok.inj (hrun.symm.trans hrun')
      refine ⟨hA, fun i hi => ?_⟩
      by_cases hroot : ∃ r, r < st.ma + st.mb ∧
          DisjointSet.isRoot st.connectivityForest r = true ∧
          Linked (graph P st st.keyCnt) r (ends P st i).1
      · exact Or.inl hroot
      · exact Or.inr ((hkept i hi hroot).mp (hall i (hcnt.symm ▸ hi)))
    · intro h
      refine ⟨st₁, hrun, fun i hi => ?_⟩
      rw [hcnt] at hi
      by_cases hroot : ∃ r, r < st.ma + st.mb ∧
          DisjointSet.isRoot st.connectivityForest r = true ∧
          Linked (graph P st st.keyCnt) r (ends P st i).1
      · exact hfilled i hi hroot
      · exact (hkept i hi hroot).mpr ((h.covered i hi).resolve_left hroot)

theorem answered_of_maintained (hD : P.DL = 0) (hDP : P.maintainDP = true) (h : Sound P st) {i : ℕ}
    (hi : i < st.keyCnt) : Answered P st i := by
  rw [answered_iff hD h.toShape (h.cells.sized hDP)]
  exact h.cells.labelled hD hDP h.toShape (graph_ends P st hi)

/-- The Othello whose cells `prepareDP` fills. -/
def toFill (P : Setup K) (st : Othello K) : Othello K :=
  memResize P { st with maintainingDP := true }

theorem prepareDP_eq (hDP : P.maintainDP = false) (st : Othello K) : prepareDP P st = (do
    let st' ← fillValue P false (toFill P st)
    return { st' with maintainingDP := false }) := by
  rw [prepareDP, hDP]
  rfl

theorem Sound.toFill (h : Sound P st) (hfits : nodes st * P.VDL + 63 < 2 ^ 32) :
    Shape P (toFill P st) ∧ Linking P (OthelloRefill.toFill P st) st.keyCnt ∧
      Sized P.toConfig (OthelloRefill.toFill P st).mem (nodes st) := by
  have hwords : memWords P (nodes st) = (nodes st * P.VDL + 63) / 64 := by
    rw [memWords, Nat.mod_eq_of_lt hfits]
  refine ⟨?_, ?_, hfits, (length_resized ..).trans hwords⟩
  · exact { ma_pos := h.ma_pos, mb_pos := h.mb_pos, indMem := h.indMem, head := h.head
            forest := h.forest, values := h.values, nextAtA := h.nextAtA
            nextAtB := h.nextAtB, keyCnt := h.keyCnt }
  · exact ⟨h.linking.n_le, h.linking.listsA, h.linking.listsB, h.linking.acyclic⟩

/-- A refill for the data plane: right away if the cells are kept, else as `fillValue` goes. -/
theorem prepareDP_iff (hD : P.DL = 0) (h : Sound P st)
    (hfits : P.maintainDP = false → nodes st * P.VDL + 63 < 2 ^ 32) :
    (∃ st', prepareDP P st = .ok st' ∧ ∀ i, i < st'.keyCnt → Answered P st' i) ↔
      (P.maintainDP = false → Refillable P (memResize P { st with maintainingDP := true })) := by
  cases hDP : P.maintainDP
  case true =>
    refine iff_of_true ⟨st, ?_, fun i hi => answered_of_maintained hD hDP h hi⟩ (by simp)
    rw [prepareDP, if_pos hDP]
    rfl
  case false =>
    obtain ⟨hsh, hl, hz⟩ := Sound.toFill h (hfits hDP)
    have hrefill : _ ↔ Refillable P (memResize P { st with maintainingDP := true }) :=
      refill_iff hD false hsh hl rfl hz
    rw [← hrefill, prepareDP_eq hDP]
    constructor
    · rintro ⟨st', hok, hall⟩ -
      obtain ⟨st₂, hfill, hret⟩ := of_bind_ok hok
      obtain rfl := Except.ok.inj hret
      exact ⟨st₂, hfill, hall⟩
    · intro hfill
      obtain ⟨st₂, hfill, hall⟩ := hfill rfl
      refine ⟨{ st₂ with maintainingDP := false }, ?_, hall⟩
      rw [toFill, hfill]
      rfl

def withValues (st : Othello K) (values : List ℕ) : Othello K := { st with values := values }

section Values

variable (P : Setup K) (st : Othello K) (values : List ℕ)

omit [Inhabited K] in
theorem traversal_values {visit : Othello K × List ℕ → Visit ℕ ℕ → Othello K × List ℕ}
    (hf : ∀ p t, (withValues (visit p t).1 values, (visit p t).2) =
      visit (withValues p.1 values, p.2) t) (prev : Option ℕ) (root : ℕ) (flipped : List ℕ) :
    (do
      let r ← traversal st prev root visit (withValues st values, flipped)
      return ((0 : BitVec 64), r.1, r.2) : Except Fault _) =
    (do
      let r ← traversal st prev root visit (st, flipped)
      return ((0 : BitVec 64), r.1, r.2) : Except Fault _).map
        fun r => (r.1, withValues r.2.1 values, r.2.2) := by
  have hmap := traversal_map (fun p : Othello K × List ℕ => (withValues p.1 values, p.2)) visit
    (fun p t => hf p t) st prev root (st, flipped)
  rw [hmap]
  cases traversal st prev root visit (st, flipped) <;> rfl

theorem fixHalfTree_values (keyId root hb : ℕ) :
    fixHalfTree P false true true (withValues st values) keyId root hb =
      (fixHalfTree P false true true st keyId root hb).map
        fun r => (r.1, withValues r.2.1 values, r.2.2) := by
  by_cases hroot : st.ma ≤ root
  case pos =>
    have hroot' : (withValues st values).ma ≤ root := hroot
    simp only [fixHalfTree, if_pos hroot, if_pos hroot']
    rfl
  case neg =>
    have hfix : ∀ s : Othello K, ¬ s.ma ≤ root → fixHalfTree P false true true s keyId root hb = (do
        let r ← traversal (fillSingle P false true true s keyId root hb) (some keyId) root
          (fun p t => (fixSingle P false true true p.1 t.child 0 (s.indMem.getD root 0 ^^^
            (fillSingle P false true true s keyId root hb).indMem.getD root 0),
            if (0 : BitVec 64) ≠ 0 then p.2 ++ [t.child] else p.2))
          (fillSingle P false true true s keyId root hb,
            if memGet P.toConfig s.mem root ≠ memGet P.toConfig
              (fillSingle P false true true s keyId root hb).mem root then [root] else [])
        return (0, r.1, r.2)) := by
      intro s hs
      simp only [fixHalfTree, if_neg hs]
      rfl
    rw [hfix st hroot, hfix (withValues st values) hroot]
    exact traversal_values (fillSingle P false true true st keyId root hb) values
      (fun _ _ => rfl) (some keyId) root _

def rerooted (root : ℕ) (st : Othello K) (t : Visit ℕ ℕ) : Othello K :=
  { st with connectivityForest := DisjointSet.set st.connectivityForest t.child root }

omit [Inhabited K] in
theorem rerooted_values (root : ℕ) :
    (do
      let s ← traversal (withValues st values) none root (rerooted root) (withValues st values)
      return (s, []) : Except Fault (Othello K × List ℕ)) =
    (do
      let s ← traversal st none root (rerooted root) st
      return (s, []) : Except Fault (Othello K × List ℕ)).map
        fun r => (withValues r.1 values, r.2) := by
  have hmap : traversal st none root (rerooted root) (withValues st values) =
      (traversal st none root (rerooted root) st).map (withValues · values) :=
    traversal_map (withValues · values) (rerooted root) (fun _ _ => rfl) st none root st
  refine (congrArg (· >>= fun s => pure (s, ([] : List ℕ))) hmap).trans ?_
  cases traversal st none root (rerooted root) st <;> rfl

omit [Inhabited K] in
theorem connect_values (root : ℕ) : connect P (withValues st values) root =
    (connect P st root).map fun r => (withValues r.1 values, r.2) := by
  have hhead : (withValues st values).head = st.head := rfl
  simp only [connect, hhead]
  by_cases hnone : st.head.getD root none = none
  case pos =>
    simp only [if_pos hnone]
    have hm : (withValues st values).maintainingDP = st.maintainingDP := rfl
    cases hmaint : st.maintainingDP <;> simp only [hm, hmaint] <;> rfl
  case neg =>
    simp only [if_neg hnone]
    exact rerooted_values { st with
      connectivityForest := DisjointSet.set st.connectivityForest root root } values root

theorem moveLast_values (keyId : ℕ) : moveLast P (withValues st values) keyId =
    (moveLast P st keyId).map
      fun r => (withValues r.1 (values.set keyId (values.getD st.keyCnt 0)), r.2) := by
  have hrun : ∀ s : Othello K, moveLast P s keyId = (do
      let a ← orOutOfBounds (renameCell s.head s.nextAtA (ends P s s.keyCnt).1 s.keyCnt keyId
        (ends P s s.keyCnt).2)
      let b ← orOutOfBounds (renameCell a.1 s.nextAtB (ends P s s.keyCnt).2 s.keyCnt keyId
        (ends P s s.keyCnt).1)
      let r ← fixHalfTree P false true true { s with
          keys := s.keys.set keyId (keyAt s s.keyCnt)
          values := s.values.set keyId (s.values.getD s.keyCnt 0)
          head := b.1, nextAtA := a.2, nextAtB := b.2 } keyId (ends P s s.keyCnt).1
        (ends P s s.keyCnt).2
      return (r.2.1, r.2.2)) := fun _ => rfl
  have hA : orOutOfBounds (renameCell (withValues st values).head (withValues st values).nextAtA
      (ends P (withValues st values) (withValues st values).keyCnt).1
      (withValues st values).keyCnt keyId (ends P (withValues st values)
        (withValues st values).keyCnt).2) =
      orOutOfBounds (renameCell st.head st.nextAtA (ends P st st.keyCnt).1 st.keyCnt keyId
        (ends P st st.keyCnt).2) := rfl
  rw [hrun, hrun, hA]
  cases orOutOfBounds (renameCell st.head st.nextAtA (ends P st st.keyCnt).1 st.keyCnt keyId
      (ends P st st.keyCnt).2) with
  | error f => rfl
  | ok a =>
    have hB : orOutOfBounds (renameCell a.1 (withValues st values).nextAtB
        (ends P (withValues st values) (withValues st values).keyCnt).2
        (withValues st values).keyCnt keyId (ends P (withValues st values)
          (withValues st values).keyCnt).1) =
        orOutOfBounds (renameCell a.1 st.nextAtB (ends P st st.keyCnt).2 st.keyCnt keyId
          (ends P st st.keyCnt).1) := rfl
    rw [ok_bind, ok_bind, hB]
    cases orOutOfBounds (renameCell a.1 st.nextAtB (ends P st st.keyCnt).2 st.keyCnt keyId
        (ends P st st.keyCnt).1) with
    | error f => rfl
    | ok b =>
      have hfix := fixHalfTree_values P { st with
          keys := st.keys.set keyId (keyAt st st.keyCnt)
          values := st.values.set keyId (st.values.getD st.keyCnt 0)
          head := b.1, nextAtA := a.2, nextAtB := b.2 }
        (values.set keyId (values.getD st.keyCnt 0)) keyId (ends P st st.keyCnt).1
        (ends P st st.keyCnt).2
      refine (congrArg (· >>= fun r => pure (r.2.1, r.2.2)) hfix).trans ?_
      rw [ok_bind]
      cases fixHalfTree P false true true _ keyId (ends P st st.keyCnt).1
        (ends P st st.keyCnt).2 <;> rfl

def erasedValues (values : List ℕ) (cnt keyId : ℕ) : List ℕ :=
  if keyId ≠ cnt - 1 then values.set keyId (values.getD (cnt - 1) 0) else values

theorem detach_values (ha hb keyId : ℕ) : detach P (withValues st values) ha hb keyId =
    (detach P st ha hb keyId).map
      fun r => (withValues r.1 (erasedValues values st.keyCnt keyId), r.2) := by
  have hrun : ∀ s : Othello K, detach P s ha hb keyId = (do
      let a ← orOutOfBounds (unlinkCell s.head s.nextAtA ha keyId)
      let b ← orOutOfBounds (unlinkCell a.1 s.nextAtB hb keyId)
      if keyId ≠ s.keyCnt - 1 then
        moveLast P { s with
          keyCnt := s.keyCnt - 1, head := b.1, nextAtA := a.2, nextAtB := b.2 } keyId
      else return ({ s with
        keyCnt := s.keyCnt - 1, head := b.1, nextAtA := a.2, nextAtB := b.2 }, [])) := fun _ => rfl
  have hA : orOutOfBounds (unlinkCell (withValues st values).head (withValues st values).nextAtA
      ha keyId) = orOutOfBounds (unlinkCell st.head st.nextAtA ha keyId) := rfl
  rw [hrun, hrun, hA, erasedValues]
  cases orOutOfBounds (unlinkCell st.head st.nextAtA ha keyId) with
  | error f => rfl
  | ok a =>
    have hB : orOutOfBounds (unlinkCell a.1 (withValues st values).nextAtB hb keyId) =
        orOutOfBounds (unlinkCell a.1 st.nextAtB hb keyId) := rfl
    have hcnt : (withValues st values).keyCnt = st.keyCnt := rfl
    rw [ok_bind, ok_bind, hB, hcnt]
    cases orOutOfBounds (unlinkCell a.1 st.nextAtB hb keyId) with
    | error f => rfl
    | ok b =>
      rw [ok_bind, ok_bind]
      by_cases hlast : keyId ≠ st.keyCnt - 1
      · rw [if_pos hlast, if_pos hlast, if_pos hlast]
        exact moveLast_values P { st with
          keyCnt := st.keyCnt - 1, head := b.1, nextAtA := a.2, nextAtB := b.2 } values keyId
      · rw [if_neg hlast, if_neg hlast, if_neg hlast]
        rfl

theorem eraseId_values (k : K) (keyId : ℕ) : eraseId P (withValues st values) k keyId =
    (eraseId P st k keyId).map
      fun r => (withValues r.1 (erasedValues values st.keyCnt keyId), r.2) := by
  have hidx : getIndices P (withValues st values) k =
      ((getIndices P st k).1, (getIndices P st k).2) := rfl
  have hidx' : getIndices P st k = ((getIndices P st k).1, (getIndices P st k).2) := rfl
  simp only [eraseId, hidx, detach_values]
  rw [hidx']
  cases detach P st (getIndices P st k).1 (getIndices P st k).2 keyId with
  | error f => rfl
  | ok r =>
    by_cases hset : P.maintainDisjointSet = true
    case neg =>
      simp only [if_neg hset]
      rfl
    case pos =>
      simp only [if_pos hset, Except.map, ok_bind, connect_values]
      cases connect P r.1 (getIndices P st k).1 with
      | error f => rfl
      | ok r₁ =>
        simp only [Except.map, ok_bind, connect_values]
        cases connect P r₁.1 (getIndices P st k).2 <;> rfl

theorem eraseAt_values (keyId : ℕ) : eraseAt P (withValues st values) keyId =
    (eraseAt P st keyId).map (withValues · (erasedValues values st.keyCnt keyId)) := by
  have hcnt : (withValues st values).keyCnt = st.keyCnt := rfl
  have hkey : keyAt (withValues st values) keyId = keyAt st keyId := rfl
  simp only [eraseAt, hcnt, hkey, eraseKey_eq, eraseId_values]
  by_cases hk : keyId ≥ st.keyCnt
  · simp only [if_pos hk]
    rfl
  · simp only [if_neg hk]
    cases eraseId P st (keyAt st keyId) keyId <;> rfl

end Values

variable [DecidableEq K]

theorem composeFrom_spec (migration : ℕ → Option ℕ) (h : Reachable P st) (values : List ℕ)
    (hlen : values.length = st.values.length) (i fuel : ℕ) (hfuel : st.keyCnt - i < fuel) :
    ∃ st' values', composeFrom P migration (withValues st values) i fuel =
        .ok (withValues st' values') ∧ Reachable P st' ∧
      values'.length = st'.values.length := by
  induction fuel generalizing st values i with
  | zero => omega
  | succ fuel ih =>
    have hcnt : (withValues st values).keyCnt = st.keyCnt := rfl
    by_cases hi : i < st.keyCnt
    case neg =>
      refine ⟨st, values, ?_, h, hlen⟩
      rw [composeFrom, hcnt, if_neg hi]
    case pos =>
      rw [composeFrom, hcnt, if_pos hi]
      cases migration ((withValues st values).values.getD i 0) with
      | none => exact ih h values hlen (i + 1) (by omega)
      | some dst =>
        by_cases hdst : dst = 2 ^ 16 - 1
        case pos =>
          obtain ⟨st₁, flips, hrun, -, -, -, -, her⟩ := h.sound.eraseId_spec hi
          have herase : eraseAt P st i = .ok st₁ := by
            simp only [eraseAt, if_neg (Nat.not_le_of_lt hi), eraseKey_eq, hrun, ok_bind]
            rfl
          have h₁ : Reachable P st₁ := .eraseAt h herase
          have hlen₁ : (erasedValues values st.keyCnt i).length = st₁.values.length := by
            rw [h₁.sound.values, her.length, ← h.sound.values, ← hlen, erasedValues]
            split
            · exact List.length_set ..
            · rfl
          have hcnt₁ := her.keyCnt
          obtain ⟨st', values', hrest, h', hlen'⟩ := ih h₁ _ hlen₁ i (by omega)
          refine ⟨st', values', ?_, h', hlen'⟩
          dsimp only
          rw [if_pos hdst, eraseAt_values, herase]
          exact hrest
        case neg =>
          have hset : (values.set i dst).length = st.values.length :=
            (List.length_set ..).trans hlen
          obtain ⟨st', values', hrest, h', hlen'⟩ :=
            ih h _ hset (i + 1) (by omega)
          refine ⟨st', values', ?_, h', hlen'⟩
          dsimp only
          rw [if_neg hdst]
          exact hrest

/-- In every state of every run: `prepareDP`, with 32-bit numbers for the bits of all cells, and
`compose` where cells are kept fill the data memory right exactly if the state they fill from is
refillable. -/
theorem reached_refill_iff (hD : P.DL = 0) (h : Reachable P st)
    (hfits : P.maintainDP = false → nodes st * P.VDL + 63 < 2 ^ 32) :
    ((∃ st', prepareDP P st = .ok st' ∧ ∀ i, i < st'.keyCnt → Answered P st' i) ↔
      (P.maintainDP = false → Refillable P (memResize P { st with maintainingDP := true }))) ∧
    (P.maintainDP = true → ∀ migration, ∃ st₁,
      composeFrom P migration st 0 (st.keyCnt + 1) = .ok st₁ ∧
      ((∃ st', compose P st migration = .ok st' ∧ ∀ i, i < st'.keyCnt → Answered P st' i) ↔
        Refillable P st₁)) := by
  refine ⟨prepareDP_iff hD h.sound hfits, fun hDP migration => ?_⟩
  obtain ⟨st₂, values, hloop, h₂, hlen⟩ :=
    composeFrom_spec migration h st.values rfl 0 (st.keyCnt + 1) (by omega)
  have hs := h₂.sound
  have hind : Indexed P (withValues st₂ values) st₂.keyCnt := hs.toIndexed.withValues values hlen
  have hm : (withValues st₂ values).maintainingDP = true := hs.cells.maintaining.trans hDP
  have hz : Sized P.toConfig (withValues st₂ values).mem (nodes (withValues st₂ values)) :=
    hs.cells.sized hDP
  have hrun : compose P st migration = fillValue P true (withValues st₂ values) := by
    have hloop' : composeFrom P migration st 0 (st.keyCnt + 1) = .ok (withValues st₂ values) :=
      hloop
    simp only [compose, hloop', ok_bind, hm, if_true]
  refine ⟨withValues st₂ values, hloop, ?_⟩
  rw [hrun]
  exact refill_iff hD true hind.toShape hind.linking hm hz

def refillSetup : Setup ℕ :=
  { L := 1, DL := 0, vBits := 8, maintainDP := false, maintainDisjointSet := true
    vdl_le := bit_cells_fit, l_le := bit_values_fit
    hab := fun _ k => BitVec.ofNat 64 k, hd := fun _ k => BitVec.ofNat 32 k
    rand := fun i => BitVec.ofNat 64 i }

/-- The states after the key 5 was inserted, and after it was erased. -/
def refillRuns : Except Fault (Bool × Othello ℕ) → Option (Othello ℕ × Othello ℕ)
  | .ok (true, st) =>
    match insert refillSetup true st (5, 1) with
    | .ok (some _, st₁) =>
      match erase refillSetup st₁ 5 with
      | .ok st₂ => some (st₁, st₂)
      | _ => none
    | _ => none
  | _ => none

theorem refillRuns_reachable {st₁ st₂ : Othello ℕ}
    (h : refillRuns (construct refillSetup 4 0 0) = some (st₁, st₂)) :
    Reachable refillSetup st₁ ∧ Reachable refillSetup st₂ := by
  obtain ⟨st, hc, h⟩ := of_construct h (by simp [refillRuns]) (by simp [refillRuns])
  rw [refillRuns] at h
  split at h
  case h_2 => cases h
  case h_1 x st₁' hi =>
    split at h
    case h_2 => cases h
    case h_1 st₂' he =>
      obtain ⟨rfl, rfl⟩ := Prod.mk.inj (Option.some.inj h)
      have hinserted : Reachable refillSetup st₁' := .insert (.construct hc) hi
      exact ⟨hinserted, .erase hinserted he⟩

/-- One key is stored, and its node of array A is the only root. -/
def RootedAtA (st : Othello ℕ) : Prop :=
  st.keyCnt = 1 ∧ DisjointSet.isRoot st.connectivityForest (ends refillSetup st 0).1 = true ∧
    ∀ r, r < st.ma + st.mb → DisjointSet.isRoot st.connectivityForest r = true → r < st.ma

instance (st : Othello ℕ) : Decidable (RootedAtA st) := inferInstanceAs (Decidable (_ ∧ _ ∧ _))

def refillAsserts (r : Except Fault (Othello ℕ)) : Bool :=
  match r with
  | .error .assertion => true
  | _ => false

theorem refillRuns_facts : (refillRuns (construct refillSetup 4 0 0)).map (fun p =>
    (decide (RootedAtA p.1 ∧ nodes p.1 * refillSetup.VDL + 63 < 2 ^ 32),
      decide (nodes p.2 * refillSetup.VDL + 63 < 2 ^ 32),
      refillAsserts (prepareDP refillSetup p.2))) = some (true, true, true) := by decide +kernel

theorem refillSetup_inserted : ∃ st, Reachable refillSetup st ∧ RootedAtA st ∧
    nodes st * refillSetup.VDL + 63 < 2 ^ 32 := by
  obtain ⟨⟨st₁, st₂⟩, hrun, hfacts⟩ := Option.map_eq_some_iff.mp refillRuns_facts
  simp only [Prod.mk.injEq, decide_eq_true_eq] at hfacts
  exact ⟨st₁, (refillRuns_reachable hrun).1, hfacts.1⟩

theorem refillSetup_erased : ∃ st, Reachable refillSetup st ∧
    nodes st * refillSetup.VDL + 63 < 2 ^ 32 ∧ prepareDP refillSetup st = .error .assertion := by
  obtain ⟨⟨st₁, st₂⟩, hrun, hfacts⟩ := Option.map_eq_some_iff.mp refillRuns_facts
  simp only [Prod.mk.injEq, decide_eq_true_eq] at hfacts
  obtain ⟨-, hfits, hfails⟩ := hfacts
  refine ⟨st₂, (refillRuns_reachable hrun).2, hfits, ?_⟩
  generalize prepareDP refillSetup st₂ = r at hfails
  rcases r with f | st'
  · cases f <;> first | rfl | cases hfails
  · cases hfails

/-- The key 5 is refilled after its insertion; once it is erased the refill fails. -/
theorem reached_refill_iff_empty :
    (∃ st st', Reachable refillSetup st ∧ st.keyCnt = 1 ∧ prepareDP refillSetup st = .ok st' ∧
      ∀ i, i < st'.keyCnt → Answered refillSetup st' i) ∧
    ∃ st, Reachable refillSetup st ∧
      (¬ ∃ st', prepareDP refillSetup st = .ok st' ∧
        ∀ i, i < st'.keyCnt → Answered refillSetup st' i) ∧
      ¬ Refillable refillSetup (memResize refillSetup { st with maintainingDP := true }) := by
  constructor
  · obtain ⟨st, h, ⟨hcnt, hroot, hA⟩, hfits⟩ := refillSetup_inserted
    have hrefill : Refillable refillSetup (memResize refillSetup
        { st with maintainingDP := true }) := by
      refine ⟨hA, fun i hi => Or.inl ⟨(ends refillSetup st 0).1, ?_, hroot, ?_⟩⟩
      · exact (h.sound.toShape.ends_bounds 0).1.trans_le (Nat.le_add_right ..)
      · have h0 : i = 0 := Nat.lt_one_iff.mp (hcnt ▸ hi)
        rw [h0]
        exact Linked.refl _
    obtain ⟨st', hprep, hans⟩ := (reached_refill_iff rfl h fun _ => hfits).1.mpr fun _ => hrefill
    exact ⟨st, st', h, hcnt, hprep, hans⟩
  · obtain ⟨st, h, hfits, hfails⟩ := refillSetup_erased
    have hnone : ¬ ∃ st', prepareDP refillSetup st = .ok st' ∧
        ∀ i, i < st'.keyCnt → Answered refillSetup st' i := by
      rintro ⟨st', hok, -⟩
      cases hfails.symm.trans hok
    exact ⟨st, h, hnone, fun hrefill =>
      hnone ((reached_refill_iff rfl h fun _ => hfits).1.mpr fun _ => hrefill)⟩

/-- After a key was inserted and erased the refill meets the assertion. -/
theorem refill_unsound : ¬ ∀ st, Reachable refillSetup st →
    ∃ st', prepareDP refillSetup st = .ok st' ∧
      ∀ i, i < st'.keyCnt → Answered refillSetup st' i := by
  intro hall
  obtain ⟨st, h, -, hfails⟩ := refillSetup_erased
  obtain ⟨st', hok, -⟩ := hall st h
  cases hfails.symm.trans hok

end OthelloRefill
