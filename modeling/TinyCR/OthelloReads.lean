import TinyCR.OthelloCapacity
import TinyCR.OthelloRefill
import TinyCR.OthelloDigests

/-! # Reading values back

After inserts alone the disjoint set keeps its roots in array A, so a refill reaches every key.
What both queries then read, with digests below the values. -/
namespace OthelloReads

open ParentPointers PackedCells EdgeForest EdgeLabels NodeLists ComponentSets ControlPlaneOthello
  DataPlaneOthello
  OthelloInvariant OthelloForests OthelloDigests OthelloRefill OthelloCapacity

variable {K : Type} [Inhabited K] {P : Setup K} {st st' : Othello K} {n : ℕ}

structure Rooted (P : Setup K) (st : Othello K) (n : ℕ) : Prop where
  components : Components st.connectivityForest (nodes st) (graph P st n)
  roots : RootsIn (· < st.ma) st.connectivityForest (graph P st n)

theorem Tested.rooted (h : Tested P st n) : Rooted P st n := ⟨h.components, h.roots⟩

theorem Rooted.congr (h : Rooted P st n) (ht : SameTables st st')
    (hf : st'.connectivityForest = st.connectivityForest)
    (hg : ∀ e u v, graph P st' n e u v ↔ graph P st n e u v) : Rooted P st' n := by
  have hgraph : graph P st' n = graph P st n := by
    funext e u v
    exact propext (hg e u v)
  refine ⟨?_, ?_⟩
  · rw [hf, hgraph, nodes_same ht]
    exact h.components
  · rw [hf, hgraph, ht.ma]
    exact h.roots

theorem Rooted.filled (h : Rooted P st n) (hfill : OnlyFilled st st') : Rooted P st' n := by
  rw [hfill]
  exact ⟨h.components, h.roots⟩

theorem Rooted.link (h : Rooted P st n) (hsh : Shape P st) {st₁ st₂ : Othello K}
    (hconn : isConnectedDFS P st (ends P st n).1 (ends P st n).2 = .ok (false, st₁))
    (hadd : addEdge st₁ n (ends P st n).1 (ends P st n).2 = .ok st₂) : Rooted P st₂ (n + 1) := by
  obtain ⟨hA, hB, hBn⟩ := hsh.ends_bounds n
  have hAn : (ends P st n).1 < nodes st := by omega
  have hU := undirected_graph P st n
  have hlen := h.components.length
  have hmerged : ∀ mem₁, Components mem₁ (nodes st) (graph P st n) →
      DisjointSet.Compressed st.connectivityForest mem₁ →
      (∀ mem₂, (∀ x, DisjointSet.parent mem₂ x ≠ none ↔ DisjointSet.parent mem₁ x ≠ none ∨
          Rep (DisjointSet.parent mem₁) (ends P st n).1 x ∨
          Rep (DisjointSet.parent mem₁) (ends P st n).2 x) →
        ∀ x, DisjointSet.parent mem₂ x ≠ none ↔
          DisjointSet.parent st.connectivityForest x ≠ none ∨
          Rep (DisjointSet.parent st.connectivityForest) (ends P st n).1 x ∨
          Rep (DisjointSet.parent st.connectivityForest) (ends P st n).2 x) →
      st₁ = { st with connectivityForest := mem₁ } → Rooted P st₂ (n + 1) := by
    intro mem₁ hcomp hcompr htouch hst₁
    obtain ⟨ra, rb, mem₂, hmerge, hcomp₂, hra, hrb, hmove, ht⟩ := hcomp.merge hAn hBn n
    have hroots := h.roots.merge h.components hU (fun e u v hg => (hsh.graph_lt hg).1) hAn hBn hA n
      hcompr hra hrb hmove (htouch mem₂ ht)
    rw [hst₁, addEdge_eq _ hmerge] at hadd
    obtain rfl := Except.ok.inj hadd
    have hgraph : graph P (edgeAdded { st with connectivityForest := mem₁ } n (ends P st n).1
        (ends P st n).2 mem₂) (n + 1) =
        withEdge (graph P st n) n (ends P st n).1 (ends P st n).2 := by
      funext e u v
      exact propext graph_succ
    refine ⟨?_, ?_⟩
    · rw [hgraph]
      exact hcomp₂
    · rw [hgraph]
      exact hroots
  by_cases hset : P.maintainDisjointSet = true
  case pos =>
    obtain ⟨same, mem₁, hsame, hcomp, -, hcompr, ht₁⟩ := h.components.sameSet hAn hBn
    rw [isConnectedDFS, if_pos hset, hsame] at hconn
    obtain ⟨-, hst₁⟩ := Prod.mk.inj (Except.ok.inj hconn)
    refine hmerged mem₁ hcomp hcompr (fun mem₂ ht₂ => ?_) hst₁.symm
    exact touched_trans hcompr (hlen ▸ hAn) (hlen ▸ hBn) ht₁ ht₂
  case neg =>
    -- the search leaves the disjoint set alone
    have hst₁ : st₁ = st := by
      rw [isConnectedDFS, if_neg hset] at hconn
      split at hconn
      · exact (Prod.mk.inj (Except.ok.inj hconn)).2.symm
      · obtain ⟨found, -, hret⟩ := of_bind_ok hconn
        exact (Prod.mk.inj (Except.ok.inj hret)).2.symm
    exact hmerged st.connectivityForest h.components
      ⟨rfl, h.components.valid, fun _ _ _ => Iff.rfl⟩ (fun _ ht => ht) hst₁

theorem Rooted.insertStored (h : Rooted P st st.keyCnt) (hc : Consistent P st st.keyCnt)
    (hlt : st.keyCnt < st.keys.length) {DoNotRebuild : Bool} {kv : K × ℕ} {x : BitVec 64}
    (hrun : insertStored P DoNotRebuild st.keyCnt st kv = .ok (some x, st')) :
    Rooted P st' st'.keyCnt := by
  obtain ⟨hstored, hends⟩ := hc.stored hlt kv
  have hidx : getIndices P (storeKey st st.keyCnt kv) kv.1 =
      ends P (storeKey st st.keyCnt kv) st.keyCnt := hends.symm
  have hroot : Rooted P (storeKey st st.keyCnt kv) st.keyCnt := by
    refine h.congr ⟨rfl, rfl, rfl, rfl⟩ rfl fun e u v => graph_congr fun e he => ?_
    rw [ends, ends, keyAt, keyAt, storeKey, getD_set_of_ne _ he.ne]
    rfl
  simp only [OthelloInvariant.insertStored, if_neg (Nat.not_le.mpr hlt), hidx] at hrun
  obtain ⟨⟨connected, st₁⟩, hconn, hrun⟩ := of_bind_ok hrun
  cases connected
  case true =>
    cases DoNotRebuild
    case true => cases hrun
    case false =>
      obtain ⟨⟨built, st₂⟩, hbuild, hrun⟩ := of_bind_ok hrun
      obtain ⟨c, st₁', hconn', -, hcons, -⟩ := hc.store_link hlt kv
      rw [← hends] at hconn'
      obtain ⟨-, rfl⟩ := Prod.mk.inj (Except.ok.inj (hconn'.symm.trans hconn))
      have hm : st₁'.maintainingDP = P.maintainDP := hcons.cells.maintaining
      obtain ⟨ok, st₂', hbuild', -, -, -, -, hbuilt, -⟩ := hcons.toShape.build_spec
        fun h => hcons.cells.sized (hm.symm.trans h)
      obtain ⟨rfl, rfl⟩ := Prod.mk.inj (Except.ok.inj (hbuild'.symm.trans hbuild))
      cases ok
      case false => cases hrun
      case true =>
        obtain ⟨-, rfl⟩ := Prod.mk.inj (Except.ok.inj hrun)
        exact Tested.rooted (hbuilt rfl).toTested
  case false =>
    obtain ⟨st₂, hadd, hrun⟩ := of_bind_ok hrun
    obtain ⟨⟨y, st₃⟩, hfix, hrun⟩ := of_bind_ok hrun
    obtain ⟨-, rfl⟩ := Prod.mk.inj (Except.ok.inj hrun)
    have hlinked := hroot.link hstored.toShape hconn hadd
    obtain ⟨hfilled, hsame⟩ := returns_fixHalfTreeDFS _ _ _ _ _ _ _ _ hfix
    have hext := (hsame.trans (returns_addEdge _ _ _ _ _ hadd)).trans
      (returns_isConnectedDFS _ _ _ _ hconn)
    have hcnt : st₃.keyCnt = st.keyCnt + 1 := congrArg Extents.keyCnt hext
    rw [hcnt]
    exact hlinked.filled hfilled

section Runs

variable [DecidableEq K]

/-- The states that successful inserts reach. -/
inductive Inserted (P : Setup K) : Othello K → Prop
  | construct {scaledCapacity draws hd st} :
    construct P scaledCapacity hd draws = .ok (true, st) → Inserted P st
  | insert {st DoNotRebuild kv x st'} : Inserted P st →
    insert P DoNotRebuild st kv = .ok (some x, st') → Inserted P st'

theorem Inserted.reachable (h : Inserted P st) : Reachable P st := by
  induction h with
  | construct hrun => exact .construct hrun
  | insert _ hrun ih => exact .insert ih hrun

theorem Rooted.insert (h : Rooted P st st.keyCnt) (hc : Consistent P st st.keyCnt)
    {DoNotRebuild : Bool} {kv : K × ℕ} {x : BitVec 64}
    (hrun : insert P DoNotRebuild st kv = .ok (some x, st')) : Rooted P st' st'.keyCnt := by
  cases hmem : isMember P st kv.1 with
  | true =>
    simp only [ControlPlaneOthello.insert, hmem, if_true] at hrun
    cases hrun
  | false =>
    rw [insert_eq DoNotRebuild st hmem] at hrun
    obtain ⟨⟨ok, st₁⟩, hroom, hrun⟩ := of_bind_ok hrun
    cases ok with
    | false => cases hrun
    | true =>
      obtain ⟨hcons, hentries, -, hlt⟩ := hc.makeRoom_spec hroom
      have hrooted : Rooted P st₁ st₁.keyCnt := by
        have hle : st.keyCnt ≤ max (st.keyCnt + 1) st.minimalKeyCapacity :=
          le_max_of_le_left (Nat.le_succ _)
        rcases hc.keyArrays.makeRoom_spec hroom with
          ⟨-, -, rfl⟩ | ⟨-, nextMb, -, ⟨-, -, rfl⟩ | ⟨-, -, -, -, hbuilt, -⟩⟩
        · exact h
        · obtain ⟨-, hsame, hstore, -, -⟩ := hc.keyArrays.reserve hle
          rw [hsame.keyCnt]
          exact h.congr hstore.tables hstore.forest fun e u v => hstore.graph_iff e u v
        · exact Tested.rooted (hbuilt rfl).toTested
      have hrun' : OthelloInvariant.insertStored P DoNotRebuild st₁.keyCnt st₁ kv =
          .ok (some x, st') := by
        rw [hentries.keyCnt]
        exact hrun
      exact hrooted.insertStored hcons hlt hrun'

theorem Inserted.rooted (h : Inserted P st) : Rooted P st st.keyCnt := by
  induction h with
  | construct hrun =>
    obtain ⟨-, -, -, -, hbuilt⟩ := construct_consistent hrun
    exact Tested.rooted hbuilt.toTested
  | insert hst hrun ih => exact ih.insert hst.reachable.sound.toConsistent hrun

end Runs

/-- The same template arguments with the data memory maintained. -/
def exported (P : Setup K) : Setup K :=
  { P with maintainDP := true, vdl_le := P.cells_fit, l_le := P.values_fit }

theorem cells_of_answers (hm : st.maintainingDP = true) (hz : Sized P.toConfig st.mem (nodes st))
    (h : ∀ e u v, graph P st n e u v → Answers P st e u v) : Cells (exported P) st n where
  maintaining := hm
  sized _ := ⟨hz.fits, hz.length_eq⟩
  labels _ e u v hg := (h e u v hg).label hm
  taken _ hD e u v hg := (h e u v hg).taken hm hD

theorem Inserted.prepareDP_spec [DecidableEq K] (h : Inserted P st) (hDP : P.maintainDP = false)
    (hfits : nodes st * P.VDL + 63 < 2 ^ 32) :
    ∃ st₂, prepareDP P st = .ok { st₂ with maintainingDP := false } ∧
      OnlyFilled (toFill P st) st₂ ∧ Shape P st₂ ∧ MemFits P st₂ ∧
      ∀ e u v, graph P st st.keyCnt e u v → Answers P st₂ e u v := by
  obtain ⟨hsh, hl, hz⟩ := Sound.toFill h.reachable.sound hfits
  have hroot := h.rooted
  have htested : Tested P (toFill P st) (toFill P st).keyCnt :=
    { hsh with linking := hl, components := hroot.components, roots := hroot.roots }
  obtain ⟨st₂, hfill, honly, hsh₂, hz₂, hans⟩ := htested.fillValue_spec false (by simp) fun _ => hz
  refine ⟨st₂, ?_, honly, hsh₂, hz₂, hans⟩
  rw [prepareDP_eq hDP, hfill]
  rfl

/-- The value after the shift by the digest bits, cut to the width of a cell and shifted back. -/
def shiftedBack (P : Setup K) (value : ℕ) : ℕ :=
  (shiftedValue P value).toNat % 2 ^ P.VDL / 2 ^ P.DL

omit [Inhabited K] in
theorem shiftedBack_eq_iff (value : ℕ) : shiftedBack P value = value % 2 ^ P.L ↔
    ∀ j, j < P.L → (shiftedValue P value).getLsbD (j + P.DL) = value.testBit j := by
  have hbit : ∀ j, (shiftedBack P value).testBit j =
      (decide (j < P.L) && (shiftedValue P value).getLsbD (j + P.DL)) := by
    intro j
    have hvdl : P.VDL = P.L + P.DL := rfl
    rw [shiftedBack, Nat.testBit_div_two_pow, Nat.testBit_mod_two_pow, BitVec.testBit_toNat]
    congr 1
    exact decide_eq_decide.mpr (by omega)
  constructor
  · intro heq j hj
    have := hbit j
    rw [heq, Nat.testBit_mod_two_pow, decide_eq_true hj, Bool.true_and, Bool.true_and] at this
    exact this.symm
  · intro heq
    apply Nat.eq_of_testBit_eq
    intro j
    rw [hbit, Nat.testBit_mod_two_pow]
    by_cases hj : j < P.L
    · rw [heq j hj]
    · rw [decide_eq_false hj, Bool.false_and, Bool.false_and]

/-- Neither query loses a bit of the value: the cut to `V` in the control plane, or without the
data memory the unmasked value and the shift of the export. -/
def Readable (P : Setup K) (value : ℕ) : Prop :=
  if P.maintainDP then fits P value
  else value < 2 ^ P.L ∧ shiftedBack P value = value % 2 ^ P.L

structure ReadsBack (P : Setup K) (st st' : Othello K) (i : ℕ) : Prop where
  control : query P st (keyAt st i) = some (st.values.getD i 0 % 2 ^ P.L)
  exported : DataPlaneOthello.query P (fullSync st') (keyAt st i) =
    (true, BitVec.ofNat 64 (st.values.getD i 0 % 2 ^ P.L))

theorem exported_iff (hsh : Shape P st) (hz : Sized P.toConfig st.mem (nodes st))
    (hm : st.maintainingDP = true) (hD : P.DL ≠ 0)
    (h : ∀ e u v, graph P st n e u v → Answers P st e u v) {i : ℕ} (hi : i < n) :
    DataPlaneOthello.query P (fullSync st) (keyAt st i) =
        (true, BitVec.ofNat 64 (st.values.getD i 0 % 2 ^ P.L)) ↔
      shiftedBack P (st.values.getD i 0) = st.values.getD i 0 % 2 ^ P.L := by
  have hcells := cells_of_answers hm hz h
  have hg := graph_ends P st hi
  have hread : DataPlaneOthello.query P (fullSync st) (keyAt st i) =
      (true, ((memAt P st (ends P st i).1 ^^^ memAt P st (ends P st i).2) >>> P.DL) &&&
        lowMask P.vBits) := dataPlane_query_cells hcells rfl hi
  have hhigh : ∀ b, P.VDL ≤ b →
      (memAt P st (ends P st i).1 ^^^ memAt P st (ends P st i).2).getLsbD b = false :=
    fun b hb => by
    have hcell : ∀ w, w < nodes st → (memAt P st w).getLsbD b = false := fun w hw => by
      rw [memAt, getLsbD_memGet hz hw, decide_eq_false (Nat.not_lt.mpr hb), Bool.false_and]
    rw [BitVec.getLsbD_xor, hcell _ (hsh.graph_lt hg).1, hcell _ (hsh.graph_lt hg).2]
    rfl
  have hbits : ∀ j, j < P.L →
      (memAt P st (ends P st i).1 ^^^ memAt P st (ends P st i).2).getLsbD (j + P.DL) =
        (shiftedValue P (st.values.getD i 0)).getLsbD (j + P.DL) := by
    intro j hj
    have hvdl : P.VDL = P.L + P.DL := rfl
    have hmask : P.DEMASK.getLsbD (j + P.DL) = false := by
      rw [Config.DEMASK, getLsbD_mask, decide_eq_false (by omega), Bool.false_and]
    rw [(h i _ _ hg).exact hm hD _ (by omega) (by omega), filledLabel, BitVec.getLsbD_or,
      BitVec.getLsbD_and, hmask, Bool.and_false, Bool.or_false]
  rw [hread, Prod.mk.injEq, and_iff_right rfl, read_eq_iff hhigh, shiftedBack_eq_iff]
  exact forall₂_congr fun j hj => by rw [hbits j hj]

/-- In every state that successful inserts reach, both queries read the stored values exactly if
no value loses a bit; where the export makes the cells, their bits have 32-bit numbers. -/
theorem inserted_reads_iff [DecidableEq K] (h : Inserted P st) (hD : P.DL ≠ 0)
    (hfits : P.maintainDP = false → nodes st * P.VDL + 63 < 2 ^ 32) :
    (∃ st', prepareDP P st = .ok st' ∧ ∀ i, i < st.keyCnt → ReadsBack P st st' i) ↔
      ∀ i, i < st.keyCnt → Readable P (st.values.getD i 0) := by
  have hcons := h.reachable.sound.toConsistent
  cases hDP : P.maintainDP with
  | true =>
    have hprep : prepareDP P st = .ok st := by
      rw [prepareDP, if_pos hDP]
      rfl
    simp only [Readable, hDP, if_true]
    constructor
    · rintro ⟨st', -, hall⟩ i hi
      apply (answer_eq_iff hDP _).mp
      exact Option.some.inj ((query_eq hcons hi).symm.trans (hall i hi).control)
    · intro hfits
      refine ⟨st, hprep, fun i hi => ⟨?_, dataPlane_query_eq hcons hDP hi (hfits i hi)⟩⟩
      rw [query_eq hcons hi, (answer_eq_iff hDP _).mpr (hfits i hi)]
  | false =>
    obtain ⟨st₂, hprep, honly, hsh, hz, hans⟩ := h.prepareDP_spec hDP (hfits hDP)
    have hfields : st₂.maintainingDP = true ∧ graph P st₂ st.keyCnt = graph P st st.keyCnt ∧
        (∀ i, keyAt st₂ i = keyAt st i) ∧ st₂.values = st.values := by
      rw [honly]
      exact ⟨rfl, rfl, fun _ => rfl, rfl⟩
    obtain ⟨hm, hgraph, hkeys, hvalues⟩ := hfields
    rw [← hgraph] at hans
    have hexport : ∀ i, i < st.keyCnt → (DataPlaneOthello.query P
        (fullSync { st₂ with maintainingDP := false }) (keyAt st i) =
          (true, BitVec.ofNat 64 (st.values.getD i 0 % 2 ^ P.L)) ↔
        shiftedBack P (st.values.getD i 0) = st.values.getD i 0 % 2 ^ P.L) := by
      intro i hi
      rw [← hkeys, ← hvalues]
      exact exported_iff hsh (hz hm) hm hD hans hi
    have hcontrol : ∀ i, i < st.keyCnt → (query P st (keyAt st i) =
        some (st.values.getD i 0 % 2 ^ P.L) ↔ st.values.getD i 0 < 2 ^ P.L) := by
      intro i hi
      have hans : answer P (st.values.getD i 0) = st.values.getD i 0 := by
        rw [answer, hDP]
        rfl
      rw [query_eq hcons hi, hans, Option.some.injEq, eq_comm]
      exact Nat.mod_eq_iff_lt (Nat.two_pow_pos _).ne'
    have hreadable : ∀ value, Readable P value ↔
        value < 2 ^ P.L ∧ shiftedBack P value = value % 2 ^ P.L := fun value => by
      simp only [Readable, hDP, Bool.false_eq_true, if_false]
    constructor
    · rintro ⟨st', hprep', hall⟩ i hi
      obtain rfl := Except.ok.inj (hprep.symm.trans hprep')
      rw [hreadable]
      exact ⟨(hcontrol i hi).mp (hall i hi).control, (hexport i hi).mp (hall i hi).exported⟩
    · intro hall
      refine ⟨_, hprep, fun i hi => ?_⟩
      obtain ⟨hlt, hback⟩ := (hreadable _).mp (hall i hi)
      exact ⟨(hcontrol i hi).mpr hlt, (hexport i hi).mpr hback⟩

def byteSetup : Setup ℕ :=
  { L := 8, DL := 6, vBits := 8, maintainDP := true, maintainDisjointSet := true
    vdl_le := by decide, l_le := by decide
    hab := fun _ k => BitVec.ofNat 64 k, hd := fun _ k => BitVec.ofNat 32 k
    rand := fun i => BitVec.ofNat 64 i }

/-- Whether key 5, stored with `value`, is the first key and is read as `low`. -/
def readsAs (value low : ℕ) : Except Fault (Bool × Othello ℕ) → Bool
  | .ok (true, st) =>
    match insert byteSetup true st (5, value) with
    | .ok (some _, st') => decide (st'.keyCnt = 1) && decide (st'.values.getD 0 0 = value) &&
      decide (query byteSetup st' (keyAt st' 0) = some low)
    | _ => false
  | _ => false

theorem readsAs_inserted {value low : ℕ}
    (hruns : readsAs value low (construct byteSetup 4 0 0) = true) :
    ∃ st, Inserted byteSetup st ∧ st.keyCnt = 1 ∧ st.values.getD 0 0 = value ∧
      query byteSetup st (keyAt st 0) = some low := by
  obtain ⟨st, hc, hruns⟩ := of_construct hruns (by simp [readsAs]) (by simp [readsAs])
  rw [readsAs] at hruns
  split at hruns
  case h_2 => simp at hruns
  case h_1 x st' hi =>
    simp only [Bool.and_eq_true, decide_eq_true_eq] at hruns
    exact ⟨st', .insert (.construct hc) hi, hruns.1.1, hruns.1.2, hruns.2⟩

theorem byteSetup_reads : readsAs 3 3 (construct byteSetup 4 0 0) = true ∧
    readsAs 255 3 (construct byteSetup 4 0 0) = true := by decide +kernel

theorem byteSetup_readable : Readable byteSetup 3 ∧ ¬ Readable byteSetup 255 := by
  simp only [Readable, fits, byteSetup]
  decide

/-- Two bits of a value are left above six digest bits. -/
theorem inserted_reads_iff_byte :
    (∃ st st' : Othello ℕ, Inserted byteSetup st ∧ st.keyCnt = 1 ∧ st.values.getD 0 0 = 3 ∧
      prepareDP byteSetup st = .ok st' ∧ ∀ i, i < st.keyCnt → ReadsBack byteSetup st st' i) ∧
    ∃ st : Othello ℕ, Inserted byteSetup st ∧ st.keyCnt = 1 ∧ st.values.getD 0 0 = 255 ∧
      ¬ ∃ st', prepareDP byteSetup st = .ok st' ∧
        ∀ i, i < st.keyCnt → ReadsBack byteSetup st st' i := by
  constructor
  · obtain ⟨st, h, hcnt, hvalue, -⟩ := readsAs_inserted byteSetup_reads.1
    have hreadable : ∀ i, i < st.keyCnt → Readable byteSetup (st.values.getD i 0) := by
      intro i hi
      have h0 : i = 0 := Nat.lt_one_iff.mp (hcnt ▸ hi)
      rw [h0, hvalue]
      exact byteSetup_readable.1
    obtain ⟨st', hprep, hreads⟩ :=
      (inserted_reads_iff h (by decide) fun hDP => absurd hDP (by decide)).mpr hreadable
    exact ⟨st, st', h, hcnt, hvalue, hprep, hreads⟩
  · obtain ⟨st, h, hcnt, hvalue, -⟩ := readsAs_inserted byteSetup_reads.2
    refine ⟨st, h, hcnt, hvalue, fun hreads => ?_⟩
    have hreadable := (inserted_reads_iff h (by decide) fun hDP => absurd hDP (by decide)).mp hreads
      0 (hcnt.symm ▸ Nat.one_pos)
    rw [hvalue] at hreadable
    exact byteSetup_readable.2 hreadable

/-- The control plane loses the high bits of a byte above digests. -/
theorem byte_loses_high_bits : ¬ ∀ st, Inserted byteSetup st →
    ∃ st', prepareDP byteSetup st = .ok st' ∧
      ∀ i, i < st.keyCnt → ReadsBack byteSetup st st' i := by
  intro hall
  obtain ⟨st, h, hcnt, hvalue, hquery⟩ := readsAs_inserted byteSetup_reads.2
  obtain ⟨st', -, hreads⟩ := hall st h
  have hcontrol := (hreads 0 (hcnt.symm ▸ Nat.one_pos)).control
  rw [hquery, hvalue] at hcontrol
  exact absurd hcontrol (by decide)

end OthelloReads
