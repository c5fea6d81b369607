import TinyCR.OthelloForests

/-! # Room for the next key

`insert` grows the key arrays when they are full, `insert_on_demand` does not look. What
stops it in time is that a forest has fewer edges than nodes, which helps only as long as the
key arrays are no shorter than the node tables. -/
namespace OthelloRoom

open ControlPlaneOthello OthelloInvariant OthelloRun OthelloForests EdgeForest

section Forest

variable {K : Type} [Inhabited K] {P : Setup K} {st : Othello K}

/-- The slot `insert_on_demand` writes is inside every array indexed by keys. -/
structure InsideArrays (st : Othello K) : Prop where
  keys : st.keyCnt < st.keys.length
  values : st.keyCnt < st.values.length
  nextAtA : st.keyCnt < st.nextAtA.length
  nextAtB : st.keyCnt < st.nextAtB.length

theorem keyCnt_lt_nodes (hsh : Shape P st) (hl : Linking P st st.keyCnt) :
    st.keyCnt < nodes st := by
  have hpos : 0 < nodes st := Nat.add_pos_left hsh.ma_pos _
  have hnonempty : (Finset.range (nodes st)).Nonempty := ⟨0, Finset.mem_range.mpr hpos⟩
  have hcard := hl.acyclic.edges_lt_card hnonempty fun e _ => by
    obtain ⟨hA, hB, hBn⟩ := hsh.ends_bounds e
    rw [Finset.mem_range, Finset.mem_range]
    exact ⟨hA.trans_le (hB.trans hBn.le), hBn⟩
  rwa [Finset.card_range] at hcard

omit [Inhabited K] in
theorem insideArrays_of_lt (h : Shape P st) (hlt : st.keyCnt < st.keys.length) :
    InsideArrays st where
  keys := hlt
  values := h.values ▸ hlt
  nextAtA := h.nextAtA ▸ hlt
  nextAtB := h.nextAtB ▸ hlt

end Forest

/-- With any template arguments, key arrays as long as the node tables never run out. -/
theorem reached_inside_arrays {K : Type} [DecidableEq K] [Inhabited K] {P : Setup K}
    {st : Othello K} (h : Reachable P st) (hfit : st.ma + st.mb ≤ st.keys.length) :
    InsideArrays st :=
  insideArrays_of_lt h.sound.toShape
    ((keyCnt_lt_nodes h.sound.toShape h.sound.linking).trans_le hfit)

/-- The sizes `construct` chose: `ma`, `mb`, the length of the key arrays, `keyCnt`. -/
def sizes : Except Fault (Bool × Othello ℕ) → Option (ℕ × ℕ × ℕ × ℕ)
  | .ok (true, st) => some (st.ma, st.mb, st.keys.length, st.keyCnt)
  | _ => none

theorem of_sizes {r : Except Fault (Bool × Othello ℕ)} {ma mb keys keyCnt : ℕ}
    (h : sizes r = some (ma, mb, keys, keyCnt)) : ∃ st, r = .ok (true, st) ∧ st.ma = ma ∧
      st.mb = mb ∧ st.keys.length = keys ∧ st.keyCnt = keyCnt := by
  obtain _ | ⟨_ | _, st⟩ := r
  · cases h
  · cases h
  · simp only [sizes, Option.some.injEq, Prod.mk.injEq] at h
    exact ⟨st, rfl, h⟩

theorem small_sizes : sizes (construct smallSetup 4 0 0) = some (6, 5, 256, 0) := by
  decide +kernel

theorem reached_inside_arrays_small :
    ∃ st, construct smallSetup 4 0 0 = .ok (true, st) ∧ InsideArrays st := by
  obtain ⟨st, hc, hma, hmb, hkeys, -⟩ := of_sizes small_sizes
  exact ⟨st, hc, reached_inside_arrays (.construct hc) (by omega)⟩

/-! ### Longer node tables

With 110 keys asked for the tables have 148 + 111 nodes and the key arrays 256 entries.
The keys 0, 1, … are hashed to a tree: the first 111 fan out from node 0 of array A, the
others from node 0 of array B. -/

def starEnds (k : ℕ) : ℕ × ℕ := (k - 110, 148 + if k < 111 then k else 0)

def hashTo (x n : ℕ) : ℕ := (x * 2 ^ 32 + n - 1) / n

def starSetup : Setup ℕ :=
  { L := 1, DL := 0, vBits := 8, maintainDP := true, maintainDisjointSet := true
    vdl_le := bit_cells_fit, l_le := bit_values_fit
    hab := fun _ k => BitVec.ofNat 64
      (hashTo (k - 110) 148 + 2 ^ 32 * hashTo (if k < 111 then k else 0) 111)
    hd := fun _ k => BitVec.ofNat 32 k
    rand := fun i => BitVec.ofNat 64 i }

/-- A run has taken the keys below `n`, and the arrays still have their first sizes. -/
structure Starred (n : ℕ) (st : Othello ℕ) : Prop where
  reached : Reached starSetup st fun k => if k < n then some 0 else none
  ma : st.ma = 148
  mb : st.mb = 111
  keys : st.keys.length = 256
  keyCnt : st.keyCnt = n
  keyAt : ∀ i < n, keyAt st i = i

theorem star_sizes : sizes (construct starSetup 110 0 0) = some (148, 111, 256, 0) := by
  decide +kernel

theorem starEnds_hashed : ∀ k < 257, (multiplyHigh ((starSetup.hab 0 k).toNat % 2 ^ 32) 148,
    multiplyHigh ((starSetup.hab 0 k).toNat / 2 ^ 32) 111 + 148) = starEnds k := by
  decide +kernel

variable {n : ℕ} {st : Othello ℕ}

theorem Starred.indices (h : Starred n st) {k : ℕ} (hk : k < 257) :
    getIndices starSetup st k = starEnds k := by
  rw [getIndices, h.ma, h.mb]
  exact starEnds_hashed k hk

theorem Starred.not_linked (h : Starred n st) (hn : n < 256) :
    ¬ Linked (graph starSetup st n) (starEnds n).1 (starEnds n).2 := by
  have hends : ∀ e < n, ends starSetup st e = starEnds e := fun e he => by
    rw [ends, h.keyAt e he]
    exact h.indices (by omega)
  have hedge : ∀ {e u v}, graph starSetup st n e u v →
      e < n ∧ (starEnds e = (u, v) ∨ starEnds e = (v, u)) := fun {e u v} hg =>
    ⟨hg.1, hends e hg.1 ▸ hg.2⟩
  intro hlinked
  by_cases hsmall : n < 111
  · -- the B node is new
    rcases Relation.ReflTransGen.cases_tail hlinked with heq | ⟨u, -, e, hg⟩
    · simp only [starEnds, if_pos hsmall] at heq
      omega
    · obtain ⟨he, hg⟩ := hedge hg
      simp only [starEnds, if_pos hsmall, if_pos (he.trans hsmall), Prod.mk.injEq] at hg
      omega
  · -- the A node is new
    rcases Relation.ReflTransGen.cases_head hlinked with heq | ⟨u, ⟨e, hg⟩, -⟩
    · simp only [starEnds, if_neg hsmall] at heq
      omega
    · obtain ⟨he, hg⟩ := hedge hg
      simp only [starEnds, if_neg hsmall, Prod.mk.injEq] at hg
      split at hg <;> omega

theorem Starred.succ (h : Starred n st) (hn : n < 256) : ∃ st', Starred (n + 1) st' := by
  have hP : Plain starSetup := ⟨rfl, rfl, rfl⟩
  obtain ⟨hinv, hm⟩ := h.reached.represents hP
  have hlt : st.keyCnt < st.keys.length := by rw [h.keyCnt, h.keys]; exact hn
  have hnew : (if n < n then some 0 else none : Option ℕ) = none := if_neg (Nat.lt_irrefl n)
  have hmem : isMember starSetup st ((n, 0) : ℕ × ℕ).1 = false :=
    (hm.not_member_iff hinv n).mpr hnew
  obtain ⟨done, st', flips, hrun, ht, hmap, -, -, hdone⟩ :=
    hinv.insert_on_demand_spec hP hlt hmem []
  have hsep := h.not_linked hn
  rw [← h.indices (by omega : n < 257)] at hsep
  rw [h.keyCnt] at hdone
  obtain rfl : done = true := by
    rw [← Bool.not_eq_false]
    exact fun hd => hsep (hdone.mp hd)
  refine ⟨st', ?_, ht.ma.trans h.ma, ht.mb.trans h.mb, ?_, ?_, fun i hi => ?_⟩
  · have hnext := Reached.insert_on_demand h.reached hnew hlt hrun
    refine cast (congrArg (Reached starSetup st') ?_) hnext
    funext k
    by_cases hk : k = n
    · rw [hk, Function.update_self, if_pos (Nat.lt_succ_self n)]
    · rw [Function.update_of_ne hk]
      exact if_congr (by omega) rfl rfl
  · rw [hmap.keys]
    exact (List.length_set ..).trans h.keys
  · exact hmap.keyCnt.trans (congrArg (· + 1) h.keyCnt)
  · rw [ControlPlaneOthello.keyAt, hmap.keys, storeKey]
    dsimp only
    rw [h.keyCnt]
    by_cases hin : i = n
    · rw [hin, List.getD_eq_getElem?_getD, List.getElem?_set_self (by rw [h.keys]; exact hn)]
      rfl
    · rw [NodeLists.getD_set_of_ne _ hin]
      exact h.keyAt i (by omega)

theorem starred (n : ℕ) (hn : n ≤ 256) : ∃ st, Starred n st := by
  induction n with
  | zero =>
    obtain ⟨st, hc, hma, hmb, hkeys, hcnt⟩ := of_sizes star_sizes
    exact ⟨st, .construct hc, hma, hmb, hkeys, hcnt, fun i hi => absurd hi (Nat.not_lt_zero i)⟩
  | succ n ih =>
    obtain ⟨st, h⟩ := ih (by omega)
    exact h.succ (by omega)

/-- 256 keys taken on demand fill the key arrays; the next one is written behind their end. -/
theorem star_runs_out : ∃ st m, Reached starSetup st m ∧ m 256 = none ∧ ¬ InsideArrays st ∧
    insert_on_demand starSetup st (256, 0) [] = .error .outOfBounds := by
  obtain ⟨st, h⟩ := starred 256 (Nat.le_refl 256)
  obtain ⟨hinv, hm⟩ := h.reached.represents ⟨rfl, rfl, rfl⟩
  have hfull : st.keys.length ≤ st.keyCnt := by rw [h.keys, h.keyCnt]
  have hnew := (hm.not_member_iff hinv 256).mpr (if_neg (Nat.lt_irrefl 256))
  refine ⟨st, _, h.reached, if_neg (Nat.lt_irrefl 256), fun hin => ?_, ?_⟩
  · exact Nat.not_lt.mpr hfull hin.keys
  · simp only [ControlPlaneOthello.insert_on_demand, hnew, if_pos hfull]
    rfl

end OthelloRoom
