import TinyCR.DataPlaneOthello
import TinyCR.OthelloIndex

/-! # The cells of the Othello

What `mem` holds for any widths of value and digest. The cells of the two ends of a key xor
to its value above its digest; the lowest digest bit says instead that a node is taken. A
value shifted as an `int` keeps the bits that fit, and only these are recorded. -/
namespace OthelloInvariant

open PackedCells EdgeForest EdgeLabels NodeLists ComponentSets ControlPlaneOthello
  DataPlaneOthello

variable {K : Type} {P : Setup K} {st : Othello K} {n keyId e : ℕ} {a : BitVec 64}

/-- The value bits do not outgrow `V` above the digest. -/
def fits (P : Setup K) (value : ℕ) : Prop := value % 2 ^ P.L < 2 ^ (P.vBits - P.DL)

instance (P : Setup K) (value : ℕ) : Decidable (fits P value) :=
  inferInstanceAs (Decidable (_ < _))

/-- How many low bits of a cell the shift of a value gets right. -/
def shownWidth (P : Setup K) (value : ℕ) : ℕ :=
  if fits P value then P.VDL else min P.VDL (max P.DL (max 32 P.vBits))

def shown (P : Setup K) (st : Othello K) (e : ℕ) : BitVec 64 :=
  lowMask (shownWidth P (st.values.getD e 0))

theorem shown_congr {st' : Othello K} {e e' : ℕ}
    (hval : st'.values.getD e 0 = st.values.getD e' 0) : shown P st' e = shown P st e' := by
  rw [shown, shown, hval]

theorem shownWidth_le (P : Setup K) (value : ℕ) : shownWidth P value ≤ P.VDL := by
  rw [shownWidth]
  split
  · exact Nat.le_refl _
  · exact Nat.min_le_left _ _

theorem dl_le_shownWidth (P : Setup K) (value : ℕ) : P.DL ≤ shownWidth P value := by
  have hle : P.DL ≤ P.VDL := by
    rw [Config.VDL]
    omega
  rw [shownWidth]
  split
  · exact hle
  · exact le_min hle (le_max_left _ _)

theorem fits.testBit {value j : ℕ} (h : fits P value) (hj : j < P.L) (hV : P.vBits ≤ j + P.DL) :
    value.testBit j = false := by
  have hlt : value % 2 ^ P.L < 2 ^ j :=
    Nat.lt_of_lt_of_le h (Nat.pow_le_pow_right (by decide) (by omega))
  have hbit := Nat.testBit_lt_two_pow hlt
  rwa [Nat.testBit_mod_two_pow, decide_eq_true hj, Bool.true_and] at hbit

/-- The shift of a value as an `int`, bit by bit: it repeats the last bit an `int` has. -/
theorem getLsbD_shiftedValue_eq (P : Setup K) (value : ℕ) {b : ℕ} (hb : b < 64) :
    (shiftedValue P value).getLsbD b =
      if b < max 32 P.vBits then decide (P.DL ≤ b) && value.testBit (b - P.DL)
      else decide (P.vBits < 32) && (decide (P.DL ≤ 31) && value.testBit (31 - P.DL)) := by
  have hbit : ∀ {w i : ℕ}, i < w → (BitVec.ofNat w value <<< P.DL).getLsbD i =
      (decide (P.DL ≤ i) && value.testBit (i - P.DL)) := fun {w i} hi => by
    have hsub : i - P.DL < w := by omega
    rw [BitVec.getLsbD_shiftLeft, BitVec.getLsbD_ofNat, decide_eq_true hi, decide_eq_true hsub,
      Bool.true_and, Bool.true_and, ← decide_not]
    simp only [Nat.not_lt]
  rw [shiftedValue]
  by_cases hw : P.vBits < 32
  · have hmax : max 32 P.vBits = 32 := by omega
    rw [if_pos hw, BitVec.getLsbD_signExtend, decide_eq_true hb, Bool.true_and, hmax,
      decide_eq_true hw, Bool.true_and]
    split
    · exact hbit ‹_›
    · rw [BitVec.msb_eq_getLsbD_last]
      exact hbit (by decide)
  · rw [if_neg hw, BitVec.getLsbD_setWidth, decide_eq_true hb, Bool.true_and, decide_eq_false hw,
      Bool.false_and]
    split
    · exact hbit ‹_›
    · exact BitVec.getLsbD_of_ge _ _ (Nat.le_of_not_lt ‹_›)

theorem getLsbD_shiftedValue (P : Setup K) (value : ℕ) {b : ℕ} (hb : b < shownWidth P value) :
    (shiftedValue P value).getLsbD b = (BitVec.ofNat 64 value <<< P.DL).getLsbD b := by
  have hle := shownWidth_le P value
  have hvdl := P.vdl_le_sixty
  have hV : P.VDL = P.L + P.DL := rfl
  have h64 : b < 64 := by omega
  have hsub : b - P.DL < 64 := by omega
  rw [getLsbD_shiftedValue_eq P value h64, BitVec.getLsbD_shiftLeft, BitVec.getLsbD_ofNat,
    decide_eq_true h64, decide_eq_true hsub, Bool.true_and, Bool.true_and, ← decide_not]
  simp only [Nat.not_lt]
  split
  case isTrue => rfl
  case isFalse hmax =>
    by_cases hD : P.DL ≤ b
    case neg =>
      have h31 : ¬ P.DL ≤ 31 := by omega
      rw [decide_eq_false hD, decide_eq_false h31, Bool.false_and, Bool.false_and, Bool.and_false]
    case pos =>
      have hfits : fits P value := by
        by_contra hno
        rw [shownWidth, if_neg hno] at hb
        omega
      have hup : value.testBit (b - P.DL) = false := hfits.testBit (by omega) (by omega)
      rw [hup, Bool.and_false]
      by_cases hlow : P.vBits < 32 ∧ P.DL ≤ 31
      · have hlast : value.testBit (31 - P.DL) = false := hfits.testBit (by omega) (by omega)
        rw [hlast, Bool.and_false, Bool.and_false]
      · rcases not_and_or.mp hlow with hno | hno
        · rw [decide_eq_false hno, Bool.false_and]
        · rw [decide_eq_false hno, Bool.false_and, Bool.and_false]

theorem getLsbD_shown (P : Setup K) (st : Othello K) (e b : ℕ) : (shown P st e).getLsbD b =
    (decide (b < shownWidth P (st.values.getD e 0)) && decide (b < 64)) :=
  getLsbD_mask _ _

theorem getLsbD_vdemask (P : Setup K) (b : ℕ) :
    P.VDEMASK.getLsbD b = (decide (b < P.VDL) && decide (b < 64)) :=
  getLsbD_mask _ _

theorem vdl_pos (hD : P.DL ≠ 0) : 0 < P.VDL := by
  rw [Config.VDL]
  omega

theorem masked_shown (a : BitVec 64) (st : Othello K) (e : ℕ) :
    a &&& P.VDEMASK &&& shown P st e = a &&& shown P st e := by
  apply BitVec.eq_of_getLsbD_eq
  intro b hb
  simp only [BitVec.getLsbD_and, getLsbD_vdemask, getLsbD_shown]
  by_cases hv : b < P.VDL
  · simp [hv, hb]
  · have hs : ¬ b < shownWidth P (st.values.getD e 0) := fun h => hv (h.trans_le (shownWidth_le ..))
    rw [decide_eq_false hs, Bool.false_and, Bool.and_false, Bool.and_false]

theorem and_xor_shown (a b m : BitVec 64) : (a ^^^ b) &&& m = (a &&& m) ^^^ (b &&& m) := by
  apply BitVec.eq_of_getLsbD_eq
  intro i hi
  simp only [BitVec.getLsbD_and, BitVec.getLsbD_xor]
  cases a.getLsbD i <;> cases b.getLsbD i <;> cases m.getLsbD i <;> rfl

theorem and_one_eq_zero_iff (a : BitVec 64) :
    (a &&& 1#64 == 0#64) = true ↔ a.getLsbD 0 = false := by
  rw [beq_iff_eq]
  constructor
  · intro h
    have := congrArg (BitVec.getLsbD · 0) h
    simpa using this
  · intro h
    apply BitVec.eq_of_getLsbD_eq
    intro i hi
    rw [BitVec.getLsbD_and, BitVec.getLsbD_one]
    by_cases h0 : i = 0
    · subst h0
      rw [h]
      simp
    · simp [h0]

theorem and_one_eq_one_iff (a : BitVec 64) : (a &&& 1#64 == 1#64) = true ↔ a.getLsbD 0 = true := by
  rw [beq_iff_eq]
  constructor
  · intro h
    have := congrArg (BitVec.getLsbD · 0) h
    simpa using this
  · intro h
    apply BitVec.eq_of_getLsbD_eq
    intro i hi
    rw [BitVec.getLsbD_and, BitVec.getLsbD_one]
    by_cases h0 : i = 0
    · subst h0
      rw [h]
      simp
    · simp [h0]

variable [Inhabited K]

/-- The recorded bits of the xor of the cells of edge `e`. -/
def cellLabel (P : Setup K) (st : Othello K) (e : ℕ) : BitVec 64 :=
  (valueAt st e <<< P.DL |||
    ((P.hd st.hd (keyAt st e)).setWidth 64 &&& P.DEMASK &&& ~~~1#64)) &&& shown P st e

theorem cellLabel_congr {st' : Othello K} {e e' : ℕ} (hd : st'.hd = st.hd)
    (hkey : keyAt st' e = keyAt st e') (hval : st'.values.getD e 0 = st.values.getD e' 0) :
    cellLabel P st' e = cellLabel P st e' := by
  rw [cellLabel, cellLabel, valueAt, valueAt, hd, hkey, hval, shown_congr hval]

structure Cells (P : Setup K) (st : Othello K) (n : ℕ) : Prop where
  maintaining : st.maintainingDP = P.maintainDP
  sized : P.maintainDP = true → Sized P.toConfig st.mem (nodes st)
  labels : P.maintainDP = true → ∀ e u v, graph P st n e u v →
    (memAt P st u ^^^ memAt P st v) &&& shown P st e = cellLabel P st e
  taken : P.maintainDP = true → P.DL ≠ 0 → ∀ e u v, graph P st n e u v →
    (memAt P st u).getLsbD 0 = true

theorem fillWord_label (P : Setup K) (st : Othello K) (e : ℕ)
    (ha : P.DL ≠ 0 → a.getLsbD 0 = true) :
    (fillWord P st e a ^^^ a) &&& shown P st e = cellLabel P st e := by
  apply BitVec.eq_of_getLsbD_eq
  intro b hb
  rw [cellLabel, BitVec.getLsbD_and, BitVec.getLsbD_and, BitVec.getLsbD_xor, getLsbD_shown,
    decide_eq_true hb, Bool.and_true]
  by_cases hs : b < shownWidth P (st.values.getD e 0)
  case neg => rw [decide_eq_false hs, Bool.and_false, Bool.and_false]
  case pos =>
    rw [decide_eq_true hs, Bool.and_true, Bool.and_true]
    by_cases hD : P.DL ≠ 0
    · rw [fillWord, if_pos hD]
      simp only [BitVec.getLsbD_or, BitVec.getLsbD_xor, BitVec.getLsbD_and, BitVec.getLsbD_not,
        getLsbD_shiftedValue P _ hs, valueAt]
      by_cases h0 : b = 0
      · subst h0
        rw [ha hD]
        simp [Nat.pos_of_ne_zero hD]
      · have hone : (1#64).getLsbD b = false := by
          rw [BitVec.getLsbD_one]
          simp [h0]
        rw [hone, Bool.or_false, Bool.xor_assoc, Bool.xor_self, Bool.xor_false]
        simp [hb]
    · have hD0 : P.DL = 0 := not_not.mp hD
      have hmask : P.DEMASK.getLsbD b = false := by
        rw [Config.DEMASK, getLsbD_mask, hD0]
        simp
      rw [fillWord, if_neg hD]
      simp only [BitVec.getLsbD_or, BitVec.getLsbD_xor, BitVec.getLsbD_and, hmask]
      rw [hD0, BitVec.shiftLeft_zero]
      simp

def filledLabel (P : Setup K) (st : Othello K) (e : ℕ) : BitVec 64 :=
  shiftedValue P (st.values.getD e 0) ||| ((P.hd st.hd (keyAt st e)).setWidth 64 &&& P.DEMASK)

theorem fillWord_exact (P : Setup K) (st : Othello K) (e : ℕ) (a : BitVec 64) (hD : P.DL ≠ 0)
    {b : ℕ} (hb : b ≠ 0) :
    (fillWord P st e a ^^^ a).getLsbD b = (filledLabel P st e).getLsbD b := by
  have hone : (1#64).getLsbD b = false := by
    rw [BitVec.getLsbD_one]
    simp [hb]
  rw [fillWord, if_pos hD, BitVec.getLsbD_xor, BitVec.getLsbD_or, hone, Bool.or_false,
    BitVec.getLsbD_xor, Bool.xor_assoc, Bool.xor_self, Bool.xor_false, filledLabel]

theorem fillWord_taken (P : Setup K) (st : Othello K) (e : ℕ) (a : BitVec 64) (hD : P.DL ≠ 0) :
    (fillWord P st e a).getLsbD 0 = true := by
  rw [fillWord, if_pos hD, BitVec.getLsbD_or]
  simp

section Half

variable {D : List (Visit ℕ ℕ)}

structure CellsBut (P : Setup K) (st : Othello K) (n keyId : ℕ) : Prop where
  maintaining : st.maintainingDP = P.maintainDP
  sized : P.maintainDP = true → Sized P.toConfig st.mem (nodes st)
  labels : P.maintainDP = true → ∀ e u v, graph P st n e u v → e ≠ keyId →
    (memAt P st u ^^^ memAt P st v) &&& shown P st e = cellLabel P st e
  taken : P.maintainDP = true → P.DL ≠ 0 → ∀ e u v, graph P st n e u v → e ≠ keyId →
    (memAt P st u).getLsbD 0 = true

/-- Marking the other end as taken: it was no end of another key, and the end the half tree is
filled from is taken. -/
theorem CellsBut.enter (hsh : Shape P st) (hc : CellsBut P st n keyId)
    (hDP : P.maintainDP = true) {root hb : ℕ}
    (hends : halfEnds P st true (ends P st keyId).1 (ends P st keyId).2 = (root, hb)) :
    Sized P.toConfig (enterMem P st true (ends P st keyId).2) (nodes st) ∧
      (∀ e u v, graph P st n e u v → e ≠ keyId →
        memGet P.toConfig (enterMem P st true (ends P st keyId).2) u = memAt P st u) ∧
      (P.DL ≠ 0 →
        (memGet P.toConfig (enterMem P st true (ends P st keyId).2) hb).getLsbD 0 = true) := by
  have hz := hc.sized hDP
  obtain ⟨hA, hB, hBn⟩ := hsh.ends_bounds keyId
  rw [halfEnds] at hends
  rw [enterMem]
  generalize (ends P st keyId).1 = a at *
  generalize (ends P st keyId).2 = b at *
  by_cases hD : P.DL ≠ 0
  case neg =>
    have hcond : (true && decide (P.DL ≠ 0) && memGet P.toConfig st.mem b &&& 1#64 == 0#64) =
        false := by
      rw [decide_eq_false hD]
      rfl
    rw [hcond, if_neg (by simp)]
    exact ⟨hz, fun _ _ _ _ _ => rfl, fun hc => absurd hc hD⟩
  case pos =>
    simp only [decide_eq_true hD, Bool.true_and] at hends ⊢
    cases hbit : (memGet P.toConfig st.mem b).getLsbD 0
    case true =>
      have hcond : (memGet P.toConfig st.mem b &&& 1#64 == 0#64) = false := by
        rw [← Bool.not_eq_true, and_one_eq_zero_iff, hbit]
        simp
      rw [hcond] at hends ⊢
      obtain ⟨-, rfl⟩ := Prod.mk.inj hends
      exact ⟨hz, fun _ _ _ _ _ => rfl, fun _ => hbit⟩
    case false =>
      have hcond : (memGet P.toConfig st.mem b &&& 1#64 == 0#64) = true :=
        (and_one_eq_zero_iff _).mpr hbit
      rw [hcond] at hends ⊢
      rw [if_pos rfl]
      have hother : ∀ v, v < nodes st → v ≠ b →
          memGet P.toConfig (memSet P.toConfig st.mem b (memGet P.toConfig st.mem b ||| 1#64)) v =
            memAt P st v := fun v hv hne => memGet_memSet_other hz hBn hv hne _
      refine ⟨(memStore P (nodes st)).ok_set hz, fun e u v hg hne => ?_, fun _ => ?_⟩
      · -- an end of another key is taken
        refine hother u (hsh.graph_lt hg).1 ?_
        rintro rfl
        have htaken := hc.taken hDP hD e u v hg hne
        rw [memAt, hbit] at htaken
        cases htaken
      · cases hroot : (memGet P.toConfig st.mem a &&& 1#64 == 1#64)
        case false =>
          rw [hroot] at hends
          obtain ⟨-, rfl⟩ := Prod.mk.inj hends
          rw [memGet_memSet_same hz hBn, BitVec.getLsbD_and, BitVec.getLsbD_or, getLsbD_vdemask,
            decide_eq_true (vdl_pos hD)]
          simp
        case true =>
          rw [hroot] at hends
          obtain ⟨-, rfl⟩ := Prod.mk.inj hends
          rw [hother a (by omega) (by omega), memAt]
          exact (and_one_eq_one_iff _).mp hroot

theorem half_moved (hsh : Shape P st) {root : ℕ} (hS : Spans (graph P st n) (some keyId) root D)
    (hrn : root < nodes st) {mem₁ mem₂ : List (BitVec 64)}
    (hz₁ : Sized P.toConfig mem₁ (nodes st)) (hz₂ : Sized P.toConfig mem₂ (nodes st))
    (hother : ∀ v, v < nodes st → v ≠ root →
      memGet P.toConfig mem₂ v = memGet P.toConfig mem₁ v) {x : BitVec 64}
    (hx : memGet P.toConfig mem₁ root ^^^ memGet P.toConfig mem₂ root = x)
    {mem' : List (BitVec 64)} (hmem' : mem' = D.foldl (fun m t =>
      memSet P.toConfig m t.child (x ^^^ memGet P.toConfig m t.child)) mem₂) :
    Sized P.toConfig mem' (nodes st) ∧ memGet P.toConfig mem' root = memGet P.toConfig mem₂ root ∧
      (∀ v ∈ root :: D.map Visit.child,
        memGet P.toConfig mem' v = x ^^^ memGet P.toConfig mem₁ v) ∧
      ∀ v, v < nodes st → v ∉ root :: D.map Visit.child →
        memGet P.toConfig mem' v = memGet P.toConfig mem₁ v := by
  have hmask : x &&& P.VDEMASK = x := by
    rw [← hx, mask_xor _ _ _ (memGet_lt hz₂ hrn), memGet_lt hz₁ hrn]
  obtain ⟨hok, hfix⟩ := (memStore P (nodes st)).fix hS.grows (fun t ht => hsh.child_lt hS ht) hz₂
    (x ^^^ ·)
  rw [← hmem'] at hok hfix
  have hrootD : root ∉ D.map Visit.child := (List.nodup_cons.mp hS.grows.nodup).1
  have hroot : memGet P.toConfig mem' root = memGet P.toConfig mem₂ root := by
    rw [hfix root hrn, if_neg hrootD]
  refine ⟨hok, hroot, fun v hv => ?_, fun v hv hmem => ?_⟩
  · rcases List.mem_cons.mp hv with rfl | hv
    · rw [hroot, ← hx, BitVec.xor_comm]
      exact (involutive_word.cancel _ _).symm
    · have hvn : v < nodes st := by
        obtain ⟨t, ht, rfl⟩ := List.mem_map.mp hv
        exact hsh.child_lt hS ht
      have hne : v ≠ root := fun heq => hrootD (heq ▸ hv)
      rw [hfix v hvn, if_pos hv, hother v hvn hne, mask_xor _ _ _ (memGet_lt hz₁ hvn), hmask]
  · rw [List.mem_cons, not_or] at hmem
    rw [hfix v hv, if_neg hmem.2, hother v hv hmem.1]

theorem half_labels (hsh : Shape P st) (h : Linking P st n) {root hb : ℕ}
    (hg : graph P st n keyId root hb) (hS : Spans (graph P st n) (some keyId) root D)
    {f f' : ℕ → BitVec 64} {x : BitVec 64}
    (hlab : ∀ e u v, graph P st n e u v → e ≠ keyId →
      (f u ^^^ f v) &&& shown P st e = cellLabel P st e)
    (hin : ∀ v ∈ root :: D.map Visit.child, f' v = x ^^^ f v)
    (hout : ∀ v, v < nodes st → v ∉ root :: D.map Visit.child → f' v = f v)
    (h₀ : (f' root ^^^ f hb) &&& shown P st keyId = cellLabel P st keyId) {e u v : ℕ}
    (he : graph P st n e u v) : (f' u ^^^ f' v) &&& shown P st e = cellLabel P st e := by
  -- the differences along all other edges stay as they were
  have hmoved : Labelled (graph P st n) (· ^^^ ·) f' (fun e => if e = keyId then f' root ^^^ f hb
      else f (ends P st e).1 ^^^ f (ends P st e).2) := by
    refine Labelled.half involutive_word (undirected_graph P st n) h.acyclic hg hS
      (f := f) (d := x) ?_ hin ?_ ?_
    · intro e u v he hne
      rw [if_neg hne]
      rcases (undirected_graph P st n).ends (graph_ends P st he.1) he with ⟨hu, hv⟩ | ⟨hu, hv⟩
      · rw [hu, hv]
      · rw [hu, hv, BitVec.xor_comm]
    · intro e u v he hu
      exact hout u (hsh.graph_lt he).1 hu
    · rw [if_pos rfl, hin root (List.mem_cons_self ..)]
  have hdiff : f' u ^^^ f' v = if e = keyId then f' root ^^^ f hb
      else f (ends P st e).1 ^^^ f (ends P st e).2 := hmoved e u v he
  rw [hdiff]
  split
  case isTrue heq => exact heq ▸ h₀
  case isFalse hne => exact hlab e _ _ (graph_ends P st he.1) hne

/-- The marks after the half tree was moved: where it has edges the root was marked before, so the
template keeps the mark. -/
theorem half_taken (hsh : Shape P st) {root hb : ℕ} (hg : graph P st n keyId root hb)
    (hS : Spans (graph P st n) (some keyId) root D) {f f' : ℕ → BitVec 64} {x : BitVec 64}
    (hown : ∀ e u v, graph P st n e u v → e ≠ keyId → (f u).getLsbD 0 = true)
    (hhb : (f hb).getLsbD 0 = true)
    (hin : ∀ v ∈ root :: D.map Visit.child, f' v = x ^^^ f v)
    (hout : ∀ v, v < nodes st → v ∉ root :: D.map Visit.child → f' v = f v)
    (h₀ : (f' root).getLsbD 0 = true) {e u v : ℕ} (he : graph P st n e u v) :
    (f' u).getLsbD 0 = true := by
  by_cases hu : u ∈ root :: D.map Visit.child
  case neg =>
    rw [hout u (hsh.graph_lt he).1 hu]
    by_cases hne : e = keyId
    · subst hne
      rcases (undirected_graph P st n).ends hg he with ⟨rfl, -⟩ | ⟨rfl, -⟩
      · exact absurd (List.mem_cons_self ..) hu
      · exact hhb
    · exact hown e u v he hne
  case pos =>
    rcases List.mem_cons.mp hu with rfl | huD
    · exact h₀
    · have hlink : Linked (avoid (graph P st n) (some keyId)) root u := hS.mem_iff.mp hu
      have hne : u ≠ root := fun heq => (List.nodup_cons.mp hS.grows.nodup).1 (heq ▸ huD)
      have hroot : (f root).getLsbD 0 = true := by
        rcases Relation.ReflTransGen.cases_head hlink with heq | ⟨w, ⟨d, hd, hdk⟩, -⟩
        · exact absurd heq.symm hne
        · exact hown d root w hd fun heq => hdk (congrArg some heq)
      have huTaken : (f u).getLsbD 0 = true := by
        obtain ⟨t, ht, rfl⟩ := List.mem_map.mp huD
        obtain ⟨hd, hdk⟩ := hS.link t ht
        exact hown t.edge t.child t.parent ((undirected_graph P st n).symm hd)
          fun heq => hdk (congrArg some heq)
      rw [hin root (List.mem_cons_self ..), BitVec.getLsbD_xor, hroot] at h₀
      have hx : x.getLsbD 0 = false := by simpa using h₀
      rw [hin u hu, BitVec.getLsbD_xor, huTaken, hx]
      rfl

theorem ends_of_half {root hb : ℕ} (hk : keyId < n) {fillValue : Bool}
    (hends : halfEnds P st fillValue (ends P st keyId).1 (ends P st keyId).2 = (root, hb)) :
    graph P st n keyId root hb := by
  rcases halfEnds_cases P st fillValue (ends P st keyId).1 (ends P st keyId).2
    with he | he
  · obtain ⟨rfl, rfl⟩ := Prod.mk.inj (he.symm.trans hends)
    exact graph_ends P st hk
  · obtain ⟨rfl, rfl⟩ := Prod.mk.inj (he.symm.trans hends)
    exact (undirected_graph P st n).symm (graph_ends P st hk)

theorem CellsBut.fix (hsh : Shape P st) (h : Linking P st n) (hc : CellsBut P st n keyId)
    (hk : keyId < n) (hS : Spans (graph P st n) (some keyId)
      (halfEnds P st P.maintainDP (ends P st keyId).1 (ends P st keyId).2).1 D) (ind : List ℕ) :
    Cells P { st with
      mem := halfCells P st P.maintainDP false keyId (ends P st keyId).1 (ends P st keyId).2 D
      indMem := ind } n := by
  cases hDP : P.maintainDP
  case false =>
    exact ⟨hc.maintaining, fun hc => by simp [hDP] at hc, fun hc => by simp [hDP] at hc,
      fun hc => by simp [hDP] at hc⟩
  case true =>
  rw [hDP] at hS
  generalize hends : halfEnds P st true (ends P st keyId).1 (ends P st keyId).2 = pair at hS
  obtain ⟨root, hb⟩ := pair
  obtain ⟨hz₁, hold, hhb⟩ := hc.enter hsh hDP hends
  have hg := ends_of_half hk hends
  have hrn := (hsh.graph_lt hg).1
  generalize hm₁ : enterMem P st true (ends P st keyId).2 = mem₁ at *
  have hm : st.maintainingDP = true := hc.maintaining.trans hDP
  generalize hm₂ : memSet P.toConfig mem₁ root
    (fillWord P st keyId (memGet P.toConfig mem₁ hb)) = mem₂
  have hroot : rootMem P st true false keyId (ends P st keyId).1 (ends P st keyId).2 = mem₂ := by
    rw [rootMem, hends, hm₁, ← hm₂, fillMem, hm]
    rfl
  have hz₂ : Sized P.toConfig mem₂ (nodes st) := by
    rw [← hm₂]
    exact (memStore P (nodes st)).ok_set hz₁
  have hsame₂ : memGet P.toConfig mem₂ root =
      fillWord P st keyId (memGet P.toConfig mem₁ hb) &&& P.VDEMASK := by
    rw [← hm₂, memGet_memSet_same hz₁ hrn]
  have hother₂ : ∀ v, v < nodes st → v ≠ root →
      memGet P.toConfig mem₂ v = memGet P.toConfig mem₁ v := fun v hv hne => by
    rw [← hm₂, memGet_memSet_other hz₁ hrn hv hne]
  generalize hx : memGet P.toConfig mem₁ root ^^^ memGet P.toConfig mem₂ root = x
  have hcells : halfCells P st true false keyId (ends P st keyId).1 (ends P st keyId).2 D =
      D.foldl (fun m t => memSet P.toConfig m t.child (x ^^^ memGet P.toConfig m t.child))
        mem₂ := by
    have htemp : halfTemplate P st true false keyId (ends P st keyId).1 (ends P st keyId).2 =
        x := by
      rw [halfTemplate, if_pos rfl, hroot, hm₁, hends]
      exact hx
    rw [halfCells, htemp, hroot]
    simp only [fixMem, hDP, Bool.and_self, if_true, Bool.false_eq_true, if_false]
  obtain ⟨hok, hrootM, hin, hout⟩ := half_moved hsh hS hrn hz₁ hz₂ hother₂ hx hcells
  generalize halfCells P st true false keyId (ends P st keyId).1 (ends P st keyId).2 D = mem' at *
  refine ⟨hc.maintaining, fun _ => hok, fun _ e u v he => ?_, fun _ hD e u v he => ?_⟩
  · refine half_labels hsh h hg hS (fun e u v he hne => ?_) hin hout ?_ he
    · rw [hold e u v he hne, hold e v u ((undirected_graph P st n).symm he) hne]
      exact hc.labels hDP e u v he hne
    · rw [hrootM, hsame₂, and_xor_shown, masked_shown, ← and_xor_shown]
      exact fillWord_label P st keyId hhb
  · have hown : ∀ e u v, graph P st n e u v → e ≠ keyId →
        (memGet P.toConfig mem₁ u).getLsbD 0 = true := fun e u v he hne => by
      rw [hold e u v he hne]
      exact hc.taken hDP hD e u v he hne
    have hmark : (memGet P.toConfig mem₂ root).getLsbD 0 = true := by
      rw [hsame₂, BitVec.getLsbD_and, getLsbD_vdemask, decide_eq_true (vdl_pos hD),
        fillWord_taken P st _ _ hD]
      rfl
    refine half_taken hsh hg hS hown (hhb hD) hin hout ?_ he
    rw [hrootM]
    exact hmark

omit [Inhabited K] in
theorem foldl_memValueSet (hlt : ∀ t ∈ D, t.child < nodes st) (x : BitVec 64)
    {mem : List (BitVec 64)} (hz : Sized P.toConfig mem (nodes st)) :
    D.foldl (fun m t => memValueSet P.toConfig m t.child
        (x ^^^ memValueGet P.toConfig m t.child)) mem =
      D.foldl (fun m t => memSet P.toConfig m t.child
        ((x <<< P.DL) ^^^ memGet P.toConfig m t.child)) mem := by
  induction D generalizing mem with
  | nil => rfl
  | cons t D ih =>
    rw [List.foldl_cons, List.foldl_cons, memValueSet_xor hz (hlt t (List.mem_cons_self ..)),
      ih (fun s hs => hlt s (List.mem_cons_of_mem _ hs)) ((memStore P (nodes st)).ok_set hz)]

/-- The value of one key changed. -/
structure ValueOff (P : Setup K) (st : Othello K) (n keyId : ℕ) : Prop extends
    CellsBut P st n keyId where
  both : P.maintainDP = true → P.DL ≠ 0 →
    (memAt P st (ends P st keyId).1).getLsbD 0 = true ∧
      (memAt P st (ends P st keyId).2).getLsbD 0 = true
  digest : P.maintainDP = true → ∀ b, b < P.DL → (memAt P st (ends P st keyId).1 ^^^
    memAt P st (ends P st keyId).2).getLsbD b = (cellLabel P st keyId).getLsbD b

theorem getLsbD_digest (P : Setup K) (st : Othello K) (e : ℕ) {b : ℕ} (hb : b < P.DL) :
    (cellLabel P st e).getLsbD b =
      ((P.hd st.hd (keyAt st e)).setWidth 64 &&& P.DEMASK &&& ~~~1#64).getLsbD b := by
  have hlow : (valueAt st e <<< P.DL).getLsbD b = false := by
    rw [BitVec.getLsbD_shiftLeft, decide_eq_true hb]
    simp
  have hs := hb.trans_le (dl_le_shownWidth P (st.values.getD e 0))
  rw [cellLabel, BitVec.getLsbD_and, BitVec.getLsbD_or, hlow, Bool.false_or, getLsbD_shown,
    decide_eq_true hs, Bool.true_and]
  by_cases h64 : b < 64
  · rw [decide_eq_true h64, Bool.and_true]
  · rw [decide_eq_false h64, Bool.and_false, BitVec.getLsbD_of_ge _ _ (Nat.le_of_not_lt h64)]

theorem Cells.value_off (h : Cells P st n) (hk : keyId < n) (val : ℕ) :
    ValueOff P { st with values := st.values.set keyId val } n keyId := by
  have hother : ∀ e, e ≠ keyId → cellLabel P { st with values := st.values.set keyId val } e =
      cellLabel P st e ∧ shown P { st with values := st.values.set keyId val } e =
      shown P st e := fun e hne => by
    have hval : (st.values.set keyId val).getD e 0 = st.values.getD e 0 :=
      getD_set_of_ne _ hne _ _
    exact ⟨cellLabel_congr rfl rfl hval, shown_congr hval⟩
  refine
    { maintaining := h.maintaining, sized := h.sized
      labels := fun hDP e u v hg hne => ?_
      taken := fun hDP hD e u v hg _ => h.taken hDP hD e u v hg
      both := fun hDP hD => ?_, digest := fun hDP b hb => ?_ }
  · rw [(hother e hne).1, (hother e hne).2]
    exact h.labels hDP e u v hg
  · have hg := graph_ends P st hk
    exact ⟨h.taken hDP hD _ _ _ hg, h.taken hDP hD _ _ _ ((undirected_graph P st n).symm hg)⟩
  · have hold := congrArg (BitVec.getLsbD · b) (h.labels hDP _ _ _ (graph_ends P st hk))
    have hs := hb.trans_le (dl_le_shownWidth P (st.values.getD keyId 0))
    have hvdl := P.vdl_le_sixty
    have hle := shownWidth_le P (st.values.getD keyId 0)
    have h64 : b < 64 := by omega
    simp only [BitVec.getLsbD_and, getLsbD_shown, decide_eq_true hs, decide_eq_true h64,
      Bool.and_true] at hold
    have hnew := getLsbD_digest P { st with values := st.values.set keyId val } keyId hb
    exact hold.trans ((getLsbD_digest P st keyId hb).trans hnew.symm)

theorem ValueOff.not_entered (hc : ValueOff P st n keyId) (hDP : P.maintainDP = true) :
    enterMem P st true (ends P st keyId).2 = st.mem ∧
      halfEnds P st true (ends P st keyId).1 (ends P st keyId).2 = ends P st keyId := by
  have hcond : (true && decide (P.DL ≠ 0) &&
      memGet P.toConfig st.mem (ends P st keyId).2 &&& 1#64 == 0#64) = false := by
    by_cases hD : P.DL ≠ 0
    · have hbit : (memGet P.toConfig st.mem (ends P st keyId).2).getLsbD 0 = true :=
        (hc.both hDP hD).2
      have htest : (memGet P.toConfig st.mem (ends P st keyId).2 &&& 1#64 == 0#64) = false := by
        rw [← Bool.not_eq_true, and_one_eq_zero_iff, hbit]
        simp
      rw [htest, Bool.and_false]
    · rw [decide_eq_false hD]
      rfl
  rw [enterMem, halfEnds, hcond, Bool.false_and]
  exact ⟨rfl, rfl⟩

omit [Inhabited K] in
/-- Writing value bits shifted above the digest moves these bits of the cell only. -/
theorem getLsbD_value_moved {mem : List (BitVec 64)} {v : ℕ}
    (hz : Sized P.toConfig mem (nodes st)) (hv : v < nodes st) (x : BitVec 64) (b : ℕ) :
    (memGet P.toConfig mem v ^^^ memGet P.toConfig (memSet P.toConfig mem v
        ((x <<< P.DL) ^^^ memGet P.toConfig mem v)) v).getLsbD b =
      (decide (b < P.VDL) && (decide (b < 64) && (x <<< P.DL).getLsbD b)) := by
  rw [BitVec.getLsbD_xor, memGet_memSet_same hz hv, BitVec.getLsbD_and, BitVec.getLsbD_xor,
    getLsbD_vdemask]
  have hlow := congrArg (BitVec.getLsbD · b) (memGet_lt hz hv)
  simp only [BitVec.getLsbD_and, getLsbD_vdemask] at hlow
  rw [← hlow]
  cases (memGet P.toConfig mem v).getLsbD b <;> cases decide (b < P.VDL) <;>
    cases decide (b < 64) <;> cases (x <<< P.DL).getLsbD b <;> rfl

omit [Inhabited K] in
theorem value_template {mem mem₂ : List (BitVec 64)} {v : ℕ} {x : BitVec 64}
    (hz : Sized P.toConfig mem (nodes st)) (hz₂ : Sized P.toConfig mem₂ (nodes st))
    (hv : v < nodes st)
    (hbits : ∀ b, (memGet P.toConfig mem v ^^^ memGet P.toConfig mem₂ v).getLsbD b =
      (decide (b < P.VDL) && (decide (b < 64) && (x <<< P.DL).getLsbD b))) :
    (memValueGet P.toConfig mem v ^^^ memValueGet P.toConfig mem₂ v) <<< P.DL =
      memGet P.toConfig mem v ^^^ memGet P.toConfig mem₂ v := by
  apply BitVec.eq_of_getLsbD_eq
  intro b hb
  rw [hbits, BitVec.getLsbD_shiftLeft, BitVec.getLsbD_xor, getLsbD_memValueGet hz hv,
    getLsbD_memValueGet hz₂ hv, BitVec.getLsbD_shiftLeft]
  by_cases hD : b < P.DL
  · rw [decide_eq_true hD]
    simp
  · have hsub : P.DL + (b - P.DL) = b := by omega
    have hiff : b - P.DL < P.L ↔ b < P.VDL := by
      rw [Config.VDL]
      omega
    rw [hsub, ← Bool.and_xor_distrib_left, ← BitVec.getLsbD_xor, hbits,
      BitVec.getLsbD_shiftLeft, decide_eq_false hD, decide_eq_decide.mpr hiff]
    cases decide (b < P.VDL) <;> cases decide (b < 64) <;> rfl

theorem getLsbD_cellLabel_high (P : Setup K) (st : Othello K) (e : ℕ) {b : ℕ} (hb : b < 64)
    (hD : ¬ b < P.DL) : (cellLabel P st e).getLsbD b =
      ((valueAt st e).getLsbD (b - P.DL) && decide (b < shownWidth P (st.values.getD e 0))) := by
  have hmask : P.DEMASK.getLsbD b = false := by
    rw [Config.DEMASK, getLsbD_mask, decide_eq_false hD, Bool.false_and]
  rw [cellLabel, BitVec.getLsbD_and, getLsbD_shown]
  simp only [BitVec.getLsbD_or, BitVec.getLsbD_and, BitVec.getLsbD_shiftLeft, hmask,
    decide_eq_true hb, decide_eq_false hD, Bool.and_false, Bool.false_and, Bool.or_false,
    Bool.not_false, Bool.true_and, Bool.and_true]

theorem ValueOff.fix (hsh : Shape P st) (h : Linking P st n) (hc : ValueOff P st n keyId)
    (hk : keyId < n) (hDP : P.maintainDP = true) (hS : Spans (graph P st n) (some keyId)
      (halfEnds P st true (ends P st keyId).1 (ends P st keyId).2).1 D) (ind : List ℕ) :
    Cells P { st with
      mem := halfCells P st true true keyId (ends P st keyId).1 (ends P st keyId).2 D
      indMem := ind } n := by
  obtain ⟨henter, hends⟩ := hc.not_entered hDP
  have hg := graph_ends P st hk
  have hboth := hc.both hDP
  have hdigest := hc.digest hDP
  have hm : st.maintainingDP = true := hc.maintaining.trans hDP
  have hz := hc.sized hDP
  rw [hends] at hS
  have hab : ends P st keyId = ((ends P st keyId).1, (ends P st keyId).2) := rfl
  rw [hab] at hends
  generalize (ends P st keyId).1 = root at *
  generalize (ends P st keyId).2 = hb at *
  obtain ⟨hrn, hbn⟩ := hsh.graph_lt hg
  generalize hx₀ : (valueAt st keyId ^^^ memValueGet P.toConfig st.mem hb) ^^^
    memValueGet P.toConfig st.mem root = x₀
  generalize hm₂ : memSet P.toConfig st.mem root
    ((x₀ <<< P.DL) ^^^ memGet P.toConfig st.mem root) = mem₂
  have hroot : rootMem P st true true keyId root hb = mem₂ := by
    have hfill : valueAt st keyId ^^^ memValueGet P.toConfig st.mem hb =
        x₀ ^^^ memValueGet P.toConfig st.mem root := by
      rw [← hx₀, BitVec.xor_assoc, BitVec.xor_self, BitVec.xor_zero]
    rw [rootMem, hends, henter, ← hm₂, fillMem, hm, ← memValueSet_xor hz hrn, ← hfill]
    rfl
  have hz₂ : Sized P.toConfig mem₂ (nodes st) := by
    rw [← hm₂]
    exact (memStore P (nodes st)).ok_set hz
  have hsame₂ : memGet P.toConfig mem₂ root =
      ((x₀ <<< P.DL) ^^^ memGet P.toConfig st.mem root) &&& P.VDEMASK := by
    rw [← hm₂, memGet_memSet_same hz hrn]
  have hother₂ : ∀ v, v < nodes st → v ≠ root →
      memGet P.toConfig mem₂ v = memGet P.toConfig st.mem v := fun v hv hne => by
    rw [← hm₂, memGet_memSet_other hz hrn hv hne]
  have hbits : ∀ b, (memGet P.toConfig st.mem root ^^^ memGet P.toConfig mem₂ root).getLsbD b =
      (decide (b < P.VDL) && (decide (b < 64) && (x₀ <<< P.DL).getLsbD b)) := by
    rw [← hm₂]
    exact getLsbD_value_moved hz hrn x₀
  have htemplate := value_template hz hz₂ hrn hbits
  have hcells : halfCells P st true true keyId root hb D =
      D.foldl (fun m t => memSet P.toConfig m t.child
        ((memGet P.toConfig st.mem root ^^^ memGet P.toConfig mem₂ root) ^^^
          memGet P.toConfig m t.child)) mem₂ := by
    have htemp : halfTemplate P st true true keyId root hb =
        memValueGet P.toConfig st.mem root ^^^ memValueGet P.toConfig mem₂ root := by
      rw [halfTemplate, if_pos rfl, hroot, henter, hends]
      rfl
    rw [halfCells, htemp, hroot, ← htemplate,
      ← foldl_memValueSet (fun t ht => hsh.child_lt hS ht) _ hz₂]
    simp only [fixMem, hDP, Bool.and_self, if_true]
  obtain ⟨hok, hrootM, hin, hout⟩ := half_moved hsh hS hrn hz hz₂ hother₂ rfl hcells
  generalize halfCells P st true true keyId root hb D = mem' at *
  generalize hx : memGet P.toConfig st.mem root ^^^ memGet P.toConfig mem₂ root = x at *
  refine ⟨hc.maintaining, fun _ => hok, fun _ e u v he => ?_, fun _ hD e u v he => ?_⟩
  · refine half_labels hsh h hg hS (hc.labels hDP) hin hout ?_ he
    apply BitVec.eq_of_getLsbD_eq
    intro b hb64
    by_cases hD : b < P.DL
    · have hs := hD.trans_le (dl_le_shownWidth P (st.values.getD keyId 0))
      rw [← hdigest b hD, hin root (List.mem_cons_self ..), BitVec.getLsbD_and,
        BitVec.getLsbD_xor, BitVec.getLsbD_xor, hbits, BitVec.getLsbD_shiftLeft,
        decide_eq_true hD, getLsbD_shown, decide_eq_true hs, decide_eq_true hb64,
        BitVec.getLsbD_xor]
      simp [memAt]
    · rw [hin root (List.mem_cons_self ..), getLsbD_cellLabel_high P st keyId hb64 hD,
        BitVec.getLsbD_and, getLsbD_shown]
      by_cases hs : b < shownWidth P (st.values.getD keyId 0)
      case neg => rw [decide_eq_false hs, Bool.false_and, Bool.and_false, Bool.and_false]
      case pos =>
        have hv : b < P.VDL := hs.trans_le (shownWidth_le ..)
        have hL : b - P.DL < P.L := by
          rw [Config.VDL] at hv
          omega
        have hsub : P.DL + (b - P.DL) = b := by omega
        rw [BitVec.getLsbD_xor, BitVec.getLsbD_xor, hbits, ← hx₀, BitVec.getLsbD_shiftLeft,
          BitVec.getLsbD_xor, BitVec.getLsbD_xor, getLsbD_memValueGet hz hrn,
          getLsbD_memValueGet hz hbn, hsub, decide_eq_true hv, decide_eq_true hL,
          decide_eq_false hD, decide_eq_true hb64, decide_eq_true hs]
        simp only [memAt]
        cases (valueAt st keyId).getLsbD (b - P.DL) <;>
          cases (memGet P.toConfig st.mem root).getLsbD b <;>
          cases (memGet P.toConfig st.mem hb).getLsbD b <;> rfl
  · have hlow : x.getLsbD 0 = false := by
      rw [hbits, BitVec.getLsbD_shiftLeft, decide_eq_true (Nat.pos_of_ne_zero hD)]
      simp
    refine half_taken hsh hg hS (hc.taken hDP hD) (hboth hD).2 hin hout ?_ he
    rw [hin root (List.mem_cons_self ..), BitVec.getLsbD_xor, hlow, Bool.false_xor]
    exact (hboth hD).1

end Half

theorem Cells.congr {st' : Othello K} {n' : ℕ} (h : Cells P st n)
    (hm : st'.maintainingDP = st.maintainingDP) (hmem : st'.mem = st.mem)
    (hnodes : nodes st' = nodes st) (hgraph : ∀ e u v, graph P st' n' e u v →
      ∃ e', graph P st n e' u v ∧ cellLabel P st' e = cellLabel P st e' ∧
        shown P st' e = shown P st e') : Cells P st' n' where
  maintaining := hm.trans h.maintaining
  sized hDP := by
    rw [hmem, hnodes]
    exact h.sized hDP
  labels hDP e u v hg := by
    obtain ⟨e', hg', hl, hs⟩ := hgraph e u v hg
    rw [memAt, memAt, hmem, hl, hs]
    exact h.labels hDP e' u v hg'
  taken hDP hD e u v hg := by
    obtain ⟨e', hg', -⟩ := hgraph e u v hg
    rw [memAt, hmem]
    exact h.taken hDP hD e' u v hg'

theorem Cells.write_alone (hsh : Shape P st) (h : Cells P st n) {root : ℕ} (hroot : root < nodes st)
    (halone : ∀ e w, ¬ graph P st n e root w) (a : BitVec 64) :
    Cells P { st with mem := memSet P.toConfig st.mem root a } n := by
  have hother : P.maintainDP = true → ∀ e u v, graph P st n e u v →
      memGet P.toConfig (memSet P.toConfig st.mem root a) u = memAt P st u := by
    intro hDP e u v hg
    have hne : u ≠ root := fun heq => halone e v (heq ▸ hg)
    exact memGet_memSet_other (h.sized hDP) hroot (hsh.graph_lt hg).1 hne a
  refine ⟨h.maintaining, fun hDP => (memStore P (nodes st)).ok_set (h.sized hDP),
    fun hDP e u v hg => ?_, fun hDP hD e u v hg => ?_⟩
  · have hg' : graph P st n e u v := hg
    rw [memAt, memAt, hother hDP e u v hg', hother hDP e v u ((undirected_graph P st n).symm hg')]
    exact h.labels hDP e u v hg'
  · have hg' : graph P st n e u v := hg
    rw [memAt, hother hDP e u v hg']
    exact h.taken hDP hD e u v hg'

theorem Cells.withForest (h : Cells P st n) (forest : DisjointSet.Mem) :
    Cells P { st with connectivityForest := forest } n :=
  ⟨h.maintaining, h.sized, h.labels, h.taken⟩

theorem sized_memSet {c : Config} {mem : List (BitVec 64)} {N : ℕ} (h : Sized c mem N) (i : ℕ)
    (v : BitVec 64) : Sized c (memSet c mem i v) N :=
  h.congr (length_memSet v)

theorem replays_foldl {c : Config} {N : ℕ} {x : BitVec 64} (hx : x &&& c.VDEMASK = x)
    (D : List (Visit ℕ ℕ)) (hD : ∀ t ∈ D, t.child < N) {mem : List (BitVec 64)}
    (h : Sized c mem N) :
    Replays c mem (if x ≠ 0 then D.map Visit.child else [])
      (D.foldl (fun m t => memSet c m t.child (x ^^^ memGet c m t.child)) mem) := by
  induction D generalizing mem with
  | nil => simpa using Replays.nil c mem
  | cons t D ih =>
    have ht : t.child < N := hD t (by simp)
    have hstep := Replays.memSet h ht (x ^^^ memGet c mem t.child)
    rw [mask_xor _ _ _ (memGet_lt h ht), hx] at hstep
    have hrest := ih (fun s hs => hD s (List.mem_cons_of_mem _ hs))
      (sized_memSet h t.child (x ^^^ memGet c mem t.child))
    have happ := hstep.append hrest
    have hne : memGet c mem t.child ≠ x ^^^ memGet c mem t.child ↔ x ≠ 0 := by
      refine not_congr ⟨fun heq => ?_, fun heq => by rw [heq]; exact BitVec.zero_xor.symm⟩
      have := congrArg (· ^^^ memGet c mem t.child) heq
      simpa [BitVec.xor_assoc] using this.symm
    simp only [hne] at happ
    rw [List.foldl_cons]
    by_cases hx0 : x ≠ 0
    · simp only [if_pos hx0, List.singleton_append] at happ ⊢
      exact happ
    · simp only [if_neg hx0, List.append_nil] at happ ⊢
      exact happ

/-- Without digests the log of `fixHalfTreeDFS_on_demand` tells what changed. -/
theorem half_replays (hD : P.DL = 0) (hsh : Shape P st) (hm : st.maintainingDP = true)
    (hDP : P.maintainDP = true) (hz : Sized P.toConfig st.mem (nodes st)) (hk : keyId < n)
    (keepDigest : Bool) {D : List (Visit ℕ ℕ)}
    (hS : Spans (graph P st n) (some keyId) (ends P st keyId).1 D) :
    Replays P.toConfig st.mem
      (halfFlips P st true keepDigest keyId (ends P st keyId).1 (ends P st keyId).2 D)
      (halfCells P st true keepDigest keyId (ends P st keyId).1 (ends P st keyId).2 D) := by
  have hrn := (hsh.graph_lt (graph_ends P st hk)).1
  have hcond : ∀ b, (true && decide (P.DL ≠ 0) && b) = false := fun b => by
    rw [hD]
    rfl
  have henter : ∀ hb, enterMem P st true hb = st.mem := fun hb => by
    rw [enterMem, hcond]
    rfl
  have hends : ∀ root hb, halfEnds P st true root hb = (root, hb) := fun root hb => by
    rw [halfEnds, hcond, Bool.false_and]
    rfl
  have hread : ∀ mem v, readCell P keepDigest mem v = memGet P.toConfig mem v := fun mem v => by
    cases keepDigest
    · rfl
    · exact memValueGet_eq hD
  generalize (ends P st keyId).1 = root at *
  generalize (ends P st keyId).2 = hb at *
  generalize hfilled : memSet P.toConfig st.mem root
    (valueAt st keyId ^^^ memGet P.toConfig st.mem hb) = filled
  have hroot : rootMem P st true keepDigest keyId root hb = filled := by
    rw [rootMem, henter, hends, fillMem, hm, ← hfilled]
    cases keepDigest
    · simp only [fillWord, hD]
      rfl
    · simp only [memValueGet_eq hD, memValueSet_eq hD]
      rfl
  have hz₂ : Sized P.toConfig filled (nodes st) := by
    rw [← hfilled]
    exact (memStore P (nodes st)).ok_set hz
  generalize hx : memGet P.toConfig st.mem root ^^^ memGet P.toConfig filled root = x
  have hmask : x &&& P.VDEMASK = x := by
    rw [← hx, mask_xor _ _ _ (memGet_lt hz₂ hrn), memGet_lt hz hrn]
  have htemp : halfTemplate P st true keepDigest keyId root hb = x := by
    rw [halfTemplate, if_pos rfl, hroot, henter, hends, hread, hread]
    exact hx
  have hfix : ∀ m v, fixMem P true keepDigest m v x =
      memSet P.toConfig m v (x ^^^ memGet P.toConfig m v) := fun m v => by
    rw [fixMem, hDP]
    cases keepDigest
    · rfl
    · simp only [memValueGet_eq hD, memValueSet_eq hD]
      rfl
  have hne : memGet P.toConfig st.mem root ≠ memGet P.toConfig filled root ↔ x ≠ 0 := by
    rw [← hx]
    exact BitVec.xor_eq_zero_iff.not.symm
  have hstart := Replays.memSet hz hrn (valueAt st keyId ^^^ memGet P.toConfig st.mem hb)
  rw [← memGet_memSet_same hz hrn, hfilled] at hstart
  have hrest := replays_foldl hmask D (fun t ht => hsh.child_lt hS ht) hz₂
  simp only [halfFlips, halfCells, henter, hends, hroot, htemp, hfix]
  exact hstart.append hrest

end OthelloInvariant
