import TinyCR.FullWire
import TinyCR.FilterLayout
import TinyCR.FilterRun
import Mathlib.Algebra.Order.BigOperators.Group.Finset

/-! # Full updates of a running server

A device that joins is sent the snapshot of the last `init` or rebuild. What it answers then
is what the tracker answered at that time. -/
namespace FullUpdates

open ControlPlaneOthello OthelloInvariant VacuumFilter DASSTracker TrackerInvariant TrackerRun
  DASSVerifier CRIoTControl FilterCopy FilterLayout FullWire

variable {K E : Type} [DecidableEq K] [Inhabited K] {S : TrackerSetup K E} {t t' : Tracker K E}
  {X : EngineText E}

omit [DecidableEq K] [Inhabited K] in
theorem Fits.sound {f : VacuumFilter.Filter E} {n fp_len : ℕ}
    (h : Fits (initFilter S f n fp_len)) : Sound S.hash (initFilter S f n fp_len) := by
  refine Sound.of_valid h.valid.1 fun pos _ => ?_
  have hrank : rank (initFilter S f n fp_len) pos = 0 := rank_init _ f 4 400 h.fp_len pos
  rw [hrank, BucketCodec.length_plainBits]
  decide

omit [Inhabited K] in
theorem insertPositives_sound {l : List K} {done : Bool} (hs : Sound S.hash t.vf)
    (hrun : insertPositives S t l = (done, t')) : Sound S.hash t'.vf := by
  induction l generalizing t with
  | nil =>
    obtain ⟨-, rfl⟩ := Prod.mk.inj hrun
    exact hs
  | cons k l ih =>
    have hnext := (insert_withTables S.engine hs hs.built (S.ele k)).2
    rw [insertPositives] at hrun
    generalize VacuumFilter.insert S.hash S.engine t.vf (S.ele k) = r at hrun hnext
    obtain ⟨ok, vf⟩ := r
    dsimp only at hrun
    split at hrun
    · obtain ⟨-, rfl⟩ := Prod.mk.inj hrun
      exact hnext
    · exact ih hnext hrun

structure Filled (S : TrackerSetup K E) (f : VacuumFilter.Filter E) : Prop where
  shape : ∃ f₀ n fp_len, SameShape (initFilter S f₀ n fp_len) f
  sound : Fits f → Sound S.hash f

theorem batch_insert_filled {n : ℕ} {done : Bool} {pos neg : List K}
    (h : ∃ f₀ m fp_len, t.vf = initFilter S f₀ m fp_len)
    (hrun : batch_insert S n t pos neg = .ok (done, t')) : Filled S t'.vf := by
  induction n generalizing t done with
  | zero => cases hrun
  | succ n ih =>
    obtain ⟨f₀, m, fp_len, hvf⟩ := h
    rw [batch_insert] at hrun
    split at hrun
    case isTrue =>
      obtain ⟨-, rfl⟩ := Prod.mk.inj (Except.ok.inj hrun)
      exact ⟨⟨f₀, m, fp_len, hvf ▸ SameShape.refl _⟩, fun hfit => hvf ▸ Fits.sound (hvf ▸ hfit)⟩
    case isFalse =>
    split at hrun
    case h_1 t₁ hins =>
      obtain ⟨r, hnext, heq⟩ := of_map_ok hrun
      obtain ⟨-, rfl⟩ := Prod.mk.inj heq
      exact ih ⟨_, _, _, rfl⟩ hnext
    case h_2 t₁ hins =>
      obtain ⟨vf, PK, ht₁, hs⟩ := insertPositives_parts hins
      have hrec := recordNegatives_vf (S := S) t₁ [] neg
      obtain ⟨othello, -, heq⟩ := of_map_ok hrun
      obtain ⟨-, rfl⟩ := Prod.mk.inj heq
      have hshape : SameShape (initFilter S f₀ m fp_len) t₁.vf := by
        rw [← hvf, ht₁]
        exact hs
      refine ⟨⟨f₀, m, fp_len, hrec ▸ hshape⟩, fun hfit => ?_⟩
      have hfit₀ : Fits (initFilter S f₀ m fp_len) := (hrec ▸ hfit : Fits t₁.vf).of_shape hshape
      have hsound := insertPositives_sound (hvf ▸ Fits.sound hfit₀) hins
      exact hrec ▸ hsound

/-- What the model leaves wider than the C++ types, and the engine's text, which is a number. -/
structure Typed (X : EngineText E) (d : Verifier E) : Prop where
  big_seg : IsInt d.vf.big_seg
  len : d.vf.len.length = 4
  len_int : ∀ i ∈ d.vf.len, IsInt i
  text : (X.print d.vf.e).length ≤ 2 ^ 31

omit [DecidableEq K] [Inhabited K] in
theorem filled_sizes {f : VacuumFilter.Filter E} (hv : Valid S.hash f) (hf : Filled S f) :
    f.n < 1315800 ∧ f.max_kick_steps = 400 ∧
      f.memory_consumption = memoryConsumption f.n 4 f.fp_len := by
  obtain ⟨f₀, n, fp_len, hs⟩ := hf.shape
  have hsmall := hv.small
  rw [SameShape] at hs
  rw [hs] at hsmall ⊢
  have hlt : bucketCount n + (bucketCount n &&& 1) < 1315800 := of_decide_eq_true hsmall
  refine ⟨?_, rfl, rfl⟩
  simp only [initFilter, VacuumFilter.init, decide_eq_true hlt, if_true]
  exact hlt

omit [DecidableEq K] [Inhabited K] in
theorem filled_cell_isInt {f : VacuumFilter.Filter E} (hv : Valid S.hash f) (hn : f.n < 1315800) :
    IsInt f.filled_cell := by
  have hcard : FilterRun.nonZeroSlots f ≤ f.n * 4 := by
    have hsum := Finset.sum_le_card_nsmul (Finset.range f.n) (fun pos => (getBucket f pos).count) 4
      fun pos _ => count_le pos
    rwa [Finset.card_range, smul_eq_mul] at hsum
  rw [IsInt, hv.filled, FilterRun.card_contents]
  omega

theorem install_sizes (hc : Consistent S t) (hf : Filled S t.vf) (ht : Typed X (install t)) :
    InTypes (install t) ∧ fullLength X (install t) ≤ 2 ^ 32 := by
  obtain ⟨hn, hkicks, hmem⟩ := filled_sizes hc.valid hf
  have hv := hc.valid
  have hbits : t.vf.n * 4 * (t.vf.fp_len - 1) ≤ 1315800 * 4 * 15 :=
    Nat.mul_le_mul (by omega) (by have := hv.fp_range; omega)
  have hbytes : t.vf.memory_consumption ≤ 2 ^ 30 := by
    rw [hmem, memoryConsumption, ROUNDUP, BucketCodec.ROUNDDOWN]
    omega
  have hone : S.othello.VDL = 1 := rfl
  have hwide : nodes t.othello + 63 < 2 ^ 32 := by
    have hfits := hc.othello.sized.fits
    rwa [hone, Nat.mul_one] at hfits
  have hwords : t.othello.mem.length ≤ 2 ^ 26 := by
    have hlen := hc.othello.sized.length_eq
    rw [hone, Nat.mul_one] at hlen
    omega
  have hnodes : nodes t.othello = t.othello.ma + t.othello.mb := rfl
  have hpower := hv.power
  constructor
  · exact
      { mem := lt_of_le_of_lt hwords (by decide)
        ma := by
          show t.othello.ma < 2 ^ 32
          omega
        mb := by
          show t.othello.mb < 2 ^ 32
          omega
        memory_consumption := lt_of_le_of_lt hbytes (by decide)
        n := lt_trans hn (by decide)
        m := hv.four.trans_lt (by decide)
        filled_cell := filled_cell_isInt hv hn
        max_kick_steps := hkicks.trans_lt (by decide)
        max_2_power := (hpower.trans hn).trans (by decide)
        big_seg := ht.big_seg
        len := ht.len
        len_int := ht.len_int
        fp_len := lt_of_le_of_lt hv.fp_range.2 (by decide)
        T := hv.words
        built := fun _ => hv.built }
  · have htext : (X.print t.vf.e).length ≤ 2 ^ 31 := ht.text
    have hcells : t.vf.T.length ≤ 2 ^ 28 := by
      rw [hv.words]
      omega
    have hlength : fullLength X (install t) =
        86 + 8 * t.othello.mem.length + (X.print t.vf.e).length + 4 * t.vf.T.length := rfl
    omega

structure Installed (S : TrackerSetup K E) (d : Verifier E) (t : Tracker K E) : Prop where
  eq : d = install t
  consistent : Consistent S t
  filled : Filled S t.vf

variable {c₀ c c' : ControlVO K E} {l : List (Event K E)} {reg : K → Option Bool} {x : Call K}
  {ok : Bool}

theorem Called.installed (h : Called S c x ok c') (hc : Consistent S c'.vo_control)
    (hd : ∃ t, Installed S c.vo_data t) : ∃ t, Installed S c'.vo_data t := by
  cases h with
  | keep hcall =>
    obtain ⟨-, -, hsame⟩ := call_true hcall
    rwa [hsame]
  | rebuild _ _ hcall _ =>
    obtain ⟨t, done, -, hre, hinstall, -⟩ := call_false hcall
    exact ⟨_, hinstall, hc, batch_insert_filled ⟨_, _, _, rfl⟩ hre⟩

theorem Run.installed (h : Run S c₀ l c reg) : ∃ t, Installed S c.vo_data t := by
  have hreached := h.reached
  induction h with
  | init hempty hpos hneg hdisj hlp hln hinit hfit =>
    obtain ⟨⟨done, t⟩, hbatch, hc⟩ := of_bind_ok hinit
    obtain rfl := Except.ok.inj hc
    exact ⟨t, rfl, hreached.consistent.1, batch_insert_filled ⟨_, _, _, rfl⟩ hbatch⟩
  | insert hrun _ _ hcall ih => exact Called.installed hcall hreached.consistent.1 (ih hrun.reached)
  | setValue hrun _ hcall ih =>
    exact Called.installed hcall hreached.consistent.1 (ih hrun.reached)

/-- Whatever a device held before, a full update makes it answer as the server does. -/
def Current (S : TrackerSetup K E) (X : EngineText E) (c : ControlVO K E) : Prop :=
  ∀ vo_data : Verifier E, ∃ d, decode_full X vo_data (fullMessage X c.vo_data) = some d ∧
    ∀ k, k ∈ c.vo_control.PK ∨ k ∈ c.vo_control.NK →
      DASSVerifier.query S d k = CRIoTControl.query S c k

def UpToDate (S : TrackerSetup K E) (d : Verifier E) (reg : K → Option Bool) : Prop :=
  ∀ k b, reg k = some b → DASSVerifier.query S d k = Bool.toNat b

theorem Run.decode_full (h : Run S c₀ l c reg) (ht : Typed X c.vo_data) (vo_data : Verifier E) :
    ∃ d, decode_full X vo_data (fullMessage X c.vo_data) = some d ∧
      ∀ k, DASSVerifier.query S d k = DASSVerifier.query S c.vo_data k := by
  obtain ⟨t, heq, hc, hf⟩ := Run.installed h
  rw [heq] at ht ⊢
  obtain ⟨hin, hlen⟩ := install_sizes hc hf ht
  have hv := hc.valid
  have hsound : Sound S.hash t.vf := hf.sound ⟨hv.small, hv.two_le, hv.fp_range⟩
  have htwin : Twin S.hash (install t) (received vo_data (install t)) := received_twin hsound
  exact ⟨_, decode_fullMessage hin hlen, htwin.query⟩

theorem Run.current_iff (h : Run S c₀ l c reg) (ht : Typed X c.vo_data) :
    Current S X c ↔ UpToDate S c.vo_data reg := by
  constructor
  · intro hcur k b hk
    obtain ⟨d, hd, hquery⟩ := hcur c.vo_data
    obtain ⟨d', hd', hsame⟩ := Run.decode_full h ht c.vo_data
    obtain rfl := Option.some.inj (hd.symm.trans hd')
    have hmem := (h.answers k).1.mpr (by rw [hk]; rfl)
    rw [← hsame k, hquery k hmem, (h.answers k).2 b hk]
  · intro hup vo_data
    obtain ⟨d, hd, hsame⟩ := Run.decode_full h ht vo_data
    refine ⟨d, hd, fun k hk => ?_⟩
    obtain ⟨b, hb⟩ := Option.isSome_iff_exists.mp ((h.answers k).1.mp hk)
    rw [hsame k, hup k b hb, (h.answers k).2 b hb]

/-- The call comes to a rebuild, or the snapshot already has the new value. -/
def KeepsCurrent (S : TrackerSetup K E) (c : ControlVO K E) (x : Call K) : Prop :=
  (∃ t, update S c.vo_control x = .ok (rebuildMarker, t)) ∨
    DASSVerifier.query S c.vo_data x.kv.1 = x.kv.2

theorem Called.upToDate_iff (h : Called S c x ok c') {b : Bool} (hx : x.kv.2 = Bool.toNat b)
    (hans : ∀ q b', Function.update reg x.kv.1 (some b) q = some b' →
      CRIoTControl.query S c' q = Bool.toNat b') (hup : UpToDate S c.vo_data reg) :
    UpToDate S c'.vo_data (Function.update reg x.kv.1 (some b)) ↔ KeepsCurrent S c x := by
  cases h with
  | keep hcall =>
    obtain ⟨hupdate, hne, hsame⟩ := call_true hcall
    rw [hsame, KeepsCurrent, or_iff_right, hx]
    · constructor
      · intro hnew
        exact hnew x.kv.1 b (Function.update_self ..)
      · intro hkey q b' hq
        rw [Function.update_apply] at hq
        split at hq
        case isTrue heq =>
          obtain rfl := Option.some.inj hq
          rw [heq, hkey]
        case isFalse => exact hup q b' hq
    · rintro ⟨t, ht⟩
      exact hne (Prod.mk.inj (Except.ok.inj (hupdate.symm.trans ht))).1
  | rebuild hupdate _ hcall _ =>
    obtain ⟨t, done, -, -, hinstall, -⟩ := call_false hcall
    refine iff_of_true (fun q b' hq => ?_) (Or.inl ⟨_, hupdate⟩)
    rw [hinstall, query_install]
    exact hans q b' hq

theorem Run.current_start (h : Run S c₀ l c reg) (ht : Typed X c₀.vo_data) : Current S X c₀ := by
  obtain ⟨hinstall, reg₀, hrun⟩ := h.start
  refine (Run.current_iff hrun ht).mpr fun k b hk => ?_
  rw [hinstall, query_install]
  exact (hrun.answers k).2 b hk

theorem Run.current_step_iff {b : Bool} (h : Run S c₀ l c reg) (hcall : Called S c x ok c')
    (hx : x.kv.2 = Bool.toNat b)
    (h' : Run S c₀ (l ++ [⟨c, x, ok, c'⟩]) c' (Function.update reg x.kv.1 (some b)))
    (ht : Typed X c.vo_data) (ht' : Typed X c'.vo_data) (hcur : Current S X c) :
    Current S X c' ↔ KeepsCurrent S c x := by
  rw [Run.current_iff h' ht']
  exact Called.upToDate_iff hcall hx (fun q b' hq => (h'.answers q).2 b' hq)
    ((Run.current_iff h ht).mp hcur)

/-- The server's state is what every full update of a run carries exactly if every call comes to a
rebuild or changes no answer of the snapshot. -/
theorem current_run_iff (h : Run S c₀ l c reg) (h₀ : Typed X c₀.vo_data)
    (ht : ∀ e ∈ l, Typed X e.after.vo_data) : Current S X c₀ ∧
      ((∀ e ∈ l, Current S X e.after) ↔ ∀ e ∈ l, KeepsCurrent S e.before e.call) := by
  have hstart := Run.current_start h h₀
  refine ⟨hstart, ?_⟩
  -- A call appended to a run: the states before it are current on either side.
  have hsnoc : ∀ {l : List (Event K E)} {c c' : ControlVO K E} {reg x ok} {b : Bool},
      Run S c₀ l c reg → Called S c x ok c' → x.kv.2 = Bool.toNat b →
      Run S c₀ (l ++ [⟨c, x, ok, c'⟩]) c' (Function.update reg x.kv.1 (some b)) →
      (∀ e ∈ l ++ [⟨c, x, ok, c'⟩], Typed X e.after.vo_data) →
      ((∀ e ∈ l, Current S X e.after) ↔ ∀ e ∈ l, KeepsCurrent S e.before e.call) →
      ((∀ e ∈ l ++ [⟨c, x, ok, c'⟩], Current S X e.after) ↔
        ∀ e ∈ l ++ [⟨c, x, ok, c'⟩], KeepsCurrent S e.before e.call) := by
    intro l c c' reg x ok b hrun hcall hx hrun' ht ih
    rw [List.forall_mem_append] at ht
    rw [List.forall_mem_append, List.forall_mem_append, List.forall_mem_singleton,
      List.forall_mem_singleton, ← ih]
    refine and_congr_right fun hl => ?_
    have hc : Typed X c.vo_data := hrun.last (p := fun c => Typed X c.vo_data) h₀ ht.1
    exact Run.current_step_iff hrun hcall hx hrun' hc (ht.2 _ (List.mem_singleton_self _))
      (hrun.last hstart hl)
  induction h with
  | init => exact iff_of_true (fun _ he => by cases he) (fun _ he => by cases he)
  | insert hrun hP hN hcall ih =>
    exact hsnoc hrun hcall rfl (.insert hrun hP hN hcall) ht
      (ih fun e he => ht e (List.mem_append_left _ he))
  | setValue hrun hk hcall ih =>
    exact hsnoc hrun hcall rfl (.setValue hrun hk hcall) ht
      (ih fun e he => ht e (List.mem_append_left _ he))

def typedTracker : Tracker ℕ ℕ :=
  { emptyTracker with vf := { emptyTracker.vf with len := [0, 0, 0, 0] } }

def joinRun (b : Bool) : Option (Tracker ℕ ℕ × Tracker ℕ ℕ) := do
  let t ← started (batch_insert smallTracker 1 (DASSTracker.init smallTracker typedTracker 4 1)
    [1, 2, 3, 4] [5])
  let t' ← kept (DASSTracker.insert smallTracker t (6, b.toNat))
  return (t, t')

def joinReg (k : ℕ) : Option Bool :=
  if k ∈ [1, 2, 3, 4] then some true else if k ∈ [5] then some false else none

theorem joinRun_facts : ∀ b, (joinRun b).map (fun p => decide (p.1.vf.len = [0, 0, 0, 0] ∧
    p.1.vf.big_seg = 0 ∧ p.1.vf.e = 1 ∧ DASSVerifier.query smallTracker (install p.1) 6 = 0)) =
      some true := by decide +kernel

theorem joinRun_run (b : Bool) : ∃ c₀ c : ControlVO ℕ ℕ,
    Run smallTracker c₀ [⟨c₀, .insert (6, b.toNat), true, c⟩] c
      (Function.update joinReg 6 (some b)) ∧ Typed unaryText c₀.vo_data ∧ c.vo_data = c₀.vo_data ∧
      DASSVerifier.query smallTracker c₀.vo_data 6 = 0 ∧
      ∀ t, update smallTracker c₀.vo_control (.insert (6, b.toNat)) ≠ .ok (rebuildMarker, t) := by
  obtain ⟨⟨t, t'⟩, hrun, hfacts⟩ := Option.map_eq_some_iff.mp (joinRun_facts b)
  rw [decide_eq_true_eq] at hfacts
  obtain ⟨hlen, hseg, he, hquery⟩ := hfacts
  rw [joinRun] at hrun
  obtain ⟨t₀, hstart, hrun⟩ := Option.bind_eq_some_iff.mp hrun
  obtain ⟨t₁, hkept, hrun⟩ := Option.bind_eq_some_iff.mp hrun
  obtain ⟨rfl, rfl⟩ := Prod.mk.inj (Option.some.inj hrun)
  obtain ⟨done, hbatch, hfit⟩ := started_some hstart
  obtain ⟨flipped, hins, hne⟩ := kept_some hkept
  have hinit : CRIoTControl.init smallTracker ⟨typedTracker, install typedTracker, []⟩ 1
      [1, 2, 3, 4] [5] = .ok ⟨t₀, install t₀, []⟩ := by
    have hbatch' : batch_insert smallTracker 1 (DASSTracker.init smallTracker typedTracker
        [1, 2, 3, 4].length [5].length) [1, 2, 3, 4] [5] = .ok (done, t₀) := hbatch
    rw [CRIoTControl.init, hbatch']
    rfl
  have hstate : Run smallTracker ⟨t₀, install t₀, []⟩ [] ⟨t₀, install t₀, []⟩ joinReg :=
    .init (c := ⟨typedTracker, install typedTracker, []⟩) ⟨rfl, rfl⟩ (by decide) (by decide)
      (by simp) (by decide) (by decide) hinit hfit
  have hP : 6 ∉ t₀.PK ∧ 6 ∉ t₀.NK := not_or.mp fun hc => by
    have hsome := (hstate.answers 6).1.mp hc
    cases hsome
  have hcall : call smallTracker 0 [] [] ⟨t₀, install t₀, []⟩ (.insert (6, b.toNat)) =
      .ok (true, ⟨t₁, install t₀, flipped⟩) := call_of_update hins hne
  refine ⟨_, _, .insert hstate hP.1 hP.2 (.keep hcall), ?_, rfl, hquery, fun t hup =>
    hne (Prod.mk.inj (Except.ok.inj (hins.symm.trans hup))).1⟩
  refine ⟨?_, ?_, ?_, ?_⟩
  · rw [install, hseg]
    exact ⟨by decide, by decide⟩
  · rw [install, hlen]
    rfl
  · rw [install, hlen]
    intro i hi
    have h0 : i = 0 := by simpa using hi
    rw [h0]
    exact ⟨by decide, by decide⟩
  · have hone : (unaryText.print t₀.vf.e).length = 1 := by rw [he]; rfl
    exact hone.trans_le (by decide)

theorem current_run_iff_join :
    (∃ (c₀ c : ControlVO ℕ ℕ) (reg : ℕ → Option Bool),
      Run smallTracker c₀ [⟨c₀, .insert (6, 0), true, c⟩] c reg ∧
        Current smallTracker unaryText c₀ ∧ Current smallTracker unaryText c) ∧
    ∃ (c₀ c : ControlVO ℕ ℕ) (reg : ℕ → Option Bool),
      Run smallTracker c₀ [⟨c₀, .insert (6, 1), true, c⟩] c reg ∧
        Current smallTracker unaryText c₀ ∧ ¬ Current smallTracker unaryText c := by
  constructor
  · obtain ⟨c₀, c, hrun, htyped, hsame, hquery, -⟩ := joinRun_run false
    have hkeeps : KeepsCurrent smallTracker c₀ (.insert (6, Bool.toNat false)) := .inr hquery
    obtain ⟨hstart, hiff⟩ := current_run_iff hrun htyped
      (List.forall_mem_singleton.mpr (hsame ▸ htyped))
    rw [List.forall_mem_singleton, List.forall_mem_singleton] at hiff
    exact ⟨c₀, c, _, hrun, hstart, hiff.mpr hkeeps⟩
  · obtain ⟨c₀, c, hrun, htyped, hsame, hquery, hkept⟩ := joinRun_run true
    obtain ⟨hstart, hiff⟩ := current_run_iff hrun htyped
      (List.forall_mem_singleton.mpr (hsame ▸ htyped))
    rw [List.forall_mem_singleton, List.forall_mem_singleton] at hiff
    refine ⟨c₀, c, _, hrun, hstart, fun hcurrent => ?_⟩
    rcases hiff.mp hcurrent with ⟨t, hup⟩ | hkey
    · exact hkept t hup
    · have hone : DASSVerifier.query smallTracker c₀.vo_data 6 = 1 := hkey
      rw [hquery] at hone
      cases hone

/-- The server answers the key 6 with 1, a device that joins answers 0. -/
theorem late_device_differs :
    ∃ (c₀ c : ControlVO ℕ ℕ) (l : List (Event ℕ ℕ)) (reg : ℕ → Option Bool),
    Run smallTracker c₀ l c reg ∧ (6 ∈ c.vo_control.PK ∨ 6 ∈ c.vo_control.NK) ∧
      CRIoTControl.query smallTracker c 6 = 1 ∧
      ∀ vo_data, ∃ d, decode_full unaryText vo_data (fullMessage unaryText c.vo_data) = some d ∧
        DASSVerifier.query smallTracker d 6 = 0 := by
  obtain ⟨c₀, c, hrun, htyped, hsame, hquery, -⟩ := joinRun_run true
  obtain ⟨hreg, hans⟩ := hrun.answers 6
  refine ⟨c₀, c, _, _, hrun, hreg.mpr (by simp), hans true (by simp), fun vo_data => ?_⟩
  obtain ⟨d, hd, hall⟩ := Run.decode_full hrun (hsame ▸ htyped) vo_data
  exact ⟨d, hd, by rw [hall, hsame, hquery]⟩

end FullUpdates
