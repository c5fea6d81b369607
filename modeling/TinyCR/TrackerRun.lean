import TinyCR.TrackerSteps

/-! # Runs of `DASS_Tracker`

`batch_insert` and `rebuild` set the tracker up from lists of keys. Over any run of
`insert` and `setValue`, with a rebuild whenever one is asked for, the tracker stays
consistent and registers every key with the value it was given last. -/
namespace TrackerRun

open PackedCells ControlPlaneOthello DataPlaneOthello OthelloInvariant OthelloRun VacuumFilter
  DASSTracker TrackerInvariant

variable {K E : Type} {S : TrackerSetup K E} {t t' : Tracker K E}

/-- What is asked of every `init`: a small filter with two buckets or more, and fingerprints
the bucket codec can hold. -/
structure Fits (f : VacuumFilter.Filter E) : Prop where
  small : f.isSmall = true
  two_le : 2 ≤ f.n
  fp_len : 4 ≤ f.fp_len ∧ f.fp_len ≤ 16

theorem Fits.of_shape {f g : VacuumFilter.Filter E} (hs : SameShape f g) (h : Fits g) : Fits f := by
  obtain ⟨h1, h2, h3⟩ := h
  rw [SameShape] at hs
  rw [hs] at h1 h2 h3
  exact ⟨h1, h2, h3⟩

theorem Fits.valid {f : VacuumFilter.Filter E} {n fp_len : ℕ} (h : Fits (initFilter S f n fp_len)) :
    Valid S.hash (initFilter S f n fp_len) ∧
      contents S.hash (initFilter S f n fp_len) = 0 := by
  have hsmall : bucketCount n + (bucketCount n &&& 1) < 1315800 := of_decide_eq_true h.small
  have htwo := h.two_le
  have hn : (initFilter S f n fp_len).n = bucketCount n + (bucketCount n &&& 1) := by
    simp only [initFilter, VacuumFilter.init, decide_eq_true hsmall, if_true]
  rw [hn] at htwo
  rw [Nat.and_one_is_mod] at hsmall htwo
  exact init_valid S.hash S.engine S.properAltRange f 400 (by omega) hsmall h.fp_len

variable [DecidableEq K]

theorem insertPositives_parts {l : List K} {done : Bool}
    (hrun : insertPositives S t l = (done, t')) :
    ∃ vf PK, t' = { t with vf := vf, PK := PK } ∧ SameShape t.vf vf := by
  induction l generalizing t with
  | nil =>
    obtain ⟨-, rfl⟩ := Prod.mk.inj hrun
    exact ⟨_, _, rfl, SameShape.refl _⟩
  | cons k l ih =>
    have hs := insert_shape S.hash S.engine t.vf (S.ele k)
    rw [insertPositives] at hrun
    generalize VacuumFilter.insert S.hash S.engine t.vf (S.ele k) = r at hrun hs
    obtain ⟨ok, vf⟩ := r
    dsimp only at hrun
    split at hrun
    · obtain ⟨-, rfl⟩ := Prod.mk.inj hrun
      exact ⟨_, _, rfl, hs⟩
    · obtain ⟨vf', PK, rfl, hs'⟩ := ih hrun
      exact ⟨vf', PK, rfl, hs.trans hs'⟩

theorem insertPositives_ok {l : List K} (hv : Valid S.hash t.vf)
    (hc : contents S.hash t.vf = t.PK.val.map (elem S t)) (hnd : l.Nodup)
    (hnew : ∀ k ∈ l, k ∉ t.PK) (hrun : insertPositives S t l = (true, t')) :
    Valid S.hash t'.vf ∧ contents S.hash t'.vf = t'.PK.val.map (elem S t') ∧
      t'.PK = t.PK ∪ l.toFinset := by
  induction l generalizing t with
  | nil =>
    obtain ⟨-, rfl⟩ := Prod.mk.inj hrun
    exact ⟨hv, hc, by simp⟩
  | cons k l ih =>
    have hland := insert_spec S.engine hv (S.ele k)
    rw [insertPositives] at hrun
    generalize VacuumFilter.insert S.hash S.engine t.vf (S.ele k) = r at *
    obtain ⟨ok, vf⟩ := r
    obtain ⟨hkl, hnd⟩ := List.nodup_cons.mp hnd
    have hk : k ∉ t.PK := hnew k (by simp)
    rcases hland.result with ⟨rfl, hc'⟩ | ⟨rfl, -⟩
    · simp only [zero_ne_one, if_false] at hrun
      have hstep : contents S.hash vf = (Insert.insert k t.PK).val.map
          (elem S { t with vf := vf, PK := Insert.insert k t.PK }) := by
        have helem : elem S { t with vf := vf, PK := Insert.insert k t.PK } = elem S t :=
          (elem_of_shape hland.shape).1
        rw [helem, Finset.insert_val_of_notMem hk, Multiset.map_cons, ← hc,
          ← Multiset.singleton_add, add_comm]
        exact hc'
      have hrest : ∀ j ∈ l, j ∉ Insert.insert k t.PK := by
        intro j hj hc
        rcases Finset.mem_insert.mp hc with rfl | hc
        · exact hkl hj
        · exact hnew j (List.mem_cons_of_mem _ hj) hc
      obtain ⟨hv', hcont, hPK⟩ := ih (t := { t with vf := vf, PK := Insert.insert k t.PK })
        hland.valid hstep hnd hrest hrun
      refine ⟨hv', hcont, hPK.trans ?_⟩
      show Insert.insert k t.PK ∪ l.toFinset = _
      rw [List.toFinset_cons, Finset.insert_union, Finset.union_insert]
    · simp at hrun

theorem recordNegatives_vf (t : Tracker K E) (FPK l : List K) :
    (recordNegatives S t FPK l).1.vf = t.vf := by
  induction l generalizing t FPK with
  | nil => rfl
  | cons k l ih =>
    rw [recordNegatives]
    split
    · exact ih _ _
    · exact ih _ _

theorem recordNegatives_spec (l FPK : List K) {p q : K → Prop}
    (hne : ∀ k, (position_pair S t k).1 ≠ (position_pair S t k).2) (hnd : l.Nodup)
    (hT : Tabled t.TNK_table (position_pair S t) p) (hF : Tabled t.FPK_table (position_pair S t) q)
    (hp : ∀ k ∈ l, ¬ p k) (hq : ∀ k ∈ l, ¬ q k) :
    ∃ TNK FPK_table NK, recordNegatives S t FPK l =
        ({ t with NK := NK, TNK_table := TNK, FPK_table := FPK_table },
          FPK ++ l.filter (lookup S t)) ∧
      NK = t.NK ∪ l.toFinset ∧
      Tabled TNK (position_pair S t) (fun k => p k ∨ (k ∈ l ∧ lookup S t k = false)) ∧
      Tabled FPK_table (position_pair S t) (fun k => q k ∨ (k ∈ l ∧ lookup S t k = true)) := by
  induction l generalizing t FPK p q with
  | nil =>
    refine ⟨t.TNK_table, t.FPK_table, t.NK, ?_, by simp, ?_, ?_⟩
    · rw [recordNegatives, List.filter_nil, List.append_nil]
    · simpa using hT
    · simpa using hF
  | cons k l ih =>
    obtain ⟨hkl, hnd⟩ := List.nodup_cons.mp hnd
    have hunion : Insert.insert k t.NK ∪ l.toFinset = t.NK ∪ (k :: l).toFinset := by
      rw [List.toFinset_cons, Finset.insert_union, Finset.union_insert]
    have hne_of : ∀ j ∈ l, j ≠ k := fun j hj heq => hkl (heq ▸ hj)
    rw [recordNegatives]
    cases hl : lookup S t k with
    | true =>
      obtain ⟨TNK, FPKt, NK, hrun, hNK, hT', hF'⟩ := ih (t := { t with
          NK := Insert.insert k t.NK
          FPK_table := record t.FPK_table (position_pair S t k) k }) (FPK ++ [k])
        hne hnd hT (hF.record (hne k) (hq k (by simp)))
        (fun j hj => hp j (List.mem_cons_of_mem _ hj))
        (fun j hj hc => hc.elim (hq j (List.mem_cons_of_mem _ hj)) (hne_of j hj))
      refine ⟨TNK, FPKt, NK, ?_, hNK.trans hunion, ?_, ?_⟩
      · rw [if_pos rfl, hrun, List.filter_cons_of_pos hl, List.append_assoc]
        rfl
      · refine hT'.congr fun j => or_congr_right ?_
        show _ ↔ j ∈ l ∧ lookup S t j = false
        rw [List.mem_cons]
        refine ⟨fun hj => ⟨hj.1.resolve_left fun heq => ?_, hj.2⟩, fun hj => ⟨Or.inr hj.1, hj.2⟩⟩
        rw [heq, hl] at hj
        exact absurd hj.2 (by simp)
      · refine hF'.congr fun j => ?_
        show _ ↔ (q j ∨ j = k) ∨ j ∈ l ∧ lookup S t j = true
        rw [List.mem_cons, or_assoc]
        refine or_congr_right ?_
        by_cases hj : j = k
        · subst hj
          exact iff_of_true ⟨Or.inl rfl, hl⟩ (Or.inl rfl)
        · rw [or_iff_right hj, or_iff_right hj]
    | false =>
      obtain ⟨TNK, FPKt, NK, hrun, hNK, hT', hF'⟩ := ih (t := { t with
          NK := Insert.insert k t.NK
          TNK_table := record t.TNK_table (position_pair S t k) k }) FPK
        hne hnd (hT.record (hne k) (hp k (by simp))) hF
        (fun j hj hc => hc.elim (hp j (List.mem_cons_of_mem _ hj)) (hne_of j hj))
        (fun j hj => hq j (List.mem_cons_of_mem _ hj))
      refine ⟨TNK, FPKt, NK, ?_, hNK.trans hunion, ?_, ?_⟩
      · rw [if_neg (by simp), hrun, List.filter_cons_of_neg (by simp [hl])]
        rfl
      · refine hT'.congr fun j => ?_
        show _ ↔ (p j ∨ j = k) ∨ j ∈ l ∧ lookup S t j = false
        rw [List.mem_cons, or_assoc]
        refine or_congr_right ?_
        by_cases hj : j = k
        · subst hj
          exact iff_of_true ⟨Or.inl rfl, hl⟩ (Or.inl rfl)
        · rw [or_iff_right hj, or_iff_right hj]
      · refine hF'.congr fun j => or_congr_right ?_
        show _ ↔ j ∈ l ∧ lookup S t j = true
        rw [List.mem_cons]
        refine ⟨fun hj => ⟨hj.1.resolve_left fun heq => ?_, hj.2⟩, fun hj => ⟨Or.inr hj.1, hj.2⟩⟩
        rw [heq, hl] at hj
        exact absurd hj.2 (by simp)

def stored (m : K → Option ℕ) (kvs : List (K × ℕ)) : K → Option ℕ :=
  kvs.foldl (fun m kv => Function.update m kv.1 (some kv.2)) m

theorem stored_not_mem {kvs : List (K × ℕ)} {m : K → Option ℕ} {k : K}
    (hk : k ∉ kvs.map Prod.fst) : stored m kvs k = m k := by
  induction kvs generalizing m with
  | nil => rfl
  | cons kv kvs ih =>
    rw [List.map_cons, List.mem_cons, not_or] at hk
    exact (ih hk.2).trans (Function.update_of_ne hk.1 _ _)

theorem stored_mem {kvs : List (K × ℕ)} {m : K → Option ℕ} {k : K} {v : ℕ}
    (hnd : (kvs.map Prod.fst).Nodup) (hk : (k, v) ∈ kvs) : stored m kvs k = some v := by
  induction kvs generalizing m with
  | nil => cases hk
  | cons kv kvs ih =>
    rw [List.map_cons, List.nodup_cons] at hnd
    rcases List.mem_cons.mp hk with rfl | hk
    · exact (stored_not_mem hnd.1).trans (Function.update_self _ _ _)
    · exact ih hnd.2 hk

variable [Inhabited K]

theorem insertAll_ok {kvs : List (K × ℕ)} {st st' : Othello K} {m : K → Option ℕ}
    (h : Invariant S.othello st) (hm : Represents st m) (hnew : ∀ k ∈ kvs.map Prod.fst, m k = none)
    (hnd : (kvs.map Prod.fst).Nodup) (hrun : insertAll S st kvs = .ok st') :
    Invariant S.othello st' ∧ Represents st' (stored m kvs) := by
  induction kvs generalizing st m with
  | nil =>
    obtain rfl := Except.ok.inj hrun
    exact ⟨h, hm⟩
  | cons kv kvs ih =>
    rw [List.map_cons, List.nodup_cons] at hnd
    rw [insertAll] at hrun
    split at hrun
    case h_1 => cases hrun
    case h_2 => cases hrun
    case h_3 x st₁ hins =>
      obtain ⟨-, hinv, hs⟩ := h.insert_spec (plain S) hins
      refine ih hinv (hm.store (hnew _ (by simp)) hs) (fun k hk => ?_) hnd.2 hrun
      have hne : k ≠ kv.1 := fun heq => hnd.1 (heq ▸ hk)
      exact (Function.update_of_ne hne _ _).trans (hnew k (List.mem_cons_of_mem _ hk))

theorem buildOthello_ok {pos FPK : List K} {st : Othello K} (hnd : (pos ++ FPK).Nodup)
    (hrun : buildOthello S t pos FPK = .ok st) :
    Invariant S.othello st ∧ ∃ m, Represents st m ∧ (∀ k ∈ pos, m k = some 1) ∧
      (∀ k ∈ FPK, m k = some 0) ∧ ∀ k, k ∉ pos → k ∉ FPK → m k = none := by
  have hkeys :
      (pos.map (fun k => (k, 1)) ++ FPK.map fun k => (k, 0)).map Prod.fst = pos ++ FPK := by
    simp [List.map_append, List.map_map, Function.comp_def]
  obtain ⟨⟨ok, st₀⟩, hcon, hrun⟩ := of_bind_ok hrun
  cases ok with
  | false => cases hrun
  | true =>
    obtain ⟨hinv₀, hcnt⟩ := construct_spec (plain S) hcon
    obtain ⟨hinv, hm⟩ := insertAll_ok hinv₀ (represents_empty hcnt) (fun _ _ => rfl)
      (by rw [hkeys]; exact hnd) hrun
    refine ⟨hinv, _, hm, fun k hk => ?_, fun k hk => ?_, fun k hP hF => ?_⟩
    · refine stored_mem (by rw [hkeys]; exact hnd) (List.mem_append_left _ ?_)
      exact List.mem_map_of_mem hk
    · refine stored_mem (by rw [hkeys]; exact hnd) (List.mem_append_right _ ?_)
      exact List.mem_map_of_mem hk
    · refine stored_not_mem ?_
      rw [hkeys, List.mem_append]
      exact not_or.mpr ⟨hP, hF⟩

theorem of_map_ok {α β : Type} {x : Except Fault α} {f : α → β} {b : β}
    (h : x.map f = .ok b) : ∃ a, x = .ok a ∧ f a = b := by
  cases x with
  | error e => cases h
  | ok a => exact ⟨a, rfl, Except.ok.inj h⟩

structure Ready (S : TrackerSetup K E) (t : Tracker K E) (pos neg : List K) : Prop where
  PK : t.PK = ∅
  NK : t.NK = ∅
  TNK : t.TNK_table = fun _ => []
  FPK : t.FPK_table = fun _ => []
  n_positive : t.n_positive_keys = pos.length
  n_negative : t.n_negative_keys = neg.length
  vf : ∃ f n fp_len, t.vf = initFilter S f n fp_len

/-- What `batch_insert` calls itself on when the filter is too full. -/
def retried (S : TrackerSetup K E) (t : Tracker K E) : Tracker K E :=
  { t with
    PK := ∅, NK := ∅, fp_len := t.fp_len + 1
    vf := initFilter S t.vf t.n_positive_keys (t.fp_len + 1) }

theorem batch_insert_retried {pos neg : List K} (n : ℕ)
    (hpos : t.n_positive_keys = pos.length) (hneg : t.n_negative_keys = neg.length)
    (hfull : insertPositives S t pos = (false, t')) :
    batch_insert S (n + 1) t pos neg =
      (batch_insert S n (retried S t') pos neg).map fun r => (false, r.2) := by
  rw [batch_insert, if_neg (by simp [hpos, hneg]), hfull]
  rfl

theorem batch_insert_ok {n : ℕ} {done : Bool} {pos neg : List K} (h : Ready S t pos neg)
    (hpos : pos.Nodup) (hneg : neg.Nodup) (hdisj : List.Disjoint pos neg)
    (hrun : batch_insert S n t pos neg = .ok (done, t')) (hfit : Fits t'.vf) :
    Consistent S t' ∧ t'.PK = pos.toFinset ∧ t'.NK = neg.toFinset := by
  induction n generalizing t done with
  | zero => cases hrun
  | succ n ih =>
    rcases hins : insertPositives S t pos with ⟨_ | _, t₁⟩
    case succ.false =>
      rw [batch_insert_retried n h.n_positive h.n_negative hins] at hrun
      obtain ⟨r, hnext, heq⟩ := of_map_ok hrun
      obtain ⟨-, rfl⟩ := Prod.mk.inj heq
      obtain ⟨vf, PK, rfl, -⟩ := insertPositives_parts hins
      refine ih ?_ hnext
      exact ⟨rfl, rfl, h.TNK, h.FPK, h.n_positive, h.n_negative, _, _, _, rfl⟩
    case succ.true =>
      rw [batch_insert, if_neg (by simp [h.n_positive, h.n_negative]), hins] at hrun
      obtain ⟨vf, PK, ht₁, hs⟩ := insertPositives_parts hins
      have hT₁ : t₁.TNK_table = fun _ => [] := by rw [ht₁, h.TNK]
      have hF₁ : t₁.FPK_table = fun _ => [] := by rw [ht₁, h.FPK]
      have hNK₁ : t₁.NK = ∅ := by rw [ht₁, h.NK]
      have hshape : SameShape t.vf t₁.vf := by rw [ht₁]; exact hs
      have hrec := recordNegatives_vf (S := S) t₁ [] neg
      obtain ⟨othello, hbuild, heq⟩ := of_map_ok hrun
      obtain ⟨-, rfl⟩ := Prod.mk.inj heq
      have hfit' : Fits t₁.vf := hrec ▸ hfit
      obtain ⟨hv, hempty⟩ : Valid S.hash t.vf ∧ contents S.hash t.vf = 0 := by
        obtain ⟨f, m, fp_len, hvf⟩ := h.vf
        have hfit₀ := hfit'.of_shape hshape
        rw [hvf] at hfit₀ ⊢
        exact hfit₀.valid
      obtain ⟨hv₁, hc₁, hPK₁⟩ := insertPositives_ok hv (by rw [hempty, h.PK]; rfl) hpos
        (fun k _ => by simp [h.PK]) hins
      rw [h.PK, Finset.empty_union] at hPK₁
      obtain ⟨TNK, FPKt, NK, hneg₁, hNK, hT, hF⟩ := recordNegatives_spec (S := S) (t := t₁)
        neg [] (p := fun _ => False) (q := fun _ => False)
        (positions_ne hv₁) hneg (hT₁ ▸ tabled_empty) (hF₁ ▸ tabled_empty)
        (fun _ _ => id) fun _ _ => id
      rw [hneg₁] at hbuild ⊢
      dsimp only at hbuild ⊢
      rw [hNK₁, Finset.empty_union] at hNK
      subst hNK
      have hnd : (pos ++ ([] ++ neg.filter (lookup S t₁))).Nodup := by
        refine List.nodup_append.mpr ⟨hpos, hneg.filter _, ?_⟩
        rintro j hj j' hj' rfl
        exact hdisj hj (List.mem_of_mem_filter hj')
      obtain ⟨hinv, m, hm, hone, hzero, hnone⟩ := buildOthello_ok hnd hbuild
      refine ⟨⟨hv₁, hc₁, ?_, hinv, ?_, ?_, ?_⟩, hPK₁, rfl⟩
      · rw [hPK₁, List.disjoint_toFinset_iff_disjoint]
        exact hdisj
      · have hans : m = answers S { t₁ with
            NK := neg.toFinset, TNK_table := TNK, FPK_table := FPKt, othello := othello } := by
          funext k
          show m k = if k ∈ t₁.PK then some 1
            else if k ∈ neg.toFinset ∧ lookup S t₁ k = true then some 0 else none
          simp only [hPK₁, List.mem_toFinset]
          by_cases hP : k ∈ pos
          · rw [if_pos hP, hone k hP]
          by_cases hN : k ∈ neg ∧ lookup S t₁ k = true
          · rw [if_neg hP, if_pos hN]
            exact hzero k (List.mem_filter.mpr hN)
          · rw [if_neg hP, if_neg hN]
            exact hnone k hP fun hc => hN (List.mem_filter.mp hc)
        exact hans ▸ hm
      · refine hT.congr fun k => ?_
        rw [false_or]
        exact and_congr_left' List.mem_toFinset
      · refine hF.congr fun k => ?_
        rw [false_or]
        exact and_congr_left' List.mem_toFinset

omit [DecidableEq K] [Inhabited K] in
theorem init_ready (ht : t.PK = ∅ ∧ t.NK = ∅) {pos neg : List K} (hpos : pos.length < 2 ^ 32)
    (hneg : neg.length < 2 ^ 32) :
    Ready S (DASSTracker.init S t pos.length neg.length) pos neg := by
  refine ⟨ht.1, ht.2, rfl, rfl, ?_, ?_, _, _, _, rfl⟩
  · exact Nat.mod_eq_of_lt hpos
  · exact Nat.mod_eq_of_lt hneg

/-- `pos` and `neg` list the registered keys in some order, and `batch_insert` takes them. -/
structure Enumerates (t : Tracker K E) (pos neg : List K) : Prop where
  nodup_pos : pos.Nodup
  nodup_neg : neg.Nodup
  mem_pos : ∀ k, k ∈ pos ↔ k ∈ t.PK
  mem_neg : ∀ k, k ∈ neg ↔ k ∈ t.NK
  length_pos : pos.length < 2 ^ 32
  length_neg : neg.length < 2 ^ 32

theorem rebuild_ok {n : ℕ} {done : Bool} {pos neg : List K} (he : Enumerates t pos neg)
    (hdisj : Disjoint t.PK t.NK) (hrun : rebuild S n t pos neg = .ok (done, t'))
    (hfit : Fits t'.vf) : Consistent S t' ∧ t'.PK = t.PK ∧ t'.NK = t.NK := by
  have hready := init_ready (S := S) (t := { t with PK := ∅, NK := ∅ }) ⟨rfl, rfl⟩
    he.length_pos he.length_neg
  have hlists : List.Disjoint pos neg := fun k hP hN =>
    Finset.disjoint_left.mp hdisj ((he.mem_pos k).mp hP) ((he.mem_neg k).mp hN)
  obtain ⟨hc, hPK, hNK⟩ :=
    batch_insert_ok hready he.nodup_pos he.nodup_neg hlists hrun hfit
  refine ⟨hc, hPK.trans ?_, hNK.trans ?_⟩
  · ext k
    rw [List.mem_toFinset, he.mem_pos]
  · ext k
    rw [List.mem_toFinset, he.mem_neg]

/-! ### Runs -/

/-- What the server does with the result of an update: the marker `[0xffffffff]` is
answered with a rebuild over the registered keys, in the order the sets list them. -/
inductive Settled (S : TrackerSetup K E) : List ℕ × Tracker K E → Tracker K E → Prop
  | keep {flipped t} : flipped ≠ rebuildMarker → Settled S (flipped, t) t
  | rebuild {t pos neg n done t'} : Enumerates t pos neg →
      rebuild S n t pos neg = .ok (done, t') → Fits t'.vf → Settled S (rebuildMarker, t) t'

/-- The trackers a run can reach, with the value each registered key was given last. -/
inductive Reached (S : TrackerSetup K E) : Tracker K E → (K → Option Bool) → Prop
  | start {t pos neg n done t'} : t.PK = ∅ ∧ t.NK = ∅ → pos.Nodup → neg.Nodup →
      List.Disjoint pos neg → pos.length < 2 ^ 32 → neg.length < 2 ^ 32 →
      batch_insert S n (DASSTracker.init S t pos.length neg.length) pos neg = .ok (done, t') →
      Fits t'.vf →
      Reached S t' fun k => if k ∈ pos then some true else if k ∈ neg then some false else none
  | insert {t reg k b r t'} : Reached S t reg → k ∉ t.PK → k ∉ t.NK →
      DASSTracker.insert S t (k, Bool.toNat b) = .ok r → Settled S r t' →
      Reached S t' (Function.update reg k (some b))
  | setValue {t reg k b r t'} : Reached S t reg → k ∈ t.PK ∨ k ∈ t.NK →
      setValue S t (k, Bool.toNat b) = .ok r → Settled S r t' →
      Reached S t' (Function.update reg k (some b))

structure Registers (t : Tracker K E) (reg : K → Option Bool) : Prop where
  PK : ∀ k, k ∈ t.PK ↔ reg k = some true
  NK : ∀ k, k ∈ t.NK ↔ reg k = some false

omit [DecidableEq K] [Inhabited K] in
theorem Registers.disjoint {reg : K → Option Bool} (h : Registers t reg) : Disjoint t.PK t.NK := by
  refine Finset.disjoint_left.mpr fun k hP hN => ?_
  rw [h.PK] at hP
  rw [h.NK, hP] at hN
  cases hN

omit [Inhabited K] in
theorem Registers.assign {reg : K → Option Bool} (h : Registers t reg) {k : K} {b : Bool}
    (hPK : ∀ q, q ∈ t'.PK ↔ if q = k then b = true else q ∈ t.PK)
    (hNK : ∀ q, q ∈ t'.NK ↔ if q = k then b = false else q ∈ t.NK) :
    Registers t' (Function.update reg k (some b)) := by
  constructor
  · intro q
    rw [hPK, Function.update_apply]
    split
    case isTrue => rw [Option.some_inj]
    case isFalse => exact h.PK q
  · intro q
    rw [hNK, Function.update_apply]
    split
    case isTrue => rw [Option.some_inj]
    case isFalse => exact h.NK q

theorem Settled.ok {flipped : List ℕ} {t₁ : Tracker K E} {reg : K → Option Bool}
    (h : Settled S (flipped, t₁) t') (hreg : Registers t₁ reg)
    (hc : flipped ≠ rebuildMarker → Consistent S t₁) : Consistent S t' ∧ Registers t' reg := by
  cases h with
  | keep hne => exact ⟨hc hne, hreg⟩
  | rebuild he hrun hfit =>
    obtain ⟨hcons, hPK, hNK⟩ := rebuild_ok he hreg.disjoint hrun hfit
    exact ⟨hcons, fun k => by rw [hPK, hreg.PK], fun k => by rw [hNK, hreg.NK]⟩

theorem Reached.consistent {reg : K → Option Bool} (h : Reached S t reg) :
    Consistent S t ∧ Registers t reg := by
  induction h with
  | @start t pos neg n done t' hempty hpos hneg hdisj hlp hln hrun hfit =>
    obtain ⟨hc, hPK, hNK⟩ :=
      batch_insert_ok (init_ready (S := S) hempty hlp hln) hpos hneg hdisj hrun hfit
    refine ⟨hc, fun k => ?_, fun k => ?_⟩
    · rw [hPK, List.mem_toFinset]
      split
      case isTrue hk => exact iff_of_true hk rfl
      case isFalse hk => exact iff_of_false hk (by split <;> simp)
    · rw [hNK, List.mem_toFinset]
      split
      case isTrue hk => exact iff_of_false (fun hn => hdisj hk hn) (by simp)
      case isFalse =>
        split
        case isTrue hk => exact iff_of_true hk rfl
        case isFalse hk => exact iff_of_false hk (by simp)
  | @insert t reg k b r t' _ hP hN hrun hset ih =>
    obtain ⟨hcons, hreg⟩ := ih
    obtain ⟨flipped, t₁⟩ := r
    obtain ⟨hPK, hNK, hc⟩ := hcons.insert_ok hP hN hrun
    refine hset.ok (hreg.assign (fun q => ?_) fun q => ?_) hc
    · rw [hPK]
      by_cases hq : q = k
      · cases b <;> simp [hq, hP]
      · cases b <;> simp [hq]
    · rw [hNK]
      by_cases hq : q = k
      · cases b <;> simp [hq, hN]
      · cases b <;> simp [hq]
  | @setValue t reg k b r t' _ hk hrun hset ih =>
    obtain ⟨hcons, hreg⟩ := ih
    obtain ⟨flipped, t₁⟩ := r
    obtain ⟨hPK, hNK, hc⟩ := hcons.setValue_ok hk hrun
    refine hset.ok (hreg.assign (fun q => ?_) fun q => ?_) hc
    · rw [hPK]
      by_cases hq : q = k
      · cases b <;> simp [hq]
      · cases b <;> simp [hq]
    · rw [hNK]
      by_cases hq : q = k
      · cases b <;> simp [hq]
      · cases b <;> simp [hq]

def smallTracker : TrackerSetup ℕ ℕ :=
  { vBits := 8, one_le := bit_values_fit
    hab := fun s k => BitVec.ofNat 64 (k * 0x9E3779B97F4A7C15 + s.toNat)
    hdHash := fun _ k => BitVec.ofNat 32 k
    rand := fun i => BitVec.ofNat 64 (i * 0x9E3779B97F4A7C15), randHd := fun i => BitVec.ofNat 32 i
    hash := ⟨id, id⟩, engine := ⟨fun n => (n, n + 1), 1⟩
    properAltRange := fun _ _ => 8, ele := fun k => BitVec.ofNat 64 k
    fp_length := fun _ _ => 4, scaledCapacity := id }

def emptyTracker : Tracker ℕ ℕ :=
  { othello := ⟨[], 0, 0, 0, 0, true, 0, 0, [], [], [], [], [], [], [], 0⟩
    vf := ⟨0, 0, 0, 0, 0, [], true, 0, 1, [], ⟨id, id⟩, 0, 0⟩
    PK := ∅, NK := ∅, n_positive_keys := 0, n_negative_keys := 0
    TNK_table := fun _ => [], FPK_table := fun _ => [], fp_len := 0 }

def kept : Except Fault (List ℕ × Tracker ℕ ℕ) → Option (Tracker ℕ ℕ)
  | .ok (flipped, t) => if flipped = rebuildMarker then none else some t
  | .error _ => none

def started : Except Fault (Bool × Tracker ℕ ℕ) → Option (Tracker ℕ ℕ)
  | .ok (_, t) =>
    if t.vf.isSmall = true ∧ 2 ≤ t.vf.n ∧ 4 ≤ t.vf.fp_len ∧ t.vf.fp_len ≤ 16 then some t else none
  | .error _ => none

def smallRun : Option (Tracker ℕ ℕ) := do
  let t ← started (batch_insert smallTracker 1 (DASSTracker.init smallTracker emptyTracker 4 1)
    [1, 2, 3, 4] [5])
  let t ← kept (DASSTracker.insert smallTracker t (6, 1))
  kept (setValue smallTracker t (1, 0))

def smallReg : ℕ → Option Bool :=
  Function.update (Function.update (fun k => if k ∈ [1, 2, 3, 4] then some true
    else if k ∈ [5] then some false else none) 6 (some true)) 1 (some false)

theorem kept_some {r : Except Fault (List ℕ × Tracker ℕ ℕ)} {t : Tracker ℕ ℕ}
    (h : kept r = some t) : ∃ flipped, r = .ok (flipped, t) ∧ flipped ≠ rebuildMarker := by
  cases r with
  | error f => cases h
  | ok r =>
    rw [kept] at h
    split at h
    case isTrue => cases h
    case isFalse hne =>
      obtain rfl := Option.some.inj h
      exact ⟨r.1, rfl, hne⟩

theorem started_some {r : Except Fault (Bool × Tracker ℕ ℕ)} {t : Tracker ℕ ℕ}
    (h : started r = some t) : ∃ done, r = .ok (done, t) ∧ Fits t.vf := by
  cases r with
  | error f => cases h
  | ok r =>
    rw [started] at h
    split at h
    case isTrue hfit =>
      obtain rfl := Option.some.inj h
      exact ⟨r.1, rfl, hfit.1, hfit.2.1, hfit.2.2⟩
    case isFalse => cases h

theorem smallRun_isSome : smallRun.isSome = true := by decide +kernel

theorem smallRun_steps : ∃ t₀ t₁ t₂ flipped₁ flipped₂, Reached smallTracker t₀ (fun k =>
      if k ∈ [1, 2, 3, 4] then some true else if k ∈ [5] then some false else none) ∧
    (6 ∉ t₀.PK ∧ 6 ∉ t₀.NK) ∧
    DASSTracker.insert smallTracker t₀ (6, 1) = .ok (flipped₁, t₁) ∧ flipped₁ ≠ rebuildMarker ∧
    setValue smallTracker t₁ (1, 0) = .ok (flipped₂, t₂) ∧ flipped₂ ≠ rebuildMarker := by
  obtain ⟨t₂, hrun⟩ := Option.isSome_iff_exists.mp smallRun_isSome
  rw [smallRun] at hrun
  obtain ⟨t₀, h₀, hrun⟩ := Option.bind_eq_some_iff.mp hrun
  obtain ⟨t₁, h₁, h₂⟩ := Option.bind_eq_some_iff.mp hrun
  obtain ⟨done, hbatch, hfit⟩ := started_some h₀
  obtain ⟨f₁, hins, hne₁⟩ := kept_some h₁
  obtain ⟨f₂, hset, hne₂⟩ := kept_some h₂
  have hstart : Reached smallTracker t₀ fun k =>
      if k ∈ [1, 2, 3, 4] then some true else if k ∈ [5] then some false else none :=
    .start (t := emptyTracker) ⟨rfl, rfl⟩ (by decide) (by decide) (by simp) (by decide)
      (by decide) hbatch hfit
  obtain ⟨-, hreg⟩ := hstart.consistent
  have hP : 6 ∉ t₀.PK := fun hc => by simpa using (hreg.PK 6).mp hc
  have hN : 6 ∉ t₀.NK := fun hc => by simpa using (hreg.NK 6).mp hc
  exact ⟨t₀, t₁, t₂, f₁, f₂, hstart, ⟨hP, hN⟩, hins, hne₁, hset, hne₂⟩

theorem smallRun_reached : ∃ t, Reached smallTracker t smallReg := by
  obtain ⟨t₀, t₁, t₂, f₁, f₂, hstart, ⟨hP, hN⟩, hins, hne₁, hset, hne₂⟩ := smallRun_steps
  have hmid := Reached.insert (b := true) hstart hP hN hins (.keep hne₁)
  obtain ⟨-, hreg₁⟩ := hmid.consistent
  have h1 : 1 ∈ t₁.PK := (hreg₁.PK 1).mpr (by simp)
  exact ⟨t₂, .setValue (b := false) hmid (Or.inl h1) hset (.keep hne₂)⟩

/-- A start with one false positive: 18 has the filter element of 1, and 5 one of its own. -/
def startRun : Option (Tracker ℕ ℕ) :=
  started (batch_insert smallTracker 1 (DASSTracker.init smallTracker emptyTracker 4 2) [1, 2, 3, 4]
    [5, 18])

def startReg (k : ℕ) : Option Bool :=
  if k ∈ [1, 2, 3, 4] then some true else if k ∈ [5, 18] then some false else none

theorem startRun_reached {t : Tracker ℕ ℕ} (h : startRun = some t) :
    Reached smallTracker t startReg := by
  obtain ⟨done, hbatch, hfit⟩ := started_some h
  exact .start (t := emptyTracker) ⟨rfl, rfl⟩ (by decide) (by decide) (by simp) (by decide)
    (by decide) hbatch hfit

/-- The tracker knows the keys it was told and answers them, and every further update of a
run returns unless `insert_on_demand` runs out of room for keys. -/
structure AnswersAll (S : TrackerSetup K E) (t : Tracker K E) (reg : K → Option Bool) :
    Prop where
  registers : Registers t reg
  positive : ∀ k ∈ t.PK, query S t k = 1
  negative : ∀ k ∈ t.NK, query S t k = 0
  insert : ∀ k b, k ∉ t.PK → k ∉ t.NK → (∃ r, DASSTracker.insert S t (k, Bool.toNat b) = .ok r) ∨
    DASSTracker.insert S t (k, Bool.toNat b) = .error .outOfBounds
  setValue : ∀ k b, k ∈ t.PK ∨ k ∈ t.NK → (∃ r, setValue S t (k, Bool.toNat b) = .ok r) ∨
    setValue S t (k, Bool.toNat b) = .error .outOfBounds

/-- In every state of every run all registered keys are answered with their last value. -/
theorem reached_answers_all {reg : K → Option Bool} (h : Reached S t reg) :
    AnswersAll S t reg := by
  obtain ⟨hc, hreg⟩ := h.consistent
  exact
    { registers := hreg
      positive := fun k hk => hc.query_positive hk
      negative := fun k hk => hc.query_negative hk
      insert := fun k b hP hN => hc.insert_faults hP hN b
      setValue := fun k b hk => hc.setValue_faults hk b }

theorem reached_answers_all_small : ∃ t, Reached smallTracker t smallReg ∧
    AnswersAll smallTracker t smallReg := by
  obtain ⟨t, h⟩ := smallRun_reached
  exact ⟨t, h, reached_answers_all h⟩

/-- `x` is once at each of its two positions of `table` and nowhere else in it, and nowhere
in `other`. -/
structure ListedIn (S : TrackerSetup K E) (t : Tracker K E) (table other : ℕ → List K) (x : K) :
    Prop where
  first : (table (position_pair S t x).1).count x = 1
  second : (table (position_pair S t x).2).count x = 1
  elsewhere : ∀ pos, pos ≠ (position_pair S t x).1 → pos ≠ (position_pair S t x).2 →
    x ∉ table pos
  other : ∀ pos, x ∉ other pos

/-- The tables split the negative keys by what the filter says, and the Othello has the keys
it has to have; so its assertion that a key is new never fires. -/
structure TablesExact (S : TrackerSetup K E) (t : Tracker K E) : Prop where
  true_negative : ∀ x ∈ t.NK, lookup S t x = false → ListedIn S t t.TNK_table t.FPK_table x
  false_positive : ∀ x ∈ t.NK, lookup S t x = true → ListedIn S t t.FPK_table t.TNK_table x
  only_negative : ∀ x pos, x ∈ t.TNK_table pos ∨ x ∈ t.FPK_table pos → x ∈ t.NK
  members : ∀ x, isMember S.othello t.othello x = true ↔
    x ∈ t.PK ∨ (x ∈ t.NK ∧ lookup S t x = true)
  insert : ∀ k b, k ∉ t.PK → k ∉ t.NK →
    DASSTracker.insert S t (k, Bool.toNat b) ≠ .error .assertion
  setValue : ∀ k b, k ∈ t.PK ∨ k ∈ t.NK → setValue S t (k, Bool.toNat b) ≠ .error .assertion

omit [Inhabited K] in
theorem listedIn_of_tabled {table other : ℕ → List K} {p q : K → Prop} {x : K}
    (h : Tabled table (position_pair S t) p) (h' : Tabled other (position_pair S t) q) (hp : p x)
    (hq : ¬ q x) : ListedIn S t table other x where
  first := List.count_eq_one_of_mem (h _).1 (((h _).2 x).mpr ⟨hp, Or.inl rfl⟩)
  second := List.count_eq_one_of_mem (h _).1 (((h _).2 x).mpr ⟨hp, Or.inr rfl⟩)
  elsewhere pos h1 h2 hx := not_or.mpr ⟨h1, h2⟩ (((h pos).2 x).mp hx).2
  other pos hx := hq (((h' pos).2 x).mp hx).1

theorem reached_tables_exact {reg : K → Option Bool} (h : Reached S t reg) : TablesExact S t := by
  obtain ⟨hc, -⟩ := h.consistent
  refine
    { true_negative := fun x hx hl => listedIn_of_tabled hc.tnk hc.fpk ⟨hx, hl⟩ (by simp [hl])
      false_positive := fun x hx hl => listedIn_of_tabled hc.fpk hc.tnk ⟨hx, hl⟩ (by simp [hl])
      only_negative := fun x pos hx => ?_
      members := fun x => ?_
      insert := fun k b hP hN => ?_
      setValue := fun k b hk => ?_ }
  · rcases hx with hx | hx
    · exact (((hc.tnk pos).2 x).mp hx).1.1
    · exact (((hc.fpk pos).2 x).mp hx).1.1
  · rw [hc.map.member_iff hc.othello, answers]
    by_cases hP : x ∈ t.PK
    · rw [if_pos hP]
      exact iff_of_true rfl (Or.inl hP)
    rw [if_neg hP, or_iff_right hP]
    by_cases hN : x ∈ t.NK ∧ lookup S t x = true
    · rw [if_pos hN]
      exact iff_of_true rfl hN
    · rw [if_neg hN]
      exact iff_of_false (by simp) hN
  · rcases hc.insert_faults hP hN b with ⟨r, hr⟩ | hr <;> rw [hr] <;> simp
  · rcases hc.setValue_faults hk b with ⟨r, hr⟩ | hr <;> rw [hr] <;> simp

theorem reached_tables_exact_small : ∃ t, Reached smallTracker t smallReg ∧
    TablesExact smallTracker t := by
  obtain ⟨t, h⟩ := smallRun_reached
  exact ⟨t, h, reached_tables_exact h⟩

end TrackerRun
