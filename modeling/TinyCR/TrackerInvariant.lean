import TinyCR.DASSTracker

/-! # The invariant of `DASS_Tracker`

The filter holds the positive keys, the tables split the negative keys by what the filter
says of them, and the Othello holds the positive keys and the false positive ones. -/
namespace TrackerInvariant

open PackedCells ControlPlaneOthello DataPlaneOthello OthelloInvariant OthelloRun VacuumFilter
  DASSTracker

variable {K E : Type} {S : TrackerSetup K E}

theorem plain (S : TrackerSetup K E) : Plain S.othello := ⟨rfl, rfl, rfl⟩

section Tables

variable {table : ℕ → List K} {pair : K → ℕ × ℕ} {p q : K → Prop} {k : K} {pos : ℕ}

/-- The keys with `p`, each once at each of its two positions. -/
def Tabled (table : ℕ → List K) (pair : K → ℕ × ℕ) (p : K → Prop) : Prop :=
  ∀ pos, (table pos).Nodup ∧
    ∀ k, k ∈ table pos ↔ p k ∧ (pos = (pair k).1 ∨ pos = (pair k).2)

theorem Tabled.congr (h : Tabled table pair p) (hpq : ∀ k, q k ↔ p k) : Tabled table pair q :=
  fun pos => ⟨(h pos).1, fun k => ((h pos).2 k).trans (and_congr_left' (hpq k).symm)⟩

theorem tabled_empty : Tabled (fun _ => ([] : List K)) pair fun _ => False :=
  fun _ => ⟨List.nodup_nil, fun k => by simp⟩

theorem mem_record (hne : (pair k).1 ≠ (pair k).2) :
    record table (pair k) k pos =
      if pos = (pair k).1 ∨ pos = (pair k).2 then table pos ++ [k] else table pos := by
  rw [record, pushBack, pushBack]
  by_cases h2 : pos = (pair k).2
  · rw [h2, Function.update_self, Function.update_of_ne (Ne.symm hne), if_pos (Or.inr rfl)]
  · rw [Function.update_of_ne h2]
    by_cases h1 : pos = (pair k).1
    · rw [h1, Function.update_self, if_pos (Or.inl rfl)]
    · rw [Function.update_of_ne h1, if_neg (not_or.mpr ⟨h1, h2⟩)]

theorem Tabled.record (h : Tabled table pair p) (hne : (pair k).1 ≠ (pair k).2) (hk : ¬ p k) :
    Tabled (record table (pair k) k) pair fun j => p j ∨ j = k := by
  intro pos
  rw [mem_record hne]
  by_cases hpos : pos = (pair k).1 ∨ pos = (pair k).2
  · rw [if_pos hpos]
    refine ⟨?_, fun j => ?_⟩
    · refine List.nodup_append.mpr ⟨(h pos).1, List.nodup_singleton k, ?_⟩
      rintro j hj j' hj' rfl
      rw [List.mem_singleton] at hj'
      exact hk (hj' ▸ (((h pos).2 j).mp hj).1)
    · rw [List.mem_append, List.mem_singleton, (h pos).2, or_and_right]
      refine or_congr_right ⟨fun hj => ⟨hj, hj ▸ hpos⟩, And.left⟩
  · rw [if_neg hpos]
    refine ⟨(h pos).1, fun j => ?_⟩
    rw [(h pos).2, or_and_right]
    refine (or_iff_left ?_).symm
    rintro ⟨rfl, hj⟩
    exact hpos hj

theorem Tabled.unrecord [DecidableEq K] (h : Tabled table pair p) :
    Tabled (unrecord table (pair k) k) pair fun j => p j ∧ j ≠ k := by
  have hone : ∀ (table : ℕ → List K) a pos, removeAt table a k pos =
      if pos = a then (table pos).filter (· ≠ k) else table pos := by
    intro table a pos
    rw [removeAt, Function.update_apply]
    split
    case isTrue heq => rw [heq]
    case isFalse => rfl
  intro pos
  rw [DASSTracker.unrecord, hone, hone]
  have hmem := (h pos).2
  have hnd := (h pos).1
  have hkeep : ∀ j, j ∈ (table pos).filter (· ≠ k) ↔
      (p j ∧ j ≠ k) ∧ (pos = (pair j).1 ∨ pos = (pair j).2) := by
    intro j
    rw [List.mem_filter, hmem, decide_eq_true_eq]
    tauto
  by_cases h2 : pos = (pair k).2
  · rw [if_pos h2]
    by_cases h1 : pos = (pair k).1
    · rw [if_pos h1, List.filter_filter]
      simp only [Bool.and_self]
      exact ⟨hnd.filter _, hkeep⟩
    · rw [if_neg h1]
      exact ⟨hnd.filter _, hkeep⟩
  · rw [if_neg h2]
    by_cases h1 : pos = (pair k).1
    · rw [if_pos h1]
      exact ⟨hnd.filter _, hkeep⟩
    · rw [if_neg h1]
      refine ⟨hnd, fun j => ?_⟩
      rw [hmem]
      refine ⟨fun hj => ⟨⟨hj.1, ?_⟩, hj.2⟩, fun hj => ⟨hj.1.1, hj.2⟩⟩
      rintro rfl
      exact not_or.mpr ⟨h1, h2⟩ hj.2

theorem update_twice {a b : ℕ} (f : ℕ → List K) (x y : List K) (pos : ℕ) :
    Function.update (Function.update f a x) b y pos =
      if pos = b then y else if pos = a then x else f pos := by
  rw [Function.update_apply, Function.update_apply]

theorem Tabled.shrink (h : Tabled table pair p) {a b : ℕ} {f : K → Bool}
    (hat : ∀ q pos, p q → f q = false → (pos = (pair q).1 ∨ pos = (pair q).2) →
      pos = a ∨ pos = b) :
    Tabled (Function.update (Function.update table a ((table a).filter f)) b
      ((table b).filter f)) pair fun q => p q ∧ f q = true := by
  have hfilter : ∀ pos q, q ∈ (table pos).filter f ↔
      (p q ∧ f q = true) ∧ (pos = (pair q).1 ∨ pos = (pair q).2) := by
    intro pos q
    rw [List.mem_filter, (h pos).2]
    exact and_right_comm
  intro pos
  rw [update_twice]
  by_cases hpb : pos = b
  · rw [if_pos hpb, ← hpb]
    exact ⟨(h pos).1.filter _, hfilter pos⟩
  by_cases hpa : pos = a
  · rw [if_neg hpb, if_pos hpa, ← hpa]
    exact ⟨(h pos).1.filter _, hfilter pos⟩
  rw [if_neg hpb, if_neg hpa]
  refine ⟨(h pos).1, fun q => ?_⟩
  rw [← hfilter, List.mem_filter]
  refine (and_iff_left_of_imp fun hq => ?_).symm
  obtain ⟨hp, hpos⟩ := ((h pos).2 q).mp hq
  by_contra hf
  exact not_or.mpr ⟨hpa, hpb⟩ (hat q pos hp (Bool.not_eq_true _ ▸ hf) hpos)

theorem Tabled.grow (h : Tabled table pair p) {source : ℕ → List K}
    (hs : Tabled source pair q) (hpq : ∀ k, p k → ¬ q k) {a b : ℕ} {f : K → Bool}
    (hat : ∀ k pos, q k → f k = true → (pos = (pair k).1 ∨ pos = (pair k).2) →
      pos = a ∨ pos = b) :
    Tabled (Function.update (Function.update table a (table a ++ (source a).filter f)) b
      (table b ++ (source b).filter f)) pair fun k => p k ∨ (q k ∧ f k = true) := by
  have happ : ∀ pos, (table pos ++ (source pos).filter f).Nodup ∧
      ∀ k, k ∈ table pos ++ (source pos).filter f ↔
        (p k ∨ (q k ∧ f k = true)) ∧ (pos = (pair k).1 ∨ pos = (pair k).2) := by
    intro pos
    constructor
    · refine List.nodup_append.mpr ⟨(h pos).1, (hs pos).1.filter _, ?_⟩
      rintro k hk k' hk' rfl
      exact hpq k (((h pos).2 k).mp hk).1 (((hs pos).2 k).mp (List.mem_of_mem_filter hk')).1
    · intro k
      rw [List.mem_append, (h pos).2, List.mem_filter, (hs pos).2, or_and_right, and_right_comm]
  intro pos
  rw [update_twice]
  by_cases hpb : pos = b
  · rw [if_pos hpb, ← hpb]
    exact happ pos
  by_cases hpa : pos = a
  · rw [if_neg hpb, if_pos hpa, ← hpa]
    exact happ pos
  rw [if_neg hpb, if_neg hpa]
  refine ⟨(h pos).1, fun k => ?_⟩
  rw [← (happ pos).2, List.mem_append]
  refine (or_iff_left_of_imp fun hk => ?_).symm
  rw [List.mem_filter, (hs pos).2] at hk
  exact absurd (hat k pos hk.1.1 hk.2 hk.1.2) (not_or.mpr ⟨hpa, hpb⟩)

end Tables

section Positions

variable {t t' : Tracker K E} {k : K} {pos : ℕ}

/-- The parts of the tracker that no loop over a table changes. -/
structure SameKeys (t t' : Tracker K E) : Prop where
  vf : t'.vf = t.vf
  PK : t'.PK = t.PK
  NK : t'.NK = t.NK
  n_positive_keys : t'.n_positive_keys = t.n_positive_keys
  n_negative_keys : t'.n_negative_keys = t.n_negative_keys

theorem SameKeys.trans {t'' : Tracker K E} (h : SameKeys t t') (h' : SameKeys t' t'') :
    SameKeys t t'' :=
  ⟨h'.vf.trans h.vf, h'.PK.trans h.PK, h'.NK.trans h.NK,
    h'.n_positive_keys.trans h.n_positive_keys, h'.n_negative_keys.trans h.n_negative_keys⟩

theorem SameKeys.lookup (h : SameKeys t t') : lookup S t' = lookup S t := by
  funext j
  rw [DASSTracker.lookup, DASSTracker.lookup, h.vf]

theorem SameKeys.position_pair (h : SameKeys t t') : position_pair S t' = position_pair S t := by
  funext j
  rw [DASSTracker.position_pair, DASSTracker.position_pair, h.vf]

def elem (S : TrackerSetup K E) (t : Tracker K E) (k : K) : Sym2 ℕ × ℕ :=
  element S.hash t.vf (S.ele k)

theorem SameKeys.elem (h : SameKeys t t') : elem S t' = elem S t := by
  funext j
  rw [TrackerInvariant.elem, TrackerInvariant.elem, h.vf]

theorem at_position_iff :
    pos = (position_pair S t k).1 ∨ pos = (position_pair S t k).2 ↔ pos ∈ (elem S t k).1 :=
  Sym2.mem_iff.symm

theorem positions_ne (hv : Valid S.hash t.vf) (k : K) :
    (position_pair S t k).1 ≠ (position_pair S t k).2 :=
  (alternate_spec hv (positionHash_lt hv _) _).2.1.symm

theorem lookup_iff (hv : Valid S.hash t.vf) (k : K) :
    lookup S t k = true ↔ elem S t k ∈ contents S.hash t.vf := lookup_spec hv _

end Positions

variable [DecidableEq K]

/-- What the Othello answers: 1 for positive keys, 0 for false positive ones. -/
def answers (S : TrackerSetup K E) (t : Tracker K E) (k : K) : Option ℕ :=
  if k ∈ t.PK then some 1 else if k ∈ t.NK ∧ lookup S t k = true then some 0 else none

theorem SameKeys.answers {t t' : Tracker K E} (h : SameKeys t t') : answers S t' = answers S t := by
  funext j
  rw [TrackerInvariant.answers, TrackerInvariant.answers, h.PK, h.NK, h.lookup]

theorem keeps_all {α β : Type} {p : α → Prop} (loop : List α → List α → β)
    (hstep : ∀ kept j rest, p j → loop kept (j :: rest) = loop (kept ++ [j]) rest)
    (kept rest : List α) (h : ∀ j ∈ rest, p j) : loop kept rest = loop (kept ++ rest) [] := by
  induction rest generalizing kept with
  | nil => rw [List.append_nil]
  | cons j rest ih =>
    obtain ⟨hj, hrest⟩ := List.forall_mem_cons.mp h
    rw [hstep kept j rest hj, ih (kept ++ [j]) hrest, List.append_assoc]
    rfl

/-- What `promote` adds to the map of the Othello. -/
def promoted (m : K → Option ℕ) (l : List K) (k : K) : Option ℕ :=
  if m k = none ∧ k ∈ l then some 0 else m k

section Maps

variable {m : K → Option ℕ}

theorem promoted_nil (m : K → Option ℕ) : promoted m [] = m := by
  funext k
  simp [promoted]

theorem promoted_member {k : K} (hk : m k ≠ none) (l : List K) :
    promoted m (k :: l) = promoted m l := by
  funext j
  simp only [promoted, List.mem_cons]
  by_cases hj : j = k
  · rw [hj, if_neg fun hc => hk hc.1, if_neg fun hc => hk hc.1]
  · simp only [or_iff_right hj]

theorem promoted_new {k : K} (hk : m k = none) (l : List K) :
    promoted m (k :: l) = promoted (Function.update m k (some 0)) l := by
  funext j
  simp only [promoted, List.mem_cons]
  by_cases hj : j = k
  · rw [hj, Function.update_self, if_pos ⟨hk, Or.inl rfl⟩, if_neg (by simp)]
  · simp only [or_iff_right hj, Function.update_of_ne hj]

theorem promoted_some {l : List K} {q : K} {v : ℕ} (hq : m q = some v) :
    promoted m l q = some v := by
  rw [promoted, if_neg (by simp [hq]), hq]

theorem promoted_mem {l : List K} {q : K} (hq : q ∈ l) (hm : m q = none ∨ m q = some 0) :
    promoted m l q = some 0 := by
  rcases hm with hm | hm
  · exact if_pos ⟨hm, hq⟩
  · exact promoted_some hm

theorem promoted_none {l : List K} {q : K} (hm : m q = none) :
    promoted m l q = none ∨ promoted m l q = some 0 := by
  by_cases hq : q ∈ l
  · exact Or.inr (promoted_mem hq (Or.inl hm))
  · exact Or.inl ((if_neg fun hc => hq hc.2).trans hm)

theorem promoted_not_mem {l : List K} {q : K} (hq : q ∉ l) : promoted m l q = m q :=
  if_neg fun hc => hq hc.2

def demoted (m : K → Option ℕ) (l : List K) (k : K) : Option ℕ := if k ∈ l then none else m k

theorem demoted_nil (m : K → Option ℕ) : demoted m [] = m := by
  funext k
  simp [demoted]

theorem demoted_cons (m : K → Option ℕ) (k : K) (l : List K) :
    demoted m (k :: l) = demoted (Function.update m k none) l := by
  funext j
  simp only [demoted, List.mem_cons]
  by_cases hj : j = k
  · simp [hj]
  · simp only [or_iff_right hj, Function.update_of_ne hj]

end Maps

variable [Inhabited K]

section Loops

variable {t t' : Tracker K E} {pos : ℕ} {flipped flipped' : List ℕ} {kept rest : List K}

structure Promoted (S : TrackerSetup K E) (t : Tracker K E) (pos : ℕ) (kept rest : List K)
    (t' : Tracker K E) : Prop where
  othello : Invariant S.othello t'.othello
  TNK : t'.TNK_table = Function.update t.TNK_table pos (kept ++ rest.filter fun k => !lookup S t k)
  FPK : t'.FPK_table = Function.update t.FPK_table pos (t.FPK_table pos ++ rest.filter (lookup S t))
  map : ∀ m, Represents t.othello m →
    Represents t'.othello (promoted m (rest.filter (lookup S t)))

theorem promoteLoop_ok (check : Bool) {done : Bool} (h : Invariant S.othello t.othello)
    (hrun : promoteLoop S check t pos flipped kept rest = .ok (done, t', flipped')) :
    Logged S.othello t.othello flipped t'.othello flipped' ∧ SameKeys t t' ∧
      (done = true → Promoted S t pos kept rest t') := by
  induction rest generalizing t flipped kept with
  | nil =>
    rw [promoteLoop] at hrun
    obtain ⟨rfl, heq⟩ := Prod.mk.inj (Except.ok.inj hrun)
    obtain ⟨rfl, rfl⟩ := Prod.mk.inj heq
    refine ⟨Logged.refl _ _ _, ⟨rfl, rfl, rfl, rfl, rfl⟩, fun _ => ⟨h, ?_, ?_, fun m hm => ?_⟩⟩
    · rw [List.filter_nil, List.append_nil]
    · rw [List.filter_nil, List.append_nil, Function.update_eq_self]
    · rw [List.filter_nil, promoted_nil]
      exact hm
  | cons k rest ih =>
    rw [promoteLoop] at hrun
    cases hlook : lookup S t k with
    | false =>
      simp only [hlook, Bool.false_eq_true, if_false] at hrun
      obtain ⟨hlog, hsame, hprom⟩ := ih h hrun
      refine ⟨hlog, hsame, fun hd => ?_⟩
      obtain ⟨hinv, hT, hF, hmap⟩ := hprom hd
      refine ⟨hinv, ?_, ?_, ?_⟩
      · simpa [hlook] using hT
      · simpa [hlook] using hF
      · simpa [hlook] using hmap
    | true =>
      simp only [hlook, if_true] at hrun
      -- the tables after the rest of the loop, which starts with `k` pushed
      have htables : ∀ {t₁ : Tracker K E}, Promoted S t₁ pos kept rest t' → t₁.vf = t.vf →
          t₁.TNK_table = t.TNK_table → t₁.FPK_table = pushBack t.FPK_table pos k →
          (∀ m, Represents t.othello m → Represents t'.othello
            (promoted m (k :: rest.filter (lookup S t)))) →
          Promoted S t pos kept (k :: rest) t' := by
        intro t₁ hp hvf hT₁ hF₁ hmap
        have hl : lookup S t₁ = lookup S t := by
          funext j
          rw [DASSTracker.lookup, DASSTracker.lookup, hvf]
        refine ⟨hp.othello, ?_, ?_, ?_⟩
        · rw [hp.TNK, hT₁, hl]
          simp [hlook]
        · rw [hp.FPK, hF₁, hl, pushBack, Function.update_idem, Function.update_self]
          simp [hlook]
        · rw [List.filter_cons_of_pos hlook]
          exact hmap
      split at hrun
      case isTrue hskip =>
        rw [Bool.and_eq_true] at hskip
        obtain ⟨hlog, hsame, hprom⟩ := ih (t := { t with
          FPK_table := pushBack t.FPK_table pos k }) h hrun
        refine ⟨hlog, ⟨hsame.vf, hsame.PK, hsame.NK, hsame.n_positive_keys,
          hsame.n_negative_keys⟩, fun hd => htables (hprom hd) rfl rfl rfl fun m hm => ?_⟩
        have hmem := (hm.member_iff h k).mp hskip.2
        rw [promoted_member (by rw [← Option.isSome_iff_ne_none]; exact hmem)]
        exact (hprom hd).map m hm
      case isFalse =>
        split at hrun
        case h_1 => cases hrun
        case h_2 othello flipped₁ hins =>
          obtain ⟨rfl, heq⟩ := Prod.mk.inj (Except.ok.inj hrun)
          obtain ⟨rfl, rfl⟩ := Prod.mk.inj heq
          exact ⟨(insert_on_demand_ok (plain S) h hins).1, ⟨rfl, rfl, rfl, rfl, rfl⟩, by simp⟩
        case h_3 othello flipped₁ hins =>
          obtain ⟨hlog, hdone⟩ := insert_on_demand_ok (plain S) h hins
          obtain ⟨hinv, hm₁⟩ := hdone rfl
          obtain ⟨hlog', hsame, hprom⟩ := ih (t := { t with
            FPK_table := pushBack t.FPK_table pos k, othello := othello }) hinv hrun
          refine ⟨hlog.trans hlog', ⟨hsame.vf, hsame.PK, hsame.NK, hsame.n_positive_keys,
            hsame.n_negative_keys⟩, fun hd => htables (hprom hd) rfl rfl rfl fun m hm => ?_⟩
          obtain ⟨hnone, hrep⟩ := hm₁ m hm
          rw [promoted_new hnone]
          exact (hprom hd).map _ hrep

theorem promoteLoop_faults (check : Bool) (pos : ℕ) (flipped : List ℕ) (kept rest : List K)
    (h : Invariant S.othello t.othello)
    {m : K → Option ℕ} (hm : Represents t.othello m)
    (hnew : check = true ∨ (rest.Nodup ∧ ∀ k ∈ rest, lookup S t k = true → m k = none)) :
    (∃ r, promoteLoop S check t pos flipped kept rest = .ok r) ∨
      promoteLoop S check t pos flipped kept rest = .error .outOfBounds := by
  induction rest generalizing t flipped kept m with
  | nil => exact Or.inl ⟨_, rfl⟩
  | cons k rest ih =>
    have hrest : check = true ∨ (rest.Nodup ∧ ∀ j ∈ rest, lookup S t j = true → m j = none) :=
      hnew.imp_right fun hn => ⟨(List.nodup_cons.mp hn.1).2, fun j hj =>
        hn.2 j (List.mem_cons_of_mem _ hj)⟩
    rw [promoteLoop]
    cases hlook : lookup S t k with
    | false =>
      simp only [Bool.false_eq_true, if_false]
      exact ih _ _ h hm hrest
    | true =>
      simp only [if_true]
      split
      case isTrue =>
        exact ih (t := { t with FPK_table := pushBack t.FPK_table pos k }) _ _ h hm hrest
      case isFalse hmem =>
        have hfresh : isMember S.othello t.othello k = false := by
          rcases hnew with rfl | ⟨-, hnone⟩
          · rw [Bool.true_and, Bool.not_eq_true] at hmem
            exact hmem
          · exact (hm.not_member_iff h k).mpr (hnone k (by simp) hlook)
        rcases insert_on_demand_faults (plain S) h (k, 0) hfresh flipped with
          ⟨⟨_ | _, othello, flipped₁⟩, hr⟩ | hr
        · exact Or.inl ⟨_, by rw [hr]⟩
        · obtain ⟨hinv, hrep⟩ := (insert_on_demand_ok (plain S) h hr).2 rfl
          simp only [hr]
          refine ih (t := { t with FPK_table := pushBack t.FPK_table pos k, othello := othello })
            _ _ hinv (hrep m hm).2 ?_
          rcases hnew with hc | ⟨hnd, hnone⟩
          · exact Or.inl hc
          · refine Or.inr ⟨(List.nodup_cons.mp hnd).2, fun j hj hlj => ?_⟩
            rw [Function.update_of_ne]
            · exact hnone j (List.mem_cons_of_mem _ hj) hlj
            · rintro rfl
              exact (List.nodup_cons.mp hnd).1 hj
        · exact Or.inr (by rw [hr])

structure Demoted (S : TrackerSetup K E) (t : Tracker K E) (pos : ℕ) (kept rest : List K)
    (t' : Tracker K E) : Prop where
  othello : Invariant S.othello t'.othello
  FPK : t'.FPK_table = Function.update t.FPK_table pos (kept ++ rest.filter (lookup S t))
  TNK : t'.TNK_table =
    Function.update t.TNK_table pos (t.TNK_table pos ++ rest.filter fun k => !lookup S t k)
  map : ∀ m, Represents t.othello m →
    Represents t'.othello (demoted m (rest.filter fun k => !lookup S t k))

theorem demoteLoop_spec (pos : ℕ) (flipped : List ℕ) (kept rest : List K)
    (h : Invariant S.othello t.othello) :
    ∃ t' flipped', demoteLoop S t pos flipped kept rest = .ok (t', flipped') ∧
      Logged S.othello t.othello flipped t'.othello flipped' ∧ SameKeys t t' ∧
      Demoted S t pos kept rest t' := by
  induction rest generalizing t flipped kept with
  | nil =>
    refine ⟨_, flipped, rfl, Logged.refl _ _ _, ⟨rfl, rfl, rfl, rfl, rfl⟩, h, ?_, ?_,
      fun m hm => ?_⟩
    · rw [List.filter_nil, List.append_nil]
    · rw [List.filter_nil, List.append_nil, Function.update_eq_self]
    · rw [List.filter_nil, demoted_nil]
      exact hm
  | cons k rest ih =>
    cases hlook : lookup S t k with
    | true =>
      obtain ⟨t', flipped', hrun, hlog, hsame, hdem⟩ :=
        ih flipped (kept ++ [k]) h
      refine ⟨t', flipped', ?_, hlog, hsame, hdem.othello, ?_, ?_, ?_⟩
      · rw [demoteLoop, if_pos hlook]
        exact hrun
      · simpa [hlook] using hdem.FPK
      · simpa [hlook] using hdem.TNK
      · simpa [hlook] using hdem.map
    | false =>
      have hfilter : (k :: rest).filter (fun k => !lookup S t k) =
          k :: rest.filter fun k => !lookup S t k := List.filter_cons_of_pos (by simp [hlook])
      have htables : ∀ {t₁ t' : Tracker K E}, Demoted S t₁ pos kept rest t' → t₁.vf = t.vf →
          t₁.FPK_table = t.FPK_table → t₁.TNK_table = pushBack t.TNK_table pos k →
          (∀ m, Represents t.othello m → Represents t'.othello
            (demoted m (k :: rest.filter fun k => !lookup S t k))) →
          Demoted S t pos kept (k :: rest) t' := by
        intro t₁ t' hd hvf hF₁ hT₁ hmap
        have hl : lookup S t₁ = lookup S t := by
          funext j
          rw [DASSTracker.lookup, DASSTracker.lookup, hvf]
        refine ⟨hd.othello, ?_, ?_, ?_⟩
        · rw [hd.FPK, hF₁, hl, List.filter_cons_of_neg (by simp [hlook])]
        · rw [hd.TNK, hT₁, hl, pushBack, Function.update_idem, Function.update_self, hfilter,
            List.append_assoc, List.singleton_append]
        · rw [hfilter]
          exact hmap
      cases hmem : isMember S.othello t.othello k with
      | true =>
        obtain ⟨othello, flips, -, herase, -⟩ :=
          (represents_entries h).erase (plain S) h k flipped
        obtain ⟨hlog₁, hinv₁, hrep₁⟩ := erase_on_demand_ok (plain S) h herase
        obtain ⟨t', flipped', hrun, hlog, hsame, hdem⟩ := ih (t := { t with
          TNK_table := pushBack t.TNK_table pos k, othello := othello })
          (flipped ++ flips) kept hinv₁
        refine ⟨t', flipped', ?_, hlog₁.trans hlog, ⟨hsame.vf, hsame.PK, hsame.NK,
          hsame.n_positive_keys, hsame.n_negative_keys⟩, htables hdem rfl rfl rfl fun m hm => ?_⟩
        · simp only [demoteLoop, hlook, Bool.false_eq_true, if_false, hmem, if_true, herase]
          exact hrun
        · rw [demoted_cons]
          exact hdem.map _ (hrep₁ m hm)
      | false =>
        obtain ⟨t', flipped', hrun, hlog, hsame, hdem⟩ := ih (t := { t with
          TNK_table := pushBack t.TNK_table pos k }) flipped kept h
        refine ⟨t', flipped', ?_, hlog, ⟨hsame.vf, hsame.PK, hsame.NK, hsame.n_positive_keys,
          hsame.n_negative_keys⟩, htables hdem rfl rfl rfl fun m hm => ?_⟩
        · simp only [demoteLoop, hlook, Bool.false_eq_true, if_false, hmem]
          exact hrun
        · rw [demoted_cons, ← (hm.not_member_iff h k).mp hmem, Function.update_eq_self]
          exact hdem.map m hm

end Loops

structure Consistent (S : TrackerSetup K E) (t : Tracker K E) : Prop where
  valid : Valid S.hash t.vf
  contents : contents S.hash t.vf = t.PK.val.map (elem S t)
  disjoint : Disjoint t.PK t.NK
  othello : Invariant S.othello t.othello
  map : Represents t.othello (answers S t)
  tnk : Tabled t.TNK_table (position_pair S t) fun k => k ∈ t.NK ∧ lookup S t k = false
  fpk : Tabled t.FPK_table (position_pair S t) fun k => k ∈ t.NK ∧ lookup S t k = true

theorem Consistent.lookup_of_mem {t : Tracker K E} {k : K} (h : Consistent S t) (hk : k ∈ t.PK) :
    lookup S t k = true := by
  rw [lookup_iff h.valid, h.contents]
  exact Multiset.mem_map_of_mem _ hk

section Raised

variable {t t' : Tracker K E} {k : K} {look : K → Bool} {m : K → Option ℕ}

/-- `k` was put into the filter, and `look` is what the filter said before. -/
structure Raised (S : TrackerSetup K E) (t : Tracker K E) (k : K) (look : K → Bool)
    (m : K → Option ℕ) : Prop where
  valid : Valid S.hash t.vf
  contents : VacuumFilter.contents S.hash t.vf = t.PK.val.map (elem S t)
  disjoint : Disjoint t.PK t.NK
  mem : k ∈ t.PK
  newer : ∀ q, lookup S t q = true ↔ look q = true ∨ elem S t q = elem S t k
  othello : Invariant S.othello t.othello
  map : Represents t.othello m
  old : ∀ q, q ≠ k → m q = if q ∈ t.PK then some 1 else
    if q ∈ t.NK ∧ look q = true then some 0 else none
  tnk : Tabled t.TNK_table (position_pair S t) fun q => q ∈ t.NK ∧ look q = false
  fpk : Tabled t.FPK_table (position_pair S t) fun q => q ∈ t.NK ∧ look q = true

theorem Raised.at_positions (h : Raised S t k look m) (q : K) (pos : ℕ)
    (hl : lookup S t q = true) (ho : look q = false)
    (hpos : pos = (position_pair S t q).1 ∨ pos = (position_pair S t q).2) :
    pos = (position_pair S t k).1 ∨ pos = (position_pair S t k).2 := by
  rcases (h.newer q).mp hl with hq | hq
  · rw [ho] at hq
    cases hq
  · rw [at_position_iff, hq] at hpos
    exact at_position_iff.mpr hpos

theorem promoteBoth_split {pos_pair : ℕ × ℕ} {flipped : List ℕ}
    (hrun : promoteBoth S t pos_pair = .ok (some flipped, t')) :
    ∃ t₁ flipped₁, promote S false t pos_pair.1 [] = .ok (true, t₁, flipped₁) ∧
      promote S true t₁ pos_pair.2 flipped₁ = .ok (true, t', flipped) := by
  obtain ⟨⟨ok₁, t₁, flipped₁⟩, h₁, hrun⟩ := of_bind_ok hrun
  cases ok₁ with
  | false => cases hrun
  | true =>
    obtain ⟨⟨ok₂, t₂, flipped₂⟩, h₂, hrun⟩ := of_bind_ok hrun
    cases ok₂ with
    | false => cases hrun
    | true =>
      obtain ⟨heq, rfl⟩ := Prod.mk.inj (Except.ok.inj hrun)
      obtain rfl := Option.some.inj heq
      exact ⟨t₁, flipped₁, h₁, h₂⟩

/-- After both promotions the tables and the Othello agree with the filter again, but for
the value of `k`. -/
theorem Raised.promoteBoth_ok (h : Raised S t k look m) {flipped : List ℕ}
    (hrun : promoteBoth S t (position_pair S t k) = .ok (some flipped, t')) :
    SameKeys t t' ∧ Invariant S.othello t'.othello ∧
      Tabled t'.TNK_table (position_pair S t') (fun q => q ∈ t'.NK ∧ lookup S t' q = false) ∧
      Tabled t'.FPK_table (position_pair S t') (fun q => q ∈ t'.NK ∧ lookup S t' q = true) ∧
      ∃ m', Represents t'.othello m' ∧ m' k = m k ∧ ∀ q, q ≠ k → m' q = answers S t' q := by
  have hne := positions_ne h.valid k
  obtain ⟨t₁, flipped₁, h₁, h₂⟩ := promoteBoth_split hrun
  have hat := h.at_positions
  generalize (position_pair S t k).1 = a at *
  generalize (position_pair S t k).2 = b at *
  obtain ⟨-, hs₁, hp₁⟩ := promoteLoop_ok false h.othello h₁
  obtain ⟨hinv₁, hT₁, hF₁, hmap₁⟩ := hp₁ rfl
  obtain ⟨-, hs₂, hp₂⟩ := promoteLoop_ok true hinv₁ h₂
  obtain ⟨hinv₂, hT₂, hF₂, hmap₂⟩ := hp₂ rfl
  have hs := hs₁.trans hs₂
  have hb₁ : t₁.TNK_table b = t.TNK_table b := by
    rw [hT₁, Function.update_of_ne hne.symm]
  have hbF : t₁.FPK_table b = t.FPK_table b := by
    rw [hF₁, Function.update_of_ne hne.symm]
  rw [hb₁, hs₁.lookup, List.nil_append] at hT₂
  rw [hb₁, hbF, hs₁.lookup] at hF₂
  rw [hb₁, hs₁.lookup] at hmap₂
  rw [List.nil_append] at hT₁
  rw [hT₁] at hT₂
  rw [hF₁] at hF₂
  rw [hs.lookup, hs.position_pair, hs.NK, hs.answers]
  have hold : ∀ q, lookup S t q = false → look q = false := fun q hq => by
    rw [← Bool.not_eq_true] at hq ⊢
    exact fun hc => hq ((h.newer q).mpr (Or.inl hc))
  refine ⟨hs, hinv₂, ?_, ?_, _, hmap₂ _ (hmap₁ m h.map), ?_, fun q hq => ?_⟩
  · rw [hT₂]
    refine (h.tnk.shrink (f := fun q => !lookup S t q) fun q pos hq hl hpos => ?_).congr fun q => ?_
    · exact hat q pos (by simpa using hl) hq.2 hpos
    · rw [Bool.not_eq_true']
      exact ⟨fun hq => ⟨⟨hq.1, hold q hq.2⟩, hq.2⟩, fun hq => ⟨hq.1.1, hq.2⟩⟩
  · rw [hF₂]
    refine (h.fpk.grow h.tnk (f := lookup S t) (fun q hq hq' => ?_) fun q pos hq hl hpos =>
      hat q pos hl hq.2 hpos).congr fun q => ?_
    · rw [hq.2] at hq'
      exact absurd hq'.2 (by simp)
    · constructor
      · rintro ⟨hn, hl⟩
        cases ho : look q with
        | true => exact Or.inl ⟨hn, rfl⟩
        | false => exact Or.inr ⟨⟨hn, rfl⟩, hl⟩
      · rintro (⟨hn, ho⟩ | ⟨⟨hn, -⟩, hl⟩)
        · exact ⟨hn, (h.newer q).mpr (Or.inl ho)⟩
        · exact ⟨hn, hl⟩
  · have hkN : k ∉ t.NK := Finset.disjoint_left.mp h.disjoint h.mem
    rw [promoted_not_mem, promoted_not_mem]
    · exact fun hc => hkN (((h.tnk _).2 k).mp (List.mem_of_mem_filter hc)).1.1
    · exact fun hc => hkN (((h.tnk _).2 k).mp (List.mem_of_mem_filter hc)).1.1
  · have hmq := h.old q hq
    rw [answers]
    by_cases hP : q ∈ t.PK
    · rw [if_pos hP] at hmq ⊢
      rw [promoted_some (promoted_some hmq)]
    · rw [if_neg hP] at hmq ⊢
      by_cases hN : q ∈ t.NK ∧ lookup S t q = true
      · rw [if_pos hN]
        cases ho : look q with
        | true =>
          rw [if_pos ⟨hN.1, ho⟩] at hmq
          rw [promoted_some (promoted_some hmq)]
        | false =>
          rw [if_neg (by simp [ho])] at hmq
          rcases hat q _ hN.2 ho (Or.inl rfl) with hpos | hpos
          · have hin : q ∈ (t.TNK_table a).filter (lookup S t) := by
              rw [List.mem_filter, (h.tnk a).2]
              exact ⟨⟨⟨hN.1, ho⟩, Or.inl hpos.symm⟩, hN.2⟩
            rw [promoted_some (promoted_mem hin (Or.inl hmq))]
          · have hin : q ∈ (t.TNK_table b).filter (lookup S t) := by
              rw [List.mem_filter, (h.tnk b).2]
              exact ⟨⟨⟨hN.1, ho⟩, Or.inl hpos.symm⟩, hN.2⟩
            rw [promoted_mem hin (promoted_none hmq)]
      · rw [if_neg hN]
        have hout : ∀ pos, q ∉ (t.TNK_table pos).filter (lookup S t) := by
          intro pos hc
          rw [List.mem_filter, (h.tnk pos).2] at hc
          exact hN ⟨hc.1.1.1, hc.2⟩
        rw [promoted_not_mem (hout b), promoted_not_mem (hout a), hmq, if_neg]
        exact fun hc => hN ⟨hc.1, (h.newer q).mpr (Or.inl hc.2)⟩

theorem promoteBoth_log {pos_pair : ℕ × ℕ} {r : Option (List ℕ)}
    (h : Invariant S.othello t.othello) (hrun : promoteBoth S t pos_pair = .ok (r, t')) :
    SameKeys t t' ∧ ∀ flipped, r = some flipped →
      Logged S.othello t.othello [] t'.othello flipped ∧ Invariant S.othello t'.othello := by
  obtain ⟨⟨ok₁, t₁, flipped₁⟩, h₁, hrun⟩ := of_bind_ok hrun
  obtain ⟨hlog₁, hs₁, hp₁⟩ := promoteLoop_ok false h h₁
  cases ok₁ with
  | false =>
    obtain ⟨rfl, rfl⟩ := Prod.mk.inj (Except.ok.inj hrun)
    exact ⟨hs₁, by simp⟩
  | true =>
    obtain ⟨⟨ok₂, t₂, flipped₂⟩, h₂, hrun⟩ := of_bind_ok hrun
    obtain ⟨hlog₂, hs₂, hp₂⟩ := promoteLoop_ok true (hp₁ rfl).othello h₂
    obtain ⟨rfl, rfl⟩ := Prod.mk.inj (Except.ok.inj hrun)
    refine ⟨hs₁.trans hs₂, fun flipped hf => ?_⟩
    cases ok₂ with
    | false => cases hf
    | true =>
      obtain rfl := Option.some.inj hf
      exact ⟨hlog₁.trans hlog₂, (hp₂ rfl).othello⟩

theorem Raised.promoteBoth_faults (h : Raised S t k look m) :
    (∃ r, promoteBoth S t (position_pair S t k) = .ok r) ∨
      promoteBoth S t (position_pair S t k) = .error .outOfBounds := by
  have hnew : ∀ q ∈ t.TNK_table (position_pair S t k).1, lookup S t q = true → m q = none := by
    intro q hq _
    obtain ⟨⟨hn, ho⟩, -⟩ := ((h.tnk _).2 q).mp hq
    have hP : q ∉ t.PK := fun hP => Finset.disjoint_left.mp h.disjoint hP hn
    have hqk : q ≠ k := by
      rintro rfl
      exact hP h.mem
    rw [h.old q hqk, if_neg hP, if_neg (by simp [ho])]
  rcases promoteLoop_faults false (position_pair S t k).1 [] []
      (t.TNK_table (position_pair S t k).1) h.othello h.map (Or.inr ⟨(h.tnk _).1, hnew⟩) with
    ⟨⟨ok₁, t₁, flipped₁⟩, h₁⟩ | h₁
  · cases ok₁ with
    | false =>
      refine Or.inl ⟨(none, t₁), ?_⟩
      rw [promoteBoth, promote, h₁]
      rfl
    | true =>
      obtain ⟨-, -, hp₁⟩ := promoteLoop_ok false h.othello h₁
      rcases promoteLoop_faults true (position_pair S t k).2 flipped₁ []
          (t₁.TNK_table (position_pair S t k).2)
          (hp₁ rfl).othello ((hp₁ rfl).map m h.map) (Or.inl rfl) with ⟨⟨ok₂, t₂, flipped₂⟩, h₂⟩ | h₂
      · refine Or.inl ⟨(if ok₂ then some flipped₂ else none, t₂), ?_⟩
        rw [promoteBoth, promote, h₁]
        simp only [ok_bind, Bool.not_true, Bool.false_eq_true, if_false, promote, h₂]
        rfl
      · right
        rw [promoteBoth, promote, h₁]
        simp only [ok_bind, Bool.not_true, Bool.false_eq_true, if_false, promote, h₂]
        rfl
  · right
    rw [promoteBoth, promote, h₁]
    rfl

end Raised

section Query

variable {t : Tracker K E} {k : K}

omit [DecidableEq K] in
theorem query_of_map {st : Othello K} (h : Invariant S.othello st) {m : K → Option ℕ}
    (hm : Represents st m) {v : ℕ} (hv : m k = some v) :
    ControlPlaneOthello.query S.othello st k = some (v % 2) := by
  obtain ⟨i, hi, rfl, rfl⟩ := (hm k v).mp hv
  have hl : memAt S.othello st (ends S.othello st i).1 ^^^
      memAt S.othello st (ends S.othello st i).2 = label S.othello st i :=
    h.labels i _ _ (graph_ends _ _ hi)
  rw [ControlPlaneOthello.query, if_pos (plain S).dataPlane]
  refine congrArg some ?_
  refine Nat.eq_of_testBit_eq fun b => ?_
  have hw : S.othello.vBits = S.vBits := rfl
  rw [(plain S).noDigest, Nat.shiftRight_zero, show (2 : ℕ) = 2 ^ 1 from rfl,
    Nat.testBit_mod_two_pow]
  by_cases hb : b < S.vBits
  · rw [getLsbD_cut _ _ (hw ▸ hb)]
    have hbit := congrArg (BitVec.getLsbD · b) hl
    refine hbit.trans ?_
    rw [label, valueAt, Config.VDEMASK, BitVec.getLsbD_and, getLsbD_mask, BitVec.getLsbD_ofNat]
    have hV : S.othello.VDL = 1 := rfl
    rw [hV]
    by_cases h1 : b < 1
    · simp [h1, show b < 64 by omega]
    · simp [h1]
  · have hone := S.one_le
    rw [decide_eq_false (by omega), Bool.false_and]
    refine Nat.testBit_eq_false_of_lt ?_
    exact (BitVec.isLt _).trans_le (Nat.pow_le_pow_right (by decide) (by omega))

theorem Consistent.query_positive (h : Consistent S t) (hk : k ∈ t.PK) :
    DASSTracker.query S t k = 1 := by
  have hans : answers S t k = some 1 := if_pos hk
  rw [DASSTracker.query, if_pos (h.lookup_of_mem hk), query_of_map h.othello h.map hans]
  rfl

theorem Consistent.query_negative (h : Consistent S t) (hk : k ∈ t.NK) :
    DASSTracker.query S t k = 0 := by
  have hP : k ∉ t.PK := Finset.disjoint_right.mp h.disjoint hk
  rw [DASSTracker.query]
  split
  case isTrue hl =>
    have hans : answers S t k = some 0 := (if_neg hP).trans (if_pos ⟨hk, hl⟩)
    rw [query_of_map h.othello h.map hans]
    rfl
  case isFalse => rfl

end Query

end TrackerInvariant
