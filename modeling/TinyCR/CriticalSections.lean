import TinyCR.LabelledRuns
import Mathlib.Logic.Function.Basic
import Mathlib.Logic.Relation

/-! # Threads with one lock

Threads that touch the shared state only inside sections, which they enter by taking a lock. Any
interleaving of their steps is one of whole sections, in the order in which the lock was taken. A
thread may also release the lock without holding it, or stop inside its section: after the first,
two threads can be inside, and after the second, no thread gets in again. -/
namespace CriticalSections

open LabelledRuns

variable {ι ℓ σ ε : Type*}

/-- What the threads `ι` do inside their sections: the local states a section starts in, its
steps, the states it ends in with what is recorded of it, and those a thread may stop in. The
threads of `stray` may release the lock from outside. -/
structure Sections (ι ℓ σ ε : Type*) where
  enter : ι → ℓ → Prop
  move : ι → ℓ × σ → ℓ × σ → Prop
  leave : ι → ℓ → ε → Prop
  stop : ι → ℓ → Prop
  stray : ι → Prop

structure Config (ι ℓ σ : Type*) where
  shared : σ
  owner : Option ι
  inside : ι → Option ℓ

inductive Label (ι ε : Type*)
  | lock (i : ι)
  | move (i : ι)
  | unlock (i : ι) (e : ε)
  | stray (i : ι)
  | stop (i : ι)

def events (l : List (Label ι ε)) : List (ι × ε) :=
  l.filterMap fun
    | .unlock i e => some (i, e)
    | _ => none

def NoStray (l : List (Label ι ε)) : Prop := ∀ i, .stray i ∉ l

def idle (s : σ) : Config ι ℓ σ := ⟨s, none, fun _ => none⟩

section Steps

variable [DecidableEq ι] (P : Sections ι ℓ σ ε)

inductive Step : Config ι ℓ σ → Label ι ε → Config ι ℓ σ → Prop
  | lock {c : Config ι ℓ σ} {i : ι} {p : ℓ} : c.owner = none → c.inside i = none → P.enter i p →
      Step c (.lock i) { c with owner := some i, inside := Function.update c.inside i (some p) }
  | move {c : Config ι ℓ σ} {i : ι} {p p' : ℓ} {s : σ} : c.inside i = some p →
      P.move i (p, c.shared) (p', s) →
      Step c (.move i) { c with shared := s, inside := Function.update c.inside i (some p') }
  | unlock {c : Config ι ℓ σ} {i : ι} {p : ℓ} {e : ε} : c.inside i = some p → P.leave i p e →
      Step c (.unlock i e) { c with owner := none, inside := Function.update c.inside i none }
  | stray {c : Config ι ℓ σ} {i : ι} : c.inside i = none → P.stray i →
      Step c (.stray i) { c with owner := none }
  | stop {c : Config ι ℓ σ} {i : ι} {p : ℓ} : c.inside i = some p → P.stop i p →
      Step c (.stop i) { c with inside := Function.update c.inside i none }

/-- A whole section, with nothing in between. -/
def Whole (s : σ) (e : ι × ε) (s' : σ) : Prop :=
  ∃ p p', P.enter e.1 p ∧ Relation.ReflTransGen (P.move e.1) (p, s) (p', s') ∧ P.leave e.1 p' e.2

end Steps

def Excluded (c : Config ι ℓ σ) : Prop := ∀ i p, c.inside i = some p → c.owner = some i

theorem Excluded.unique {c : Config ι ℓ σ} (h : Excluded c) {i j : ι} {p q : ℓ}
    (hi : c.inside i = some p) (hj : c.inside j = some q) : i = j :=
  Option.some.inj ((h i p hi).symm.trans (h j q hj))

theorem Excluded.none_of_free {c : Config ι ℓ σ} (h : Excluded c) (hfree : c.owner = none)
    {i : ι} {p : ℓ} : c.inside i ≠ some p := by
  intro hi
  cases (h i p hi).symm.trans hfree

theorem excluded_idle (s : σ) : Excluded (idle s : Config ι ℓ σ) := fun i p hi => by cases hi

variable [DecidableEq ι] {P : Sections ι ℓ σ ε} {c c' : Config ι ℓ σ} {x : Label ι ε}
  {l : List (Label ι ε)} {i j : ι}

omit [DecidableEq ι] in
theorem NoStray.append {l l' : List (Label ι ε)} (h : NoStray (l ++ l')) :
    NoStray l ∧ NoStray l' :=
  ⟨fun i hi => h i (List.mem_append_left _ hi), fun i hi => h i (List.mem_append_right _ hi)⟩

omit [DecidableEq ι] in
theorem events_append (l l' : List (Label ι ε)) : events (l ++ l') = events l ++ events l' :=
  List.filterMap_append ..

omit [DecidableEq ι] in
@[simp] theorem events_unlock (l : List (Label ι ε)) (i : ι) (e : ε) :
    events (l ++ [.unlock i e]) = events l ++ [(i, e)] :=
  events_append l _

omit [DecidableEq ι] in
theorem events_quiet (l : List (Label ι ε)) (h : events [x] = []) :
    events (l ++ [x]) = events l := by
  rw [events_append, h, List.append_nil]

theorem inside_update {inside : ι → Option ℓ} {r : Option ℓ} {q : ℓ}
    (h : Function.update inside i r j = some q) :
    (j = i ∧ r = some q) ∨ (j ≠ i ∧ inside j = some q) := by
  by_cases hij : j = i
  · subst hij
    exact Or.inl ⟨rfl, (Function.update_self j r inside).symm.trans h⟩
  · exact Or.inr ⟨hij, (Function.update_of_ne hij r inside).symm.trans h⟩

theorem Runs.noStray (h : Runs (Step P) c l c') (hP : ∀ i, ¬ P.stray i) : NoStray l := by
  induction h with
  | nil => exact nofun
  | cons hstep _ ih =>
    intro i hi
    rcases List.mem_cons.mp hi with rfl | hi
    · cases hstep with
      | stray _ hstray => exact hP i hstray
    · exact ih i hi

theorem Step.excluded (h : Step P c x c') (hx : ∀ i, x ≠ .stray i) (hc : Excluded c) :
    Excluded c' := by
  intro j q hj
  cases h with
  | lock hfree hout henter =>
    rcases inside_update hj with ⟨rfl, -⟩ | ⟨-, hj⟩
    · rfl
    · exact absurd hj (hc.none_of_free hfree)
  | move hin hmove =>
    rcases inside_update hj with ⟨rfl, -⟩ | ⟨-, hj⟩
    · exact hc _ _ hin
    · exact hc _ _ hj
  | unlock hin hleave =>
    rcases inside_update hj with ⟨rfl, hnone⟩ | ⟨hij, hj⟩
    · cases hnone
    · exact absurd (hc.unique hj hin) hij
  | stray => exact absurd rfl (hx _)
  | stop hin hstop =>
    rcases inside_update hj with ⟨rfl, hnone⟩ | ⟨-, hj⟩
    · cases hnone
    · exact hc _ _ hj

theorem Runs.excluded {s : σ} (h : Runs (Step P) (idle s) l c) (hl : NoStray l) : Excluded c := by
  induction h using Runs.snoc_induction with
  | nil => exact excluded_idle s
  | snoc l c₁ x c hrun hstep ih =>
    obtain ⟨hl, hx⟩ := hl.append
    exact hstep.excluded (fun i hi => hx i (hi ▸ List.mem_singleton_self x)) (ih hl)

/-- The sections that are over lead to `s`, from where the thread inside has come to where it
is. -/
structure Serial (P : Sections ι ℓ σ ε) (c : Config ι ℓ σ) (s : σ) : Prop where
  free : c.owner = none → c.shared = s
  inside : ∀ i p, c.inside i = some p → ∃ p₀, P.enter i p₀ ∧
    Relation.ReflTransGen (P.move i) (p₀, s) (p, c.shared)

/-- Any interleaving is one of whole sections, in the order in which they have ended. -/
theorem Runs.serial {s₀ : σ} (h : Runs (Step P) (idle s₀) l c) (hl : NoStray l) :
    ∃ s, Runs (Whole P) s₀ (events l) s ∧ Serial P c s := by
  induction h using Runs.snoc_induction with
  | nil => exact ⟨s₀, .nil s₀, fun _ => rfl, fun i p hp => by cases hp⟩
  | snoc l c x c' hrun hstep ih =>
    obtain ⟨hl, hx⟩ := hl.append
    obtain ⟨s, hwhole, hserial⟩ := ih hl
    have hexcl := Runs.excluded hrun hl
    cases hstep with
    | lock hfree hout henter =>
      rw [events_quiet l rfl]
      refine ⟨s, hwhole, nofun, ?_⟩
      intro j q hj
      rcases inside_update hj with ⟨rfl, heq⟩ | ⟨-, hj⟩
      · obtain rfl := Option.some.inj heq
        exact ⟨_, henter, hserial.free hfree ▸ .refl⟩
      · exact absurd hj (hexcl.none_of_free hfree)
    | move hin hmove =>
      have howner := hexcl _ _ hin
      rw [events_quiet l rfl]
      refine ⟨s, hwhole, ?_, ?_⟩
      · intro hfree
        cases howner.symm.trans hfree
      · intro j q hj
        rcases inside_update hj with ⟨rfl, heq⟩ | ⟨hij, hj⟩
        · obtain rfl := Option.some.inj heq
          obtain ⟨p₀, henter, hmoves⟩ := hserial.inside _ _ hin
          exact ⟨p₀, henter, hmoves.tail hmove⟩
        · exact absurd (hexcl.unique hj hin) hij
    | unlock hin hleave =>
      obtain ⟨p₀, henter, hmoves⟩ := hserial.inside _ _ hin
      rw [events_unlock]
      refine ⟨c.shared, runs_snoc_iff.mpr ⟨s, hwhole, p₀, _, henter, hmoves, hleave⟩,
        fun _ => rfl, ?_⟩
      intro j q hj
      rcases inside_update hj with ⟨rfl, hnone⟩ | ⟨hij, hj⟩
      · cases hnone
      · exact absurd (hexcl.unique hj hin) hij
    | stray => exact absurd (List.mem_singleton_self _) (hx _)
    | stop hin hstop =>
      have howner := hexcl _ _ hin
      rw [events_quiet l rfl]
      refine ⟨s, hwhole, ?_, ?_⟩
      · intro hfree
        cases howner.symm.trans hfree
      · intro j q hj
        rcases inside_update hj with ⟨rfl, hnone⟩ | ⟨-, hj⟩
        · cases hnone
        · exact hserial.inside _ _ hj

omit [DecidableEq ι] in
theorem NoStray.cons {l : List (Label ι ε)} (hx : ∀ i, x ≠ .stray i) (h : NoStray l) :
    NoStray (x :: l) := by
  intro i hi
  rcases List.mem_cons.mp hi with heq | hi
  · exact hx i heq.symm
  · exact h i hi

def alone (i : ι) (x : ℓ × σ) : Config ι ℓ σ :=
  ⟨x.2, some i, Function.update (fun _ => none) i (some x.1)⟩

theorem alone_inside (x : ℓ × σ) : (alone i x).inside i = some x.1 := by simp [alone]

theorem alone_moves {x y : ℓ × σ} (h : P.move i x y) :
    Step P (alone i x) (.move i) (alone i y) := by
  have hstep := Step.move (P := P) (alone_inside (i := i) x) h
  rwa [alone, Function.update_idem] at hstep

theorem alone_leaves {x : ℓ × σ} {e : ε} (h : P.leave i x.1 e) :
    Step P (alone i x) (.unlock i e) (idle x.2) := by
  have hstep := Step.unlock (P := P) (alone_inside (i := i) x) h
  rwa [alone, Function.update_idem, Function.update_eq_self] at hstep

theorem alone_run {x y : ℓ × σ} {e : ε} (h : Relation.ReflTransGen (P.move i) x y)
    (hleave : P.leave i y.1 e) : ∃ l, Runs (Step P) (alone i x) l (idle y.2) ∧
      events l = [(i, e)] ∧ NoStray l := by
  induction h using Relation.ReflTransGen.head_induction_on with
  | refl => exact ⟨_, .cons (alone_leaves hleave) (.nil _), rfl, .cons (fun _ => nofun) nofun⟩
  | head hmove _ ih =>
    obtain ⟨l, hrun, hevents, hl⟩ := ih
    exact ⟨_, .cons (alone_moves hmove) hrun, hevents, hl.cons fun _ => nofun⟩

theorem Whole.run {s s' : σ} {e : ε} (h : Whole P s (i, e) s') :
    ∃ l, Runs (Step P) (idle s) l (idle s') ∧ events l = [(i, e)] ∧ NoStray l := by
  obtain ⟨p, p', henter, hmoves, hleave⟩ := h
  obtain ⟨l, hrun, hevents, hl⟩ := alone_run hmoves hleave
  exact ⟨_, .cons (.lock rfl rfl henter) hrun, hevents, hl.cons fun _ => nofun⟩

/-- The interleavings that end with a free lock are exactly the sequences of whole sections. -/
theorem serial_iff {s s' : σ} {es : List (ι × ε)} :
    (∃ l, Runs (Step P) (idle s) l (idle s') ∧ events l = es ∧ NoStray l) ↔
      Runs (Whole P) s es s' := by
  constructor
  · rintro ⟨l, hrun, rfl, hl⟩
    obtain ⟨s₁, hwhole, hserial⟩ := Runs.serial hrun hl
    obtain rfl : s' = s₁ := hserial.free rfl
    exact hwhole
  · intro h
    induction h with
    | nil => exact ⟨[], .nil _, rfl, nofun⟩
    | cons hfirst _ ih =>
      obtain ⟨l₁, hrun₁, hevents₁, hl₁⟩ := Whole.run hfirst
      obtain ⟨l₂, hrun₂, hevents₂, hl₂⟩ := ih
      refine ⟨l₁ ++ l₂, runs_append_iff.mpr ⟨_, hrun₁, hrun₂⟩, ?_, fun j hj => ?_⟩
      · rw [events_append, hevents₁, hevents₂]
        rfl
      · rcases List.mem_append.mp hj with hj | hj
        · exact hl₁ j hj
        · exact hl₂ j hj

/-- A thread that releases the lock while another is inside can follow it in. -/
theorem Step.stray_admits {p q : ℓ} (hin : c.inside j = some q) (hout : c.inside i = none)
    (hstray : P.stray i) (henter : P.enter i p) : ∃ c', Runs (Step P) c [.stray i, .lock i] c' ∧
      c'.inside i = some p ∧ c'.inside j = some q := by
  have hij : j ≠ i := by
    rintro rfl
    cases hin.symm.trans hout
  exact ⟨_, .cons (.stray hout hstray) (.cons (.lock rfl hout henter) (.nil _)),
    Function.update_self .., (Function.update_of_ne hij ..).trans hin⟩

def Stuck (c : Config ι ℓ σ) : Prop := c.owner ≠ none ∧ ∀ i, c.inside i = none

theorem Step.stop_stuck (h : Step P c (.stop i) c') (hc : Excluded c) : Stuck c' := by
  cases h with
  | stop hin hstop =>
    refine ⟨by rw [hc _ _ hin]; simp, fun j => ?_⟩
    by_contra hj
    obtain ⟨q, hj⟩ := Option.ne_none_iff_exists'.mp hj
    rcases inside_update hj with ⟨rfl, hnone⟩ | ⟨hij, hj⟩
    · cases hnone
    · exact hij (hc.unique hj hin)

theorem Runs.stuck (h : Runs (Step P) c l c') (hl : NoStray l) (hc : Stuck c) : l = [] := by
  cases h with
  | nil => rfl
  | cons hstep _ =>
    cases hstep with
    | lock hfree => exact absurd hfree hc.1
    | move hin | unlock hin | stop hin => cases (hc.2 _).symm.trans hin
    | stray => exact absurd List.mem_cons_self (hl _)

theorem Runs.after_stop {s : σ} {l₁ l₂ : List (Label ι ε)}
    (h : Runs (Step P) (idle s) (l₁ ++ .stop i :: l₂) c) (hl : NoStray (l₁ ++ .stop i :: l₂)) :
    l₂ = [] ∧ ∃ p, P.stop i p := by
  obtain ⟨c₁, hrun₁, hrest⟩ := runs_append_iff.mp h
  obtain ⟨c₂, hstop, hrun₂⟩ := runs_cons_iff.mp hrest
  obtain ⟨hl₁, hl₂⟩ := hl.append
  have hstuck := hstop.stop_stuck (Runs.excluded hrun₁ hl₁)
  refine ⟨Runs.stuck hrun₂ (fun j hj => hl₂ j (List.mem_cons_of_mem _ hj)) hstuck, ?_⟩
  cases hstop with
  | stop _ hp => exact ⟨_, hp⟩

end CriticalSections
