import Mathlib.Data.Finset.Card
import Mathlib.Data.Fintype.Card
import Mathlib.Logic.Function.Basic

/-! # Parent pointers with lazily created roots

`p i` is the parent of `i`; a root has no parent yet or is its own parent. Path
compression, merging and re-rooting are described by the root each node reaches. -/
namespace ParentPointers

/-- Node `i` reaches the root `r` after `n` steps. -/
inductive Climbs (p : ℕ → Option ℕ) : ℕ → ℕ → ℕ → Prop where
  | root {i} : p i = none ∨ p i = some i → Climbs p 0 i i
  | step {n i j r} : p i = some j → j ≠ i → Climbs p n j r → Climbs p (n + 1) i r

def Rep (p : ℕ → Option ℕ) (i r : ℕ) : Prop := ∃ n, Climbs p n i r

/-- Parents stay below `N` and every node below `N` reaches a root. -/
structure Rooted (p : ℕ → Option ℕ) (N : ℕ) : Prop where
  below : ∀ i j, i < N → p i = some j → j < N
  rep : ∀ i, i < N → ∃ r, Rep p i r

def SameRoot (p : ℕ → Option ℕ) (i j : ℕ) : Prop := ∃ r, Rep p i r ∧ Rep p j r

variable {p : ℕ → Option ℕ} {n m i j r s N : ℕ}

theorem Climbs.unique (h : Climbs p n i r) (k : Climbs p m i s) : n = m ∧ r = s := by
  induction h generalizing m with
  | root h =>
    cases k with
    | root => exact ⟨rfl, rfl⟩
    | step hj hne _ =>
      rcases h with h | h <;> simp_all
  | step hj hne _ ih =>
    cases k with
    | root k => rcases k with k | k <;> simp_all
    | step hj' _ k =>
      obtain rfl := Option.some.inj (hj.symm.trans hj')
      obtain ⟨rfl, rfl⟩ := ih k
      exact ⟨rfl, rfl⟩

theorem Rep.unique (h : Rep p i r) (k : Rep p i s) : r = s := by
  obtain ⟨n, h⟩ := h
  obtain ⟨m, k⟩ := k
  exact (h.unique k).2

theorem Climbs.isRoot (h : Climbs p n i r) : p r = none ∨ p r = some r := by
  induction h with
  | root h => exact h
  | step _ _ _ ih => exact ih

theorem Rep.isRoot (h : Rep p i r) : p r = none ∨ p r = some r := by
  obtain ⟨n, h⟩ := h
  exact h.isRoot

theorem Rep.self (h : p i = none ∨ p i = some i) : Rep p i i := ⟨0, .root h⟩

theorem Rep.step (h : p i = some j) (hr : Rep p j r) : Rep p i r := by
  by_cases hji : j = i
  · exact hji ▸ hr
  · obtain ⟨n, hr⟩ := hr
    exact ⟨n + 1, .step h hji hr⟩

theorem Climbs.root_lt (hp : ∀ i j, i < N → p i = some j → j < N) (h : Climbs p n i r)
    (hi : i < N) : r < N := by
  induction h with
  | root => exact hi
  | step hj _ _ ih => exact ih (hp _ _ hi hj)

theorem Rooted.rep_lt (hp : Rooted p N) (hi : i < N) (h : Rep p i r) : r < N := by
  obtain ⟨n, h⟩ := h
  exact h.root_lt hp.below hi

theorem Climbs.lt (hp : ∀ i j, i < N → p i = some j → j < N) (h : Climbs p n i r)
    (hi : i < N) : n < N := by
  have hk : ∀ k : Fin (n + 1), ∃ x : Fin N, Climbs p k x r := by
    induction h with
    | root h =>
      intro k
      obtain ⟨k, hk⟩ := k
      obtain rfl : k = 0 := by omega
      exact ⟨⟨_, hi⟩, .root h⟩
    | @step n i j r hj hne h ih =>
      rintro ⟨k, hk⟩
      by_cases hkn : k = n + 1
      · exact ⟨⟨i, hi⟩, hkn ▸ .step hj hne h⟩
      · exact ih (hp _ _ hi hj) ⟨k, by omega⟩
  choose f hf using hk
  have hinj : Function.Injective f := by
    intro a b hab
    exact Fin.ext (((hf a).unique (hab ▸ hf b)).1)
  have hcard := Fintype.card_le_of_injective f hinj
  rw [Fintype.card_fin, Fintype.card_fin] at hcard
  omega

theorem Rep.update (hx : Rep p j s) (h : Rep p i r) : Rep (Function.update p j (some s)) i r := by
  have hroot : Rep (Function.update p j (some s)) s s := by
    apply Rep.self
    by_cases hjs : s = j
    · subst hjs; exact Or.inr (Function.update_self ..)
    · rw [Function.update_of_ne hjs]
      exact hx.isRoot
  obtain ⟨n, h⟩ := h
  induction h with
  | @root i h =>
    by_cases hij : i = j
    · subst hij
      rw [hx.unique (Rep.self h)] at hroot ⊢
      exact hroot
    · exact Rep.self (by rwa [Function.update_of_ne hij])
  | @step n i k r hk hne h ih =>
    by_cases hij : i = j
    · subst hij
      rw [← hx.unique (Rep.step hk ⟨n, h⟩)]
      exact Rep.step (Function.update_self ..) hroot
    · exact Rep.step (by rwa [Function.update_of_ne hij]) ih

theorem Rooted.update (hp : Rooted p N) (hj : j < N) (hx : Rep p j s) :
    Rooted (Function.update p j (some s)) N ∧
      ∀ i r, i < N → (Rep (Function.update p j (some s)) i r ↔ Rep p i r) := by
  have hle : ∀ i r, Rep p i r → Rep (Function.update p j (some s)) i r := fun _ _ h => hx.update h
  refine ⟨⟨?_, fun i hi => (hp.rep i hi).imp fun r hr => hle i r hr⟩, ?_⟩
  · intro i k hi hk
    by_cases hij : i = j
    · subst hij
      rw [Function.update_self] at hk
      exact Option.some.inj hk ▸ hp.rep_lt hj hx
    · rw [Function.update_of_ne hij] at hk
      exact hp.below i k hi hk
  · intro i r hi
    refine ⟨fun h => ?_, hle i r⟩
    obtain ⟨t, ht⟩ := hp.rep i hi
    rwa [h.unique (hle i t ht)]

/-- Merging: the root `b` is hung below the root `a`. -/
theorem Rep.merge {a b : ℕ} (ha : p a = none ∨ p a = some a) (hb : p b = none ∨ p b = some b)
    (h : Rep p i r) :
    Rep (Function.update p b (some a)) i (if r = b then a else r) := by
  have hroot : Rep (Function.update p b (some a)) b a := by
    by_cases hab : a = b
    · subst hab; exact Rep.self (Or.inr (Function.update_self ..))
    · exact Rep.step (Function.update_self ..)
        (Rep.self (by rwa [Function.update_of_ne hab]))
  obtain ⟨n, h⟩ := h
  induction h with
  | @root i h =>
    by_cases hib : i = b
    · rw [if_pos hib, hib]; exact hroot
    · rw [if_neg hib]; exact Rep.self (by rwa [Function.update_of_ne hib])
  | @step n i k r hk hne h ih =>
    have hib : i ≠ b := by
      rintro rfl
      rcases hb with hb | hb
      · simp [hb] at hk
      · exact hne (Option.some.inj (hk.symm.trans hb))
    exact Rep.step (by rwa [Function.update_of_ne hib]) ih

theorem Rep.frame {q : ℕ → Option ℕ} (h : Rep p i r)
    (hq : ∀ j, Rep p j r → q j = p j) : Rep q i r := by
  obtain ⟨n, h⟩ := h
  induction h with
  | @root i h => exact Rep.self (by rwa [hq i (Rep.self h)])
  | @step n i k r hk hne h ih =>
    exact Rep.step (by rwa [hq i (Rep.step hk ⟨n, h⟩)]) (ih hq)

end ParentPointers
