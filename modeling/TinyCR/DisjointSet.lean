import TinyCR.ParentPointers
import Mathlib.Data.List.Basic

/-! # The disjoint set of `disjointset.h`

`vector<int> mem` with -1 (here `none`) for an element that was never looked up. -/
namespace DisjointSet

open ParentPointers

abbrev Mem := List (Option ℕ)

def parent (mem : Mem) (i : ℕ) : Option ℕ := mem.getD i none

def set (mem : Mem) (i p : ℕ) : Mem := mem.set i (some p)

/-- Follows the parents up and points everything on the way at the root. -/
def climb : ℕ → Mem → ℕ → Option (ℕ × Mem)
  | 0, _, _ => none
  | fuel + 1, mem, i =>
    match parent mem i with
    | none => some (i, set mem i i)
    | some j =>
      if j ≠ i then
        match climb fuel mem j with
        | none => none
        | some (r, mem) => some (r, set mem i r)
      else some (i, mem)

def representative (mem : Mem) (i : ℕ) : Option (ℕ × Mem) := climb mem.length mem i

def merge (mem : Mem) (a b : ℕ) : Option Mem := do
  let (ra, mem) ← representative mem a
  let (rb, mem) ← representative mem b
  return set mem rb ra

def sameSet (mem : Mem) (a b : ℕ) : Option (Bool × Mem) := do
  let (ra, mem) ← representative mem a
  let (rb, mem) ← representative mem b
  return (ra == rb, mem)

def isRoot (mem : Mem) (a : ℕ) : Bool := parent mem a == some a

def reset (mem : Mem) : Mem := mem.map fun _ => none

def resize (mem : Mem) (n : ℕ) : Mem := mem.take n ++ List.replicate (n - mem.length) none

variable {mem mem' : Mem} {i j r a b n : ℕ}

@[simp] theorem length_set (mem : Mem) (i p : ℕ) : (set mem i p).length = mem.length := by
  simp [set]

@[simp] theorem length_reset (mem : Mem) : (reset mem).length = mem.length := by
  simp [reset]

@[simp] theorem length_resize (mem : Mem) (n : ℕ) : (resize mem n).length = n := by
  simp [resize]
  omega

/-! No operation changes the length, whatever the pointers are. -/

theorem length_climb {fuel : ℕ} (h : climb fuel mem i = some (r, mem')) :
    mem'.length = mem.length := by
  induction fuel generalizing mem' r i with
  | zero => cases h
  | succ fuel ih =>
    rw [climb] at h
    split at h
    · obtain ⟨-, rfl⟩ := Prod.mk.inj (Option.some.inj h)
      exact length_set ..
    · split at h
      · split at h
        case h_1 => cases h
        case h_2 hc =>
          obtain ⟨-, rfl⟩ := Prod.mk.inj (Option.some.inj h)
          exact (length_set ..).trans (ih hc)
      · obtain ⟨-, rfl⟩ := Prod.mk.inj (Option.some.inj h)
        rfl

theorem length_representative (h : representative mem i = some (r, mem')) :
    mem'.length = mem.length :=
  length_climb h

theorem length_merge (h : merge mem a b = some mem') : mem'.length = mem.length := by
  simp only [merge, Option.bind_eq_bind, Option.bind_eq_some_iff, Option.pure_def,
    Option.some.injEq, Prod.exists] at h
  obtain ⟨ra, m₁, h₁, rb, m₂, h₂, rfl⟩ := h
  exact (length_set ..).trans ((length_representative h₂).trans (length_representative h₁))

theorem length_sameSet {same : Bool} (h : sameSet mem a b = some (same, mem')) :
    mem'.length = mem.length := by
  simp only [sameSet, Option.bind_eq_bind, Option.bind_eq_some_iff, Option.pure_def,
    Option.some.injEq, Prod.exists, Prod.mk.injEq] at h
  obtain ⟨ra, m₁, h₁, rb, m₂, h₂, -, rfl⟩ := h
  exact (length_representative h₂).trans (length_representative h₁)

theorem parent_set (h : i < mem.length) (p : ℕ) :
    parent (set mem i p) = Function.update (parent mem) i (some p) := by
  funext j
  by_cases hj : j = i
  · subst hj; simp [parent, set, h]
  · rw [Function.update_of_ne hj]
    simp [parent, set, Ne.symm hj]

@[simp] theorem parent_reset (mem : Mem) : parent (reset mem) = fun _ => none := by
  funext i
  simp only [parent, reset, List.getD_eq_getElem?_getD, List.getElem?_map]
  cases mem[i]? <;> rfl

def Valid (mem : Mem) : Prop := Rooted (parent mem) mem.length

theorem valid_reset (mem : Mem) : Valid (reset mem) := by
  refine ⟨?_, fun i _ => ⟨i, Rep.self ?_⟩⟩
  · intro i j _ h
    simp at h
  · simp

/-- Equal up to path compression: the same roots, and no element leaves the set. -/
structure Compressed (mem mem' : Mem) : Prop where
  length : mem'.length = mem.length
  valid : Valid mem'
  rep : ∀ i r, i < mem.length → (Rep (parent mem') i r ↔ Rep (parent mem) i r)

theorem Compressed.trans {m₁ m₂ m₃ : Mem} (h : Compressed m₁ m₂) (k : Compressed m₂ m₃) :
    Compressed m₁ m₃ :=
  ⟨k.length.trans h.length, k.valid, fun i r hi =>
    (k.rep i r (h.length ▸ hi)).trans (h.rep i r hi)⟩

theorem compressed_set (hv : Valid mem) (hi : i < mem.length) (hr : Rep (parent mem) i r) :
    Compressed mem (set mem i r) := by
  have h := hv.update hi hr
  exact ⟨length_set .., by simpa [Valid, parent_set hi] using h.1,
    by simpa [parent_set hi] using h.2⟩

theorem touched_set (hi : i < mem.length) (p x : ℕ) :
    parent (set mem i p) x ≠ none ↔ parent mem x ≠ none ∨ x = i := by
  rw [parent_set hi]
  by_cases hx : x = i
  · simp [hx]
  · rw [Function.update_of_ne hx, or_iff_left hx]

theorem climb_spec (hv : Valid mem) (hi : i < mem.length) {fuel : ℕ}
    (h : Climbs (parent mem) n i r) (hf : n < fuel) :
    ∃ mem', climb fuel mem i = some (r, mem') ∧ Compressed mem mem' ∧
      ∀ x, parent mem' x ≠ none ↔ parent mem x ≠ none ∨ x = r := by
  induction fuel generalizing n i with
  | zero => omega
  | succ fuel ih =>
    rw [climb]
    cases h with
    | root h =>
      rcases h with h | h
      · rw [h]
        exact ⟨_, rfl, compressed_set hv hi (Rep.self (Or.inl h)), touched_set hi _⟩
      · simp only [h, ne_eq, not_true_eq_false, if_false]
        refine ⟨mem, rfl, ⟨rfl, hv, fun _ _ _ => Iff.rfl⟩, fun x => ?_⟩
        refine (or_iff_left_of_imp ?_).symm
        rintro rfl
        simp [h]
    | @step n _ j _ hj hne h =>
      obtain ⟨mem', hc, hcomp, ht⟩ := ih (hv.below _ _ hi hj) h (by omega)
      have hi' : i < mem'.length := hcomp.length ▸ hi
      refine ⟨set mem' i r, by simp [hj, hne, hc], ?_, fun x => ?_⟩
      · refine hcomp.trans (compressed_set hcomp.valid hi' ?_)
        exact (hcomp.rep i r hi).mpr (Rep.step hj ⟨n, h⟩)
      · rw [touched_set hi', ht]
        refine or_iff_left_of_imp ?_
        rintro rfl
        exact Or.inl (by simp [hj])

theorem representative_spec (hv : Valid mem) (hi : i < mem.length) :
    ∃ r mem', representative mem i = some (r, mem') ∧ Compressed mem mem' ∧
      Rep (parent mem) i r ∧ r < mem.length ∧
      ∀ x, parent mem' x ≠ none ↔ parent mem x ≠ none ∨ Rep (parent mem) i x := by
  obtain ⟨r, n, h⟩ := hv.rep i hi
  obtain ⟨mem', hc, hcomp, ht⟩ := climb_spec hv hi h (h.lt hv.below hi)
  refine ⟨r, mem', hc, hcomp, ⟨n, h⟩, hv.rep_lt hi ⟨n, h⟩, fun x => ?_⟩
  rw [ht]
  exact or_congr_right ⟨fun hx => hx ▸ ⟨n, h⟩, fun hx => hx.unique ⟨n, h⟩⟩

theorem two_representatives (hv : Valid mem) (ha : a < mem.length) (hb : b < mem.length) :
    ∃ ra m₁ rb m₂, representative mem a = some (ra, m₁) ∧ representative m₁ b = some (rb, m₂) ∧
      Compressed mem m₂ ∧ Rep (parent mem) a ra ∧ Rep (parent mem) b rb ∧
      ra < mem.length ∧ rb < mem.length ∧
      ∀ x, parent m₂ x ≠ none ↔
        parent mem x ≠ none ∨ Rep (parent mem) a x ∨ Rep (parent mem) b x := by
  obtain ⟨ra, m₁, h₁, hc₁, hra, hra', ht₁⟩ := representative_spec hv ha
  obtain ⟨rb, m₂, h₂, hc₂, hrb, hrb', ht₂⟩ := representative_spec hc₁.valid (hc₁.length ▸ hb)
  refine ⟨ra, m₁, rb, m₂, h₁, h₂, hc₁.trans hc₂, hra, (hc₁.rep b rb hb).mp hrb, hra',
    hc₁.length ▸ hrb', fun x => ?_⟩
  rw [ht₂, ht₁, hc₁.rep b x hb, or_assoc]

theorem sameSet_spec (hv : Valid mem) (ha : a < mem.length) (hb : b < mem.length) :
    ∃ same mem', sameSet mem a b = some (same, mem') ∧ Compressed mem mem' ∧
      (same = true ↔ SameRoot (parent mem) a b) ∧
      ∀ x, parent mem' x ≠ none ↔
        parent mem x ≠ none ∨ Rep (parent mem) a x ∨ Rep (parent mem) b x := by
  obtain ⟨ra, m₁, rb, m₂, h₁, h₂, hc, hra, hrb, -, -, ht⟩ := two_representatives hv ha hb
  refine ⟨ra == rb, m₂, by simp [sameSet, h₁, h₂], hc, ?_, ht⟩
  rw [beq_iff_eq]
  constructor
  · rintro rfl
    exact ⟨ra, hra, hrb⟩
  · rintro ⟨s, hs, hs'⟩
    rw [hra.unique hs, hrb.unique hs']

/-- After a merge the two classes are one, with the root of the first. -/
theorem merge_spec (hv : Valid mem) (ha : a < mem.length) (hb : b < mem.length) :
    ∃ ra rb mem', merge mem a b = some mem' ∧ mem'.length = mem.length ∧ Valid mem' ∧
      Rep (parent mem) a ra ∧ Rep (parent mem) b rb ∧
      (∀ i r, i < mem.length → Rep (parent mem) i r →
        Rep (parent mem') i (if r = rb then ra else r)) ∧
      ∀ x, parent mem' x ≠ none ↔
        parent mem x ≠ none ∨ Rep (parent mem) a x ∨ Rep (parent mem) b x := by
  obtain ⟨ra, m₁, rb, m₂, h₁, h₂, hc, hra, hrb, hra', hrb', ht⟩ := two_representatives hv ha hb
  have hl : m₂.length = mem.length := hc.length
  have hroota : Rep (parent m₂) a ra := (hc.rep a ra ha).mpr hra
  have hrootb : Rep (parent m₂) b rb := (hc.rep b rb hb).mpr hrb
  have hmove : ∀ i r, i < mem.length → Rep (parent mem) i r →
      Rep (parent (set m₂ rb ra)) i (if r = rb then ra else r) := by
    intro i r hi hr
    rw [parent_set (hl ▸ hrb')]
    exact Rep.merge hroota.isRoot hrootb.isRoot ((hc.rep i r hi).mpr hr)
  refine ⟨ra, rb, set m₂ rb ra, by simp [merge, h₁, h₂], by simp [hl], ⟨?_, ?_⟩, hra, hrb, hmove,
    fun x => ?_⟩
  · intro i j hi hj
    rw [parent_set (hl ▸ hrb')] at hj
    rw [length_set] at hi ⊢
    by_cases hib : i = rb
    · subst hib
      rw [Function.update_self] at hj
      exact Option.some.inj hj ▸ hl ▸ hra'
    · rw [Function.update_of_ne hib] at hj
      exact hc.valid.below i j hi hj
  · intro i hi
    rw [length_set, hl] at hi
    obtain ⟨r, hr⟩ := hv.rep i hi
    exact ⟨_, hmove i r hi hr⟩
  · rw [touched_set (hl ▸ hrb'), ht]
    refine or_iff_left_of_imp ?_
    rintro rfl
    exact Or.inr (Or.inr hrb)

end DisjointSet
