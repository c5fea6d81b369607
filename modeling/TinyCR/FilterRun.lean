import TinyCR.VacuumFilter

/-! # Runs of the vacuum filter

Any sequence of `insert`, `del` and `lookup` on a fresh small filter keeps it the multiset
of its elements. Elements come and go as the return values say, so an element that was
inserted more often than deleted is found. -/
namespace FilterRun

open VacuumFilter

inductive Op
  | insert (ele : BitVec 64)
  | del (ele : BitVec 64)
  | lookup (ele : BitVec 64)
  deriving DecidableEq, Repr

variable {E : Type} (hash : HashUtil) (engine : RandomEngine E)

def step (f : VacuumFilter.Filter E) : Op → VacuumFilter.Filter E
  | .insert ele => (insert hash engine f ele).2
  | .del ele => (del hash f ele).2
  | .lookup _ => f

def run (f : VacuumFilter.Filter E) (ops : List Op) : VacuumFilter.Filter E :=
  ops.foldl (step hash engine) f

/-- Every insertion of the run returned 0. -/
def AllInserted : VacuumFilter.Filter E → List Op → Prop
  | _, [] => True
  | f, op :: ops =>
    (∀ ele, op = .insert ele → (insert hash engine f ele).1 = 0) ∧
      AllInserted (step hash engine f op) ops

def inserted (f : VacuumFilter.Filter E) (ops : List Op) : List (Sym2 ℕ × ℕ) :=
  ops.filterMap fun
    | .insert ele => some (element hash f ele)
    | _ => none

def deleted (f : VacuumFilter.Filter E) (ops : List Op) : List (Sym2 ℕ × ℕ) :=
  ops.filterMap fun
    | .del ele => some (element hash f ele)
    | _ => none

def nonZeroSlots (f : VacuumFilter.Filter E) : ℕ :=
  ∑ pos ∈ Finset.range f.n, (getBucket f pos).count

/-- The operations of `f` are those of the multiset `contents`. -/
structure ActsAsMultiset (f : VacuumFilter.Filter E) : Prop where
  filled : f.filled_cell = nonZeroSlots f
  insert : ∀ ele,
    ((VacuumFilter.insert hash engine f ele).1 = 0 ∧
      contents hash (VacuumFilter.insert hash engine f ele).2 =
        contents hash f + {element hash f ele}) ∨
    ((VacuumFilter.insert hash engine f ele).1 = 1 ∧
      ∃ x ∈ contents hash f + {element hash f ele},
        contents hash (VacuumFilter.insert hash engine f ele).2 =
          (contents hash f + {element hash f ele}).erase x)
  del : ∀ ele,
    (element hash f ele ∈ contents hash f ∧ (VacuumFilter.del hash f ele).1 = true ∧
      contents hash (VacuumFilter.del hash f ele).2 =
        (contents hash f).erase (element hash f ele)) ∨
    (element hash f ele ∉ contents hash f ∧ VacuumFilter.del hash f ele = (false, f))
  lookup : ∀ ele, lookupAssertion hash f ele ∧
    (VacuumFilter.lookup hash f ele = true ↔ element hash f ele ∈ contents hash f)

variable {hash} {engine} {f : VacuumFilter.Filter E}

theorem card_contents (f : VacuumFilter.Filter E) : (contents hash f).card = nonZeroSlots f := by
  rw [contents, nonZeroSlots, Multiset.card_sum]
  refine Finset.sum_congr rfl fun pos _ => ?_
  rw [slotElements, Multiset.card_map, Multiset.filter_coe, Multiset.coe_card,
    ← List.countP_eq_length_filter]
  rfl

theorem operable_actsAsMultiset (hv : Operable hash f) : ActsAsMultiset hash engine f where
  filled := by rw [hv.filled, card_contents]
  insert ele := by
    rcases (hv.insert_spec engine ele).result with h | ⟨h1, x, hx⟩
    · exact Or.inl h
    · refine Or.inr ⟨h1, x, ?_, ?_⟩
      · rw [← hx]
        exact Multiset.mem_add.mpr (Or.inr (Multiset.mem_singleton_self x))
      · rw [← hx, Multiset.add_comm, Multiset.singleton_add, Multiset.erase_cons_head]
  del ele := by
    rcases hv.del_spec ele with ⟨hmem, h1, -, -, hc⟩ | h
    · refine Or.inl ⟨hmem, h1, ?_⟩
      rw [← hc, Multiset.add_comm, Multiset.singleton_add, Multiset.erase_cons_head]
    · exact Or.inr h
  lookup ele := ⟨hv.lookupAssertion_holds ele, hv.lookup_spec ele⟩

theorem actsAsMultiset (hv : Valid hash f) : ActsAsMultiset hash engine f :=
  operable_actsAsMultiset hv.operable

variable (engine) in
theorem step_preserves_operable (hv : Operable hash f) (op : Op) :
    Operable hash (step hash engine f op) ∧ SameShape f (step hash engine f op) := by
  cases op with
  | insert ele =>
    have h := hv.insert_spec engine ele
    exact ⟨h.valid, h.shape⟩
  | del ele =>
    rw [step]
    rcases hv.del_spec ele with ⟨-, -, hv', hs, -⟩ | ⟨-, h⟩
    · exact ⟨hv', hs⟩
    · rw [h]
      exact ⟨hv, SameShape.refl f⟩
  | lookup ele => exact ⟨hv, SameShape.refl f⟩

variable (engine) in
theorem run_preserves_operable (hv : Operable hash f) (ops : List Op) :
    Operable hash (run hash engine f ops) ∧ SameShape f (run hash engine f ops) := by
  induction ops generalizing f with
  | nil => exact ⟨hv, SameShape.refl f⟩
  | cons op ops ih =>
    obtain ⟨hv', hs⟩ := step_preserves_operable engine hv op
    obtain ⟨hv'', hs'⟩ := ih hv'
    exact ⟨hv'', hs.trans hs'⟩

variable (engine) in
theorem run_preserves_valid (hv : Valid hash f) (ops : List Op) :
    Valid hash (run hash engine f ops) ∧ SameShape f (run hash engine f ops) := by
  obtain ⟨h, hs⟩ := run_preserves_operable engine hv.operable ops
  exact ⟨hv.of_shape hs h, hs⟩

theorem operable_count_run (hv : Operable hash f) (ops : List Op)
    (hall : AllInserted hash engine f ops) (x : Sym2 ℕ × ℕ) :
    (contents hash f).count x + (inserted hash f ops).count x ≤
      (contents hash (run hash engine f ops)).count x + (deleted hash f ops).count x := by
  induction ops generalizing f with
  | nil => simp [run, inserted, deleted]
  | cons op ops ih =>
    obtain ⟨hret, hall⟩ := hall
    obtain ⟨hv', hs⟩ := step_preserves_operable engine hv op
    have hrest := ih hv' hall
    rw [inserted, deleted, hs.element] at hrest
    have hrun : run hash engine f (op :: ops) = run hash engine (step hash engine f op) ops := rfl
    rw [hrun]
    cases op with
    | insert ele =>
      have hc : contents hash (step hash engine f (.insert ele)) =
          contents hash f + {element hash f ele} := by
        rcases (hv.insert_spec engine ele).result with ⟨-, hc⟩ | ⟨h1, -⟩
        · exact hc
        · rw [hret ele rfl] at h1
          exact absurd h1 (by decide)
      rw [hc, Multiset.count_add, Multiset.count_singleton] at hrest
      simp only [inserted, deleted, List.filterMap_cons, List.count_cons, beq_iff_eq]
      simp only [eq_comm (a := x)] at hrest
      omega
    | del ele =>
      simp only [inserted, deleted, List.filterMap_cons, List.count_cons, beq_iff_eq]
      rcases hv.del_spec ele with ⟨-, -, -, -, hc⟩ | ⟨-, h⟩
      · have hcount := congrArg (Multiset.count x) hc
        rw [Multiset.count_add, Multiset.count_singleton] at hcount
        simp only [eq_comm (a := x)] at hcount
        simp only [step] at hrest ⊢
        omega
      · simp only [step, h] at hrest ⊢
        omega
    | lookup ele => exact hrest

theorem count_run (hv : Valid hash f) (ops : List Op) (hall : AllInserted hash engine f ops)
    (x : Sym2 ℕ × ℕ) :
    (contents hash f).count x + (inserted hash f ops).count x ≤
      (contents hash (run hash engine f ops)).count x + (deleted hash f ops).count x :=
  operable_count_run hv.operable ops hall x

/-- Over whole runs from `init` the filter is a multiset, and if no insert has failed nothing
inserted and not deleted is reported absent. -/
theorem run_refines_multiset (properAltRange : ℕ → ℕ → ℤ) (f₀ : VacuumFilter.Filter E)
    (n step fp_length : ℕ)
    (heven : n % 2 = 0) (h2 : 2 ≤ n) (hsmall : n < 1315800) (hfp : 4 ≤ fp_length ∧ fp_length ≤ 16)
    (ops : List Op) :
    ActsAsMultiset hash engine
        (run hash engine (init engine properAltRange f₀ n 4 step fp_length) ops) ∧
      (AllInserted hash engine (init engine properAltRange f₀ n 4 step fp_length) ops →
        ∀ ele, (deleted hash (init engine properAltRange f₀ n 4 step fp_length) ops).count
            (element hash (init engine properAltRange f₀ n 4 step fp_length) ele) <
          (inserted hash (init engine properAltRange f₀ n 4 step fp_length) ops).count
            (element hash (init engine properAltRange f₀ n 4 step fp_length) ele) →
        lookup hash (run hash engine (init engine properAltRange f₀ n 4 step fp_length) ops) ele =
          true) := by
  obtain ⟨hv, h0⟩ := init_valid hash engine properAltRange f₀ step
    (by omega : 0 < n) (by omega) hfp
  obtain ⟨hv', hs⟩ := run_preserves_valid engine hv ops
  refine ⟨actsAsMultiset hv', fun hall ele hlt => ?_⟩
  have hcount := count_run hv ops hall
    (element hash (init engine properAltRange f₀ n 4 step fp_length) ele)
  rw [h0, Multiset.count_zero] at hcount
  rw [lookup_spec hv', hs.element, ← Multiset.one_le_count_iff_mem]
  omega

theorem run_refines_multiset_two_buckets :
    ActsAsMultiset ⟨id, id⟩ (⟨fun n => (n, n + 1), 1⟩ : RandomEngine ℕ)
      (run ⟨id, id⟩ ⟨fun n => (n, n + 1), 1⟩
        (init ⟨fun n => (n, n + 1), 1⟩ (fun _ _ => 8)
          ⟨0, 0, 0, 0, 0, [], true, 0, 1, [], ⟨id, id⟩, 0, 0⟩ 2 4 400 4)
        [.insert 5#64, .del 7#64, .lookup 5#64]) :=
  (run_refines_multiset (fun _ _ => 8) _ 2 400 4 (by decide) (by decide) (by decide) (by decide)
    _).1

end FilterRun
