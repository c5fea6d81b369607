import TinyCR.EdgeForest
import Mathlib.Logic.Function.Basic

/-! # Labels of edges as differences of nodes

In a forest every assignment of labels to edges is the difference of some assignment to
nodes. The labels are set along a traversal, or changed at one edge by moving one half of
its tree; the nodes live in a store that is read and written cell by cell. -/
namespace EdgeLabels

open EdgeForest

variable {ε ν α μ : Type*}

/-- An operation like exclusive or: applied twice it goes away. -/
structure Involutive (x : α → α → α) : Prop where
  assoc : ∀ a b c, x (x a b) c = x a (x b c)
  comm : ∀ a b, x a b = x b a
  cancel : ∀ a b, x a (x a b) = b

def Labelled (G : ε → ν → ν → Prop) (x : α → α → α) (f : ν → α) (val : ε → α) : Prop :=
  ∀ e u v, G e u v → x (f u) (f v) = val e

section Labels

variable {x : α → α → α} {G H : ε → ν → ν → Prop} {f f' : ν → α} {val val' : ε → α} {root a b : ν}
  {e₀ : ε} {skip : Option ε} {D : List (Visit ε ν)}

theorem Involutive.shift (hx : Involutive x) (d a b : α) : x (x d a) (x d b) = x a b := by
  rw [hx.comm d a, hx.assoc, hx.cancel]

theorem labelled_of_filled (val : ε → α) (f : ν → α) (hx : Involutive x) (hS : Spans G none root D)
    (hfill : ∀ t ∈ D, f t.child = x (val t.edge) (f t.parent)) {e : ε} {u v : ν}
    (he : G e u v) (hu : Linked G root u) : x (f u) (f v) = val e := by
  have hlinked : Linked (avoid G none) root u := hu.mono fun _ _ _ h => ⟨h, by simp⟩
  obtain ⟨t, ht, rfl, ⟨rfl, rfl⟩ | ⟨rfl, rfl⟩⟩ :=
    hS.closed u (hS.mem_iff.mpr hlinked) e v ⟨he, by simp⟩
  · rw [hfill t ht, hx.comm (val t.edge), hx.cancel]
  · rw [hfill t ht, hx.assoc, hx.comm, hx.assoc, hx.cancel]

/-- Moving the half of a tree on one side of `e₀` changes the label of `e₀` only. -/
theorem Labelled.half (hx : Involutive x) (hG : Undirected G) (hA : Acyclic G)
    (he₀ : G e₀ a b) (hS : Spans G (some e₀) a D) {d : α}
    (h : ∀ e u v, G e u v → e ≠ e₀ → x (f u) (f v) = val e)
    (hin : ∀ v, v ∈ a :: D.map Visit.child → f' v = x d (f v))
    (hout : ∀ e u v, G e u v → u ∉ a :: D.map Visit.child → f' u = f u)
    (h₀ : x (x d (f a)) (f b) = val e₀) : Labelled G x f' val := by
  have ha : f' a = x d (f a) := hin a (by simp)
  have hb : f' b = f b := hout e₀ b a (hG.symm he₀) fun hmem =>
    hA.not_linked_avoid hG he₀ (hS.mem_iff.mp hmem)
  intro e u v he
  by_cases hee : e = e₀
  · subst hee
    rcases hG.ends he₀ he with ⟨rfl, rfl⟩ | ⟨rfl, rfl⟩
    · rw [ha, hb, h₀]
    · rw [ha, hb, hx.comm, h₀]
  · have hav : avoid G (some e₀) e u v := ⟨he, fun heq => hee (Option.some.inj heq)⟩
    have hsame : u ∈ a :: D.map Visit.child ↔ v ∈ a :: D.map Visit.child := by
      rw [hS.mem_iff, hS.mem_iff]
      constructor
      · exact fun hu => hu.trans (Linked.edge hav)
      · exact fun hv => hv.trans (Linked.edge ((hG.avoid _).symm hav))
    by_cases hu : u ∈ a :: D.map Visit.child
    · rw [hin u hu, hin v (hsame.mp hu), hx.shift]
      exact h e u v he hee
    · rw [hout e u v he hu, hout e v u (hG.symm he) (fun hv => hu (hsame.mpr hv))]
      exact h e u v he hee

end Labels

/-- A store `m` holds `N` cells; a write is cut to what a cell can hold. -/
structure Store (N : ℕ) (ok : μ → Prop) (get : μ → ℕ → α) (set : μ → ℕ → α → μ)
    (norm : α → α) : Prop where
  ok_set : ∀ {m i v}, ok m → ok (set m i v)
  get_set : ∀ {m i j v}, ok m → i < N → j < N → get (set m i v) j =
    Function.update (get m) i (norm v) j

section Stores

variable {N : ℕ} {ok : μ → Prop} {get : μ → ℕ → α} {set : μ → ℕ → α → μ} {norm : α → α}
  {root : ℕ} {D : List (Visit ε ℕ)} {m : μ}

theorem Store.fill (hs : Store N ok get set norm) (hD : Grows root D) (hroot : root < N)
    (hlt : ∀ t ∈ D, t.child < N) (hm : ok m) (g : Visit ε ℕ → α → α) :
    ok (D.foldl (fun m t => set m t.child (g t (get m t.parent))) m) ∧
    (∀ t ∈ D, get (D.foldl (fun m t => set m t.child (g t (get m t.parent))) m) t.child =
      norm (g t (get (D.foldl (fun m t => set m t.child (g t (get m t.parent))) m) t.parent))) ∧
    ∀ v, v < N → v ∉ D.map Visit.child →
      get (D.foldl (fun m t => set m t.child (g t (get m t.parent))) m) v = get m v := by
  induction hD with
  | nil => simp [hm]
  | @snoc D t hD hp hc ih =>
    obtain ⟨hok, hfill, hrest⟩ := ih fun s hs => hlt s (List.mem_append_left _ hs)
    simp only [List.foldl_append, List.foldl_cons, List.foldl_nil]
    generalize D.foldl (fun m t => set m t.child (g t (get m t.parent))) m = m' at *
    have hnode : ∀ v ∈ root :: D.map Visit.child, v < N ∧ v ≠ t.child := by
      intro v hv
      refine ⟨?_, fun h => hc (h ▸ hv)⟩
      rcases List.mem_cons.mp hv with rfl | hv
      · exact hroot
      · obtain ⟨s, hs, rfl⟩ := List.mem_map.mp hv
        exact hlt s (List.mem_append_left _ hs)
    have ht : t.child < N := hlt t (by simp)
    have hkeep : ∀ v ∈ root :: D.map Visit.child,
        get (set m' t.child (g t (get m' t.parent))) v = get m' v := fun v hv => by
      rw [hs.get_set hok ht (hnode v hv).1, Function.update_of_ne (hnode v hv).2]
    refine ⟨hs.ok_set hok, ?_, ?_⟩
    · intro s hsm
      rcases List.mem_append.mp hsm with hsm | hsm
      · rw [hkeep _ (List.mem_cons_of_mem _ (List.mem_map_of_mem hsm)),
          hkeep _ (hD.parent_mem hsm), hfill s hsm]
      · obtain rfl : s = t := by simpa using hsm
        rw [hkeep _ hp, hs.get_set hok ht ht, Function.update_self]
    · intro v hv hvc
      simp only [List.map_append, List.mem_append, List.map_cons, List.map_nil,
        List.mem_singleton, not_or] at hvc
      rw [hs.get_set hok ht hv, Function.update_of_ne hvc.2, hrest v hv hvc.1]

theorem Store.fix (hs : Store N ok get set norm) (hD : Grows root D)
    (hlt : ∀ t ∈ D, t.child < N) (hm : ok m) (h : α → α) :
    ok (D.foldl (fun m t => set m t.child (h (get m t.child))) m) ∧
    ∀ v, v < N → get (D.foldl (fun m t => set m t.child (h (get m t.child))) m) v =
      if v ∈ D.map Visit.child then norm (h (get m v)) else get m v := by
  induction hD with
  | nil => simp [hm]
  | @snoc D t hD hp hc ih =>
    obtain ⟨hok, hval⟩ := ih fun s hs => hlt s (List.mem_append_left _ hs)
    simp only [List.foldl_append, List.foldl_cons, List.foldl_nil]
    have ht : t.child < N := hlt t (by simp)
    have htc : t.child ∉ D.map Visit.child := fun h => hc (List.mem_cons_of_mem _ h)
    refine ⟨hs.ok_set hok, fun v hv => ?_⟩
    rw [hs.get_set hok ht hv, hval _ ht, if_neg htc]
    by_cases hvt : v = t.child
    · rw [hvt, Function.update_self, if_pos (by simp)]
    · rw [Function.update_of_ne hvt, hval v hv]
      simp only [List.map_append, List.mem_append, List.map_cons, List.map_nil,
        List.mem_singleton, hvt, or_false]

end Stores

end EdgeLabels
