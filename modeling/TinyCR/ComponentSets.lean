import TinyCR.DisjointSet
import TinyCR.EdgeForest

/-! # The disjoint set follows the components

The classes of the disjoint set are the components of a graph on the same nodes: through
`sameSet` and `merge` when an edge comes, and through the repair when an edge has gone. -/
namespace ComponentSets

open ParentPointers DisjointSet EdgeForest

variable {ε : Type*} {G H : ε → ℕ → ℕ → Prop} {mem mem' : Mem} {N a b u v : ℕ}

structure Components (mem : Mem) (N : ℕ) (G : ε → ℕ → ℕ → Prop) : Prop where
  valid : Valid mem
  length : mem.length = N
  same : ∀ u v, u < N → v < N → (SameRoot (parent mem) u v ↔ Linked G u v)

theorem Components.congr (h : Components mem N G) (hGH : ∀ u v, Linked G u v ↔ Linked H u v) :
    Components mem N H :=
  ⟨h.valid, h.length, fun u v hu hv => (h.same u v hu hv).trans (hGH u v)⟩

theorem sameRoot_iff {p q : ℕ → Option ℕ} (h : ∀ i r, i < N → (Rep q i r ↔ Rep p i r))
    (hu : u < N) (hv : v < N) : SameRoot q u v ↔ SameRoot p u v := by
  simp only [SameRoot, h u _ hu, h v _ hv]

theorem Components.compressed (h : Components mem N G) (hc : Compressed mem mem') :
    Components mem' N G := by
  refine ⟨hc.valid, hc.length.trans h.length, fun u v hu hv => ?_⟩
  rw [← h.same u v hu hv]
  exact sameRoot_iff (fun i r hi => hc.rep i r (h.length ▸ hi)) hu hv

theorem components_reset (hG : ∀ e u v, ¬ G e u v) (hl : mem.length = N) :
    Components (reset mem) N G := by
  refine ⟨valid_reset mem, (length_reset mem).trans hl, fun u v _ _ => ?_⟩
  have hself : ∀ i, Rep (parent (reset mem)) i i := fun i => Rep.self (by simp)
  constructor
  · rintro ⟨r, hu, hv⟩
    rw [← (hself u).unique hu] at hv
    rw [(hself v).unique hv]
    exact Linked.refl u
  · intro h
    induction h with
    | refl => exact ⟨u, hself u, hself u⟩
    | tail _ h => exact absurd h.choose_spec (hG _ _ _)

theorem Components.sameSet (h : Components mem N G) (ha : a < N) (hb : b < N) :
    ∃ same mem', sameSet mem a b = some (same, mem') ∧ Components mem' N G ∧
      (same = true ↔ Linked G a b) ∧ Compressed mem mem' ∧
      ∀ x, parent mem' x ≠ none ↔
        parent mem x ≠ none ∨ Rep (parent mem) a x ∨ Rep (parent mem) b x := by
  obtain ⟨same, mem', hs, hc, hsame, ht⟩ :=
    sameSet_spec h.valid (h.length ▸ ha) (h.length ▸ hb)
  exact ⟨same, mem', hs, h.compressed hc, hsame.trans (h.same a b ha hb), hc, ht⟩

theorem Components.merge (h : Components mem N G) (ha : a < N) (hb : b < N) (e₀ : ε) :
    ∃ ra rb mem', merge mem a b = some mem' ∧ Components mem' N (withEdge G e₀ a b) ∧
      Rep (parent mem) a ra ∧ Rep (parent mem) b rb ∧
      (∀ i r, i < N → Rep (parent mem) i r → Rep (parent mem') i (if r = rb then ra else r)) ∧
      ∀ x, parent mem' x ≠ none ↔
        parent mem x ≠ none ∨ Rep (parent mem) a x ∨ Rep (parent mem) b x := by
  obtain ⟨ra, rb, mem', hm, hl, hv', hra, hrb, hmove, ht⟩ :=
    merge_spec h.valid (h.length ▸ ha) (h.length ▸ hb)
  rw [h.length] at hl hmove
  refine ⟨ra, rb, mem', hm, ⟨hv', hl, fun u v hu hv => ?_⟩, hra, hrb, hmove, ht⟩
  have hrep : ∀ i, i < N → ∃ r, Rep (parent mem) i r := fun i hi =>
    h.valid.rep i (h.length ▸ hi)
  obtain ⟨ru, hru⟩ := hrep u hu
  obtain ⟨rv, hrv⟩ := hrep v hv
  have hold : ∀ {i j r s}, i < N → j < N → Rep (parent mem) i r → Rep (parent mem) j s →
      (r = s ↔ Linked G i j) := by
    intro i j r s hi hj hr hs
    rw [← h.same i j hi hj]
    constructor
    · rintro rfl
      exact ⟨r, hr, hs⟩
    · rintro ⟨t, ht, ht'⟩
      rw [hr.unique ht, hs.unique ht']
  have hnew : SameRoot (parent mem') u v ↔
      (if ru = rb then ra else ru) = (if rv = rb then ra else rv) := by
    constructor
    · rintro ⟨t, ht, ht'⟩
      rw [(hmove u ru hu hru).unique ht, (hmove v rv hv hrv).unique ht']
    · intro heq
      exact ⟨_, hmove u ru hu hru, heq ▸ hmove v rv hv hrv⟩
  rw [hnew, linked_with_edge, ← hold hu hv hru hrv, ← hold hu ha hru hra, ← hold hb hv hrb hrv,
    ← hold hu hb hru hrb, ← hold ha hv hra hrv]
  by_cases h1 : ru = rb
  · by_cases h2 : rv = rb
    · simp [h1, h2]
    · simp [h1, h2]
      grind
  · by_cases h2 : rv = rb
    · simp [h1, h2]
    · simp [h1, h2]
      grind

def Endpoint (G : ε → ℕ → ℕ → Prop) (u : ℕ) : Prop := ∃ e w, G e u w

theorem endpoint_of_linked (hG : Undirected G) (h : Linked G u v) (hne : v ≠ u) :
    Endpoint G v := by
  rcases Relation.ReflTransGen.cases_tail h with heq | ⟨w, -, e, he⟩
  · exact absurd heq hne
  · exact ⟨e, w, hG.symm he⟩

/-- Only ends of edges have parents, and their roots are in `A` and point at themselves. -/
structure RootsIn (A : ℕ → Prop) (mem : Mem) (G : ε → ℕ → ℕ → Prop) : Prop where
  touched : ∀ i, parent mem i ≠ none → Endpoint G i
  root : ∀ i r, Endpoint G i → Rep (parent mem) i r → A r
  explicit : ∀ i r, Endpoint G i → Rep (parent mem) i r → parent mem r ≠ none

theorem rootsIn_reset (A : ℕ → Prop) (hG : ∀ e u v, ¬ G e u v) : RootsIn A (reset mem) G := by
  refine ⟨fun i h => absurd ?_ h, fun i r ⟨e, w, h⟩ => absurd h (hG e i w),
    fun i r ⟨e, w, h⟩ => absurd h (hG e i w)⟩
  simp

theorem RootsIn.isRoot {A : ℕ → Prop} (h : RootsIn A mem G) {i : ℕ} (hi : isRoot mem i = true) :
    A i := by
  have hp : parent mem i = some i := by simpa [DisjointSet.isRoot] using hi
  exact h.root i i (h.touched i (by simp [hp])) (Rep.self (Or.inr hp))

theorem RootsIn.isRoot_of_rep {A : ℕ → Prop} (h : RootsIn A mem G) {i r : ℕ}
    (hi : Endpoint G i) (hr : Rep (parent mem) i r) : DisjointSet.isRoot mem r = true := by
  rcases hr.isRoot with hnone | hself
  · exact absurd hnone (h.explicit i r hi hr)
  · simp [DisjointSet.isRoot, hself]

theorem touched_trans {mem₁ mem₂ : Mem} (hcomp : Compressed mem mem₁) (ha : a < mem.length)
    (hb : b < mem.length)
    (ht₁ : ∀ x, parent mem₁ x ≠ none ↔
      parent mem x ≠ none ∨ Rep (parent mem) a x ∨ Rep (parent mem) b x)
    (ht₂ : ∀ x, parent mem₂ x ≠ none ↔
      parent mem₁ x ≠ none ∨ Rep (parent mem₁) a x ∨ Rep (parent mem₁) b x) (x : ℕ) :
    parent mem₂ x ≠ none ↔ parent mem x ≠ none ∨ Rep (parent mem) a x ∨ Rep (parent mem) b x := by
  rw [ht₂, ht₁, hcomp.rep a x ha, hcomp.rep b x hb, or_assoc, or_self]

/-- A merge for a new edge from `a` in `A`, maybe after a lookup: the roots stay in `A`. -/
theorem RootsIn.merge {A : ℕ → Prop} {mem₁ mem₂ : Mem} (h : RootsIn A mem G)
    (hc : Components mem N G) (hG : Undirected G) (hN : ∀ e u v, G e u v → u < N) (ha : a < N)
    (hb : b < N) (hA : A a) (e₀ : ε) (hcomp : Compressed mem mem₁)
    {ra rb : ℕ} (hra : Rep (parent mem₁) a ra) (hrb : Rep (parent mem₁) b rb)
    (hmove : ∀ i r, i < N → Rep (parent mem₁) i r →
      Rep (parent mem₂) i (if r = rb then ra else r))
    (ht : ∀ x, parent mem₂ x ≠ none ↔
      parent mem x ≠ none ∨ Rep (parent mem) a x ∨ Rep (parent mem) b x) :
    RootsIn A mem₂ (withEdge G e₀ a b) := by
  have hold : ∀ i, Endpoint G i → Endpoint (withEdge G e₀ a b) i :=
    fun i ⟨e, w, h⟩ => ⟨e, w, Or.inl h⟩
  have hena : Endpoint (withEdge G e₀ a b) a := ⟨e₀, b, Or.inr ⟨rfl, Or.inl ⟨rfl, rfl⟩⟩⟩
  have henb : Endpoint (withEdge G e₀ a b) b := ⟨e₀, a, Or.inr ⟨rfl, Or.inr ⟨rfl, rfl⟩⟩⟩
  have hback : ∀ i r, i < N → (Rep (parent mem₁) i r ↔ Rep (parent mem) i r) := fun i r hi =>
    hcomp.rep i r (hc.length ▸ hi)
  -- the root of an end of the new edge is an end of an edge as well
  have hrootEnd : ∀ c x, c < N → Endpoint (withEdge G e₀ a b) c → Rep (parent mem) c x →
      Endpoint (withEdge G e₀ a b) x := by
    intro c x hcN hend hx
    by_cases hxc : x = c
    · rw [hxc]; exact hend
    · have hxN : x < N := hc.length ▸ hc.valid.rep_lt (hc.length.symm ▸ hcN) hx
      exact hold x (endpoint_of_linked hG
        ((hc.same c x hcN hxN).mp ⟨x, hx, Rep.self hx.isRoot⟩) hxc)
  have hraA : A ra := by
    have hx := (hback a ra ha).mp hra
    by_cases hend : Endpoint G a
    · exact h.root a ra hend hx
    · have hp : parent mem a = none := by
        by_contra hp
        exact hend (h.touched a hp)
      rw [← (Rep.self (Or.inl hp)).unique hx]
      exact hA
  have hlt : ∀ i, Endpoint (withEdge G e₀ a b) i → i < N := by
    rintro i ⟨e, w, he | ⟨-, ⟨rfl, -⟩ | ⟨rfl, -⟩⟩⟩
    exacts [hN e i w he, ha, hb]
  -- where the new root of an end of an edge comes from
  have hcases : ∀ i r, Endpoint (withEdge G e₀ a b) i → Rep (parent mem₂) i r →
      ∃ s, Rep (parent mem₁) i s ∧ (if s = rb then ra else s) = r ∧
        (Endpoint G i ∨ i = a ∨ i = b) := by
    intro i r hi hr
    obtain ⟨s, hs⟩ := hc.valid.rep i (hc.length.symm ▸ hlt i hi)
    have hs₁ := (hback i s (hlt i hi)).mpr hs
    refine ⟨s, hs₁, (hmove i s (hlt i hi) hs₁).unique hr, ?_⟩
    obtain ⟨e, w, he | ⟨-, ⟨rfl, -⟩ | ⟨rfl, -⟩⟩⟩ := hi
    exacts [Or.inl ⟨e, w, he⟩, Or.inr (Or.inl rfl), Or.inr (Or.inr rfl)]
  refine ⟨?_, ?_, ?_⟩
  · intro i hi
    have hab : ∀ x, Rep (parent mem) a x ∨ Rep (parent mem) b x →
        Endpoint (withEdge G e₀ a b) x := by
      rintro x (hx | hx)
      · exact hrootEnd a x ha hena hx
      · exact hrootEnd b x hb henb hx
    rcases (ht i).mp hi with hi | hi
    · exact hold i (h.touched i hi)
    · exact hab i hi
  · intro i r hi hr
    obtain ⟨s, hs, rfl, hsi⟩ := hcases i r hi hr
    split
    case isTrue => exact hraA
    case isFalse hne =>
      rcases hsi with hend | rfl | rfl
      · exact h.root i s hend ((hback i s (hlt i hi)).mp hs)
      · exact hs.unique hra ▸ hraA
      · exact absurd (hs.unique hrb) hne
  · intro i r hi hr
    obtain ⟨s, hs, rfl, hsi⟩ := hcases i r hi hr
    rw [ht]
    split
    case isTrue => exact Or.inr (Or.inl ((hback a ra ha).mp hra))
    case isFalse hne =>
      rcases hsi with hend | rfl | rfl
      · exact Or.inl (h.explicit i s hend ((hback i s (hlt i hi)).mp hs))
      · exact Or.inr (Or.inl ((hback i s ha).mp hs))
      · exact absurd (hs.unique hrb) hne

theorem parent_foldl_set {τ : Type*} (child : τ → ℕ) (D : List τ) (root : ℕ)
    (mem : DisjointSet.Mem) (hlt : ∀ t ∈ D, child t < mem.length) (v : ℕ) :
    parent (D.foldl (fun m t => set m (child t) root) mem) v =
      (if v ∈ D.map child then some root else parent mem v) ∧
    (D.foldl (fun m t => set m (child t) root) mem).length = mem.length := by
  induction D generalizing mem with
  | nil => simp
  | cons t D ih =>
    have ht : child t < mem.length := hlt t (by simp)
    obtain ⟨ih1, ih2⟩ := @ih (set mem (child t) root) fun s hs => by
      rw [length_set]
      exact hlt s (List.mem_cons_of_mem _ hs)
    rw [List.foldl_cons, ih1, ih2, length_set, parent_set ht]
    refine ⟨?_, rfl⟩
    by_cases hv : v ∈ D.map child
    · rw [if_pos hv, if_pos (by simp [hv])]
    · rw [if_neg hv]
      by_cases hvt : v = child t
      · rw [hvt, Function.update_self, if_pos (by simp)]
      · rw [Function.update_of_ne hvt, if_neg (by simpa [hvt] using hv)]

/-- The class of `a` and `b` is cut in two: the parts are pointed at `a` and `b`. -/
theorem Components.split (h : Components mem N G) (hH : Undirected H)
    (hsub : ∀ u v, Linked H u v → Linked G u v)
    (hrest : ∀ u v, ¬ Linked G a u → Linked G u v → Linked H u v)
    (hcut : ∀ v, Linked G a v → Linked H a v ∨ Linked H b v) (hab : Linked G a b)
    (hsep : ¬ Linked H a b) (hGG : Undirected G) (ha : a < N) (hb : b < N)
    (hl : mem'.length = N)
    (hpa : ∀ v, v < N → Linked H a v → parent mem' v = some a)
    (hpb : ∀ v, v < N → Linked H b v → parent mem' v = some b)
    (hpo : ∀ v, v < N → ¬ Linked H a v → ¬ Linked H b v → parent mem' v = parent mem v) :
    Components mem' N H := by
  have hself : ∀ c, c < N → (parent mem' c = some c) → Rep (parent mem') c c := fun c _ h =>
    Rep.self (Or.inr h)
  have hra := hself a ha (hpa a ha (Linked.refl a))
  have hrb := hself b hb (hpb b hb (Linked.refl b))
  -- representatives after the repair, by the part a node is in
  have hrepa : ∀ v, v < N → Linked H a v → Rep (parent mem') v a := fun v hv hv' =>
    Rep.step (hpa v hv hv') hra
  have hrepb : ∀ v, v < N → Linked H b v → Rep (parent mem') v b := fun v hv hv' =>
    Rep.step (hpb v hv hv') hrb
  have hrootG : ∀ v r, v < N → Rep (parent mem) v r → r < N ∧ Linked G v r := fun v r hv hr =>
    have hrN : r < N := h.length ▸ h.valid.rep_lt (h.length.symm ▸ hv) hr
    ⟨hrN, (h.same v r hv hrN).mp ⟨r, hr, Rep.self hr.isRoot⟩⟩
  have hrepo : ∀ v r, v < N → ¬ Linked G a v → Rep (parent mem) v r → Rep (parent mem') v r := by
    intro v r hv hav hr
    refine hr.frame fun j hj => ?_
    have hjN : j < N := by
      by_contra hge
      have hp : parent mem j = none := by simp [parent, h.length, Nat.le_of_not_lt hge]
      rw [(Rep.self (Or.inl hp)).unique hj] at hge
      exact hge (hrootG v r hv hr).1
    have hvj : Linked G v j := (h.same v j hv hjN).mp ⟨r, hr, hj⟩
    have haj : ¬ Linked G a j := fun haj => hav (haj.trans (hvj.symm hGG))
    exact hpo j hjN (fun hc => haj (hsub _ _ hc)) fun hc => haj (hab.trans (hsub _ _ hc))
  have hcases : ∀ v, v < N → (Linked H a v ∧ Rep (parent mem') v a) ∨
      (Linked H b v ∧ Rep (parent mem') v b) ∨
      (¬ Linked G a v ∧ ∃ r, Rep (parent mem) v r ∧ Rep (parent mem') v r) := by
    intro v hv
    by_cases hav : Linked G a v
    · rcases hcut v hav with hv' | hv'
      · exact Or.inl ⟨hv', hrepa v hv hv'⟩
      · exact Or.inr (Or.inl ⟨hv', hrepb v hv hv'⟩)
    · obtain ⟨r, hr⟩ := h.valid.rep v (h.length.symm ▸ hv)
      exact Or.inr (Or.inr ⟨hav, r, hr, hrepo v r hv hav hr⟩)
  -- a node outside the old class has a root outside it
  have hout : ∀ v c r, v < N → ¬ Linked G a v → Linked G a c → Rep (parent mem) v r → r ≠ c := by
    rintro v c r hv hav hac hr rfl
    exact hav (hac.trans ((hrootG v r hv hr).2.symm hGG))
  have haG : Linked G a a := Linked.refl a
  refine ⟨⟨?_, fun v hv => ?_⟩, hl, fun u v hu hv => ?_⟩
  · intro v j hv hj
    rw [hl] at hv ⊢
    rcases hcases v hv with ⟨hv', -⟩ | ⟨hv', -⟩ | ⟨hv', -⟩
    · rw [hpa v hv hv'] at hj
      exact Option.some.inj hj ▸ ha
    · rw [hpb v hv hv'] at hj
      exact Option.some.inj hj ▸ hb
    · rw [hpo v hv (fun hc => hv' (hsub _ _ hc)) fun hc => hv' (hab.trans (hsub _ _ hc))] at hj
      exact h.length ▸ h.valid.below v j (h.length.symm ▸ hv) hj
  · rw [hl] at hv
    rcases hcases v hv with ⟨-, hr⟩ | ⟨-, hr⟩ | ⟨-, r, -, hr⟩
    exacts [⟨a, hr⟩, ⟨b, hr⟩, ⟨r, hr⟩]
  · have hHs : ∀ {x y}, Linked H x y → Linked H y x := fun hc => hc.symm hH
    have hba : ¬ Linked H b a := fun hc => hsep (hHs hc)
    have hne : a ≠ b := by
      rintro rfl
      exact hsep (Linked.refl a)
    constructor
    · rintro ⟨r, hru, hrv⟩
      rcases hcases u hu with ⟨hu', ku⟩ | ⟨hu', ku⟩ | ⟨hu', s, ks, ku⟩ <;>
        rcases hcases v hv with ⟨hv', kv⟩ | ⟨hv', kv⟩ | ⟨hv', t, kt, kv⟩ <;>
        have heq := (ku.unique hru).trans (kv.unique hrv).symm
      · exact (hHs hu').trans hv'
      · exact absurd heq hne
      · exact absurd heq.symm (hout v a t hv hv' haG kt)
      · exact absurd heq.symm hne
      · exact (hHs hu').trans hv'
      · exact absurd heq.symm (hout v b t hv hv' hab kt)
      · exact absurd heq (hout u a s hu hu' haG ks)
      · exact absurd heq (hout u b s hu hu' hab ks)
      · exact hrest u v hu' ((h.same u v hu hv).mp ⟨s, ks, heq ▸ kt⟩)
    · intro huv
      rcases hcases u hu with ⟨hu', ku⟩ | ⟨hu', ku⟩ | ⟨hu', s, ks, ku⟩ <;>
        rcases hcases v hv with ⟨hv', kv⟩ | ⟨hv', kv⟩ | ⟨hv', t, kt, kv⟩
      · exact ⟨a, ku, kv⟩
      · exact absurd ((hu'.trans huv).trans (hHs hv')) hsep
      · exact absurd (hsub _ _ (hu'.trans huv)) hv'
      · exact absurd ((hu'.trans huv).trans (hHs hv')) hba
      · exact ⟨b, ku, kv⟩
      · exact absurd (hab.trans (hsub _ _ (hu'.trans huv))) hv'
      · exact absurd (hsub _ _ (hv'.trans (hHs huv))) hu'
      · exact absurd (hab.trans (hsub _ _ (hv'.trans (hHs huv)))) hu'
      · obtain ⟨r, hr, hr'⟩ := (h.same u v hu hv).mpr (hsub _ _ huv)
        rw [← ks.unique hr] at hr'
        rw [kt.unique hr'] at kv
        exact ⟨s, ku, kv⟩

end ComponentSets
