import Mathlib.Data.Finset.Card
import Mathlib.Data.List.Nodup
import Mathlib.Logic.Relation

/-! # Forests of labelled edges and their traversal

A multigraph is a relation `G e u v`: edge `e` joins `u` and `v`. Parallel edges
count as a cycle. Nothing here depends on how the adjacency is stored. -/
namespace EdgeForest

variable {ε ν σ α : Type*}

structure Undirected (G : ε → ν → ν → Prop) : Prop where
  symm : ∀ {e u v}, G e u v → G e v u
  ends : ∀ {e u v x y}, G e u v → G e x y → (x = u ∧ y = v) ∨ (x = v ∧ y = u)

/-- An edge sequence that uses no edge twice. -/
inductive Trail (G : ε → ν → ν → Prop) : List ε → ν → ν → Prop where
  | nil (v) : Trail G [] v v
  | cons {e es u w v} : G e u w → e ∉ es → Trail G es w v → Trail G (e :: es) u v

def Linked (G : ε → ν → ν → Prop) : ν → ν → Prop :=
  Relation.ReflTransGen fun u v => ∃ e, G e u v

def Acyclic (G : ε → ν → ν → Prop) : Prop := ∀ e es v, ¬ Trail G (e :: es) v v

/-- The graph without the edge `skip`, or the whole graph for `none`. -/
def avoid (G : ε → ν → ν → Prop) (skip : Option ε) : ε → ν → ν → Prop :=
  fun e u v => G e u v ∧ some e ≠ skip

def withEdge (G : ε → ν → ν → Prop) (e₀ : ε) (a b : ν) : ε → ν → ν → Prop :=
  fun e u v => G e u v ∨ (e = e₀ ∧ ((u = a ∧ v = b) ∨ (u = b ∧ v = a)))

variable {G H : ε → ν → ν → Prop}

theorem Linked.refl (u : ν) : Linked G u u := Relation.ReflTransGen.refl

theorem Linked.trans {u v x : ν} (h : Linked G u v) (k : Linked G v x) : Linked G u x :=
  Relation.ReflTransGen.trans h k

theorem Linked.edge {e : ε} {u v : ν} (h : G e u v) : Linked G u v :=
  Relation.ReflTransGen.single ⟨e, h⟩

theorem Linked.symm (hG : Undirected G) {u v : ν} (h : Linked G u v) : Linked G v u := by
  induction h with
  | refl => exact Linked.refl u
  | tail _ h ih =>
    obtain ⟨e, he⟩ := h
    exact (Linked.edge (hG.symm he)).trans ih

theorem Linked.relabel (hle : ∀ e u v, G e u v → ∃ e', H e' u v) {u v : ν} (h : Linked G u v) :
    Linked H u v := by
  induction h with
  | refl => exact Linked.refl u
  | tail _ h ih =>
    obtain ⟨e, he⟩ := h
    obtain ⟨e', he'⟩ := hle _ _ _ he
    exact ih.trans (Linked.edge he')

theorem Linked.mono (hle : ∀ e u v, G e u v → H e u v) {u v : ν} (h : Linked G u v) :
    Linked H u v :=
  h.relabel fun e _ _ he => ⟨e, hle _ _ _ he⟩

theorem Undirected.avoid (hG : Undirected G) (skip : Option ε) : Undirected (avoid G skip) :=
  ⟨fun h => ⟨hG.symm h.1, h.2⟩, fun h k => hG.ends h.1 k.1⟩

theorem Linked.of_avoid {skip : Option ε} {u v : ν} (h : Linked (avoid G skip) u v) :
    Linked G u v :=
  h.mono fun _ _ _ h => h.1

theorem Trail.linked {es : List ε} {u v : ν} (h : Trail G es u v) : Linked G u v := by
  induction h with
  | nil v => exact Linked.refl v
  | cons he _ _ ih => exact (Linked.edge he).trans ih

theorem Trail.exists_link {es : List ε} {u v : ν} (h : Trail G es u v) {e : ε} (he : e ∈ es) :
    ∃ x y, G e x y := by
  induction h with
  | nil => simp at he
  | cons hg _ _ ih =>
    rcases List.mem_cons.mp he with rfl | he
    · exact ⟨_, _, hg⟩
    · exact ih he

theorem Trail.split {es : List ε} {u v : ν} (h : Trail G es u v) {e : ε} (he : e ∈ es) :
    ∃ pre x y post, Trail G pre u x ∧ G e x y ∧ Trail G post y v ∧ e ∉ pre ∧ e ∉ post ∧
      pre ⊆ es ∧ post ⊆ es := by
  induction h with
  | nil => simp at he
  | @cons d ds u w v hg hd ht ih =>
    by_cases hde : e = d
    · subst e
      exact ⟨[], u, w, ds, .nil u, hg, ht, by simp, hd, by simp, List.subset_cons_self _ _⟩
    · obtain ⟨pre, x, y, post, hpre, hxy, hpost, hep, heq, hsub, hsub'⟩ :=
        ih (by simpa [hde] using he)
      exact ⟨d :: pre, x, y, post, .cons hg (fun h => hd (hsub h)) hpre, hxy, hpost,
        by simp [hde, hep], heq, List.cons_subset_cons _ hsub,
        fun z hz => List.mem_cons_of_mem _ (hsub' hz)⟩

theorem Trail.rename (f : ε → ε) (hle : ∀ e u v, G e u v → H (f e) u v)
    (hinj : ∀ e e' u v u' v', G e u v → G e' u' v' → f e = f e' → e = e')
    {es : List ε} {u v : ν} (h : Trail G es u v) : Trail H (es.map f) u v := by
  induction h with
  | nil v => exact .nil v
  | cons hg hne ht ih =>
    refine .cons (hle _ _ _ hg) ?_ ih
    intro hmem
    obtain ⟨e', he', hf⟩ := List.mem_map.mp hmem
    obtain ⟨x, y, hxy⟩ := ht.exists_link he'
    exact hne (hinj _ _ _ _ _ _ hg hxy hf.symm ▸ he')

theorem Trail.mono (hle : ∀ e u v, G e u v → H e u v) {es : List ε} {u v : ν}
    (h : Trail G es u v) : Trail H es u v := by
  simpa using h.rename id hle (fun _ _ _ _ _ _ _ _ h => h)

theorem Trail.avoiding {es : List ε} {u v : ν} (h : Trail G es u v) {e : ε} (he : e ∉ es) :
    Trail (avoid G (some e)) es u v := by
  induction h with
  | nil v => exact .nil v
  | cons hg hne _ ih =>
    rw [List.mem_cons, not_or] at he
    exact .cons ⟨hg, fun h => he.1 (Option.some.inj h).symm⟩ hne (ih he.2)

theorem Linked.trail (hG : Undirected G) {u v : ν} (h : Linked G u v) :
    ∃ es, Trail G es u v := by
  induction h using Relation.ReflTransGen.head_induction_on with
  | refl => exact ⟨[], .nil v⟩
  | @head u w h _ ih =>
    obtain ⟨e, he⟩ := h
    obtain ⟨es, hes⟩ := ih
    by_cases hm : e ∈ es
    · obtain ⟨pre, x, y, post, -, hxy, hpost, -, hne, -⟩ := hes.split hm
      rcases hG.ends he hxy with ⟨rfl, rfl⟩ | ⟨rfl, rfl⟩
      · exact ⟨e :: post, .cons he hne hpost⟩
      · exact ⟨post, hpost⟩
    · exact ⟨e :: es, .cons he hm hes⟩

theorem Acyclic.rename (hG : Acyclic H) (f : ε → ε) (hle : ∀ e u v, G e u v → H (f e) u v)
    (hinj : ∀ e e' u v u' v', G e u v → G e' u' v' → f e = f e' → e = e') : Acyclic G :=
  fun e es v h => hG (f e) (es.map f) v (h.rename f hle hinj)

theorem Acyclic.mono (hG : Acyclic H) (hle : ∀ e u v, G e u v → H e u v) : Acyclic G :=
  fun e es v h => hG e es v (h.mono hle)

theorem acyclic_of_empty (h : ∀ e u v, ¬ G e u v) : Acyclic G := by
  rintro e es v (_ | ⟨he, _, _⟩)
  exact h _ _ _ he

theorem Acyclic.not_linked_avoid (hA : Acyclic G) (hG : Undirected G) {e : ε} {a b : ν}
    (he : G e a b) : ¬ Linked (avoid G (some e)) a b := by
  intro h
  obtain ⟨es, hes⟩ := (h.symm (hG.avoid _)).trail (hG.avoid _)
  refine hA e es a (.cons he ?_ (hes.mono fun _ _ _ h => h.1))
  intro hm
  obtain ⟨x, y, hxy⟩ := hes.exists_link hm
  exact hxy.2 rfl

theorem Acyclic.with_edge (hA : Acyclic G) (hG : Undirected G) {e₀ : ε} {a b : ν}
    (hnew : ∀ u v, ¬ G e₀ u v) (hab : ¬ Linked G a b) : Acyclic (withEdge G e₀ a b) := by
  have hback : ∀ {es : List ε} {u v : ν}, Trail (withEdge G e₀ a b) es u v → e₀ ∉ es →
      Trail G es u v := by
    intro es u v h he
    refine (h.avoiding he).mono ?_
    rintro e x y ⟨h | ⟨rfl, _⟩, hne⟩
    · exact h
    · exact absurd rfl hne
  intro e es v h
  by_cases hm : e₀ ∈ e :: es
  · obtain ⟨pre, x, y, post, hpre, hxy, hpost, hep, heq, -⟩ := h.split hm
    have hyx : Linked G y x := (hback hpost heq).linked.trans (hback hpre hep).linked
    rcases hxy with hxy | ⟨-, ⟨rfl, rfl⟩ | ⟨rfl, rfl⟩⟩
    · exact hnew _ _ hxy
    · exact hab (hyx.symm hG)
    · exact hab hyx
  · exact hA e es v (hback h hm)

theorem linked_with_edge {e₀ : ε} {a b u v : ν} :
    Linked (withEdge G e₀ a b) u v ↔
      Linked G u v ∨ (Linked G u a ∧ Linked G b v) ∨ (Linked G u b ∧ Linked G a v) := by
  have hle : ∀ e x y, G e x y → withEdge G e₀ a b e x y := fun _ _ _ h => Or.inl h
  constructor
  · intro h
    induction h with
    | refl => exact Or.inl (Linked.refl u)
    | @tail x y _ h ih =>
      obtain ⟨e, h | ⟨-, ⟨rfl, rfl⟩ | ⟨rfl, rfl⟩⟩⟩ := h
      · have hxy := Linked.edge h
        exact ih.imp (·.trans hxy) (Or.imp (And.imp_right (·.trans hxy))
          (And.imp_right (·.trans hxy)))
      · rcases ih with ih | ⟨ih, -⟩ | ⟨ih, -⟩
        · exact Or.inr (Or.inl ⟨ih, Linked.refl y⟩)
        · exact Or.inr (Or.inl ⟨ih, Linked.refl y⟩)
        · exact Or.inl ih
      · rcases ih with ih | ⟨ih, -⟩ | ⟨ih, -⟩
        · exact Or.inr (Or.inr ⟨ih, Linked.refl y⟩)
        · exact Or.inl ih
        · exact Or.inr (Or.inr ⟨ih, Linked.refl y⟩)
  · have hab : Linked (withEdge G e₀ a b) a b :=
      Linked.edge (e := e₀) (Or.inr ⟨rfl, Or.inl ⟨rfl, rfl⟩⟩)
    have hba : Linked (withEdge G e₀ a b) b a :=
      Linked.edge (e := e₀) (Or.inr ⟨rfl, Or.inr ⟨rfl, rfl⟩⟩)
    rintro (h | ⟨h, k⟩ | ⟨h, k⟩)
    · exact h.mono hle
    · exact ((h.mono hle).trans hab).trans (k.mono hle)
    · exact ((h.mono hle).trans hba).trans (k.mono hle)

theorem linked_avoid_or (hG : Undirected G) {e : ε} {a b v : ν} (he : G e a b)
    (h : Linked G a v) :
    Linked (avoid G (some e)) a v ∨ Linked (avoid G (some e)) b v := by
  induction h with
  | refl => exact Or.inl (Linked.refl a)
  | @tail x y _ h ih =>
    obtain ⟨d, hd⟩ := h
    by_cases hde : d = e
    · subst d
      rcases hG.ends he hd with ⟨-, rfl⟩ | ⟨-, rfl⟩
      · exact Or.inr (Linked.refl _)
      · exact Or.inl (Linked.refl _)
    · have hxy : Linked (avoid G (some e)) x y := Linked.edge ⟨hd, by simpa using hde⟩
      exact ih.imp (·.trans hxy) (·.trans hxy)

theorem linked_avoid_of_not_linked (hG : Undirected G) {e : ε} {a b u v : ν} (he : G e a b)
    (hu : ¬ Linked G a u) (h : Linked G u v) : Linked (avoid G (some e)) u v := by
  induction h with
  | refl => exact Linked.refl u
  | @tail x y hux h ih =>
    obtain ⟨d, hd⟩ := h
    refine ih.trans (Linked.edge ⟨hd, ?_⟩)
    intro hde
    obtain rfl := Option.some.inj hde
    have hxu : Linked G x u := Linked.symm hG hux
    rcases hG.ends he hd with ⟨rfl, -⟩ | ⟨rfl, -⟩
    · exact hu hxu
    · exact hu ((Linked.edge he).trans hxu)

def firstEdges (ends : ℕ → ν × ν) (n : ℕ) : ℕ → ν → ν → Prop :=
  fun e u v => e < n ∧ (ends e = (u, v) ∨ ends e = (v, u))

section Numbered

variable {ends : ℕ → ν × ν} {n e : ℕ} {u v : ν}

theorem undirected_firstEdges (ends : ℕ → ν × ν) (n : ℕ) : Undirected (firstEdges ends n) where
  symm h := ⟨h.1, h.2.symm⟩
  ends := by
    rintro e u v x y ⟨-, h⟩ ⟨-, k⟩
    rcases h with h | h <;> rw [h] at k <;> rcases k with k | k <;>
      simp only [Prod.mk.injEq] at k <;> simp [k.1, k.2]

theorem firstEdges_succ : firstEdges ends (n + 1) e u v ↔
    withEdge (firstEdges ends n) n (ends n).1 (ends n).2 e u v := by
  rw [firstEdges, withEdge, firstEdges]
  constructor
  · rintro ⟨h, hg⟩
    rcases Nat.lt_succ_iff_lt_or_eq.mp h with h | rfl
    · exact Or.inl ⟨h, hg⟩
    · refine Or.inr ⟨rfl, ?_⟩
      rcases hg with hg | hg <;> simp [hg]
  · rintro (⟨h, hg⟩ | ⟨rfl, ⟨rfl, rfl⟩ | ⟨rfl, rfl⟩⟩)
    · exact ⟨Nat.lt_succ_of_lt h, hg⟩
    · exact ⟨Nat.lt_succ_self _, Or.inl rfl⟩
    · exact ⟨Nat.lt_succ_self _, Or.inr rfl⟩

theorem firstEdges_mono {k : ℕ} (hk : k ≤ n) (h : firstEdges ends k e u v) :
    firstEdges ends n e u v :=
  ⟨h.1.trans_le hk, h.2⟩

theorem Acyclic.next_not_linked (hA : Acyclic (firstEdges ends (n + 1))) :
    ¬ Linked (firstEdges ends n) (ends n).1 (ends n).2 := by
  intro h
  refine hA.not_linked_avoid (undirected_firstEdges ends (n + 1))
    (⟨Nat.lt_succ_self n, Or.inl rfl⟩ : firstEdges ends (n + 1) n _ _) (h.mono fun e u v he => ?_)
  exact ⟨firstEdges_mono (Nat.le_succ n) he, fun heq => he.1.ne (Option.some.inj heq)⟩

/-- Edges that all start at different nodes, none of which is where an edge ends, form a forest. -/
theorem acyclic_of_distinct_starts
    (hinj : ∀ i j, i < n → j < n → (ends i).1 = (ends j).1 → i = j)
    (hside : ∀ i j, i < n → j < n → (ends i).1 ≠ (ends j).2) : Acyclic (firstEdges ends n) := by
  induction n with
  | zero => exact acyclic_of_empty fun e u v he => absurd he.1 (Nat.not_lt_zero e)
  | succ n ih =>
    have hlt : ∀ {i}, i < n → i < n + 1 := fun hi => Nat.lt_succ_of_lt hi
    have hA := ih (fun i j hi hj => hinj i j (hlt hi) (hlt hj))
      fun i j hi hj => hside i j (hlt hi) (hlt hj)
    -- nothing starts or ends at the start of the last edge yet
    have halone : ∀ e w, ¬ firstEdges ends n e (ends n).1 w := by
      rintro e w ⟨he, heq | heq⟩
      · have := hinj e n (hlt he) (Nat.lt_succ_self n) (by rw [heq])
        omega
      · exact hside n e (Nat.lt_succ_self n) (hlt he) (by rw [heq])
    refine (hA.with_edge (undirected_firstEdges ends n)
      (fun u v he => absurd he.1 (Nat.lt_irrefl n)) fun hl => ?_).mono fun e u v he =>
        firstEdges_succ.mp he
    rcases Relation.ReflTransGen.cases_head hl with heq | ⟨w, ⟨e, he⟩, -⟩
    · exact hside n n (Nat.lt_succ_self n) (Nat.lt_succ_self n) heq
    · exact halone e w he

/-- Each edge of a forest joins two components: some `nodes.card - n` nodes meet them all. -/
theorem Acyclic.representatives [DecidableEq ν] {nodes : Finset ν}
    (hends : ∀ e < n, (ends e).1 ∈ nodes ∧ (ends e).2 ∈ nodes)
    (hA : Acyclic (firstEdges ends n)) :
    ∃ R : Finset ν, R.card + n = nodes.card ∧
      ∀ v ∈ nodes, ∃ r ∈ R, Linked (firstEdges ends n) v r := by
  induction n with
  | zero => exact ⟨nodes, rfl, fun v hv => ⟨v, hv, Linked.refl v⟩⟩
  | succ n ih =>
    have hG := undirected_firstEdges ends n
    have hle : ∀ e u v, firstEdges ends n e u v → firstEdges ends (n + 1) e u v :=
      fun e u v he => firstEdges_mono (Nat.le_succ n) he
    obtain ⟨R, hcard, hR⟩ := ih (fun e he => hends e (Nat.lt_succ_of_lt he)) (hA.mono hle)
    obtain ⟨ha, hb⟩ := hends n (Nat.lt_succ_self n)
    obtain ⟨ra, hra, hla⟩ := hR _ ha
    obtain ⟨rb, hrb, hlb⟩ := hR _ hb
    have hne : ra ≠ rb := by
      rintro rfl
      exact hA.next_not_linked (hla.trans (hlb.symm hG))
    refine ⟨R.erase rb, ?_, fun v hv => ?_⟩
    · have := Finset.card_erase_add_one hrb
      omega
    obtain ⟨r, hr, hlr⟩ := hR v hv
    by_cases hrrb : r = rb
    · have hnew : Linked (firstEdges ends (n + 1)) (ends n).2 (ends n).1 :=
        Linked.edge ⟨Nat.lt_succ_self n, Or.inr rfl⟩
      rw [hrrb] at hlr
      exact ⟨ra, Finset.mem_erase.mpr ⟨hne, hra⟩, ((hlr.trans (hlb.symm hG)).mono hle).trans
        (hnew.trans (hla.mono hle))⟩
    · exact ⟨r, Finset.mem_erase.mpr ⟨hrrb, hr⟩, hlr.mono hle⟩

theorem Acyclic.edges_lt_card [DecidableEq ν] {nodes : Finset ν} (hne : nodes.Nonempty)
    (hends : ∀ e < n, (ends e).1 ∈ nodes ∧ (ends e).2 ∈ nodes)
    (hA : Acyclic (firstEdges ends n)) : n < nodes.card := by
  obtain ⟨R, hcard, hR⟩ := hA.representatives hends
  obtain ⟨v, hv⟩ := hne
  obtain ⟨r, hr, -⟩ := hR v hv
  have := Finset.card_pos.mpr ⟨r, hr⟩
  omega

end Numbered

/-! ### Stack traversal

The loop pops a node, visits every adjacent edge but the one it was entered by,
and pushes the other ends. It keeps no set of visited nodes. -/

structure Visit (ε ν : Type*) where
  parent : ν
  edge : ε
  child : ν

/-- `adj v` lists the edges of `v`; it fails when the adjacency cannot be read. -/
def traverse (adj : ν → Option (List (ε × ν))) [DecidableEq ε] (visit : σ → Visit ε ν → σ) :
    ℕ → List (Option ε × ν) → σ → Option σ
  | _, [], s => some s
  | 0, _ :: _, _ => none
  | fuel + 1, (prev, nid) :: stack, s =>
    match adj nid with
    | none => none
    | some cells =>
      let next := cells.filter fun c => some c.1 ≠ prev
      traverse adj visit fuel ((next.map fun c => (some c.1, c.2)).reverse ++ stack)
        (next.foldl (fun s c => visit s ⟨nid, c.1, c.2⟩) s)

theorem traverse_map [DecidableEq ε] {τ : Type*} {adj : ν → Option (List (ε × ν))} (f : σ → τ)
    {visit : σ → Visit ε ν → σ} {visit' : τ → Visit ε ν → τ}
    (hf : ∀ s t, f (visit s t) = visit' (f s) t) (fuel : ℕ) (stack : List (Option ε × ν)) (s : σ) :
    traverse adj visit' fuel stack (f s) = (traverse adj visit fuel stack s).map f := by
  induction fuel generalizing stack s with
  | zero =>
    cases stack with
    | nil => simp only [traverse, Option.map_some]
    | cons c stack => rfl
  | succ fuel ih =>
    obtain _ | ⟨⟨prev, nid⟩, stack⟩ := stack
    · simp only [traverse, Option.map_some]
    · cases hadj : adj nid with
      | none => simp only [traverse, hadj, Option.map_none]
      | some cells =>
        simp only [traverse, hadj]
        generalize (cells.filter fun c => decide (some c.1 ≠ prev)) = next
        have hnext : ∀ (next : List (ε × ν)) s,
            next.foldl (fun s c => visit' s ⟨nid, c.1, c.2⟩) (f s) =
              f (next.foldl (fun s c => visit s ⟨nid, c.1, c.2⟩) s) := by
          intro next
          induction next with
          | nil => exact fun _ => rfl
          | cons c next ih =>
            intro s
            rw [List.foldl_cons, List.foldl_cons, ← hf, ih]
        rw [hnext, ih]

inductive Grows (root : ν) : List (Visit ε ν) → Prop where
  | nil : Grows root []
  | snoc {D t} : Grows root D → t.parent ∈ root :: D.map Visit.child →
      t.child ∉ root :: D.map Visit.child → Grows root (D ++ [t])

/-- The visits of one traversal: a tree rooted at `root` that exhausts the component
of `root` in the graph without `skip`. -/
structure Spans (G : ε → ν → ν → Prop) (skip : Option ε) (root : ν)
    (D : List (Visit ε ν)) : Prop where
  grows : Grows root D
  link : ∀ t ∈ D, avoid G skip t.edge t.parent t.child
  closed : ∀ u ∈ root :: D.map Visit.child, ∀ e w, avoid G skip e u w →
    ∃ t ∈ D, t.edge = e ∧ ((t.parent = u ∧ t.child = w) ∨ (t.parent = w ∧ t.child = u))

variable {root : ν} {D : List (Visit ε ν)} {skip : Option ε}

theorem Grows.nodup (h : Grows root D) : (root :: D.map Visit.child).Nodup := by
  induction h with
  | nil => simp
  | @snoc D t _ _ hc ih =>
    rw [List.map_append, ← List.cons_append, List.nodup_append]
    refine ⟨ih, by simp, ?_⟩
    rintro x hx y hy rfl
    obtain rfl : x = t.child := by simpa using hy
    exact hc hx

theorem Grows.parent_mem (h : Grows root D) {t : Visit ε ν} (ht : t ∈ D) :
    t.parent ∈ root :: D.map Visit.child := by
  induction h with
  | nil => simp at ht
  | @snoc D s _ hp _ ih =>
    rw [List.map_append, ← List.cons_append, List.mem_append]
    rcases List.mem_append.mp ht with ht | ht
    · exact Or.inl (ih ht)
    · obtain rfl : t = s := by simpa using ht
      exact Or.inl hp

theorem Grows.linked (h : Grows root D) (hl : ∀ t ∈ D, H t.edge t.parent t.child) {v : ν}
    (hv : v ∈ root :: D.map Visit.child) : Linked H root v := by
  induction h generalizing v with
  | nil =>
    obtain rfl : v = root := by simpa using hv
    exact Linked.refl v
  | @snoc D t _ hp _ ih =>
    have ih := @ih fun s hs => hl s (List.mem_append_left _ hs)
    rw [List.map_append, ← List.cons_append, List.mem_append] at hv
    rcases hv with hv | hv
    · exact ih hv
    · obtain rfl : v = t.child := by simpa using hv
      exact (ih hp).trans (Linked.edge (hl t (by simp)))

theorem Spans.mem_iff (h : Spans G skip root D) {v : ν} :
    v ∈ root :: D.map Visit.child ↔ Linked (avoid G skip) root v := by
  constructor
  · exact h.grows.linked h.link
  · intro hv
    induction hv with
    | refl => simp
    | @tail u w _ he ih =>
      obtain ⟨e, he⟩ := he
      obtain ⟨t, ht, -, ⟨-, rfl⟩ | ⟨rfl, -⟩⟩ := h.closed u ih e w he
      · exact List.mem_cons_of_mem _ (List.mem_map_of_mem ht)
      · exact h.grows.parent_mem ht

/-- The loop invariant: nodes on the stack are visited but not yet expanded. -/
structure Loop (G : ε → ν → ν → Prop) (skip : Option ε) (root : ν) (D : List (Visit ε ν))
    (stack : List (Option ε × ν)) : Prop where
  grows : Grows root D
  link : ∀ t ∈ D, avoid G skip t.edge t.parent t.child
  nodup : (stack.map Prod.snd).Nodup
  entry : ∀ c ∈ stack, (c.2 = root ∧ c.1 = skip) ∨ ∃ t ∈ D, t.child = c.2 ∧ c.1 = some t.edge
  fresh : ∀ t ∈ D, ∀ c ∈ stack, t.parent ≠ c.2
  closed : ∀ u ∈ root :: D.map Visit.child, u ∉ stack.map Prod.snd →
    ∀ e w, avoid G skip e u w →
      ∃ t ∈ D, t.edge = e ∧ ((t.parent = u ∧ t.child = w) ∨ (t.parent = w ∧ t.child = u))

variable {prev : Option ε} {nid : ν} {stack : List (Option ε × ν)}

theorem Loop.start : Loop G skip root [] [(skip, root)] := by
  refine ⟨.nil, by simp, by simp, by simp, by simp, ?_⟩
  intro u hu hn
  simp at hu hn
  exact absurd hu hn

theorem Loop.spans (h : Loop G skip root D []) : Spans G skip root D :=
  ⟨h.grows, h.link, fun u hu => h.closed u hu (by simp)⟩

theorem Loop.head_mem (h : Loop G skip root D ((prev, nid) :: stack)) :
    nid ∈ root :: D.map Visit.child := by
  rcases h.entry (prev, nid) (by simp) with ⟨hr, -⟩ | ⟨t, ht, hc, -⟩
  · simp only at hr
    simp [hr]
  · exact List.mem_cons_of_mem _ (List.mem_map.mpr ⟨t, ht, hc⟩)

/-- An edge of the popped node other than its entry edge was not used before: its
other use would make the popped node a parent, or the child of two visits. -/
theorem Loop.edge_fresh (h : Loop G skip root D ((prev, nid) :: stack)) (hG : Undirected G)
    {e : ε} {w : ν} (he : G e nid w) (hne : some e ≠ prev) : ∀ t ∈ D, t.edge ≠ e := by
  rintro t ht rfl
  have hnodup := h.grows.nodup
  rcases hG.ends he (h.link t ht).1 with ⟨hp, -⟩ | ⟨-, hc⟩
  · exact h.fresh t ht (prev, nid) (by simp) hp
  · rcases h.entry (prev, nid) (by simp) with ⟨hr, -⟩ | ⟨s, hs, hsc, hse⟩
    · obtain rfl : nid = root := hr
      have hc : t.child = nid := hc
      exact (List.nodup_cons.mp hnodup).1 (List.mem_map.mpr ⟨t, ht, hc⟩)
    · have hst : s = t := List.inj_on_of_nodup_map (List.nodup_cons.mp hnodup).2 hs ht
        (hsc.trans hc.symm)
      exact hne (hst ▸ hse.symm)

theorem Loop.child_fresh (h : Loop G skip root D ((prev, nid) :: stack)) (hG : Undirected G)
    (hA : Acyclic G) {e : ε} {w : ν} (he : G e nid w) (hne : some e ≠ prev) :
    w ∉ root :: D.map Visit.child := by
  intro hw
  have hused := h.edge_fresh hG he hne
  let U : ε → ν → ν → Prop := fun e u v => G e u v ∧ ∃ t ∈ D, t.edge = e
  have hU : Undirected U := ⟨fun h => ⟨hG.symm h.1, h.2⟩, fun h k => hG.ends h.1 k.1⟩
  have hlink : ∀ t ∈ D, U t.edge t.parent t.child := fun t ht => ⟨(h.link t ht).1, t, ht, rfl⟩
  have hwn : Linked U w nid :=
    ((h.grows.linked hlink hw).symm hU).trans (h.grows.linked hlink h.head_mem)
  obtain ⟨es, hes⟩ := hwn.trail hU
  refine hA e es nid (.cons he ?_ (hes.mono fun _ _ _ h => h.1))
  intro hm
  obtain ⟨x, y, -, t, ht, hte⟩ := hes.exists_link hm
  exact hused t ht hte

theorem grows_append {l : List (ε × ν)} (h : Grows root D)
    (hn : nid ∈ root :: D.map Visit.child) (hnew : ∀ c ∈ l, c.2 ∉ root :: D.map Visit.child)
    (hd : (l.map Prod.snd).Nodup) : Grows root (D ++ l.map fun c => ⟨nid, c.1, c.2⟩) := by
  induction l using List.reverseRecOn with
  | nil => simpa using h
  | append_singleton l c ih =>
    rw [List.map_append, List.nodup_append] at hd
    have hg := ih (fun c hc => hnew c (List.mem_append_left _ hc)) hd.1
    rw [List.map_append, ← List.append_assoc]
    refine .snoc hg ?_ ?_
    · rw [List.map_append, ← List.cons_append]
      exact List.mem_append_left _ hn
    · rw [List.map_append, ← List.cons_append, List.mem_append, not_or]
      refine ⟨hnew c (by simp), ?_⟩
      simp only [List.map_map, Function.comp_def]
      intro hm
      exact hd.2.2 _ hm c.2 (by simp) rfl

theorem Acyclic.edge_inj (hA : Acyclic G) (hG : Undirected G) {e d : ε} {v w : ν}
    (he : G e v w) (hd : G d v w) : e = d := by
  by_contra hne
  exact hA e [d] v (.cons he (by simpa using hne) (.cons (hG.symm hd) (by simp) (.nil v)))

theorem Loop.avoids (h : Loop G skip root D ((prev, nid) :: stack)) (hG : Undirected G)
    (hA : Acyclic G) (hskip : ∀ e, skip = some e → (∃ b, G e root b) ∨ ∀ u v, ¬ G e u v) {e : ε}
    {w : ν} (he : G e nid w) (hne : some e ≠ prev) : some e ≠ skip := by
  intro hes
  obtain ⟨b, hb⟩ := (hskip e hes.symm).resolve_right fun hnone => hnone _ _ he
  rcases h.entry (prev, nid) (by simp) with ⟨-, hp⟩ | ⟨t, ht, htc, -⟩
  · exact hne (hes.trans hp.symm)
  · have htc : t.child = nid := htc
    have hlink := h.grows.linked h.link h.head_mem
    subst hes
    rcases hG.ends hb he with ⟨rfl, -⟩ | ⟨rfl, -⟩
    · exact (List.nodup_cons.mp h.grows.nodup).1 (htc ▸ List.mem_map_of_mem ht)
    · exact hA.not_linked_avoid hG hb hlink

theorem Loop.step (h : Loop G skip root D ((prev, nid) :: stack)) (hG : Undirected G)
    (hA : Acyclic G) (hskip : ∀ e, skip = some e → (∃ b, G e root b) ∨ ∀ u v, ¬ G e u v)
    {l : List (ε × ν)} (hl : (l.map Prod.fst).Nodup)
    (hmem : ∀ e w, (e, w) ∈ l ↔ G e nid w ∧ some e ≠ prev) :
    Loop G skip root (D ++ l.map fun c => ⟨nid, c.1, c.2⟩)
      ((l.map fun c => (some c.1, c.2)).reverse ++ stack) := by
  have hn := h.head_mem
  have hnodup := h.nodup
  simp only [List.map_cons, List.nodup_cons] at hnodup
  have hchild : ∀ c ∈ l, c.2 ∉ root :: D.map Visit.child := fun c hc =>
    h.child_fresh hG hA ((hmem c.1 c.2).mp hc).1 ((hmem c.1 c.2).mp hc).2
  have hinj : ∀ c ∈ l, ∀ d ∈ l, c.2 = d.2 → c = d := by
    rintro ⟨e, w⟩ hc ⟨d, w'⟩ hd hw
    obtain rfl : w = w' := hw
    rw [hA.edge_inj hG ((hmem e w).mp hc).1 ((hmem d w).mp hd).1]
  have hlsnd : (l.map Prod.snd).Nodup := (List.Nodup.of_map _ hl).map_on hinj
  have hstack : ∀ c ∈ stack, c.2 ∈ root :: D.map Visit.child := by
    intro c hc
    rcases h.entry c (List.mem_cons_of_mem _ hc) with ⟨hr, -⟩ | ⟨t, ht, htc, -⟩
    · simp [hr]
    · exact List.mem_cons_of_mem _ (htc ▸ List.mem_map_of_mem ht)
  refine ⟨grows_append h.grows hn hchild hlsnd, ?_, ?_, ?_, ?_, ?_⟩
  · intro t ht
    rcases List.mem_append.mp ht with ht | ht
    · exact h.link t ht
    · obtain ⟨c, hc, rfl⟩ := List.mem_map.mp ht
      obtain ⟨he, hne⟩ := (hmem c.1 c.2).mp hc
      exact ⟨he, h.avoids hG hA hskip he hne⟩
  · rw [List.map_append, List.map_reverse, List.map_map, List.nodup_append, List.nodup_reverse]
    refine ⟨hlsnd, hnodup.2, ?_⟩
    rintro x hx y hy rfl
    obtain ⟨c, hc, rfl⟩ := List.mem_map.mp (List.mem_reverse.mp hx)
    obtain ⟨d, hd, hdc⟩ := List.mem_map.mp hy
    have hdc : d.2 = c.2 := hdc
    exact hchild c hc (hdc ▸ hstack d hd)
  · intro c hc
    rcases List.mem_append.mp hc with hc | hc
    · obtain ⟨d, hd, rfl⟩ := List.mem_map.mp (List.mem_reverse.mp hc)
      exact Or.inr ⟨⟨nid, d.1, d.2⟩, List.mem_append_right _ (List.mem_map_of_mem hd), rfl, rfl⟩
    · refine (h.entry c (List.mem_cons_of_mem _ hc)).imp id ?_
      rintro ⟨t, ht, htc⟩
      exact ⟨t, List.mem_append_left _ ht, htc⟩
  · intro t ht c hc
    rcases List.mem_append.mp hc with hc | hc
    · obtain ⟨d, hd, rfl⟩ := List.mem_map.mp (List.mem_reverse.mp hc)
      have hp : t.parent ∈ root :: D.map Visit.child := by
        rcases List.mem_append.mp ht with ht | ht
        · exact h.grows.parent_mem ht
        · obtain ⟨x, -, rfl⟩ := List.mem_map.mp ht
          exact hn
      exact fun heq => hchild d hd (heq ▸ hp)
    · rcases List.mem_append.mp ht with ht | ht
      · exact h.fresh t ht c (List.mem_cons_of_mem _ hc)
      · obtain ⟨x, -, rfl⟩ := List.mem_map.mp ht
        exact fun heq => hnodup.1 (List.mem_map.mpr ⟨c, hc, heq.symm⟩)
  · intro u hu hns e w he
    simp only [List.map_append, List.mem_append, not_or, List.map_reverse, List.mem_reverse,
      List.map_map, Function.comp_def] at hns
    rw [List.map_append, ← List.cons_append, List.mem_append] at hu
    rcases hu with hu | hu
    · by_cases hun : u = nid
      · subst u
        by_cases hep : some e = prev
        · -- the entry edge was visited when its child was pushed
          rcases h.entry (prev, nid) (by simp) with ⟨-, hp⟩ | ⟨t, ht, htc, hte⟩
          · exact absurd (hep.trans hp) he.2
          · have htc : t.child = nid := htc
            have hte : e = t.edge := Option.some.inj (hep.trans hte)
            subst hte
            refine ⟨t, List.mem_append_left _ ht, rfl, ?_⟩
            rcases hG.ends (h.link t ht).1 he.1 with ⟨h1, h2⟩ | ⟨h1, h2⟩
            · exact Or.inl ⟨h1.symm, h2.symm⟩
            · exact Or.inr ⟨h2.symm, h1.symm⟩
        · have hin := (hmem e w).mpr ⟨he.1, hep⟩
          exact ⟨⟨nid, e, w⟩, List.mem_append_right _
            (List.mem_map.mpr ⟨(e, w), hin, rfl⟩), rfl, Or.inl ⟨rfl, rfl⟩⟩
      · obtain ⟨t, ht, htp⟩ := h.closed u hu (by simp [hun]; simpa using hns.2) e w he
        exact ⟨t, List.mem_append_left _ ht, htp⟩
    · simp only [List.map_map, Function.comp_def] at hu
      exact absurd hu hns.1

/-- With as much fuel as there are nodes the traversal of a forest ends, and what it
did is the fold of `visit` over a spanning list of visits. -/
theorem traverse_spans [DecidableEq ε] {adj : ν → Option (List (ε × ν))} (nodes : Finset ν)
    (skip : Option ε)
    (hG : Undirected G) (hA : Acyclic G) (hN : ∀ e u v, G e u v → v ∈ nodes)
    (hroot : root ∈ nodes)
    (hskip : ∀ e, skip = some e → (∃ b, G e root b) ∨ ∀ u v, ¬ G e u v)
    (hadj : ∀ v ∈ nodes, ∃ l, adj v = some l ∧ (l.map Prod.fst).Nodup ∧
      ∀ e w, (e, w) ∈ l ↔ G e v w)
    (visit : σ → Visit ε ν → σ) (s : σ) {fuel : ℕ} (hf : nodes.card ≤ fuel) :
    ∃ D, traverse adj visit fuel [(skip, root)] s = some (D.foldl visit s) ∧
      Spans G skip root D := by
  have hsub : ∀ {D stack}, Loop G skip root D stack → root :: D.map Visit.child ⊆ nodes.toList := by
    intro D stack h v hv
    rw [Finset.mem_toList]
    rcases List.mem_cons.mp hv with rfl | hv
    · exact hroot
    · obtain ⟨t, ht, rfl⟩ := List.mem_map.mp hv
      exact hN _ _ _ (h.link t ht).1
  have main : ∀ fuel D stack (s : σ), Loop G skip root D stack →
      nodes.card - (D.length + 1) + stack.length ≤ fuel →
      ∃ E, traverse adj visit fuel stack s = some (E.foldl visit s) ∧
        Spans G skip root (D ++ E) := by
    intro fuel
    induction fuel with
    | zero =>
      intro D stack s h hle
      obtain rfl : stack = [] := List.length_eq_zero_iff.mp (by omega)
      exact ⟨[], by simp [traverse], by simpa using h.spans⟩
    | succ fuel ih =>
      intro D stack s h hle
      rcases stack with _ | ⟨⟨prev, nid⟩, stack⟩
      · exact ⟨[], by simp [traverse], by simpa using h.spans⟩
      obtain ⟨l, hl, hnd, hm⟩ := hadj nid (by simpa using hsub h h.head_mem)
      have hstep := h.step hG hA hskip (l := l.filter fun c => some c.1 ≠ prev)
        (hnd.sublist (List.filter_sublist.map _)) (fun e w => by simp [hm])
      have hcard := (hsub hstep) |> (List.subperm_of_subset hstep.grows.nodup) |>.length_le
      simp only [List.length_cons, List.length_map, List.length_append, Finset.length_toList]
        at hcard hle
      obtain ⟨E, hE, hS⟩ := ih _ _ ((l.filter fun c => some c.1 ≠ prev).foldl
        (fun s c => visit s ⟨nid, c.1, c.2⟩) s) hstep (by
          simp only [List.length_append, List.length_map, List.length_reverse]
          omega)
      refine ⟨_ ++ E, ?_, by rw [← List.append_assoc]; exact hS⟩
      simp only [traverse, hl, List.foldl_append, List.foldl_map]
      exact hE
  have hpos : 0 < nodes.card := Finset.card_pos.mpr ⟨root, hroot⟩
  obtain ⟨D, hD, hS⟩ := main fuel [] [(skip, root)] s Loop.start (by simp; omega)
  exact ⟨D, hD, by simpa using hS⟩

end EdgeForest
