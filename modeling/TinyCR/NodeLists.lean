import TinyCR.ControlPlaneOthello

/-! # The adjacency lists of the Othello

The nodes of one side share an array of next cells. Each list holds exactly the edges at
its node; linking, unlinking and renaming a cell changes one list. -/
namespace NodeLists

open ControlPlaneOthello IntrusiveLists

/-- For the nodes in `side`, the lists hold exactly the edges of `G` at the node. -/
def SideLists (head next : List (Option OthelloCPCell)) (side : ℕ → Prop)
    (G : ℕ → ℕ → ℕ → Prop) : Prop :=
  ∀ v, side v → ∃ l, Chain OthelloCPCell.keyId (fun i => next.getD i none) (head.getD v none) l ∧
    (l.map OthelloCPCell.keyId).Nodup ∧ ∀ e w, ⟨e, w⟩ ∈ l ↔ G e v w

variable {head head' next next' : List (Option OthelloCPCell)} {side : ℕ → Prop}
  {G G' : ℕ → ℕ → ℕ → Prop} {a b k n : ℕ}

theorem getD_set {α : Type} (l : List α) {i : ℕ} (hi : i < l.length) (x d : α) :
    (fun j => (l.set i x).getD j d) = Function.update (fun j => l.getD j d) i x := by
  funext j
  simp only [List.getD_eq_getElem?_getD, List.getElem?_set]
  by_cases hij : j = i
  · subst hij
    simp [hi]
  · rw [Function.update_of_ne hij, if_neg (Ne.symm hij)]

theorem getD_set_of_ne {α : Type} (l : List α) {i j : ℕ} (hij : j ≠ i) (x d : α) :
    (l.set i x).getD j d = l.getD j d := by
  simp only [List.getD_eq_getElem?_getD, List.getElem?_set, if_neg (Ne.symm hij)]

theorem SideLists.congr (h : SideLists head next side G)
    (hhead : ∀ v, side v → head'.getD v none = head.getD v none)
    (hnext : ∀ v, side v → ∀ e w, G e v w → next'.getD e none = next.getD e none)
    (hG : ∀ v, side v → ∀ e w, G' e v w ↔ G e v w) : SideLists head' next' side G' := by
  intro v hv
  obtain ⟨l, hl, hnd, hmem⟩ := h v hv
  refine ⟨l, ?_, hnd, fun e w => (hmem e w).trans (hG v hv e w).symm⟩
  rw [hhead v hv]
  exact hl.frame fun c hc => hnext v hv c.keyId c.nodeId ((hmem _ _).mp hc)

theorem SideLists.change (h : SideLists head next side G) {l : List OthelloCPCell}
    (hl : Chain OthelloCPCell.keyId (fun i => next'.getD i none) (head'.getD a none) l)
    (hnd : (l.map OthelloCPCell.keyId).Nodup) (hmem : ∀ e w, ⟨e, w⟩ ∈ l ↔ G' e a w)
    (hhead : ∀ v, v ≠ a → head'.getD v none = head.getD v none)
    (hnext : ∀ v, side v → v ≠ a → ∀ e w, G e v w → next'.getD e none = next.getD e none)
    (hG : ∀ v, side v → v ≠ a → ∀ e w, G' e v w ↔ G e v w) : SideLists head' next' side G' := by
  intro v hv
  by_cases hva : v = a
  · rw [hva]
    exact ⟨l, hl, hnd, hmem⟩
  · have h' : SideLists head next (fun v => side v ∧ v ≠ a) G := fun v hv => h v hv.1
    exact h'.congr (fun v hv => hhead v hv.2) (fun v hv => hnext v hv.1 hv.2)
      (fun v hv => hG v hv.1 hv.2) v ⟨hv, hva⟩

theorem length_le {l : List OthelloCPCell} (hnd : (l.map OthelloCPCell.keyId).Nodup)
    (hlt : ∀ c ∈ l, c.keyId < n) : l.length ≤ n := by
  have hsub : l.map OthelloCPCell.keyId ⊆ List.range n := by
    intro e he
    obtain ⟨c, hc, rfl⟩ := List.mem_map.mp he
    exact List.mem_range.mpr (hlt c hc)
  simpa using (List.subperm_of_subset hnd hsub).length_le

theorem SideLists.push (h : SideLists head next side G) (ha : side a) (hal : a < head.length)
    (hk : k < next.length) (hnew : ∀ v w, ¬ G k v w) :
    SideLists (head.set a (some ⟨k, b⟩)) (next.set k (head.getD a none)) side
      (fun e v w => G e v w ∨ (e = k ∧ v = a ∧ w = b)) := by
  obtain ⟨l, hl, hnd, hmem⟩ := h a ha
  have hkl : k ∉ l.map OthelloCPCell.keyId := by
    intro hmk
    obtain ⟨c, hc, rfl⟩ := List.mem_map.mp hmk
    exact hnew _ _ ((hmem c.keyId c.nodeId).mp hc)
  have hpush := hl.push (c := ⟨k, b⟩) hkl
  rw [← getD_set next hk] at hpush
  refine h.change (a := a) (l := ⟨k, b⟩ :: l) ?_ (List.nodup_cons.mpr ⟨hkl, hnd⟩) ?_
    (fun v hv => getD_set_of_ne head hv _ _) ?_ ?_
  · rw [show (head.set a (some ⟨k, b⟩)).getD a none = some ⟨k, b⟩ by simp [hal]]
    exact hpush
  · intro e w
    rw [List.mem_cons, hmem, OthelloCPCell.mk.injEq]
    constructor
    · rintro (⟨rfl, rfl⟩ | hg)
      · exact Or.inr ⟨rfl, rfl, rfl⟩
      · exact Or.inl hg
    · rintro (hg | ⟨rfl, -, rfl⟩)
      · exact Or.inr hg
      · exact Or.inl ⟨rfl, rfl⟩
  · intro v _ _ e w hg
    refine getD_set_of_ne next ?_ _ _
    rintro rfl
    exact hnew v w hg
  · intro v _ hva e w
    exact or_iff_left fun hc => hva hc.2.1

def OneEnd (side : ℕ → Prop) (G : ℕ → ℕ → ℕ → Prop) : Prop :=
  ∀ e v v' w w', side v → side v' → G e v w → G e v' w' → v = v' ∧ w = w'

theorem SideLists.first_cell (h : SideLists head next side G) (ha : side a) (hedge : G k a b)
    (hlt : ∀ e v w, G e v w → e < next.length) :
    ∃ c l, head.getD a none = some c ∧
      Chain OthelloCPCell.keyId (fun i => next.getD i none) (some c) l ∧
      (l.map OthelloCPCell.keyId).Nodup ∧ (∀ e w, ⟨e, w⟩ ∈ l ↔ G e a w) ∧
      k ∈ l.map OthelloCPCell.keyId ∧ l.length ≤ next.length := by
  obtain ⟨l, hl, hnd, hmem⟩ := h a ha
  have hkl : k ∈ l.map OthelloCPCell.keyId :=
    List.mem_map.mpr ⟨⟨k, b⟩, (hmem k b).mpr hedge, rfl⟩
  have hlen : l.length ≤ next.length := length_le hnd fun c hc =>
    hlt c.keyId a c.nodeId ((hmem _ _).mp hc)
  cases hcell : head.getD a none with
  | some c =>
    rw [hcell] at hl
    exact ⟨c, l, rfl, hl, hnd, hmem, hkl, hlen⟩
  | none =>
    rw [hcell] at hl
    cases hl
    simp at hkl

theorem SideLists.unlink (h : SideLists head next side G) (ha : side a) (hal : a < head.length)
    (hedge : G k a b) (hlt : ∀ e v w, G e v w → e < next.length) (hone : OneEnd side G) :
    ∃ head' next', unlinkCell head next a k = some (head', next') ∧
      head'.length = head.length ∧ next'.length = next.length ∧
      (∀ v, v ≠ a → head'.getD v none = head.getD v none) ∧
      SideLists head' next' side (fun e v w => G e v w ∧ e ≠ k) := by
  obtain ⟨c, l, hc, hl, hnd, hmem, hkl, hlen⟩ := h.first_cell ha hedge hlt
  have hother : ∀ v, side v → v ≠ a → ∀ e w, G e v w ∧ e ≠ k ↔ G e v w := by
    intro v hv hva e w
    refine and_iff_left_of_imp fun hg hek => hva ?_
    exact (hone k v a w b hv ha (hek ▸ hg) hedge).1
  by_cases hck : c.keyId = k
  · obtain ⟨l', hl', hnd', hmem'⟩ := hl.unlink_head hnd
    rw [hck] at hl' hmem'
    refine ⟨head.set a (next.getD k none), next, ?_, List.length_set .., rfl,
      fun v hv => getD_set_of_ne head hv _ _, ?_⟩
    · simp only [unlinkCell, hc, Option.bind_eq_bind, Option.bind_some, if_pos hck]
      rfl
    · refine h.change (a := a) (l := l') ?_ hnd' ?_ (fun v hv => getD_set_of_ne head hv _ _)
        (fun _ _ _ _ _ _ => rfl) hother
      · rw [show (head.set a (next.getD k none)).getD a none = next.getD k none by simp [hal]]
        exact hl'
      · intro e w
        rw [hmem', hmem]
  · obtain ⟨t, l', hfind, htl, htk, hl', hnd', hmem'⟩ := hl.unlink_later hnd hkl hck hlen
    obtain ⟨ct, hct, rfl⟩ := List.mem_map.mp htl
    have htG := (hmem ct.keyId ct.nodeId).mp hct
    rw [← getD_set next (hlt _ _ _ htG)] at hl'
    refine ⟨head, next.set ct.keyId (next.getD k none), ?_, rfl, List.length_set ..,
      fun _ _ => rfl, ?_⟩
    · simp only [unlinkCell, hc, Option.bind_eq_bind, Option.bind_some, if_neg hck, hfind]
      rfl
    · refine h.change (a := a) (l := l') (by rw [hc]; exact hl') hnd' ?_ (fun _ _ => rfl) ?_ hother
      · intro e w
        rw [hmem', hmem]
      · intro v hv hva e w hg
        refine getD_set_of_ne next ?_ _ _
        rintro rfl
        exact hva (hone _ v a w _ hv ha hg htG).1

theorem SideLists.rename {last : ℕ} (h : SideLists head next side G) (ha : side a)
    (hal : a < head.length) (hedge : G last a b) (hlt : ∀ e v w, G e v w → e < next.length)
    (hk : k < next.length) (hnew : ∀ v w, ¬ G k v w) (hone : OneEnd side G) :
    ∃ head' next', renameCell head next a last k b = some (head', next') ∧
      head'.length = head.length ∧ next'.length = next.length ∧
      (∀ v, v ≠ a → head'.getD v none = head.getD v none) ∧
      SideLists head' next' side
        (fun e v w => (G e v w ∧ e ≠ last) ∨ (e = k ∧ v = a ∧ w = b)) := by
  obtain ⟨c, l, hc, hl, hnd, hmem, hkl, hlen⟩ := h.first_cell ha hedge hlt
  have hkn : OthelloCPCell.keyId ⟨k, b⟩ ∉ l.map OthelloCPCell.keyId := by
    intro hmk
    obtain ⟨ck, hck, heq⟩ := List.mem_map.mp hmk
    have hkey : ck.keyId = k := heq
    exact hnew a ck.nodeId (hkey ▸ (hmem ck.keyId ck.nodeId).mp hck)
  have hother : ∀ v, side v → v ≠ a → ∀ e w,
      (G e v w ∧ e ≠ last) ∨ (e = k ∧ v = a ∧ w = b) ↔ G e v w := by
    intro v hv hva e w
    constructor
    · rintro (hg | hc)
      · exact hg.1
      · exact absurd hc.2.1 hva
    · intro hg
      exact Or.inl ⟨hg, fun hel => hva (hone last v a w b hv ha (hel ▸ hg) hedge).1⟩
  have hself : ∀ e w, (⟨e, w⟩ ∈ l ∧ e ≠ last) ∨ (⟨e, w⟩ : OthelloCPCell) = ⟨k, b⟩ ↔
      (G e a w ∧ e ≠ last) ∨ (e = k ∧ a = a ∧ w = b) := by
    intro e w
    rw [hmem, OthelloCPCell.mk.injEq]
    simp only [true_and]
  by_cases hcl : c.keyId = last
  · obtain ⟨l', hl', hnd', hmem'⟩ := hl.replace_head hnd hkn
    rw [hcl] at hl' hmem'
    rw [← getD_set next hk] at hl'
    refine ⟨head.set a (some ⟨k, b⟩), next.set k (next.getD last none), ?_, List.length_set ..,
      List.length_set .., fun v hv => getD_set_of_ne head hv _ _, ?_⟩
    · simp only [renameCell, hc, Option.bind_eq_bind, Option.bind_some, if_pos hcl]
      rfl
    · refine h.change (a := a) (l := l') ?_ hnd' (fun e w => (hmem' _).trans (hself e w))
        (fun v hv => getD_set_of_ne head hv _ _) ?_ hother
      · rw [show (head.set a (some ⟨k, b⟩)).getD a none = some ⟨k, b⟩ by simp [hal]]
        exact hl'
      · intro v _ _ e w hg
        refine getD_set_of_ne next ?_ _ _
        rintro rfl
        exact hnew v w hg
  · obtain ⟨t, l', hfind, htl, htk, hl', hnd', hmem'⟩ := hl.replace_later hnd hkl hcl hkn hlen
    obtain ⟨ct, hct, rfl⟩ := List.mem_map.mp htl
    have htG := (hmem ct.keyId ct.nodeId).mp hct
    have hklen : k < (next.set k (next.getD last none)).length := by rwa [List.length_set]
    rw [← getD_set next hk] at hfind hl'
    rw [← getD_set (next.set k (next.getD last none))
      (by rw [List.length_set]; exact hlt _ _ _ htG)] at hl'
    refine ⟨head, (next.set k (next.getD last none)).set ct.keyId (some ⟨k, b⟩), ?_, rfl,
      by rw [List.length_set, List.length_set], fun _ _ => rfl, ?_⟩
    · simp only [renameCell, hc, Option.bind_eq_bind, Option.bind_some, if_neg hcl,
        List.length_set, hfind]
      rfl
    · refine h.change (a := a) (l := l') (by rw [hc]; exact hl') hnd'
        (fun e w => (hmem' _).trans (hself e w)) (fun _ _ => rfl) ?_ hother
      intro v hv hva e w hg
      rw [getD_set_of_ne, getD_set_of_ne]
      · rintro rfl
        exact hnew v w hg
      · rintro rfl
        exact hva (hone _ v a w _ hv ha hg htG).1

end NodeLists
