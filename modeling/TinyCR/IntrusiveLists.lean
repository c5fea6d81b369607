import Mathlib.Data.List.Nodup
import Mathlib.Logic.Function.Basic

/-! # Linked lists threaded through an index array

A list starts at an optional cell; `next` maps the id of a cell to the cell after it.
Several lists share one array as long as their ids are disjoint. -/
namespace IntrusiveLists

variable {γ : Type*} {id : γ → ℕ}

/-- The list from `start` is `l` and ends. -/
inductive Chain (id : γ → ℕ) (next : ℕ → Option γ) : Option γ → List γ → Prop where
  | nil : Chain id next none []
  | cons {c l} : Chain id next (next (id c)) l → Chain id next (some c) (c :: l)

/-- Reads the list from `start`; fails if it does not end within the fuel. -/
def walk (id : γ → ℕ) (next : ℕ → Option γ) : ℕ → Option γ → Option (List γ)
  | _, none => some []
  | 0, some _ => none
  | fuel + 1, some c => (walk id next fuel (next (id c))).map (c :: ·)

/-- The id of the cell before the one with id `k`, searched from id `t` on; fails at the
end of the list, where the search would follow an end marker. -/
def findPrev (id : γ → ℕ) (next : ℕ → Option γ) (k : ℕ) : ℕ → ℕ → Option ℕ
  | 0, _ => none
  | fuel + 1, t =>
    match next t with
    | none => none
    | some c => if id c = k then some t else findPrev id next k fuel (id c)

variable {next next' : ℕ → Option γ} {start : Option γ} {l pre post : List γ} {c d : γ} {k : ℕ}

theorem id_ne_of_notMem (hk : k ∉ l.map id) (hc : c ∈ l) : id c ≠ k := by
  rintro rfl
  exact hk (List.mem_map_of_mem hc)

theorem Chain.walk_eq (h : Chain id next start l) {fuel : ℕ} (hf : l.length ≤ fuel) :
    walk id next fuel start = some l := by
  induction h generalizing fuel with
  | nil => simp [walk]
  | cons _ ih =>
    obtain ⟨n, rfl⟩ : ∃ n, fuel = n + 1 := ⟨fuel - 1, by simp at hf; omega⟩
    simp [walk, ih (by simpa using hf)]

theorem Chain.frame (h : Chain id next start l) (hn : ∀ c ∈ l, next' (id c) = next (id c)) :
    Chain id next' start l := by
  induction h with
  | nil => exact .nil
  | cons _ ih =>
    refine .cons ?_
    rw [hn _ (by simp)]
    exact ih fun c hc => hn c (List.mem_cons_of_mem _ hc)

theorem Chain.tail (pre : List γ) (h : Chain id next start (pre ++ d :: post)) :
    Chain id next (next (id d)) post := by
  induction pre generalizing start with
  | nil => cases h with | cons h => exact h
  | cons c pre ih => cases h with | cons h => exact ih h

theorem Chain.splice {rest : List γ} (h : Chain id next start (pre ++ d :: post))
    (hn : ∀ c ∈ pre, next' (id c) = next (id c)) (hr : Chain id next' (next' (id d)) rest) :
    Chain id next' start (pre ++ d :: rest) := by
  induction pre generalizing start with
  | nil => cases h with | cons h => exact .cons hr
  | cons c pre ih =>
    cases h with
    | cons h =>
      refine .cons ?_
      rw [hn c (by simp)]
      exact ih h fun c hc => hn c (List.mem_cons_of_mem _ hc)

theorem Chain.findPrev_eq (h : Chain id next (some c) (c :: l))
    (hnd : ((c :: l).map id).Nodup) (hk : k ∈ l.map id) {fuel : ℕ} (hf : l.length ≤ fuel) :
    ∃ pre d e post, c :: l = pre ++ d :: e :: post ∧ id e = k ∧
      findPrev id next k fuel (id c) = some (id d) := by
  induction l generalizing c fuel with
  | nil => simp at hk
  | cons e l ih =>
    obtain ⟨n, rfl⟩ : ∃ n, fuel = n + 1 := ⟨fuel - 1, by simp at hf; omega⟩
    cases h with
    | cons h =>
      generalize hs : next (id c) = s at h
      cases h with
      | cons h =>
        by_cases he : id e = k
        · exact ⟨[], c, e, l, rfl, he, by simp [findPrev, hs, he]⟩
        · have hk' : k ∈ l.map id := by simpa [Ne.symm he] using hk
          obtain ⟨pre, d, e', post, heq, hek, hfind⟩ :=
            ih (.cons h) (List.nodup_cons.mp hnd).2 hk' (by simpa using hf)
          exact ⟨c :: pre, d, e', post, by simp [heq], hek, by simp [findPrev, hs, he, hfind]⟩

theorem Chain.push (h : Chain id next start l) (hk : id c ∉ l.map id) :
    Chain id (Function.update next (id c) start) (some c) (c :: l) := by
  refine .cons ?_
  rw [Function.update_self]
  exact h.frame fun d hd => Function.update_of_ne (id_ne_of_notMem hk hd) _ _

def Without (id : γ → ℕ) (k : ℕ) (l l' : List γ) : Prop :=
  (l'.map id).Nodup ∧ ∀ c, c ∈ l' ↔ c ∈ l ∧ id c ≠ k

theorem without_middle (pre : List γ) {e : γ} (hnd : ((pre ++ e :: post).map id).Nodup)
    (he : id e = k) :
    Without id k (pre ++ e :: post) (pre ++ post) := by
  subst he
  rw [List.map_append, List.map_cons, List.nodup_middle, List.nodup_cons] at hnd
  rw [← List.map_append] at hnd
  refine ⟨hnd.2, fun c => ?_⟩
  simp only [List.mem_append, List.mem_cons]
  constructor
  · intro hc
    exact ⟨hc.imp_right Or.inr, id_ne_of_notMem hnd.1 (List.mem_append.mpr hc)⟩
  · rintro ⟨hc | rfl | hc, hne⟩
    · exact Or.inl hc
    · exact absurd rfl hne
    · exact Or.inr hc

theorem Chain.unlink_head (h : Chain id next (some c) l) (hnd : (l.map id).Nodup) :
    ∃ l', Chain id next (next (id c)) l' ∧ Without id (id c) l l' := by
  cases h with
  | cons h => exact ⟨_, h, without_middle [] hnd rfl⟩

theorem Chain.unlink_later (h : Chain id next (some c) l) (hnd : (l.map id).Nodup)
    (hk : k ∈ l.map id) (hne : id c ≠ k) {fuel : ℕ} (hf : l.length ≤ fuel) :
    ∃ t l', findPrev id next k fuel (id c) = some t ∧ t ∈ l.map id ∧ t ≠ k ∧
      Chain id (Function.update next t (next k)) (some c) l' ∧ Without id k l l' := by
  obtain ⟨m, rfl⟩ : ∃ m, l = c :: m := by cases h; exact ⟨_, rfl⟩
  obtain ⟨pre, d, e, post, heq, rfl, hfind⟩ := h.findPrev_eq hnd
    (by simpa [hne.symm] using hk) (Nat.le_trans (by simp) hf)
  rw [heq] at h hnd ⊢
  have hnd' := hnd
  rw [List.map_append, List.map_cons, List.map_cons, List.nodup_append] at hnd'
  obtain ⟨-, hdp, hdis⟩ := hnd'
  simp only [List.nodup_cons, List.mem_cons, not_or] at hdp
  refine ⟨id d, pre ++ d :: post, hfind, by simp, hdp.1.1, ?_, ?_⟩
  · refine h.splice ?_ ?_
    · exact fun x hx => Function.update_of_ne
        (hdis _ (List.mem_map_of_mem hx) _ (by simp)) _ _
    · rw [Function.update_self]
      have hrest : Chain id next (next (id e)) post :=
        Chain.tail (pre ++ [d]) (by simpa using h)
      exact hrest.frame fun x hx => Function.update_of_ne (id_ne_of_notMem hdp.1.2 hx) _ _
  · simpa using without_middle (pre ++ [d]) (by simpa using hnd) rfl

def Replaced (id : γ → ℕ) (k : ℕ) (d : γ) (l l' : List γ) : Prop :=
  (l'.map id).Nodup ∧ ∀ c, c ∈ l' ↔ (c ∈ l ∧ id c ≠ k) ∨ c = d

theorem replaced_middle (pre : List γ) {e : γ} (hnd : ((pre ++ e :: post).map id).Nodup)
    (he : id e = k)
    (hd : id d ∉ (pre ++ e :: post).map id) :
    Replaced id k d (pre ++ e :: post) (pre ++ d :: post) := by
  obtain ⟨hw, hm⟩ := without_middle pre hnd he
  refine ⟨?_, fun c => ?_⟩
  · rw [List.map_append, List.map_cons, List.nodup_middle, List.nodup_cons, ← List.map_append]
    refine ⟨fun h => hd ?_, hw⟩
    simp only [List.map_append, List.mem_append, List.map_cons, List.mem_cons] at h ⊢
    exact h.imp_right Or.inr
  · rw [← hm c]
    simp only [List.mem_append, List.mem_cons]
    grind

theorem Chain.replace_head (h : Chain id next (some c) l) (hnd : (l.map id).Nodup)
    (hd : id d ∉ l.map id) :
    ∃ l', Chain id (Function.update next (id d) (next (id c))) (some d) l' ∧
      Replaced id (id c) d l l' := by
  cases h with
  | @cons _ m h =>
    refine ⟨d :: m, .cons ?_, replaced_middle [] hnd rfl hd⟩
    rw [Function.update_self]
    exact h.frame fun x hx =>
      Function.update_of_ne (id_ne_of_notMem hd (List.mem_cons_of_mem _ hx)) _ _

theorem Chain.replace_later (h : Chain id next (some c) l) (hnd : (l.map id).Nodup)
    (hk : k ∈ l.map id) (hne : id c ≠ k) (hd : id d ∉ l.map id) {fuel : ℕ}
    (hf : l.length ≤ fuel) :
    ∃ t l', findPrev id (Function.update next (id d) (next k)) k fuel (id c) = some t ∧
      t ∈ l.map id ∧ t ≠ k ∧
      Chain id (Function.update (Function.update next (id d) (next k)) t (some d)) (some c) l' ∧
      Replaced id k d l l' := by
  have h' : Chain id (Function.update next (id d) (next k)) (some c) l :=
    h.frame fun x hx => Function.update_of_ne (id_ne_of_notMem hd hx) _ _
  obtain ⟨m, rfl⟩ : ∃ m, l = c :: m := by cases h; exact ⟨_, rfl⟩
  obtain ⟨pre, x, e, post, heq, rfl, hfind⟩ := h'.findPrev_eq hnd
    (by simpa [hne.symm] using hk) (Nat.le_trans (by simp) hf)
  rw [heq] at h h' hnd hd ⊢
  have hnd' := hnd
  rw [List.map_append, List.map_cons, List.map_cons, List.nodup_append] at hnd'
  obtain ⟨-, hdp, hdis⟩ := hnd'
  simp only [List.nodup_cons, List.mem_cons, not_or] at hdp
  have hdm : ∀ y ∈ pre ++ x :: e :: post, id y ≠ id d := fun y hy => id_ne_of_notMem hd hy
  refine ⟨id x, pre ++ x :: d :: post, hfind, by simp, hdp.1.1, ?_, ?_⟩
  · refine h'.splice ?_ ?_
    · exact fun y hy => Function.update_of_ne
        (hdis _ (List.mem_map_of_mem hy) _ (by simp)) _ _
    · rw [Function.update_self]
      refine .cons ?_
      rw [Function.update_of_ne (Ne.symm (hdm x (by simp))), Function.update_self]
      have hrest : Chain id next (next (id e)) post :=
        Chain.tail (pre ++ [x]) (by simpa using h)
      refine hrest.frame fun y hy => ?_
      rw [Function.update_of_ne (id_ne_of_notMem hdp.1.2 hy),
        Function.update_of_ne (hdm y (by simp [hy]))]
  · simpa using replaced_middle (pre ++ [x]) (by simpa using hnd) rfl (by simpa using hd)

end IntrusiveLists
