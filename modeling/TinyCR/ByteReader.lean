import Mathlib.Algebra.Order.Ring.Nat

/-! # Reading fields of bytes

Numbers as a fixed number of bytes, most significant first, and readers that walk over a list
of bytes with a position counter. The counter wraps around at `M`, as a counter of machine
size does. -/
namespace ByteReader

def bigEndian (w x : ℕ) : List UInt8 :=
  (List.range w).reverse.map fun i => UInt8.ofNat (x >>> (i * 8))

def ofBigEndian : List UInt8 → ℕ
  | [] => 0
  | b :: l => b.toNat <<< (l.length * 8) + ofBigEndian l

theorem bigEndian_succ (w x : ℕ) :
    bigEndian (w + 1) x = UInt8.ofNat (x >>> (w * 8)) :: bigEndian w x := by
  rw [bigEndian, List.range_succ, List.reverse_append]
  rfl

@[simp] theorem length_bigEndian (w x : ℕ) : (bigEndian w x).length = w := by
  rw [bigEndian, List.length_map, List.length_reverse, List.length_range]

theorem ofBigEndian_bigEndian (w x : ℕ) : ofBigEndian (bigEndian w x) = x % 256 ^ w := by
  induction w with
  | zero => rw [pow_zero, Nat.mod_one]; rfl
  | succ w ih =>
    have hpow : 2 ^ (w * 8) = 256 ^ w := by
      rw [mul_comm, pow_mul]
      rfl
    rw [bigEndian_succ, ofBigEndian, ih, length_bigEndian, Nat.shiftLeft_eq,
      Nat.shiftRight_eq_div_pow, UInt8.toNat_ofNat', hpow, pow_succ 256 w, Nat.mod_mul]
    exact (add_comm _ _).trans (congrArg _ (mul_comm _ _))

theorem ofBigEndian_of_lt {w x : ℕ} (h : x < 256 ^ w) : ofBigEndian (bigEndian w x) = x := by
  rw [ofBigEndian_bigEndian, Nat.mod_eq_of_lt h]

/-- `none` is a read past the end. -/
abbrev Reader := StateT ℕ Option

def take (M : ℕ) (data : List UInt8) (w : ℕ) : Reader (List UInt8) := fun offset =>
  ((List.range w).mapM fun i => data[(offset + i) % M]?).map fun l => (l, (offset + w) % M)

def number (M : ℕ) (data : List UInt8) (w : ℕ) : Reader ℕ := do
  let l ← take M data w
  return ofBigEndian l

def times {α : Type} (r : Reader α) : ℕ → Reader (List α)
  | 0 => pure []
  | n + 1 => do
    let a ← r
    let l ← times r n
    return a :: l

/-- `r` reads the bytes `seg` as `a`, wherever they stand before the counter wraps around. -/
def Parses {α : Type} (M : ℕ) (data : List UInt8) (r : Reader α) (seg : List UInt8) (a : α) :
    Prop :=
  ∀ offset rest, data.drop offset = seg ++ rest → offset + seg.length ≤ M →
    r (offset % M) = some (a, (offset + seg.length) % M)

variable {α β : Type} {M : ℕ} {data seg seg' : List UInt8} {r : Reader α} {a : α} {b : β}

theorem bind_eq {f : α → Reader β} {offset offset' : ℕ} (h : r offset = some (a, offset')) :
    (r >>= f) offset = f a offset' :=
  congrArg (fun x : Option (α × ℕ) => x.bind fun p => f p.1 p.2) h

theorem lift_bind_eq {x : Option α} {f : α → Reader β} (offset : ℕ) :
    (do let a ← (x : Option α); f a : Reader β) offset = x.bind fun a => f a offset := by
  cases x <;> rfl

theorem of_bind_some {f : α → Reader β} {offset : ℕ} {p : β × ℕ}
    (h : (r >>= f) offset = some p) : ∃ a offset', r offset = some (a, offset') ∧
      f a offset' = some p := by
  obtain ⟨⟨a, offset'⟩, hr, hf⟩ := Option.bind_eq_some_iff.mp h
  exact ⟨a, offset', hr, hf⟩

theorem parses_pure (a : α) : Parses M data (pure a) [] a := fun _ _ _ _ => rfl

theorem Parses.bind {f : α → Reader β} (h : Parses M data r seg a)
    (h' : Parses M data (f a) seg' b) : Parses M data (r >>= f) (seg ++ seg') b := by
  intro offset rest hdrop hM
  rw [List.length_append, ← Nat.add_assoc] at hM ⊢
  rw [List.append_assoc] at hdrop
  have hrest : data.drop (offset + seg.length) = seg' ++ rest := by
    rw [← List.drop_drop, hdrop, List.drop_left]
  have hfirst := h offset _ hdrop (by omega)
  have hsecond := h' _ rest hrest hM
  rw [bind_eq hfirst, hsecond]

theorem Parses.last {f : α → β} (h : Parses M data r seg a) (hb : f a = b) :
    Parses M data (do let x ← r; return f x) seg b := by
  have hbind := h.bind (f := fun x => pure (f x)) (parses_pure (f a))
  rwa [List.append_nil, hb] at hbind

theorem mapM_getElem? (l : List UInt8) (g : ℕ → Option UInt8)
    (h : ∀ i, i < l.length → g i = l[i]?) : (List.range l.length).mapM g = some l := by
  induction l generalizing g with
  | nil => rfl
  | cons x l ih =>
    have hhead : g 0 = some x := h 0 (Nat.succ_pos _)
    have htail := ih (g ∘ Nat.succ) fun i hi => h (i + 1) (Nat.succ_lt_succ hi)
    rw [List.length_cons, List.range_succ_eq_map, List.mapM_cons, hhead, List.mapM_map, htail]
    rfl

theorem parses_take (w : ℕ) (h : seg.length = w) : Parses M data (take M data w) seg seg := by
  intro offset rest hdrop hM
  have hbytes : ∀ i, i < seg.length → data[(offset % M + i) % M]? = seg[i]? := by
    intro i hi
    have hlt : offset < M := by omega
    rw [Nat.mod_eq_of_lt hlt, Nat.mod_eq_of_lt (by omega : offset + i < M), ← List.getElem?_drop,
      hdrop, List.getElem?_append_left hi]
  subst h
  rw [take, mapM_getElem? seg _ hbytes, Nat.mod_add_mod]
  rfl

theorem parses_number {w x : ℕ} (h : x < 256 ^ w) :
    Parses M data (number M data w) (bigEndian w x) x :=
  (parses_take w (length_bigEndian w x)).last (ofBigEndian_of_lt h)

theorem parses_times {x : β → List UInt8} {r : Reader β} {l : List β}
    (h : ∀ b ∈ l, Parses M data r (x b) b) : Parses M data (times r l.length) (l.flatMap x) l := by
  induction l with
  | nil => exact parses_pure _
  | cons b l ih =>
    have htail := ih fun c hc => h c (List.mem_cons_of_mem _ hc)
    exact (h b (List.mem_cons_self ..)).bind (htail.last rfl)

theorem ofBigEndian_lt (l : List UInt8) : ofBigEndian l < 256 ^ l.length := by
  induction l with
  | nil => exact Nat.one_pos
  | cons b l ih =>
    have hb : b.toNat < 256 := b.toNat_lt
    have hpow : 2 ^ (l.length * 8) = 256 ^ l.length := by
      rw [mul_comm, pow_mul]
      rfl
    rw [ofBigEndian, Nat.shiftLeft_eq, hpow, List.length_cons, pow_succ']
    calc b.toNat * 256 ^ l.length + ofBigEndian l
        < b.toNat * 256 ^ l.length + 256 ^ l.length := Nat.add_lt_add_left ih _
      _ = (b.toNat + 1) * 256 ^ l.length := (Nat.succ_mul _ _).symm
      _ ≤ 256 * 256 ^ l.length := Nat.mul_le_mul_right _ hb

theorem length_of_mapM {g : α → Option β} {l : List α} {l' : List β} (h : l.mapM g = some l') :
    l'.length = l.length := by
  induction l generalizing l' with
  | nil =>
    obtain rfl := Option.some.inj h
    rfl
  | cons a l ih =>
    rw [List.mapM_cons] at h
    obtain ⟨b, -, h⟩ := Option.bind_eq_some_iff.mp h
    obtain ⟨bs, hbs, h⟩ := Option.bind_eq_some_iff.mp h
    obtain rfl := Option.some.inj h
    rw [List.length_cons, List.length_cons, ih hbs]

theorem number_lt {w x offset offset' : ℕ} (h : number M data w offset = some (x, offset')) :
    x < 256 ^ w := by
  obtain ⟨l, o, htake, hx⟩ := of_bind_some h
  obtain ⟨rfl, -⟩ := Prod.mk.inj (Option.some.inj hx)
  obtain ⟨l', hmap, heq⟩ := Option.map_eq_some_iff.mp htake
  obtain ⟨rfl, -⟩ := Prod.mk.inj heq
  have hlen := length_of_mapM hmap
  rw [List.length_range] at hlen
  exact hlen ▸ ofBigEndian_lt l'

theorem length_of_times {n offset offset' : ℕ} {l : List α}
    (h : times r n offset = some (l, offset')) : l.length = n := by
  induction n generalizing l offset with
  | zero =>
    obtain ⟨rfl, -⟩ := Prod.mk.inj (Option.some.inj h)
    rfl
  | succ n ih =>
    obtain ⟨a, o, -, h⟩ := of_bind_some h
    obtain ⟨l', o', hl', h⟩ := of_bind_some h
    obtain ⟨rfl, rfl⟩ := Prod.mk.inj (Option.some.inj h)
    rw [List.length_cons, ih hl']

theorem number_offset {w x offset offset' : ℕ}
    (h : number M data w offset = some (x, offset')) : offset' = (offset + w) % M := by
  obtain ⟨l, o, htake, hx⟩ := of_bind_some h
  obtain ⟨-, rfl⟩ := Prod.mk.inj (Option.some.inj hx)
  obtain ⟨l', -, heq⟩ := Option.map_eq_some_iff.mp htake
  exact (Prod.mk.inj heq).2.symm

theorem times_offset {w n offset offset' : ℕ} {l : List α} (hlt : offset < M)
    (hr : ∀ o a o', r o = some (a, o') → o' = (o + w) % M)
    (h : times r n offset = some (l, offset')) : offset' = (offset + w * n) % M := by
  induction n generalizing l offset with
  | zero =>
    obtain ⟨-, rfl⟩ := Prod.mk.inj (Option.some.inj h)
    exact (Nat.mod_eq_of_lt hlt).symm
  | succ n ih =>
    obtain ⟨a, o, ha, h⟩ := of_bind_some h
    obtain ⟨l', o', hl', h⟩ := of_bind_some h
    obtain ⟨rfl, rfl⟩ := Prod.mk.inj (Option.some.inj h)
    have ho := hr _ _ _ ha
    have holt : o < M := ho ▸ Nat.mod_lt _ (Nat.zero_lt_of_lt hlt)
    rw [ih holt hl', ho, Nat.mod_add_mod, Nat.mul_succ, Nat.add_assoc, Nat.add_comm w]

theorem Parses.run (h : Parses M data r seg a) {front rest : List UInt8}
    (hdata : data = front ++ (seg ++ rest)) (hM : (front ++ seg).length ≤ M) :
    r (front.length % M) = some (a, (front ++ seg).length % M) := by
  rw [List.length_append] at hM ⊢
  exact h front.length rest (by rw [hdata, List.drop_left]) hM

end ByteReader
