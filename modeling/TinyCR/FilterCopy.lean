import TinyCR.VacuumFilter

/-! # Copies of a filter

A filter that is built from transmitted parameters has encode and decode tables of its own.
They agree with the sender's on what the loops of `init` write, and the entries that are never
written are never read: both filters go on alike. -/
namespace FilterCopy

open BitWords BucketCodec VacuumFilter

variable {E : Type}

/-- The same filter over other tables. -/
def withTables (f : VacuumFilter.Filter E) (t : Tables) : VacuumFilter.Filter E :=
  { f with tables := t }

def rank (f : VacuumFilter.Filter E) (pos : ℕ) : ℕ :=
  (readBits f.T (pos * ((f.fp_len - 1) * 4)) ((f.fp_len - 1) * 4)).toNat >>> (4 * (f.fp_len - 4))

/-- All buckets hold ranks the loops write, and no operation leaves the table. -/
structure Sound (hash : HashUtil) (f : VacuumFilter.Filter E) : Prop where
  four : f.m = 4
  fp_range : 4 ≤ f.fp_len ∧ f.fp_len ≤ 16
  n_pos : 0 < f.n
  stays : ∀ pos fp, pos < f.n → alternate hash f pos fp < f.n
  built : f.tables.Built
  room : Room f.fp_len f.T f.n
  ranked : ∀ pos < f.n, rank f pos < plainBits.length

variable {hash : HashUtil} {engine : RandomEngine E} {f : VacuumFilter.Filter E} {t : Tables}
  {pos fp : ℕ}

theorem Sound.of_valid (hv : Valid hash f) (hr : ∀ pos < f.n, rank f pos < plainBits.length) :
    Sound hash f where
  four := hv.four
  fp_range := hv.fp_range
  n_pos := by have := hv.two_le; omega
  stays := fun _ fp hpos => (alternate_spec hv hpos fp).1
  built := hv.built
  room := hv.room
  ranked := hr

theorem rank_init (properAltRange : ℕ → ℕ → ℤ) (f : VacuumFilter.Filter E) {n fp_length : ℕ}
    (m step : ℕ) (hfp : 4 ≤ fp_length ∧ fp_length ≤ 16) (pos : ℕ) :
    rank (init engine properAltRange f n m step fp_length) pos = 0 := by
  rw [rank]
  simp only [init]
  rw [readBits_zero _ hfp, BitVec.toNat_zero, Nat.zero_shiftRight]

theorem getBucket_withTables (hb : f.tables.Built) (ht : t.Built)
    (hr : rank f pos < plainBits.length) : getBucket (withTables f t) pos = getBucket f pos := by
  have hdec := (Tables.Built.agree ht hb).2 _ hr
  rw [rank] at hdec
  simp only [VacuumFilter.getBucket, withTables, BucketCodec.getBucket, decode, hdec]

theorem setBucket_withTables (hs : Sound hash f) (ht : t.Built) (hpos : pos < f.n) {store : List ℕ}
    (h4 : store.length = 4) (hb : ∀ s ∈ store, s < 2 ^ f.fp_len) (c : ℤ) (e : E) :
    VacuumFilter.setBucket { withTables f t with filled_cell := c, e := e } pos store =
        withTables (VacuumFilter.setBucket { f with filled_cell := c, e := e } pos store) t ∧
      Sound hash (VacuumFilter.setBucket { f with filled_cell := c, e := e } pos store) := by
  obtain ⟨plain, hplain, low, hlow, henc⟩ :=
    encode_rank hs.fp_range.1 (sortStore_wellFormed h4 hb)
  have hsame : encode f.fp_len t (sortStore store) =
      encode f.fp_len f.tables (sortStore store) := by
    rw [henc, henc, (Tables.Built.agree ht hs.built).1 plain hplain]
  constructor
  · simp only [VacuumFilter.setBucket, withTables, BucketCodec.setBucket, hsame]
  · refine ⟨hs.four, hs.fp_range, hs.n_pos, hs.stays, hs.built,
      hs.room.congr BucketCodec.length_setBucket, fun q hq => ?_⟩
    by_cases hne : q = pos
    · subst hne
      have hrank := (Tables.Built.round_trip hs.built hplain).1
      have hread := readBits_setBucket_same hs.fp_range hs.built hs.room hpos h4 hb
      have hval : (encode f.fp_len f.tables (sortStore store)) >>> (4 * (f.fp_len - 4)) =
          f.tables.encodeTable plain := by
        rw [henc, Nat.shiftRight_eq_div_pow, Nat.shiftLeft_eq, Nat.mul_comm,
          Nat.mul_add_div (Nat.two_pow_pos _), Nat.div_eq_of_lt hlow, Nat.add_zero]
      have hrank' : rank (VacuumFilter.setBucket { f with filled_cell := c, e := e } q store) q =
          f.tables.encodeTable plain := by
        simp only [rank, VacuumFilter.setBucket, hread, BitVec.toNat_ofNat,
          Nat.mod_eq_of_lt (encode_lt_64 hs.fp_range hs.built h4 hb), hval]
      rw [hrank', length_plainBits]
      exact hrank
    · have hread := readBits_setBucket_other hs.fp_range hs.built hs.room hpos h4 hb hne
      have hrank : rank (VacuumFilter.setBucket { f with filled_cell := c, e := e } pos store) q =
          rank f q := by
        simp only [rank, VacuumFilter.setBucket, hread]
      rw [hrank]
      exact hs.ranked q hq

def Alike {α : Type} (hash : HashUtil) (t : Tables) (r r' : α × VacuumFilter.Filter E) : Prop :=
  r' = (r.1, withTables r.2 t) ∧ Sound hash r.2

theorem Sound.bucket (hs : Sound hash f) (ht : t.Built) (hpos : pos < f.n) :
    VacuumFilter.getBucket (withTables f t) pos = VacuumFilter.getBucket f pos :=
  getBucket_withTables hs.built ht (hs.ranked pos hpos)

theorem lookupInBucket_withTables (hs : Sound hash f) (ht : t.Built) (hpos : pos < f.n) :
    lookupInBucket (withTables f t) pos fp = lookupInBucket f pos fp := by
  rw [lookupInBucket, hs.bucket ht hpos]
  rfl

theorem lookup_withTables (hs : Sound hash f) (ht : t.Built) (ele : BitVec 64) :
    lookup hash (withTables f t) ele = lookup hash f ele := by
  have hpos := positionHash_lt_of_pos hs.n_pos (hashed hash ele)
  generalize hfp : fingerprint hash f (hashed hash ele) = fp
  have hfirst : lookupInBucket (withTables f t) (positionHash f (hashed hash ele)) fp =
      lookupInBucket f (positionHash f (hashed hash ele)) fp :=
    lookupInBucket_withTables hs ht hpos
  have hsecond : lookupInBucket (withTables f t)
        (alternate hash f (positionHash f (hashed hash ele)) fp) fp =
      lookupInBucket f (alternate hash f (positionHash f (hashed hash ele)) fp) fp :=
    lookupInBucket_withTables hs ht (hs.stays _ fp hpos)
  subst hfp
  exact congrArg₂ (fun a b => if a = 1 then true else decide (b = 1)) hfirst hsecond

theorem delInBucket_withTables (hs : Sound hash f) (ht : t.Built) (hpos : pos < f.n) (fp : ℕ) :
    Alike hash t (delInBucket f pos fp) (delInBucket (withTables f t) pos fp) := by
  rw [delInBucket, delInBucket, hs.bucket ht hpos]
  have hm : (withTables f t).m = f.m := rfl
  rw [hm]
  split
  case h_1 i _ =>
    obtain ⟨heq, hs'⟩ := setBucket_withTables hs ht hpos (length_slots_set _ _ i 0)
      (slots_set_lt hs.fp_range.1 pos i (Nat.two_pow_pos _)) (f.filled_cell - 1) f.e
    exact ⟨congrArg (Prod.mk 1) heq, hs'⟩
  case h_2 => exact ⟨rfl, hs⟩

theorem del_withTables (hs : Sound hash f) (ht : t.Built) (ele : BitVec 64) :
    Alike hash t (del hash f ele) (del hash (withTables f t) ele) := by
  have hpos := positionHash_lt_of_pos hs.n_pos (hashed hash ele)
  have hfirst := delInBucket_withTables hs ht hpos (fingerprint hash f (hashed hash ele))
  have hfp : fingerprint hash (withTables f t) = fingerprint hash f := rfl
  have hhash : positionHash (withTables f t) = positionHash f := rfl
  rw [del, del, hfp, hhash]
  generalize positionHash f (hashed hash ele) = pos1 at *
  generalize fingerprint hash f (hashed hash ele) = fp at *
  obtain ⟨heq, hs₁⟩ := hfirst
  have hshape : SameShape f (delInBucket f pos1 fp).2 := by
    rw [delInBucket]
    split
    · exact sameShape_setBucket f _ f.e _ _
    · rfl
  dsimp only
  rw [heq]
  generalize delInBucket f pos1 fp = r at *
  obtain ⟨ok1, f₁⟩ := r
  by_cases h1 : ok1 = 1
  · simp only [h1, if_true]
    exact ⟨rfl, hs₁⟩
  · have halt : alternate hash (withTables f₁ t) pos1 fp = alternate hash f₁ pos1 fp := rfl
    have hn : f₁.n = f.n := by
      have h : f₁ = { f with T := f₁.T, e := f₁.e, filled_cell := f₁.filled_cell } := hshape
      rw [h]
    obtain ⟨heq₂, hs₂⟩ := delInBucket_withTables hs₁ ht
      (hs₁.stays pos1 fp (hn.symm ▸ hpos)) fp
    simp only [h1, if_false, halt, heq₂]
    exact ⟨rfl, hs₂⟩

theorem lookAhead_withTables (hs : Sound hash f) (ht : t.Built) (hpos : pos < f.n)
    (store : List ℕ) : lookAhead hash (withTables f t) pos store = lookAhead hash f pos store := by
  have hm : (withTables f t).m = f.m := rfl
  have halt : alternate hash (withTables f t) = alternate hash f := rfl
  rw [lookAhead, lookAhead, hm, halt]
  refine congrArg (List.find? · (List.range f.m)) (funext fun j => ?_)
  rw [hs.bucket ht (hs.stays _ _ hpos)]

theorem kickLoop_withTables (engine : RandomEngine E) (steps : ℕ) (hs : Sound hash f)
    (ht : t.Built) {alt tmp_fp : ℕ} (halt : alt < f.n) (hfp : tmp_fp < 2 ^ f.fp_len) :
    Alike hash t (kickLoop hash engine steps f alt tmp_fp)
      (kickLoop hash engine steps (withTables f t) alt tmp_fp) := by
  induction steps generalizing f alt tmp_fp with
  | zero => exact ⟨rfl, hs⟩
  | succ i ih =>
    have hm : (withTables f t).m = f.m := rfl
    rw [kickLoop, kickLoop, hm]
    dsimp only
    rw [hs.bucket ht halt, lookAhead_withTables hs ht halt]
    by_cases hfull : (VacuumFilter.getBucket f alt).count = f.m
    · rw [if_pos hfull, if_pos hfull]
      split
      case h_1 j _ =>
        have hfpj := slots_lt hs.fp_range.1 alt j
        have hset : ∀ s ∈ (VacuumFilter.getBucket f alt).slots.set j tmp_fp, s < 2 ^ f.fp_len :=
          slots_set_lt hs.fp_range.1 alt j hfp
        have hset4 : ((VacuumFilter.getBucket f alt).slots.set j tmp_fp).length = 4 :=
          length_slots_set _ _ j tmp_fp
        have halt' : alternate hash (withTables f t) = alternate hash f := rfl
        rw [halt']
        generalize (VacuumFilter.getBucket f alt).slots.getD j 0 = fp_j at *
        have hnex := hs.stays alt fp_j halt
        generalize alternate hash f alt fp_j = nex at *
        rw [hs.bucket ht hnex]
        obtain ⟨heq₁, hs₁⟩ := setBucket_withTables hs ht hnex (length_slots_set _ _ (f.m - 1) fp_j)
          (slots_set_lt hs.fp_range.1 nex _ hfpj) (f.filled_cell + 1) f.e
        obtain ⟨heq₂, hs₂⟩ := setBucket_withTables hs₁ ht halt hset4 hset (f.filled_cell + 1) f.e
        have heq := (congrArg (VacuumFilter.setBucket · alt _) heq₁).trans heq₂
        exact ⟨congrArg (Prod.mk 0) heq, hs₂⟩
      case h_2 =>
        have he : (withTables f t).e = f.e := rfl
        rw [he]
        obtain ⟨heq, hs'⟩ := setBucket_withTables hs ht halt
          (length_slots_set _ _ ((engine.next f.e).1 % f.m) tmp_fp)
          (slots_set_lt hs.fp_range.1 alt _ hfp)
          f.filled_cell (engine.next f.e).2
        have hslot := slots_lt hs.fp_range.1 alt ((engine.next f.e).1 % f.m)
        have hnext := hs.stays alt
          ((VacuumFilter.getBucket f alt).slots.getD ((engine.next f.e).1 % f.m) 0) halt
        have hih := ih hs' hnext hslot
        exact ⟨(congrArg (kickLoop hash engine i · _ _) heq).trans hih.1, hih.2⟩
    · rw [if_neg hfull, if_neg hfull]
      obtain ⟨heq, hs'⟩ := setBucket_withTables hs ht halt (length_slots_set _ _ (f.m - 1) tmp_fp)
        (slots_set_lt hs.fp_range.1 alt _ hfp) (f.filled_cell + 1) f.e
      exact ⟨congrArg (Prod.mk 0) heq, hs'⟩

theorem kick_withTables (engine : RandomEngine E) (hs : Sound hash f) (ht : t.Built)
    {cur1 cur2 : ℕ} (h1 : cur1 < f.n) (h2 : cur2 < f.n) (hfp : fp < 2 ^ f.fp_len) :
    Alike hash t
      (kick hash engine f fp cur1 cur2 (VacuumFilter.getBucket f cur1).slots
        (VacuumFilter.getBucket f cur2).slots)
      (kick hash engine (withTables f t) fp cur1 cur2 (VacuumFilter.getBucket f cur1).slots
        (VacuumFilter.getBucket f cur2).slots) := by
  have hm : (withTables f t).m = f.m := rfl
  have he : (withTables f t).e = f.e := rfl
  rw [kick, kick, hm, he]
  dsimp only
  obtain ⟨cur, hcur, hpick⟩ : ∃ cur, cur < f.n ∧
      (if (engine.next (engine.next f.e).2).1 &&& 1 ≠ 0 then
        (cur1, (VacuumFilter.getBucket f cur1).slots)
        else (cur2, (VacuumFilter.getBucket f cur2).slots)) =
      (cur, (VacuumFilter.getBucket f cur).slots) := by
    split
    · exact ⟨cur1, h1, rfl⟩
    · exact ⟨cur2, h2, rfl⟩
  rw [hpick]
  obtain ⟨heq, hs'⟩ := setBucket_withTables hs ht hcur
    (length_slots_set _ _ ((engine.next f.e).1 % f.m) fp)
    (slots_set_lt hs.fp_range.1 cur _ hfp)
    f.filled_cell (engine.next (engine.next f.e).2).2
  have hslot := slots_lt hs.fp_range.1 cur ((engine.next f.e).1 % f.m)
  have hnext := hs.stays cur
    ((VacuumFilter.getBucket f cur).slots.getD ((engine.next f.e).1 % f.m) 0) hcur
  have hloop := kickLoop_withTables engine f.max_kick_steps hs' ht hnext hslot
  exact ⟨(congrArg (kickLoop hash engine f.max_kick_steps · _ _) heq).trans hloop.1, hloop.2⟩

theorem insert_withTables (engine : RandomEngine E) (hs : Sound hash f) (ht : t.Built)
    (ele : BitVec 64) :
    Alike hash t (VacuumFilter.insert hash engine f ele)
      (VacuumFilter.insert hash engine (withTables f t) ele) := by
  have hpos := positionHash_lt_of_pos hs.n_pos (hashed hash ele)
  have hlt := (fingerprint_bounds hash hs.fp_range.1 (hashed hash ele)).2
  have halt := hs.stays _ (fingerprint hash f (hashed hash ele)) hpos
  have hfp : fingerprint hash (withTables f t) = fingerprint hash f := rfl
  have hhash : positionHash (withTables f t) = positionHash f := rfl
  have hnext : alternate hash (withTables f t) = alternate hash f := rfl
  rw [VacuumFilter.insert, VacuumFilter.insert, hfp, hhash, hnext]
  dsimp only
  rw [hs.bucket ht hpos, hs.bucket ht halt]
  -- In either bucket the fingerprint goes into the last slot, or the kicks begin.
  have hput : ∀ cur < f.n, ∀ kicked kicked' : ℕ × VacuumFilter.Filter E,
      Alike hash t kicked kicked' → ∀ fp < 2 ^ f.fp_len,
      Alike hash t
        (if (insertToBucket f (VacuumFilter.getBucket f cur) fp).1 = 0 then
          (0, VacuumFilter.setBucket { f with filled_cell := f.filled_cell + 1 } cur
            (insertToBucket f (VacuumFilter.getBucket f cur) fp).2) else kicked)
        (if (insertToBucket (withTables f t) (VacuumFilter.getBucket f cur) fp).1 = 0 then
          (0, VacuumFilter.setBucket { withTables f t with filled_cell := f.filled_cell + 1 } cur
            (insertToBucket (withTables f t) (VacuumFilter.getBucket f cur) fp).2)
          else kicked') := by
    intro cur hcur kicked kicked' hk fp hfp
    have hsame : insertToBucket (withTables f t) (VacuumFilter.getBucket f cur) fp =
        insertToBucket f (VacuumFilter.getBucket f cur) fp := rfl
    rw [hsame]
    by_cases hfull : (VacuumFilter.getBucket f cur).count = f.m
    · simp only [insertToBucket, if_pos hfull, Nat.reduceAdd, OfNat.ofNat_ne_zero, if_false]
      exact hk
    · simp only [insertToBucket, if_neg hfull, if_true]
      obtain ⟨heq, hs'⟩ := setBucket_withTables hs ht hcur (length_slots_set _ _ 3 fp)
        (slots_set_lt hs.fp_range.1 cur 3 hfp) (f.filled_cell + 1) f.e
      exact ⟨congrArg (Prod.mk 0) heq, hs'⟩
  have hkick := kick_withTables engine hs ht hpos halt hlt
  split
  · exact hput _ hpos _ _ hkick _ hlt
  · exact hput _ halt _ _ hkick _ hlt

end FilterCopy
