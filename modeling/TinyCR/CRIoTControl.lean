import TinyCR.TrackerRun
import TinyCR.DASSVerifier

/-! # `CRIoT_Control_VO`

The tracker, the snapshot of it that full updates are encoded from, and the flips of the last
update. A device that replays every update which needed no rebuild stays a copy. -/
namespace CRIoTControl

open ControlPlaneOthello OthelloInvariant OthelloRun VacuumFilter DASSTracker TrackerInvariant
  TrackerRun DASSVerifier

variable {K E : Type}

structure ControlVO (K E : Type) where
  vo_control : Tracker K E
  vo_data : Verifier E
  flipped_indexes : List ℕ

inductive Call (K : Type)
  | insert (kv : K × ℕ)
  | setValue (kv : K × ℕ)
  deriving DecidableEq, Repr

def Call.kv : Call K → K × ℕ
  | .insert kv => kv
  | .setValue kv => kv

section Updates

variable [DecidableEq K] [Inhabited K] (S : TrackerSetup K E)

def init (c : ControlVO K E) (n : ℕ) (positive_keys negative_keys : List K) :
    Except Fault (ControlVO K E) := do
  let t := DASSTracker.init S c.vo_control positive_keys.length negative_keys.length
  let (_, t) ← DASSTracker.batch_insert S n t positive_keys negative_keys
  return { c with vo_control := t, vo_data := install t }

/-- The end of `insert` and of `setValue`. `positive_keys` and `negative_keys` are the order in
which the sets list the keys, should it come to a rebuild. -/
def settle (n : ℕ) (positive_keys negative_keys : List K) (c : ControlVO K E)
    (r : List ℕ × Tracker K E) : Except Fault (Bool × ControlVO K E) :=
  if r.1 = rebuildMarker then do
    let (_, t) ← rebuild S n r.2 positive_keys negative_keys
    return (false, { vo_control := t, vo_data := install t, flipped_indexes := r.1 })
  else return (true, { c with vo_control := r.2, flipped_indexes := r.1 })

protected def insert (n : ℕ) (positive_keys negative_keys : List K) (c : ControlVO K E)
    (kv : K × ℕ) : Except Fault (Bool × ControlVO K E) :=
  DASSTracker.insert S c.vo_control kv >>= settle S n positive_keys negative_keys c

protected def setValue (n : ℕ) (positive_keys negative_keys : List K) (c : ControlVO K E)
    (kv : K × ℕ) : Except Fault (Bool × ControlVO K E) :=
  DASSTracker.setValue S c.vo_control kv >>= settle S n positive_keys negative_keys c

protected def erase (c : ControlVO K E) (key : K) : Except Fault (ControlVO K E) :=
  (DASSTracker.erase S c.vo_control key).map fun t => { c with vo_control := t }

protected def query (c : ControlVO K E) (key : K) : ℕ := DASSTracker.query S c.vo_control key

def update (t : Tracker K E) : Call K → Except Fault (List ℕ × Tracker K E)
  | .insert kv => DASSTracker.insert S t kv
  | .setValue kv => DASSTracker.setValue S t kv

def call (n : ℕ) (positive_keys negative_keys : List K) (c : ControlVO K E) :
    Call K → Except Fault (Bool × ControlVO K E)
  | .insert kv => CRIoTControl.insert S n positive_keys negative_keys c kv
  | .setValue kv => CRIoTControl.setValue S n positive_keys negative_keys c kv

/-- The device's side of an update. -/
def follow (d : Verifier E) (flipped_indexes : List ℕ) : Call K → Option (Verifier E)
  | .insert kv => DASSVerifier.insert S d kv flipped_indexes
  | .setValue kv => some (DASSVerifier.setValue S d kv flipped_indexes)

/-- No branch is taken in which the device's filter is too full. -/
def HasRoom (d : Verifier E) : Call K → Prop
  | .insert kv => kv.2 = 1 → (VacuumFilter.insert S.hash S.engine d.vf (S.ele kv.1)).1 ≠ 1
  | .setValue kv => DASSVerifier.query S d kv.1 = 0 → kv.2 = 1 →
      (VacuumFilter.insert S.hash S.engine d.vf (S.ele kv.1)).1 ≠ 1

end Updates

variable [DecidableEq K] [Inhabited K] {S : TrackerSetup K E} {c c' : ControlVO K E} {x : Call K}
  {n : ℕ} {pos neg : List K}

theorem call_eq : call S n pos neg c x = update S c.vo_control x >>= settle S n pos neg c := by
  cases x <;> rfl

theorem call_true (h : call S n pos neg c x = .ok (true, c')) :
    update S c.vo_control x = .ok (c'.flipped_indexes, c'.vo_control) ∧
      c'.flipped_indexes ≠ rebuildMarker ∧ c'.vo_data = c.vo_data := by
  rw [call_eq] at h
  obtain ⟨⟨flipped, t⟩, hup, h⟩ := of_bind_ok h
  rw [settle] at h
  split at h
  case isTrue =>
    obtain ⟨r, -, h⟩ := of_bind_ok h
    cases h
  case isFalse hne =>
    obtain ⟨-, rfl⟩ := Prod.mk.inj (Except.ok.inj h)
    exact ⟨hup, hne, rfl⟩

theorem call_of_update {t : Tracker K E} {flipped : List ℕ}
    (h : update S c.vo_control x = .ok (flipped, t)) (hne : flipped ≠ rebuildMarker) :
    call S n pos neg c x =
      .ok (true, { c with vo_control := t, flipped_indexes := flipped }) := by
  rw [call_eq, h, ok_bind, settle, if_neg hne]
  rfl

theorem call_false (h : call S n pos neg c x = .ok (false, c')) :
    ∃ t done, update S c.vo_control x = .ok (rebuildMarker, t) ∧
      rebuild S n t pos neg = .ok (done, c'.vo_control) ∧
      c'.vo_data = install c'.vo_control ∧ c'.flipped_indexes = rebuildMarker := by
  rw [call_eq] at h
  obtain ⟨⟨flipped, t⟩, hup, h⟩ := of_bind_ok h
  rw [settle] at h
  split at h
  case isTrue heq =>
    obtain ⟨⟨done, t'⟩, hre, h⟩ := of_bind_ok h
    obtain ⟨-, rfl⟩ := Prod.mk.inj (Except.ok.inj h)
    have hmark : flipped = rebuildMarker := heq
    subst hmark
    exact ⟨t, done, hup, hre, rfl, rfl⟩
  case isFalse =>
    cases h

theorem update_follows {t t' : Tracker K E} {flipped : List ℕ} (h : Invariant S.othello t.othello)
    (hrun : update S t x = .ok (flipped, t')) (hne : flipped ≠ rebuildMarker) :
    follow S (install t) flipped x = some (install t') ∧ HasRoom S (install t) x ∧
      Invariant S.othello t'.othello ∧ Logged S.othello t.othello [] t'.othello flipped := by
  cases x with
  | insert kv => exact insert_follows h hrun hne
  | setValue kv =>
    obtain ⟨hset, hroom, hinv⟩ := setValue_follows h hrun hne
    refine ⟨congrArg some hset, fun h0 => hroom ?_, hinv⟩
    rwa [query_install] at h0

/-- Calls that return true, each with the flips it has left. -/
inductive Deltas (S : TrackerSetup K E) (c : ControlVO K E) :
    List (Call K × List ℕ) → ControlVO K E → Prop
  | nil : Deltas S c [] c
  | snoc {l c' x n pos neg c''} : Deltas S c l c' → call S n pos neg c' x = .ok (true, c'') →
      Deltas S c (l ++ [(x, c''.flipped_indexes)]) c''

def replay (S : TrackerSetup K E) (d : Verifier E) (l : List (Call K × List ℕ)) :
    Option (Verifier E) :=
  l.foldlM (fun d xf => follow S d xf.2 xf.1) d

theorem Deltas.othello {l : List (Call K × List ℕ)} (h : Invariant S.othello c.vo_control.othello)
    (hrun : Deltas S c l c') : Invariant S.othello c'.vo_control.othello := by
  induction hrun with
  | nil => exact h
  | snoc _ hcall ih =>
    obtain ⟨hup, hne, -⟩ := call_true hcall
    exact (update_follows ih hup hne).2.2.1

theorem Deltas.replays {l : List (Call K × List ℕ)} (h : Invariant S.othello c.vo_control.othello)
    (hrun : Deltas S c l c') :
    replay S (install c.vo_control) l = some (install c'.vo_control) := by
  induction hrun with
  | nil => rfl
  | snoc hbefore hcall ih =>
    obtain ⟨hup, hne, -⟩ := call_true hcall
    obtain ⟨hfollow, -⟩ := update_follows (hbefore.othello h) hup hne
    rw [replay, List.foldlM_append, ← replay, ih]
    exact (bind_pure _).trans hfollow

/-- Filter, engine and cells of the device are the tracker's, every key gets the same answer,
and the device has room for the next call. -/
structure Identical (S : TrackerSetup K E) (c : ControlVO K E) (d : Verifier E) : Prop where
  vf : d.vf = c.vo_control.vf
  mem : d.othello.mem = c.vo_control.othello.mem
  query : ∀ k, DASSVerifier.query S d k = CRIoTControl.query S c k
  room : ∀ x n pos neg c', call S n pos neg c x = .ok (true, c') → HasRoom S d x
  flips : ∀ x n pos neg c', call S n pos neg c x = .ok (true, c') →
    ∀ i ∈ c'.flipped_indexes, i < 64 * d.othello.mem.length

/-- A device that was installed at any time and has replayed every call since is identical. -/
theorem deltas_replayed {reg : K → Option Bool} {c₁ c₂ : ControlVO K E}
    {before l : List (Call K × List ℕ)} (h : TrackerRun.Reached S c.vo_control reg)
    (hbefore : Deltas S c before c₁) (hrun : Deltas S c₁ l c₂) :
    ∃ d, replay S (install c₁.vo_control) l = some d ∧ Identical S c₂ d := by
  have h₁ := hbefore.othello h.consistent.1.othello
  have h₂ := hrun.othello h₁
  refine ⟨install c₂.vo_control, hrun.replays h₁, rfl, rfl, fun k => query_install _ k,
    fun x n pos neg c' hcall => ?_, fun x n pos neg c' hcall => ?_⟩
  · obtain ⟨hup, hne, -⟩ := call_true hcall
    exact (update_follows h₂ hup hne).2.1
  · obtain ⟨hup, hne, -⟩ := call_true hcall
    obtain ⟨-, -, -, hlog⟩ := update_follows h₂ hup hne
    obtain ⟨flips, heq, hrep⟩ := hlog.flips
    rw [heq, List.nil_append]
    exact (hrep rfl).1

theorem deltas_replayed_small : ∃ (c c' : ControlVO ℕ ℕ) (l : List (Call ℕ × List ℕ))
    (d : Verifier ℕ), l.map Prod.fst = [.insert (6, 1), .setValue (1, 0)] ∧
      replay smallTracker (install c.vo_control) l = some d ∧ Identical smallTracker c' d := by
  obtain ⟨t₀, t₁, t₂, f₁, f₂, hstart, -, hins, hne₁, hset, hne₂⟩ := smallRun_steps
  have h₁ : call smallTracker 0 [] [] ⟨t₀, install t₀, []⟩ (.insert (6, 1)) =
    .ok (true, ⟨t₁, install t₀, f₁⟩) := call_of_update hins hne₁
  have h₂ : call smallTracker 0 [] [] ⟨t₁, install t₀, f₁⟩ (.setValue (1, 0)) =
    .ok (true, ⟨t₂, install t₀, f₂⟩) := call_of_update hset hne₂
  obtain ⟨d, hreplay, hid⟩ := deltas_replayed hstart .nil (.snoc (.snoc .nil h₁) h₂)
  exact ⟨_, _, _, d, rfl, hreplay, hid⟩

/-- A call of a run: the server's rebuild is given the registered keys in the order the sets
list them, and the new filter fits. -/
inductive Called (S : TrackerSetup K E) (c : ControlVO K E) (x : Call K) :
    Bool → ControlVO K E → Prop
  | keep {n : ℕ} {pos neg : List K} {c' : ControlVO K E} : call S n pos neg c x = .ok (true, c') →
      Called S c x true c'
  | rebuild {n : ℕ} {pos neg : List K} {t : Tracker K E} {c' : ControlVO K E} :
      update S c.vo_control x = .ok (rebuildMarker, t) →
      Enumerates t pos neg → call S n pos neg c x = .ok (false, c') → Fits c'.vo_control.vf →
      Called S c x false c'

theorem Called.settled {ok : Bool} (h : Called S c x ok c') :
    ∃ r, update S c.vo_control x = .ok r ∧ Settled S r c'.vo_control := by
  cases h with
  | keep hcall =>
    obtain ⟨hup, hne, -⟩ := call_true hcall
    exact ⟨_, hup, .keep hne⟩
  | rebuild hup he hcall hfit =>
    obtain ⟨t, done, hup', hre, -⟩ := call_false hcall
    obtain rfl := (Prod.mk.inj (Except.ok.inj (hup.symm.trans hup'))).2
    exact ⟨_, hup, .rebuild he hre hfit⟩

structure Event (K E : Type) where
  before : ControlVO K E
  call : Call K
  status : Bool
  after : ControlVO K E

/-- The runs from the state `c₀` that `init` leaves, with the value each registered key was
given last. -/
inductive Run (S : TrackerSetup K E) (c₀ : ControlVO K E) :
    List (Event K E) → ControlVO K E → (K → Option Bool) → Prop
  | init {c : ControlVO K E} {n : ℕ} {pos neg : List K} :
      c.vo_control.PK = ∅ ∧ c.vo_control.NK = ∅ → pos.Nodup → neg.Nodup →
      List.Disjoint pos neg → pos.length < 2 ^ 32 → neg.length < 2 ^ 32 →
      CRIoTControl.init S c n pos neg = .ok c₀ → Fits c₀.vo_control.vf →
      Run S c₀ [] c₀ fun k => if k ∈ pos then some true else if k ∈ neg then some false else none
  | insert {l reg k b ok} {c c' : ControlVO K E} : Run S c₀ l c reg →
      k ∉ c.vo_control.PK → k ∉ c.vo_control.NK → Called S c (.insert (k, Bool.toNat b)) ok c' →
      Run S c₀ (l ++ [⟨c, .insert (k, Bool.toNat b), ok, c'⟩]) c'
        (Function.update reg k (some b))
  | setValue {l reg k b ok} {c c' : ControlVO K E} : Run S c₀ l c reg →
      k ∈ c.vo_control.PK ∨ k ∈ c.vo_control.NK → Called S c (.setValue (k, Bool.toNat b)) ok c' →
      Run S c₀ (l ++ [⟨c, .setValue (k, Bool.toNat b), ok, c'⟩]) c'
        (Function.update reg k (some b))

variable {c₀ : ControlVO K E} {l : List (Event K E)} {reg : K → Option Bool}

theorem Run.reached (h : Run S c₀ l c reg) : TrackerRun.Reached S c.vo_control reg := by
  induction h with
  | init hempty hpos hneg hdisj hlp hln hinit hfit =>
    obtain ⟨⟨done, t⟩, hbatch, hc⟩ := of_bind_ok hinit
    obtain rfl := Except.ok.inj hc
    exact .start hempty hpos hneg hdisj hlp hln hbatch hfit
  | insert _ hP hN hcall ih =>
    obtain ⟨r, hup, hset⟩ := hcall.settled
    exact .insert ih hP hN hup hset
  | setValue _ hk hcall ih =>
    obtain ⟨r, hup, hset⟩ := hcall.settled
    exact .setValue ih hk hup hset

theorem Run.answers (h : Run S c₀ l c reg) (k : K) :
    (k ∈ c.vo_control.PK ∨ k ∈ c.vo_control.NK ↔ (reg k).isSome = true) ∧
      ∀ b, reg k = some b → CRIoTControl.query S c k = Bool.toNat b := by
  obtain ⟨hcons, hreg⟩ := h.reached.consistent
  constructor
  · rw [hreg.PK, hreg.NK]
    rcases reg k with _ | _ | _ <;> simp
  · intro b hb
    cases b with
    | true => exact hcons.query_positive ((hreg.PK k).mpr hb)
    | false => exact hcons.query_negative ((hreg.NK k).mpr hb)

theorem Run.last {p : ControlVO K E → Prop} (h : Run S c₀ l c reg) (h₀ : p c₀)
    (hl : ∀ e ∈ l, p e.after) : p c := by
  cases h with
  | init => exact h₀
  | insert => exact hl _ (List.mem_append_right _ (List.mem_singleton_self _))
  | setValue => exact hl _ (List.mem_append_right _ (List.mem_singleton_self _))

theorem Run.start (h : Run S c₀ l c reg) :
    c₀.vo_data = install c₀.vo_control ∧ ∃ reg₀, Run S c₀ [] c₀ reg₀ := by
  induction h with
  | init hempty hpos hneg hdisj hlp hln hinit hfit =>
    refine ⟨?_, _, .init hempty hpos hneg hdisj hlp hln hinit hfit⟩
    obtain ⟨⟨done, t⟩, -, hc⟩ := of_bind_ok hinit
    obtain rfl := Except.ok.inj hc
    rfl
  | insert _ _ _ _ ih => exact ih
  | setValue _ _ _ ih => exact ih

end CRIoTControl
