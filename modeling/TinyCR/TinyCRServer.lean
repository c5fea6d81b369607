import TinyCR.FullWire

/-! # The commands of `TinyCRServer`

A command changes the server's structure and sends one update. Whether it is a summary or a full
update depends on the status of the change, except where the command does not look at it. -/
namespace TinyCRServer

open ControlPlaneOthello OthelloInvariant VacuumFilter DASSTracker TrackerInvariant TrackerRun
  DASSVerifier CRIoTControl SummaryWire FullWire

variable {K E : Type}

/-- What is sent: the values `encode_full` and `encode_batch_summary` read. -/
inductive Update (K E : Type)
  | full (vo_data : Verifier E)
  | summary (flipped_indexes : List ℕ) (kvs : List (K × ℕ)) (actions : List UInt8)

/-- "add {k} {v}", "rem {k}", "unr {k}" and "rev {k}" -/
inductive Command (K : Type)
  | add (kv : K × ℕ)
  | rem (key : K)
  | unr (key : K)
  | rev (key : K)
  deriving DecidableEq, Repr

section Commands

variable [DecidableEq K] [Inhabited K] (S : TrackerSetup K E) (n : ℕ)
  (positive_keys negative_keys : List K)

def report (status : Bool) (c : ControlVO K E) (kv : K × ℕ) (action : UInt8) : Update K E :=
  if status then .summary c.flipped_indexes [kv] [action] else .full c.vo_data

def addCertificate (c : ControlVO K E) (kv : K × ℕ) :
    Except Fault (Update K E × ControlVO K E) := do
  let (status, c) ← CRIoTControl.insert S n positive_keys negative_keys c kv
  return (report status c kv SummaryWire.AddAction, c)

/-- `std::vector<uint8_t>(RemoveAction)` holds `RemoveAction` zeros. -/
def removeCertificate (c : ControlVO K E) (key : K) :
    Except Fault (Update K E × ControlVO K E) := do
  let c ← CRIoTControl.erase S c key
  return (.summary c.flipped_indexes [(key, 0)] (List.replicate RemoveAction.toNat 0), c)

def unrevokeCertificate (c : ControlVO K E) (key : K) :
    Except Fault (Update K E × ControlVO K E) := do
  let (status, c) ← CRIoTControl.setValue S n positive_keys negative_keys c (key, 0)
  return (report status c (key, 0) UnrevokeAction, c)

/-- The status of `setValue` is not looked at. -/
def revokeCertificate (c : ControlVO K E) (key : K) :
    Except Fault (Update K E × ControlVO K E) := do
  let (_, c) ← CRIoTControl.setValue S n positive_keys negative_keys c (key, 1)
  return (.summary c.flipped_indexes [(key, 1)] [RevokeAction], c)

def command (c : ControlVO K E) : Command K → Except Fault (Update K E × ControlVO K E)
  | .add kv => addCertificate S n positive_keys negative_keys c kv
  | .rem key => removeCertificate S c key
  | .unr key => unrevokeCertificate S n positive_keys negative_keys c key
  | .rev key => revokeCertificate S n positive_keys negative_keys c key

/-- The end of `decode_sub_summary`; `none` ends the process. -/
def perform (d : Verifier E) (e : Entry K) : Option (Verifier E) :=
  if e.action = SummaryWire.AddAction then DASSVerifier.insert S d e.kv e.flipped_indexes
  else if e.action = RemoveAction then some d
  else if e.action = UnrevokeAction ∨ e.action = RevokeAction then
    some (DASSVerifier.setValue S d e.kv e.flipped_indexes)
  else some d

/-- The device has decoded exactly what was encoded. -/
def receive (d : Verifier E) : Update K E → Option (Verifier E)
  | .full vo_data => some vo_data
  | .summary flipped_indexes kvs actions =>
    (entries flipped_indexes kvs actions).foldlM (perform S) d

end Commands

variable {S : TrackerSetup K E} {c c' : ControlVO K E} {n : ℕ} {pos neg : List K}
  {u : Update K E} {d : Verifier E}

def Command.call : Command K → Option (Call K)
  | .add kv => some (.insert kv)
  | .rem _ => none
  | .unr key => some (.setValue (key, 0))
  | .rev key => some (.setValue (key, 1))

def Command.update (status : Bool) (c : ControlVO K E) : Command K → Update K E
  | .add kv => report status c kv SummaryWire.AddAction
  | .rem key => .summary c.flipped_indexes [(key, 0)] [0]
  | .unr key => report status c (key, 0) UnrevokeAction
  | .rev key => report true c (key, 1) RevokeAction

theorem perform_add (kv : K × ℕ) (flipped : List ℕ) :
    perform S d ⟨SummaryWire.AddAction, kv, flipped⟩ = DASSVerifier.insert S d kv flipped :=
  if_pos rfl

theorem perform_setValue (kv : K × ℕ) (flipped : List ℕ) {action : UInt8}
    (h : action = UnrevokeAction ∨ action = RevokeAction) :
    perform S d ⟨action, kv, flipped⟩ = some (DASSVerifier.setValue S d kv flipped) := by
  have hadd : action ≠ SummaryWire.AddAction := by rcases h with rfl | rfl <;> decide
  have hremove : action ≠ RemoveAction := by rcases h with rfl | rfl <;> decide
  rw [perform, if_neg hadd, if_neg hremove, if_pos h]

theorem receive_one (kv : K × ℕ) (flipped : List ℕ) (action : UInt8) :
    receive S d (.summary flipped [kv] [action]) = perform S d ⟨action, kv, flipped⟩ :=
  bind_pure (perform S d ⟨action, kv, flipped⟩)

theorem receive_delta {cmd : Command K} {x : Call K} (hx : cmd.call = some x) :
    receive S d (cmd.update true c) = follow S d c.flipped_indexes x := by
  cases cmd with
  | rem => cases hx
  | add kv =>
    obtain rfl := Option.some.inj hx
    exact (receive_one kv _ _).trans (perform_add kv _)
  | unr key =>
    obtain rfl := Option.some.inj hx
    exact (receive_one _ _ _).trans (perform_setValue _ _ (Or.inl rfl))
  | rev key =>
    obtain rfl := Option.some.inj hx
    exact (receive_one _ _ _).trans (perform_setValue _ _ (Or.inr rfl))

variable [DecidableEq K] [Inhabited K]

theorem command_call {cmd : Command K} {x : Call K} (hx : cmd.call = some x)
    (h : command S n pos neg c cmd = .ok (u, c')) :
    ∃ status, call S n pos neg c x = .ok (status, c') ∧ u = cmd.update status c' := by
  cases cmd with
  | rem => cases hx
  | add kv =>
    obtain rfl := Option.some.inj hx
    obtain ⟨⟨status, c₁⟩, hcall, h⟩ := of_bind_ok h
    obtain ⟨rfl, rfl⟩ := Prod.mk.inj (Except.ok.inj h)
    exact ⟨status, hcall, rfl⟩
  | unr key =>
    obtain rfl := Option.some.inj hx
    obtain ⟨⟨status, c₁⟩, hcall, h⟩ := of_bind_ok h
    obtain ⟨rfl, rfl⟩ := Prod.mk.inj (Except.ok.inj h)
    exact ⟨status, hcall, rfl⟩
  | rev key =>
    obtain rfl := Option.some.inj hx
    obtain ⟨⟨status, c₁⟩, hcall, h⟩ := of_bind_ok h
    obtain ⟨rfl, rfl⟩ := Prod.mk.inj (Except.ok.inj h)
    exact ⟨status, hcall, rfl⟩

structure Record (K E : Type) where
  before : ControlVO K E
  command : Command K
  update : Update K E
  after : ControlVO K E

/-- The command is served: should it come to a rebuild, that is given the registered keys in the
order the sets list them, and the new filter fits. -/
def Served (S : TrackerSetup K E) (c : ControlVO K E) (cmd : Command K) (u : Update K E)
    (c' : ControlVO K E) : Prop :=
  ∃ n pos neg, command S n pos neg c cmd = .ok (u, c') ∧ ∀ x t, cmd.call = some x →
    CRIoTControl.update S c.vo_control x = .ok (rebuildMarker, t) →
    Enumerates t pos neg ∧ Fits c'.vo_control.vf

theorem Served.called {cmd : Command K} {x : Call K} (hx : cmd.call = some x)
    (h : Served S c cmd u c') : ∃ status, Called S c x status c' ∧ u = cmd.update status c' := by
  obtain ⟨n, pos, neg, hcmd, hre⟩ := h
  obtain ⟨status, hcall, hu⟩ := command_call hx hcmd
  refine ⟨status, ?_, hu⟩
  cases status with
  | true => exact .keep hcall
  | false =>
    obtain ⟨t, done, hup, -⟩ := call_false hcall
    obtain ⟨he, hfit⟩ := hre x t hx hup
    exact .rebuild hup he hcall hfit

/-- What the server does from the state `c₀` that `init` leaves on: fresh keys are added, and
registered ones revoked and unrevoked. -/
inductive Session (S : TrackerSetup K E) (c₀ : ControlVO K E) :
    List (Record K E) → ControlVO K E → (K → Option Bool) → Prop
  | start {reg} : Run S c₀ [] c₀ reg → Session S c₀ [] c₀ reg
  | add {l reg k b u} {c c' : ControlVO K E} : Session S c₀ l c reg →
      k ∉ c.vo_control.PK → k ∉ c.vo_control.NK → Served S c (.add (k, Bool.toNat b)) u c' →
      Session S c₀ (l ++ [⟨c, .add (k, Bool.toNat b), u, c'⟩]) c'
        (Function.update reg k (some b))
  | unr {l reg k u} {c c' : ControlVO K E} : Session S c₀ l c reg →
      k ∈ c.vo_control.PK ∨ k ∈ c.vo_control.NK → Served S c (.unr k) u c' →
      Session S c₀ (l ++ [⟨c, .unr k, u, c'⟩]) c' (Function.update reg k (some false))
  | rev {l reg k u} {c c' : ControlVO K E} : Session S c₀ l c reg →
      k ∈ c.vo_control.PK ∨ k ∈ c.vo_control.NK → Served S c (.rev k) u c' →
      Session S c₀ (l ++ [⟨c, .rev k, u, c'⟩]) c' (Function.update reg k (some true))

variable {c₀ : ControlVO K E} {l : List (Record K E)} {reg : K → Option Bool}

theorem Session.run (h : Session S c₀ l c reg) : ∃ events, Run S c₀ events c reg := by
  induction h with
  | start hrun => exact ⟨_, hrun⟩
  | add _ hP hN hserved ih =>
    obtain ⟨events, hrun⟩ := ih
    obtain ⟨status, hcall, -⟩ := hserved.called rfl
    exact ⟨_, hrun.insert hP hN hcall⟩
  | unr _ hk hserved ih =>
    obtain ⟨events, hrun⟩ := ih
    obtain ⟨status, hcall, -⟩ := hserved.called rfl
    exact ⟨_, hrun.setValue (b := false) hk hcall⟩
  | rev _ hk hserved ih =>
    obtain ⟨events, hrun⟩ := ih
    obtain ⟨status, hcall, -⟩ := hserved.called rfl
    exact ⟨_, hrun.setValue (b := true) hk hcall⟩

theorem Session.served (h : Session S c₀ l c reg) :
    ∀ r ∈ l, Served S r.before r.command r.update r.after := by
  induction h with
  | start => exact fun r hr => by cases hr
  | add _ _ _ hserved ih =>
    exact List.forall_mem_append.mpr ⟨ih, List.forall_mem_singleton.mpr hserved⟩
  | unr _ _ hserved ih =>
    exact List.forall_mem_append.mpr ⟨ih, List.forall_mem_singleton.mpr hserved⟩
  | rev _ _ hserved ih =>
    exact List.forall_mem_append.mpr ⟨ih, List.forall_mem_singleton.mpr hserved⟩

theorem startRun_run {t : Tracker ℕ ℕ} (h : startRun = some t) :
    Run smallTracker ⟨t, install t, []⟩ [] ⟨t, install t, []⟩ startReg := by
  obtain ⟨done, hbatch, hfit⟩ := started_some h
  have hbatch' : batch_insert smallTracker 1 (DASSTracker.init smallTracker emptyTracker
      [1, 2, 3, 4].length [5, 18].length) [1, 2, 3, 4] [5, 18] = .ok (done, t) := hbatch
  have hinit : CRIoTControl.init smallTracker ⟨emptyTracker, install emptyTracker, []⟩ 1
      [1, 2, 3, 4] [5, 18] = .ok ⟨t, install t, []⟩ := by
    rw [CRIoTControl.init, hbatch']
    rfl
  exact .init (c := ⟨emptyTracker, install emptyTracker, []⟩) ⟨rfl, rfl⟩ (by decide) (by decide)
    (by simp) (by decide) (by decide) hinit hfit

def addingRun : Option (Tracker ℕ ℕ × Tracker ℕ ℕ) := do
  let t ← startRun
  match DASSTracker.insert smallTracker t (100, 1) with
  | .ok (flipped, t') => if flipped = [1] then some (t, t') else none
  | .error _ => none

theorem addingRun_session {t t' : Tracker ℕ ℕ} (h : addingRun = some (t, t')) :
    Run smallTracker ⟨t, install t, []⟩ [] ⟨t, install t, []⟩ startReg ∧
      (100 ∉ t.PK ∧ 100 ∉ t.NK) ∧ Served smallTracker ⟨t, install t, []⟩ (.add (100, 1))
        (.summary [1] [(100, 1)] [SummaryWire.AddAction]) ⟨t', install t, [1]⟩ := by
  rw [addingRun] at h
  obtain ⟨t₀, hstart, h⟩ := Option.bind_eq_some_iff.mp h
  split at h
  case h_2 => cases h
  case h_1 flipped t₁ hins =>
    split at h
    case isFalse => cases h
    case isTrue hone =>
      obtain ⟨rfl, rfl⟩ := Prod.mk.inj (Option.some.inj h)
      subst hone
      have hrun := startRun_run hstart
      obtain ⟨-, hreg⟩ := hrun.reached.consistent
      have hcall : call smallTracker 0 [] [] ⟨t₀, install t₀, []⟩ (.insert (100, 1)) =
        .ok (true, ⟨t₁, install t₀, [1]⟩) := call_of_update hins (by decide)
      have hcmd : command smallTracker 0 [] [] ⟨t₀, install t₀, []⟩ (.add (100, 1)) = .ok
          (.summary [1] [(100, 1)] [SummaryWire.AddAction], ⟨t₁, install t₀, [1]⟩) := by
        have hcall' : CRIoTControl.insert smallTracker 0 [] [] ⟨t₀, install t₀, []⟩ (100, 1) =
          .ok (true, ⟨t₁, install t₀, [1]⟩) := hcall
        rw [command, addCertificate, hcall']
        rfl
      refine ⟨hrun, ⟨fun hP => ?_, fun hN => ?_⟩, 0, [], [], hcmd, fun x t hx hup => ?_⟩
      · simpa [startReg] using (hreg.PK 100).mp hP
      · simpa [startReg] using (hreg.NK 100).mp hN
      · obtain rfl := Option.some.inj hx
        have hmark := (Prod.mk.inj (Except.ok.inj (hins.symm.trans hup))).1
        exact absurd hmark (by decide)

end TinyCRServer
