import TinyCR.DeviceAgreement

/-! # The list of connected devices

A device joins under its address, which is appended to `connectedDevices`, and every update goes
to each entry of that list. Entries are never removed, and a join does not look for the address: a
device that has joined twice takes every summary twice. -/
namespace ConnectedDevices

open DASSTracker TrackerRun DASSVerifier CRIoTControl SummaryWire TinyCRServer

variable {A K E : Type}

/-- The server, and what the device at each address holds; `none` is a device that has not joined
or whose process has ended. -/
structure Fleet (A K E : Type) where
  dassTracker : ControlVO K E
  connectedDevices : List A
  devices : A → Option (Verifier E)

section Steps

variable [DecidableEq A] [DecidableEq K] [Inhabited K] (S : TrackerSetup K E)

/-- A device at `host` connects: it is noted and sent a full update. -/
def listenForNewDevices (s : Fleet A K E) (host : A) : Fleet A K E :=
  { s with
    connectedDevices := s.connectedDevices ++ [host]
    devices := Function.update s.devices host (some s.dassTracker.vo_data) }

/-- What `sendSummaryUpdate` and `sendFullUpdates` send, in order. -/
def messages (s : Fleet A K E) (u : Update K E) : List (A × Update K E) :=
  s.connectedDevices.map fun host => (host, u)

def deliver (devices : A → Option (Verifier E)) (message : A × Update K E) :
    A → Option (Verifier E) :=
  Function.update devices message.1
    ((devices message.1).bind fun d => receive S d message.2)

def serve (s : Fleet A K E) (u : Update K E) (c : ControlVO K E) : Fleet A K E :=
  { s with
    dassTracker := c
    devices := (messages s u).foldl (deliver S) s.devices }

end Steps

structure Sent (A K E : Type) where
  joined : List A
  before : Fleet A K E
  command : Command K
  update : Update K E
  after : Fleet A K E

variable [DecidableEq A] [DecidableEq K] [Inhabited K] {S : TrackerSetup K E}

/-- Joins and commands in any order, from a server that no device has joined. -/
inductive Interleaving (S : TrackerSetup K E) :
    List A → List (Sent A K E) → Fleet A K E → Prop
  | start {c} : Interleaving S [] [] ⟨c, [], fun _ => none⟩
  | join {joined l s} (host : A) : Interleaving S joined l s →
      Interleaving S (joined ++ [host]) l (listenForNewDevices s host)
  | command {joined l s cmd u c} : Interleaving S joined l s → Served S s.dassTracker cmd u c →
      Interleaving S joined (l ++ [⟨joined, s, cmd, u, serve S s u c⟩]) (serve S s u c)

def IsSummary (u : Update K E) : Prop :=
  ∃ flipped_indexes kvs actions, u = .summary flipped_indexes kvs actions

/-- Each address that has joined is sent the update once and has received it once; for an added
key that is one `DASS_Verifier::insert`. -/
structure OnceEach (S : TrackerSetup K E) (r : Sent A K E) : Prop where
  sent : ∀ host ∈ r.joined, ((messages r.before r.update).map Prod.fst).count host = 1
  received : ∀ host ∈ r.joined,
    r.after.devices host = (r.before.devices host).bind fun d => receive S d r.update
  added : ∀ kv, r.command = .add kv → ∀ host ∈ r.joined,
    r.after.devices host = (r.before.devices host).bind fun d =>
      DASSVerifier.insert S d kv r.after.dassTracker.flipped_indexes

omit [DecidableEq K] [Inhabited K] in
theorem devices_after (hosts : List A) (u : Update K E) (devices : A → Option (Verifier E))
    (host : A) : ((hosts.map fun h => (h, u)).foldl (deliver S) devices) host =
      (fun d => Option.bind d fun d => receive S d u)^[hosts.count host] (devices host) := by
  induction hosts generalizing devices with
  | nil => rfl
  | cons h hosts ih =>
    rw [List.map_cons, List.foldl_cons, ih]
    by_cases heq : h = host
    · subst heq
      rw [List.count_cons_self, Function.iterate_succ_apply, deliver, Function.update_self]
    · rw [List.count_cons_of_ne heq, deliver, Function.update_of_ne (Ne.symm heq)]

omit [DecidableEq K] [Inhabited K] in
theorem devices_join (s : Fleet A K E) (host : A) :
    (listenForNewDevices s host).devices host = some s.dassTracker.vo_data :=
  Function.update_self ..

structure Recorded (S : TrackerSetup K E) (r : Sent A K E) : Prop where
  joined : r.before.connectedDevices = r.joined
  served : Served S r.before.dassTracker r.command r.update r.after.dassTracker
  after : r.after = serve S r.before r.update r.after.dassTracker

theorem Interleaving.recorded {joined : List A} {l : List (Sent A K E)} {s : Fleet A K E}
    (h : Interleaving S joined l s) : s.connectedDevices = joined ∧ ∀ r ∈ l, Recorded S r := by
  induction h with
  | start => exact ⟨rfl, fun r hr => by cases hr⟩
  | join host _ ih => exact ⟨congrArg (· ++ [host]) ih.1, ih.2⟩
  | command _ hserved ih =>
    refine ⟨ih.1, List.forall_mem_append.mpr ⟨ih.2, List.forall_mem_singleton.mpr ?_⟩⟩
    exact ⟨ih.1, hserved, rfl⟩

theorem Recorded.devices_eq {r : Sent A K E} (h : Recorded S r) (host : A) :
    r.after.devices host = (fun d => Option.bind d fun d => receive S d r.update)^[
      r.joined.count host] (r.before.devices host) := by
  rw [h.after, ← h.joined]
  exact devices_after _ _ _ host

theorem Recorded.receive_added {r : Sent A K E} (h : Recorded S r) (hsum : IsSummary r.update)
    {kv : K × ℕ} (hadd : r.command = .add kv) (d : Verifier E) :
    receive S d r.update = DASSVerifier.insert S d kv r.after.dassTracker.flipped_indexes := by
  have hserved := h.served
  rw [hadd] at hserved
  obtain ⟨status, -, hu⟩ := hserved.called rfl
  cases status with
  | true =>
    have hcall : (Command.add kv : Command K).call = some (.insert kv) := rfl
    rw [hu]
    exact receive_delta hcall
  | false =>
    obtain ⟨flipped, kvs, actions, hs⟩ := hsum
    rw [hu] at hs
    cases hs

/-- In every run: all summaries are received once each exactly if none is sent after an address
has joined twice. -/
theorem received_once_iff {joined : List A} {l : List (Sent A K E)} {s : Fleet A K E}
    (h : Interleaving S joined l s) : (∀ r ∈ l, IsSummary r.update → OnceEach S r) ↔
      ∀ r ∈ l, IsSummary r.update → r.joined.Nodup := by
  refine forall₂_congr fun r hr => forall_congr' fun hsum => ?_
  have hrec := h.recorded.2 r hr
  have hsent : (messages r.before r.update).map Prod.fst = r.joined := by
    rw [messages, List.map_map, hrec.joined]
    exact List.map_id _
  constructor
  · intro honce
    rw [List.nodup_iff_count_eq_one]
    intro host hhost
    have hone := honce.sent host hhost
    rwa [hsent] at hone
  · intro hnodup
    have hone : ∀ host ∈ r.joined, r.joined.count host = 1 := fun host hhost =>
      List.count_eq_one_of_mem hnodup hhost
    have hreceived : ∀ host ∈ r.joined, r.after.devices host =
        (r.before.devices host).bind fun d => receive S d r.update := by
      intro host hhost
      rw [hrec.devices_eq, hone host hhost]
      rfl
    refine ⟨fun host hhost => ?_, hreceived, fun kv hadd host hhost => ?_⟩
    · rw [hsent]
      exact hone host hhost
    · rw [hreceived host hhost]
      exact congrArg _ (funext fun d => hrec.receive_added hsum hadd d)

theorem addingRun_facts : addingRun.map (fun p =>
    ((DASSVerifier.insert smallTracker (install p.1) (100, 1) [1]).map
        fun d => DASSVerifier.query smallTracker d 100,
      ((DASSVerifier.insert smallTracker (install p.1) (100, 1) [1]).bind
        fun d => DASSVerifier.insert smallTracker d (100, 1) [1]).map
          fun d => DASSVerifier.query smallTracker d 100)) = some (some 1, some 0) := by
  decide +kernel

theorem addingRun_twice : ∃ t t' d d', addingRun = some (t, t') ∧
    DASSVerifier.insert smallTracker (install t) (100, 1) [1] = some d ∧
    DASSVerifier.insert smallTracker d (100, 1) [1] = some d' ∧
    DASSVerifier.query smallTracker d' 100 = 0 := by
  obtain ⟨⟨t, t'⟩, hrun, hfacts⟩ := Option.map_eq_some_iff.mp addingRun_facts
  obtain ⟨honce, htwice⟩ := Prod.mk.inj hfacts
  obtain ⟨d, hd, -⟩ := Option.map_eq_some_iff.mp honce
  obtain ⟨d', hd', hquery⟩ := Option.map_eq_some_iff.mp htwice
  rw [hd] at hd'
  exact ⟨t, t', d, d', hrun, hd, hd', hquery⟩

theorem interleaving_adding {t t' : Tracker ℕ ℕ} (h : addingRun = some (t, t'))
    {joined : List ℕ} {s : Fleet ℕ ℕ ℕ} (hs : Interleaving smallTracker joined [] s)
    (ht : s.dassTracker = ⟨t, install t, []⟩) : Interleaving smallTracker joined
      [⟨joined, s, .add (100, 1), .summary [1] [(100, 1)] [AddAction],
        serve smallTracker s (.summary [1] [(100, 1)] [AddAction]) ⟨t', install t, [1]⟩⟩]
      (serve smallTracker s (.summary [1] [(100, 1)] [AddAction]) ⟨t', install t, [1]⟩) := by
  obtain ⟨-, -, hserved⟩ := addingRun_session h
  exact .command hs (ht ▸ hserved)

theorem received_once_iff_seven : ∃ (r : Sent ℕ ℕ ℕ) (s : Fleet ℕ ℕ ℕ),
    Interleaving smallTracker [7] [r] s ∧ r.command = .add (100, 1) ∧ OnceEach smallTracker r := by
  obtain ⟨t, t', d, d', h, -⟩ := addingRun_twice
  have hs := interleaving_adding h (.join 7 .start) rfl
  refine ⟨_, _, hs, rfl, ?_⟩
  refine (received_once_iff hs).mpr (fun r hr _ => ?_) _ (List.mem_singleton_self _) ⟨_, _, _, rfl⟩
  rw [List.mem_singleton.mp hr]
  exact List.nodup_singleton 7

/-- Device 7 has joined twice before the revoked key 100 is added, and answers it with 0. -/
theorem rejoined_device_differs : ∃ (c₀ : ControlVO ℕ ℕ) (r : Sent ℕ ℕ ℕ) (s : Fleet ℕ ℕ ℕ)
    (d : Verifier ℕ), Run smallTracker c₀ [] c₀ startReg ∧ r.before.dassTracker = c₀ ∧
      Interleaving smallTracker [7, 7] [r] s ∧ r.command = .add (100, 1) ∧
      (100 ∉ c₀.vo_control.PK ∧ 100 ∉ c₀.vo_control.NK) ∧ IsSummary r.update ∧
      ¬ OnceEach smallTracker r ∧ s.devices 7 = some d ∧
      CRIoTControl.query smallTracker s.dassTracker 100 = 1 ∧
      DASSVerifier.query smallTracker d 100 = 0 := by
  obtain ⟨t, t', d, d', h, hd, hd', hquery⟩ := addingRun_twice
  obtain ⟨hrun, hnew, hserved⟩ := addingRun_session h
  have hs := interleaving_adding h (.join 7 (.join 7 .start)) rfl
  have hreceive : ∀ d : Verifier ℕ, receive smallTracker d
      (.summary [1] [(100, 1)] [AddAction]) = DASSVerifier.insert smallTracker d (100, 1) [1] :=
    fun d => (receive_one _ _ _).trans (perform_add _ _)
  obtain ⟨status, hcalled, -⟩ := hserved.called rfl
  have hanswer := (hrun.insert (b := true) hnew.1 hnew.2 hcalled).answers 100
  refine ⟨_, _, _, d', hrun, rfl, hs, rfl, hnew, ⟨_, _, _, rfl⟩, fun honce => ?_, ?_,
    hanswer.2 true (by simp), hquery⟩
  · have hsent := honce.sent 7 (by simp)
    revert hsent
    exact (by decide : ¬ 2 = 1)
  · refine (devices_after [7, 7] _ _ 7).trans ?_
    have htwice : [7, 7].count 7 = 2 := rfl
    rw [htwice, Function.iterate_succ_apply, Function.iterate_one]
    have hjoined : (listenForNewDevices (listenForNewDevices
        (⟨⟨t, install t, []⟩, [], fun _ => none⟩ : Fleet ℕ ℕ ℕ) 7) 7).devices 7 =
          some (install t) := devices_join _ 7
    rw [hjoined, Option.bind_some, hreceive, hd, Option.bind_some, hreceive, hd']

end ConnectedDevices
