import TinyCR.CertificateKeys
import TinyCR.ConnectedDevices
import TinyCR.LabelledRuns
import TinyCR.UpdateMessages

/-! # A fleet that is sent bytes

The server writes every update to one socket per entry of `connectedDevices`, and each client
handles the buffers it gets. Such a run is one in which the updates themselves are received. -/
namespace FleetMessages

open ControlPlaneOthello OthelloInvariant VacuumFilter DASSTracker TrackerInvariant TrackerRun
  DASSVerifier CRIoTControl SummaryWire FullWire FullUpdates TinyCRServer DeviceAgreement
  ConnectedDevices MessageFraming UpdateMessages LabelledRuns

open CertificateKeys (serverTracker)

variable {A K E : Type}

inductive Event (A K E : Type)
  | joined (host : A)
  | served (r : Record K E)

def hosts (l : List (Event A K E)) : List A :=
  l.filterMap fun
    | .joined host => some host
    | .served _ => none

def records (l : List (Event A K E)) : List (Record K E) :=
  l.filterMap fun
    | .joined _ => none
    | .served r => some r

theorem records_append (l l' : List (Event A K E)) : records (l ++ l') = records l ++ records l' :=
  List.filterMap_append ..

theorem hosts_append (l l' : List (Event A K E)) : hosts (l ++ l') = hosts l ++ hosts l' :=
  List.filterMap_append ..

@[simp] theorem records_joined (l : List (Event A K E)) (host : A) :
    records (l ++ [.joined host]) = records l :=
  (records_append l _).trans (List.append_nil _)

@[simp] theorem records_served (l : List (Event A K E)) (r : Record K E) :
    records (l ++ [.served r]) = records l ++ [r] :=
  records_append l _

@[simp] theorem hosts_joined (l : List (Event A K E)) (host : A) :
    hosts (l ++ [.joined host]) = hosts l ++ [host] :=
  hosts_append l _

@[simp] theorem hosts_served (l : List (Event A K E)) (r : Record K E) :
    hosts (l ++ [.served r]) = hosts l :=
  (hosts_append l _).trans (List.append_nil _)

section Steps

variable [DecidableEq A] (S : TrackerSetup K E) (W : WireTypes K) (X : EngineText E)

def welcome (s : Fleet A K E) (host : A) (d : Verifier E) (buffers : List (List UInt8)) :
    Fleet A K E :=
  { s with
    connectedDevices := s.connectedDevices ++ [host]
    devices := Function.update s.devices host (readFullSummary X d buffers) }

def read [DecidableEq K] [Inhabited K] (devices : A → Option (Verifier E))
    (socket : A × List (List UInt8)) : A → Option (Verifier E) :=
  Function.update devices socket.1
    ((devices socket.1).bind fun d => (listenForUpdates S W X d socket.2).map Prod.snd)

/-- The sockets of one update. -/
structure Sockets (s : Fleet A K E) (u : Update K E)
    (sockets : List (A × List (List UInt8))) : Prop where
  hosts : sockets.map Prod.fst = s.connectedDevices
  exactly : ∃ p, payload W X u = some p ∧ ∀ socket ∈ sockets, ReadExactly p socket.2

/-- The transport splits each message anew; every client reads all of it. -/
inductive Step [DecidableEq K] [Inhabited K] : Fleet A K E → Event A K E → Fleet A K E → Prop
  | join {s : Fleet A K E} (host : A) (d : Verifier E) {buffers : List (List UInt8)} :
      ReadExactly ([70] ++ (encode_full X s.dassTracker.vo_data).flatten) buffers →
      Step s (.joined host) (welcome X s host d buffers)
  | command {s : Fleet A K E} {cmd : Command K} {u : Update K E} {c : ControlVO K E}
      {sockets : List (A × List (List UInt8))} : Served S s.dassTracker cmd u c →
      Sockets W X s u sockets →
      Step s (.served ⟨s.dassTracker, cmd, u, c⟩)
        { s with dassTracker := c, devices := sockets.foldl (read S W X) s.devices }

end Steps

/-- The snapshots hold values of the C++ types, and every summary counts its flips in a byte. -/
structure Sendable (X : EngineText E) (c₀ : ControlVO K E) (l : List (Record K E)) : Prop where
  start : Typed X c₀.vo_data
  typed : ∀ r ∈ l, Typed X r.after.vo_data
  flips : ∀ r ∈ l, ∀ flipped_indexes kvs actions,
    r.update = .summary flipped_indexes kvs actions → flipped_indexes.length < 256

theorem Sendable.front {X : EngineText E} {c₀ : ControlVO K E} {l l' : List (Record K E)}
    (h : Sendable X c₀ (l ++ l')) : Sendable X c₀ l where
  start := h.start
  typed := fun r hr => h.typed r (List.mem_append_left _ hr)
  flips := fun r hr => h.flips r (List.mem_append_left _ hr)

def noDevices (c₀ : ControlVO K E) : Fleet A K E := ⟨c₀, [], fun _ => none⟩

variable [DecidableEq K] [Inhabited K] {S : TrackerSetup K E} {W : WireTypes K} {X : EngineText E}
  {c₀ c c' : ControlVO K E} {l : List (Record K E)} {reg : K → Option Bool}

theorem Run.fitting {events : List (CRIoTControl.Event K E)}
    (h : CRIoTControl.Run S c₀ events c reg) (ht : Typed X c.vo_data) :
    Fitting S W X (.full c.vo_data) := by
  obtain ⟨t, heq, hc, hf⟩ := Run.installed h
  rw [heq] at ht ⊢
  obtain ⟨hin, hlen⟩ := install_sizes hc hf ht
  have hv := hc.valid
  exact ⟨hin, hlen, hf.sound ⟨hv.small, hv.two_le, hv.fp_range⟩⟩

theorem Called.flips_lt {x : Call K} {ok : Bool} (h : Called S c x ok c')
    (hc : Consistent S c.vo_control) : ∀ i ∈ c'.flipped_indexes, i < 2 ^ 32 := by
  cases h with
  | keep hcall =>
    obtain ⟨hup, hne, -⟩ := call_true hcall
    obtain ⟨-, -, -, hlog⟩ := update_follows hc.othello hup hne
    obtain ⟨flips, heq, hrep⟩ := hlog.flips
    have hsized := hc.othello.sized
    intro i hi
    rw [heq, List.nil_append] at hi
    have hlt := (hrep rfl).1 i hi
    have hfits := hsized.fits
    have hlen := hsized.length_eq
    omega
  | rebuild _ _ hcall _ =>
    obtain ⟨-, -, -, -, -, hmark⟩ := call_false hcall
    intro i hi
    rw [hmark, rebuildMarker, List.mem_singleton] at hi
    omega

theorem Served.fitting {cmd : Command K} {x : Call K} {u : Update K E} {b : Bool}
    (hx : cmd.call = some x) (hb : x.kv.2 = Bool.toNat b) (h : Served S c cmd u c')
    (hc : Consistent S c.vo_control) (hfull : Fitting S W X (.full c'.vo_data))
    (hflips : ∀ flipped_indexes kvs actions, u = .summary flipped_indexes kvs actions →
      flipped_indexes.length < 256) : Fitting S W X u := by
  obtain ⟨status, hcall, rfl⟩ := h.called hx
  have hlt := Called.flips_lt hcall hc
  have hvalue : ∀ b : Bool, b.toNat < 256 ^ W.valueSize := by
    intro b
    have hone : b.toNat < 256 := by cases b <;> decide
    rcases W.value_size with hv | hv
    all_goals
      rw [hv]
      omega
  have hsummary : ∀ (k : K) (action : UInt8), (Update.summary c'.flipped_indexes
      [(k, b.toNat)] [action] : Update K E) = cmd.update status c' →
      Fitting S W X (.summary c'.flipped_indexes [(k, b.toNat)] [action]) := by
    intro k action heq
    refine ⟨rfl, ?_, hlt, by simp, by simp, Or.inr (hflips _ _ _ heq.symm)⟩
    intro kv hkv
    rw [List.mem_singleton.mp hkv]
    exact hvalue b
  cases cmd with
  | rem => cases hx
  | add kv =>
    obtain rfl := Option.some.inj hx
    obtain ⟨k, v⟩ := kv
    obtain rfl : v = b.toNat := hb
    cases status with
    | true => exact hsummary k _ rfl
    | false => exact hfull
  | unr k =>
    obtain rfl := Option.some.inj hx
    have hv : (0 : ℕ) = b.toNat := hb
    cases status with
    | true =>
      have hone := hsummary k UnrevokeAction (by rw [← hv]; rfl)
      rwa [← hv] at hone
    | false => exact hfull
  | rev k =>
    obtain rfl := Option.some.inj hx
    have hv : (1 : ℕ) = b.toNat := hb
    have hone := hsummary k RevokeAction (by rw [← hv]; rfl)
    rwa [← hv] at hone

@[elab_as_elim]
theorem Session.command_induction {motive : ∀ l c reg, Session S c₀ l c reg → Prop}
    (start : ∀ reg (h : CRIoTControl.Run S c₀ [] c₀ reg), motive [] c₀ reg (.start h))
    (command : ∀ (l : List (Record K E)) (c c' : ControlVO K E) (cmd : Command K) (u : Update K E)
      (x : Call K) (b : Bool) (reg reg' : K → Option Bool) (h : Session S c₀ l c reg)
      (h' : Session S c₀ (l ++ [⟨c, cmd, u, c'⟩]) c' reg'), cmd.call = some x →
      x.kv.2 = Bool.toNat b → Served S c cmd u c' → motive l c reg h → motive _ c' reg' h')
    {l : List (Record K E)} {c : ControlVO K E} {reg : K → Option Bool}
    (h : Session S c₀ l c reg) : motive l c reg h := by
  induction h with
  | start hrun => exact start _ hrun
  | add h hP hN hserved ih =>
    exact command _ _ _ _ _ _ _ _ _ h (.add h hP hN hserved) rfl rfl hserved ih
  | unr h hk hserved ih =>
    exact command _ _ _ _ _ _ false _ _ h (.unr h hk hserved) rfl rfl hserved ih
  | rev h hk hserved ih =>
    exact command _ _ _ _ _ _ true _ _ h (.rev h hk hserved) rfl rfl hserved ih

theorem Session.start_run (h : Session S c₀ l c reg) :
    ∃ reg₀, CRIoTControl.Run S c₀ [] c₀ reg₀ := by
  obtain ⟨events, hrun⟩ := h.run
  exact hrun.start.2

theorem Session.nil (h : Session S c₀ [] c reg) : c = c₀ := by
  generalize hl : [] = l at h
  cases h with
  | start => rfl
  | add | unr | rev => simp at hl

theorem Session.before {r : Record K E} (h : Session S c₀ (l ++ [r]) c reg) :
    c = r.after ∧ ∃ reg₁, Session S c₀ l r.before reg₁ := by
  generalize hl : l ++ [r] = l' at h
  cases h with
  | start => simp at hl
  | add h =>
    obtain ⟨rfl, heq⟩ := List.append_inj' hl rfl
    obtain rfl := List.singleton_inj.mp heq
    exact ⟨rfl, _, h⟩
  | unr h =>
    obtain ⟨rfl, heq⟩ := List.append_inj' hl rfl
    obtain rfl := List.singleton_inj.mp heq
    exact ⟨rfl, _, h⟩
  | rev h =>
    obtain ⟨rfl, heq⟩ := List.append_inj' hl rfl
    obtain rfl := List.singleton_inj.mp heq
    exact ⟨rfl, _, h⟩

theorem Session.call_of_last {r : Record K E} (h : Session S c₀ (l ++ [r]) c reg) :
    ∃ x, r.command.call = some x := by
  generalize hl : l ++ [r] = l' at h
  induction h using Session.command_induction with
  | start => simp at hl
  | command l' c c' cmd u x b reg reg' h h' hx hb hserved ih =>
    obtain ⟨-, heq⟩ := List.append_inj' hl rfl
    obtain rfl := List.singleton_inj.mp heq
    exact ⟨x, hx⟩

theorem Session.fitting (h : Session S c₀ l c reg) (hs : Sendable X c₀ l) :
    Fitting S W X (.full c.vo_data) ∧ ∀ r ∈ l, Fitting S W X r.update := by
  induction h using Session.command_induction with
  | start reg hrun => exact ⟨Run.fitting hrun hs.start, fun r hr => by cases hr⟩
  | command l c c' cmd u x b reg reg' h h' hx hb hserved ih =>
    have hlast := List.mem_append_right l (List.mem_singleton_self (⟨c, cmd, u, c'⟩ : Record K E))
    obtain ⟨hsnap, hl⟩ := ih hs.front
    obtain ⟨events, hrun⟩ := h.run
    obtain ⟨events', hrun'⟩ := h'.run
    have hfull : Fitting S W X (.full c'.vo_data) := Run.fitting hrun' (hs.typed _ hlast)
    refine ⟨hfull, fun r hr => ?_⟩
    rcases List.mem_append.mp hr with hr | hr
    · exact hl r hr
    · obtain rfl := List.mem_singleton.mp hr
      exact Served.fitting hx hb hserved hrun.reached.consistent.1 hfull (hs.flips _ hlast)

section Deliveries

variable [DecidableEq A] {u : Update K E} {sockets : List (A × List (List UInt8))}
  {devices devices' : A → Option (Verifier E)} {host : A} {p : List UInt8}

theorem read_of_not_mem (h : host ∉ sockets.map Prod.fst) :
    sockets.foldl (read S W X) devices host = devices host := by
  induction sockets generalizing devices with
  | nil => rfl
  | cons socket sockets ih =>
    rw [List.map_cons, List.mem_cons, not_or] at h
    rw [List.foldl_cons, ih h.2, read, Function.update_of_ne h.1]

theorem read_once (devices : A → Option (Verifier E))
    (h : (sockets.map Prod.fst).count host = 1) : ∃ socket ∈ sockets,
    sockets.foldl (read S W X) devices host =
      (devices host).bind fun d => (listenForUpdates S W X d socket.2).map Prod.snd := by
  induction sockets generalizing devices with
  | nil => cases h
  | cons socket sockets ih =>
    rw [List.map_cons] at h
    by_cases heq : socket.1 = host
    · subst heq
      rw [List.count_cons_self, Nat.add_eq_right] at h
      refine ⟨socket, List.mem_cons_self, ?_⟩
      rw [List.foldl_cons, read_of_not_mem (List.count_eq_zero.mp h), read, Function.update_self]
    · rw [List.count_cons_of_ne heq] at h
      obtain ⟨found, hmem, hfound⟩ := ih (read S W X devices socket) h
      refine ⟨found, List.mem_cons_of_mem _ hmem, ?_⟩
      rw [List.foldl_cons, hfound, read, Function.update_of_ne (Ne.symm heq)]

theorem read_twins (hpay : payload W X u = some p) (hfit : Fitting S W X u)
    (hread : ∀ socket ∈ sockets, ReadExactly p socket.2)
    (h : ∀ host, Option.Rel (Twin S.hash) (devices host) (devices' host)) (host : A) :
    Option.Rel (Twin S.hash)
      (((sockets.map Prod.fst).map fun h => (h, u)).foldl (deliver S) devices host)
      (sockets.foldl (read S W X) devices' host) := by
  induction sockets generalizing devices devices' with
  | nil => exact h host
  | cons socket sockets ih =>
    rw [List.forall_mem_cons] at hread
    rw [List.map_cons, List.map_cons, List.foldl_cons, List.foldl_cons]
    apply ih hread.2
    intro other
    by_cases heq : other = socket.1
    · subst heq
      rw [deliver, read, Function.update_self, Function.update_self]
      have hone := h socket.1
      generalize devices socket.1 = r at *
      generalize devices' socket.1 = r' at *
      cases hone with
      | none => exact .none
      | some htwin =>
        rename_i d d'
        have hstep := listenForUpdates_twin htwin hfit hpay hread.1
        simp only [Option.bind_some]
        generalize receive S d u = v at hstep ⊢
        generalize listenForUpdates S W X d' socket.2 = v' at hstep ⊢
        cases hstep with
        | none => exact .none
        | some hnext => exact .some hnext.2
    · rw [deliver, read, Function.update_of_ne heq, Function.update_of_ne heq]
      exact h other

end Deliveries

section Welcome

variable [DecidableEq A] {s : Fleet A K E} {host other : A} {d : Verifier E}
  {buffers : List (List UInt8)}

omit [DecidableEq K] [Inhabited K] in
theorem welcome_self :
    (welcome X s host d buffers).devices host = readFullSummary X d buffers :=
  Function.update_self ..

omit [DecidableEq K] [Inhabited K] in
theorem welcome_of_ne (h : other ≠ host) :
    (welcome X s host d buffers).devices other = s.devices other :=
  Function.update_of_ne h ..

end Welcome

variable [DecidableEq A] {s s' : Fleet A K E} {l₁ l₂ : List (Event A K E)} {host : A}

theorem connected {l : List (Event A K E)} (h : Runs (Step S W X) s l s') :
    s'.connectedDevices = s.connectedDevices ++ hosts l := by
  induction h using Runs.snoc_induction with
  | nil => exact (List.append_nil _).symm
  | snoc l s₁ e s' _ hstep ih =>
    cases hstep with
    | join host d hread =>
      rw [hosts_joined, ← List.append_assoc, ← ih]
      rfl
    | command hserved hsockets =>
      rw [hosts_served]
      exact ih

theorem session_before {l : List (Event A K E)} {L : List (Record K E)}
    (h : Runs (Step S W X) s l s') (hsession : Session S c₀ (L ++ records l) s'.dassTracker reg) :
    ∃ reg₁, Session S c₀ L s.dassTracker reg₁ := by
  induction h using Runs.snoc_induction generalizing reg with
  | nil =>
    have hnil : L ++ records ([] : List (Event A K E)) = L := List.append_nil L
    exact ⟨reg, hnil ▸ hsession⟩
  | snoc l s₁ e s' _ hstep ih =>
    cases hstep with
    | join host d hread =>
      rw [records_joined] at hsession
      exact ih hsession
    | command hserved hsockets =>
      rw [records_served, ← List.append_assoc] at hsession
      obtain ⟨-, reg₁, hbefore⟩ := Session.before hsession
      exact ih hbefore

def Sent.record (r : Sent A K E) : Record K E :=
  ⟨r.before.dassTracker, r.command, r.update, r.after.dassTracker⟩

/-- Each run over bytes is one over the updates themselves: the same joins and commands, and the
devices are twins of each other. -/
theorem fleet_refines {l : List (Event A K E)} (h : Runs (Step S W X) (noDevices c₀) l s)
    (hsession : Session S c₀ (records l) s.dassTracker reg)
    (hsend : Sendable X c₀ (records l)) :
    ∃ sent s', Interleaving S (hosts l) sent s' ∧ sent.map Sent.record = records l ∧
      s'.dassTracker = s.dassTracker ∧ s'.connectedDevices = s.connectedDevices ∧
      ∀ host, Option.Rel (Twin S.hash) (s'.devices host) (s.devices host) := by
  induction h using Runs.snoc_induction generalizing reg with
  | nil => exact ⟨[], noDevices c₀, .start, rfl, rfl, rfl, fun host => .none⟩
  | snoc l s e s₂ hl hstep ih =>
    obtain ⟨hsnap, hfits⟩ := Session.fitting (W := W) hsession hsend
    cases hstep with
    | join host d hread =>
      rw [records_joined] at hsession hsend ⊢
      rw [hosts_joined]
      obtain ⟨sent, s', hinter, hrecords, htracker, hconnected, htwins⟩ := ih hsession hsend
      refine ⟨sent, _, .join host hinter, hrecords, htracker,
        congrArg (· ++ [host]) hconnected, fun other => ?_⟩
      by_cases heq : other = host
      · subst heq
        obtain ⟨d', hd', htwin⟩ := readFullSummary_twin d hsnap hread
        have hjoined : (listenForNewDevices s' other).devices other =
            some s'.dassTracker.vo_data := devices_join s' other
        rw [hjoined, welcome_self, hd', htracker]
        exact .some htwin
      · have hjoined : (listenForNewDevices s' host).devices other = s'.devices other :=
          Function.update_of_ne heq ..
        rw [hjoined, welcome_of_ne heq]
        exact htwins other
    | command hserved hsockets =>
      rename_i cmd u c sockets
      rw [records_served] at hsession hsend hfits ⊢
      rw [hosts_served]
      obtain ⟨-, reg₁, hbefore⟩ := Session.before hsession
      obtain ⟨sent, s', hinter, hrecords, htracker, hconnected, htwins⟩ :=
        ih hbefore hsend.front
      have hserved' : Served S s'.dassTracker cmd u c := htracker ▸ hserved
      obtain ⟨p, hpay, hread⟩ := hsockets.exactly
      refine ⟨_, _, .command hinter hserved', ?_, rfl, hconnected, ?_⟩
      · rw [List.map_append, hrecords]
        exact congrArg (fun c' => records l ++ [⟨c', cmd, u, c⟩]) htracker
      · have hfit : Fitting S W X u :=
          hfits _ (List.mem_append_right _ (List.mem_singleton_self _))
        have hdevices := read_twins hpay hfit hread htwins
        rw [hsockets.hosts, ← hconnected] at hdevices
        exact hdevices

def blankTracker : Tracker (BitVec 64) ℕ :=
  { othello := ⟨[], 0, 0, 0, 0, true, 0, 0, [], [], [], [], [], [], [], 0⟩
    vf := ⟨0, 0, 0, 0, 0, [0, 0, 0, 0], true, 0, 1, [], ⟨id, id⟩, 0, 0⟩
    PK := ∅, NK := ∅, n_positive_keys := 0, n_negative_keys := 0
    TNK_table := fun _ => [], FPK_table := fun _ => [], fp_len := 0 }

def Ready (t : Tracker (BitVec 64) ℕ) : Prop :=
  (t.vf.isSmall = true ∧ 2 ≤ t.vf.n ∧ 4 ≤ t.vf.fp_len ∧ t.vf.fp_len ≤ 16) ∧
    t.vf.len = [0, 0, 0, 0] ∧ t.vf.big_seg = 0 ∧ t.vf.e ≤ 100

instance (t : Tracker (BitVec 64) ℕ) : Decidable (Ready t) :=
  inferInstanceAs (Decidable ((_ ∧ _ ∧ _ ∧ _) ∧ _ ∧ _ ∧ _))

def ready : Except Fault (Bool × Tracker (BitVec 64) ℕ) → Option (Tracker (BitVec 64) ℕ)
  | .ok (_, t) => if Ready t then some t else none
  | .error _ => none

def flips : Except Fault (List ℕ × Tracker (BitVec 64) ℕ) →
    Option (List ℕ × Tracker (BitVec 64) ℕ)
  | .ok r => some r
  | .error _ => none

/-- The negative key 18 is added with three flips, then the positive key 20, which comes to a
rebuild. -/
def fleetRun : Option (Tracker (BitVec 64) ℕ × Tracker (BitVec 64) ℕ × Tracker (BitVec 64) ℕ ×
    Tracker (BitVec 64) ℕ × List ℕ × List ℕ) := do
  let t₀ ← ready (batch_insert serverTracker 1 (DASSTracker.init serverTracker blankTracker 4 1)
    [1, 2, 3, 4] [5])
  let (f₁, t₁) ← flips (DASSTracker.insert serverTracker t₀ (18, 0))
  let (f₂, t₂) ← flips (DASSTracker.insert serverTracker t₁ (20, 1))
  let t₃ ← ready (rebuild serverTracker 3 t₂ [1, 2, 3, 4, 20] [5, 18])
  return (t₀, t₁, t₂, t₃, f₁, f₂)

theorem fleetRun_facts : fleetRun.map (fun p => (p.2.2.2.2.1, p.2.2.2.2.2)) =
    some ([5, 9, 8], rebuildMarker) := by decide +kernel

theorem ready_some {r : Except Fault (Bool × Tracker (BitVec 64) ℕ)} {t : Tracker (BitVec 64) ℕ}
    (h : ready r = some t) :
    ∃ done, r = .ok (done, t) ∧ Fits t.vf ∧ Typed unaryText (install t) := by
  cases r with
  | error f => cases h
  | ok r =>
    rw [ready] at h
    split at h
    case isFalse => cases h
    case isTrue hready =>
      obtain rfl := Option.some.inj h
      obtain ⟨hfit, hlen, hseg, he⟩ := hready
      refine ⟨r.1, rfl, ⟨hfit.1, hfit.2.1, hfit.2.2⟩, ⟨?_, ?_, ?_, ?_⟩⟩
      · rw [install, hseg]
        exact ⟨by decide, by decide⟩
      · rw [install, hlen]
        rfl
      · intro i hi
        rw [install, hlen] at hi
        have h0 : i = 0 := by simpa using hi
        rw [h0]
        exact ⟨by decide, by decide⟩
      · have hprint : (unaryText.print (install r.2).vf.e).length = r.2.vf.e :=
          List.length_replicate
        omega

theorem flips_some {r : Except Fault (List ℕ × Tracker (BitVec 64) ℕ)}
    {p : List ℕ × Tracker (BitVec 64) ℕ} (h : flips r = some p) : r = .ok p := by
  cases r with
  | error f => cases h
  | ok r => exact congrArg _ (Option.some.inj h)

theorem exactly_one (p : List UInt8) : ReadExactly p [p ++ finish] := by
  have hend : endsWithFinish (p ++ finish) = some true :=
    (endsWithFinish_true_iff _).mpr (List.suffix_append p finish)
  rw [ReadExactly, readMessage, hend]
  rfl

theorem fleetRun_steps : ∃ t₀ t₁ t₂ t₃ done done',
    batch_insert serverTracker 1 (DASSTracker.init serverTracker blankTracker 4 1) [1, 2, 3, 4]
      [5] = .ok (done, t₀) ∧ Fits t₀.vf ∧ Typed unaryText (install t₀) ∧
    DASSTracker.insert serverTracker t₀ (18, 0) = .ok ([5, 9, 8], t₁) ∧
    DASSTracker.insert serverTracker t₁ (20, 1) = .ok (rebuildMarker, t₂) ∧
    rebuild serverTracker 3 t₂ [1, 2, 3, 4, 20] [5, 18] = .ok (done', t₃) ∧ Fits t₃.vf ∧
    Typed unaryText (install t₃) := by
  obtain ⟨⟨t₀, t₁, t₂, t₃, f₁, f₂⟩, hrun, hflips⟩ := Option.map_eq_some_iff.mp fleetRun_facts
  obtain ⟨rfl, rfl⟩ := Prod.mk.inj hflips
  rw [fleetRun] at hrun
  obtain ⟨t₀', hstart, hrun⟩ := Option.bind_eq_some_iff.mp hrun
  obtain ⟨⟨f₁', t₁'⟩, hfirst, hrun⟩ := Option.bind_eq_some_iff.mp hrun
  obtain ⟨⟨f₂', t₂'⟩, hsecond, hrun⟩ := Option.bind_eq_some_iff.mp hrun
  obtain ⟨t₃', hrebuilt, hrun⟩ := Option.bind_eq_some_iff.mp hrun
  simp only [Option.pure_def, Option.some.injEq, Prod.mk.injEq] at hrun
  obtain ⟨rfl, rfl, rfl, rfl, rfl, rfl⟩ := hrun
  obtain ⟨done, hbatch, hfit, htyped⟩ := ready_some hstart
  obtain ⟨done', hre, hfit', htyped'⟩ := ready_some hrebuilt
  exact ⟨_, _, _, _, done, done', hbatch, hfit, htyped, flips_some hfirst, flips_some hsecond,
    hre, hfit', htyped'⟩

def listed (pos neg : List (BitVec 64)) (k : BitVec 64) : Option Bool :=
  if k ∈ pos then some true else if k ∈ neg then some false else none

theorem listed_true_iff {pos neg : List (BitVec 64)} {k : BitVec 64} :
    listed pos neg k = some true ↔ k ∈ pos := by
  rw [listed]
  split
  case isTrue hk => exact iff_of_true rfl hk
  case isFalse hk => exact iff_of_false (by split <;> simp) hk

theorem listed_false_iff {pos neg : List (BitVec 64)} {k : BitVec 64} :
    listed pos neg k = some false ↔ k ∉ pos ∧ k ∈ neg := by
  rw [listed]
  split
  case isTrue hk => exact iff_of_false (by simp) fun h => h.1 hk
  case isFalse hk => split <;> simp [*]

theorem listed_snoc {pos neg : List (BitVec 64)} {k : BitVec 64} (h : k ∉ pos) :
    Function.update (listed pos neg) k (some false) = listed pos (neg ++ [k]) := by
  funext q
  rw [Function.update_apply]
  split
  case isTrue hq =>
    subst hq
    exact (listed_false_iff.mpr ⟨h, by simp⟩).symm
  case isFalse hq => simp [listed, hq]

theorem fleetRun_start {t₀ : Tracker (BitVec 64) ℕ} {done : Bool}
    (hbatch : batch_insert serverTracker 1 (DASSTracker.init serverTracker blankTracker 4 1)
      [1, 2, 3, 4] [5] = .ok (done, t₀)) (hfit : Fits t₀.vf) :
    CRIoTControl.Run serverTracker ⟨t₀, install t₀, []⟩ [] ⟨t₀, install t₀, []⟩
      (listed [1, 2, 3, 4] [5]) := by
  have hinit : CRIoTControl.init serverTracker ⟨blankTracker, install blankTracker, []⟩ 1
      [1, 2, 3, 4] [5] = .ok ⟨t₀, install t₀, []⟩ := by
    have hbatch' : batch_insert serverTracker 1 (DASSTracker.init serverTracker blankTracker
        ([1, 2, 3, 4] : List (BitVec 64)).length ([5] : List (BitVec 64)).length) [1, 2, 3, 4] [5] =
          .ok (done, t₀) := hbatch
    rw [CRIoTControl.init, hbatch']
    rfl
  exact .init (c := ⟨blankTracker, install blankTracker, []⟩) ⟨rfl, rfl⟩ (by decide) (by decide)
    (by simp) (by decide) (by decide) hinit hfit

theorem fleetRun_run : ∃ (c₀ : ControlVO (BitVec 64) ℕ) (r₁ r₂ : Record (BitVec 64) ℕ)
    (s : Fleet ℕ (BitVec 64) ℕ) (reg : BitVec 64 → Option Bool),
    Runs (Step serverTracker serverTypes unaryText) (noDevices c₀)
      [.joined 7, .served r₁, .served r₂] s ∧
    Session serverTracker c₀ [r₁, r₂] s.dassTracker reg ∧ Sendable unaryText c₀ [r₁, r₂] ∧
    r₁.command = .add (18, 0) ∧ r₂.command = .add (20, 1) ∧
    IsSummary r₁.update ∧ (∃ vo_data, r₂.update = .full vo_data) ∧
    reg 18 = some false ∧ reg 20 = some true := by
  obtain ⟨t₀, t₁, t₂, t₃, done, done', hbatch, hfit, htyped, hfirst, hsecond, hre, hfit',
    htyped'⟩ := fleetRun_steps
  have hstart := fleetRun_start hbatch hfit
  have hstarted : Session serverTracker ⟨t₀, install t₀, []⟩ [] ⟨t₀, install t₀, []⟩
      (listed [1, 2, 3, 4] [5]) := .start hstart
  have hkeys : ∀ {reg : BitVec 64 → Option Bool} {events} {c : ControlVO (BitVec 64) ℕ} {k},
      CRIoTControl.Run serverTracker ⟨t₀, install t₀, []⟩ events c reg → reg k = none →
      k ∉ c.vo_control.PK ∧ k ∉ c.vo_control.NK := by
    intro reg events c k hrun hk
    apply not_or.mp
    intro hc
    have hsome := (hrun.answers k).1.mp hc
    rw [hk] at hsome
    cases hsome
  obtain ⟨hP, hN⟩ := hkeys (k := 18) hstart rfl
  have hserved : Served serverTracker ⟨t₀, install t₀, []⟩ (.add (18, 0))
      (.summary [5, 9, 8] [(18, 0)] [SummaryWire.AddAction]) ⟨t₁, install t₀, [5, 9, 8]⟩ := by
    have hcall : CRIoTControl.insert serverTracker 0 [] [] ⟨t₀, install t₀, []⟩ (18, 0) =
        .ok (true, ⟨t₁, install t₀, [5, 9, 8]⟩) :=
      call_of_update (x := .insert (18, 0)) hfirst (by decide)
    refine ⟨0, [], [], ?_, fun x t hx hup => ?_⟩
    · rw [command, addCertificate, hcall]
      rfl
    · obtain rfl := Option.some.inj hx
      have hmark := (Prod.mk.inj (Except.ok.inj (hfirst.symm.trans hup))).1
      exact absurd hmark (by decide)
  have hsession₁ := Session.add (b := false) hstarted hP hN hserved
  obtain ⟨events, hrun₁⟩ := hsession₁.run
  obtain ⟨hP', hN'⟩ := hkeys (k := 20) hrun₁ (by decide)
  obtain ⟨hcons, hreg⟩ := hrun₁.reached.consistent
  have hadded : Function.update (listed [1, 2, 3, 4] [5]) 18 (some false) =
      listed [1, 2, 3, 4] [5, 18] := listed_snoc (by decide)
  have hserved' : Served serverTracker ⟨t₁, install t₀, [5, 9, 8]⟩ (.add (20, 1))
      (.full (install t₃)) ⟨t₃, install t₃, rebuildMarker⟩ := by
    have hins : DASSTracker.insert serverTracker t₁ (20, 1) = .ok (rebuildMarker, t₂) := hsecond
    have hcall : CRIoTControl.insert serverTracker 3 [1, 2, 3, 4, 20] [5, 18]
        ⟨t₁, install t₀, [5, 9, 8]⟩ (20, 1) = .ok (false, ⟨t₃, install t₃, rebuildMarker⟩) := by
      rw [CRIoTControl.insert, hins, ok_bind, settle, if_pos rfl, hre]
      rfl
    refine ⟨3, [1, 2, 3, 4, 20], [5, 18], ?_, fun x t hx hup => ⟨?_, hfit'⟩⟩
    · rw [command, addCertificate, hcall]
      rfl
    · obtain rfl := Option.some.inj hx
      obtain rfl := (Prod.mk.inj (Except.ok.inj (hup.symm.trans hins))).2
      obtain ⟨hPK, hNK, -⟩ := hcons.insert_ok (b := true) hP' hN' hins
      refine ⟨by decide, by decide, fun k => ?_, fun k => ?_, by decide, by decide⟩
      · rw [hPK, if_pos rfl, Finset.mem_insert, hreg.PK, hadded, listed_true_iff, or_comm]
        exact (List.mem_append (s := [1, 2, 3, 4]) (t := [20])).trans (by rw [List.mem_singleton])
      · rw [hNK, if_pos rfl, hreg.NK, hadded, listed_false_iff]
        have hdisj : List.Disjoint ([5, 18] : List (BitVec 64)) [1, 2, 3, 4] := by simp
        exact ⟨fun hk => ⟨hdisj hk, hk⟩, And.right⟩
  have hsession₂ := Session.add (b := true) hsession₁ hP' hN' hserved'
  have hsend : Sendable unaryText ⟨t₀, install t₀, []⟩
      [⟨⟨t₀, install t₀, []⟩, .add (18, 0), .summary [5, 9, 8] [(18, 0)] [SummaryWire.AddAction],
          ⟨t₁, install t₀, [5, 9, 8]⟩⟩,
        ⟨⟨t₁, install t₀, [5, 9, 8]⟩, .add (20, 1), .full (install t₃),
          ⟨t₃, install t₃, rebuildMarker⟩⟩] := by
    refine ⟨htyped, fun r hr => ?_, fun r hr f kvs actions hu => ?_⟩
    · rcases List.mem_pair.mp hr with rfl | rfl
      · exact htyped
      · exact htyped'
    · rcases List.mem_pair.mp hr with rfl | rfl
      · cases hu
        decide
      · cases hu
  obtain ⟨-, hfits⟩ := Session.fitting (W := serverTypes) hsession₂ hsend
  have hsockets : ∀ (s : Fleet ℕ (BitVec 64) ℕ) u p, s.connectedDevices = [7] →
      payload serverTypes unaryText u = some p →
      Sockets serverTypes unaryText s u [(7, [p ++ finish])] := by
    intro s u p hs hpay
    refine ⟨hs.symm, p, hpay, fun socket hmem => ?_⟩
    rw [List.mem_singleton.mp hmem]
    exact exactly_one p
  refine ⟨_, _, _, _, _, .cons (.join 7 (install blankTracker) (exactly_one _))
    (.cons (.command hserved (hsockets _ _ _ rfl rfl))
      (.cons (.command hserved' (hsockets _ _ _ rfl rfl)) (.nil _))), hsession₂, hsend, rfl, rfl,
      ⟨_, _, _, rfl⟩, ⟨_, rfl⟩, by decide, by decide⟩

theorem fleet_refines_one : ∃ (r₁ r₂ : Record (BitVec 64) ℕ)
    (sent : List (Sent ℕ (BitVec 64) ℕ)) (c₀ : ControlVO (BitVec 64) ℕ)
    (s s' : Fleet ℕ (BitVec 64) ℕ), r₁.command = .add (18, 0) ∧ r₂.command = .add (20, 1) ∧
    Runs (Step serverTracker serverTypes unaryText) (noDevices c₀)
      [.joined 7, .served r₁, .served r₂] s ∧
    Interleaving serverTracker [7] sent s' ∧ sent.map Sent.record = [r₁, r₂] ∧
    ∀ host, Option.Rel (Twin serverTracker.hash) (s'.devices host) (s.devices host) := by
  obtain ⟨c₀, r₁, r₂, s, reg, hrun, hsession, hsend, h₁, h₂, -⟩ := fleetRun_run
  obtain ⟨sent, s', hinter, hrecords, -, -, htwins⟩ := fleet_refines hrun hsession hsend
  exact ⟨r₁, r₂, sent, c₀, s, s', h₁, h₂, hrun, hinter, hrecords, htwins⟩

end FleetMessages
