import TinyCR.CriticalSections
import TinyCR.FleetFailures

/-! # The threads of the server

`listenForNewDevices` and `listenForCACommands` run in threads of their own and take `updateLock`
around everything they do with the tracker and the list of devices. Between a message and its reply
the device reads; devices end at any time, and what throws goes on to the `unlock` of its loop.
Whatever the threads do in between each other, the fleet is one of whole joins and commands. -/
namespace ServerThreads

open CriticalSections LabelledRuns DASSTracker DASSVerifier CRIoTControl SummaryWire FullWire
  TinyCRServer DeviceAgreement ConnectedDevices MessageFraming UpdateMessages FleetFailures

open FleetMessages (read read_of_not_mem welcome noDevices Sendable blankTracker)

open FleetAgreement (Fresh Answers)

open CertificateKeys (serverTracker)

variable {A K E : Type}

inductive Thread
  | listenForNewDevices
  | listenForCACommands
  deriving DecidableEq, Repr

/-- What a connection of the CA asks for: a change, something else, or no command at all. -/
inductive Request (K : Type)
  | change (cmd : Command K)
  | other
  | unrecognised

inductive Place (A K E : Type)
  | accepted (host : A)
  | listed (host : A)
  | sentFull (host : A) (payload : List UInt8)
  | welcomed (host : A) (complete : Bool)
  | requested (request : Request K)
  | sending (r : Record K E) (payload : List UInt8) (pos : ℕ)
  | sent (r : Record K E) (payload : List UInt8) (host : A) (pos : ℕ)
  | replied (r : Record K E) (payload : List UInt8) (pos : ℕ)
  | finished (r : Record K E) (sent : List A)
  | answered

section Threads

variable [DecidableEq A] [DecidableEq K] [Inhabited K] (S : TrackerSetup K E) (W : WireTypes K)
  (X : EngineText E)

def entered : Thread → Place A K E → Prop
  | .listenForNewDevices, p => ∃ host, p = .accepted host
  | .listenForCACommands, p => ∃ request, p = .requested request

/-- The statements between `lock` and `unlock`, and the device that reads what was sent. A summary
that cannot be sent ends the process. -/
inductive Move : Thread → Place A K E × Fleet A K E → Place A K E × Fleet A K E → Prop
  | push_back {s : Fleet A K E} {host : A} :
      Move .listenForNewDevices (.accepted host, s)
        (.listed host, { s with connectedDevices := s.connectedDevices ++ [host] })
  | sendFull {s : Fleet A K E} {host : A} :
      Move .listenForNewDevices (.listed host, s)
        (.sentFull host ([70] ++ (encode_full X s.dassTracker.vo_data).flatten), s)
  | readFull {s : Fleet A K E} {host : A} {p : List UInt8} {buffers : List (List UInt8)}
      (d : Verifier E) : ReadExactly p buffers →
      Move .listenForNewDevices (.sentFull host p, s) (.welcomed host true,
        { s with devices := Function.update s.devices host (readFullSummary X d buffers) })
  /-- the `catch`, or an empty reply -/
  | turn_away {s : Fleet A K E} {host : A} {p : Place A K E} (left : Option (Verifier E)) :
      (p = .listed host ∨ ∃ payload, p = .sentFull host payload) →
      Move .listenForNewDevices (p, s) (.welcomed host false,
        { s with devices := Function.update s.devices host left })
  | execute {s : Fleet A K E} {cmd : Command K} {u : Update K E} {c : ControlVO K E}
      {p : List UInt8} : Served S s.dassTracker cmd u c → payload W X u = some p →
      Move .listenForCACommands (.requested (.change cmd), s)
        (.sending ⟨s.dassTracker, cmd, u, c⟩ p 0, { s with dassTracker := c })
  | connect {s : Fleet A K E} {r : Record K E} {p : List UInt8} {pos : ℕ} {host : A} :
      s.connectedDevices[pos]? = some host → (s.devices host).isSome →
      Move .listenForCACommands (.sending r p pos, s) (.sent r p host pos, s)
  | read {s : Fleet A K E} {r : Record K E} {p : List UInt8} {host : A} {pos : ℕ}
      {buffers : List (List UInt8)} : ReadExactly p buffers ∨ buffers = [] →
      Move .listenForCACommands (.sent r p host pos, s)
        (.replied r p pos, { s with devices := read S W X s.devices (host, buffers) })
  | next {s : Fleet A K E} {r : Record K E} {p : List UInt8} {pos : ℕ} :
      Move .listenForCACommands (.replied r p pos, s) (.sending r p (pos + 1), s)
  | finish {s : Fleet A K E} {r : Record K E} {p : List UInt8} {pos : ℕ} :
      s.connectedDevices[pos]? = none →
      Move .listenForCACommands (.sending r p pos, s) (.finished r s.connectedDevices, s)
  /-- no connection for a full update: the `catch` of `sendFullUpdates` -/
  | refuse {s : Fleet A K E} {r : Record K E} {p : List UInt8} {pos : ℕ} {host : A}
      {vo_data : Verifier E} : r.update = .full vo_data → s.connectedDevices[pos]? = some host →
      Move .listenForCACommands (.sending r p pos, s)
        (.finished r (s.connectedDevices.take pos), s)
  /-- and one that is lost -/
  | cut_off {s : Fleet A K E} {r : Record K E} {p : List UInt8} {host : A} {pos : ℕ}
      {vo_data : Verifier E} {left : Option (Verifier E)} : r.update = .full vo_data →
      (left.isSome → (s.devices host).isSome) →
      Move .listenForCACommands (.sent r p host pos, s)
        (.finished r (s.connectedDevices.take pos),
          { s with devices := Function.update s.devices host left })
  | answer {s : Fleet A K E} {request : Request K} : (∀ cmd, request ≠ .change cmd) →
      Move .listenForCACommands (.requested request, s) (.answered, s)
  /-- A device ends, as it can do at any place; what ends while no thread is inside is first
  missed in the next section. -/
  | die {i : Thread} {p : Place A K E} {s : Fleet A K E} (host : A) :
      Move i (p, s) (p, { s with devices := Function.update s.devices host none })

def released : Thread → Place A K E → Option (Event A K E) → Prop
  | .listenForNewDevices, p, e => ∃ host complete, p = .welcomed host complete ∧
      e = some (.joined host complete)
  | .listenForCACommands, p, e =>
      (∃ r sent, p = .finished r sent ∧ e = some (.served r sent)) ∨ p = .answered ∧ e = none

/-- The `continue` after data that is no command, which skips the `unlock`. -/
def continues : Thread → Place A K E → Prop
  | .listenForNewDevices, _ => False
  | .listenForCACommands, p => p = .requested .unrecognised

/-- Both loops release the lock after a failed `accept`, too. -/
def threads : Sections Thread (Place A K E) (Fleet A K E) (Option (Event A K E)) where
  enter := entered
  move := Move S W X
  leave := released
  stop := continues
  stray _ := True

end Threads

def happened (l : List (Label Thread (Option (Event A K E)))) : List (Event A K E) :=
  (events l).filterMap Prod.snd

def exchanges (l : List (Event A K E)) : List (Event A K E) :=
  l.filter fun
    | .died _ => false
    | .joined .. => true
    | .served .. => true

@[simp] theorem exchanges_append (l l' : List (Event A K E)) :
    exchanges (l ++ l') = exchanges l ++ exchanges l' :=
  List.filter_append ..

theorem records_exchanges (l : List (Event A K E)) : records (exchanges l) = records l := by
  induction l with
  | nil => rfl
  | cons e l ih =>
    cases e with
    | died host => exact ih
    | joined host complete => exact ih
    | served r sent => exact congrArg (r :: ·) ih

theorem hosts_exchanges (l : List (Event A K E)) : hosts (exchanges l) = hosts l := by
  induction l with
  | nil => rfl
  | cons e l ih =>
    cases e with
    | died host => exact ih
    | joined host complete => exact congrArg (host :: ·) ih
    | served r sent => exact ih

variable [DecidableEq A] {s s₁ s' : Fleet A K E}

def killed (died : List A) (devices : A → Option (Verifier E)) : A → Option (Verifier E) :=
  fun host => if host ∈ died then none else devices host

section Killed

variable {died : List A} {devices : A → Option (Verifier E)} {host : A}

theorem killed_nil : killed [] devices = devices :=
  funext fun _ => if_neg List.not_mem_nil

theorem killed_cons (host : A) : killed (host :: died) devices =
    Function.update (killed died devices) host none := by
  funext other
  by_cases heq : other = host
  · subst heq
    rw [Function.update_self, killed, if_pos List.mem_cons_self]
  · rw [Function.update_of_ne heq, killed, killed]
    exact if_congr (by rw [List.mem_cons, or_iff_right heq]) rfl rfl

theorem killed_append (died' : List A) :
    killed died' (killed died devices) = killed (died' ++ died) devices := by
  funext other
  by_cases hmem : other ∈ died'
  · rw [killed, if_pos hmem, killed, if_pos (List.mem_append_left _ hmem)]
  · rw [killed, if_neg hmem, killed, killed]
    exact if_congr (by rw [List.mem_append, or_iff_right hmem]) rfl rfl

theorem isSome_of_killed (h : (killed died devices host).isSome) : (devices host).isSome := by
  rw [killed] at h
  split at h
  case isTrue => cases h
  case isFalse => exact h

theorem update_killed {left left' : Option (Verifier E)}
    (h : left' = if host ∈ died then none else left) :
    Function.update (killed died devices) host left' =
      killed died (Function.update devices host left) := by
  funext other
  by_cases heq : other = host
  · subst heq
    rw [Function.update_self, killed, Function.update_self, h]
  · rw [Function.update_of_ne heq, killed, killed, Function.update_of_ne heq]

end Killed

def Deaths (s s' : Fleet A K E) : Prop :=
  ∃ died : List A, s' = { s with devices := killed died s.devices }

theorem Deaths.refl (s : Fleet A K E) : Deaths s s :=
  ⟨[], by rw [killed_nil]⟩

theorem Deaths.trans {s₂ : Fleet A K E} (h : Deaths s s₁) (h' : Deaths s₁ s₂) : Deaths s s₂ := by
  obtain ⟨died, rfl⟩ := h
  obtain ⟨died', rfl⟩ := h'
  exact ⟨died' ++ died, by rw [killed_append]⟩

theorem Deaths.die (h : Deaths s s') (host : A) :
    Deaths s { s' with devices := Function.update s'.devices host none } := by
  obtain ⟨died, rfl⟩ := h
  exact ⟨host :: died, by rw [killed_cons]⟩

section Reads

variable [DecidableEq K] [Inhabited K] {S : TrackerSetup K E} {W : WireTypes K} {X : EngineText E}
  {died : List A} {devices : A → Option (Verifier E)} {host : A}

theorem read_killed (socket : A × List (List UInt8)) :
    read S W X (killed died devices) socket = killed died (read S W X devices socket) := by
  rw [FleetMessages.read, FleetMessages.read]
  apply update_killed
  rw [killed]
  split <;> rfl

theorem isSome_of_reads {sockets : List (A × List (List UInt8))}
    (h : (sockets.foldl (read S W X) devices host).isSome) : (devices host).isSome := by
  induction sockets generalizing devices with
  | nil => exact h
  | cons socket sockets ih =>
    have hread := ih h
    by_cases heq : host = socket.1
    · subst heq
      rw [FleetMessages.read, Function.update_self] at hread
      exact Option.isSome_of_isSome_bind hread
    · rwa [FleetMessages.read, Function.update_of_ne heq] at hread

theorem Deaths.runs (h : Deaths s s') : ∃ l, exchanges l = [] ∧ Runs (Step S W X) s l s' := by
  obtain ⟨died, rfl⟩ := h
  induction died with
  | nil => exact ⟨[], rfl, by rw [killed_nil]; exact .nil s⟩
  | cons host died ih =>
    obtain ⟨l, hquiet, hrun⟩ := ih
    refine ⟨l ++ [.died host], ?_, ?_⟩
    · rw [exchanges_append, hquiet]
      rfl
    · rw [killed_cons]
      exact runs_snoc_iff.mpr ⟨_, hrun, .die host⟩

end Reads

variable [DecidableEq K] [Inhabited K] {S : TrackerSetup K E} {W : WireTypes K} {X : EngineText E}
  {c₀ : ControlVO K E}

/-- The command has been executed in `s`, and the first `pos` devices have been sent the update. -/
structure PartlySent (S : TrackerSetup K E) (W : WireTypes K) (X : EngineText E)
    (s : Fleet A K E) (r : Record K E) (p : List UInt8) (pos : ℕ) (s' : Fleet A K E) : Prop where
  before : r.before = s.dassTracker
  served : Served S s.dassTracker r.command r.update r.after
  payload : payload W X r.update = some p
  read : ∃ (sockets : List (A × List (List UInt8))) (died : List A),
    Exchanged W X s r.update (s.connectedDevices.take pos) sockets ∧
    s' = { s with
      dassTracker := r.after
      devices := killed died (sockets.foldl (read S W X) s.devices) }

/-- What has become of `s` when the thread is at a place. -/
def From (S : TrackerSetup K E) (W : WireTypes K) (X : EngineText E) (s : Fleet A K E) :
    Place A K E × Fleet A K E → Prop
  | (.accepted _, s') => s' = s
  | (.listed host, s') => s' = { s with connectedDevices := s.connectedDevices ++ [host] }
  | (.sentFull host p, s') => s' = { s with connectedDevices := s.connectedDevices ++ [host] } ∧
      p = [70] ++ (encode_full X s.dassTracker.vo_data).flatten
  | (.welcomed host complete, s') => ∃ s₂, Step S W X s (.joined host complete) s₂ ∧ Deaths s₂ s'
  | (.requested _, s') => s' = s
  | (.sending r p pos, s') => PartlySent S W X s r p pos s'
  | (.sent r p host pos, s') => PartlySent S W X s r p pos s' ∧
      s.connectedDevices[pos]? = some host ∧ (s.devices host).isSome
  | (.replied r p pos, s') => PartlySent S W X s r p (pos + 1) s'
  | (.finished r sent, s') => ∃ s₂, Step S W X s (.served r sent) s₂ ∧ Deaths s₂ s'
  | (.answered, s') => s' = s

def At (S : TrackerSetup K E) (W : WireTypes K) (X : EngineText E) (s : Fleet A K E)
    (x : Place A K E × Fleet A K E) : Prop :=
  ∃ s₁, Deaths s s₁ ∧ From S W X s₁ x

theorem entered_at {i : Thread} {p : Place A K E} (h : entered i p) : At S W X s (p, s) := by
  refine ⟨s, .refl s, ?_⟩
  cases i with
  | listenForNewDevices =>
    obtain ⟨host, rfl⟩ := h
    rfl
  | listenForCACommands =>
    obtain ⟨request, rfl⟩ := h
    rfl

section Sending

variable {r : Record K E} {p : List UInt8} {pos : ℕ} {host : A}

theorem PartlySent.connected (h : PartlySent S W X s r p pos s') :
    s'.connectedDevices = s.connectedDevices := by
  obtain ⟨sockets, died, -, rfl⟩ := h.read
  rfl

theorem PartlySent.alive (h : PartlySent S W X s r p pos s') (hd : (s'.devices host).isSome) :
    (s.devices host).isSome := by
  obtain ⟨sockets, died, -, rfl⟩ := h.read
  exact isSome_of_reads (isSome_of_killed hd)

theorem PartlySent.die (h : PartlySent S W X s r p pos s') (host : A) :
    PartlySent S W X s r p pos
      { s' with devices := Function.update s'.devices host none } := by
  obtain ⟨sockets, died, hexchanged, rfl⟩ := h.read
  exact ⟨h.before, h.served, h.payload, sockets, host :: died, hexchanged, by rw [killed_cons]⟩

theorem PartlySent.next {buffers : List (List UInt8)} (h : PartlySent S W X s r p pos s')
    (hhost : s.connectedDevices[pos]? = some host) (halive : (s.devices host).isSome)
    (hread : ReadExactly p buffers ∨ buffers = []) :
    PartlySent S W X s r p (pos + 1)
      { s' with devices := FleetMessages.read S W X s'.devices (host, buffers) } := by
  obtain ⟨sockets, died, hexchanged, rfl⟩ := h.read
  have htake : s.connectedDevices.take (pos + 1) = s.connectedDevices.take pos ++ [host] := by
    rw [List.take_add_one, hhost]
    rfl
  obtain ⟨p', hpay, hexactly⟩ := hexchanged.exactly
  obtain rfl : p = p' := Option.some.inj (h.payload.symm.trans hpay)
  refine ⟨h.before, h.served, h.payload, sockets ++ [(host, buffers)], died, ?_, ?_⟩
  · refine ⟨?_, ?_, p, hpay, ?_⟩
    · rw [List.map_append, hexchanged.hosts, htake]
      rfl
    · intro other hmem
      rcases List.mem_append.mp (htake ▸ hmem) with hmem | hmem
      · exact hexchanged.alive other hmem
      · exact (List.mem_singleton.mp hmem).symm ▸ halive
    · intro socket hmem
      rcases List.mem_append.mp hmem with hmem | hmem
      · exact hexactly socket hmem
      · exact (List.mem_singleton.mp hmem).symm ▸ hread
  · rw [List.foldl_append, List.foldl_cons, List.foldl_nil, ← read_killed]

theorem PartlySent.done (h : PartlySent S W X s r p pos s')
    (hend : s.connectedDevices[pos]? = none) :
    ∃ s₂, Step S W X s (.served r s.connectedDevices) s₂ ∧ Deaths s₂ s' := by
  obtain ⟨sockets, died, hexchanged, rfl⟩ := h.read
  rw [List.take_of_length_le (List.getElem?_eq_none_iff.mp hend)] at hexchanged
  have hr : r = ⟨s.dassTracker, r.command, r.update, r.after⟩ := by rw [← h.before]
  rw [hr]
  exact ⟨_, .command h.served hexchanged, died, rfl⟩

theorem PartlySent.stopped {vo_data : Verifier E} {left : Option (Verifier E)}
    (h : PartlySent S W X s r p pos s') (hfull : r.update = .full vo_data)
    (hhost : s.connectedDevices[pos]? = some host)
    (hleft : left.isSome → (s'.devices host).isSome) :
    ∃ s₂, Step S W X s (.served r (s.connectedDevices.take pos)) s₂ ∧
      Deaths s₂ { s' with devices := Function.update s'.devices host left } := by
  have hcame : left.isSome → (s.devices host).isSome := fun hsome => h.alive (hleft hsome)
  obtain ⟨sockets, died, hexchanged, rfl⟩ := h.read
  have hsplit : s.connectedDevices =
      s.connectedDevices.take pos ++ host :: s.connectedDevices.drop (pos + 1) := by
    obtain ⟨hlt, hget⟩ := List.getElem?_eq_some_iff.mp hhost
    rw [← hget, List.cons_getElem_drop_succ, List.take_append_drop]
  have hr : r = ⟨s.dassTracker, r.command, .full vo_data, r.after⟩ := by rw [← h.before, ← hfull]
  have hserved := h.served
  rw [hfull] at hserved hexchanged
  rw [hr]
  refine ⟨_, .full_cut_off hserved hsplit hexchanged hcame, died, ?_⟩
  dsimp only
  rw [update_killed]
  split
  case isTrue hdied =>
    refine Option.not_isSome_iff_eq_none.mp fun hsome => ?_
    have halive := hleft hsome
    dsimp only at halive
    rw [killed, if_pos hdied] at halive
    cases halive
  case isFalse => rfl

end Sending

theorem From.die {p : Place A K E} (h : From S W X s (p, s')) (host : A) :
    At S W X s (p, { s' with devices := Function.update s'.devices host none }) := by
  cases p with
  | accepted _ | requested _ | answered =>
    obtain rfl : s' = s := h
    exact ⟨_, (Deaths.refl s').die host, rfl⟩
  | listed other =>
    obtain rfl := (h : s' = _)
    exact ⟨_, (Deaths.refl s).die host, rfl⟩
  | sentFull other payload =>
    obtain ⟨rfl, hp⟩ := h
    exact ⟨_, (Deaths.refl s).die host, rfl, hp⟩
  | welcomed other complete =>
    obtain ⟨s₂, hstep, hdeaths⟩ := h
    exact ⟨s, .refl s, s₂, hstep, hdeaths.die host⟩
  | sending r payload pos | replied r payload pos =>
    have hsent : PartlySent S W X s r payload _ s' := h
    exact ⟨s, .refl s, hsent.die host⟩
  | sent r payload other pos =>
    obtain ⟨hsent, hother, halive⟩ := h
    exact ⟨s, .refl s, hsent.die host, hother, halive⟩
  | finished r sent =>
    obtain ⟨s₂, hstep, hdeaths⟩ := h
    exact ⟨s, .refl s, s₂, hstep, hdeaths.die host⟩

theorem Move.preserves {i : Thread} {x y : Place A K E × Fleet A K E} (h : Move S W X i x y)
    (hx : At S W X s x) : At S W X s y := by
  obtain ⟨s₁, hdeaths, hx⟩ := hx
  cases h with
  | push_back =>
    obtain rfl : _ = s₁ := hx
    exact ⟨_, hdeaths, rfl⟩
  | sendFull =>
    obtain rfl := (hx : _ = _)
    exact ⟨s₁, hdeaths, rfl, rfl⟩
  | readFull d hread =>
    obtain ⟨rfl, rfl⟩ := hx
    exact ⟨s₁, hdeaths, _, .join _ d hread, .refl _⟩
  | turn_away left hplace =>
    refine ⟨s₁, hdeaths, _, .join_cut_off _ left, ?_⟩
    rcases hplace with rfl | ⟨payload, rfl⟩
    · obtain rfl := (hx : _ = _)
      exact .refl _
    · obtain ⟨rfl, -⟩ := hx
      exact .refl _
  | execute hserved hpay =>
    obtain rfl : _ = s₁ := hx
    exact ⟨_, hdeaths, rfl, hserved, hpay, [], [],
      ⟨rfl, fun _ hmem => (by cases hmem), _, hpay, fun _ hmem => (by cases hmem)⟩,
      by rw [killed_nil]; rfl⟩
  | connect hhost halive =>
    have hsent : PartlySent S W X s₁ _ _ _ _ := hx
    exact ⟨s₁, hdeaths, hsent, hsent.connected ▸ hhost, hsent.alive halive⟩
  | read hread =>
    obtain ⟨hsent, hhost, halive⟩ := hx
    exact ⟨s₁, hdeaths, hsent.next hhost halive hread⟩
  | next => exact ⟨s₁, hdeaths, hx⟩
  | finish hend =>
    have hsent : PartlySent S W X s₁ _ _ _ _ := hx
    rw [hsent.connected] at hend ⊢
    exact ⟨s₁, hdeaths, hsent.done hend⟩
  | refuse hfull hhost =>
    have hsent : PartlySent S W X s₁ _ _ _ _ := hx
    rw [hsent.connected] at hhost ⊢
    have hstopped := hsent.stopped hfull hhost (fun hsome => hsome)
    rw [Function.update_eq_self] at hstopped
    exact ⟨s₁, hdeaths, hstopped⟩
  | cut_off hfull hleft =>
    obtain ⟨hsent, hhost, -⟩ := hx
    have hstopped := hsent.stopped hfull hhost hleft
    rw [← hsent.connected] at hstopped
    exact ⟨s₁, hdeaths, hstopped⟩
  | answer => exact ⟨s₁, hdeaths, hx⟩
  | die host =>
    obtain ⟨s₂, hdeaths₂, hfrom⟩ := From.die hx host
    exact ⟨s₂, hdeaths.trans hdeaths₂, hfrom⟩

theorem moves_preserve {i : Thread} {x y : Place A K E × Fleet A K E}
    (h : Relation.ReflTransGen (Move S W X i) x y) (hx : At S W X s x) : At S W X s y := by
  induction h with
  | refl => exact hx
  | tail _ hmove ih => exact hmove.preserves ih

theorem whole_steps {i : Thread} {e : Option (Event A K E)}
    (h : Whole (threads S W X) s (i, e) s') :
    ∃ l, exchanges l = e.toList ∧ Runs (Step S W X) s l s' := by
  obtain ⟨p, p', henter, hmoves, hleave⟩ := h
  obtain ⟨s₁, hbefore, hfrom⟩ : At S W X s (p', s') := moves_preserve hmoves (entered_at henter)
  obtain ⟨l₁, hquiet₁, hrun₁⟩ := hbefore.runs (S := S) (W := W) (X := X)
  have hone : ∀ {ev : Event A K E} {s₂}, exchanges [ev] = [ev] → Step S W X s₁ ev s₂ →
      Deaths s₂ s' → ∃ l, exchanges l = [ev] ∧ Runs (Step S W X) s l s' := by
    intro ev s₂ hev hstep hafter
    obtain ⟨l₂, hquiet₂, hrun₂⟩ := hafter.runs (S := S) (W := W) (X := X)
    refine ⟨l₁ ++ ([ev] ++ l₂), ?_, ?_⟩
    · rw [exchanges_append, exchanges_append, hquiet₁, hquiet₂, hev]
      rfl
    · exact runs_append_iff.mpr ⟨_, hrun₁, .cons hstep hrun₂⟩
  cases i with
  | listenForNewDevices =>
    obtain ⟨host, complete, rfl, rfl⟩ := hleave
    obtain ⟨s₂, hstep, hafter⟩ := hfrom
    exact hone rfl hstep hafter
  | listenForCACommands =>
    rcases hleave with ⟨r, sent, rfl, rfl⟩ | ⟨rfl, rfl⟩
    · obtain ⟨s₂, hstep, hafter⟩ := hfrom
      exact hone rfl hstep hafter
    · obtain rfl : s' = s₁ := hfrom
      exact ⟨l₁, hquiet₁, hrun₁⟩

theorem wholes_steps {l : List (Thread × Option (Event A K E))}
    (h : Runs (Whole (threads S W X)) s l s') :
    ∃ l', exchanges l' = l.filterMap Prod.snd ∧ Runs (Step S W X) s l' s' := by
  induction h with
  | nil => exact ⟨[], rfl, .nil _⟩
  | @cons _ _ _ x l hwhole _ ih =>
    obtain ⟨l₁, hfirst, hrun₁⟩ := whole_steps hwhole
    obtain ⟨l₂, hrest, hrun₂⟩ := ih
    refine ⟨l₁ ++ l₂, ?_, runs_append_iff.mpr ⟨_, hrun₁, hrun₂⟩⟩
    rw [exchanges_append, hfirst, hrest]
    obtain ⟨i, _ | ev⟩ := x <;> rfl

/-! ### All interleavings -/

def started (c₀ : ControlVO K E) : Config Thread (Place A K E) (Fleet A K E) :=
  idle (noDevices c₀)

theorem free_run {l : List (Label Thread (Option (Event A K E)))}
    {c : Config Thread (Place A K E) (Fleet A K E)}
    (h : Runs (CriticalSections.Step (threads S W X)) (started c₀) l c) (hstray : NoStray l)
    (hfree : c.owner = none) :
    ∃ l', exchanges l' = happened l ∧ Runs (Step S W X) (noDevices c₀) l' c.shared := by
  obtain ⟨s, hwhole, hserial⟩ := Runs.serial h hstray
  rw [hserial.free hfree]
  exact wholes_steps hwhole

/-- As long as no failed `accept` releases the lock: both threads are never inside, and whenever
the lock is free the fleet is one of whole joins and commands, between which devices have ended. -/
theorem threads_atomic {l : List (Label Thread (Option (Event A K E)))}
    {c : Config Thread (Place A K E) (Fleet A K E)}
    (h : Runs (CriticalSections.Step (threads S W X)) (started c₀) l c) (hstray : NoStray l) :
    ¬ (∃ p q, c.inside .listenForNewDevices = some p ∧ c.inside .listenForCACommands = some q) ∧
      (c.owner = none → ∃ l', exchanges l' = happened l ∧
        Runs (Step S W X) (noDevices c₀) l' c.shared) := by
  constructor
  · rintro ⟨p, q, hp, hq⟩
    cases (Runs.excluded h hstray).unique hp hq
  · exact free_run h hstray

omit [DecidableEq A] in
theorem updated_of_exchanges {host : A} {l : List (Event A K E)}
    (h : UpToDate S host (exchanges l)) : UpToDate S host l := by
  induction l using List.reverseRecOn with
  | nil => exact h
  | append_singleton l e ih =>
    rw [exchanges_append] at h
    cases e with
    | died other =>
      have h : UpToDate S host (exchanges l ++ []) := h
      rw [List.append_nil] at h
      exact .died (ih h)
    | joined other complete =>
      have h : UpToDate S host (exchanges l ++ [.joined other complete]) := h
      rw [UpToDate.snoc_iff] at h ⊢
      rcases h with ⟨heq, hcomplete, hfresh⟩ | ⟨hne, h⟩
      · exact .inl ⟨heq, hcomplete, records_exchanges l ▸ hfresh⟩
      · exact .inr ⟨hne, ih h⟩
    | served r sent =>
      have h : UpToDate S host (exchanges l ++ [.served r sent]) := h
      rw [UpToDate.snoc_iff] at h ⊢
      rcases h with hfull | ⟨hsummary, hkeep, h⟩
      · exact .inl hfull
      · exact .inr ⟨hsummary, hkeep, ih h⟩

/-- In every interleaving, whenever the lock is free: a device that still runs, is listed once and
is up to date by what it was sent answers as the server does, and every registered key with its
value. -/
theorem device_agrees {l : List (Label Thread (Option (Event A K E)))}
    {c : Config Thread (Place A K E) (Fleet A K E)} {host : A} {reg : K → Option Bool}
    (h : Runs (CriticalSections.Step (threads S W X)) (started c₀) l c) (hstray : NoStray l)
    (hfree : c.owner = none)
    (hsession : Session S c₀ (records (happened l)) c.shared.dassTracker reg)
    (hsend : Sendable X c₀ (records (happened l))) (honce : (hosts (happened l)).count host = 1)
    (hupdated : UpToDate S host (happened l)) {d : Verifier E}
    (hd : c.shared.devices host = some d) : Answers S c.shared.dassTracker reg d := by
  obtain ⟨l', hl', hrun⟩ := free_run h hstray hfree
  rw [← hl'] at hsession hsend honce hupdated
  rw [records_exchanges] at hsession hsend
  rw [hosts_exchanges] at honce
  exact up_to_date_agrees hrun hsession hsend honce (updated_of_exchanges hupdated) hd

section Back

variable {r : Record K E} {p : List UInt8}

theorem sends {sockets : List (A × List (List UInt8))} {pos : ℕ} {missed : List A}
    (hhosts : s.connectedDevices.drop pos = sockets.map Prod.fst ++ missed)
    (hnodup : (sockets.map Prod.fst).Nodup)
    (halive : ∀ socket ∈ sockets, (s.devices socket.1).isSome)
    (hread : ∀ socket ∈ sockets, ReadExactly p socket.2 ∨ socket.2 = []) :
    Relation.ReflTransGen (Move S W X .listenForCACommands) (.sending r p pos, s)
      (.sending r p (pos + sockets.length),
        { s with devices := sockets.foldl (read S W X) s.devices }) := by
  induction sockets generalizing s pos with
  | nil => exact .refl
  | cons socket sockets ih =>
    obtain ⟨host, buffers⟩ := socket
    rw [List.map_cons, List.nodup_cons] at hnodup
    rw [List.map_cons, List.cons_append] at hhosts
    rw [List.forall_mem_cons] at halive hread
    have hhost : s.connectedDevices[pos]? = some host := by
      rw [← Nat.add_zero pos, ← List.getElem?_drop, hhosts]
      rfl
    have hrest : s.connectedDevices.drop (pos + 1) = sockets.map Prod.fst ++ missed := by
      rw [← List.drop_drop, hhosts]
      rfl
    have hlater := ih (s := { s with devices := read S W X s.devices (host, buffers) }) hrest
      hnodup.2 (fun socket hmem => by
        have hne : socket.1 ≠ host := by
          intro heq
          exact hnodup.1 (List.mem_map.mpr ⟨socket, hmem, heq⟩)
        dsimp only
        rw [FleetMessages.read, Function.update_of_ne hne]
        exact halive.2 socket hmem) hread.2
    rw [Nat.add_right_comm] at hlater
    exact .head (.connect hhost halive.1) (.head (.read hread.1) (.head .next hlater))

theorem served_moves {cmd : Command K} {u : Update K E} {c : ControlVO K E}
    {sockets : List (A × List (List UInt8))} {sent missed : List A}
    (hserved : Served S s.dassTracker cmd u c) (hexchanged : Exchanged W X s u sent sockets)
    (hlisted : s.connectedDevices = sent ++ missed) (hnodup : s.connectedDevices.Nodup) :
    ∃ p, payload W X u = some p ∧
      Relation.ReflTransGen (Move S W X .listenForCACommands) (.requested (.change cmd), s)
        (.sending ⟨s.dassTracker, cmd, u, c⟩ p sent.length, { s with
          dassTracker := c
          devices := sockets.foldl (read S W X) s.devices }) ∧
      ∀ host ∈ missed, sockets.foldl (read S W X) s.devices host = s.devices host := by
  obtain ⟨p, hpay, hread⟩ := hexchanged.exactly
  rw [hlisted, List.nodup_append] at hnodup
  obtain ⟨hsent, -, hapart⟩ := hnodup
  rw [← hexchanged.hosts] at hsent
  have hstart : (Move S W X .listenForCACommands) (.requested (.change cmd), s) _ :=
    .execute hserved hpay
  have hhosts : ({ s with dassTracker := c } : Fleet A K E).connectedDevices.drop 0 =
      sockets.map Prod.fst ++ missed := by
    rw [List.drop_zero, hexchanged.hosts]
    exact hlisted
  have hmoves : Relation.ReflTransGen (Move S W X .listenForCACommands)
      (.sending ⟨s.dassTracker, cmd, u, c⟩ p 0, { s with dassTracker := c }) _ :=
    sends hhosts hsent (fun socket hmem => hexchanged.alive _
      (hexchanged.hosts ▸ List.mem_map_of_mem (f := Prod.fst) hmem)) hread
  have hlength : 0 + sockets.length = sent.length := by
    rw [Nat.zero_add, ← hexchanged.hosts, List.length_map]
  rw [hlength] at hmoves
  refine ⟨p, hpay, .head hstart hmoves, fun host hmem => read_of_not_mem ?_⟩
  rw [hexchanged.hosts]
  exact fun hin => hapart host hin host hmem rfl

theorem step_whole {e : Event A K E} (h : Step S W X s e s')
    (hnodup : s.connectedDevices.Nodup) :
    ∃ i o, Whole (threads S W X) s (i, o) s' ∧ o.toList = exchanges [e] := by
  cases h with
  | join host d hread =>
    refine ⟨.listenForNewDevices, _, ⟨.accepted host, .welcomed host true, ⟨host, rfl⟩, ?_,
      host, true, rfl, rfl⟩, rfl⟩
    exact .head .push_back (.head .sendFull (.single (.readFull d hread)))
  | join_cut_off host left =>
    refine ⟨.listenForNewDevices, _, ⟨.accepted host, .welcomed host false, ⟨host, rfl⟩, ?_,
      host, false, rfl, rfl⟩, rfl⟩
    exact .head .push_back (.single (.turn_away left (.inl rfl)))
  | die host =>
    refine ⟨.listenForCACommands, none, ⟨.requested .other, .answered, ⟨_, rfl⟩, ?_,
      .inr ⟨rfl, rfl⟩⟩, rfl⟩
    exact .head (.die host) (.single (.answer nofun))
  | command hserved hexchanged =>
    rename_i cmd u c sockets
    obtain ⟨p, hpay, hmoves, -⟩ := served_moves (X := X) hserved hexchanged
      (List.append_nil _).symm hnodup
    refine ⟨.listenForCACommands, _, ⟨.requested (.change cmd),
      .finished ⟨s.dassTracker, cmd, u, c⟩ s.connectedDevices, ⟨_, rfl⟩, ?_,
      .inl ⟨_, _, rfl, rfl⟩⟩, rfl⟩
    exact hmoves.tail (.finish (List.getElem?_eq_none (Nat.le_refl _)))
  | full_cut_off hserved hlisted hexchanged hleft =>
    rename_i cmd vo_data c sockets sent missed host left
    obtain ⟨p, hpay, hmoves, hkept⟩ := served_moves hserved hexchanged hlisted hnodup
    have hhost : s.connectedDevices[sent.length]? = some host := by
      rw [hlisted, List.getElem?_append_right (Nat.le_refl _), Nat.sub_self]
      rfl
    have htake : s.connectedDevices.take sent.length = sent := by
      rw [hlisted, List.take_left]
    have hsame : sockets.foldl (read S W X) s.devices host = s.devices host :=
      hkept host List.mem_cons_self
    refine ⟨.listenForCACommands, _, ⟨.requested (.change cmd),
      .finished ⟨s.dassTracker, cmd, .full vo_data, c⟩ sent, ⟨_, rfl⟩, hmoves.trans ?_,
      .inl ⟨_, _, rfl, rfl⟩⟩, rfl⟩
    by_cases halive : (s.devices host).isSome
    · rw [← hsame] at halive
      have hlost : Move S W X _
          (.sent ⟨s.dassTracker, cmd, .full vo_data, c⟩ p host sent.length,
            ⟨c, s.connectedDevices, sockets.foldl (read S W X) s.devices⟩) _ :=
        .cut_off rfl fun _ : left.isSome => halive
      rw [htake] at hlost
      exact .head (.connect hhost halive) (.single hlost)
    · have hgone : s.devices host = none := Option.not_isSome_iff_eq_none.mp halive
      have hnone : left = none := Option.not_isSome_iff_eq_none.mp fun hsome =>
        halive (hleft hsome)
      have hstop : Move S W X _ (.sending ⟨s.dassTracker, cmd, .full vo_data, c⟩ p sent.length,
          ⟨c, s.connectedDevices, sockets.foldl (read S W X) s.devices⟩) _ :=
        .refuse rfl hhost
      rw [htake] at hstop
      rw [hnone, ← hsame.trans hgone, Function.update_eq_self]
      exact .single hstop

/-- A run of the fleet in which no device joins twice is one of the threads. -/
theorem run_threads {l : List (Event A K E)} (h : Runs (Step S W X) (noDevices c₀) l s)
    (honce : (hosts l).Nodup) :
    ∃ l', Runs (CriticalSections.Step (threads S W X)) (started c₀) l' (idle s) ∧
      NoStray l' ∧ happened l' = exchanges l := by
  have hwholes : ∃ sections : List (Thread × Option (Event A K E)),
      Runs (Whole (threads S W X)) (noDevices c₀) sections s ∧
      sections.filterMap Prod.snd = exchanges l := by
    induction h using Runs.snoc_induction with
    | nil => exact ⟨[], .nil _, rfl⟩
    | snoc l s₁ e s' hrun hstep ih =>
      have hbefore : (hosts l).Nodup :=
        honce.sublist ((List.sublist_append_left l [e]).filterMap _)
      obtain ⟨sections, hwhole, hsections⟩ := ih hbefore
      obtain ⟨i, o, hlast, ho⟩ := step_whole hstep (connected hrun ▸ hbefore)
      refine ⟨sections ++ [(i, o)], runs_snoc_iff.mpr ⟨_, hwhole, hlast⟩, ?_⟩
      rw [List.filterMap_append, hsections, exchanges_append, ← ho]
      cases o <;> rfl
  obtain ⟨sections, hwhole, hsections⟩ := hwholes
  obtain ⟨l', hrun, hevents, hstray⟩ := serial_iff.mpr hwhole
  exact ⟨l', hrun, hstray, by rw [happened, hevents, hsections]⟩

end Back

theorem cutOffThreads : ∃ (c₀ : ControlVO (BitVec 64) ℕ) (r₁ r₂ : Record (BitVec 64) ℕ)
    (l : List (Label Thread (Option (Event ℕ (BitVec 64) ℕ)))) (reg : BitVec 64 → Option Bool)
    (s : Fleet ℕ (BitVec 64) ℕ) (d : Verifier ℕ) (vo_data : Verifier ℕ),
    Runs (CriticalSections.Step (threads serverTracker serverTypes unaryText)) (started c₀) l
      (idle s) ∧ NoStray l ∧
    happened l = [.joined 7 true, .served r₁ [7], .joined 8 false] ++ [.served r₂ [7]] ∧
    Session serverTracker c₀ [r₁, r₂] s.dassTracker reg ∧ Sendable unaryText c₀ [r₁, r₂] ∧
    r₂.update = .full vo_data ∧ s.devices 7 = some d ∧ reg 20 = some true := by
  obtain ⟨c₀, r₁, r₂, reg, s, d, vo_data, hrun, hsession, hsend, hfull, hd, -, h20⟩ := cutOffRun
  have hdiff : [7, 8].Nodup := by decide
  obtain ⟨l, hthreads, hstray, hhappened⟩ := run_threads hrun hdiff
  exact ⟨c₀, r₁, r₂, l, reg, s, d, vo_data, hthreads, hstray, hhappened, hsession, hsend, hfull,
    hd, h20⟩

theorem threads_atomic_join : ∃ (c₀ : ControlVO (BitVec 64) ℕ) (r₁ r₂ : Record (BitVec 64) ℕ)
    (l : List (Label Thread (Option (Event ℕ (BitVec 64) ℕ)))) (s : Fleet ℕ (BitVec 64) ℕ),
    Runs (CriticalSections.Step (threads serverTracker serverTypes unaryText)) (started c₀) l
      (idle s) ∧ NoStray l ∧
    happened l = [.joined 7 true, .served r₁ [7], .joined 8 false, .served r₂ [7]] ∧
    ∃ l', exchanges l' = happened l ∧
      Runs (Step serverTracker serverTypes unaryText) (noDevices c₀) l' s := by
  obtain ⟨c₀, r₁, r₂, l, reg, s, d, vo_data, hrun, hstray, hhappened, -⟩ := cutOffThreads
  exact ⟨c₀, r₁, r₂, l, s, hrun, hstray, hhappened, (threads_atomic hrun hstray).2 rfl⟩

theorem device_agrees_join : ∃ (c₀ : ControlVO (BitVec 64) ℕ)
    (l : List (Label Thread (Option (Event ℕ (BitVec 64) ℕ)))) (s : Fleet ℕ (BitVec 64) ℕ)
    (d : Verifier ℕ),
    Runs (CriticalSections.Step (threads serverTracker serverTypes unaryText)) (started c₀) l
      (idle s) ∧ s.devices 7 = some d ∧ (∀ k, DASSVerifier.query serverTracker d k =
      CRIoTControl.query serverTracker s.dassTracker k) ∧
    DASSVerifier.query serverTracker d 20 = 1 := by
  obtain ⟨c₀, r₁, r₂, l, reg, s, d, vo_data, hrun, hstray, hhappened, hsession, hsend, hfull, hd,
    h20⟩ := cutOffThreads
  have hrecords : records (happened l) = [r₁, r₂] := hhappened ▸ rfl
  have honce : (hosts (happened l)).count 7 = 1 := hhappened ▸ rfl
  have hupdated : UpToDate serverTracker 7 (happened l) :=
    hhappened ▸ .full hfull (List.mem_singleton_self 7)
  have hanswers := device_agrees hrun hstray rfl (hrecords.symm ▸ hsession)
    (hrecords.symm ▸ hsend) honce hupdated hd
  exact ⟨c₀, l, s, d, hrun, hd, hanswers.server, hanswers.registered _ _ h20⟩

/-- How the lock is broken: after the reply to data that is no command nothing is done any more, and
a failed `accept` in one loop lets it in while the other is inside. -/
theorem lock_broken {l : List (Label Thread (Option (Event A K E)))}
    {c : Config Thread (Place A K E) (Fleet A K E)}
    (h : Runs (CriticalSections.Step (threads S W X)) (started c₀) l c) (hstray : NoStray l) :
    (∀ l₁ i l₂, l = l₁ ++ .stop i :: l₂ → i = .listenForCACommands ∧ l₂ = []) ∧
      ∀ i j p q, c.inside j = some q → i ≠ j → entered i p →
        ∃ c', Runs (CriticalSections.Step (threads S W X)) c [.stray i, .lock i] c' ∧
          c'.inside i = some p ∧ c'.inside j = some q := by
  have hexcl := Runs.excluded h hstray
  constructor
  · rintro l₁ i l₂ rfl
    obtain ⟨hnil, p, hcontinue⟩ := Runs.after_stop h hstray
    refine ⟨?_, hnil⟩
    cases i with
    | listenForNewDevices => exact hcontinue.elim
    | listenForCACommands => rfl
  · intro i j p q hin hij henter
    have hout : c.inside i = none := by
      by_contra hi
      obtain ⟨p', hi⟩ := Option.ne_none_iff_exists'.mp hi
      exact hij (hexcl.unique hi hin)
    exact CriticalSections.Step.stray_admits hin hout trivial henter

theorem lock_broken_accepted : ∃ c c' : Config Thread (Place ℕ (BitVec 64) ℕ)
      (Fleet ℕ (BitVec 64) ℕ), c.inside .listenForNewDevices = some (.accepted 7) ∧
    Runs (CriticalSections.Step (threads serverTracker serverTypes unaryText)) c
      [.stray .listenForCACommands, .lock .listenForCACommands] c' ∧
    c'.inside .listenForCACommands = some (.requested .other) ∧
    c'.inside .listenForNewDevices = some (.accepted 7) := by
  have hlock : CriticalSections.Step (threads serverTracker serverTypes unaryText)
      (started (A := ℕ) ⟨blankTracker, install blankTracker, []⟩) (.lock .listenForNewDevices) _ :=
    .lock rfl rfl ⟨7, rfl⟩
  obtain ⟨c', hrun, hin, hin'⟩ := (lock_broken (.cons hlock (.nil _)) (by simp [NoStray])).2
    .listenForCACommands .listenForNewDevices (.requested .other) (.accepted 7)
    rfl nofun ⟨_, rfl⟩
  exact ⟨_, c', rfl, hrun, hin, hin'⟩

end ServerThreads
