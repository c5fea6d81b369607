import TinyCR.FleetAgreement

/-! # Devices that are listed more than once

`listenForNewDevices` lists an address again when its device joins again, and from then on the
device gets every update as often as it is listed. A full update or a change of status does the
second time nothing; an addition may undo itself. Without such additions the device still answers
as the server does. -/
namespace FleetRejoin

open OthelloInvariant VacuumFilter DASSTracker TrackerInvariant TrackerRun DASSVerifier
  CRIoTControl SummaryWire FullWire FullUpdates TinyCRServer DeviceAgreement ConnectedDevices
  MessageFraming UpdateMessages LabelledRuns FleetMessages FleetAgreement

open CertificateKeys (serverTracker)

variable {A K E : Type} [DecidableEq A] [DecidableEq K] [Inhabited K] {S : TrackerSetup K E}
  {W : WireTypes K} {X : EngineText E} {c₀ c c' : ControlVO K E} {l : List (Record K E)}
  {reg : K → Option Bool} {s s' : Fleet A K E} {l₁ l₂ : List (Event A K E)} {host : A}

/-- An addition whose summary has something to apply. -/
def OnlyOnce (r : Record K E) : Prop :=
  ∃ kv flipped_indexes kvs actions, r.command = .add kv ∧
    r.update = .summary flipped_indexes kvs actions ∧ (flipped_indexes ≠ [] ∨ kv.2 = 1)

theorem Served.status_again {cmd : Command K} {u : Update K E} {k : K} {b : Bool}
    (hx : cmd.call = some (.setValue (k, b.toNat))) (h : Served S c cmd u c')
    (hkeep : LosesNoRebuild S ⟨c, cmd, u, c'⟩) (hquery : CRIoTControl.query S c' k = b.toNat) :
    receive S (install c'.vo_control) u = some (install c'.vo_control) := by
  obtain ⟨status, hcall, rfl⟩ := h.called hx
  cases hcall with
  | keep hcall =>
    have hsame : DASSVerifier.query S (install c'.vo_control) k = CRIoTControl.query S c' k :=
      query_install _ k
    rw [receive_delta hx, follow]
    exact congrArg some (if_pos (hsame.trans hquery))
  | rebuild hup _ hcall _ =>
    obtain ⟨-, -, -, -, hinstall, -⟩ := call_false hcall
    cases cmd with
    | add | rem => cases hx
    | unr key =>
      have hfull : (Command.unr key).update false c' = .full c'.vo_data := rfl
      rw [hfull, receive, hinstall]
    | rev key =>
      rw [← Option.some.inj hx] at hup
      exact absurd ⟨_, hup⟩ (hkeep key rfl)

theorem Served.add_again {u : Update K E} {kv : K × ℕ} (h : Served S c (.add kv) u c')
    (honce : ¬ OnlyOnce ⟨c, .add kv, u, c'⟩) :
    receive S (install c'.vo_control) u = some (install c'.vo_control) := by
  have hx : (Command.add kv).call = some (.insert kv) := rfl
  obtain ⟨status, hcall, rfl⟩ := h.called hx
  cases hcall with
  | keep hcall =>
    have hnone : c'.flipped_indexes = [] ∧ kv.2 ≠ 1 := by
      constructor
      · by_contra hflips
        exact honce ⟨kv, _, _, _, rfl, rfl, Or.inl hflips⟩
      · intro hv
        exact honce ⟨kv, _, _, _, rfl, rfl, Or.inr hv⟩
    rw [receive_delta hx, hnone.1, follow, DASSVerifier.insert, if_pos rfl, if_neg hnone.2]
  | rebuild _ _ hcall _ =>
    obtain ⟨-, -, -, -, hinstall, -⟩ := call_false hcall
    have hfull : (Command.add kv).update false c' = .full c'.vo_data := rfl
    rw [hfull, receive, hinstall]

theorem Session.again {r : Record K E} (h : Session S c₀ (l ++ [r]) c reg)
    (hkeep : LosesNoRebuild S r) (honce : ¬ OnlyOnce r) :
    receive S (install c.vo_control) r.update = some (install c.vo_control) := by
  generalize hl : l ++ [r] = l' at h
  cases h with
  | start => simp at hl
  | add h hP hN hserved =>
    obtain ⟨-, heq⟩ := List.append_inj' hl rfl
    obtain rfl := List.singleton_inj.mp heq
    exact Served.add_again hserved honce
  | unr h hk hserved =>
    obtain ⟨-, heq⟩ := List.append_inj' hl rfl
    obtain rfl := List.singleton_inj.mp heq
    obtain ⟨events, hrun⟩ := (Session.unr h hk hserved).run
    exact Served.status_again rfl hserved hkeep
      ((hrun.answers _).2 false (Function.update_self ..))
  | rev h hk hserved =>
    obtain ⟨-, heq⟩ := List.append_inj' hl rfl
    obtain rfl := List.singleton_inj.mp heq
    obtain ⟨events, hrun⟩ := (Session.rev h hk hserved).run
    exact Served.status_again rfl hserved hkeep
      ((hrun.answers _).2 true (Function.update_self ..))

section Sockets

variable {u : Update K E} {p : List UInt8} {sockets : List (A × List (List UInt8))}
  {v v' : Verifier E} {devices : A → Option (Verifier E)}

theorem read_socket (hpay : payload W X u = some p) (hfit : Fitting S W X u)
    {socket : A × List (List UInt8)} (hread : ReadExactly p socket.2)
    (hv : receive S v u = some v') (h : ∃ d, devices socket.1 = some d ∧ Twin S.hash v d) :
    ∃ d, FleetMessages.read S W X devices socket socket.1 = some d ∧ Twin S.hash v' d := by
  obtain ⟨d, hd, htwin⟩ := h
  have hstep := listenForUpdates_twin htwin hfit hpay hread
  rw [hv] at hstep
  rw [FleetMessages.read, Function.update_self, hd, Option.bind_some]
  generalize listenForUpdates S W X d socket.2 = r at *
  cases hstep with
  | some hnext => exact ⟨_, rfl, hnext.2⟩

theorem read_again (hpay : payload W X u = some p) (hfit : Fitting S W X u)
    (hread : ∀ socket ∈ sockets, ReadExactly p socket.2) (hv : receive S v u = some v)
    (h : ∃ d, devices host = some d ∧ Twin S.hash v d) :
    ∃ d, sockets.foldl (FleetMessages.read S W X) devices host = some d ∧ Twin S.hash v d := by
  induction sockets generalizing devices with
  | nil => exact h
  | cons socket sockets ih =>
    rw [List.forall_mem_cons] at hread
    rw [List.foldl_cons]
    apply ih hread.2
    by_cases heq : socket.1 = host
    · subst heq
      exact read_socket hpay hfit hread.1 hv h
    · rw [FleetMessages.read, Function.update_of_ne (Ne.symm heq)]
      exact h

theorem read_listed (hpay : payload W X u = some p) (hfit : Fitting S W X u)
    (hread : ∀ socket ∈ sockets, ReadExactly p socket.2) (hlisted : host ∈ sockets.map Prod.fst)
    (hv : receive S v u = some v') (hagain : receive S v' u = some v')
    (h : ∃ d, devices host = some d ∧ Twin S.hash v d) :
    ∃ d, sockets.foldl (FleetMessages.read S W X) devices host = some d ∧ Twin S.hash v' d := by
  induction sockets generalizing devices with
  | nil => cases hlisted
  | cons socket sockets ih =>
    rw [List.forall_mem_cons] at hread
    rw [List.foldl_cons]
    by_cases heq : socket.1 = host
    · subst heq
      exact read_again hpay hfit hread.2 hagain (read_socket hpay hfit hread.1 hv h)
    · rw [List.map_cons, List.mem_cons] at hlisted
      apply ih hread.2 (hlisted.resolve_left (Ne.symm heq))
      rw [FleetMessages.read, Function.update_of_ne (Ne.symm heq)]
      exact h

end Sockets

def Copy (S : TrackerSetup K E) (s : Fleet A K E) (host : A) : Prop :=
  ∃ d, s.devices host = some d ∧ Twin S.hash (install s.dassTracker.vo_control) d

theorem stays_copy {l : List (Event A K E)} {L : List (Record K E)}
    (h : Runs (Step S W X) s l s') (hsession : Session S c₀ (L ++ records l) s'.dassTracker reg)
    (hfit : ∀ r ∈ records l, Fitting S W X r.update)
    (hkeep : ∀ r ∈ records l, LosesNoRebuild S r) (honce : ∀ r ∈ records l, ¬ OnlyOnce r)
    (hlisted : host ∈ s.connectedDevices) (hafter : host ∉ hosts l) (hcopy : Copy S s host) :
    Copy S s' host := by
  induction h using Runs.snoc_induction generalizing reg with
  | nil => exact hcopy
  | snoc l s₁ e s' hl hstep ih =>
    cases hstep with
    | join other d hread =>
      rw [records_joined] at hsession hfit hkeep honce
      rw [hosts_joined, List.mem_append, List.mem_singleton, not_or] at hafter
      obtain ⟨d', hd', htwin⟩ := ih hsession hfit hkeep honce hafter.1
      exact ⟨d', (welcome_of_ne hafter.2).trans hd', htwin⟩
    | command hserved hsockets =>
      rename_i cmd u c sockets
      rw [records_served] at hsession hfit hkeep honce
      rw [← List.append_assoc] at hsession
      rw [hosts_served] at hafter
      rw [List.forall_mem_append, List.forall_mem_singleton] at hfit hkeep honce
      obtain ⟨-, reg₁, hbefore⟩ := Session.before hsession
      have hcopy₁ := ih hbefore hfit.1 hkeep.1 honce.1 hafter
      obtain ⟨events, hrun⟩ := hbefore.run
      obtain ⟨x, hx⟩ := Session.call_of_last hsession
      have hv := (Served.copies hx hserved hkeep.2 hrun.reached.consistent.1.othello).1
      have hagain := Session.again hsession hkeep.2 honce.2
      obtain ⟨p, hpay, hread⟩ := hsockets.exactly
      have hsocket : host ∈ sockets.map Prod.fst := by
        rw [hsockets.hosts, connected hl]
        exact List.mem_append_left _ hlisted
      exact read_listed hpay hfit.2 hread hsocket hv hagain hcopy₁

/-- A device that joins a server with a fresh snapshot answers as the server does, however often it
has joined before, as long as no revocation is lost and no addition has more to apply than it may
get twice. -/
theorem rejoined_agrees (h : Runs (Step S W X) (noDevices c₀) (l₁ ++ .joined host :: l₂) s)
    (hsession : Session S c₀ (records (l₁ ++ .joined host :: l₂)) s.dassTracker reg)
    (hsend : Sendable X c₀ (records (l₁ ++ .joined host :: l₂))) (hafter : host ∉ hosts l₂)
    (hfresh : Fresh S (records l₁)) (hkeep : ∀ r ∈ records l₂, LosesNoRebuild S r)
    (honce : ∀ r ∈ records l₂, ¬ OnlyOnce r) :
    ∃ d, s.devices host = some d ∧ Answers S s.dassTracker reg d := by
  have hsplit : l₁ ++ .joined host :: l₂ = (l₁ ++ [.joined host]) ++ l₂ := by simp
  rw [hsplit] at h hsession hsend
  rw [records_append, records_joined] at hsession hsend
  obtain ⟨s₂, hfirst, hrest⟩ := runs_append_iff.mp h
  obtain ⟨-, hfits⟩ := Session.fitting (W := W) hsession hsend
  obtain ⟨reg₁, hstart⟩ := session_before hrest hsession
  have hlisted : host ∈ s₂.connectedDevices := by
    rw [connected hfirst, hosts_joined]
    simp
  have hcopy : Copy S s₂ host := joined_copy hfirst hstart hsend.front hfresh
  obtain ⟨d, hd, htwin⟩ := stays_copy hrest hsession
    (fun r hr => hfits r (List.mem_append_right _ hr)) hkeep honce hlisted hafter hcopy
  have hcurrent : Current S s host := by
    intro d' hd'
    obtain rfl := Option.some.inj (hd.symm.trans hd')
    exact htwin
  exact ⟨d, hd, hcurrent.answers hsession hd⟩

def rejoinRun : Option (Tracker (BitVec 64) ℕ × Tracker (BitVec 64) ℕ × List ℕ) := do
  let t₀ ← ready (batch_insert serverTracker 1 (DASSTracker.init serverTracker blankTracker 4 1)
    [1, 2, 3, 4] [5])
  let (f, t₁) ← flips (DASSTracker.setValue serverTracker t₀ (1, 0))
  return (t₀, t₁, f)

theorem rejoinRun_facts : rejoinRun.map (fun p => p.2.2) = some [] := by decide +kernel

theorem rejoinRun_run : ∃ (c₀ : ControlVO (BitVec 64) ℕ) (r : Record (BitVec 64) ℕ)
    (s : Fleet ℕ (BitVec 64) ℕ) (reg : BitVec 64 → Option Bool),
    Runs (Step serverTracker serverTypes unaryText) (noDevices c₀)
      [.joined 7, .joined 7, .served r] s ∧
    Session serverTracker c₀ [r] s.dassTracker reg ∧ Sendable unaryText c₀ [r] ∧
    r.command = .unr 1 ∧ reg 1 = some false := by
  obtain ⟨⟨t₀, t₁, f⟩, hrun, hflips⟩ := Option.map_eq_some_iff.mp rejoinRun_facts
  obtain rfl : f = [] := hflips
  rw [rejoinRun] at hrun
  obtain ⟨t₀', hstart, hrun⟩ := Option.bind_eq_some_iff.mp hrun
  obtain ⟨⟨f', t₁'⟩, hset, hrun⟩ := Option.bind_eq_some_iff.mp hrun
  simp only [Option.pure_def, Option.some.injEq, Prod.mk.injEq] at hrun
  obtain ⟨rfl, rfl, rfl⟩ := hrun
  obtain ⟨done, hbatch, hfit, htyped⟩ := ready_some hstart
  have hset := flips_some hset
  have hrun₀ := fleetRun_start hbatch hfit
  have hserved : Served serverTracker ⟨t₀', install t₀', []⟩ (.unr 1)
      (.summary [] [(1, 0)] [UnrevokeAction]) ⟨t₁', install t₀', []⟩ := by
    have hcall : CRIoTControl.setValue serverTracker 0 [] [] ⟨t₀', install t₀', []⟩ (1, 0) =
        .ok (true, ⟨t₁', install t₀', []⟩) :=
      call_of_update (x := .setValue (1, 0)) hset (by decide)
    refine ⟨0, [], [], ?_, fun x t hx hup => ?_⟩
    · rw [command, unrevokeCertificate, hcall]
      rfl
    · obtain rfl := Option.some.inj hx
      have hmark := (Prod.mk.inj (Except.ok.inj (hset.symm.trans hup))).1
      exact absurd hmark (by decide)
  have hregistered : (1 : BitVec 64) ∈ t₀'.PK ∨ 1 ∈ t₀'.NK := by
    apply (hrun₀.answers 1).1.mpr
    decide
  have hsession := Session.unr (.start hrun₀) hregistered hserved
  have hsend : Sendable unaryText ⟨t₀', install t₀', []⟩ [⟨⟨t₀', install t₀', []⟩, .unr 1,
      .summary [] [(1, 0)] [UnrevokeAction], ⟨t₁', install t₀', []⟩⟩] := by
    refine ⟨htyped, fun r hr => ?_, fun r hr flipped_indexes kvs actions hu => ?_⟩
    · rw [List.mem_singleton.mp hr]
      exact htyped
    · rw [List.mem_singleton.mp hr] at hu
      cases hu
      decide
  have hsockets : ∀ (s : Fleet ℕ (BitVec 64) ℕ) u p, s.connectedDevices = [7, 7] →
      payload serverTypes unaryText u = some p →
      FleetMessages.Sockets serverTypes unaryText s u [(7, [p ++ finish]), (7, [p ++ finish])] := by
    intro s u p hs hpay
    refine ⟨hs.symm, p, hpay, fun socket hmem => ?_⟩
    rcases List.mem_pair.mp hmem with rfl | rfl
    · exact exactly_one p
    · exact exactly_one p
  exact ⟨_, _, _, _, .cons (.join 7 (install blankTracker) (exactly_one _))
    (.cons (.join 7 (install blankTracker) (exactly_one _))
      (.cons (.command hserved (hsockets _ _ _ rfl rfl)) (.nil _))), hsession, hsend, rfl, rfl⟩

theorem rejoined_agrees_twice : ∃ (c₀ : ControlVO (BitVec 64) ℕ) (r : Record (BitVec 64) ℕ)
    (s : Fleet ℕ (BitVec 64) ℕ) (d : Verifier ℕ),
    Runs (Step serverTracker serverTypes unaryText) (noDevices c₀)
      [.joined 7, .joined 7, .served r] s ∧ s.connectedDevices = [7, 7] ∧ s.devices 7 = some d ∧
    (∀ k, DASSVerifier.query serverTracker d k =
      CRIoTControl.query serverTracker s.dassTracker k) ∧
    DASSVerifier.query serverTracker d 1 = 0 := by
  obtain ⟨c₀, r, s, reg, hrun, hsession, hsend, hcmd, h1⟩ := rejoinRun_run
  have hsplit : Runs (Step serverTracker serverTypes unaryText) (noDevices c₀)
      ([.joined 7] ++ .joined 7 :: [.served r]) s := hrun
  have hkeep : ∀ r' ∈ [r], LosesNoRebuild serverTracker r' := by
    intro r' hr key hrev
    rw [List.mem_singleton.mp hr, hcmd] at hrev
    cases hrev
  have honce : ∀ r' ∈ [r], ¬ OnlyOnce r' := by
    rintro r' hr ⟨kv, flipped_indexes, kvs, actions, hadd, -⟩
    rw [List.mem_singleton.mp hr, hcmd] at hadd
    cases hadd
  obtain ⟨d, hd, hanswers⟩ := rejoined_agrees hsplit hsession hsend (by simp [hosts])
    (fun r' hr => by cases hr) hkeep honce
  exact ⟨c₀, r, s, d, hrun, connected hrun, hd, hanswers.server, hanswers.registered _ _ h1⟩

end FleetRejoin
