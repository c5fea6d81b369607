import TinyCR.FleetMessages

/-! # Devices that are up to date

A device joins with a copy of the tracker if nothing has happened since the last snapshot, and a
full update makes one of whatever it held. It stays a copy, over the bytes it is sent, as long as
no revocation is lost. -/
namespace FleetAgreement

open OthelloInvariant VacuumFilter DASSTracker TrackerInvariant TrackerRun DASSVerifier
  CRIoTControl SummaryWire FullWire FullUpdates TinyCRServer DeviceAgreement ConnectedDevices
  MessageFraming UpdateMessages LabelledRuns FleetMessages

open CertificateKeys (serverTracker)

variable {A K E : Type} [DecidableEq A] [DecidableEq K] [Inhabited K] {S : TrackerSetup K E}
  {W : WireTypes K} {X : EngineText E} {c₀ c c' : ControlVO K E} {l : List (Record K E)}
  {reg : K → Option Bool} {s s' : Fleet A K E} {l₁ l₂ : List (Event A K E)} {host : A}

/-- No command has been executed since the last snapshot. -/
def Fresh (S : TrackerSetup K E) (l : List (Record K E)) : Prop :=
  ∀ r, l.getLast? = some r → Rebuilt S r

theorem Session.fresh (h : Session S c₀ l c reg) (hfresh : Fresh S l) :
    c.vo_data = install c.vo_control := by
  induction h using Session.command_induction with
  | start reg hrun => exact hrun.start.1
  | command l c c' cmd u x b reg reg' h h' hx hb hserved ih =>
    obtain ⟨x', t, hx', hup⟩ := hfresh ⟨c, cmd, u, c'⟩ (by simp)
    obtain ⟨status, hcall, -⟩ := hserved.called hx
    obtain rfl := Option.some.inj (hx.symm.trans hx')
    cases hcall with
    | keep hcall =>
      obtain ⟨hup', hne, -⟩ := call_true hcall
      exact absurd (Prod.mk.inj (Except.ok.inj (hup'.symm.trans hup))).1 hne
    | rebuild _ _ hcall _ =>
      obtain ⟨-, -, -, -, hinstall, -⟩ := call_false hcall
      exact hinstall

/-- Should the device at `host` still run, it is a copy of the tracker. -/
def Current (S : TrackerSetup K E) (s : Fleet A K E) (host : A) : Prop :=
  ∀ d, s.devices host = some d → Twin S.hash (install s.dassTracker.vo_control) d

omit [DecidableEq K] [Inhabited K] [DecidableEq A] in
theorem Current.query (h : Current S s host) {d : Verifier E} (hd : s.devices host = some d)
    (k : K) : DASSVerifier.query S d k = CRIoTControl.query S s.dassTracker k :=
  ((h d hd).query k).trans (query_install _ k)

theorem command_current {u : Update K E} {sockets : List (A × List (List UInt8))}
    (honce : s.connectedDevices.count host = 1)
    (hsockets : Sockets W X s u sockets) (hfit : Fitting S W X u)
    (hcopy : receive S (install s.dassTracker.vo_control) u = some (install c.vo_control))
    (h : Current S s host) : Current S
        { s with dassTracker := c, devices := sockets.foldl (read S W X) s.devices } host ∧
      ((s.devices host).isSome → (sockets.foldl (read S W X) s.devices host).isSome) := by
  obtain ⟨p, hpay, hread⟩ := hsockets.exactly
  rw [← hsockets.hosts] at honce
  obtain ⟨socket, hmem, hone⟩ := read_once (S := S) (W := W) (X := X) s.devices honce
  cases hd : s.devices host with
  | none =>
    rw [hd] at hone
    refine ⟨fun d' hd' => ?_, fun hsome => by cases hsome⟩
    cases hone.symm.trans hd'
  | some d =>
    have hstep := listenForUpdates_twin (h d hd) hfit hpay (hread socket hmem)
    rw [hd, Option.bind_some] at hone
    rw [hcopy] at hstep
    generalize listenForUpdates S W X d socket.2 = v at *
    cases hstep with
    | some hnext =>
      refine ⟨fun d' hd' => ?_, fun _ => by rw [hone]; rfl⟩
      obtain rfl := Option.some.inj (hone.symm.trans hd')
      exact hnext.2

omit [DecidableEq A] [DecidableEq K] [Inhabited K] in
theorem full_twin {vo_data : Verifier E} {p : List UInt8} {buffers : List (List UInt8)}
    (d : Verifier E) (hfit : Fitting S W X (.full vo_data))
    (hpay : payload W X (.full vo_data : Update K E) = some p) (hread : ReadExactly p buffers) :
    ∃ d', (listenForUpdates S W X d buffers).map Prod.snd = some d' ∧ Twin S.hash vo_data d' := by
  obtain ⟨hin, hlen, hsound⟩ := hfit
  obtain rfl := Option.some.inj hpay
  have hdecode : handleMessage W (dassVerifier S X) d
      ([70] ++ (encode_full X vo_data).flatten ++ finish) = some (received d vo_data) :=
    decode_fullMessage hin hlen
  refine ⟨received d vo_data, ?_, received_twin hsound⟩
  rw [listenForUpdates, readMessage_exactly hread]
  simp only [Option.bind_eq_bind, Option.bind_some, hdecode]
  rfl

theorem full_current {vo_data : Verifier E} {sockets : List (A × List (List UInt8))}
    (honce : s.connectedDevices.count host = 1)
    (hsockets : Sockets W X s (.full vo_data) sockets) (hfit : Fitting S W X (.full vo_data))
    (hcopy : vo_data = install c.vo_control) : Current S
      { s with dassTracker := c, devices := sockets.foldl (read S W X) s.devices } host := by
  obtain ⟨p, hpay, hread⟩ := hsockets.exactly
  rw [← hsockets.hosts] at honce
  obtain ⟨socket, hmem, hone⟩ := read_once (S := S) (W := W) (X := X) s.devices honce
  intro d' hd'
  obtain ⟨d, hd, hmap⟩ := Option.bind_eq_some_iff.mp (hone.symm.trans hd')
  obtain ⟨d'', hlisten, htwin⟩ := full_twin d hfit hpay (hread socket hmem)
  obtain rfl := Option.some.inj (hlisten.symm.trans hmap)
  exact hcopy ▸ htwin

theorem stays_current {l : List (Event A K E)} {L : List (Record K E)}
    (h : Runs (Step S W X) s l s') (hsession : Session S c₀ (L ++ records l) s'.dassTracker reg)
    (hfit : ∀ r ∈ records l, Fitting S W X r.update)
    (hkeep : ∀ r ∈ records l, LosesNoRebuild S r) (hlisted : s.connectedDevices.count host = 1)
    (honce : host ∉ hosts l) (hcurrent : Current S s host) :
    Current S s' host ∧ ((s.devices host).isSome → (s'.devices host).isSome) := by
  induction h using Runs.snoc_induction generalizing reg with
  | nil => exact ⟨hcurrent, id⟩
  | snoc l s₁ e s' hl hstep ih =>
    cases hstep with
    | join other d hread =>
      rw [records_joined] at hsession hfit hkeep
      rw [hosts_joined, List.mem_append, List.mem_singleton, not_or] at honce
      obtain ⟨hcur, halive⟩ := ih hsession hfit hkeep honce.1
      rw [← welcome_of_ne (X := X) (s := s₁) (d := d) honce.2] at halive
      refine ⟨fun d' hd' => hcur d' ?_, halive⟩
      exact (welcome_of_ne honce.2).symm.trans hd'
    | command hserved hsockets =>
      rename_i cmd u c sockets
      rw [records_served] at hsession hfit hkeep
      rw [← List.append_assoc] at hsession
      rw [hosts_served] at honce
      rw [List.forall_mem_append, List.forall_mem_singleton] at hfit hkeep
      obtain ⟨-, reg₁, hbefore⟩ := Session.before hsession
      obtain ⟨hcur, halive⟩ := ih hbefore hfit.1 hkeep.1 honce
      have hcount : s₁.connectedDevices.count host = 1 := by
        rw [connected hl, List.count_append, hlisted, List.count_eq_zero.mpr honce]
      have hcopy : receive S (install s₁.dassTracker.vo_control) u =
          some (install c.vo_control) := by
        obtain ⟨events, hrun⟩ := hbefore.run
        have hinv := hrun.reached.consistent.1.othello
        obtain ⟨x, hx⟩ := Session.call_of_last hsession
        exact (Served.copies hx hserved hkeep.2 hinv).1
      obtain ⟨hcur', halive'⟩ := command_current hcount hsockets hfit.2 hcopy hcur
      exact ⟨hcur', fun hsome => halive' (halive hsome)⟩

theorem Served.full_copy {cmd : Command K} {x : Call K} {vo_data : Verifier E}
    (hx : cmd.call = some x) (h : Served S c cmd (.full vo_data) c') :
    vo_data = install c'.vo_control := by
  obtain ⟨status, hcall, hu⟩ := h.called hx
  cases hcall with
  | keep hcall => cases cmd <;> cases hu
  | rebuild _ _ hcall _ =>
    obtain ⟨-, -, -, -, hinstall, -⟩ := call_false hcall
    cases cmd with
    | rem => cases hx
    | rev => cases hu
    | add | unr =>
      obtain rfl : vo_data = c'.vo_data := Update.full.inj hu
      exact hinstall

/-- The device answers every key as the server does, and so each registered key with the value it
was given last. -/
structure Answers (S : TrackerSetup K E) (c : ControlVO K E) (reg : K → Option Bool)
    (d : Verifier E) : Prop where
  server : ∀ k, DASSVerifier.query S d k = CRIoTControl.query S c k
  registered : ∀ k b, reg k = some b → DASSVerifier.query S d k = Bool.toNat b

omit [DecidableEq A] in
theorem Current.answers (h : Current S s host) (hsession : Session S c₀ l s.dassTracker reg)
    {d : Verifier E} (hd : s.devices host = some d) : Answers S s.dassTracker reg d := by
  obtain ⟨events, hrun⟩ := hsession.run
  refine ⟨h.query hd, fun k b hk => ?_⟩
  rw [h.query hd]
  exact (hrun.answers k).2 b hk

theorem joined_copy {s₂ : Fleet A K E}
    (h : Runs (Step S W X) (noDevices c₀) (l₁ ++ [.joined host]) s₂)
    (hsession : Session S c₀ (records l₁) s₂.dassTracker reg) (hsend : Sendable X c₀ (records l₁))
    (hfresh : Fresh S (records l₁)) : ∃ d, s₂.devices host = some d ∧
      Twin S.hash (install s₂.dassTracker.vo_control) d := by
  obtain ⟨s₁, hl₁, hjoin⟩ := runs_snoc_iff.mp h
  have hsnap : Fitting S W X (.full s₂.dassTracker.vo_data) := (Session.fitting hsession hsend).1
  have hcopy := Session.fresh hsession hfresh
  cases hjoin with
  | join host d hread =>
    obtain ⟨d', hd', htwin⟩ := readFullSummary_twin d hsnap hread
    refine ⟨d', welcome_self.trans hd', ?_⟩
    exact hcopy ▸ htwin

theorem joined_current (h : Runs (Step S W X) (noDevices c₀) (l₁ ++ .joined host :: l₂) s)
    (hsession : Session S c₀ (records (l₁ ++ .joined host :: l₂)) s.dassTracker reg)
    (hsend : Sendable X c₀ (records (l₁ ++ .joined host :: l₂)))
    (honce : (hosts (l₁ ++ .joined host :: l₂)).count host = 1) (hfresh : Fresh S (records l₁))
    (hkeep : ∀ r ∈ records l₂, LosesNoRebuild S r) :
    Current S s host ∧ (s.devices host).isSome := by
  have hsplit : l₁ ++ .joined host :: l₂ = (l₁ ++ [.joined host]) ++ l₂ := by simp
  rw [hsplit] at h hsession hsend honce
  rw [records_append, records_joined] at hsession hsend
  rw [hosts_append, hosts_joined, List.count_append, List.count_append,
    List.count_singleton_self] at honce
  have hbefore : host ∉ hosts l₁ := List.count_eq_zero.mp (by omega)
  have hafter : host ∉ hosts l₂ := List.count_eq_zero.mp (by omega)
  obtain ⟨s₂, hfirst, hrest⟩ := runs_append_iff.mp h
  obtain ⟨-, hfits⟩ := Session.fitting (W := W) hsession hsend
  obtain ⟨reg₁, hstart⟩ := session_before hrest hsession
  have hconnected := connected hfirst
  have hlisted : s₂.connectedDevices.count host = 1 := by
    rw [hconnected, hosts_joined, noDevices, List.nil_append, List.count_append,
      List.count_eq_zero.mpr hbefore, List.count_singleton_self]
  obtain ⟨d, hd, htwin⟩ := joined_copy hfirst hstart hsend.front hfresh
  have hcurrent : Current S s₂ host := by
    intro d' hd'
    obtain rfl := Option.some.inj (hd.symm.trans hd')
    exact htwin
  obtain ⟨hcur, halive⟩ := stays_current hrest hsession
    (fun r hr => hfits r (List.mem_append_right _ hr)) hkeep hlisted hafter hcurrent
  exact ⟨hcur, halive (by rw [hd]; rfl)⟩

/-- A device that joins a server with a fresh snapshot, once, answers as the server does as long as
no revocation is lost. -/
theorem joined_agrees (h : Runs (Step S W X) (noDevices c₀) (l₁ ++ .joined host :: l₂) s)
    (hsession : Session S c₀ (records (l₁ ++ .joined host :: l₂)) s.dassTracker reg)
    (hsend : Sendable X c₀ (records (l₁ ++ .joined host :: l₂)))
    (honce : (hosts (l₁ ++ .joined host :: l₂)).count host = 1) (hfresh : Fresh S (records l₁))
    (hkeep : ∀ r ∈ records l₂, LosesNoRebuild S r) :
    ∃ d, s.devices host = some d ∧ Answers S s.dassTracker reg d := by
  obtain ⟨hcurrent, halive⟩ := joined_current h hsession hsend honce hfresh hkeep
  obtain ⟨d, hd⟩ := Option.isSome_iff_exists.mp halive
  exact ⟨d, hd, hcurrent.answers hsession hd⟩

/-- Whatever came before, after a full update a device that still runs and is listed once answers
as the server does, as long as no revocation is lost. -/
theorem full_update_agrees {r : Record K E}
    (h : Runs (Step S W X) (noDevices c₀) (l₁ ++ .served r :: l₂) s)
    (hsession : Session S c₀ (records (l₁ ++ .served r :: l₂)) s.dassTracker reg)
    (hsend : Sendable X c₀ (records (l₁ ++ .served r :: l₂)))
    (hfull : ∃ vo_data, r.update = .full vo_data)
    (honce : (hosts (l₁ ++ .served r :: l₂)).count host = 1) (hjoined : host ∈ hosts l₁)
    (hkeep : ∀ r ∈ records l₂, LosesNoRebuild S r) {d : Verifier E}
    (hd : s.devices host = some d) : Answers S s.dassTracker reg d := by
  have hsplit : l₁ ++ .served r :: l₂ = (l₁ ++ [.served r]) ++ l₂ := by simp
  rw [hsplit] at h hsession hsend honce
  rw [records_append, records_served] at hsession hsend
  rw [hosts_append, hosts_served, List.count_append] at honce
  have hpos := List.count_pos_iff.mpr hjoined
  have hafter : host ∉ hosts l₂ := List.count_eq_zero.mp (by omega)
  obtain ⟨s₂, hfirst, hrest⟩ := runs_append_iff.mp h
  obtain ⟨s₁, hl₁, hcommand⟩ := runs_snoc_iff.mp hfirst
  obtain ⟨-, hfits⟩ := Session.fitting (W := W) hsession hsend
  obtain ⟨reg₂, hstart⟩ := session_before hrest hsession
  have hlisted : ∀ s : Fleet A K E, s.connectedDevices = (noDevices c₀).connectedDevices ++
      hosts l₁ → s.connectedDevices.count host = 1 := by
    intro s hs
    rw [hs, noDevices, List.nil_append]
    omega
  have hcurrent : Current S s₂ host := by
    obtain ⟨vo_data, hu⟩ := hfull
    cases hcommand with
    | command hserved hsockets =>
      obtain rfl : _ = Update.full vo_data := hu
      obtain ⟨x, hx⟩ := Session.call_of_last hstart
      have hfit := hfits _ (List.mem_append_left _ (List.mem_append_right _
        (List.mem_singleton_self _)))
      exact full_current (hlisted _ (connected hl₁)) hsockets hfit (Served.full_copy hx hserved)
  have hcount := hlisted s₂ (by rw [connected hfirst, hosts_served])
  obtain ⟨hcur, -⟩ := stays_current hrest hsession
    (fun r hr => hfits r (List.mem_append_right _ hr)) hkeep hcount hafter hcurrent
  exact hcur.answers hsession hd

theorem additions_keep {r₁ r₂ : Record (BitVec 64) ℕ} (h₁ : r₁.command = .add (18, 0))
    (h₂ : r₂.command = .add (20, 1)) : ∀ r ∈ [r₁, r₂], LosesNoRebuild serverTracker r := by
  intro r hr key hrev
  rcases List.mem_pair.mp hr with rfl | rfl
  · cases h₁.symm.trans hrev
  · cases h₂.symm.trans hrev

theorem joined_agrees_one : ∃ (c₀ : ControlVO (BitVec 64) ℕ) (r₁ r₂ : Record (BitVec 64) ℕ)
    (s : Fleet ℕ (BitVec 64) ℕ) (d : Verifier ℕ),
    Runs (Step serverTracker serverTypes unaryText) (noDevices c₀)
      [.joined 7, .served r₁, .served r₂] s ∧ s.devices 7 = some d ∧
    (∀ k, DASSVerifier.query serverTracker d k =
      CRIoTControl.query serverTracker s.dassTracker k) ∧
    DASSVerifier.query serverTracker d 18 = 0 ∧ DASSVerifier.query serverTracker d 20 = 1 := by
  obtain ⟨c₀, r₁, r₂, s, reg, hrun, hsession, hsend, h₁, h₂, -, -, h18, h20⟩ := fleetRun_run
  have hfirst : Runs (Step serverTracker serverTypes unaryText) (noDevices c₀)
      ([] ++ .joined 7 :: [.served r₁, .served r₂]) s := hrun
  obtain ⟨d, hd, hanswers⟩ := joined_agrees hfirst hsession hsend rfl (fun r hr => by cases hr)
    (additions_keep h₁ h₂)
  exact ⟨c₀, r₁, r₂, s, d, hrun, hd, hanswers.server, hanswers.registered _ _ h18,
    hanswers.registered _ _ h20⟩

theorem full_update_agrees_one : ∃ (c₀ : ControlVO (BitVec 64) ℕ)
    (r₁ r₂ : Record (BitVec 64) ℕ) (s : Fleet ℕ (BitVec 64) ℕ) (d : Verifier ℕ),
    Runs (Step serverTracker serverTypes unaryText) (noDevices c₀)
      [.joined 7, .served r₁, .served r₂] s ∧ (∃ vo_data, r₂.update = .full vo_data) ∧
    s.devices 7 = some d ∧ DASSVerifier.query serverTracker d 18 = 0 ∧
      DASSVerifier.query serverTracker d 20 = 1 := by
  obtain ⟨c₀, r₁, r₂, s, reg, hrun, hsession, hsend, h₁, h₂, -, hfull, h18, h20⟩ := fleetRun_run
  have hfirst : Runs (Step serverTracker serverTypes unaryText) (noDevices c₀)
      ([] ++ .joined 7 :: [.served r₁, .served r₂]) s := hrun
  have hlast : Runs (Step serverTracker serverTypes unaryText) (noDevices c₀)
      ([.joined 7, .served r₁] ++ .served r₂ :: []) s := hrun
  obtain ⟨-, halive⟩ := joined_current hfirst hsession hsend rfl (fun r hr => by cases hr)
    (additions_keep h₁ h₂)
  obtain ⟨d, hd⟩ := Option.isSome_iff_exists.mp halive
  have hanswers := full_update_agrees hlast hsession hsend hfull rfl (List.mem_singleton_self 7)
    (fun r hr => by cases hr) hd
  exact ⟨c₀, r₁, r₂, s, d, hrun, hfull, hd, hanswers.registered _ _ h18,
    hanswers.registered _ _ h20⟩

end FleetAgreement
