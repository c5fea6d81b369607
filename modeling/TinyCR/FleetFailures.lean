import TinyCR.FleetAgreement

/-! # Devices that fail

A summary that does not reach a device ends the server. A full update stops at the first device it
does not reach, and those behind it in `connectedDevices` keep what they have. A device whose
process ends while it reads is not noticed: the server takes the empty reply. -/
namespace FleetFailures

open OthelloInvariant VacuumFilter DASSTracker TrackerInvariant TrackerRun DASSVerifier
  CRIoTControl SummaryWire FullWire FullUpdates TinyCRServer DeviceAgreement ConnectedDevices
  MessageFraming UpdateMessages LabelledRuns FleetMessages FleetAgreement

open CertificateKeys (serverTracker)

variable {A K E : Type}

/-- `welcomed`: the joining device has got all of its full update. `sent`: the hosts up to the one
where an exception stopped the sending. -/
inductive Event (A K E : Type)
  | joined (host : A) (welcomed : Bool)
  | died (host : A)
  | served (r : Record K E) (sent : List A)

def hosts (l : List (Event A K E)) : List A :=
  l.filterMap fun
    | .joined host _ => some host
    | .died _ => none
    | .served .. => none

def records (l : List (Event A K E)) : List (Record K E) :=
  l.filterMap fun
    | .joined .. => none
    | .died _ => none
    | .served r _ => some r

@[simp] theorem records_joined (l : List (Event A K E)) (host : A) (welcomed : Bool) :
    records (l ++ [.joined host welcomed]) = records l :=
  (List.filterMap_append ..).trans (List.append_nil _)

@[simp] theorem records_died (l : List (Event A K E)) (host : A) :
    records (l ++ [.died host]) = records l :=
  (List.filterMap_append ..).trans (List.append_nil _)

@[simp] theorem records_served (l : List (Event A K E)) (r : Record K E) (sent : List A) :
    records (l ++ [.served r sent]) = records l ++ [r] :=
  List.filterMap_append ..

@[simp] theorem hosts_joined (l : List (Event A K E)) (host : A) (welcomed : Bool) :
    hosts (l ++ [.joined host welcomed]) = hosts l ++ [host] :=
  List.filterMap_append ..

@[simp] theorem hosts_died (l : List (Event A K E)) (host : A) :
    hosts (l ++ [.died host]) = hosts l :=
  (List.filterMap_append ..).trans (List.append_nil _)

@[simp] theorem hosts_served (l : List (Event A K E)) (r : Record K E) (sent : List A) :
    hosts (l ++ [.served r sent]) = hosts l :=
  (List.filterMap_append ..).trans (List.append_nil _)

variable [DecidableEq A] [DecidableEq K] [Inhabited K]

/-- The exchanges with these hosts throw nothing: each has a process to connect to, which reads the
message to its end or ends without a reply. -/
structure Exchanged (W : WireTypes K) (X : EngineText E) (s : Fleet A K E) (u : Update K E)
    (sent : List A) (sockets : List (A × List (List UInt8))) : Prop where
  hosts : sockets.map Prod.fst = sent
  alive : ∀ host ∈ sent, (s.devices host).isSome
  exactly : ∃ p, payload W X u = some p ∧
    ∀ socket ∈ sockets, ReadExactly p socket.2 ∨ socket.2 = []

/-- A device that an exception has cut off may have taken all, some or nothing of the message. -/
inductive Step (S : TrackerSetup K E) (W : WireTypes K) (X : EngineText E) :
    Fleet A K E → Event A K E → Fleet A K E → Prop
  | join {s : Fleet A K E} (host : A) (d : Verifier E) {buffers : List (List UInt8)} :
      ReadExactly ([70] ++ (encode_full X s.dassTracker.vo_data).flatten) buffers →
      Step S W X s (.joined host true) (welcome X s host d buffers)
  | join_cut_off {s : Fleet A K E} (host : A) (left : Option (Verifier E)) :
      Step S W X s (.joined host false)
        { s with
          connectedDevices := s.connectedDevices ++ [host]
          devices := Function.update s.devices host left }
  | die {s : Fleet A K E} (host : A) :
      Step S W X s (.died host) { s with devices := Function.update s.devices host none }
  | command {s : Fleet A K E} {cmd : Command K} {u : Update K E} {c : ControlVO K E}
      {sockets : List (A × List (List UInt8))} : Served S s.dassTracker cmd u c →
      Exchanged W X s u s.connectedDevices sockets →
      Step S W X s (.served ⟨s.dassTracker, cmd, u, c⟩ s.connectedDevices)
        { s with dassTracker := c, devices := sockets.foldl (read S W X) s.devices }
  | full_cut_off {s : Fleet A K E} {cmd : Command K} {vo_data : Verifier E} {c : ControlVO K E}
      {sockets : List (A × List (List UInt8))} {sent missed : List A} {host : A}
      {left : Option (Verifier E)} : Served S s.dassTracker cmd (.full vo_data) c →
      s.connectedDevices = sent ++ host :: missed →
      Exchanged W X s (.full vo_data) sent sockets →
      (left.isSome → (s.devices host).isSome) →
      Step S W X s (.served ⟨s.dassTracker, cmd, .full vo_data, c⟩ sent)
        { s with
          dassTracker := c
          devices := Function.update (sockets.foldl (read S W X) s.devices) host left }

/-- What the device at `host` was last sent brings it up to date. -/
inductive UpToDate (S : TrackerSetup K E) (host : A) : List (Event A K E) → Prop
  | welcomed {l} : Fresh S (records l) → UpToDate S host (l ++ [.joined host true])
  | full {l vo_data} {r : Record K E} {sent : List A} : r.update = .full vo_data → host ∈ sent →
      UpToDate S host (l ++ [.served r sent])
  | summary {l} {r : Record K E} {sent : List A} : UpToDate S host l → IsSummary r.update →
      LosesNoRebuild S r → UpToDate S host (l ++ [.served r sent])
  | joined {l other welcomed} : UpToDate S host l → other ≠ host →
      UpToDate S host (l ++ [.joined other welcomed])
  | died {l other} : UpToDate S host l → UpToDate S host (l ++ [.died other])

variable {S : TrackerSetup K E} {W : WireTypes K} {X : EngineText E} {c₀ c : ControlVO K E}
  {reg : K → Option Bool} {s s' : Fleet A K E} {l : List (Event A K E)} {host : A}
  {u : Update K E} {sent : List A} {sockets : List (A × List (List UInt8))}

theorem Exchanged.once (h : Exchanged W X s u sent sockets) (honce : sent.count host = 1) :
    ∃ p buffers, payload W X u = some p ∧ (ReadExactly p buffers ∨ buffers = []) ∧
      sockets.foldl (read S W X) s.devices host =
        (s.devices host).bind fun d => (listenForUpdates S W X d buffers).map Prod.snd := by
  obtain ⟨p, hpay, hread⟩ := h.exactly
  rw [← h.hosts] at honce
  obtain ⟨socket, hmem, hone⟩ := read_once (S := S) (W := W) (X := X) s.devices honce
  exact ⟨p, socket.2, hpay, hread socket hmem, hone⟩

theorem Exchanged.summary_current (h : Exchanged W X s u sent sockets)
    (honce : sent.count host = 1) (hfit : Fitting S W X u)
    (hcopy : receive S (install s.dassTracker.vo_control) u = some (install c.vo_control))
    (hcurrent : Current S s host) :
    Current S { s with dassTracker := c, devices := sockets.foldl (read S W X) s.devices }
      host := by
  obtain ⟨p, buffers, hpay, hread, hone⟩ := h.once (S := S) honce
  intro d' hd'
  obtain ⟨d, hd, hmap⟩ := Option.bind_eq_some_iff.mp (hone.symm.trans hd')
  obtain ⟨⟨reply, d''⟩, hlisten, rfl⟩ := Option.map_eq_some_iff.mp hmap
  rcases hread with hread | rfl
  · have hstep := listenForUpdates_twin (hcurrent d hd) hfit hpay hread
    rw [hcopy, hlisten] at hstep
    cases hstep with
    | some hnext => exact hnext.2
  · cases hlisten

theorem Exchanged.full_current {vo_data : Verifier E}
    (h : Exchanged W X s (.full vo_data) sent sockets) (honce : sent.count host = 1)
    (hfit : Fitting S W X (.full vo_data)) {d' : Verifier E}
    (hd' : sockets.foldl (read S W X) s.devices host = some d') : Twin S.hash vo_data d' := by
  obtain ⟨p, buffers, hpay, hread, hone⟩ := h.once (S := S) honce
  obtain ⟨d, hd, hmap⟩ := Option.bind_eq_some_iff.mp (hone.symm.trans hd')
  rcases hread with hread | rfl
  · obtain ⟨d'', hlisten, htwin⟩ := full_twin d hfit hpay hread
    obtain rfl := Option.some.inj (hlisten.symm.trans hmap)
    exact htwin
  · cases hmap

theorem connected (h : Runs (Step S W X) (noDevices c₀) l s) : s.connectedDevices = hosts l := by
  induction h using Runs.snoc_induction with
  | nil => rfl
  | snoc l s₁ e s' _ hstep ih =>
    cases hstep with
    | join other d hread =>
      rw [hosts_joined, ← ih]
      rfl
    | join_cut_off other left => rw [hosts_joined, ← ih]
    | die other =>
      rw [hosts_died]
      exact ih
    | command hserved hexchanged =>
      rw [hosts_served]
      exact ih
    | full_cut_off hserved hlisted hexchanged hleft =>
      rw [hosts_served]
      exact ih

omit [DecidableEq A] in
theorem UpToDate.snoc_iff {e : Event A K E} : UpToDate S host (l ++ [e]) ↔
    match e with
    | .joined other complete =>
      (other = host ∧ complete = true ∧ Fresh S (records l)) ∨ (other ≠ host ∧ UpToDate S host l)
    | .died _ => UpToDate S host l
    | .served r sent =>
      (∃ vo_data, r.update = .full vo_data ∧ host ∈ sent) ∨
        (IsSummary r.update ∧ LosesNoRebuild S r ∧ UpToDate S host l) := by
  constructor
  · intro h
    generalize hl : l ++ [e] = l' at h
    cases h with
    | welcomed hfresh =>
      obtain ⟨rfl, heq⟩ := List.append_inj' hl rfl
      obtain rfl := List.singleton_inj.mp heq
      exact .inl ⟨rfl, rfl, hfresh⟩
    | full hfull hmem =>
      obtain ⟨rfl, heq⟩ := List.append_inj' hl rfl
      obtain rfl := List.singleton_inj.mp heq
      exact .inl ⟨_, hfull, hmem⟩
    | summary h hsummary hkeep =>
      obtain ⟨rfl, heq⟩ := List.append_inj' hl rfl
      obtain rfl := List.singleton_inj.mp heq
      exact .inr ⟨hsummary, hkeep, h⟩
    | joined h hne =>
      obtain ⟨rfl, heq⟩ := List.append_inj' hl rfl
      obtain rfl := List.singleton_inj.mp heq
      exact .inr ⟨hne, h⟩
    | died h =>
      obtain ⟨rfl, heq⟩ := List.append_inj' hl rfl
      obtain rfl := List.singleton_inj.mp heq
      exact h
  · intro h
    cases e with
    | joined other complete =>
      rcases h with ⟨rfl, rfl, hfresh⟩ | ⟨hne, h⟩
      · exact .welcomed hfresh
      · exact .joined h hne
    | died other => exact .died h
    | served r sent =>
      rcases h with ⟨vo_data, hfull, hmem⟩ | ⟨hsummary, hkeep, h⟩
      · exact .full hfull hmem
      · exact .summary h hsummary hkeep

theorem UpToDate.current (h : Runs (Step S W X) (noDevices c₀) l s)
    (hsession : Session S c₀ (records l) s.dassTracker reg) (hsend : Sendable X c₀ (records l))
    (honce : (hosts l).count host = 1) (hupdated : UpToDate S host l) : Current S s host := by
  induction h using Runs.snoc_induction generalizing reg with
  | nil => cases honce
  | snoc l s₁ e s' hl hstep ih =>
    have hconnected := connected hl
    rw [UpToDate.snoc_iff] at hupdated
    obtain ⟨hsnap, hfits⟩ := Session.fitting (W := W) hsession hsend
    cases hstep with
    | join other d hread =>
      rw [records_joined] at hsession hsend
      rw [hosts_joined, List.count_append] at honce
      rcases hupdated with ⟨rfl, -, hfresh⟩ | ⟨hne, hupdated⟩
      · have hcopy := Session.fresh hsession hfresh
        obtain ⟨d', hd', htwin⟩ := readFullSummary_twin d hsnap hread
        intro d'' hd''
        obtain rfl := Option.some.inj (hd'.symm.trans (welcome_self.symm.trans hd''))
        exact hcopy ▸ htwin
      · rw [List.count_singleton, beq_eq_false_iff_ne.mpr hne] at honce
        intro d' hd'
        exact ih hsession hsend honce hupdated d' ((welcome_of_ne hne.symm).symm.trans hd')
    | join_cut_off other left =>
      rw [records_joined] at hsession hsend
      rw [hosts_joined, List.count_append] at honce
      rcases hupdated with ⟨-, hfalse, -⟩ | ⟨hne, hupdated⟩
      · cases hfalse
      · rw [List.count_singleton, beq_eq_false_iff_ne.mpr hne] at honce
        intro d' hd'
        exact ih hsession hsend honce hupdated d'
          ((Function.update_of_ne hne.symm ..).symm.trans hd')
    | die other =>
      rw [records_died] at hsession hsend
      rw [hosts_died] at honce
      intro d' hd'
      by_cases heq : host = other
      · subst heq
        cases (Function.update_self ..).symm.trans hd'
      · exact ih hsession hsend honce hupdated d' ((Function.update_of_ne heq ..).symm.trans hd')
    | command hserved hexchanged =>
      rename_i cmd u c sockets
      rw [records_served] at hsession hsend hfits
      rw [hosts_served] at honce
      have hfit : Fitting S W X u :=
        hfits _ (List.mem_append_right _ (List.mem_singleton_self _))
      obtain ⟨x, hx⟩ := Session.call_of_last hsession
      rcases hupdated with ⟨vo_data, hfull, -⟩ | ⟨-, hkeep, hupdated⟩
      · obtain rfl : u = .full vo_data := hfull
        intro d' hd'
        exact Served.full_copy hx hserved ▸
          hexchanged.full_current (hconnected ▸ honce) hfit hd'
      · obtain ⟨-, reg₁, hbefore⟩ := Session.before hsession
        obtain ⟨events, hrun⟩ := hbefore.run
        have hcopy := (Served.copies hx hserved hkeep hrun.reached.consistent.1.othello).1
        exact hexchanged.summary_current (hconnected ▸ honce) hfit hcopy
          (ih hbefore hsend.front honce hupdated)
    | full_cut_off hserved hlisted hexchanged hleft =>
      rename_i cmd vo_data c sockets sent missed other left
      rw [records_served] at hsession hfits
      rw [hosts_served, ← hconnected, hlisted, List.count_append] at honce
      obtain ⟨x, hx⟩ := Session.call_of_last hsession
      rcases hupdated with ⟨vo_data', hfull, hmem⟩ | ⟨hsummary, -, -⟩
      · have hpos := List.count_pos_iff.mpr hmem
        have hne : host ≠ other := by
          rintro rfl
          rw [List.count_cons_self] at honce
          omega
        intro d' hd'
        have hd' := (Function.update_of_ne hne ..).symm.trans hd'
        exact Served.full_copy hx hserved ▸
          hexchanged.full_current (by omega)
            (hfits _ (List.mem_append_right _ (List.mem_singleton_self _))) hd'
      · obtain ⟨flipped_indexes, kvs, actions, hu⟩ := hsummary
        cases hu

/-- Whatever devices have failed, one that is up to date by what it was sent answers as the server
does, and every registered key with its value. -/
theorem up_to_date_agrees (h : Runs (Step S W X) (noDevices c₀) l s)
    (hsession : Session S c₀ (records l) s.dassTracker reg) (hsend : Sendable X c₀ (records l))
    (honce : (hosts l).count host = 1) (hupdated : UpToDate S host l) {d : Verifier E}
    (hd : s.devices host = some d) : Answers S s.dassTracker reg d :=
  (hupdated.current h hsession hsend honce).answers hsession hd

omit [DecidableEq A] in
theorem stopped_before {l₁ l₂ pre post : List A} {f g : A} (h : l₁ ++ g :: l₂ = pre ++ f :: post)
    (hf : f ∉ l₁) : (∀ a ∈ l₁, a ∈ pre) ∧ (g = f ∨ g ∈ pre) := by
  rcases List.append_eq_append_iff.mp h with ⟨mid, hpre, hrest⟩ | ⟨mid, hfront, hrest⟩
  · refine ⟨fun a ha => hpre ▸ List.mem_append_left mid ha, ?_⟩
    cases mid with
    | nil => exact .inl (List.cons.inj hrest).1
    | cons b mid =>
      obtain rfl := (List.cons.inj hrest).1
      exact .inr (hpre ▸ List.mem_append_right _ List.mem_cons_self)
  · cases mid with
    | nil =>
      rw [List.append_nil] at hfront
      exact ⟨fun a ha => hfront ▸ ha, .inl (List.cons.inj hrest).1.symm⟩
    | cons b mid =>
      obtain rfl := (List.cons.inj hrest).1
      exact absurd (hfront ▸ List.mem_append_right _ List.mem_cons_self) hf

theorem dead_step {e : Event A K E} {pre post : List A} {f : A} (h : Step S W X s e s')
    (hlisted : s.connectedDevices = pre ++ f :: post) (hdead : s.devices f = none)
    (haway : ∀ complete, e ≠ .joined f complete) : s'.devices f = none ∧
      (∃ post', s'.connectedDevices = pre ++ f :: post') ∧
      (∀ r sent, e = .served r sent →
        (∃ vo_data, r.update = .full vo_data) ∧ ∀ host ∈ sent, host ∈ pre) ∧
      ∀ host, host ∉ pre → host ≠ f → (∀ complete, e ≠ .joined host complete) →
        e ≠ .died host → s'.devices host = s.devices host := by
  have hmem : f ∈ s.connectedDevices := hlisted ▸ List.mem_append_right _ List.mem_cons_self
  cases h with
  | join other d hread =>
    have hne : f ≠ other := fun heq => haway true (heq ▸ rfl)
    refine ⟨(welcome_of_ne hne).trans hdead, ⟨post ++ [other], ?_⟩, fun r sent he => (by cases he),
      fun host _ _ hjoined _ => welcome_of_ne fun heq => hjoined true (heq ▸ rfl)⟩
    rw [welcome, hlisted, List.append_assoc]
    rfl
  | join_cut_off other left =>
    have hne : f ≠ other := fun heq => haway false (heq ▸ rfl)
    refine ⟨(Function.update_of_ne hne ..).trans hdead, ⟨post ++ [other], ?_⟩,
      fun r sent he => (by cases he), fun host _ _ hjoined _ => ?_⟩
    · dsimp only
      rw [hlisted, List.append_assoc]
      rfl
    · have hneq : host ≠ other := fun heq => hjoined false (by rw [heq])
      exact Function.update_of_ne hneq ..
  | die other =>
    refine ⟨?_, ⟨post, hlisted⟩, fun r sent he => (by cases he), fun host _ _ _ hdied => ?_⟩
    · by_cases heq : f = other
      · subst heq
        exact Function.update_self ..
      · exact (Function.update_of_ne heq ..).trans hdead
    · have hneq : host ≠ other := fun heq => hdied (by rw [heq])
      exact Function.update_of_ne hneq ..
  | command hserved hexchanged =>
    have halive := hexchanged.alive f hmem
    rw [hdead] at halive
    cases halive
  | full_cut_off hserved hsplit hexchanged hleft =>
    rename_i cmd vo_data c sockets sent missed other left
    have hnot : f ∉ sent := by
      intro hf
      have halive := hexchanged.alive f hf
      rw [hdead] at halive
      cases halive
    have hkept : ∀ host, host ∉ sent →
        sockets.foldl (read S W X) s.devices host = s.devices host := fun host hhost =>
      read_of_not_mem (hexchanged.hosts ▸ hhost)
    obtain ⟨hpre, hother⟩ := stopped_before (hsplit.symm.trans hlisted) hnot
    refine ⟨?_, ⟨post, hlisted⟩, fun r sent' he => ?_, fun host hhost hne _ _ => ?_⟩
    · by_cases heq : f = other
      · subst heq
        refine (Function.update_self ..).trans (Option.not_isSome_iff_eq_none.mp fun hsome => ?_)
        have halive := hleft hsome
        rw [hdead] at halive
        cases halive
      · exact (Function.update_of_ne heq ..).trans ((hkept f hnot).trans hdead)
    · obtain ⟨rfl, rfl⟩ := Event.served.inj he
      exact ⟨⟨vo_data, rfl⟩, hpre⟩
    · have hneq : host ≠ other := by
        rintro rfl
        rcases hother with heq | hin
        · exact hne heq
        · exact hhost hin
      exact (Function.update_of_ne hneq ..).trans (hkept host fun hin => hhost (hpre host hin))

/-- As long as a listed device is dead and does not come back, a server that goes on has sent no
summary, its full updates have got to the devices before it at most, and every device behind it
keeps what it had. -/
theorem dead_device_starves {pre post : List A} {f : A} (h : Runs (Step S W X) s l s')
    (hlisted : s.connectedDevices = pre ++ f :: post) (hdead : s.devices f = none)
    (haway : f ∉ hosts l) : (∀ r sent, .served r sent ∈ l →
        (∃ vo_data, r.update = .full vo_data) ∧ ∀ host ∈ sent, host ∈ pre) ∧
      ∀ host, host ∉ pre → host ≠ f → host ∉ hosts l → .died host ∉ l →
        s'.devices host = s.devices host := by
  have hjoined : ∀ {l : List (Event A K E)} {host : A} {complete : Bool},
      .joined host complete ∈ l → host ∈ hosts l := fun hmem =>
    List.mem_filterMap.mpr ⟨_, hmem, rfl⟩
  induction h generalizing post with
  | nil => exact ⟨fun r sent hmem => (by cases hmem), fun host _ _ _ _ => rfl⟩
  | cons hstep hrest ih =>
    rename_i s s₁ s' e l
    have hhead : ∀ {host : A} {complete : Bool}, e = .joined host complete →
        host ∈ hosts (e :: l) := fun he => hjoined (List.mem_cons.mpr (.inl he.symm))
    obtain ⟨hdead₁, ⟨post₁, hlisted₁⟩, hsent, hkept⟩ := dead_step hstep hlisted hdead
      fun complete he => haway (hhead he)
    have hlater : ∀ host, host ∉ hosts (e :: l) → host ∉ hosts l := fun host hnot hin =>
      hnot (List.mem_filterMap.mpr (by
        obtain ⟨e', hmem, he'⟩ := List.mem_filterMap.mp hin
        exact ⟨e', List.mem_cons_of_mem _ hmem, he'⟩))
    obtain ⟨hsent', hkept'⟩ := ih hlisted₁ hdead₁ (hlater f haway)
    constructor
    · intro r sent hmem
      rcases List.mem_cons.mp hmem with heq | hmem
      · exact hsent r sent heq.symm
      · exact hsent' r sent hmem
    · intro host hpre hne hhost hdied
      rw [hkept' host hpre hne (hlater host hhost) fun hmem => hdied (List.mem_cons_of_mem _ hmem)]
      exact hkept host hpre hne (fun complete he => hhost (hhead he))
        fun he => hdied (List.mem_cons.mpr (.inl he.symm))

theorem step_of_alive {e : FleetMessages.Event A K E} (h : FleetMessages.Step S W X s e s')
    (halive : ∀ host ∈ s.connectedDevices, (s.devices host).isSome) : Step S W X s
      (match e with
        | .joined host => .joined host true
        | .served r => .served r s.connectedDevices) s' := by
  cases h with
  | join host d hread => exact .join host d hread
  | command hserved hsockets =>
    obtain ⟨p, hpay, hread⟩ := hsockets.exactly
    exact .command hserved
      ⟨hsockets.hosts, halive, p, hpay, fun socket hmem => .inl (hread socket hmem)⟩

theorem cutOffRun : ∃ (c₀ : ControlVO (BitVec 64) ℕ) (r₁ r₂ : Record (BitVec 64) ℕ)
    (reg : BitVec 64 → Option Bool) (s : Fleet ℕ (BitVec 64) ℕ) (d : Verifier ℕ)
    (vo_data : Verifier ℕ), Runs (Step serverTracker serverTypes unaryText) (noDevices c₀)
      ([.joined 7 true, .served r₁ [7], .joined 8 false] ++ [.served r₂ [7]]) s ∧
    Session serverTracker c₀ [r₁, r₂] s.dassTracker reg ∧ Sendable unaryText c₀ [r₁, r₂] ∧
    r₂.update = .full vo_data ∧ s.devices 7 = some d ∧ s.devices 8 = none ∧ reg 20 = some true := by
  obtain ⟨c₀, r₁, r₂, s, reg, hrun, hsession, hsend, h₁, h₂, -, ⟨vo_data, hfull⟩, -, h20⟩ :=
    fleetRun_run
  have hkeep := additions_keep h₁ h₂
  obtain ⟨-, hfits⟩ := Session.fitting (W := serverTypes) hsession hsend
  have hsplit : Runs (FleetMessages.Step serverTracker serverTypes unaryText) (noDevices c₀)
      ([FleetMessages.Event.joined 7, .served r₁] ++ [.served r₂]) s := hrun
  obtain ⟨s₂, hrun₂, hstep₃⟩ := runs_snoc_iff.mp hsplit
  have hsplit₂ : Runs (FleetMessages.Step serverTracker serverTypes unaryText) (noDevices c₀)
      ([FleetMessages.Event.joined 7] ++ [.served r₁]) s₂ := hrun₂
  obtain ⟨s₁, hrun₁, hstep₂⟩ := runs_snoc_iff.mp hsplit₂
  have hlisted₁ : s₁.connectedDevices = [7] := FleetMessages.connected hrun₁
  have hlisted₂ : s₂.connectedDevices = [7] := FleetMessages.connected hrun₂
  cases hstep₃ with
  | command hserved₂ hsockets₂ =>
    rename_i cmd₂ u₂ c₂ sockets₂
    obtain rfl : u₂ = .full vo_data := hfull
    obtain ⟨-, reg₁, hsession₂⟩ := Session.before (l := [r₁]) hsession
    have halive₁ : (s₁.devices 7).isSome := by
      have hlater : Session serverTracker c₀ ([] ++ FleetMessages.records
        ([.served r₁] : List (FleetMessages.Event ℕ (BitVec 64) ℕ))) s₂.dassTracker reg₁ :=
        hsession₂
      obtain ⟨reg₀, hstart⟩ := session_before (runs_one_iff.mpr hstep₂) hlater
      have hjoin : Runs (FleetMessages.Step serverTracker serverTypes unaryText) (noDevices c₀)
          ([] ++ .joined 7 :: []) s₁ := hrun₁
      exact (joined_current hjoin hstart (Sendable.front (l := []) hsend) rfl
        (fun r hr => by cases hr) fun r hr => by cases hr).2
    have halive₂ : (s₂.devices 7).isSome := by
      have hjoin : Runs (FleetMessages.Step serverTracker serverTypes unaryText) (noDevices c₀)
          ([] ++ .joined 7 :: [.served r₁]) s₂ := hrun₂
      exact (joined_current hjoin hsession₂ (Sendable.front (l := [r₁]) hsend) rfl
        (fun r hr => by cases hr) fun r hr => hkeep r (List.mem_cons.mpr (.inl
          (List.mem_singleton.mp hr)))).2
    obtain ⟨d, hd⟩ := Option.isSome_iff_exists.mp halive₂
    have hfit : Fitting serverTracker serverTypes unaryText (.full vo_data) :=
      hfits ⟨s₂.dassTracker, cmd₂, .full vo_data, c₂⟩ (by simp)
    obtain ⟨p, hpay⟩ := hfit.payload
    obtain ⟨d', hlisten, -⟩ := full_twin d hfit hpay (exactly_one p)
    have hjoin₁ := step_of_alive (runs_one_iff.mp hrun₁) fun host hmem => by cases hmem
    have hserve := step_of_alive hstep₂ fun host hmem => by
      rw [hlisted₁, List.mem_singleton] at hmem
      exact hmem ▸ halive₁
    dsimp only at hjoin₁ hserve
    rw [hlisted₁] at hserve
    have hcut := Step.join_cut_off (S := serverTracker) (W := serverTypes) (X := unaryText)
      (s := s₂) 8 none
    let s₃ : Fleet ℕ (BitVec 64) ℕ := { s₂ with
      connectedDevices := s₂.connectedDevices ++ [8]
      devices := Function.update s₂.devices 8 none }
    have hne : 7 ≠ 8 := by decide
    have hdevice : s₃.devices 7 = some d :=
      (Function.update_of_ne hne none s₂.devices).trans hd
    have hexchanged : Exchanged serverTypes unaryText s₃ (.full vo_data) [7]
        [(7, [p ++ finish])] := by
      refine ⟨rfl, fun host hmem => ?_, p, hpay, fun socket hmem => ?_⟩
      · rw [List.mem_singleton.mp hmem]
        exact Option.isSome_iff_exists.mpr ⟨d, hdevice⟩
      · rw [List.mem_singleton.mp hmem]
        exact .inl (exactly_one p)
    have hlisted₃ : s₃.connectedDevices = [7] ++ 8 :: [] :=
      congrArg (· ++ [8]) hlisted₂
    have hserved₃ : Served serverTracker s₃.dassTracker cmd₂ (.full vo_data) c₂ := hserved₂
    have hleft : (none : Option (Verifier ℕ)).isSome → (s₃.devices 8).isSome := nofun
    have hstop := Step.full_cut_off hserved₃ hlisted₃ hexchanged hleft
    refine ⟨c₀, r₁, _, reg, _, d', vo_data, .cons hjoin₁ (.cons hserve (.cons hcut
      (.cons hstop (.nil _)))), hsession, hsend, rfl, ?_, ?_, h20⟩
    · dsimp only
      rw [Function.update_of_ne hne, List.foldl_cons, List.foldl_nil, FleetMessages.read,
        Function.update_self, hdevice]
      exact hlisten
    · dsimp only
      rw [Function.update_self]

theorem up_to_date_agrees_cut_off : ∃ (c₀ : ControlVO (BitVec 64) ℕ)
    (r₁ r₂ : Record (BitVec 64) ℕ) (s : Fleet ℕ (BitVec 64) ℕ) (d : Verifier ℕ),
    Runs (Step serverTracker serverTypes unaryText) (noDevices c₀)
      ([.joined 7 true, .served r₁ [7], .joined 8 false] ++ [.served r₂ [7]]) s ∧
    s.devices 7 = some d ∧ s.devices 8 = none ∧ (∀ k, DASSVerifier.query serverTracker d k =
      CRIoTControl.query serverTracker s.dassTracker k) ∧
    DASSVerifier.query serverTracker d 20 = 1 := by
  obtain ⟨c₀, r₁, r₂, reg, s, d, vo_data, hrun, hsession, hsend, hfull, hd, hdead, h20⟩ := cutOffRun
  have hanswers := up_to_date_agrees hrun hsession hsend rfl
    (.full hfull (List.mem_singleton_self 7)) hd
  exact ⟨c₀, r₁, r₂, s, d, hrun, hd, hdead, hanswers.server, hanswers.registered _ _ h20⟩

theorem dead_device_starves_second : ∃ (s s' : Fleet ℕ (BitVec 64) ℕ)
    (r : Record (BitVec 64) ℕ), s.connectedDevices = [8, 7] ∧ (s.devices 7).isSome ∧
    Runs (Step serverTracker serverTypes unaryText) s [.served r []] s' ∧
    s'.dassTracker = r.after ∧ s'.devices 7 = s.devices 7 := by
  obtain ⟨c₀, r₁, r₂, s, reg, -, hsession, -, -, -, -, ⟨vo_data, hfull⟩, -⟩ := fleetRun_run
  have hserved := hsession.served r₂ (by simp)
  obtain ⟨before, cmd, u, after⟩ := r₂
  obtain rfl : u = .full vo_data := hfull
  let s : Fleet ℕ (BitVec 64) ℕ :=
    ⟨before, [8, 7], Function.update (fun _ => none) 7 (some before.vo_data)⟩
  have hserved' : Served serverTracker s.dassTracker cmd (.full vo_data) after := hserved
  have hlisted : s.connectedDevices = [] ++ 8 :: [7] := rfl
  have hnone : Exchanged serverTypes unaryText s (.full vo_data) [] [] :=
    ⟨rfl, fun host hmem => (by cases hmem), _, rfl, fun socket hmem => (by cases hmem)⟩
  have hleft : (none : Option (Verifier ℕ)).isSome → (s.devices 8).isSome := nofun
  have hstop := Step.full_cut_off hserved' hlisted hnone hleft
  have hrun := Runs.cons hstop (.nil _)
  have hne : 8 ≠ 7 := by decide
  have hdead : s.devices 8 = none :=
    Function.update_of_ne hne (some before.vo_data) fun _ => none
  have hsecond : s.devices 7 = some before.vo_data := rfl
  have hkept := (dead_device_starves hrun hlisted hdead List.not_mem_nil).2 7 List.not_mem_nil
    hne.symm List.not_mem_nil (by simp)
  exact ⟨s, _, _, rfl, Option.isSome_iff_exists.mpr ⟨_, hsecond⟩, hrun, rfl, hkept⟩

end FleetFailures
