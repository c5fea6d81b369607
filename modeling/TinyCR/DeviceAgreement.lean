import TinyCR.TinyCRServer

/-! # A connected device

The device that joined before the first command receives every update. It stays a copy of the
tracker as long as no revocation comes to a rebuild: that command sends a summary all the
same. -/
namespace DeviceAgreement

open DASSTracker TrackerRun DASSVerifier CRIoTControl SummaryWire TinyCRServer

variable {K E : Type} [DecidableEq K] [Inhabited K] {S : TrackerSetup K E} {c₀ c c' : ControlVO K E}
  {l : List (Record K E)} {reg : K → Option Bool} {u : Update K E} {cmd : Command K}

def Rebuilt (S : TrackerSetup K E) (r : Record K E) : Prop :=
  ∃ x t, r.command.call = some x ∧
    CRIoTControl.update S r.before.vo_control x = .ok (rebuildMarker, t)

def deviceAfter (S : TrackerSetup K E) (c₀ : ControlVO K E) (l : List (Record K E)) :
    Option (Verifier E) :=
  (l.map Record.update).foldlM (receive S) c₀.vo_data

/-- The device answers as the server does, and every rebuild was sent in full. -/
structure Agrees (S : TrackerSetup K E) (c₀ : ControlVO K E) (l : List (Record K E))
    (c : ControlVO K E) : Prop where
  device : ∃ d, deviceAfter S c₀ l = some d ∧ ∀ k, k ∈ c.vo_control.PK ∨ k ∈ c.vo_control.NK →
    DASSVerifier.query S d k = CRIoTControl.query S c k
  rebuilds : ∀ r ∈ l, Rebuilt S r → ∃ vo_data, r.update = .full vo_data

/-- A command that revokes asks for no rebuild. -/
def LosesNoRebuild (S : TrackerSetup K E) (r : Record K E) : Prop :=
  ∀ key, r.command = .rev key →
    ¬ ∃ t, CRIoTControl.update S r.before.vo_control (.setValue (key, 1)) = .ok (rebuildMarker, t)

omit [DecidableEq K] [Inhabited K] in
theorem deviceAfter_append (r : Record K E) :
    deviceAfter S c₀ (l ++ [r]) = (deviceAfter S c₀ l).bind fun d => receive S d r.update := by
  rw [deviceAfter, deviceAfter, List.map_append, List.foldlM_append]
  exact congrArg _ (funext fun d => bind_pure (receive S d r.update))

omit [DecidableEq K] [Inhabited K] in
theorem deviceAfter_one (r : Record K E) :
    deviceAfter S c₀ [r] = receive S c₀.vo_data r.update :=
  bind_pure (receive S c₀.vo_data r.update)

theorem Served.copies {x : Call K} (hx : cmd.call = some x) (h : Served S c cmd u c')
    (hkeep : LosesNoRebuild S ⟨c, cmd, u, c'⟩)
    (hinv : OthelloInvariant.Invariant S.othello c.vo_control.othello) :
    receive S (install c.vo_control) u = some (install c'.vo_control) ∧
      (Rebuilt S ⟨c, cmd, u, c'⟩ → ∃ vo_data, u = .full vo_data) := by
  obtain ⟨status, hcall, rfl⟩ := h.called hx
  cases hcall with
  | keep hcall =>
    obtain ⟨hup, hne, -⟩ := call_true hcall
    refine ⟨?_, ?_⟩
    · rw [receive_delta hx]
      exact (update_follows hinv hup hne).1
    · rintro ⟨x', t, hx', hup'⟩
      obtain rfl := Option.some.inj (hx.symm.trans hx')
      exact absurd (Prod.mk.inj (Except.ok.inj (hup.symm.trans hup'))).1 hne
  | rebuild hup _ hcall _ =>
    obtain ⟨t, done, -, -, hinstall, -⟩ := call_false hcall
    have hfull : cmd.update false c' = .full c'.vo_data := by
      cases cmd with
      | add kv => rfl
      | unr key => rfl
      | rem key => cases hx
      | rev key =>
        obtain rfl := Option.some.inj hx
        exact absurd ⟨_, hup⟩ (hkeep key rfl)
    rw [hfull]
    exact ⟨congrArg some hinstall, fun _ => ⟨_, rfl⟩⟩

theorem Session.copies (h : Session S c₀ l c reg) (hkeep : ∀ r ∈ l, LosesNoRebuild S r) :
    deviceAfter S c₀ l = some (install c.vo_control) ∧
      ∀ r ∈ l, Rebuilt S r → ∃ vo_data, r.update = .full vo_data := by
  -- A command appended to a session.
  have hsnoc : ∀ {l : List (Record K E)} {c c' : ControlVO K E} {reg cmd u} {x : Call K},
      Session S c₀ l c reg → cmd.call = some x → Served S c cmd u c' →
      (∀ r ∈ l ++ [⟨c, cmd, u, c'⟩], LosesNoRebuild S r) →
      (deviceAfter S c₀ l = some (install c.vo_control) ∧
        ∀ r ∈ l, Rebuilt S r → ∃ vo_data, r.update = .full vo_data) →
      deviceAfter S c₀ (l ++ [⟨c, cmd, u, c'⟩]) = some (install c'.vo_control) ∧
        ∀ r ∈ l ++ [⟨c, cmd, u, c'⟩], Rebuilt S r → ∃ vo_data, r.update = .full vo_data := by
    intro l c c' reg cmd u x hsession hx hserved hkeep ih
    obtain ⟨events, hrun⟩ := hsession.run
    have hlast := hkeep _ (List.mem_append_right _ (List.mem_singleton_self _))
    obtain ⟨hrec, hfull⟩ := Served.copies hx hserved hlast hrun.reached.consistent.1.othello
    refine ⟨?_, fun r hr => ?_⟩
    · rw [deviceAfter_append, ih.1]
      exact hrec
    · rcases List.mem_append.mp hr with hr | hr
      · exact ih.2 r hr
      · obtain rfl := List.mem_singleton.mp hr
        exact hfull
  induction h with
  | start hrun =>
    exact ⟨congrArg some hrun.start.1, fun r hr => by cases hr⟩
  | add hsession _ _ hserved ih =>
    exact hsnoc hsession rfl hserved hkeep (ih fun r hr => hkeep r (List.mem_append_left _ hr))
  | unr hsession _ hserved ih =>
    exact hsnoc hsession rfl hserved hkeep (ih fun r hr => hkeep r (List.mem_append_left _ hr))
  | rev hsession _ hserved ih =>
    exact hsnoc hsession rfl hserved hkeep (ih fun r hr => hkeep r (List.mem_append_left _ hr))

/-- A session is in agreement exactly if no revocation of it has asked for a rebuild. -/
theorem session_agrees_iff (h : Session S c₀ l c reg) :
    Agrees S c₀ l c ↔ ∀ r ∈ l, LosesNoRebuild S r := by
  constructor
  · intro hagrees r hr key hrev hrebuilt
    obtain ⟨t, hup⟩ := hrebuilt
    have hx : r.command.call = some (.setValue (key, 1)) := by rw [hrev]; rfl
    obtain ⟨status, -, hsent⟩ := (h.served r hr).called hx
    obtain ⟨vo_data, hfull⟩ := hagrees.rebuilds r hr ⟨_, t, hx, hup⟩
    rw [hrev, hfull] at hsent
    cases hsent
  · intro hkeep
    obtain ⟨hdev, hfull⟩ := Session.copies h hkeep
    exact ⟨⟨_, hdev, fun k _ => query_install _ k⟩, hfull⟩

/-- A start with a false positive, 18, and the revocation of 26, which needs a rebuild: the start,
the tracker after the update and after the rebuild. -/
def lostRun : Option (Tracker ℕ ℕ × Tracker ℕ ℕ × Tracker ℕ ℕ) := do
  let t ← started (batch_insert smallTracker 1 (DASSTracker.init smallTracker emptyTracker 4 2)
    [1, 2, 3, 4] [26, 18])
  match DASSTracker.setValue smallTracker t (26, 1) with
  | .ok (flipped, t₁) =>
    if flipped = rebuildMarker then do
      let t₂ ← started (rebuild smallTracker 3 t₁ [1, 2, 3, 4, 26] [18])
      return (t, t₁, t₂)
    else none
  | .error _ => none

def lostReg (k : ℕ) : Option Bool :=
  if k ∈ [1, 2, 3, 4] then some true else if k ∈ [26, 18] then some false else none

theorem lostRun_facts : lostRun.map (fun p => DASSVerifier.query smallTracker
    (DASSVerifier.setValue smallTracker (install p.1) (26, 1) rebuildMarker) 26) = some 0 := by
  decide +kernel

theorem lostRun_steps : ∃ t t₁ t₂ done done',
    batch_insert smallTracker 1 (DASSTracker.init smallTracker emptyTracker 4 2)
      [1, 2, 3, 4] [26, 18] = .ok (done, t) ∧ Fits t.vf ∧
    DASSTracker.setValue smallTracker t (26, 1) = .ok (rebuildMarker, t₁) ∧
    rebuild smallTracker 3 t₁ [1, 2, 3, 4, 26] [18] = .ok (done', t₂) ∧ Fits t₂.vf ∧
    DASSVerifier.query smallTracker
      (DASSVerifier.setValue smallTracker (install t) (26, 1) rebuildMarker) 26 = 0 := by
  obtain ⟨⟨t, t₁, t₂⟩, hrun, hquery⟩ := Option.map_eq_some_iff.mp lostRun_facts
  rw [lostRun] at hrun
  obtain ⟨t', hstart, hrun⟩ := Option.bind_eq_some_iff.mp hrun
  obtain ⟨done, hbatch, hfit⟩ := started_some hstart
  split at hrun
  case h_2 => cases hrun
  case h_1 flipped t₁' hset =>
    split at hrun
    case isFalse => cases hrun
    case isTrue hmark =>
      obtain ⟨t₂', hrebuilt, hrun⟩ := Option.bind_eq_some_iff.mp hrun
      obtain ⟨done', hre, hfit'⟩ := started_some hrebuilt
      obtain ⟨rfl, hpair⟩ := Prod.mk.inj (Option.some.inj hrun)
      obtain ⟨rfl, rfl⟩ := Prod.mk.inj hpair
      exact ⟨_, _, _, _, _, hbatch, hfit, hmark ▸ hset, hre, hfit', hquery⟩

theorem lostRun_session : ∃ c₀ c t₁, Session smallTracker c₀
      [⟨c₀, .rev 26, .summary rebuildMarker [(26, 1)] [RevokeAction], c⟩] c
      (Function.update lostReg 26 (some true)) ∧
    CRIoTControl.update smallTracker c₀.vo_control (.setValue (26, 1)) =
      .ok (rebuildMarker, t₁) ∧
    DASSVerifier.query smallTracker
      (DASSVerifier.setValue smallTracker c₀.vo_data (26, 1) rebuildMarker) 26 = 0 := by
  obtain ⟨t, t₁, t₂, done, done', hbatch, hfit, hset, hre, hfit', hquery⟩ := lostRun_steps
  have hinit : CRIoTControl.init smallTracker ⟨emptyTracker, install emptyTracker, []⟩ 1
      [1, 2, 3, 4] [26, 18] = .ok ⟨t, install t, []⟩ := by
    have hbatch' : batch_insert smallTracker 1 (DASSTracker.init smallTracker emptyTracker
        [1, 2, 3, 4].length [26, 18].length) [1, 2, 3, 4] [26, 18] = .ok (done, t) := hbatch
    rw [CRIoTControl.init, hbatch']
    rfl
  have hstart : Run smallTracker ⟨t, install t, []⟩ [] ⟨t, install t, []⟩ lostReg :=
    .init (c := ⟨emptyTracker, install emptyTracker, []⟩) ⟨rfl, rfl⟩ (by decide) (by decide)
      (by simp) (by decide) (by decide) hinit hfit
  obtain ⟨hcons, hreg⟩ := hstart.reached.consistent
  have h26 : 26 ∈ t.NK := (hreg.NK 26).mpr rfl
  obtain ⟨hPK, hNK, -⟩ := hcons.setValue_ok (b := true) (Or.inr h26) hset
  have henum : Enumerates t₁ [1, 2, 3, 4, 26] [18] := by
    refine ⟨by decide, by decide, fun k => ?_, fun k => ?_, by decide, by decide⟩
    · rw [hPK, if_pos rfl, Finset.mem_insert, hreg.PK, lostReg]
      simp only [List.mem_cons, List.not_mem_nil, or_false]
      split_ifs <;> simp <;> omega
    · rw [hNK, if_pos rfl, Finset.mem_erase, hreg.NK, lostReg]
      simp only [List.mem_cons, List.not_mem_nil, or_false]
      split_ifs <;> simp <;> omega
  have hcall : CRIoTControl.setValue smallTracker 3 [1, 2, 3, 4, 26] [18] ⟨t, install t, []⟩
      (26, 1) = .ok (false, ⟨t₂, install t₂, rebuildMarker⟩) := by
    have hset' : DASSTracker.setValue smallTracker t (26, 1) = .ok (rebuildMarker, t₁) := hset
    rw [CRIoTControl.setValue, hset', ControlPlaneOthello.ok_bind, settle, if_pos rfl, hre]
    rfl
  have hcmd : command smallTracker 3 [1, 2, 3, 4, 26] [18] ⟨t, install t, []⟩ (.rev 26) =
      .ok (.summary rebuildMarker [(26, 1)] [RevokeAction], ⟨t₂, install t₂, rebuildMarker⟩) := by
    rw [command, revokeCertificate, hcall]
    rfl
  refine ⟨_, _, t₁, .rev (.start hstart) (Or.inr h26) ⟨3, _, _, hcmd, fun x t' hx hup => ?_⟩,
    hset, hquery⟩
  obtain rfl := Option.some.inj hx
  obtain rfl := (Prod.mk.inj (Except.ok.inj (hup.symm.trans hset))).2
  exact ⟨henum, hfit'⟩

theorem keptRun_isSome : (startRun.bind fun t =>
    kept (DASSTracker.setValue smallTracker t (18, 1))).isSome = true := by decide +kernel

theorem keptRun_session : ∃ (c₀ c : ControlVO ℕ ℕ) (u : Update ℕ ℕ),
    Session smallTracker c₀ [⟨c₀, .rev 18, u, c⟩] c (Function.update startReg 18 (some true)) ∧
      LosesNoRebuild smallTracker ⟨c₀, .rev 18, u, c⟩ := by
  obtain ⟨t₁, hrun⟩ := Option.isSome_iff_exists.mp keptRun_isSome
  obtain ⟨t, hstart, hrun⟩ := Option.bind_eq_some_iff.mp hrun
  obtain ⟨flipped, hset, hne⟩ := kept_some hrun
  have hinit := startRun_run hstart
  obtain ⟨-, hreg⟩ := hinit.reached.consistent
  have h18 : 18 ∈ t.NK := (hreg.NK 18).mpr rfl
  have hcall : call smallTracker 0 [] [] ⟨t, install t, []⟩ (.setValue (18, 1)) =
      .ok (true, ⟨t₁, install t, flipped⟩) := call_of_update hset hne
  have hset' : CRIoTControl.setValue smallTracker 0 [] [] ⟨t, install t, []⟩ (18, 1) =
      .ok (true, ⟨t₁, install t, flipped⟩) := hcall
  have hcmd : command smallTracker 0 [] [] ⟨t, install t, []⟩ (.rev 18) =
      .ok (.summary flipped [(18, 1)] [RevokeAction], ⟨t₁, install t, flipped⟩) := by
    rw [command, revokeCertificate, hset']
    rfl
  have hkeep : ∀ t', DASSTracker.setValue smallTracker t (18, 1) ≠ .ok (rebuildMarker, t') :=
    fun t' hup => hne (Prod.mk.inj (Except.ok.inj (hset.symm.trans hup))).1
  refine ⟨_, _, _, .rev (.start hinit) (Or.inr h18) ⟨0, [], [], hcmd, fun x t' hx hup => ?_⟩, ?_⟩
  · obtain rfl := Option.some.inj hx
    exact absurd hup (hkeep t')
  · rintro key hrev ⟨t', hup⟩
    obtain rfl := Command.rev.inj hrev
    exact hkeep t' hup

theorem session_agrees_iff_kept :
    (∃ (c₀ c : ControlVO ℕ ℕ) (r : Record ℕ ℕ) (reg : ℕ → Option Bool),
      Session smallTracker c₀ [r] c reg ∧ r.command = .rev 18 ∧ Agrees smallTracker c₀ [r] c) ∧
    ∃ (c₀ c : ControlVO ℕ ℕ) (r : Record ℕ ℕ) (reg : ℕ → Option Bool),
      Session smallTracker c₀ [r] c reg ∧ r.command = .rev 26 ∧ ¬ Agrees smallTracker c₀ [r] c := by
  constructor
  · obtain ⟨c₀, c, u, hsession, hkeep⟩ := keptRun_session
    exact ⟨c₀, c, _, _, hsession, rfl, (session_agrees_iff hsession).mpr
      (List.forall_mem_singleton.mpr hkeep)⟩
  · obtain ⟨c₀, c, t₁, hsession, hup, -⟩ := lostRun_session
    refine ⟨c₀, c, _, _, hsession, rfl, fun hagrees => ?_⟩
    have hkeep := (session_agrees_iff hsession).mp hagrees
    exact hkeep _ (List.mem_singleton_self _) 26 rfl ⟨t₁, hup⟩

/-- The summary carries the marker of a rebuild, and the device answers the revoked key with 0. -/
theorem revocation_lost : ∃ (c₀ c : ControlVO ℕ ℕ) (r : Record ℕ ℕ) (reg : ℕ → Option Bool)
    (d : Verifier ℕ), Session smallTracker c₀ [r] c reg ∧ r.command = .rev 26 ∧
      Rebuilt smallTracker r ∧ r.update = .summary rebuildMarker [(26, 1)] [RevokeAction] ∧
      deviceAfter smallTracker c₀ [r] = some d ∧
      (26 ∈ c.vo_control.PK ∨ 26 ∈ c.vo_control.NK) ∧
      CRIoTControl.query smallTracker c 26 = 1 ∧ DASSVerifier.query smallTracker d 26 = 0 := by
  obtain ⟨c₀, c, t₁, hsession, hup, hquery⟩ := lostRun_session
  obtain ⟨events, hrun⟩ := hsession.run
  obtain ⟨hreg, hans⟩ := hrun.answers 26
  have hdevice : deviceAfter smallTracker c₀
      [⟨c₀, .rev 26, .summary rebuildMarker [(26, 1)] [RevokeAction], c⟩] =
        some (DASSVerifier.setValue smallTracker c₀.vo_data (26, 1) rebuildMarker) := by
    refine (deviceAfter_one _).trans ?_
    exact (receive_one _ _ _).trans (perform_setValue _ _ (Or.inr rfl))
  exact ⟨c₀, c, _, _, _, hsession, rfl, ⟨_, t₁, rfl, hup⟩, rfl, hdevice,
    hreg.mpr (by simp), hans true (by simp), hquery⟩

end DeviceAgreement
