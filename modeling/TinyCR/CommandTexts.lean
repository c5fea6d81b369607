import TinyCR.CertificateKeys
import TinyCR.ClientThreads

/-! # What the CA is told

Connection by connection, the server keeps a registry: what a text asks for is what becomes of the
key it names, and `show` replies with it, on the server and on every device that has read the
updates. -/
namespace CommandTexts

open ControlPlaneOthello VacuumFilter DASSTracker TrackerInvariant TrackerRun DASSVerifier
  CRIoTControl TinyCRServer CommandListener CertificateKeys

open SummaryWire (serverTypes)
open FullWire (encode_full unaryText)
open DeviceAgreement (LosesNoRebuild)
open MessageFraming (ReadExactly)
open UpdateMessages (Fitting readFullSummary readFullSummary_twin)
open FleetMessages (Sendable Session.fitting exactly_one fleetRun_run)
open FleetAgreement (additions_keep)
open ClientThreads (Carries handle session_copies)

section Turns

variable {K E : Type} [DecidableEq K] [Inhabited K] (S : TrackerSetup K E) (toKey : ℕ → K)
  (toValue : ℕ → ℕ)

def asked (conn : Connection K) : Option (Command K) := do
  let bytes ← conn.received
  let command ← commandRgx (Connection.data bytes)
  requested toKey toValue command (Connection.data bytes)

variable {S toKey toValue} {conn : Connection K} {l l' : Listener K E}

theorem tryBlock_eq (ha : conn.accepted = true) (hfree : l.updateLock = false) :
    tryBlock S toKey toValue conn l = match conn.received with
      | none => .error (.socketException { l with updateLock := true })
      | some bytes =>
        match commandRgx (Connection.data bytes) with
        | none => do
          let l ← send conn { l with updateLock := true } "Command not recognized"
          return (true, l)
        | some command =>
          match commandsMap S toKey toValue conn command with
          | some handler => do
            let (response, l) ← handler (Connection.data bytes) { l with updateLock := true }
            let l ← send conn l response
            return (false, l)
          | none => do
            let l ← send conn { l with updateLock := true } "Not a valid command"
            return (false, l) := by
  have hlock : lock l = .ok { l with updateLock := true } := by
    rw [lock, hfree]
    rfl
  rw [tryBlock, ha, hlock]
  rfl

omit [DecidableEq K] [Inhabited K] in
theorem settled_reply (conn : Connection K) (hheld : l.updateLock = true) (reply : String) :
    settled (do
      let l ← send conn l reply
      return (false, l)) = .ok { l with
        updateLock := false
        replies := if conn.replied then l.replies ++ [reply] else l.replies } := by
  rw [send]
  cases conn.replied
  · simp [settled, unlock, hheld]
  · simp [settled, unlock, hheld]

omit [DecidableEq K] [Inhabited K] in
theorem code_bind_ok {α β : Type} {x : Code K E α} {f : α → Code K E β} {b : β}
    (h : x >>= f = .ok b) : ∃ a, x = .ok a ∧ f a = .ok b := by
  cases x with
  | error stop => cases h
  | ok a => exact ⟨a, rfl, h⟩

theorem handler_quiet {command : String} {data : List Char} {response : String}
    {handler : List Char → Listener K E → Code K E (String × Listener K E)}
    (hmap : commandsMap S toKey toValue conn command = some handler)
    (hreq : requested toKey toValue command data = none)
    (h : handler data l = .ok (response, l')) :
    l'.dassTracker = l.dassTracker ∧ l'.updateLock = l.updateLock := by
  revert hreq h
  apply commandsMap_cases (motive := fun command handler =>
    requested toKey toValue command data = none → handler data l = .ok (response, l') →
      l'.dassTracker = l.dassTracker ∧ l'.updateLock = l.updateLock) hmap
  case add =>
    intro hreq h
    have hnone : addRgx data = none := by simpa [requested] using hreq
    rw [addCommand, hnone] at h
    obtain ⟨-, rfl⟩ := Prod.mk.inj (Except.ok.inj h)
    exact ⟨rfl, rfl⟩
  case rem =>
    intro hreq h
    have hnone : keyRgx data = none := by simpa [requested] using hreq
    rw [removeCommand, hnone] at h
    obtain ⟨-, rfl⟩ := Prod.mk.inj (Except.ok.inj h)
    exact ⟨rfl, rfl⟩
  case unr =>
    intro hreq h
    have hnone : keyRgx data = none := by simpa [requested] using hreq
    rw [unrevokeCommand, hnone] at h
    obtain ⟨-, rfl⟩ := Prod.mk.inj (Except.ok.inj h)
    exact ⟨rfl, rfl⟩
  case rev =>
    intro hreq h
    have hnone : keyRgx data = none := by simpa [requested] using hreq
    rw [revokeCommand, hnone] at h
    obtain ⟨-, rfl⟩ := Prod.mk.inj (Except.ok.inj h)
    exact ⟨rfl, rfl⟩
  case exi =>
    intro hreq h
    obtain ⟨-, rfl⟩ := Prod.mk.inj (Except.ok.inj h)
    exact ⟨rfl, rfl⟩
  case ping =>
    intro hreq h
    obtain ⟨-, rfl⟩ := Prod.mk.inj (Except.ok.inj h)
    exact ⟨rfl, rfl⟩
  case get =>
    intro hreq h
    rw [statisticsCommand] at h
    split at h
    all_goals
      obtain ⟨-, rfl⟩ := Prod.mk.inj (Except.ok.inj h)
      exact ⟨rfl, rfl⟩
  case shows =>
    intro hreq h
    rw [showCommand] at h
    split at h
    · obtain ⟨-, rfl⟩ := Prod.mk.inj (Except.ok.inj h)
      exact ⟨rfl, rfl⟩
    · obtain ⟨num, -, h⟩ := code_bind_ok h
      obtain ⟨-, rfl⟩ := Prod.mk.inj (Except.ok.inj h)
      exact ⟨rfl, rfl⟩

theorem change_ok {cmd : Command K} (h : change S conn l cmd = .ok l') :
    l'.updateLock = l.updateLock ∧ ∃ u, TinyCRServer.command S conn.tries conn.positive_keys
      conn.negative_keys l.dassTracker cmd = .ok (u, l'.dassTracker) := by
  rw [change] at h
  split at h
  case h_1 => cases h
  case h_2 => cases h
  case h_3 hcmd =>
    obtain rfl := Except.ok.inj h
    exact ⟨rfl, _, hcmd⟩
  case h_4 hcmd =>
    split at h
    · obtain rfl := Except.ok.inj h
      exact ⟨rfl, _, hcmd⟩
    · cases h

omit [DecidableEq K] [Inhabited K] in
theorem settled_ok (hheld : l.updateLock = true) {reply : String}
    (h : settled (do
      let l ← send conn l reply
      return (false, l)) = .ok l') :
    l'.updateLock = false ∧ l'.dassTracker = l.dassTracker := by
  rw [settled_reply conn hheld] at h
  obtain rfl := Except.ok.inj h
  exact ⟨rfl, rfl⟩

theorem requested_of_unknown {command : String} {data : List Char}
    (h : commandsMap S toKey toValue conn command = none) :
    requested toKey toValue command data = none := by
  have hne : command ≠ "add" ∧ command ≠ "rem" ∧ command ≠ "unr" ∧ command ≠ "rev" := by
    refine ⟨?_, ?_, ?_, ?_⟩
    all_goals
      rintro rfl
      simp [commandsMap] at h
  obtain ⟨hadd, hrem, hunr, hrev⟩ := hne
  simp [requested, hadd, hrem, hunr, hrev]

/-- One turn: the lock is free again, and the tracker is that of the change which was asked for. -/
theorem turn_spec (hfree : l.updateLock = false) (hp : Proper S toKey toValue conn l)
    (h : iteration S toKey toValue conn l = .ok l') : l'.updateLock = false ∧
      match asked toKey toValue conn with
      | none => l'.dassTracker = l.dassTracker
      | some cmd => ∃ u, TinyCRServer.command S conn.tries conn.positive_keys conn.negative_keys
          l.dassTracker cmd = .ok (u, l'.dassTracker) := by
  have hheld : ({ l with updateLock := true } : Listener K E).updateLock = true := rfl
  rw [iteration_eq, tryBlock_eq hp.accepted hfree] at h
  cases hr : conn.received with
  | none =>
    have hasked : asked toKey toValue conn = none := by simp [asked, hr]
    simp only [hr, settled, unlock, if_true] at h
    obtain rfl := Except.ok.inj h
    rw [hasked]
    exact ⟨rfl, rfl⟩
  | some bytes =>
    simp only [hr] at h
    cases hword : commandRgx (Connection.data bytes) with
    | none =>
      have hasked : asked toKey toValue conn = none := by simp [asked, hr, hword]
      simp only [hword, send, hp.unrecognised bytes hr hword] at h
      obtain rfl := Except.ok.inj h
      rw [hasked]
      exact ⟨rfl, rfl⟩
    | some command =>
      have hasked : asked toKey toValue conn =
          requested toKey toValue command (Connection.data bytes) := by simp [asked, hr, hword]
      have hsafe := hp.harmless bytes command hr hword
      simp only [hword] at h
      rw [hasked]
      cases hmap : commandsMap S toKey toValue conn command with
      | none =>
        simp only [hmap] at h
        rw [requested_of_unknown hmap]
        exact settled_ok (l := { l with updateLock := true }) hheld h
      | some handler =>
        simp only [hmap] at h
        cases hhandled : handler (Connection.data bytes) { l with updateLock := true } with
        | error stop =>
          have hends : Ends { l with updateLock := true } _
              (handler (Connection.data bytes) { l with updateLock := true }) := handler_ends hmap
          rw [hhandled] at h hends
          cases stop with
          | socketException => exact hends.elim
          | otherException | lockMisused | ended => cases h
        | ok r =>
          obtain ⟨response, l₁⟩ := r
          rw [hhandled] at h
          cases hreq : requested toKey toValue command (Connection.data bytes) with
          | none =>
            obtain ⟨htracker, hlock⟩ := handler_quiet hmap hreq hhandled
            obtain ⟨hfree', htracker'⟩ := settled_ok (hlock.trans hheld) h
            exact ⟨hfree', htracker'.trans htracker⟩
          | some cmd =>
            obtain ⟨reply, hhandler⟩ := handler_requested hmap hreq hsafe.numbers
              { l with updateLock := true }
            obtain ⟨l₂, hchange, heq⟩ := code_bind_ok (hhandler.symm.trans hhandled)
            obtain ⟨-, rfl⟩ := Prod.mk.inj (Except.ok.inj heq)
            obtain ⟨hlock, u, hcmd⟩ := change_ok hchange
            obtain ⟨hfree', htracker⟩ := settled_ok (hlock.trans hheld) h
            exact ⟨hfree', u, htracker ▸ hcmd⟩

/-- Fresh keys are added with 0 or 1, and registered ones unrevoked and revoked. -/
def Allowed (reg : K → Option Bool) : Command K → Prop
  | .add kv => reg kv.1 = none ∧ kv.2 ≤ 1
  | .rem _ => False
  | .unr key => (reg key).isSome
  | .rev key => (reg key).isSome

def registered (reg : K → Option Bool) : Command K → K → Option Bool
  | .add kv => Function.update reg kv.1 (some (kv.2 == 1))
  | .rem _ => reg
  | .unr key => Function.update reg key (some false)
  | .rev key => Function.update reg key (some true)

/-- Should the change come to a rebuild, the connection holds the keys as the sets list them, and
the new filter fits. -/
def Rebuildable (S : TrackerSetup K E) (conn : Connection K) (c : ControlVO K E)
    (cmd : Command K) (c' : ControlVO K E) : Prop :=
  ∀ x t, cmd.call = some x → CRIoTControl.update S c.vo_control x = .ok (rebuildMarker, t) →
    Enumerates t conn.positive_keys conn.negative_keys ∧ Fits c'.vo_control.vf

def recorded (S : TrackerSetup K E) (toKey : ℕ → K) (toValue : ℕ → ℕ) (l : Listener K E)
    (conn : Connection K) : List (Record K E) :=
  match asked toKey toValue conn with
  | none => []
  | some cmd =>
    match TinyCRServer.command S conn.tries conn.positive_keys conn.negative_keys l.dassTracker
        cmd with
    | .ok (u, c) => [⟨l.dassTracker, cmd, u, c⟩]
    | .error _ => []

def registry (reg₀ : K → Option Bool) (rs : List (Record K E)) : K → Option Bool :=
  (rs.map Record.command).foldl registered reg₀

structure Turn (S : TrackerSetup K E) (toKey : ℕ → K) (toValue : ℕ → ℕ) (reg₀ : K → Option Bool)
    (s : Listener K E × List (Record K E)) (conn : Connection K)
    (s' : Listener K E × List (Record K E)) : Prop where
  running : s.1.running = true
  proper : Proper S toKey toValue conn s.1
  served : iteration S toKey toValue conn s.1 = .ok s'.1
  allowed : ∀ cmd, asked toKey toValue conn = some cmd →
    Allowed (registry reg₀ s.2) cmd ∧ Rebuildable S conn s.1.dassTracker cmd s'.1.dassTracker
  noted : s'.2 = s.2 ++ recorded S toKey toValue s.1 conn

variable {c₀ : ControlVO K E} {reg₀ reg : K → Option Bool} {conns : List (Connection K)}
  {rs : List (Record K E)}

theorem Session.change {cmd : Command K} {u : Update K E} {c c' : ControlVO K E}
    (h : Session S c₀ rs c reg) (hallowed : Allowed reg cmd)
    (hrebuild : Rebuildable S conn c cmd c')
    (hcmd : TinyCRServer.command S conn.tries conn.positive_keys conn.negative_keys c cmd =
      .ok (u, c')) :
    Session S c₀ (rs ++ [⟨c, cmd, u, c'⟩]) c' (registered reg cmd) := by
  obtain ⟨events, hrun⟩ := h.run
  have hkey : ∀ k, k ∈ c.vo_control.PK ∨ k ∈ c.vo_control.NK ↔ (reg k).isSome = true :=
    fun k => (hrun.answers k).1
  have hserved : Served S c cmd u c' := ⟨_, _, _, hcmd, hrebuild⟩
  cases cmd with
  | rem => exact hallowed.elim
  | unr key => exact .unr h ((hkey key).mpr hallowed) hserved
  | rev key => exact .rev h ((hkey key).mpr hallowed) hserved
  | add kv =>
    obtain ⟨k, v⟩ := kv
    obtain ⟨hnew, hv⟩ := hallowed
    have hv : v = (v == 1).toNat := by
      have hcases : v = 0 ∨ v = 1 := by
        dsimp only at hv
        omega
      rcases hcases with rfl | rfl <;> rfl
    have hfresh : k ∉ c.vo_control.PK ∧ k ∉ c.vo_control.NK := by
      apply not_or.mp
      rw [hkey, hnew]
      decide
    rw [registered]
    dsimp only
    generalize (v == 1) = b at hv ⊢
    subst hv
    exact .add h hfresh.1 hfresh.2 hserved

omit [DecidableEq K] [Inhabited K] in
theorem registry_snoc [DecidableEq K] (reg₀ : K → Option Bool) (rs : List (Record K E))
    (r : Record K E) : registry reg₀ (rs ++ [r]) = registered (registry reg₀ rs) r.command := by
  rw [registry, List.map_append, List.foldl_append]
  rfl

/-- A conversation is a session of the commands it asks for. -/
theorem conversation_session {l₀ : Listener K E}
    (h : LabelledRuns.Runs (Turn S toKey toValue reg₀) (l₀, []) conns (l, rs))
    (hfree : l₀.updateLock = false)
    (hstart : CRIoTControl.Run S l₀.dassTracker [] l₀.dassTracker reg₀) :
    l.updateLock = false ∧ Session S l₀.dassTracker rs l.dassTracker (registry reg₀ rs) ∧
      rs.map Record.command = conns.filterMap (asked toKey toValue) := by
  generalize hs : ((l₀, []) : Listener K E × List (Record K E)) = s at h
  generalize hs' : (l, rs) = s' at h
  induction h using LabelledRuns.Runs.snoc_induction generalizing l rs with
  | nil =>
    obtain ⟨rfl, rfl⟩ := Prod.mk.inj (hs.trans hs'.symm)
    exact ⟨hfree, .start hstart, rfl⟩
  | snoc conns s₁ conn s' hrun hturn ih =>
    subst hs'
    obtain ⟨l₁, rs₁⟩ := s₁
    obtain ⟨hfree₁, hsession, hcommands⟩ := ih rfl
    obtain ⟨hfree', hspec⟩ := turn_spec hfree₁ hturn.proper hturn.served
    have hnoted : rs = rs₁ ++ recorded S toKey toValue l₁ conn := hturn.noted
    rw [List.filterMap_append, ← hcommands]
    refine ⟨hfree', ?_⟩
    rw [recorded] at hnoted
    cases hasked : asked toKey toValue conn with
    | none =>
      rw [hasked] at hspec hnoted
      have hsame : l.dassTracker = l₁.dassTracker := hspec
      have hnil : [conn].filterMap (asked toKey toValue) = [] := by simp [hasked]
      obtain rfl : rs = rs₁ := hnoted.trans (List.append_nil rs₁)
      rw [hsame, hnil, List.append_nil]
      exact ⟨hsession, rfl⟩
    | some cmd =>
      obtain ⟨hallowed, hrebuild⟩ := hturn.allowed cmd hasked
      rw [hasked] at hspec hnoted
      obtain ⟨u, hcmd⟩ := hspec
      have hone : [conn].filterMap (asked toKey toValue) = [cmd] := by simp [hasked]
      simp only [hcmd] at hnoted
      subst hnoted
      rw [hone, registry_snoc, List.map_append]
      exact ⟨Session.change hsession hallowed hrebuild hcmd, rfl⟩

def Written (toKey : ℕ → K) (toValue : ℕ → ℕ) (cmd : Command K) : Prop :=
  ∃ bytes word, commandRgx (Connection.data bytes) = some word ∧
    requested toKey toValue word (Connection.data bytes) = some cmd ∧
    ∀ digits ∈ numbers word (Connection.data bytes), decimal digits < 2 ^ 64

theorem served_turn {cmd : Command K} {u : Update K E} {c' : ControlVO K E}
    (hserved : Served S l.dassTracker cmd u c') (hallowed : Allowed (registry reg₀ rs) cmd)
    (hrunning : l.running = true) (hfree : l.updateLock = false)
    (hwritten : Written toKey toValue cmd) : ∃ conn l', Turn S toKey toValue reg₀ (l, rs) conn
        (l', rs ++ [⟨l.dassTracker, cmd, u, c'⟩]) ∧
      asked toKey toValue conn = some cmd ∧ l'.dassTracker = c' ∧ l'.running = true ∧
      l'.updateLock = false := by
  obtain ⟨tries, positive_keys, negative_keys, hcmd, hrebuild⟩ := hserved
  obtain ⟨bytes, word, hword, hreq, hlt⟩ := hwritten
  let conn : Connection K :=
    { accepted := true
      received := some bytes
      replied := true
      devicesReached := true
      tries := tries
      positive_keys := positive_keys
      negative_keys := negative_keys
      time := ""
      average := fun _ => "" }
  have hasked : asked toKey toValue conn = some cmd := by
    rw [← hreq, asked]
    simp only [conn, Option.bind_eq_bind, Option.bind_some, hword]
  have hchange : ∀ m : Listener K E, m.dassTracker = l.dassTracker →
      change S conn m cmd = .ok { m with dassTracker := c' } := by
    intro m hm
    rw [change, hm, hcmd]
    cases u <;> rfl
  have hproper : Proper S toKey toValue conn l := by
    refine ⟨rfl, fun bytes' hb hnone => ?_, fun bytes' word' hb hsome => ⟨?_, ?_⟩⟩
    · obtain rfl := Option.some.inj hb
      cases hword.symm.trans hnone
    · obtain rfl := Option.some.inj hb
      obtain rfl := Option.some.inj (hword.symm.trans hsome)
      exact hlt
    · obtain rfl := Option.some.inj hb
      obtain rfl := Option.some.inj (hword.symm.trans hsome)
      intro cmd' hcmd'
      obtain rfl := Option.some.inj (hreq.symm.trans hcmd')
      rw [Quiet]
      exact fun h => by cases hcmd.symm.trans h
  cases hmap : commandsMap S toKey toValue conn word with
  | none => cases (requested_of_unknown hmap).symm.trans hreq
  | some handler =>
    obtain ⟨response, hhandler⟩ := handler_requested hmap hreq hlt { l with updateLock := true }
    rw [hchange { l with updateLock := true } rfl] at hhandler
    have hserved : iteration S toKey toValue conn l = .ok { l with
        updateLock := false, dassTracker := c', replies := l.replies ++ [response] } := by
      rw [iteration_eq, tryBlock_eq rfl hfree]
      simp only [conn, hword, hmap, hhandler]
      exact settled_reply conn (l := { l with updateLock := true, dassTracker := c' }) rfl response
    refine ⟨conn, _, ⟨hrunning, hproper, hserved, fun cmd' hcmd' => ?_, ?_⟩, hasked, rfl, hrunning,
      rfl⟩
    · obtain rfl := Option.some.inj (hasked.symm.trans hcmd')
      exact ⟨hallowed, hrebuild⟩
    · simp only [recorded, hasked, conn, hcmd]

theorem Session.allowed {r : Record K E} {c : ControlVO K E}
    (h : Session S c₀ (rs ++ [r]) c reg) : c = r.after ∧ ∃ reg₁, Session S c₀ rs r.before reg₁ ∧
      Allowed reg₁ r.command ∧ reg = registered reg₁ r.command := by
  have hkey : ∀ {l c reg} {k : K}, Session S c₀ l c reg →
      (k ∈ c.vo_control.PK ∨ k ∈ c.vo_control.NK ↔ (reg k).isSome = true) := by
    intro l c reg k hsession
    obtain ⟨events, hrun⟩ := hsession.run
    exact (hrun.answers k).1
  generalize hl : rs ++ [r] = rs' at h
  cases h with
  | start => simp at hl
  | unr h hk =>
    obtain ⟨rfl, heq⟩ := List.append_inj' hl rfl
    obtain rfl := List.singleton_inj.mp heq
    exact ⟨rfl, _, h, (hkey h).mp hk, rfl⟩
  | rev h hk =>
    obtain ⟨rfl, heq⟩ := List.append_inj' hl rfl
    obtain rfl := List.singleton_inj.mp heq
    exact ⟨rfl, _, h, (hkey h).mp hk, rfl⟩
  | @add l reg₁ k b u c₁ c' h hP hN =>
    obtain ⟨rfl, heq⟩ := List.append_inj' hl rfl
    obtain rfl := List.singleton_inj.mp heq
    refine ⟨rfl, reg₁, h, ⟨?_, Bool.toNat_le b⟩, ?_⟩
    · rw [← Option.not_isSome_iff_eq_none, ← hkey h]
      exact not_or.mpr ⟨hP, hN⟩
    · cases b <;> rfl

theorem session_conversation {c : ControlVO K E} (h : Session S c₀ rs c reg)
    (hwritten : ∀ r ∈ rs, Written toKey toValue r.command) : ∃ reg₀ conns l,
      CRIoTControl.Run S c₀ [] c₀ reg₀ ∧ reg = registry reg₀ rs ∧
      LabelledRuns.Runs (Turn S toKey toValue reg₀) (⟨true, false, c₀, []⟩, []) conns (l, rs) ∧
      l.dassTracker = c ∧ l.running = true ∧ l.updateLock = false := by
  induction rs using List.reverseRecOn generalizing c reg with
  | nil =>
    generalize hl : [] = l at h
    cases h with
    | start hstart => exact ⟨reg, [], _, hstart, rfl, .nil _, rfl, rfl, rfl⟩
    | add | unr | rev => simp at hl
  | append_singleton rs r ih =>
    rw [List.forall_mem_append, List.forall_mem_singleton] at hwritten
    obtain ⟨rfl, reg₁, hbefore, hallowed, rfl⟩ := Session.allowed h
    obtain ⟨reg₀, conns, l, hstart, rfl, hruns, htracker, hrunning, hfree⟩ :=
      ih hbefore hwritten.1
    have hserved := h.served r (List.mem_append_right rs (List.mem_singleton_self r))
    rw [← htracker] at hserved
    obtain ⟨conn, l', hturn, -, htracker', hrunning', hfree'⟩ :=
      served_turn hserved hallowed hrunning hfree hwritten.2
    rw [htracker] at hturn
    exact ⟨reg₀, conns ++ [conn], l', hstart, (registry_snoc reg₀ rs r).symm,
      LabelledRuns.runs_snoc_iff.mpr ⟨_, hruns, hturn⟩, htracker', hrunning', hfree'⟩

end Turns

section Shown

variable {E : Type} {S : TrackerSetup (BitVec 64) E} {W : SummaryWire.WireTypes (BitVec 64)}
  {X : FullWire.EngineText E} {digits : List Char} {s : Listener (BitVec 64) E}

theorem show_iteration {key : BitVec 64} (hdigits : NumberText digits)
    (hkey : shown ("show ".toList ++ digits) = some key) (hfree : s.updateLock = false)
    {conn : Connection (BitVec 64)} (ha : conn.accepted = true) {bytes : List UInt8}
    (hr : conn.received = some bytes)
    (hdata : Connection.data bytes = "show ".toList ++ digits) :
    iteration S toKey toValue conn s = .ok { s with
      replies := if conn.replied then
        s.replies ++ [reply digits (CRIoTControl.query S s.dassTracker key == 1)]
      else s.replies } := by
  have hword : commandRgx ("show ".toList ++ digits) = some "show" := rfl
  have hmap : commandsMap S toKey toValue conn "show" =
      some (showCommand S toKey) := by
    simp [commandsMap]
  have hshow := showCommand_shown hdigits hkey { s with updateLock := true } (S := S)
  have hend := settled_reply conn (l := { s with updateLock := true }) rfl
    (reply digits (CRIoTControl.query S s.dassTracker key == 1))
  rw [iteration_eq, tryBlock_eq ha hfree, hr]
  simp only [hdata, hword, hmap, hshow]
  apply hend.trans
  cases s
  cases hfree
  rfl

/-- After a conversation the server replies to `show` with what was asked for last of the key that
it looks up. -/
theorem server_shows {l₀ l : Listener (BitVec 64) E} {reg₀ : BitVec 64 → Option Bool}
    {conns : List (Connection (BitVec 64))} {rs : List (Record (BitVec 64) E)}
    (h : LabelledRuns.Runs (Turn S toKey toValue reg₀) (l₀, []) conns (l, rs))
    (hfree : l₀.updateLock = false)
    (hstart : CRIoTControl.Run S l₀.dassTracker [] l₀.dassTracker reg₀)
    (hdigits : NumberText digits) {b : Bool}
    (hb : ((conns.filterMap (asked toKey toValue)).foldl registered reg₀)
      (toKey (decimal digits % 2 ^ 32)) = some b)
    {conn : Connection (BitVec 64)} (ha : conn.accepted = true) {bytes : List UInt8}
    (hr : conn.received = some bytes)
    (hdata : Connection.data bytes = "show ".toList ++ digits) :
    iteration S toKey toValue conn l = .ok { l with
      replies := if conn.replied then l.replies ++ [reply digits b] else l.replies } := by
  obtain ⟨hfree', hsession, hcommands⟩ := conversation_session h hfree hstart
  obtain ⟨events, hrun⟩ := hsession.run
  rw [← hcommands] at hb
  have hquery := (hrun.answers (toKey (decimal digits % 2 ^ 32))).2 b hb
  rw [show_iteration hdigits hdigits.shown hfree' ha hr hdata, hquery]
  cases b <;> rfl

/-- A device that has read the full summary it joined with and every message since replies to `show`
as the server does, and with what the CA asked for last of a registered key. -/
theorem device_shows {l₀ l : Listener (BitVec 64) E} {reg₀ : BitVec 64 → Option Bool}
    {conns : List (Connection (BitVec 64))} {rs : List (Record (BitVec 64) E)}
    (h : LabelledRuns.Runs (Turn S toKey toValue reg₀) (l₀, []) conns (l, rs))
    (hfree : l₀.updateLock = false)
    (hstart : CRIoTControl.Run S l₀.dassTracker [] l₀.dassTracker reg₀)
    (hsend : Sendable X l₀.dassTracker rs) (hkeep : ∀ r ∈ rs, LosesNoRebuild S r)
    {buffers : List (List UInt8)}
    (hread : ReadExactly ([70] ++ (encode_full X l₀.dassTracker.vo_data).flatten) buffers)
    {msgs : List (List (List UInt8))} (hmsgs : List.Forall₂ (Carries W X) rs msgs)
    (hdigits : NumberText digits) (d₀ : Verifier E) :
    ∃ d d' text, readFullSummary X d₀ buffers = some d ∧ msgs.foldlM (handle S W X) d = some d' ∧
      deviceShow S d' ("show ".toList ++ digits) = some text ∧
      showCommand S toKey ("show ".toList ++ digits) l = .ok (text, l) ∧
      ∀ b, ((conns.filterMap (asked toKey toValue)).foldl registered reg₀)
        (toKey (decimal digits % 2 ^ 32)) = some b → text = reply digits b := by
  obtain ⟨-, hsession, hcommands⟩ := conversation_session h hfree hstart
  obtain ⟨events, hrun⟩ := hsession.run
  have hsnap : Fitting S W X (.full l₀.dassTracker.vo_data) :=
    FleetMessages.Run.fitting hstart hsend.start
  obtain ⟨d, hjoin, htwin⟩ := readFullSummary_twin d₀ hsnap hread
  rw [hstart.start.1] at htwin
  obtain ⟨d', hfold, hcopy⟩ := session_copies hsession hsend hkeep hmsgs htwin
  refine ⟨d, d', _, hjoin, hfold, ?_, showCommand_shown hdigits hdigits.shown l, ?_⟩
  · rw [deviceShow_shown hdigits hdigits.shown, hcopy.query, query_install, CRIoTControl.query]
  · intro b hb
    rw [← hcommands] at hb
    have hquery := (hrun.answers (toKey (decimal digits % 2 ^ 32))).2 b hb
    rw [hquery]
    cases b <;> rfl

end Shown

def textBytes (text : String) : List UInt8 := text.toList.map fun c => UInt8.ofNat c.toNat

theorem conversation_run : ∃ (l₀ l : Listener (BitVec 64) ℕ) (reg₀ : BitVec 64 → Option Bool)
    (conns : List (Connection (BitVec 64))) (rs : List (Record (BitVec 64) ℕ))
    (buffers : List (List UInt8)) (msgs : List (List (List UInt8))),
    LabelledRuns.Runs (Turn serverTracker toKey toValue reg₀) (l₀, []) conns (l, rs) ∧
    l₀.updateLock = false ∧
    CRIoTControl.Run serverTracker l₀.dassTracker [] l₀.dassTracker reg₀ ∧
    Sendable unaryText l₀.dassTracker rs ∧ (∀ r ∈ rs, LosesNoRebuild serverTracker r) ∧
    ReadExactly ([70] ++ (encode_full unaryText l₀.dassTracker.vo_data).flatten) buffers ∧
    List.Forall₂ (Carries serverTypes unaryText) rs msgs ∧
    conns.filterMap (asked toKey toValue) = [.add (18, 0), .add (20, 1)] := by
  obtain ⟨c₀, r₁, r₂, s, reg, -, hsession, hsend, h₁, h₂, -⟩ := fleetRun_run
  have hwritten : ∀ r ∈ [r₁, r₂], Written toKey toValue r.command := by
    intro r hr
    rcases List.mem_pair.mp hr with rfl | rfl
    · rw [h₁]
      exact ⟨textBytes "add 18 0", "add", by decide, by decide, by decide⟩
    · rw [h₂]
      exact ⟨textBytes "add 20 1", "add", by decide, by decide, by decide⟩
  obtain ⟨reg₀, conns, l, hstart, -, hruns, -⟩ := session_conversation hsession hwritten
  obtain ⟨-, -, hcommands⟩ := conversation_session hruns rfl hstart
  obtain ⟨-, hfits⟩ := Session.fitting (W := serverTypes) hsession hsend
  have hcarries : ∀ r ∈ [r₁, r₂], ∃ msg, Carries serverTypes unaryText r msg := by
    intro r hr
    obtain ⟨p, hp⟩ := (hfits r hr).payload
    exact ⟨_, p, hp, exactly_one p⟩
  obtain ⟨msg₁, hmsg₁⟩ := hcarries r₁ (by simp)
  obtain ⟨msg₂, hmsg₂⟩ := hcarries r₂ (by simp)
  refine ⟨_, l, reg₀, conns, _, _, [msg₁, msg₂], hruns, rfl, hstart, hsend, additions_keep h₁ h₂,
    exactly_one _, .cons hmsg₁ (.cons hmsg₂ .nil), ?_⟩
  rw [← hcommands, List.map_cons, List.map_cons, h₁, h₂]
  rfl

theorem server_shows_twenty : ∃ (l₀ l : Listener (BitVec 64) ℕ) (reg₀ : BitVec 64 → Option Bool)
    (conns : List (Connection (BitVec 64))) (rs : List (Record (BitVec 64) ℕ))
    (conn : Connection (BitVec 64)),
    LabelledRuns.Runs (Turn serverTracker toKey toValue reg₀) (l₀, []) conns (l, rs) ∧
    conns.filterMap (asked toKey toValue) = [.add (18, 0), .add (20, 1)] ∧
    iteration serverTracker toKey toValue conn l =
      .ok { l with replies := l.replies ++ ["20 is revoked\n"] } := by
  obtain ⟨l₀, l, reg₀, conns, rs, buffers, msgs, hruns, hfree, hstart, -, -, -, -, hcommands⟩ :=
    conversation_run
  let conn : Connection (BitVec 64) :=
    ⟨true, some (textBytes "show 20"), true, true, 0, [], [], "", fun _ => ""⟩
  have hb : ((conns.filterMap (asked toKey toValue)).foldl registered reg₀)
      (toKey (decimal "20".toList % 2 ^ 32)) = some true := by
    rw [hcommands]
    rfl
  have ha : conn.accepted = true := rfl
  exact ⟨l₀, l, reg₀, conns, rs, conn, hruns, hcommands, server_shows hruns hfree hstart
    (.of_all (by decide) (by decide) (by decide)) hb ha rfl (by decide)⟩

theorem device_shows_twenty : ∃ (l₀ l : Listener (BitVec 64) ℕ) (reg₀ : BitVec 64 → Option Bool)
    (conns : List (Connection (BitVec 64))) (rs : List (Record (BitVec 64) ℕ))
    (buffers : List (List UInt8)) (msgs : List (List (List UInt8))),
    LabelledRuns.Runs (Turn serverTracker toKey toValue reg₀) (l₀, []) conns (l, rs) ∧
    conns.filterMap (asked toKey toValue) = [.add (18, 0), .add (20, 1)] ∧
    List.Forall₂ (Carries serverTypes unaryText) rs msgs ∧
    ∀ d₀ : Verifier ℕ, ∃ d d', readFullSummary unaryText d₀ buffers = some d ∧
      msgs.foldlM (handle serverTracker serverTypes unaryText) d = some d' ∧
      deviceShow serverTracker d' "show 20".toList = some "20 is revoked\n" ∧
      showCommand serverTracker toKey "show 20".toList l = .ok ("20 is revoked\n", l) := by
  obtain ⟨l₀, l, reg₀, conns, rs, buffers, msgs, hruns, hfree, hstart, hsend, hkeep, hread, hmsgs,
    hcommands⟩ := conversation_run
  have hb : ((conns.filterMap (asked toKey toValue)).foldl registered reg₀)
      (toKey (decimal "20".toList % 2 ^ 32)) = some true := by
    rw [hcommands]
    rfl
  have hdigits : NumberText "20".toList := .of_all (by decide) (by decide) (by decide)
  refine ⟨l₀, l, reg₀, conns, rs, buffers, msgs, hruns, hcommands, hmsgs, fun d₀ => ?_⟩
  obtain ⟨d, d', text, hjoin, hfold, hdevice, hserver, htext⟩ :=
    device_shows hruns hfree hstart hsend hkeep hread hmsgs hdigits d₀
  obtain rfl := htext true hb
  exact ⟨d, d', hjoin, hfold, hdevice, hserver⟩

end CommandTexts
