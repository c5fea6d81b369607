import TinyCR.CriticalSections
import TinyCR.FleetAgreement

/-! # The threads of a client

`listenForUpdates` holds `queryLock` from the first buffer of a message to the reply, and
`queryCertificate` holds it around its query. A query therefore never sees a message that has been
half performed: it is answered as the server answers after the last message. -/
namespace ClientThreads

open CriticalSections LabelledRuns DASSTracker DASSVerifier CRIoTControl SummaryWire FullWire
  TinyCRServer DeviceAgreement MessageFraming UpdateMessages FleetMessages FleetAgreement
  ByteReader

open CertificateKeys (serverTracker)

variable {K E : Type}

inductive Thread
  | listenForUpdates
  | queryCertificate (id : ℕ)
  deriving DecidableEq, Repr

/-- Where a thread is inside its section; `buffers` is what `recv` has returned. -/
inductive Place (K : Type)
  | receiving (buffers : List (List UInt8))
  | received (buffers : List (List UInt8))
  | performing (buffers : List (List UInt8)) (n offset : ℕ)
  | decoded (buffers : List (List UInt8)) (reply : String)
  | asked (key : K)
  | answering (key : K) (result : Bool)

inductive Event (K : Type)
  | updated (buffers : List (List UInt8)) (reply : String)
  | answered (key : K) (result : Bool)

section Threads

variable (S : TrackerSetup K E) (W : WireTypes K) (X : EngineText E)

def entered : Thread → Place K → Prop
  | .listenForUpdates, p => p = .receiving []
  | .queryCertificate _, p => ∃ key, p = .asked key

/-- The statements between `lock` and `unlock`; the actions of a summary are performed one by
one. -/
inductive Move : Thread → Place K × Verifier E → Place K × Verifier E → Prop
  | recv {d : Verifier E} {buffers : List (List UInt8)} {data : List UInt8} :
      endsWithFinish data = some false →
      Move .listenForUpdates (.receiving buffers, d) (.receiving (buffers ++ [data]), d)
  | last {d : Verifier E} {buffers : List (List UInt8)} {data : List UInt8} :
      endsWithFinish data = some true →
      Move .listenForUpdates (.receiving buffers, d) (.received (buffers ++ [data]), d)
  | full {d d' : Verifier E} {buffers : List (List UInt8)} : buffers.flatten[0]? = some 70 →
      decode_full X d buffers.flatten = some d' →
      Move .listenForUpdates (.received buffers, d) (.decoded buffers "FullDone", d')
  | summary {d : Verifier E} {buffers : List (List UInt8)} {num_actions : UInt8} :
      buffers.flatten[0]? = some num_actions → num_actions ≠ 70 →
      Move .listenForUpdates (.received buffers, d) (.performing buffers num_actions.toNat 1, d)
  | action {d d' : Verifier E} {buffers : List (List UInt8)} {n offset offset' : ℕ}
      {e : Entry K} : decode_sub_summary W buffers.flatten offset = some (e, offset') →
      TinyCRServer.perform S d e = some d' →
      Move .listenForUpdates (.performing buffers (n + 1) offset, d)
        (.performing buffers n offset', d')
  | performed {d : Verifier E} {buffers : List (List UInt8)} {offset : ℕ} :
      Move .listenForUpdates (.performing buffers 0 offset, d) (.decoded buffers "SummaryDone", d)
  | query {d : Verifier E} {id : ℕ} {key : K} :
      Move (.queryCertificate id) (.asked key, d)
        (.answering key (DASSVerifier.query S d key == 1), d)

def released : Thread → Place K → Event K → Prop
  | .listenForUpdates, p, e => ∃ buffers reply, p = .decoded buffers reply ∧
      e = .updated buffers reply
  | .queryCertificate _, p, e => ∃ key result, p = .answering key result ∧
      e = .answered key result

/-- The reply throws, and the exception leaves the loop. -/
def throws : Thread → Place K → Prop
  | .listenForUpdates, p => ∃ buffers reply, p = .decoded buffers reply
  | .queryCertificate _, _ => False

def threads : Sections Thread (Place K) (Verifier E) (Event K) where
  enter := entered
  move := Move S W X
  leave := released
  stop := throws
  stray _ := False

def Handles (d : Verifier E) (d' : Verifier E) : Event K → Prop
  | .updated buffers reply => listenForUpdates S W X d buffers = some (reply, d')
  | .answered key result => d' = d ∧ result = (DASSVerifier.query S d key == 1)

def At (d : Verifier E) : Place K × Verifier E → Prop
  | (.receiving buffers, d') => d' = d ∧
      ∀ rest, readMessage [] (buffers ++ rest) = readMessage buffers.flatten rest
  | (.received buffers, d') => d' = d ∧ readMessage [] buffers = some (buffers.flatten, [])
  | (.performing buffers n offset, d') => readMessage [] buffers = some (buffers.flatten, []) ∧
      ∃ num_actions : UInt8, buffers.flatten[0]? = some num_actions ∧ num_actions ≠ 70 ∧
        performActions W (TinyCRServer.perform S) buffers.flatten num_actions.toNat d 1 =
          performActions W (TinyCRServer.perform S) buffers.flatten n d' offset
  | (.decoded buffers reply, d') => listenForUpdates S W X d buffers = some (reply, d')
  | (.asked _, d') => d' = d
  | (.answering key result, d') => d' = d ∧ result = (DASSVerifier.query S d key == 1)

end Threads

def messages (l : List (Thread × Event K)) : List (List (List UInt8)) :=
  l.filterMap fun
    | (_, .updated buffers _) => some buffers
    | (_, .answered ..) => none

variable {S : TrackerSetup K E} {W : WireTypes K} {X : EngineText E} {d d' : Verifier E}

/-- A message is handled as a whole. -/
def handle (S : TrackerSetup K E) (W : WireTypes K) (X : EngineText E) (d : Verifier E)
    (buffers : List (List UInt8)) : Option (Verifier E) :=
  (listenForUpdates S W X d buffers).map Prod.snd

theorem entered_at {i : Thread} {p : Place K} (h : entered i p) : At S W X d (p, d) := by
  cases i with
  | listenForUpdates =>
    obtain rfl : p = .receiving [] := h
    exact ⟨rfl, fun rest => rfl⟩
  | queryCertificate =>
    obtain ⟨key, rfl⟩ := h
    rfl

theorem listenForUpdates_summary {buffers : List (List UInt8)} {num_actions : UInt8}
    (hread : readMessage [] buffers = some (buffers.flatten, []))
    (hfirst : buffers.flatten[0]? = some num_actions) (hne : num_actions ≠ 70) :
    listenForUpdates S W X d buffers =
      (performActions W (TinyCRServer.perform S) buffers.flatten num_actions.toNat d 1).map
        fun r => ("SummaryDone", r.1) := by
  have h70 : buffers.flatten[0]? ≠ some 70 := by
    rw [hfirst]
    exact fun hc => hne (Option.some.inj hc)
  simp only [listenForUpdates, hread, handleMessage, hfirst, decode_batch_summary, if_neg hne,
    Option.bind_eq_bind, Option.bind_some]
  have hsame : (dassVerifier S X).perform = TinyCRServer.perform S := rfl
  rw [hsame, if_neg (fun hc => hne (Option.some.inj hc))]
  cases performActions W (TinyCRServer.perform S) buffers.flatten num_actions.toNat d 1 <;> rfl

theorem listenForUpdates_full {buffers : List (List UInt8)}
    (hread : readMessage [] buffers = some (buffers.flatten, []))
    (hfirst : buffers.flatten[0]? = some 70)
    (hdecode : decode_full X d buffers.flatten = some d') :
    listenForUpdates S W X d buffers = some ("FullDone", d') := by
  have hfull : (dassVerifier S X).full d buffers.flatten = some d' := hdecode
  simp only [listenForUpdates, hread, handleMessage, hfirst, Option.bind_eq_bind, Option.bind_some,
    hfull]
  rfl

theorem Move.preserves {i : Thread} {x y : Place K × Verifier E} (h : Move S W X i x y)
    (hx : At S W X d x) : At S W X d y := by
  cases h with
  | recv hend =>
    obtain ⟨rfl, hread⟩ := hx
    refine ⟨rfl, fun rest => ?_⟩
    rw [List.append_assoc, hread, List.singleton_append, readMessage, hend]
    simp
  | last hend =>
    obtain ⟨rfl, hread⟩ := hx
    refine ⟨rfl, ?_⟩
    rw [hread, readMessage, hend]
    simp
  | full hfirst hdecode =>
    obtain ⟨rfl, hread⟩ := hx
    exact listenForUpdates_full hread hfirst hdecode
  | summary hfirst hne =>
    obtain ⟨rfl, hread⟩ := hx
    exact ⟨hread, _, hfirst, hne, rfl⟩
  | action hdecode hperform =>
    obtain ⟨hread, num_actions, hfirst, hne, hleft⟩ := hx
    refine ⟨hread, num_actions, hfirst, hne, hleft.trans ?_⟩
    rw [performActions, bind_eq hdecode, lift_bind_eq, hperform]
    rfl
  | performed =>
    obtain ⟨hread, num_actions, hfirst, hne, hleft⟩ := hx
    have hall := listenForUpdates_summary (S := S) (W := W) (X := X) (d := d) hread hfirst hne
    rw [hleft] at hall
    exact hall
  | query =>
    obtain rfl : _ = d := hx
    exact ⟨rfl, rfl⟩

theorem moves_preserve {i : Thread} {x y : Place K × Verifier E}
    (h : Relation.ReflTransGen (Move S W X i) x y) (hx : At S W X d x) : At S W X d y := by
  induction h with
  | refl => exact hx
  | tail _ hmove ih => exact hmove.preserves ih

theorem whole_handles {i : Thread} {e : Event K} (h : Whole (threads S W X) d (i, e) d') :
    Handles S W X d d' e := by
  obtain ⟨p, p', henter, hmoves, hleave⟩ := h
  have hat : At S W X d (p', d') := moves_preserve hmoves (entered_at henter)
  cases i with
  | listenForUpdates =>
    obtain ⟨buffers, reply, rfl, rfl⟩ := hleave
    exact hat
  | queryCertificate =>
    obtain ⟨key, result, rfl, rfl⟩ := hleave
    exact hat

theorem wholes_handle {l : List (Thread × Event K)} (h : Runs (Whole (threads S W X)) d l d') :
    (messages l).foldlM (handle S W X) d = some d' := by
  induction h with
  | nil => rfl
  | @cons s s₁ s' e l hwhole _ ih =>
    obtain ⟨i, e⟩ := e
    have hhandles := whole_handles hwhole
    cases e with
    | updated buffers reply =>
      have hone : handle S W X s buffers = some s₁ := congrArg (Option.map Prod.snd) hhandles
      have hcons : messages ((i, .updated buffers reply) :: l) = buffers :: messages l := rfl
      rw [hcons, List.foldlM_cons, hone]
      exact ih
    | answered key result =>
      obtain ⟨rfl, -⟩ := hhandles
      exact ih

theorem receives {got buffers : List (List UInt8)} {msg : List UInt8}
    (h : readMessage got.flatten buffers = some (msg, [])) :
    Relation.ReflTransGen (Move S W X .listenForUpdates) (.receiving got, d)
      (.received (got ++ buffers), d) := by
  induction buffers generalizing got with
  | nil => cases h
  | cons data buffers ih =>
    rw [readMessage] at h
    cases hend : endsWithFinish data with
    | none =>
      rw [hend] at h
      cases h
    | some last =>
      rw [hend] at h
      cases last with
      | true =>
        obtain ⟨-, rfl⟩ := Prod.mk.inj (Option.some.inj h)
        exact .single (.last hend)
      | false =>
        have hrest := @ih (got ++ [data]) (by simpa using h)
        rw [List.append_assoc] at hrest
        exact .head (.recv hend) hrest

theorem performs {buffers : List (List UInt8)} {n offset offset' : ℕ}
    (h : performActions W (TinyCRServer.perform S) buffers.flatten n d offset =
      some (d', offset')) :
    Relation.ReflTransGen (Move S W X .listenForUpdates) (.performing buffers n offset, d)
      (.performing buffers 0 offset', d') := by
  induction n generalizing d offset with
  | zero =>
    obtain ⟨rfl, rfl⟩ := Prod.mk.inj (Option.some.inj h)
    exact .refl
  | succ n ih =>
    obtain ⟨e, o, hdecode, h⟩ := of_bind_some h
    rw [lift_bind_eq] at h
    obtain ⟨d₁, hperform, h⟩ := Option.bind_eq_some_iff.mp h
    exact .head (.action hdecode hperform) (ih h)

theorem update_whole {buffers : List (List UInt8)} {reply : String}
    (hread : readMessage [] buffers = some (buffers.flatten, []))
    (h : listenForUpdates S W X d buffers = some (reply, d')) :
    Whole (threads S W X) d (.listenForUpdates, .updated buffers reply) d' := by
  refine ⟨.receiving [], .decoded buffers reply, rfl, ?_, buffers, reply, rfl, rfl⟩
  refine Relation.ReflTransGen.trans (receives hread) ?_
  rw [List.nil_append]
  have hall := h
  simp only [listenForUpdates, hread, Option.bind_eq_bind, Option.bind_some] at h
  obtain ⟨d₁, hhandle, h⟩ := Option.bind_eq_some_iff.mp h
  obtain ⟨rfl, rfl⟩ := Prod.mk.inj (Option.some.inj h)
  obtain ⟨first, hfirst, hhandle⟩ := Option.bind_eq_some_iff.mp hhandle
  by_cases h70 : first = 70
  · subst h70
    rw [if_pos rfl] at hhandle
    rw [if_pos hfirst]
    exact .single (.full hfirst hhandle)
  · rw [if_neg h70] at hhandle
    rw [if_neg (fun hc => h70 (Option.some.inj (hfirst.symm.trans hc)))]
    obtain ⟨num_actions, hnum, hhandle⟩ := Option.bind_eq_some_iff.mp hhandle
    obtain ⟨⟨d₂, o⟩, hperform, heq⟩ := Option.bind_eq_some_iff.mp hhandle
    obtain rfl := Option.some.inj heq
    have hne : num_actions ≠ 70 := fun hc => h70 (Option.some.inj (hfirst.symm.trans (hc ▸ hnum)))
    exact .head (.summary hnum hne) ((performs hperform).tail .performed)

theorem query_whole (d : Verifier E) (id : ℕ) (key : K) : Whole (threads S W X) d
    (.queryCertificate id, .answered key (DASSVerifier.query S d key == 1)) d :=
  ⟨.asked key, .answering key _, ⟨key, rfl⟩, .single .query, key, _, rfl, rfl⟩

variable {l : List (Label Thread (Event K))} {c : Config Thread (Place K) (Verifier E)}

theorem no_stray (h : Runs (CriticalSections.Step (threads S W X)) (idle d) l c) : NoStray l :=
  Runs.noStray h fun _ => id

/-- Each answer is that of the verifier after the messages that were handled before. -/
theorem answers_whole (h : Runs (CriticalSections.Step (threads S W X)) (idle d) l c)
    {l₁ l₂ : List (Thread × Event K)} {i : Thread} {key : K} {result : Bool}
    (hl : events l = l₁ ++ (i, .answered key result) :: l₂) :
    ∃ d', (messages l₁).foldlM (handle S W X) d = some d' ∧
      result = (DASSVerifier.query S d' key == 1) := by
  obtain ⟨s, hwhole, -⟩ := Runs.serial h (no_stray h)
  rw [hl] at hwhole
  obtain ⟨d', hbefore, hrest⟩ := runs_append_iff.mp hwhole
  obtain ⟨d'', hquery, -⟩ := runs_cons_iff.mp hrest
  exact ⟨d', wholes_handle hbefore, (whole_handles hquery).2⟩

section Sessions

variable [DecidableEq K] [Inhabited K] {c₀ cₛ : ControlVO K E} {rs : List (Record K E)}
  {reg : K → Option Bool}

def Carries (W : WireTypes K) (X : EngineText E) (r : Record K E) (buffers : List (List UInt8)) :
    Prop :=
  ∃ p, payload W X r.update = some p ∧ ReadExactly p buffers

omit [DecidableEq K] [Inhabited K] in
theorem carries_snoc {r : Record K E} {msgs : List (List (List UInt8))}
    (h : List.Forall₂ (Carries W X) (rs ++ [r]) msgs) : ∃ front buffers,
      msgs = front ++ [buffers] ∧ List.Forall₂ (Carries W X) rs front ∧ Carries W X r buffers := by
  induction rs generalizing msgs with
  | nil =>
    obtain ⟨buffers, _, hone, hnil, rfl⟩ := List.forall₂_cons_left_iff.mp h
    obtain rfl := List.forall₂_nil_left_iff.mp hnil
    exact ⟨[], buffers, rfl, .nil, hone⟩
  | cons r' rs ih =>
    obtain ⟨first, rest, hone, hrest, rfl⟩ := List.forall₂_cons_left_iff.mp h
    obtain ⟨front, buffers, rfl, hfront, hlast⟩ := ih hrest
    exact ⟨first :: front, buffers, rfl, .cons hone hfront, hlast⟩

omit [DecidableEq K] [Inhabited K] in
theorem handle_twin {d₀ : Verifier E} {u : Update K E} {p : List UInt8}
    {buffers : List (List UInt8)} (htwin : Twin S.hash d₀ d) (hfit : Fitting S W X u)
    (hpay : payload W X u = some p) (hread : ReadExactly p buffers) :
    Option.Rel (Twin S.hash) (receive S d₀ u) (handle S W X d buffers) := by
  have hone := listenForUpdates_twin htwin hfit hpay hread
  rw [handle]
  generalize receive S d₀ u = v at hone ⊢
  generalize listenForUpdates S W X d buffers = v' at hone ⊢
  cases hone with
  | none => exact .none
  | some hnext => exact .some hnext.2

theorem session_copies (hsession : Session S c₀ rs cₛ reg) (hsend : Sendable X c₀ rs)
    (hkeep : ∀ r ∈ rs, LosesNoRebuild S r) {msgs : List (List (List UInt8))}
    (hmsgs : List.Forall₂ (Carries W X) rs msgs)
    (hd : Twin S.hash (install c₀.vo_control) d) :
    ∃ d', msgs.foldlM (handle S W X) d = some d' ∧ Twin S.hash (install cₛ.vo_control) d' := by
  obtain ⟨-, hfits⟩ := Session.fitting (W := W) hsession hsend
  clear hsend
  induction hsession using Session.command_induction generalizing msgs with
  | start reg hrun =>
    obtain rfl := List.forall₂_nil_left_iff.mp hmsgs
    exact ⟨d, rfl, hd⟩
  | command l c c' cmd u x b reg reg' h h' hx hb hserved ih =>
    obtain ⟨front, buffers, rfl, hfront, hcarries⟩ := carries_snoc hmsgs
    rw [List.forall_mem_append, List.forall_mem_singleton] at hkeep hfits
    obtain ⟨d₁, hfold, htwin⟩ := ih hkeep.1 hfront hfits.1
    obtain ⟨events, hrun⟩ := h.run
    obtain ⟨hcopy, -⟩ := Served.copies hx hserved hkeep.2 hrun.reached.consistent.1.othello
    obtain ⟨p, hpay, hread⟩ := hcarries
    have hone := handle_twin htwin hfits.2 hpay hread
    rw [hcopy] at hone
    generalize hv : handle S W X d₁ buffers = v at hone
    cases hone with
    | some hnext =>
      rename_i d₂
      refine ⟨d₂, ?_, hnext⟩
      rw [List.foldlM_append, hfold]
      exact (bind_pure (handle S W X d₁ buffers)).trans hv

/-- A client that has read its first summary before the first command, and the messages of the
commands since: whatever its threads do in between, a query is answered as the server answers. -/
theorem answers_server (h : Runs (CriticalSections.Step (threads S W X)) (idle d) l c)
    {d₀ : Verifier E} {buffers : List (List UInt8)}
    (hread : ReadExactly ([70] ++ (encode_full X c₀.vo_data).flatten) buffers)
    (hjoin : readFullSummary X d₀ buffers = some d) (hsession : Session S c₀ rs cₛ reg)
    (hsend : Sendable X c₀ rs) (hkeep : ∀ r ∈ rs, LosesNoRebuild S r)
    {l₁ l₂ : List (Thread × Event K)} {i : Thread} {key : K} {result : Bool}
    (hl : events l = l₁ ++ (i, .answered key result) :: l₂)
    (hmsgs : List.Forall₂ (Carries W X) rs (messages l₁)) :
    result = (CRIoTControl.query S cₛ key == 1) ∧ ∀ b, reg key = some b → result = b := by
  obtain ⟨reg₀, hrun₀⟩ := Session.start_run hsession
  have hsnap : Fitting S W X (.full c₀.vo_data) := Run.fitting hrun₀ hsend.start
  obtain ⟨d₁, hd₁, htwin⟩ := readFullSummary_twin d₀ hsnap hread
  obtain rfl := Option.some.inj (hd₁.symm.trans hjoin)
  rw [hrun₀.start.1] at htwin
  obtain ⟨s, hwhole, -⟩ := Runs.serial h (no_stray h)
  rw [hl] at hwhole
  obtain ⟨d₂, hbefore, hrest⟩ := runs_append_iff.mp hwhole
  obtain ⟨d₃, hquery, -⟩ := runs_cons_iff.mp hrest
  obtain ⟨d₄, hfold, hcopy⟩ := session_copies hsession hsend hkeep hmsgs htwin
  obtain rfl := Option.some.inj (hfold.symm.trans (wholes_handle hbefore))
  have hresult : result = (CRIoTControl.query S cₛ key == 1) := by
    rw [(whole_handles hquery).2, hcopy.query key, query_install]
    rfl
  refine ⟨hresult, fun b hb => ?_⟩
  obtain ⟨events, hrun⟩ := hsession.run
  rw [hresult, (hrun.answers key).2 b hb]
  cases b <;> rfl

end Sessions

/-- If a reply cannot be sent, its thread ends with the lock held: no query is answered any
more. -/
theorem reply_lost (h : Runs (CriticalSections.Step (threads S W X)) (idle d) l c)
    {l₁ l₂ : List (Label Thread (Event K))} {i : Thread} (hl : l = l₁ ++ .stop i :: l₂) :
    i = .listenForUpdates ∧ events l = events l₁ ∧ l₂ = [] := by
  subst hl
  obtain ⟨rfl, p, hthrows⟩ := Runs.after_stop h (no_stray h)
  refine ⟨?_, events_quiet l₁ rfl, rfl⟩
  cases i with
  | listenForUpdates => rfl
  | queryCertificate => exact hthrows.elim

theorem reply_lost_empty : ∃ (l : List (Label Thread (Event (BitVec 64))))
    (c : Config Thread (Place (BitVec 64)) (Verifier ℕ)),
    Runs (CriticalSections.Step (threads serverTracker serverTypes unaryText))
      (idle (install blankTracker)) (l ++ [.stop .listenForUpdates]) c ∧
    events (l ++ [.stop .listenForUpdates]) = events l := by
  have hend : endsWithFinish ([0] ++ finish) = some true :=
    (endsWithFinish_true_iff _).mpr (List.suffix_append _ _)
  have hlast : Move serverTracker serverTypes unaryText .listenForUpdates
      (.receiving [], install blankTracker) (.received [[0] ++ finish], install blankTracker) :=
    .last hend
  have hsummary : Move serverTracker serverTypes unaryText .listenForUpdates
      (.received [[0] ++ finish], install blankTracker)
      (.performing [[0] ++ finish] 0 1, install blankTracker) :=
    .summary rfl (show 0 ≠ 70 by decide)
  let P : Sections Thread (Place (BitVec 64)) (Verifier ℕ) (Event (BitVec 64)) :=
    threads serverTracker serverTypes unaryText
  have hlock : CriticalSections.Step P (idle (install blankTracker)) (.lock .listenForUpdates)
      (alone .listenForUpdates (.receiving [], install blankTracker)) := .lock rfl rfl rfl
  have hrun : Runs (CriticalSections.Step P) (idle (install blankTracker))
      ([.lock .listenForUpdates, .move .listenForUpdates, .move .listenForUpdates,
        .move .listenForUpdates] ++ [.stop .listenForUpdates]) _ :=
    .cons hlock (.cons (alone_moves (P := P) hlast) (.cons (alone_moves (P := P) hsummary)
      (.cons (alone_moves (P := P) .performed)
        (.cons (.stop (alone_inside _) ⟨_, _, rfl⟩) (.nil _)))))
  exact ⟨_, _, hrun, (reply_lost hrun rfl).2.1⟩

theorem messages_run {msgs : List (List (List UInt8))}
    (h : msgs.foldlM (handle S W X) d = some d')
    (hread : ∀ buffers ∈ msgs, readMessage [] buffers = some (buffers.flatten, [])) :
    ∃ es, Runs (Whole (threads S W X)) d es d' ∧ messages es = msgs := by
  induction msgs generalizing d with
  | nil =>
    obtain rfl := Option.some.inj h
    exact ⟨[], .nil d, rfl⟩
  | cons buffers msgs ih =>
    rw [List.forall_mem_cons] at hread
    rw [List.foldlM_cons] at h
    obtain ⟨d₁, hhandle, h⟩ := Option.bind_eq_some_iff.mp h
    obtain ⟨⟨reply, d₂⟩, hlisten, rfl⟩ := Option.map_eq_some_iff.mp hhandle
    obtain ⟨es, hrun, rfl⟩ := ih h hread.2
    exact ⟨_, .cons (update_whole hread.1 hlisten) hrun, rfl⟩

theorem clientRun : ∃ (c₀ cₛ : ControlVO (BitVec 64) ℕ) (rs : List (Record (BitVec 64) ℕ))
    (reg : BitVec 64 → Option Bool) (buffers : List (List UInt8)) (d : Verifier ℕ)
    (l : List (Label Thread (Event (BitVec 64)))) (c : Config Thread (Place (BitVec 64))
      (Verifier ℕ)) (es : List (Thread × Event (BitVec 64))) (result : Bool),
    Session serverTracker c₀ rs cₛ reg ∧ Sendable unaryText c₀ rs ∧
    (∀ r ∈ rs, LosesNoRebuild serverTracker r) ∧ reg 20 = some true ∧
    ReadExactly ([70] ++ (encode_full unaryText c₀.vo_data).flatten) buffers ∧
    readFullSummary unaryText (install blankTracker) buffers = some d ∧
    Runs (CriticalSections.Step (threads serverTracker serverTypes unaryText)) (idle d) l c ∧
    events l = es ++ [(.queryCertificate 0, .answered 20 result)] ∧
    List.Forall₂ (Carries serverTypes unaryText) rs (messages es) := by
  obtain ⟨c₀, r₁, r₂, s, reg, -, hsession, hsend, h₁, h₂, -, -, -, h20⟩ := fleetRun_run
  have hkeep := additions_keep h₁ h₂
  obtain ⟨reg₀, hrun₀⟩ := Session.start_run hsession
  have hsnap : Fitting serverTracker serverTypes unaryText (.full c₀.vo_data) :=
    Run.fitting hrun₀ hsend.start
  have hread := exactly_one ([70] ++ (encode_full unaryText c₀.vo_data).flatten)
  obtain ⟨d, hd, htwin⟩ := readFullSummary_twin (install blankTracker) hsnap hread
  rw [hrun₀.start.1] at htwin
  obtain ⟨-, hfits⟩ := Session.fitting (W := serverTypes) hsession hsend
  obtain ⟨p₁, hp₁⟩ := (hfits r₁ (by simp)).payload
  obtain ⟨p₂, hp₂⟩ := (hfits r₂ (by simp)).payload
  have hmsgs : List.Forall₂ (Carries serverTypes unaryText) [r₁, r₂]
      [[p₁ ++ finish], [p₂ ++ finish]] :=
    .cons ⟨p₁, hp₁, exactly_one p₁⟩ (.cons ⟨p₂, hp₂, exactly_one p₂⟩ .nil)
  obtain ⟨d', hfold, -⟩ := session_copies hsession hsend hkeep hmsgs htwin
  obtain ⟨es, hrun, hes⟩ := messages_run hfold (by
    intro buffers hb
    have hone : ∀ p, readMessage [] [p ++ finish] = some ([p ++ finish].flatten, []) := fun p => by
      rw [List.flatten_singleton]
      exact readMessage_exactly (exactly_one p)
    rcases List.mem_pair.mp hb with rfl | rfl
    · exact hone p₁
    · exact hone p₂)
  obtain ⟨l, hl, hevents, -⟩ := serial_iff.mpr
    (runs_snoc_iff.mpr ⟨d', hrun, query_whole d' 0 20⟩)
  exact ⟨c₀, _, _, reg, _, d, l, _, es, _, hsession, hsend, hkeep, h20, hread, hd, hl, hevents,
    hes ▸ hmsgs⟩

theorem answers_server_one : ∃ (d : Verifier ℕ) (l : List (Label Thread (Event (BitVec 64))))
    (c : Config Thread (Place (BitVec 64)) (Verifier ℕ)) (es : List (Thread × Event (BitVec 64))),
    Runs (CriticalSections.Step (threads serverTracker serverTypes unaryText)) (idle d) l c ∧
    events l = es ++ [(.queryCertificate 0, .answered 20 true)] := by
  obtain ⟨c₀, cₛ, rs, reg, buffers, d, l, c, es, result, hsession, hsend, hkeep, h20, hread, hd,
    hrun, hevents, hmsgs⟩ := clientRun
  have hanswer := answers_server hrun hread hd hsession hsend hkeep hevents hmsgs
  obtain rfl := hanswer.2 true h20
  exact ⟨d, l, c, es, hrun, hevents⟩

theorem answers_whole_one : ∃ (d d' : Verifier ℕ) (l : List (Label Thread (Event (BitVec 64))))
    (c : Config Thread (Place (BitVec 64)) (Verifier ℕ)) (es : List (Thread × Event (BitVec 64)))
    (result : Bool),
    Runs (CriticalSections.Step (threads serverTracker serverTypes unaryText)) (idle d) l c ∧
    events l = es ++ [(.queryCertificate 0, .answered 20 result)] ∧
    (messages es).foldlM (handle serverTracker serverTypes unaryText) d = some d' ∧
    result = (DASSVerifier.query serverTracker d' 20 == 1) := by
  obtain ⟨c₀, cₛ, rs, reg, buffers, d, l, c, es, result, -, -, -, -, -, -, hrun, hevents, -⟩ :=
    clientRun
  obtain ⟨d', hfold, hresult⟩ := answers_whole hrun hevents
  exact ⟨d, d', l, c, es, result, hrun, hevents, hfold, hresult⟩

end ClientThreads
