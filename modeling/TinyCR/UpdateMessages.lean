import TinyCR.DeviceAgreement
import TinyCR.FullUpdates
import TinyCR.MessageFraming

/-! # Updates on the wire

What `sendFullUpdate` and `sendSummaryUpdate` write to a socket, and what the client makes of the
buffers it gets. Its verifier stays a twin of the one that is given the values themselves. -/
namespace UpdateMessages

open OthelloInvariant VacuumFilter DASSTracker TrackerInvariant TrackerRun DASSVerifier
  CRIoTControl SummaryWire FullWire FullUpdates TinyCRServer MessageFraming FilterCopy

variable {K E : Type}

/-- The bytes before "finish"; `none` is the exception of `encode_batch_summary`. -/
def payload (W : WireTypes K) (X : EngineText E) : Update K E → Option (List UInt8)
  | .full vo_data => some ([70] ++ (encode_full X vo_data).flatten)
  | .summary flipped_indexes kvs actions => encode_batch_summary W flipped_indexes kvs actions

section Client

variable (S : TrackerSetup K E) (W : WireTypes K) (X : EngineText E)

def dassVerifier : Device K (Verifier E) where
  full := decode_full X
  perform := TinyCRServer.perform S

/-- The device asks for its first summary. What is left in the socket is dropped with it. -/
def readFullSummary (d : Verifier E) (buffers : List (List UInt8)) : Option (Verifier E) := do
  let (msg, _) ← readMessage [] buffers
  decode_full X d msg

/-- One connection of the loop, and what is sent back. -/
def listenForUpdates (d : Verifier E) (buffers : List (List UInt8)) :
    Option (String × Verifier E) := do
  let (msg, _) ← readMessage [] buffers
  let d ← handleMessage W (dassVerifier S X) d msg
  return (if msg[0]? = some 70 then "FullDone" else "SummaryDone", d)

end Client

def expected : Update K E → String
  | .full _ => "FullDone"
  | .summary .. => "SummaryDone"

/-- The counts and fields of the update fit the places the message has for them. -/
def Fitting (S : TrackerSetup K E) (W : WireTypes K) (X : EngineText E) : Update K E → Prop
  | .full vo_data => InTypes vo_data ∧ fullLength X vo_data ≤ 2 ^ 32 ∧ Sound S.hash vo_data.vf
  | .summary flipped_indexes kvs actions =>
    kvs.length = actions.length ∧ (∀ kv ∈ kvs, kv.2 < 256 ^ W.valueSize) ∧
      (∀ i ∈ flipped_indexes, i < 2 ^ 32) ∧ actions.length < 256 ∧ actions.length ≠ 70 ∧
      (actions = [] ∨ flipped_indexes.length < 256)

variable {S : TrackerSetup K E} {W : WireTypes K} {X : EngineText E} {u : Update K E}
  {d d' : Verifier E} {p : List UInt8} {buffers : List (List UInt8)}

theorem Fitting.payload (h : Fitting S W X u) : ∃ p, payload W X u = some p := by
  cases u with
  | full => exact ⟨_, rfl⟩
  | summary flipped_indexes kvs actions => exact ⟨_, if_neg (not_not.mpr h.1)⟩

theorem readMessage_exactly (h : ReadExactly p buffers) :
    readMessage [] buffers = some (p ++ finish, []) := h

theorem Twin.perform (h : Twin S.hash d d') (e : Entry K) :
    Option.Rel (Twin S.hash) (TinyCRServer.perform S d e) (TinyCRServer.perform S d' e) := by
  rw [TinyCRServer.perform, TinyCRServer.perform]
  split
  · exact h.insert e.kv e.flipped_indexes
  split
  · exact .some h
  split
  · exact .some (h.setValue e.kv e.flipped_indexes)
  · exact .some h

theorem Twin.foldlM_perform (h : Twin S.hash d d') (l : List (Entry K)) :
    Option.Rel (Twin S.hash) (l.foldlM (TinyCRServer.perform S) d)
      (l.foldlM (TinyCRServer.perform S) d') := by
  induction l generalizing d d' with
  | nil => exact .some h
  | cons e l ih =>
    have hstep := Twin.perform h e
    rw [List.foldlM_cons, List.foldlM_cons]
    generalize TinyCRServer.perform S d e = r at *
    generalize TinyCRServer.perform S d' e = r' at *
    cases hstep with
    | none => exact .none
    | some hnext => exact ih hnext

theorem readFullSummary_twin {vo_data : Verifier E} (d' : Verifier E)
    (hfit : Fitting S W X (.full vo_data))
    (hread : ReadExactly ([70] ++ (encode_full X vo_data).flatten) buffers) :
    ∃ d, readFullSummary X d' buffers = some d ∧ Twin S.hash vo_data d := by
  obtain ⟨hin, hlen, hsound⟩ := hfit
  refine ⟨received d' vo_data, ?_, received_twin hsound⟩
  rw [readFullSummary, readMessage_exactly hread]
  exact decode_fullMessage hin hlen

/-- One update: the client that reads its bytes does what one does that is given the values, and
replies what the server waits for. -/
theorem listenForUpdates_twin (h : Twin S.hash d d') (hfit : Fitting S W X u)
    (hpay : payload W X u = some p) (hread : ReadExactly p buffers) :
    Option.Rel (fun d r => r.1 = expected u ∧ Twin S.hash d r.2) (receive S d u)
      (listenForUpdates S W X d' buffers) := by
  rw [listenForUpdates, readMessage_exactly hread]
  simp only [Option.bind_eq_bind, Option.bind_some]
  cases u with
  | full vo_data =>
    obtain ⟨hin, hlen, hsound⟩ := hfit
    obtain rfl := Option.some.inj hpay
    have hdecode : handleMessage W (dassVerifier S X) d'
        ([70] ++ (encode_full X vo_data).flatten ++ finish) = some (received d' vo_data) :=
      decode_fullMessage hin hlen
    rw [hdecode]
    exact .some ⟨rfl, received_twin hsound⟩
  | summary flipped_indexes kvs actions =>
    obtain ⟨hlen, hv, hf, hN, h70, hM⟩ := hfit
    obtain ⟨msg, hmsg, htrip⟩ := handle_summary (W := W) hlen hv hf hN h70 hM
    obtain rfl := Option.some.inj (hmsg.symm.trans hpay)
    have hfirst : (msg ++ finish)[0]? ≠ some 70 := by
      rw [encode_batch_summary, if_neg (not_not.mpr hlen)] at hmsg
      rw [← Option.some.inj hmsg]
      intro hc
      have hcount : UInt8.ofNat actions.length = 70 := Option.some.inj hc
      apply h70
      have hval := congrArg UInt8.toNat hcount
      rwa [UInt8.toNat_ofNat', Nat.mod_eq_of_lt hN] at hval
    rw [htrip _ (dassVerifier S X) d', if_neg hfirst]
    have htwin := Twin.foldlM_perform (S := S) h (entries flipped_indexes kvs actions)
    have hsame : (dassVerifier S X).perform = TinyCRServer.perform S := rfl
    rw [hsame, receive]
    generalize (entries flipped_indexes kvs actions).foldlM (TinyCRServer.perform S) d = r at *
    generalize (entries flipped_indexes kvs actions).foldlM (TinyCRServer.perform S) d' = r' at *
    cases htwin with
    | none => exact .none
    | some hnext => exact .some ⟨rfl, hnext⟩

end UpdateMessages
