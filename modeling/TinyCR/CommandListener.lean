import TinyCR.MessageFraming
import TinyCR.TinyCRServer

/-! # Listening for commands

The loop of `listenForCACommands` and the command handlers it calls, with the lock it takes for
every connection. Exceptions are the errors of `Except`. -/
namespace CommandListener

open ControlPlaneOthello VacuumFilter DASSTracker DASSVerifier CRIoTControl TinyCRServer

open MessageFraming (MAXRECV)

variable {K E : Type}

/-- `\w` -/
def isWord (c : Char) : Bool := c.isAlphanum || c == '_'

/-- `(^\w+)`, where `^` is the start of the data. -/
def commandRgx (data : List Char) : Option String :=
  match data.takeWhile isWord with
  | [] => none
  | word => some (String.ofList word)

/-- A blank and `([0-9]+)`, and what follows. -/
def number : List Char → Option (List Char × List Char)
  | ' ' :: data =>
    match data.takeWhile Char.isDigit with
    | [] => none
    | digits => some (digits, data.dropWhile Char.isDigit)
  | _ => none

/-- `([a-z]{3})`, and what follows. -/
def threeLetters : List Char → Option (List Char)
  | a :: b :: c :: data =>
    if a.isLower && b.isLower && c.isLower then some data else none
  | _ => none

/-- The last of at most `n` repetitions of `(?: ([0-9]+) ([0-9]+))+`. -/
def lastPair : ℕ → List Char → Option (List Char × List Char)
  | 0, _ => none
  | n + 1, data => do
    let (k, data) ← number data
    let (v, data) ← number data
    return (lastPair n data).getD (k, v)

/-- `regex_search`: the leftmost match. -/
def search {α : Type} (rgx : List Char → Option α) : List Char → Option α
  | [] => rgx []
  | c :: data => (rgx (c :: data)).or (search rgx data)

/-- `([a-z]{3})(?: ([0-9]+) ([0-9]+))+` -/
def addRgx : List Char → Option (List Char × List Char) :=
  search fun data => do
    let data ← threeLetters data
    lastPair data.length data

example : addRgx "add 1 0 27 1".toList = some ("27".toList, "1".toList) := by decide

/-- `([a-z]{3}) ([0-9]+)` -/
def keyRgx : List Char → Option (List Char) :=
  search fun data => do
    let data ← threeLetters data
    let (k, _) ← number data
    return k

/-- `show ([0-9]+)` -/
def showRgx : List Char → Option (List Char) :=
  search fun data =>
    match data with
    | 's' :: 'h' :: 'o' :: 'w' :: data => (number data).map Prod.fst
    | _ => none

/-- `^\w+ (\w+)` -/
def statisticsRgx (data : List Char) : Option String :=
  match data.takeWhile isWord, data.dropWhile isWord with
  | _ :: _, ' ' :: data => commandRgx data
  | _, _ => none

def decimal (digits : List Char) : ℕ := digits.foldl (fun n c => 10 * n + (c.toNat - 48)) 0

/-- What comes from outside while one connection is served: whether `accept` succeeds, the bytes
`recv` gets (none if it fails), whether the reply is sent, whether all devices take a summary, the
keys in the order the sets list them should it come to a rebuild, and the measured figures. -/
structure Connection (K : Type) where
  accepted : Bool
  received : Option (List UInt8)
  replied : Bool
  devicesReached : Bool
  tries : ℕ
  positive_keys : List K
  negative_keys : List K
  time : String
  average : String → String

/-- `s = buf`, up to the first zero byte; no byte at all leaves `s` empty. -/
def Connection.data (bytes : List UInt8) : List Char :=
  ((bytes.take MAXRECV).takeWhile (· ≠ 0)).map fun b => Char.ofNat b.toNat

/-- The listening thread: `updateLock` tells whether it holds the lock. -/
structure Listener (K E : Type) where
  running : Bool
  updateLock : Bool
  dassTracker : ControlVO K E
  replies : List String

/-- How a statement does not get to its end. A call on the lock out of turn is undefined; the
process is over after `exit` and a failed assertion, and a call that does not return is no
better. -/
inductive Stop (K E : Type)
  | socketException (l : Listener K E)
  | otherException
  | lockMisused
  | ended

abbrev Code (K E : Type) := Except (Stop K E)

def lock (l : Listener K E) : Code K E (Listener K E) :=
  if l.updateLock then .error .lockMisused else .ok { l with updateLock := true }

def unlock (l : Listener K E) : Code K E (Listener K E) :=
  if l.updateLock then .ok { l with updateLock := false } else .error .lockMisused

def send (conn : Connection K) (l : Listener K E) (reply : String) :
    Code K E (Listener K E) :=
  if conn.replied then .ok { l with replies := l.replies ++ [reply] }
  else .error (.socketException l)

/-- `std::stoul`, which throws `out_of_range` beyond 64 bits. -/
def stoul (digits : List Char) : Code K E ℕ :=
  if decimal digits < 2 ^ 64 then .ok (decimal digits) else .error .otherException

/-! ### The command handlers -/

section Handlers

variable [DecidableEq K] [Inhabited K] (S : TrackerSetup K E) (toKey : ℕ → K) (toValue : ℕ → ℕ)
  (conn : Connection K)

/-- A change and the update it sends. Exceptions while sending are caught: a summary that a device
does not take ends the process, a full update does not. -/
def change (l : Listener K E) (cmd : Command K) : Code K E (Listener K E) :=
  match TinyCRServer.command S conn.tries conn.positive_keys conn.negative_keys l.dassTracker
      cmd with
  | .error .exception => .error .otherException
  | .error _ => .error .ended
  | .ok (.full _, c) => .ok { l with dassTracker := c }
  | .ok (.summary .., c) =>
    if conn.devicesReached then .ok { l with dassTracker := c } else .error .ended

def addCommand (data : List Char) (l : Listener K E) : Code K E (String × Listener K E) :=
  match addRgx data with
  | none => .ok ("Inputs are badly formed", l)
  | some (k, v) => do
    let k ← stoul k
    let v ← stoul v
    let l ← change S conn l (.add (toKey k, toValue v))
    return ("Add Duration: " ++ conn.time, l)

def removeCommand (data : List Char) (l : Listener K E) : Code K E (String × Listener K E) :=
  match keyRgx data with
  | none => .ok ("Inputs are badly formed", l)
  | some k => do
    let k ← stoul k
    let l ← change S conn l (.rem (toKey k))
    return ("Unr Duration: " ++ conn.time, l)

def unrevokeCommand (data : List Char) (l : Listener K E) : Code K E (String × Listener K E) :=
  match keyRgx data with
  | none => .ok ("Inputs are badly formed", l)
  | some k => do
    let k ← stoul k
    let l ← change S conn l (.unr (toKey k))
    return ("Unr Duration: " ++ conn.time, l)

def revokeCommand (data : List Char) (l : Listener K E) : Code K E (String × Listener K E) :=
  match keyRgx data with
  | none => .ok ("Inputs are badly formed", l)
  | some k => do
    let k ← stoul k
    let l ← change S conn l (.rev (toKey k))
    return ("Rev Duration: " ++ conn.time, l)

/-- `num` is a `uint32_t`. -/
def showCommand (data : List Char) (l : Listener K E) : Code K E (String × Listener K E) :=
  match showRgx data with
  | none => .ok ("Inputs are badly formed\n", l)
  | some k => do
    let num ← stoul k
    let revoked := CRIoTControl.query S l.dassTracker (toKey (num % 2 ^ 32)) == 1
    return (String.ofList k ++ (if revoked then " is revoked\n" else " is unrevoked\n"), l)

def exitCommand (l : Listener K E) : Code K E (String × Listener K E) :=
  .ok ("exiting", { l with running := false })

def pingCommand (l : Listener K E) : Code K E (String × Listener K E) := .ok ("pong", l)

def statisticsCommand (data : List Char) (l : Listener K E) : Code K E (String × Listener K E) :=
  match statisticsRgx data with
  | none => .ok ("Inputs are badly formed", l)
  | some statistic => .ok (conn.average statistic, l)

def commandsMap (command : String) :
    Option (List Char → Listener K E → Code K E (String × Listener K E)) :=
  if command = "add" then some (addCommand S toKey toValue conn)
  else if command = "rem" then some (removeCommand S toKey conn)
  else if command = "unr" then some (unrevokeCommand S toKey conn)
  else if command = "rev" then some (revokeCommand S toKey conn)
  else if command = "exi" then some fun _ => exitCommand
  else if command = "ping" then some fun _ => pingCommand
  else if command = "get" then some (statisticsCommand conn)
  else if command = "show" then some (showCommand S toKey)
  else none

/-- The `try` block; `true` for the `continue`. -/
def tryBlock (l : Listener K E) : Code K E (Bool × Listener K E) := do
  if !conn.accepted then throw (.socketException l)
  let l ← lock l
  match conn.received with
  | none => throw (.socketException l)
  | some bytes =>
    let data := Connection.data bytes
    match commandRgx data with
    | none =>
      let l ← send conn l "Command not recognized"
      return (true, l)
    | some command =>
      match commandsMap S toKey toValue conn command with
      | some handler =>
        let (response, l) ← handler data l
        let l ← send conn l response
        return (false, l)
      | none =>
        let l ← send conn l "Not a valid command"
        return (false, l)

/-- One turn of the loop: a `SocketException` is caught, and `continue` skips the `unlock`. -/
def iteration (l : Listener K E) : Code K E (Listener K E) :=
  match tryBlock S toKey toValue conn l with
  | .ok (true, l) => .ok l
  | .ok (false, l) => unlock l
  | .error (.socketException l) => unlock l
  | .error stop => .error stop

def listenForCACommands (l : Listener K E) :
    List (Connection K) → List (Code K E (Listener K E))
  | [] => []
  | conn :: conns =>
    if l.running then
      iteration S toKey toValue conn l ::
        match iteration S toKey toValue conn l with
        | .ok l => listenForCACommands l conns
        | .error _ => []
    else []

/-! ### What a handler does -/

def numbers (command : String) (data : List Char) : List (List Char) :=
  if command = "add" then
    match addRgx data with
    | none => []
    | some (k, v) => [k, v]
  else if command = "rem" ∨ command = "unr" ∨ command = "rev" then (keyRgx data).toList
  else if command = "show" then (showRgx data).toList
  else []

def requested (command : String) (data : List Char) : Option (Command K) :=
  if command = "add" then
    (addRgx data).map fun kv => .add (toKey (decimal kv.1), toValue (decimal kv.2))
  else if command = "rem" then (keyRgx data).map fun k => .rem (toKey (decimal k))
  else if command = "unr" then (keyRgx data).map fun k => .unr (toKey (decimal k))
  else if command = "rev" then (keyRgx data).map fun k => .rev (toKey (decimal k))
  else none

def Quiet (l : Listener K E) (cmd : Command K) : Prop :=
  TinyCRServer.command S conn.tries conn.positive_keys conn.negative_keys l.dassTracker cmd ≠
    .error .exception

structure Harmless (l : Listener K E) (command : String) (data : List Char) : Prop where
  numbers : ∀ digits ∈ numbers command data, decimal digits < 2 ^ 64
  change : ∀ cmd, requested toKey toValue command data = some cmd → Quiet S conn l cmd

/-- A handler leaves the lock alone; unless the process ends it returns exactly if `safe`, and
throws no `SocketException`. -/
def Ends {α : Type} (l : Listener K E) (safe : Prop) : Code K E (α × Listener K E) → Prop
  | .ok (_, l') => l'.updateLock = l.updateLock ∧ safe
  | .error .ended => safe
  | .error .otherException => ¬ safe
  | .error (.socketException _) => False
  | .error .lockMisused => False

section Ends

variable {S toKey toValue conn} {l : Listener K E} {data : List Char}

omit [DecidableEq K] [Inhabited K] in
theorem Ends.congr {α : Type} {p q : Prop} {r : Code K E (α × Listener K E)} (h : Ends l p r)
    (hpq : p ↔ q) : Ends l q r := by
  rwa [← propext hpq]

omit [DecidableEq K] [Inhabited K] in
theorem ends_stoul {α : Type} {p : Prop} (digits : List Char)
    {f : ℕ → Code K E (α × Listener K E)} (h : Ends l p (f (decimal digits))) :
    Ends l (decimal digits < 2 ^ 64 ∧ p) (stoul digits >>= f) := by
  rw [stoul]
  split
  case isTrue hlt => exact h.congr (and_iff_right hlt).symm
  case isFalse hge => exact fun hc => hge hc.1

theorem ends_change (cmd : Command K) (reply : String) :
    Ends l (Quiet S conn l cmd) (do
      let l ← change S conn l cmd
      return (reply, l)) := by
  simp only [change, Quiet]
  cases TinyCRServer.command S conn.tries conn.positive_keys conn.negative_keys l.dassTracker cmd
  case error f =>
    cases f
    case exception => exact fun hc => hc rfl
    all_goals
      intro hc
      cases hc
  case ok r =>
    obtain ⟨u, c⟩ := r
    have hquiet : (Except.ok (u, c) : Except Fault _) ≠ .error .exception := by simp
    cases u with
    | full vo_data => exact ⟨rfl, hquiet⟩
    | summary flipped_indexes kvs actions =>
      cases conn.devicesReached
      case false => exact hquiet
      case true => exact ⟨rfl, hquiet⟩

theorem ends_ok {α : Type} {command : String} {a : α} {l' : Listener K E}
    (hlock : l'.updateLock = l.updateLock) (hnum : numbers command data = [])
    (hreq : requested toKey toValue command data = none) :
    Ends l (Harmless S toKey toValue conn l command data) (.ok (a, l')) := by
  refine ⟨hlock, ⟨fun digits hd => ?_, fun cmd hc => ?_⟩⟩
  · rw [hnum] at hd
    cases hd
  · rw [hreq] at hc
    cases hc

theorem ends_keyCommand {command : String} {cmd : K → Command K} {reply : String}
    (hnum : numbers command data = (keyRgx data).toList)
    (hreq : requested toKey toValue command data =
      (keyRgx data).map fun k => cmd (toKey (decimal k))) :
    Ends l (Harmless S toKey toValue conn l command data)
      (match keyRgx data with
      | none => .ok ("Inputs are badly formed", l)
      | some k => do
        let k ← stoul k
        let l ← change S conn l (cmd (toKey k))
        return (reply, l)) := by
  cases hk : keyRgx data with
  | none =>
    rw [hk] at hnum hreq
    exact ends_ok rfl hnum hreq
  | some k =>
    rw [hk] at hnum hreq
    have hends := ends_stoul k (f := fun k => do
        let l ← change S conn l (cmd (toKey k))
        return (reply, l)) (ends_change (cmd (toKey (decimal k))) reply)
    refine hends.congr
      ⟨fun ⟨hlt, hquiet⟩ => ⟨fun digits hd => ?_, fun c hc => ?_⟩, fun h => ⟨?_, ?_⟩⟩
    · rw [hnum] at hd
      exact List.mem_singleton.mp hd ▸ hlt
    · rw [hreq] at hc
      exact Option.some.inj hc ▸ hquiet
    · exact h.numbers k (hnum ▸ List.mem_singleton_self k)
    · exact h.change _ hreq

theorem addCommand_ends :
    Ends l (Harmless S toKey toValue conn l "add" data)
      (addCommand S toKey toValue conn data l) := by
  have hnum : numbers "add" data = match addRgx data with
    | none => []
    | some (k, v) => [k, v] := if_pos rfl
  have hreq : requested toKey toValue "add" data =
      (addRgx data).map fun kv => .add (toKey (decimal kv.1), toValue (decimal kv.2)) := if_pos rfl
  rw [addCommand]
  cases hkv : addRgx data with
  | none =>
    rw [hkv] at hnum hreq
    exact ends_ok rfl hnum hreq
  | some kv =>
    obtain ⟨k, v⟩ := kv
    rw [hkv] at hnum hreq
    have hends := ends_stoul k (f := fun k => do
        let v ← stoul v
        let l ← change S conn l (.add (toKey k, toValue v))
        return ("Add Duration: " ++ conn.time, l)) (ends_stoul v (f := fun v => do
          let l ← change S conn l (.add (toKey (decimal k), toValue v))
          return ("Add Duration: " ++ conn.time, l)) (ends_change _ _))
    refine hends.congr ⟨fun ⟨hk, hv, hquiet⟩ => ⟨fun digits hd => ?_, fun c hc => ?_⟩,
      fun h => ⟨?_, ?_, ?_⟩⟩
    · rw [hnum] at hd
      rcases List.mem_cons.mp hd with rfl | hd
      · exact hk
      · exact List.mem_singleton.mp hd ▸ hv
    · rw [hreq] at hc
      exact Option.some.inj hc ▸ hquiet
    · exact h.numbers k (hnum ▸ List.mem_cons_self)
    · exact h.numbers v (hnum ▸ List.mem_cons_of_mem _ (List.mem_singleton_self v))
    · exact h.change _ hreq

theorem showCommand_ends :
    Ends l (Harmless S toKey toValue conn l "show" data) (showCommand S toKey data l) := by
  have hnum : numbers "show" data = (showRgx data).toList := by simp [numbers]
  have hreq : requested toKey toValue "show" data = none := by simp [requested]
  rw [showCommand]
  cases hk : showRgx data with
  | none =>
    rw [hk] at hnum
    exact ends_ok rfl hnum hreq
  | some k =>
    rw [hk] at hnum
    have hends := ends_stoul (p := True) k (f := fun num => .ok (String.ofList k ++
      if CRIoTControl.query S l.dassTracker (toKey (num % 2 ^ 32)) == 1 then " is revoked\n"
      else " is unrevoked\n", l)) ⟨rfl, trivial⟩
    refine hends.congr
      ⟨fun ⟨hlt, _⟩ => ⟨fun digits hd => ?_, fun c hc => ?_⟩, fun h => ⟨?_, trivial⟩⟩
    · rw [hnum] at hd
      exact List.mem_singleton.mp hd ▸ hlt
    · rw [hreq] at hc
      cases hc
    · exact h.numbers k (hnum ▸ List.mem_singleton_self k)

theorem commandsMap_cases {command : String}
    {motive : String → (List Char → Listener K E → Code K E (String × Listener K E)) → Prop}
    {handler : List Char → Listener K E → Code K E (String × Listener K E)}
    (h : commandsMap S toKey toValue conn command = some handler)
    (add : motive "add" (addCommand S toKey toValue conn))
    (rem : motive "rem" (removeCommand S toKey conn))
    (unr : motive "unr" (unrevokeCommand S toKey conn))
    (rev : motive "rev" (revokeCommand S toKey conn))
    (exi : motive "exi" fun _ => exitCommand) (ping : motive "ping" fun _ => pingCommand)
    (get : motive "get" (statisticsCommand conn))
    (shows : motive "show" (showCommand S toKey)) : motive command handler := by
  rw [commandsMap] at h
  iterate 8
    split at h
    case isTrue heq =>
      obtain rfl := Option.some.inj h
      subst heq
      assumption
  cases h

theorem handler_ends {command : String}
    {handler : List Char → Listener K E → Code K E (String × Listener K E)}
    (h : commandsMap S toKey toValue conn command = some handler) :
    Ends l (Harmless S toKey toValue conn l command data) (handler data l) := by
  apply commandsMap_cases
    (motive := fun command handler =>
      Ends l (Harmless S toKey toValue conn l command data) (handler data l)) h
  case add => exact addCommand_ends
  case rem => exact ends_keyCommand (by simp [numbers]) (by simp [requested])
  case unr => exact ends_keyCommand (by simp [numbers]) (by simp [requested])
  case rev => exact ends_keyCommand (by simp [numbers]) (by simp [requested])
  case exi => exact ends_ok rfl (by simp [numbers]) (by simp [requested])
  case ping => exact ends_ok rfl (by simp [numbers]) (by simp [requested])
  case get =>
    rw [statisticsCommand]
    split
    · exact ends_ok rfl (by simp [numbers]) (by simp [requested])
    · exact ends_ok rfl (by simp [numbers]) (by simp [requested])
  case shows => exact showCommand_ends

end Ends

/-- A turn that ends leaves the lock free. It has taken and released it once, and no exception has
left the loop; or the process is over. -/
def Unlocked : Code K E (Listener K E) → Prop
  | .ok l => l.updateLock = false
  | .error .ended => True
  | .error _ => False

/-- The connection is accepted, and what it sends is a command without overflow or a tracker
exception; or it is no command and the peer does not get the reply. -/
structure Proper (l : Listener K E) : Prop where
  accepted : conn.accepted = true
  unrecognised : ∀ bytes, conn.received = some bytes → commandRgx (Connection.data bytes) = none →
    conn.replied = false
  harmless : ∀ bytes command, conn.received = some bytes →
    commandRgx (Connection.data bytes) = some command →
    Harmless S toKey toValue conn { l with updateLock := true } command (Connection.data bytes)

def Orderly (l : Listener K E) : List (Connection K) → Prop
  | [] => True
  | conn :: conns =>
    l.running = true → Proper S toKey toValue conn l ∧
      ∀ l', iteration S toKey toValue conn l = .ok l' → Orderly l' conns

variable {S toKey toValue conn} {l : Listener K E}

omit [DecidableEq K] [Inhabited K] in
theorem unlock_unlocked (h : l.updateLock = true) : Unlocked (unlock l) := by
  rw [unlock, if_pos h]
  rfl

def settled : Code K E (Bool × Listener K E) → Code K E (Listener K E)
  | .ok (true, l) => .ok l
  | .ok (false, l) => unlock l
  | .error (.socketException l) => unlock l
  | .error stop => .error stop

theorem iteration_eq (l : Listener K E) : iteration S toKey toValue conn l =
    settled (tryBlock S toKey toValue conn l) := by
  rw [iteration]
  cases tryBlock S toKey toValue conn l with
  | error stop => cases stop <;> rfl
  | ok r =>
    obtain ⟨_ | _, l'⟩ := r <;> rfl

omit [DecidableEq K] [Inhabited K] in
theorem reply_unlocked (h : l.updateLock = true) (reply : String) :
    Unlocked (settled (do
      let l ← send conn l reply
      return (false, l))) := by
  rw [send]
  cases conn.replied
  · exact unlock_unlocked h
  · exact unlock_unlocked (l := { l with replies := l.replies ++ [reply] }) h

theorem harmless_of_unknown {command : String} (h : commandsMap S toKey toValue conn command = none)
    (l : Listener K E) (data : List Char) :
    Harmless S toKey toValue conn l command data := by
  have hne : command ≠ "add" ∧ command ≠ "rem" ∧ command ≠ "unr" ∧ command ≠ "rev" ∧
      command ≠ "show" := by
    refine ⟨?_, ?_, ?_, ?_, ?_⟩
    all_goals
      rintro rfl
      simp [commandsMap] at h
  obtain ⟨hadd, hrem, hunr, hrev, hshow⟩ := hne
  refine ⟨fun digits hd => ?_, fun cmd hc => ?_⟩
  · simp [numbers, hadd, hrem, hunr, hrev, hshow] at hd
  · simp [requested, hadd, hrem, hunr, hrev] at hc

variable (conn) in
omit [DecidableEq K] [Inhabited K] in
/-- The data does not start with a word: `continue` keeps the lock, an exception does not. -/
theorem unrecognised_iff (h : l.updateLock = true) :
    Unlocked (settled (do
      let l ← send conn l "Command not recognized"
      return (true, l))) ↔ conn.replied = false := by
  rw [send]
  cases conn.replied
  · exact iff_of_true (unlock_unlocked h) rfl
  · refine iff_of_false (fun hun => ?_) (by simp)
    have hfree : l.updateLock = false := hun
    rw [h] at hfree
    cases hfree

variable (S toKey toValue conn) in
theorem recognised_iff (h : l.updateLock = true) (command : String) (data : List Char) :
    Unlocked (settled (match commandsMap S toKey toValue conn command with
      | some handler => do
        let (response, l) ← handler data l
        let l ← send conn l response
        return (false, l)
      | none => do
        let l ← send conn l "Not a valid command"
        return (false, l))) ↔ Harmless S toKey toValue conn l command data := by
  cases hmap : commandsMap S toKey toValue conn command with
  | none => exact iff_of_true (reply_unlocked h _) (harmless_of_unknown hmap _ _)
  | some handler =>
    have hends : Ends l (Harmless S toKey toValue conn l command data) (handler data l) :=
      handler_ends hmap
    dsimp only
    cases hhandled : handler data l with
    | ok r =>
      rw [hhandled] at hends
      exact iff_of_true (reply_unlocked (hends.1.trans h) _) hends.2
    | error stop =>
      rw [hhandled] at hends
      cases stop with
      | ended => exact iff_of_true trivial hends
      | otherException => exact iff_of_false id hends
      | socketException l' => exact hends.elim
      | lockMisused => exact hends.elim

theorem iteration_unlocked_iff (h : l.updateLock = false) :
    Unlocked (iteration S toKey toValue conn l) ↔ Proper S toKey toValue conn l := by
  rw [iteration_eq]
  cases ha : conn.accepted with
  | false =>
    -- the lock was never taken, and is released all the same
    have htry : tryBlock S toKey toValue conn l = .error (.socketException l) := by
      rw [tryBlock, ha]
      rfl
    refine iff_of_false (fun hun => ?_) fun hc => by simpa [ha] using hc.accepted
    rw [htry, settled, unlock, h] at hun
    exact hun
  | true =>
    have hheld : ({ l with updateLock := true } : Listener K E).updateLock = true := rfl
    have hlock : lock l = .ok { l with updateLock := true } := by
      rw [lock, h]
      rfl
    have htry : tryBlock S toKey toValue conn l = match conn.received with
        | none => .error (.socketException { l with updateLock := true })
        | some bytes =>
          match commandRgx (Connection.data bytes) with
          | none => do
            let l ← send conn { l with updateLock := true } "Command not recognized"
            return (true, l)
          | some command =>
            match commandsMap S toKey toValue conn command with
            | some handler => do
              let (response, l) ← handler (Connection.data bytes) { l with updateLock := true }
              let l ← send conn l response
              return (false, l)
            | none => do
              let l ← send conn { l with updateLock := true } "Not a valid command"
              return (false, l) := by
      rw [tryBlock, ha, hlock]
      rfl
    rw [htry]
    cases hr : conn.received with
    | none =>
      refine iff_of_true (unlock_unlocked hheld) ⟨ha, fun bytes hb => ?_, fun bytes _ hb => ?_⟩
      all_goals
        rw [hr] at hb
        cases hb
    | some bytes =>
      cases hword : commandRgx (Connection.data bytes) with
      | none =>
        have hfree := unrecognised_iff conn hheld
        simp only [hword]
        refine hfree.trans ⟨fun hreply => ?_, fun hp => ?_⟩
        · refine ⟨ha, fun _ _ _ => hreply, fun bytes' command hb hc => ?_⟩
          obtain rfl := Option.some.inj (hr.symm.trans hb)
          rw [hword] at hc
          cases hc
        · exact hp.unrecognised bytes hr hword
      | some command =>
        have hfree := recognised_iff S toKey toValue conn hheld command (Connection.data bytes)
        simp only [hword]
        refine hfree.trans ⟨fun hsafe => ?_, fun hp => ?_⟩
        · refine ⟨ha, fun bytes' hb hc => ?_, fun bytes' command' hb hc => ?_⟩
          · obtain rfl := Option.some.inj (hr.symm.trans hb)
            rw [hword] at hc
            cases hc
          · obtain rfl := Option.some.inj (hr.symm.trans hb)
            obtain rfl := Option.some.inj (hword.symm.trans hc)
            exact hsafe
        · exact hp.harmless bytes command hr hword

/-- In every run: all turns leave the lock free, take it only when it is free and release it only
after that, and let no exception out, exactly if all served connections are proper. -/
theorem listener_unlocked_iff (h : l.updateLock = false) (conns : List (Connection K)) :
    (∀ turn ∈ listenForCACommands S toKey toValue l conns, Unlocked turn) ↔
      Orderly S toKey toValue l conns := by
  induction conns generalizing l with
  | nil => exact iff_of_true (fun _ hturn => by cases hturn) trivial
  | cons conn conns ih =>
    rw [listenForCACommands, Orderly]
    cases hrun : l.running with
    | false => exact iff_of_true (fun _ hturn => by cases hturn) fun hc => by cases hc
    | true =>
      have hone : Unlocked (iteration S toKey toValue conn l) ↔ Proper S toKey toValue conn l :=
        iteration_unlocked_iff h
      simp only [if_true, List.forall_mem_cons, true_implies, hone]
      refine and_congr_right fun hproper => ?_
      have hun := hone.mpr hproper
      cases hit : iteration S toKey toValue conn l with
      | error stop =>
        exact iff_of_true (fun _ hturn => by cases hturn) fun l' hl' => by cases hl'
      | ok l' =>
        rw [hit] at hun
        refine (ih hun).trans ⟨fun ho l'' hl'' => ?_, fun ho => ho l' rfl⟩
        exact Except.ok.inj hl'' ▸ ho

end Handlers

def closing : Connection ℕ where
  accepted := true
  received := some []
  replied := true
  devicesReached := true
  tries := 0
  positive_keys := []
  negative_keys := []
  time := ""
  average := fun _ => ""

def started : Listener ℕ ℕ :=
  ⟨true, false, ⟨TrackerRun.emptyTracker, install TrackerRun.emptyTracker, []⟩, []⟩

def pinging : Connection ℕ :=
  { closing with received := some [0x70, 0x69, 0x6e, 0x67] }

theorem pinging_turns : listenForCACommands TrackerRun.smallTracker id id started
    [pinging, pinging] = [.ok { started with replies := ["pong"] },
      .ok { started with replies := ["pong", "pong"] }] := rfl

theorem closing_turn (l : Listener ℕ ℕ) (h : l.updateLock = false) :
    iteration TrackerRun.smallTracker id id closing l = .ok
      { l with updateLock := true, replies := l.replies ++ ["Command not recognized"] } := by
  obtain ⟨running, updateLock, dassTracker, replies⟩ := l
  subst h
  rfl

theorem listener_unlocked_iff_closing :
    (Orderly TrackerRun.smallTracker id id started [pinging, pinging] ∧
      ∀ turn ∈ listenForCACommands TrackerRun.smallTracker id id started [pinging, pinging],
        Unlocked turn) ∧
    ¬ Orderly TrackerRun.smallTracker id id started [pinging, closing] ∧
      ¬ ∀ turn ∈ listenForCACommands TrackerRun.smallTracker id id started [pinging, closing],
        Unlocked turn := by
  constructor
  · rw [← listener_unlocked_iff rfl, and_self, pinging_turns]
    rintro turn (_ | ⟨_, _ | ⟨_, hturn⟩⟩)
    · rfl
    · rfl
    · cases hturn
  · rw [← listener_unlocked_iff rfl, and_self]
    intro hall
    have hun : Unlocked (iteration TrackerRun.smallTracker id id closing
        { started with replies := ["pong"] }) := hall _ (.tail _ List.mem_cons_self)
    rw [closing_turn _ rfl] at hun
    cases hun

/-- The reply to no data leaves the lock held, and the next turn takes it again. -/
theorem closing_keeps_lock : ¬ ∀ (l : Listener ℕ ℕ) conns, l.updateLock = false →
    ∀ turn ∈ listenForCACommands TrackerRun.smallTracker id id l conns, Unlocked turn := by
  intro hall
  have hun := hall started [closing] rfl _ List.mem_cons_self
  rw [closing_turn started rfl] at hun
  cases hun

end CommandListener
