import TinyCR.CommandListener
import Mathlib.Data.List.TakeWhile

/-! # The key of a text

Keys are `uint64_t`, and the commands that change a certificate take all of the number they read.
Both `showCommand`s keep the number in a `uint32_t`, so that a text of 2^32 or more is answered with
another certificate's status. -/
namespace CertificateKeys

open DASSTracker TrackerInvariant TrackerRun DASSVerifier CRIoTControl TinyCRServer CommandListener

variable {E : Type}

/-- `static_cast<K>` of an `unsigned long`, where `K` is `uint64_t`. -/
def toKey (x : ℕ) : BitVec 64 := BitVec.ofNat 64 x

/-- `static_cast<V>`, where `V` is `uint32_t`. -/
def toValue (x : ℕ) : ℕ := x % 2 ^ 32

/-- `showCommand` of the device. Nothing catches the exception of `stoul`: the process ends. -/
def deviceShow (S : TrackerSetup (BitVec 64) E) (d : Verifier E) (data : List Char) :
    Option String :=
  match showRgx data with
  | none => some "Inputs are badly formed\n"
  | some k =>
    if decimal k < 2 ^ 64 then
      let num := decimal k % 2 ^ 32
      let v := DASSVerifier.query S d (toKey num) == 1
      some (String.ofList k ++ (if v then " is revoked\n" else " is unrevoked\n"))
    else none

def shown (data : List Char) : Option (BitVec 64) :=
  (showRgx data).map fun k => toKey (decimal k % 2 ^ 32)

def reply (digits : List Char) (revoked : Bool) : String :=
  String.ofList digits ++ (if revoked then " is revoked\n" else " is unrevoked\n")

/-- A text of `[0-9]+` for a number of 64 bits. -/
structure NumberText (digits : List Char) : Prop where
  ne_nil : digits ≠ []
  digit : ∀ c ∈ digits, c.isDigit = true
  lt : decimal digits < 2 ^ 64

theorem NumberText.of_all {digits : List Char} (hne : digits ≠ [])
    (hall : digits.all Char.isDigit = true) (hlt : decimal digits < 2 ^ 64) : NumberText digits :=
  ⟨hne, List.all_eq_true.mp hall, hlt⟩

/-- The handler of the command asks for the change `cmd`, makes it and replies to it. -/
def Requests (S : TrackerSetup (BitVec 64) E) (command : String) (data : List Char)
    (cmd : Command (BitVec 64)) : Prop :=
  requested toKey toValue command data = some cmd ∧
    ∀ conn handler (s : Listener (BitVec 64) E),
      commandsMap S toKey toValue conn command = some handler →
      ∃ reply, handler data s = change S conn s cmd >>= fun s => .ok (reply, s)

/-- In every state all commands take the text for `key`. -/
structure TakenFor (S : TrackerSetup (BitVec 64) E) (digits : List Char) (key : BitVec 64) :
    Prop where
  shown : shown ("show ".toList ++ digits) = some key
  server : ∀ s : Listener (BitVec 64) E, showCommand S toKey ("show ".toList ++ digits) s =
    .ok (reply digits (CRIoTControl.query S s.dassTracker key == 1), s)
  device : ∀ d : Verifier E, deviceShow S d ("show ".toList ++ digits) =
    some (reply digits (DASSVerifier.query S d key == 1))
  rev : Requests S "rev" ("rev ".toList ++ digits) (.rev key)
  unr : Requests S "unr" ("unr ".toList ++ digits) (.unr key)
  add : ∀ v, NumberText v → Requests S "add" ("add ".toList ++ digits ++ ' ' :: v)
    (.add (key, toValue (decimal v)))

/-- After the fresh key of the text was added with a value, `show` on the server, and on a device
that answers as the server does, reports that value. -/
def ShowsAdded (S : TrackerSetup (BitVec 64) E) (digits : List Char) : Prop :=
  ∀ (b : Bool) (c₀ c c' : ControlVO (BitVec 64) E) (l : List (Record (BitVec 64) E))
    (reg : BitVec 64 → Option Bool) (u : Update (BitVec 64) E), Session S c₀ l c reg →
    toKey (decimal digits) ∉ c.vo_control.PK → toKey (decimal digits) ∉ c.vo_control.NK →
    Served S c (.add (toKey (decimal digits), b.toNat)) u c' →
    (∀ s : Listener (BitVec 64) E, s.dassTracker = c' →
      showCommand S toKey ("show ".toList ++ digits) s = .ok (reply digits b, s)) ∧
    ∀ d : Verifier E, (∀ k, k ∈ c'.vo_control.PK ∨ k ∈ c'.vo_control.NK →
      DASSVerifier.query S d k = CRIoTControl.query S c' k) →
      deviceShow S d ("show ".toList ++ digits) = some (reply digits b)

variable {S : TrackerSetup (BitVec 64) E} {digits data : List Char}

theorem NumberText.takeWhile (h : NumberText digits) : digits.takeWhile Char.isDigit = digits :=
  List.takeWhile_eq_self_iff.mpr h.digit

theorem NumberText.dropWhile (h : NumberText digits) : digits.dropWhile Char.isDigit = [] :=
  List.dropWhile_eq_nil_iff.mpr h.digit

theorem NumberText.number (h : NumberText digits) : number (' ' :: digits) = some (digits, []) := by
  rw [CommandListener.number, h.takeWhile, h.dropWhile]
  cases digits with
  | nil => exact absurd rfl h.ne_nil
  | cons c digits => rfl

theorem NumberText.number_blank (h : NumberText digits) (rest : List Char) :
    CommandListener.number (' ' :: (digits ++ ' ' :: rest)) = some (digits, ' ' :: rest) := by
  have htake : (digits ++ ' ' :: rest).takeWhile Char.isDigit = digits := by
    rw [List.takeWhile_append_of_pos h.digit]
    simp
  have hdrop : (digits ++ ' ' :: rest).dropWhile Char.isDigit = ' ' :: rest := by
    rw [List.dropWhile_append_of_pos h.digit]
    simp
  rw [CommandListener.number, htake, hdrop]
  cases digits with
  | nil => exact absurd rfl h.ne_nil
  | cons c digits => rfl

theorem search_some {α : Type} {rgx : List Char → Option α} {data : List Char} {x : α}
    (h : rgx data = some x) : search rgx data = some x := by
  cases data with
  | nil => exact h
  | cons c data => rw [search, h, Option.some_or]

theorem NumberText.showRgx (h : NumberText digits) :
    showRgx ("show ".toList ++ digits) = some digits := by
  apply search_some
  exact congrArg (Option.map Prod.fst) h.number

theorem NumberText.keyRgx (h : NumberText digits) {a b c : Char} (hlower :
    (a.isLower && b.isLower && c.isLower) = true) :
    keyRgx (a :: b :: c :: ' ' :: digits) = some digits := by
  apply search_some
  rw [threeLetters, if_pos hlower]
  simp only [Option.bind_eq_bind, Option.bind_some, h.number]
  rfl

theorem NumberText.addRgx (h : NumberText digits) {v : List Char} (hv : NumberText v) :
    addRgx ("add ".toList ++ digits ++ ' ' :: v) = some (digits, v) := by
  have hpair : ∀ n, lastPair (n + 1) (' ' :: (digits ++ ' ' :: v)) = some (digits, v) := by
    intro n
    rw [lastPair, h.number_blank]
    simp only [Option.bind_eq_bind, Option.bind_some, hv.number]
    cases n <;> rfl
  apply search_some
  exact hpair _

theorem NumberText.shown (h : NumberText digits) :
    shown ("show ".toList ++ digits) = some (toKey (decimal digits % 2 ^ 32)) := by
  rw [CertificateKeys.shown, h.showRgx]
  rfl

theorem showCommand_shown {key : BitVec 64} (h : NumberText digits)
    (hkey : shown ("show ".toList ++ digits) = some key) (s : Listener (BitVec 64) E) :
    showCommand S toKey ("show ".toList ++ digits) s =
      .ok (reply digits (CRIoTControl.query S s.dassTracker key == 1), s) := by
  obtain rfl := Option.some.inj (h.shown.symm.trans hkey)
  rw [showCommand, h.showRgx]
  simp only [stoul, if_pos h.lt]
  rfl

theorem deviceShow_shown {key : BitVec 64} (h : NumberText digits)
    (hkey : shown ("show ".toList ++ digits) = some key) (d : Verifier E) :
    deviceShow S d ("show ".toList ++ digits) =
      some (reply digits (DASSVerifier.query S d key == 1)) := by
  obtain rfl := Option.some.inj (h.shown.symm.trans hkey)
  rw [deviceShow, h.showRgx]
  simp only [if_pos h.lt]
  rfl

section Requested

variable {K : Type} [DecidableEq K] [Inhabited K] {T : TrackerSetup K E} {key : ℕ → K}
  {value : ℕ → ℕ} {conn : Connection K} {command : String} {cmd : Command K}

omit [DecidableEq K] [Inhabited K] in
theorem stoul_of_lt {digits : List Char} (h : decimal digits < 2 ^ 64) :
    (stoul digits : Code K E ℕ) = .ok (decimal digits) := if_pos h

theorem keyCommand_requested {f : K → Command K}
    (hreq : (keyRgx data).map (fun k => f (key (decimal k))) = some cmd)
    (hlt : ∀ digits ∈ (keyRgx data).toList, decimal digits < 2 ^ 64) (reply : String)
    (s : Listener K E) : (match keyRgx data with
      | none => (.ok ("Inputs are badly formed", s) : Code K E (String × Listener K E))
      | some k => do
        let k ← stoul k
        let s ← change T conn s (f (key k))
        return (reply, s)) = change T conn s cmd >>= fun s => .ok (reply, s) := by
  obtain ⟨k, hk, rfl⟩ := Option.map_eq_some_iff.mp hreq
  rw [hk] at hlt ⊢
  simp only [stoul_of_lt (hlt k (List.mem_singleton_self k))]
  rfl

theorem handler_requested
    {handler : List Char → Listener K E → Code K E (String × Listener K E)}
    (hmap : commandsMap T key value conn command = some handler)
    (hreq : requested key value command data = some cmd)
    (hlt : ∀ digits ∈ numbers command data, decimal digits < 2 ^ 64) (s : Listener K E) :
    ∃ reply, handler data s = change T conn s cmd >>= fun s => .ok (reply, s) := by
  revert hreq hlt
  apply commandsMap_cases (motive := fun command handler =>
    requested key value command data = some cmd →
      (∀ digits ∈ numbers command data, decimal digits < 2 ^ 64) →
      ∃ reply, handler data s = change T conn s cmd >>= fun s => .ok (reply, s)) hmap
  case add =>
    intro hreq hlt
    rw [requested, if_pos rfl] at hreq
    obtain ⟨⟨k, v⟩, hkv, rfl⟩ := Option.map_eq_some_iff.mp hreq
    rw [numbers, if_pos rfl, hkv] at hlt
    refine ⟨"Add Duration: " ++ conn.time, ?_⟩
    rw [addCommand, hkv]
    simp only [stoul_of_lt (hlt k (by simp)), stoul_of_lt (hlt v (by simp))]
    rfl
  case rem =>
    intro hreq hlt
    exact ⟨_, keyCommand_requested (f := .rem) (by simpa [requested] using hreq)
      (by simpa [numbers] using hlt) _ s⟩
  case unr =>
    intro hreq hlt
    exact ⟨_, keyCommand_requested (f := .unr) (by simpa [requested] using hreq)
      (by simpa [numbers] using hlt) _ s⟩
  case rev =>
    intro hreq hlt
    exact ⟨_, keyCommand_requested (f := .rev) (by simpa [requested] using hreq)
      (by simpa [numbers] using hlt) _ s⟩
  case exi => exact fun hreq => absurd hreq (by simp [requested])
  case ping => exact fun hreq => absurd hreq (by simp [requested])
  case get => exact fun hreq => absurd hreq (by simp [requested])
  case shows => exact fun hreq => absurd hreq (by simp [requested])

end Requested

theorem toKey_inj {x y : ℕ} (hx : x < 2 ^ 64) (hy : y < 2 ^ 64) (h : toKey x = toKey y) :
    x = y := by
  have hval := congrArg BitVec.toNat h
  rwa [toKey, toKey, BitVec.toNat_ofNat, BitVec.toNat_ofNat, Nat.mod_eq_of_lt hx,
    Nat.mod_eq_of_lt hy] at hval

theorem Requests.of_numbers {command : String} {cmd : Command (BitVec 64)}
    (hreq : requested toKey toValue command data = some cmd)
    (hlt : ∀ k ∈ numbers command data, decimal k < 2 ^ 64) : Requests S command data cmd :=
  ⟨hreq, fun _ _ s hmap => handler_requested hmap hreq hlt s⟩

theorem NumberText.requests_key (h : NumberText digits) {command : String}
    {f : BitVec 64 → Command (BitVec 64)}
    (hnum : numbers command data = (CommandListener.keyRgx data).toList)
    (hreq : requested toKey toValue command data =
      (CommandListener.keyRgx data).map fun k => f (toKey (decimal k)))
    (hkey : CommandListener.keyRgx data = some digits) :
    Requests S command data (f (toKey (decimal digits))) := by
  apply Requests.of_numbers
  · rw [hreq, hkey]
    rfl
  · intro k hk
    rw [hnum, hkey] at hk
    obtain rfl := List.mem_singleton.mp hk
    exact h.lt

theorem NumberText.requests_rev (h : NumberText digits) (S : TrackerSetup (BitVec 64) E) :
    Requests S "rev" ("rev ".toList ++ digits) (.rev (toKey (decimal digits))) := by
  apply h.requests_key
  · simp [numbers]
  · simp [requested]
  · exact h.keyRgx rfl

theorem NumberText.requests_unr (h : NumberText digits) (S : TrackerSetup (BitVec 64) E) :
    Requests S "unr" ("unr ".toList ++ digits) (.unr (toKey (decimal digits))) := by
  apply h.requests_key
  · simp [numbers]
  · simp [requested]
  · exact h.keyRgx rfl

theorem NumberText.requests_add (h : NumberText digits) (S : TrackerSetup (BitVec 64) E)
    (v : List Char) (hv : NumberText v) : Requests S "add" ("add ".toList ++ digits ++ ' ' :: v)
      (.add (toKey (decimal digits), toValue (decimal v))) := by
  have hkey := h.addRgx hv
  apply Requests.of_numbers
  · rw [requested, if_pos rfl, hkey]
    rfl
  · intro k hk
    rw [numbers, if_pos rfl, hkey] at hk
    rcases List.mem_pair.mp hk with rfl | rfl
    · exact h.lt
    · exact hv.lt

theorem one_key_iff (S : TrackerSetup (BitVec 64) E) (h : NumberText digits) :
    (∃ key, TakenFor S digits key) ↔ decimal digits < 2 ^ 32 := by
  constructor
  · rintro ⟨key, htaken⟩
    obtain rfl := Option.some.inj (h.shown.symm.trans htaken.shown)
    have hkey : toKey (decimal digits) = toKey (decimal digits % 2 ^ 32) := by
      injection Option.some.inj ((h.requests_rev S).1.symm.trans htaken.rev.1)
    have hsmall : decimal digits % 2 ^ 32 < 2 ^ 32 := Nat.mod_lt _ (by decide)
    exact (toKey_inj h.lt (hsmall.trans (by decide)) hkey).trans_lt hsmall
  · intro hlt
    have hshow := h.shown
    rw [Nat.mod_eq_of_lt hlt] at hshow
    exact ⟨_, hshow, showCommand_shown h hshow, deviceShow_shown h hshow, h.requests_rev S,
      h.requests_unr S, h.requests_add S⟩

/-- A text means the same certificate in every command exactly if its number has 32 bits. -/
theorem same_certificate_iff (S : TrackerSetup (BitVec 64) E) (h : NumberText digits) :
    (∃ key, TakenFor S digits key) ∧ ShowsAdded S digits ↔ decimal digits < 2 ^ 32 := by
  rw [one_key_iff S h]
  refine and_iff_left_of_imp fun hlt b c₀ c c' l reg u hsession hP hN hserved => ?_
  have hshow := h.shown
  rw [Nat.mod_eq_of_lt hlt] at hshow
  obtain ⟨events, hrun⟩ := (hsession.add hP hN hserved).run
  obtain ⟨hregistered, hanswer⟩ := hrun.answers (toKey (decimal digits))
  have hone : (CRIoTControl.query S c' (toKey (decimal digits)) == 1) = b := by
    rw [hanswer b (Function.update_self ..)]
    cases b <;> rfl
  refine ⟨fun s hs => ?_, fun d hd => ?_⟩
  · rw [showCommand_shown h hshow, hs, hone]
  · rw [deviceShow_shown h hshow, hd _ (hregistered.mpr (by simp)), hone]

def serverTracker : TrackerSetup (BitVec 64) ℕ :=
  { vBits := smallTracker.vBits, one_le := smallTracker.one_le
    hab := fun s k => smallTracker.hab s k.toNat, hdHash := fun s k => smallTracker.hdHash s k.toNat
    rand := smallTracker.rand, randHd := smallTracker.randHd
    hash := smallTracker.hash, engine := smallTracker.engine
    properAltRange := smallTracker.properAltRange, ele := id
    fp_length := smallTracker.fp_length, scaledCapacity := smallTracker.scaledCapacity }

theorem same_certificate_iff_small : (∃ key, TakenFor serverTracker "27".toList key) ∧
    ShowsAdded serverTracker "27".toList :=
  (same_certificate_iff serverTracker (.of_all (by decide) (by decide) (by decide))).mpr (by decide)

/-- 4294967297 is added as a key of its own, but shown as the key 1. -/
theorem text_shows_other_key : NumberText "4294967297".toList ∧
    requested toKey toValue "add" "add 4294967297 0".toList = some (.add (4294967297, 0)) ∧
    shown "show 4294967297".toList = some 1 ∧
    (∀ s : Listener (BitVec 64) ℕ,
      showCommand serverTracker toKey "show 4294967297".toList s =
        .ok (reply "4294967297".toList (CRIoTControl.query serverTracker s.dassTracker 1 == 1),
          s)) ∧
    ¬ ∃ key, TakenFor serverTracker "4294967297".toList key := by
  have htext : NumberText "4294967297".toList :=
    .of_all (by decide) (by decide) (by decide)
  refine ⟨htext, by decide, by decide, showCommand_shown htext (by decide), ?_⟩
  rintro ⟨key, htaken⟩
  have hshown : some key = some 1 := htaken.shown.symm.trans (by decide)
  have hrev := (htext.requests_rev serverTracker).1.symm.trans htaken.rev.1
  obtain rfl := Option.some.inj hshown
  revert hrev
  decide

end CertificateKeys
