import TinyCR.SummaryWire
import Mathlib.Data.List.Infix

/-! # The client's read loop

The loop in `readFullSummary` and in `listenForUpdates`: it collects what `recv` returns until
one buffer ends with "finish". Only that buffer is looked at, so a message may end too early
or be read before the start of a buffer. -/
namespace MessageFraming

open SummaryWire

def MAXRECV : ℕ := 500

/-- `data[n_bytes-1]=='h' && data[n_bytes-2]=='s' && ...` from `data[n_bytes-k]` on; `none` is an
index below zero. -/
def compareEnd (data : List UInt8) : ℕ → List UInt8 → Option Bool
  | _, [] => some true
  | k, letter :: letters =>
    if data.length < k then none
    else if data.getD (data.length - k) 0 = letter then compareEnd data (k + 1) letters
    else some false

def endsWithFinish (data : List UInt8) : Option Bool := compareEnd data 1 finish.reverse

/-- The bytes of the message and the buffers that are still to come; `none` when an index is
below zero or nothing more arrives. -/
def readMessage (msg : List UInt8) : List (List UInt8) → Option (List UInt8 × List (List UInt8))
  | [] => none
  | data :: buffers =>
    match endsWithFinish data with
    | none => none
    | some true => some (msg ++ data, buffers)
    | some false => readMessage (msg ++ data) buffers

structure Splits (payload : List UInt8) (buffers : List (List UInt8)) : Prop where
  whole : buffers.flatten = payload ++ finish
  nonempty : ∀ data ∈ buffers, data ≠ []
  bounded : ∀ data ∈ buffers, data.length ≤ MAXRECV

/-- The loop reads all of the message, and no more. -/
def ReadExactly (payload : List UInt8) (buffers : List (List UInt8)) : Prop :=
  readMessage [] buffers = some (payload ++ finish, [])

def compareFront : List UInt8 → List UInt8 → Option Bool
  | _, [] => some true
  | [], _ :: _ => none
  | byte :: bytes, letter :: letters =>
    if byte = letter then compareFront bytes letters else some false

theorem compareFront_true_iff (bytes letters : List UInt8) :
    compareFront bytes letters = some true ↔ letters <+: bytes := by
  induction letters generalizing bytes with
  | nil => exact iff_of_true (by rw [compareFront]) (List.nil_prefix)
  | cons letter letters ih =>
    cases bytes with
    | nil => exact iff_of_false (by rw [compareFront]; simp) (by simp)
    | cons byte bytes =>
      rw [compareFront, List.cons_prefix_cons]
      by_cases heq : byte = letter
      · rw [if_pos heq, ih, and_iff_right heq.symm]
      · rw [if_neg heq]
        exact iff_of_false (by simp) fun h => heq h.1.symm

theorem compareFront_none_iff (bytes letters : List UInt8) :
    compareFront bytes letters = none ↔ bytes <+: letters ∧ bytes ≠ letters := by
  induction letters generalizing bytes with
  | nil =>
    rw [compareFront, List.prefix_nil]
    exact iff_of_false (by simp) fun h => h.2 h.1
  | cons letter letters ih =>
    cases bytes with
    | nil => exact iff_of_true rfl ⟨List.nil_prefix, by simp⟩
    | cons byte bytes =>
      rw [compareFront, List.cons_prefix_cons]
      by_cases heq : byte = letter
      · rw [if_pos heq, ih, and_iff_right heq, heq, Ne, Ne, List.cons_inj_right]
      · rw [if_neg heq]
        exact iff_of_false (by simp) fun h => heq h.1.1

theorem compareEnd_eq (data : List UInt8) (k : ℕ) (letters : List UInt8) :
    compareEnd data (k + 1) letters = compareFront (data.reverse.drop k) letters := by
  induction letters generalizing k with
  | nil => rw [compareEnd, compareFront]
  | cons letter letters ih =>
    rw [compareEnd]
    by_cases hk : data.length < k + 1
    · rw [if_pos hk, List.drop_of_length_le (by rw [List.length_reverse]; omega), compareFront]
    · have hlt : k < data.reverse.length := by
        rw [List.length_reverse]
        omega
      have hbyte : data.getD (data.length - (k + 1)) 0 = data.reverse[k] := by
        rw [List.getElem_reverse, List.getD_eq_getElem _ _ (by omega)]
        congr 1
        omega
      rw [if_neg hk, List.drop_eq_getElem_cons hlt, compareFront, ih, hbyte]

theorem endsWithFinish_true_iff (data : List UInt8) :
    endsWithFinish data = some true ↔ finish <:+ data := by
  rw [endsWithFinish, compareEnd_eq, List.drop_zero, compareFront_true_iff, List.reverse_prefix]

theorem endsWithFinish_none_iff (data : List UInt8) :
    endsWithFinish data = none ↔ data <:+ finish ∧ data ≠ finish := by
  rw [endsWithFinish, compareEnd_eq, List.drop_zero, compareFront_none_iff, List.reverse_prefix,
    Ne, List.reverse_inj]

theorem readMessage_iff (msg last : List UInt8) (buffers : List (List UInt8)) :
    readMessage msg (buffers ++ [last]) = some (msg ++ (buffers ++ [last]).flatten, []) ↔
      (∀ data ∈ buffers, endsWithFinish data = some false) ∧
        endsWithFinish last = some true := by
  induction buffers generalizing msg with
  | nil =>
    rw [List.nil_append, readMessage]
    cases h : endsWithFinish last with
    | none => simp
    | some b => cases b <;> simp [readMessage]
  | cons data buffers ih =>
    rw [List.cons_append, readMessage, List.flatten_cons, ← List.append_assoc]
    cases h : endsWithFinish data with
    | none => simp [h]
    | some b =>
      cases b with
      | true => simp [h]
      | false =>
        rw [ih (msg ++ data)]
        simp [h]

/-- Exactly which ways to split a message the loop reads right. -/
theorem read_exactly_iff {payload : List UInt8} {buffers : List (List UInt8)}
    (h : Splits payload buffers) : ReadExactly payload buffers ↔
      (∀ data ∈ buffers, ¬ (data <:+ finish ∧ data ≠ finish)) ∧
        ∀ data ∈ buffers.dropLast, ¬ finish <:+ data := by
  have hne : buffers ≠ [] := by
    rintro rfl
    have hwhole := h.whole
    simp [finish] at hwhole
  obtain ⟨front, last, rfl⟩ : ∃ front last, buffers = front ++ [last] :=
    ⟨_, _, (List.dropLast_append_getLast hne).symm⟩
  have hread := readMessage_iff [] last front
  rw [h.whole, List.nil_append] at hread
  rw [ReadExactly, hread, List.dropLast_concat]
  -- the last buffer and "finish" end the same message
  have hlast : endsWithFinish last = some true ↔ endsWithFinish last ≠ none := by
    rw [endsWithFinish_true_iff, Ne, endsWithFinish_none_iff]
    have hend : last <:+ payload ++ finish := by
      rw [← h.whole, List.flatten_append]
      exact ⟨front.flatten, by simp⟩
    constructor
    · rintro hf ⟨hl, hlne⟩
      exact hlne (hl.eq_of_length (Nat.le_antisymm hl.length_le hf.length_le))
    · intro hno
      rcases List.suffix_or_suffix_of_suffix hend (List.suffix_append payload finish) with hl | hl
      · by_cases heq : last = finish
        · rw [heq]
        · exact absurd ⟨hl, heq⟩ hno
      · exact hl
  rw [hlast]
  simp only [← endsWithFinish_none_iff, ← endsWithFinish_true_iff]
  constructor
  · rintro ⟨hfront, hl⟩
    refine ⟨fun data hdata => ?_, fun data hdata => by rw [hfront data hdata]; simp⟩
    rcases List.mem_append.mp hdata with hdata | hdata
    · rw [hfront data hdata]
      simp
    · rw [List.mem_singleton.mp hdata]
      exact hl
  · rintro ⟨hall, hfront⟩
    refine ⟨fun data hdata => ?_, hall last (by simp)⟩
    have hnone := hall data (List.mem_append_left _ hdata)
    have htrue := hfront data hdata
    cases hd : endsWithFinish data with
    | none => exact absurd hd hnone
    | some b =>
      cases b with
      | true => exact absurd hd htrue
      | false => rfl

theorem read_exactly_iff_two : ReadExactly [1, 2] [[1], [2] ++ finish] ↔
    (∀ data ∈ [[1], [2] ++ finish], ¬ (data <:+ finish ∧ data ≠ finish)) ∧
      ∀ data ∈ [[1], [2] ++ finish].dropLast, ¬ finish <:+ data :=
  read_exactly_iff ⟨by decide, by decide, by decide⟩

/-- "finish" cut in two makes the index negative, and one inside the payload ends the message. -/
theorem read_wrongly : (Splits [] [[102], [105, 110, 105, 115, 104]] ∧
      ¬ ReadExactly [] [[102], [105, 110, 105, 115, 104]]) ∧
    Splits (finish ++ [0]) [finish, [0] ++ finish] ∧
      ¬ ReadExactly (finish ++ [0]) [finish, [0] ++ finish] :=
  ⟨⟨⟨by decide, by decide, by decide⟩, by rw [ReadExactly]; decide⟩,
    ⟨by decide, by decide, by decide⟩, by rw [ReadExactly]; decide⟩

end MessageFraming
