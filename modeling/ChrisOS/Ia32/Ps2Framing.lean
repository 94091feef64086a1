import ChrisOS.Ia32.Ps2
import Mathlib.Data.List.Forall2
import Mathlib.Tactic.IntervalCases

/-!
# The scancodes of a byte stream

Whatever bytes the keyboard thread reads, it splits them into scancodes of five forms, with at most one
that is not finished. No store leaves the array. The modifiers follow from the scancodes alone: each bit
is what the last scancode of its key made it.

The index into the tables is the byte of the key, and nothing keeps that below their length. A key whose
code is `0x80` or more reads behind them.
-/

namespace ChrisOS.Ia32

open ChrisOS.Utils ChrisOS.Sys

/-- The complete scancodes. -/
inductive KbdScancode
  | make (x : BitVec 8) (hx : x ≠ 0xE0 ∧ x ≠ 0xE1 ∧ x ≠ 0xF0)
  | release (x : BitVec 8)
  | extendedMake (y : BitVec 8) (hy : y ≠ 0xF0)
  | extendedRelease (x : BitVec 8)
  | pause (rest : List (BitVec 8)) (hrest : rest.length = 7)

namespace KbdScancode

/-- The bytes of a scancode. -/
def bytes : KbdScancode → List (BitVec 8)
  | make x _ => [x]
  | release x => [0xF0, x]
  | extendedMake y _ => [0xE0, y]
  | extendedRelease x => [0xE0, 0xF0, x]
  | pause rest _ => 0xE1 :: rest

/-- The byte that is taken for the key. Of the pause sequence it is the first one. -/
def key : KbdScancode → BitVec 8
  | make x _ | release x | extendedMake x _ | extendedRelease x => x
  | pause _ _ => 0xE1

/-- The number of bytes before the key. -/
def keyIndex : KbdScancode → ℕ
  | make _ _ | pause _ _ => 0
  | release _ | extendedMake _ _ => 1
  | extendedRelease _ => 2

/-- The key goes down. -/
def pressed : KbdScancode → Bool
  | make _ _ | extendedMake _ _ | pause _ _ => true
  | release _ | extendedRelease _ => false

/-- The scancode begins with `0xe0`. -/
def isExtended : KbdScancode → Bool
  | extendedMake _ _ | extendedRelease _ => true
  | make _ _ | release _ | pause _ _ => false

/-- The modifier key that a scancode names. -/
def modifier (code : KbdScancode) : Option Ps2KbdModBit := modifierOf code.key code.isExtended

/-- The modifiers after a scancode. -/
def modStateAfter (modState : Word) (code : KbdScancode) : Word :=
  match code.modifier with
  | some bit => withbit modState bit.toNat (if code.pressed then 1 else 0)
  | none => modState

/-- The key is one of the bytes. -/
theorem keyIndex_lt_length (code : KbdScancode) : code.keyIndex < code.bytes.length := by
  cases code <;> simp [keyIndex, bytes]

end KbdScancode

/-- The bytes of a scancode that is not finished, or of none. -/
inductive Unfinished : List (BitVec 8) → Prop
  | nil : Unfinished []
  | release : Unfinished [0xF0]
  | extended : Unfinished [0xE0]
  | extendedRelease : Unfinished [0xE0, 0xF0]
  | pause {rest : List (BitVec 8)} (hrest : rest.length < 7) : Unfinished (0xE1 :: rest)

variable {tail : List (BitVec 8)}

/-- There is room for one more byte. -/
theorem Unfinished.length_lt (h : Unfinished tail) : tail.length < maxScancodeBytes := by
  cases h with
  | nil | release | extended | extendedRelease => decide
  | pause hrest => exact Nat.succ_lt_succ hrest

/-- One more byte finishes the scancode, or it is still not finished. -/
theorem Unfinished.next (h : Unfinished tail) (byte : BitVec 8) :
    Unfinished (tail ++ [byte]) ∨ ∃ code : KbdScancode, code.bytes = tail ++ [byte] := by
  cases h with
  | nil =>
    by_cases hx : byte ≠ 0xE0 ∧ byte ≠ 0xE1 ∧ byte ≠ 0xF0
    · exact .inr ⟨.make byte hx, rfl⟩
    · left
      obtain rfl | rfl | rfl : byte = 0xE0 ∨ byte = 0xE1 ∨ byte = 0xF0 := by tauto
      · exact .extended
      · exact .pause (by decide)
      · exact .release
  | release => exact .inr ⟨.release byte, rfl⟩
  | extended =>
    by_cases hy : byte = 0xF0
    · subst hy
      exact .inl .extendedRelease
    · exact .inr ⟨.extendedMake byte hy, rfl⟩
  | extendedRelease => exact .inr ⟨.extendedRelease byte, rfl⟩
  | @pause rest hrest =>
    have hlength : (rest ++ [byte]).length = rest.length + 1 := List.length_append
    by_cases hlast : rest.length = 6
    · exact .inr ⟨.pause (rest ++ [byte]) (by omega), rfl⟩
    · have hroom : (rest ++ [byte]).length < 7 := by omega
      exact .inl (.pause hroom)

/-- The first bytes of an array. -/
def firstBytes {m : ℕ} (array : Fin m → BitVec 8) (n : ℕ) : List (BitVec 8) :=
  (List.ofFn array).take n

section FirstBytes

variable {m n : ℕ} {array : Fin m → BitVec 8}

/-- Storing a byte behind the first ones. -/
theorem firstBytes_update (hn : n < m) (byte : BitVec 8) :
    firstBytes (Function.update array ⟨n, hn⟩ byte) (n + 1) = firstBytes array n ++ [byte] := by
  have hlength : n < (List.ofFn (Function.update array ⟨n, hn⟩ byte)).length := by simpa using hn
  rw [firstBytes, firstBytes, List.take_succ_eq_append_getElem hlength]
  congr 1
  · apply List.ext_getElem (by simp)
    intro i hi _
    have hne : i ≠ n := by
      rw [List.length_take] at hi
      omega
    simp [hne]
  · simp

/-- A byte of the array that is among the first ones. -/
theorem eq_of_firstBytes {i : Fin m} {byte : BitVec 8}
    (h : (firstBytes array n)[i.val]? = some byte) : array i = byte := by
  obtain ⟨hi, hbyte⟩ := List.getElem?_eq_some_iff.mp h
  simpa [firstBytes] using hbyte

end FirstBytes

/-- The array holds some bytes from its start on. -/
def HoldsBytes (scancode : ScancodeArray) (bytes : List (BitVec 8)) : Prop :=
  firstBytes scancode bytes.length = bytes

section Complete

variable {scancode : ScancodeArray} {tail : List (BitVec 8)}

/-- A byte that the array holds. -/
theorem HoldsBytes.byte {bytes : List (BitVec 8)} (h : HoldsBytes scancode bytes) {i : Fin maxScancodeBytes}
    {byte : BitVec 8} (hi : bytes[i.val]? = some byte) : scancode i = byte := by
  rw [← h] at hi
  exact eq_of_firstBytes hi

/-- A scancode that begins with `0xe1` is not complete before its eighth byte. -/
theorem ps2KbdScancodeComplete_pause (h : scancode 0 = 0xE1) {n : ℕ} (hpos : 0 < n) (hn : n < 8) :
    ps2KbdScancodeComplete scancode n = false := by
  interval_cases n <;> simp [ps2KbdScancodeComplete, h]

/-- The bytes of an unfinished scancode are not complete. -/
theorem Unfinished.not_complete (h : Unfinished tail) (hne : tail ≠ []) (hholds : HoldsBytes scancode tail) :
    ps2KbdScancodeComplete scancode tail.length = false := by
  cases h with
  | nil => exact absurd rfl hne
  | release | extended => simp [ps2KbdScancodeComplete, hholds.byte (i := 0) rfl]
  | extendedRelease =>
    simp [ps2KbdScancodeComplete, hholds.byte (i := 0) rfl, hholds.byte (i := 1) rfl]
  | pause hrest =>
    exact ps2KbdScancodeComplete_pause (hholds.byte rfl) (Nat.succ_pos _) (Nat.succ_lt_succ hrest)

namespace KbdScancode

variable {code : KbdScancode}

/-- The bytes of a scancode are complete. -/
theorem complete (hholds : HoldsBytes scancode code.bytes) :
    ps2KbdScancodeComplete scancode code.bytes.length = true := by
  cases code with
  | make x hx =>
    simpa [bytes, ps2KbdScancodeComplete, hholds.byte (i := 0) rfl] using ⟨⟨hx.1, hx.2.2⟩, hx.2.1⟩
  | release x => simp [bytes, ps2KbdScancodeComplete, hholds.byte (i := 0) rfl]
  | extendedMake y hy =>
    simpa [bytes, ps2KbdScancodeComplete, hholds.byte (i := 0) rfl, hholds.byte (i := 1) rfl] using hy
  | extendedRelease x => simp [bytes, ps2KbdScancodeComplete, hholds.byte (i := 0) rfl]
  | pause rest hrest =>
    rw [bytes, List.length_cons, hrest]
    rfl

/-- What is found in an array that holds a scancode. -/
theorem scancodeKey_eq (hholds : HoldsBytes scancode code.bytes) :
    scancodeKey scancode =
      ⟨code.pressed, code.isExtended, code.key, List.range (code.keyIndex + 1)⟩ := by
  cases code with
  | make x hx =>
    have h0 : scancode 0 = x := hholds.byte rfl
    rw [scancodeKey, h0, if_neg hx.2.2, if_neg hx.1]
    rfl
  | release x =>
    have h0 : scancode 0 = 0xF0 := hholds.byte rfl
    have h1 : scancode 1 = x := hholds.byte rfl
    rw [scancodeKey, if_pos h0, h1]
    rfl
  | extendedMake y hy =>
    have h0 : scancode 0 = 0xE0 := hholds.byte rfl
    have h1 : scancode 1 = y := hholds.byte rfl
    rw [scancodeKey, h0, h1, if_neg (by decide), if_pos rfl, if_neg hy]
    rfl
  | extendedRelease x =>
    have h0 : scancode 0 = 0xE0 := hholds.byte rfl
    have h1 : scancode 1 = 0xF0 := hholds.byte rfl
    have h2 : scancode 2 = x := hholds.byte rfl
    rw [scancodeKey, h0, h1, h2, if_neg (by decide), if_pos rfl, if_pos rfl]
    rfl
  | pause rest hrest =>
    have h0 : scancode 0 = 0xE1 := hholds.byte rfl
    rw [scancodeKey, h0, if_neg (by decide), if_neg (by decide)]
    rfl

end KbdScancode

end Complete

/-- A lookup uses an index of its table. -/
def LookupInRange (lookup : List Char × ℕ) : Prop := lookup.2 < lookup.1.length

/-- A call handles a scancode: its bytes are the ones in the array, it reads no others, and its lookups
are in range exactly if the key is below `0x80`. -/
structure HandleCall.Handles (call : HandleCall) (code : KbdScancode) : Prop where
  length : call.length = code.bytes.length
  holds : HoldsBytes call.scancode code.bytes
  reads : call.handled.reads = List.range (code.keyIndex + 1)
  lookups : (∀ lookup ∈ call.handled.lookups, LookupInRange lookup) ↔ code.key < 0x80

/-- Modifier keys are below `0x80`. -/
theorem lt_of_modifierOf {key : BitVec 8} {e0 : Bool} {bit : Ps2KbdModBit}
    (h : modifierOf key e0 = some bit) : key < 0x80 := by
  unfold modifierOf at h
  split_ifs at h with halt hctrl hleft hright
  all_goals subst key; decide

/-- Both tables have 128 entries, so the lookups of a key are in range exactly if it is below that. -/
theorem lookups_inRange_iff (modState : Word) (key : BitVec 8) :
    (∀ lookup ∈ (ps2KbdScancodesSet2EnGb, key.toNat) ::
        if usesShiftTable modState then [(ps2KbdScancodesSet2EnGbShift, key.toNat)] else [],
      LookupInRange lookup) ↔ key < 0x80 := by
  have hplain : LookupInRange (ps2KbdScancodesSet2EnGb, key.toNat) ↔ key < 0x80 := Iff.rfl
  have hshift : LookupInRange (ps2KbdScancodesSet2EnGbShift, key.toNat) ↔ key < 0x80 := Iff.rfl
  rw [List.forall_mem_cons, hplain]
  split
  · rw [List.forall_mem_singleton, hshift, and_self_iff]
  · exact and_iff_left (List.forall_mem_nil _)

/-- Handling a scancode. -/
theorem ps2KbdHandleScancode_eq (behind : BehindTables) (modState : Word) {scancode : ScancodeArray}
    {code : KbdScancode} (hholds : HoldsBytes scancode code.bytes) :
    ∃ handled, ps2KbdHandleScancode behind modState scancode code.bytes.length = some handled ∧
      handled.modState = code.modStateAfter modState ∧
      HandleCall.Handles ⟨scancode, code.bytes.length, handled⟩ code := by
  have hne : code.bytes.length ≠ 0 := Nat.ne_of_gt (Nat.zero_lt_of_lt code.keyIndex_lt_length)
  unfold ps2KbdHandleScancode KbdScancode.modStateAfter KbdScancode.modifier
  rw [if_neg hne, KbdScancode.scancodeKey_eq hholds]
  dsimp only
  cases hmodifier : modifierOf code.key code.isExtended with
  | some bit =>
    refine ⟨_, rfl, rfl, rfl, hholds, rfl, ?_⟩
    exact iff_of_true (List.forall_mem_nil _) (lt_of_modifierOf hmodifier)
  | none => exact ⟨_, rfl, rfl, rfl, hholds, rfl, lookups_inRange_iff modState code.key⟩

/-- The thread waits for the byte behind an unfinished scancode. -/
def KbdThread.Waits (t : KbdThread) (tail : List (BitVec 8)) : Prop :=
  t.state = .waitingScancodeStart ∧ tail = [] ∨
    t.state = .waitingScancodeEnd ∧ tail ≠ [] ∧ t.scancodeI = tail.length ∧ HoldsBytes t.scancode tail

variable {t : KbdThread}

/-- In both states the byte is stored behind the unfinished scancode, and it is handled if it is then
complete. -/
theorem KbdThread.Waits.receive (h : t.Waits tail) (hroom : tail.length < maxScancodeBytes)
    (behind : BehindTables) (byte : BitVec 8) :
    ∃ scancode, HoldsBytes scancode (tail ++ [byte]) ∧
      ps2KbdReceive behind t byte =
        if ps2KbdScancodeComplete scancode (tail ++ [byte]).length then
          KbdThread.handle behind
            ⟨.waitingScancodeEnd, scancode, (tail ++ [byte]).length, t.modState, t.calls⟩
        else some ⟨.waitingScancodeEnd, scancode, (tail ++ [byte]).length, t.modState, t.calls⟩ := by
  have hlength : (tail ++ [byte]).length = tail.length + 1 := List.length_append
  refine ⟨Function.update t.scancode ⟨tail.length, hroom⟩ byte, ?_, ?_⟩
  · rw [HoldsBytes, hlength, firstBytes_update]
    obtain ⟨-, rfl⟩ | ⟨-, -, -, hholds⟩ := h
    · rfl
    · rw [hholds]
  · rw [hlength]
    obtain ⟨hstate, rfl⟩ | ⟨hstate, -, hindex, -⟩ := h
    · rw [ps2KbdReceive, hstate]
      dsimp only
      rw [KbdThread.store, dif_pos (Nat.zero_lt_succ 7), Option.bind_some]
      rfl
    · rw [ps2KbdReceive, hstate]
      dsimp only
      rw [KbdThread.store, hindex, dif_pos hroom, Option.bind_some, hstate]

/-- What the thread has done with a stream: the scancodes it handled, in order, and the tail it waits
behind are the stream, and the scancodes made the modifiers what they are. -/
structure Framed (modState : Word) (stream : List (BitVec 8)) (codes : List KbdScancode)
    (tail : List (BitVec 8)) (t : KbdThread) : Prop where
  split : stream = codes.flatMap KbdScancode.bytes ++ tail
  unfinished : Unfinished tail
  waits : t.Waits tail
  calls : List.Forall₂ HandleCall.Handles t.calls codes
  modState : t.modState = codes.foldl KbdScancode.modStateAfter modState

/-- One more byte. -/
theorem Framed.receive {modState : Word} {stream tail : List (BitVec 8)} {codes : List KbdScancode}
    (h : Framed modState stream codes tail t) (behind : BehindTables)
    (byte : BitVec 8) :
    ∃ codes' tail' t', ps2KbdReceive behind t byte = some t' ∧
      Framed modState (stream ++ [byte]) codes' tail' t' := by
  obtain ⟨scancode, hholds, hreceive⟩ := h.waits.receive h.unfinished.length_lt behind byte
  have hstream : stream ++ [byte] = codes.flatMap KbdScancode.bytes ++ (tail ++ [byte]) := by
    rw [h.split, List.append_assoc]
  have hne : tail ++ [byte] ≠ [] := by simp
  obtain hmore | ⟨code, hcode⟩ := h.unfinished.next byte
  · -- nothing is handled, the tail has one byte more
    rw [hmore.not_complete hne hholds] at hreceive
    exact ⟨codes, tail ++ [byte], _, hreceive, hstream, hmore, .inr ⟨rfl, hne, rfl, hholds⟩,
      h.calls, h.modState⟩
  · -- the tail with the byte is a scancode; it is handled, and the next byte starts another
    rw [← hcode] at hholds hreceive hstream
    obtain ⟨handled, hhandle, hmodState, hhandles⟩ :=
      ps2KbdHandleScancode_eq behind t.modState hholds
    rw [KbdScancode.complete hholds, if_pos rfl, KbdThread.handle, hhandle, Option.map_some]
      at hreceive
    refine ⟨codes ++ [code], [], _, hreceive, ?_, .nil, .inl ⟨rfl, rfl⟩, ?_, ?_⟩
    · rw [hstream, List.flatMap_append, List.flatMap_singleton, List.append_nil]
    · exact List.rel_append h.calls (.cons hhandles .nil)
    · rw [List.foldl_append, ← h.modState]
      exact hmodState

/-- A whole stream, whatever its bytes are. -/
theorem Framed.receiveAll {modState : Word} {stream tail : List (BitVec 8)} {codes : List KbdScancode}
    (h : Framed modState stream codes tail t) (behind : BehindTables)
    (more : List (BitVec 8)) :
    ∃ codes' tail' t', ps2KbdReceiveAll behind t more = some t' ∧
      Framed modState (stream ++ more) codes' tail' t' := by
  induction more generalizing stream tail codes t with
  | nil =>
    rw [List.append_nil]
    exact ⟨codes, tail, t, rfl, h⟩
  | cons byte more ih =>
    obtain ⟨_, _, t₁, hbyte, h₁⟩ := h.receive behind byte
    obtain ⟨codes', tail', t', hmore, h'⟩ := ih h₁
    refine ⟨codes', tail', t', ?_, ?_⟩
    · rw [ps2KbdReceiveAll, List.foldlM_cons, hbyte]
      exact hmore
    · rwa [List.append_cons]

/-- The thread from its start on. -/
theorem framed_start (behind : BehindTables) (scancode : ScancodeArray) (modState : Word)
    (stream : List (BitVec 8)) :
    ∃ codes tail t, ps2KbdReceiveAll behind (.start scancode modState) stream = some t ∧
      Framed modState stream codes tail t :=
  have hstart : Framed modState [] [] [] (.start scancode modState) :=
    ⟨rfl, .nil, .inl ⟨rfl, rfl⟩, .nil, rfl⟩
  hstart.receiveAll behind stream

section Modifiers

/-- A scancode writes the bit of the key it names, and no other bit. -/
theorem KbdScancode.getLsbD_modStateAfter (code : KbdScancode) (modState : Word) (k : ℕ) :
    (code.modStateAfter modState).getLsbD k =
      if code.modifier.map Ps2KbdModBit.toNat = some k then code.pressed
      else modState.getLsbD k := by
  unfold KbdScancode.modStateAfter
  cases hmodifier : code.modifier with
  | none => rfl
  | some bit =>
    have hbit : bit.toNat < 32 := by cases bit <;> decide
    dsimp only
    rw [withbit, getLsbD_withbits _ _ hbit hbit, Option.map_some]
    by_cases hk : bit.toNat = k
    · subst hk
      rw [if_pos ⟨Nat.le_refl _, Nat.le_refl _⟩, if_pos rfl, Nat.sub_self]
      cases code.pressed <;> rfl
    · rw [if_neg (by omega), if_neg (Option.some_injective ℕ |>.ne hk)]

/-- Different modifier keys have different bits. -/
theorem Ps2KbdModBit.toNat_inj {bit bit' : Ps2KbdModBit} : bit.toNat = bit'.toNat ↔ bit = bit' := by
  cases bit <;> cases bit' <;> decide

/-- The presses and releases of a modifier key, in order. -/
def presses (bit : Ps2KbdModBit) (codes : List KbdScancode) : List Bool :=
  (codes.filter fun code => code.modifier = some bit).map KbdScancode.pressed

/-- The bit of a modifier key is what the last scancode that names it made it. -/
theorem getLsbD_foldl_modStateAfter (bit : Ps2KbdModBit) (codes : List KbdScancode) (modState : Word) :
    (codes.foldl KbdScancode.modStateAfter modState).getLsbD bit.toNat =
      (presses bit codes).getLastD (modState.getLsbD bit.toNat) := by
  induction codes generalizing modState with
  | nil => rfl
  | cons code codes ih =>
    rw [List.foldl_cons, ih, code.getLsbD_modStateAfter]
    by_cases hmodifier : code.modifier = some bit
    · have hpresses : presses bit (code :: codes) = code.pressed :: presses bit codes := by
        rw [presses, List.filter_cons_of_pos (by simpa), List.map_cons, presses]
      rw [if_pos (by rw [hmodifier, Option.map_some]), hpresses, List.getLastD_cons]
    · have hother : code.modifier.map Ps2KbdModBit.toNat ≠ some bit.toNat := by
        intro h
        obtain ⟨bit', hbit', heq⟩ := Option.map_eq_some_iff.mp h
        rw [Ps2KbdModBit.toNat_inj.mp heq] at hbit'
        exact hmodifier hbit'
      rw [if_neg hother, presses, presses, List.filter_cons_of_neg (by simpa)]

/-- No other bit changes. -/
theorem getLsbD_foldl_of_not_modifier {k : ℕ} (hk : ∀ bit : Ps2KbdModBit, bit.toNat ≠ k)
    (codes : List KbdScancode) (modState : Word) :
    (codes.foldl KbdScancode.modStateAfter modState).getLsbD k = modState.getLsbD k := by
  induction codes generalizing modState with
  | nil => rfl
  | cons code codes ih =>
    have hother : code.modifier.map Ps2KbdModBit.toNat ≠ some k := by
      intro h
      obtain ⟨bit, -, hbit⟩ := Option.map_eq_some_iff.mp h
      exact hk bit hbit
    rw [List.foldl_cons, ih, code.getLsbD_modStateAfter, if_neg hother]

end Modifiers

/-- Whatever bytes are read, every store is inside the array, and the scancodes that are handled, with a
tail that is not finished, are the stream. The bit of every modifier key is what the last scancode that
names the key made it, and the other bits are as they were. -/
theorem ps2KbdThread_frames (behind : BehindTables) (scancode : ScancodeArray) (modState : Word)
    (stream : List (BitVec 8)) :
    ∃ t codes tail, ps2KbdReceiveAll behind (.start scancode modState) stream = some t ∧
      t.calls.map (fun call => firstBytes call.scancode call.length) = codes.map KbdScancode.bytes ∧
      stream = codes.flatMap KbdScancode.bytes ++ tail ∧ Unfinished tail ∧
      (∀ bit : Ps2KbdModBit, t.modState.getLsbD bit.toNat =
        (presses bit codes).getLastD (modState.getLsbD bit.toNat)) ∧
      ∀ k, (∀ bit : Ps2KbdModBit, bit.toNat ≠ k) → t.modState.getLsbD k = modState.getLsbD k := by
  obtain ⟨codes, tail, t, hrun, h⟩ := framed_start behind scancode modState stream
  refine ⟨t, codes, tail, hrun, ?_, h.split, h.unfinished, fun bit => ?_, fun k hk => ?_⟩
  · rw [← List.forall₂_eq_eq_eq, List.forall₂_map_left_iff, List.forall₂_map_right_iff]
    refine h.calls.imp fun call code hhandles => ?_
    rw [hhandles.length]
    exact hhandles.holds
  · rw [h.modState]
    exact getLsbD_foldl_modStateAfter bit codes modState
  · rw [h.modState]
    exact getLsbD_foldl_of_not_modifier hk codes modState

section Calls

variable {calls : List HandleCall} {codes : List KbdScancode}

/-- The bytes that are read for a key belong to its scancode. -/
theorem forall_reads_lt (h : List.Forall₂ HandleCall.Handles calls codes) :
    ∀ call ∈ calls, ∀ i ∈ call.handled.reads, i < call.length := by
  induction h with
  | nil => exact List.forall_mem_nil _
  | @cons call code _ _ hhandles _ ih =>
    refine List.forall_mem_cons.mpr ⟨fun i hi => ?_, ih⟩
    rw [hhandles.reads, List.mem_range] at hi
    rw [hhandles.length]
    exact Nat.lt_of_lt_of_le hi code.keyIndex_lt_length

/-- All lookups are in range exactly if all keys are below `0x80`. -/
theorem forall_lookups_iff (h : List.Forall₂ HandleCall.Handles calls codes) :
    (∀ call ∈ calls, ∀ lookup ∈ call.handled.lookups, LookupInRange lookup) ↔
      ∀ code ∈ codes, code.key < 0x80 := by
  induction h with
  | nil => exact iff_of_true (List.forall_mem_nil _) (List.forall_mem_nil _)
  | cons hhandles _ ih => rw [List.forall_mem_cons, List.forall_mem_cons, hhandles.lookups, ih]

end Calls

/-- The bytes of a scancode that are read are its own. The lookups are in range exactly if the key of
every complete scancode is below `0x80`. -/
theorem ps2KbdThread_lookups_iff (behind : BehindTables) (scancode : ScancodeArray) (modState : Word)
    (stream : List (BitVec 8)) :
    ∃ t, ∃ codes : List KbdScancode, ∃ tail,
      ps2KbdReceiveAll behind (.start scancode modState) stream = some t ∧
      stream = codes.flatMap KbdScancode.bytes ++ tail ∧ Unfinished tail ∧
      (∀ call ∈ t.calls, ∀ i ∈ call.handled.reads, i < call.length) ∧
      ((∀ call ∈ t.calls, ∀ lookup ∈ call.handled.lookups, LookupInRange lookup) ↔
        ∀ code ∈ codes, code.key < 0x80) := by
  obtain ⟨codes, tail, t, hrun, h⟩ := framed_start behind scancode modState stream
  exact ⟨t, codes, tail, hrun, h.split, h.unfinished, forall_reads_lt h.calls,
    forall_lookups_iff h.calls⟩

/-- The key F7 sends `0x83`, which is no index of the table. -/
theorem ps2KbdThread_looks_behind :
    ∃ t call, ps2KbdReceiveAll ⟨fun _ => 0, fun _ => 0⟩ (.start (fun _ => 0) 0) [0x83] = some t ∧
      call ∈ t.calls ∧ (ps2KbdScancodesSet2EnGb, 0x83) ∈ call.handled.lookups ∧
      ¬ LookupInRange (ps2KbdScancodesSet2EnGb, 0x83) :=
  ⟨_, _, rfl, List.mem_singleton.mpr rfl, List.mem_singleton.mpr rfl, (by decide : ¬ 0x83 < 128)⟩

end ChrisOS.Ia32
