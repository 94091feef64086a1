import ChrisOS.Drivers.Tty

/-!
# The line buffer is a double-ended queue

The unread characters of the line buffer are a list that key events extend or shorten at its end
and `tty_getc` shortens at its front. Growing the buffer and compacting it leave the list alone.
-/

namespace ChrisOS.Drivers

open ChrisOS.Lib ChrisOS.Utils

/-- The three positions are in order, and the data is inside the 32-bit space. -/
structure TtyBuffer.Fits (b : TtyBuffer) : Prop where
  readPos : b.line.readPos.toNat ≤ b.line.writePos.toNat
  length : b.line.length = b.line.writePos
  capacity : b.line.writePos.toNat ≤ b.line.capacity.toNat
  block : b.line.data.toNat + b.line.capacity.toNat ≤ 2 ^ 32

/-- The characters that were typed and not read yet. -/
def TtyBuffer.unread (b : TtyBuffer) : List (BitVec 8) :=
  bytesAt b.mem (b.line.data + b.line.readPos) (b.line.writePos.toNat - b.line.readPos.toNat)

/-- `krealloc` fails and leaves the line's data alone, or returns a block of the size asked for that
begins with the bytes of the data. -/
structure Krealloc.Preserves (krealloc : Krealloc) (b : TtyBuffer) : Prop where
  failed : ∀ size, (krealloc b.mem b.line.data size).1 = 0 → ∀ i < b.line.capacity.toNat,
    (krealloc b.mem b.line.data size).2 (b.line.data + BitVec.ofNat 32 i) =
      b.mem (b.line.data + BitVec.ofNat 32 i)
  moved : ∀ size, (krealloc b.mem b.line.data size).1 ≠ 0 →
    (krealloc b.mem b.line.data size).1.toNat + size.toNat ≤ 2 ^ 32 ∧
      ∀ i < b.line.capacity.toNat, i < size.toNat →
        (krealloc b.mem b.line.data size).2
            ((krealloc b.mem b.line.data size).1 + BitVec.ofNat 32 i) =
          b.mem (b.line.data + BitVec.ofNat 32 i)

/-- There is no room for a character, and `krealloc` gives none. -/
def TtyBuffer.noRoom (krealloc : Krealloc) (b : TtyBuffer) : Bool :=
  ttyLineWriteSpaceAvailable b.line < 1 &&
    (krealloc b.mem b.line.data (ttyLineNewCapacity b.line 1)).1 = 0

/-- The character is not stored. -/
def TtyBuffer.refuses (krealloc : Krealloc) (b : TtyBuffer) (c : BitVec 8) : Bool :=
  c ≠ backspace && b.noRoom krealloc

/-- What a character does to a queue. -/
def editQueue (q : List (BitVec 8)) (c : BitVec 8) : List (BitVec 8) :=
  if c = backspace then q.dropLast else q ++ [c]

/-- The same queue at the same positions, in data that may be elsewhere. -/
structure TtyBuffer.Regrown (b b' : TtyBuffer) : Prop where
  fits : b'.Fits
  unread : b'.unread = b.unread
  readPos : b'.line.readPos = b.line.readPos
  writePos : b'.line.writePos = b.line.writePos

section Functions

variable {krealloc : Krealloc} {b : TtyBuffer}

/-- A buffer with the same bytes in its data has the same queue. -/
theorem TtyBuffer.unread_eq_of_data {b' : TtyBuffer} (hb : b.Fits)
    (hread : b'.line.readPos = b.line.readPos) (hwrite : b'.line.writePos = b.line.writePos)
    (hdata : ∀ i < b.line.capacity.toNat, b'.mem (b'.line.data + BitVec.ofNat 32 i) =
      b.mem (b.line.data + BitVec.ofNat 32 i)) : b'.unread = b.unread := by
  rw [unread, unread, hread, hwrite]
  apply bytesAt_congr
  intro i hi
  rw [add_add_ofNat, add_add_ofNat]
  have hcapacity := hb.capacity
  exact hdata _ (by omega)

/-- The new capacity is greater, unless it overflows. -/
theorem toNat_ttyLineNewCapacity {line : TtyLine} (hcap : line.capacity.toNat < 2 ^ 31) :
    line.capacity.toNat < (ttyLineNewCapacity line 1).toNat := by
  unfold ttyLineNewCapacity
  split <;> bv_omega

/-- Reserving space keeps the queue, and makes room for a character unless it fails. -/
theorem ttyLineReserveSpace_spec (h : b.Fits) (hcap : b.line.capacity.toNat < 2 ^ 31)
    (hk : krealloc.Preserves b) :
    ∃ b', ttyLineReserveSpace krealloc b 1 = (b', !b.noRoom krealloc) ∧ b.Regrown b' ∧
      (b.noRoom krealloc = false → b.line.writePos.toNat < b'.line.capacity.toNat) := by
  have hgrow := toNat_ttyLineNewCapacity hcap
  have hwrite := h.capacity
  rw [TtyBuffer.noRoom, ttyLineReserveSpace]
  generalize ttyLineNewCapacity b.line 1 = newCapacity at *
  by_cases hfull : ttyLineWriteSpaceAvailable b.line < 1
  · rw [if_pos hfull, decide_eq_true hfull, Bool.true_and]
    by_cases hfailed : (krealloc b.mem b.line.data newCapacity).1 = 0
    · rw [decide_eq_true hfailed]
      refine ⟨⟨b.line, (krealloc b.mem b.line.data newCapacity).2⟩, if_neg (not_not_intro hfailed),
        ⟨⟨h.readPos, h.length, h.capacity, h.block⟩, ?_, rfl, rfl⟩, fun hroom => by cases hroom⟩
      exact TtyBuffer.unread_eq_of_data h rfl rfl (hk.failed _ hfailed)
    · obtain ⟨hfits, hbytes⟩ := hk.moved _ hfailed
      have hroom := Nat.lt_of_le_of_lt hwrite hgrow
      rw [decide_eq_false hfailed]
      refine ⟨⟨⟨(krealloc b.mem b.line.data newCapacity).1, newCapacity, _, _, _⟩,
          (krealloc b.mem b.line.data newCapacity).2⟩, if_pos hfailed,
        ⟨⟨h.readPos, h.length, Nat.le_of_lt hroom, hfits⟩, ?_, rfl, rfl⟩, fun _ => hroom⟩
      exact TtyBuffer.unread_eq_of_data h rfl rfl fun i hi => hbytes i hi (Nat.lt_trans hi hgrow)
  · rw [if_neg hfull, decide_eq_false hfull, Bool.false_and]
    refine ⟨b, rfl, ⟨h, rfl, rfl, rfl⟩, fun _ => ?_⟩
    unfold ttyLineWriteSpaceAvailable at hfull
    bv_omega

/-- Storing a character where there is room for it. -/
theorem TtyBuffer.Fits.store (h : b.Fits) (hroom : b.line.writePos.toNat < b.line.capacity.toNat)
    (c : BitVec 8) :
    TtyBuffer.Fits ⟨{ b.line with writePos := b.line.writePos + 1, length := b.line.length + 1 },
        Function.update b.mem (b.line.data + b.line.writePos) c⟩ ∧
      TtyBuffer.unread ⟨{ b.line with writePos := b.line.writePos + 1, length := b.line.length + 1 },
        Function.update b.mem (b.line.data + b.line.writePos) c⟩ = b.unread ++ [c] := by
  obtain ⟨hread, hlength, hwrite, hblock⟩ := h
  have hnext : (b.line.writePos + 1).toNat = b.line.writePos.toNat + 1 := by bv_omega
  refine ⟨⟨by dsimp only; omega, by dsimp only; rw [hlength], by dsimp only; omega, hblock⟩, ?_⟩
  rw [TtyBuffer.unread, TtyBuffer.unread]
  dsimp only
  rw [hnext, Nat.succ_sub hread, bytesAt_succ, add_add_ofNat, Nat.add_sub_cancel' hread,
    BitVec.ofNat_toNat, BitVec.setWidth_eq, Function.update_self]
  congr 1
  apply bytesAt_congr
  intro i hi
  rw [add_add_ofNat, Function.update_of_ne]
  have hne := add_ofNat_ne b.line.data (i := b.line.readPos.toNat + i)
    (j := b.line.writePos.toNat) (by omega) (by omega) (by omega)
  rwa [BitVec.ofNat_toNat, BitVec.setWidth_eq] at hne

/-- Erasing the last character. -/
theorem TtyBuffer.Fits.erase (h : b.Fits) (hsome : b.line.readPos < b.line.writePos) :
    TtyBuffer.Fits { b with line := { b.line with
        writePos := b.line.writePos - 1, length := b.line.length - 1 } } ∧
      TtyBuffer.unread { b with line := { b.line with
        writePos := b.line.writePos - 1, length := b.line.length - 1 } } = b.unread.dropLast := by
  obtain ⟨hread, hlength, hwrite, hblock⟩ := h
  have hlast : (b.line.writePos - 1).toNat = b.line.writePos.toNat - 1 := by bv_omega
  have hlt : b.line.readPos.toNat < b.line.writePos.toNat := hsome
  refine ⟨⟨by dsimp only; omega, by dsimp only; rw [hlength], by dsimp only; omega, hblock⟩, ?_⟩
  obtain ⟨n, hn⟩ : ∃ n, b.line.writePos.toNat - b.line.readPos.toNat = n + 1 :=
    ⟨_, (Nat.succ_pred_eq_of_pos (Nat.sub_pos_of_lt hlt)).symm⟩
  rw [TtyBuffer.unread, TtyBuffer.unread]
  dsimp only
  rw [hn, bytesAt_succ, List.dropLast_concat, hlast]
  congr 1
  omega

/-- With nothing unread the positions are equal. -/
theorem TtyBuffer.unread_eq_nil (hnone : ¬ b.line.readPos < b.line.writePos) : b.unread = [] := by
  have hle : b.line.writePos.toNat ≤ b.line.readPos.toNat := Nat.le_of_not_lt hnone
  rw [TtyBuffer.unread, Nat.sub_eq_zero_of_le hle, bytesAt_zero]

/-- With something unread they are not. -/
theorem TtyBuffer.readPos_lt_writePos (hsome : b.unread ≠ []) : b.line.readPos < b.line.writePos := by
  by_contra hnone
  exact hsome (unread_eq_nil hnone)

/-- A character edits the queue, unless there is no room for it. -/
theorem ttyLineAppendChar_spec (h : b.Fits) (hcap : b.line.capacity.toNat < 2 ^ 31)
    (hk : krealloc.Preserves b) (c : BitVec 8) :
    ∃ b', ttyLineAppendChar krealloc b c = some (b', !b.refuses krealloc c) ∧ b'.Fits ∧
      b'.line.writePos.toNat ≤ 2 ^ 31 ∧
      b'.unread = if b.refuses krealloc c then b.unread else editQueue b.unread c := by
  have hwrite := h.capacity
  rw [ttyLineAppendChar, TtyBuffer.refuses, editQueue]
  by_cases hc : c = backspace
  · rw [if_pos hc, if_pos hc, decide_eq_false (not_not_intro hc), Bool.false_and]
    by_cases hsome : b.line.readPos < b.line.writePos
    · obtain ⟨hfits, hunread⟩ := h.erase hsome
      have hlast : (b.line.writePos - 1).toNat ≤ b.line.writePos.toNat := by bv_omega
      exact ⟨_, if_pos hsome, hfits, by dsimp only; omega, hunread⟩
    · refine ⟨b, if_neg hsome, h, by omega, ?_⟩
      rw [TtyBuffer.unread_eq_nil hsome]
      rfl
  · obtain ⟨b', hreserve, hsame, hlt⟩ := ttyLineReserveSpace_spec h hcap hk
    rw [if_neg hc, if_neg hc, decide_eq_true hc, Bool.true_and, hreserve]
    rw [← hsame.writePos] at hwrite hlt
    dsimp only
    cases hroom : b.noRoom krealloc with
    | true => exact ⟨b', rfl, hsame.fits, by omega, hsame.unread⟩
    | false =>
      have hlt := hlt hroom
      obtain ⟨hfits, hunread⟩ := hsame.fits.store hlt c
      have hspace : ttyLineWriteSpaceAvailable b'.line > 0 := by
        unfold ttyLineWriteSpaceAvailable
        bv_omega
      have hnext : (b'.line.writePos + 1).toNat ≤ b'.line.writePos.toNat + 1 := by bv_omega
      refine ⟨_, (if_pos rfl).trans (if_pos hspace), hfits, by dsimp only; omega, ?_⟩
      rw [hunread, hsame.unread]
      rfl

/-- Compacting keeps the queue. -/
theorem ttyCompactBuffer_spec (h : b.Fits) (hsome : b.line.readPos < b.line.writePos)
    (hsize : b.line.writePos.toNat ≤ 2 ^ 31) :
    (ttyCompactBuffer b).Fits ∧ (ttyCompactBuffer b).unread = b.unread := by
  obtain ⟨hread, hlength, hwrite, hblock⟩ := h
  have hlt : b.line.readPos.toNat < b.line.writePos.toNat := hsome
  have hmoved : (b.line.writePos - b.line.readPos).toNat =
      b.line.writePos.toNat - b.line.readPos.toNat := by bv_omega
  refine ⟨⟨Nat.zero_le _, ?_, ?_, hblock⟩, ?_⟩
  · rw [ttyCompactBuffer]
    dsimp only
    rw [hlength]
  · rw [ttyCompactBuffer]
    dsimp only
    omega
  · rw [TtyBuffer.unread, TtyBuffer.unread, ttyCompactBuffer]
    dsimp only
    rw [hmoved, hlength]
    apply bytesAt_congr
    intro i hi
    rw [show b.line.data + 0 = b.line.data from BitVec.add_zero _]
    exact memmove_lower _ _ _ _ (by omega) (by omega) (by omega)

/-- Appending a newline: it is refused, or stored, and then there is something to read. -/
theorem ttyLineAppendChar_newline (h : b.Fits) (hcap : b.line.capacity.toNat < 2 ^ 31)
    (hk : krealloc.Preserves b) :
    ∃ b', b'.Fits ∧ b'.line.writePos.toNat ≤ 2 ^ 31 ∧
      (b.refuses krealloc ttyNewLineChar = true ∧
          ttyLineAppendChar krealloc b ttyNewLineChar = some (b', false) ∧ b'.unread = b.unread ∨
        b.refuses krealloc ttyNewLineChar = false ∧
          ttyLineAppendChar krealloc b ttyNewLineChar = some (b', true) ∧
          b'.unread = editQueue b.unread ttyNewLineChar ∧ b'.line.readPos < b'.line.writePos) := by
  obtain ⟨b', happend, hfits, hsize, hunread⟩ := ttyLineAppendChar_spec h hcap hk ttyNewLineChar
  refine ⟨b', hfits, hsize, ?_⟩
  cases hrefused : b.refuses krealloc ttyNewLineChar with
  | true =>
    rw [hrefused] at happend hunread
    exact Or.inl ⟨rfl, happend, hunread⟩
  | false =>
    rw [hrefused] at happend hunread
    have hne : b'.unread ≠ [] := hunread ▸ List.concat_ne_nil _ _
    exact Or.inr ⟨rfl, happend, hunread, TtyBuffer.readPos_lt_writePos hne⟩

/-- A newline is stored, and the queue compacted, unless there is no room for it. -/
theorem ttyLineNewline_spec (h : b.Fits) (hcap : b.line.capacity.toNat < 2 ^ 31)
    (hk : krealloc.Preserves b) :
    ∃ b', ttyLineNewline krealloc b = some (b', !b.refuses krealloc ttyNewLineChar) ∧ b'.Fits ∧
      b'.unread = if b.refuses krealloc ttyNewLineChar then b.unread
        else editQueue b.unread ttyNewLineChar := by
  obtain ⟨b', hfits, hsize, ⟨hrefused, happend, hunread⟩ | ⟨hrefused, happend, hunread, hsome⟩⟩ :=
    ttyLineAppendChar_newline h hcap hk
  · rw [ttyLineNewline, happend, hrefused]
    exact ⟨b', rfl, hfits, hunread⟩
  · obtain ⟨hfits', hunread'⟩ := ttyCompactBuffer_spec hfits hsome hsize
    rw [ttyLineNewline, happend, hrefused]
    exact ⟨_, rfl, hfits', hunread'.trans hunread⟩

/-- A key event edits the queue, unless there is no room for its character. -/
theorem ttySendKeyEvent_spec (h : b.Fits) (hcap : b.line.capacity.toNat < 2 ^ 31)
    (hk : krealloc.Preserves b) (event : TtyKeyEvent) :
    ∃ b', ttySendKeyEvent krealloc b event = some b' ∧ b'.Fits ∧
      b'.unread = if event.types && !b.refuses krealloc event.character then
        editQueue b.unread event.character else b.unread := by
  rw [ttySendKeyEvent]
  cases htypes : event.types with
  | false => exact ⟨b, rfl, h, rfl⟩
  | true =>
    rw [if_pos rfl, Bool.true_and]
    by_cases hc : event.character = ttyNewLineChar
    · obtain ⟨b', hnewline, hfits, hunread⟩ := ttyLineNewline_spec h hcap hk
      rw [if_pos hc, hnewline, hc]
      refine ⟨b', rfl, hfits, hunread.trans ?_⟩
      cases b.refuses krealloc ttyNewLineChar <;> rfl
    · obtain ⟨b', happend, hfits, _, hunread⟩ := ttyLineAppendChar_spec h hcap hk event.character
      rw [if_neg hc, happend]
      refine ⟨b', rfl, hfits, hunread.trans ?_⟩
      cases b.refuses krealloc event.character <;> rfl

/-- Reading when there is something to read takes the first character of the queue. -/
theorem ttyGetc_spec (h : b.Fits) (havailable : ttyLineReadCharsAvailable b.line ≠ 0) :
    ∃ c rest, b.unread = c :: rest ∧ (ttyGetc b).2 = c.toInt ∧ (ttyGetc b).1.Fits ∧
      (ttyGetc b).1.unread = rest := by
  obtain ⟨hread, hlength, hwrite, hblock⟩ := h
  rw [ttyLineReadCharsAvailable, hlength] at havailable
  have hlt : b.line.readPos.toNat < b.line.writePos.toNat := by bv_omega
  have hnext : (b.line.readPos + 1).toNat = b.line.readPos.toNat + 1 := by bv_omega
  obtain ⟨n, hn⟩ : ∃ n, b.line.writePos.toNat - b.line.readPos.toNat = n + 1 :=
    ⟨_, (Nat.succ_pred_eq_of_pos (Nat.sub_pos_of_lt hlt)).symm⟩
  rw [ttyGetc, if_neg (by rwa [ttyLineReadCharsAvailable, hlength])]
  refine ⟨b.mem (b.line.data + b.line.readPos), bytesAt b.mem (b.line.data + b.line.readPos + 1) n,
    ?_, rfl, ⟨?_, hlength, hwrite, hblock⟩, ?_⟩
  · rw [TtyBuffer.unread, hn, bytesAt_succ_left]
  · dsimp only
    omega
  · rw [TtyBuffer.unread]
    dsimp only
    rw [hnext, ← BitVec.add_assoc]
    congr 1
    omega

end Functions

/-- The states of runs of key events and reads, each with the queue that its events make: `krealloc`
may fail at any time, and reads are made when there is something to read. -/
inductive TtyReachable : TtyBuffer → List (BitVec 8) → Prop
  | init (mem : ByteMem 32) : TtyReachable (ttyInit mem) []
  | key {b b' : TtyBuffer} {q : List (BitVec 8)} (h : TtyReachable b q) (event : TtyKeyEvent)
      (krealloc : Krealloc) (hcap : b.line.capacity.toNat < 2 ^ 31) (hk : krealloc.Preserves b)
      (hsend : ttySendKeyEvent krealloc b event = some b') :
      TtyReachable b' (if event.types && !b.refuses krealloc event.character then
        editQueue q event.character else q)
  | getc {b : TtyBuffer} {q : List (BitVec 8)} (h : TtyReachable b q)
      (havailable : ttyLineReadCharsAvailable b.line ≠ 0) : TtyReachable (ttyGetc b).1 q.tail

variable {q : List (BitVec 8)} {b : TtyBuffer}

/-- The buffer holds the queue in every state of every run. -/
theorem TtyReachable.fits (h : TtyReachable b q) : b.Fits ∧ b.unread = q := by
  induction h with
  | init mem => exact ⟨⟨Nat.le_refl _, rfl, Nat.le_refl _, Nat.zero_le _⟩, rfl⟩
  | key h event krealloc hcap hk hsend ih =>
    obtain ⟨hfits, rfl⟩ := ih
    obtain ⟨b', hsend', hfits', hunread⟩ := ttySendKeyEvent_spec hfits hcap hk event
    obtain rfl := Option.some.inj (hsend'.symm.trans hsend)
    exact ⟨hfits', hunread⟩
  | getc h havailable ih =>
    obtain ⟨hfits, rfl⟩ := ih
    obtain ⟨c, rest, hunread, _, hfits', hrest⟩ := ttyGetc_spec hfits havailable
    exact ⟨hfits', by rw [hrest, hunread, List.tail_cons]⟩

/-- In every run of key events and reads the positions are in order, the unread characters are the
queue, every event is handled, and a read returns the front of the queue. -/
theorem tty_line_refines_deque {b : TtyBuffer} {q : List (BitVec 8)} (h : TtyReachable b q) :
    (b.line.readPos ≤ b.line.writePos ∧ b.line.writePos = b.line.length ∧
        b.line.length ≤ b.line.capacity) ∧
      bytesAt b.mem (b.line.data + b.line.readPos)
        (b.line.writePos.toNat - b.line.readPos.toNat) = q ∧
      (∀ event krealloc, b.line.capacity.toNat < 2 ^ 31 → krealloc.Preserves b →
        (ttySendKeyEvent krealloc b event).isSome) ∧
      (ttyLineReadCharsAvailable b.line ≠ 0 →
        ∃ c, q.head? = some c ∧ (ttyGetc b).2 = c.toInt) := by
  obtain ⟨hfits, hunread⟩ := h.fits
  refine ⟨⟨hfits.readPos, hfits.length.symm, ?_⟩, hunread, fun event krealloc hcap hk => ?_,
    fun havailable => ?_⟩
  · rw [hfits.length]
    exact hfits.capacity
  · obtain ⟨b', hsend, _⟩ := ttySendKeyEvent_spec hfits hcap hk event
    exact Option.isSome_of_eq_some hsend
  · obtain ⟨c, rest, hq, hgetc, _⟩ := ttyGetc_spec hfits havailable
    exact ⟨c, by rw [← hunread, hq, List.head?_cons], hgetc⟩

/-- A `krealloc` that grows one block in place, up to a page. -/
def inPlace : Krealloc := fun mem _ size => (if size ≤ 0x1000 then 0x1000 else 0, mem)

theorem inPlace_preserves (h : b.line.data = 0x1000 ∨ b.line.capacity = 0) : inPlace.Preserves b where
  failed := fun _ _ _ _ => rfl
  moved := fun size hsize => by
    rw [inPlace] at hsize ⊢
    dsimp only at hsize ⊢
    split at hsize
    · rename_i hle
      rw [if_pos hle]
      refine ⟨by bv_omega, fun i hi _ => ?_⟩
      obtain hdata | hempty := h
      · rw [hdata]
      · rw [hempty] at hi
        exact absurd hi (Nat.not_lt_zero i)
    · exact absurd rfl hsize

/-- A key going down without modifiers. -/
def keyDown (c : BitVec 8) : TtyKeyEvent := ⟨.down, c, 0⟩

/-- A key that is not refused. -/
theorem TtyReachable.typed {b b' : TtyBuffer} (h : TtyReachable b q) (c : BitVec 8) {krealloc : Krealloc}
    (hcap : b.line.capacity.toNat < 2 ^ 31)
    (hk : krealloc.Preserves b) (hroom : b.refuses krealloc c = false)
    (hsend : ttySendKeyEvent krealloc b (keyDown c) = some b') : TtyReachable b' (editQueue q c) := by
  have hkey := h.key (keyDown c) krealloc hcap hk hsend
  rwa [show (keyDown c).character = c from rfl, hroom,
    show ((keyDown c).types && !false) = true from rfl, if_pos rfl] at hkey

/-- Typing `h`, `i`, backspace and a newline, with one character read in between. -/
theorem tty_line_refines_deque_hi :
    ∃ b, TtyReachable b [ttyNewLineChar] ∧
      bytesAt b.mem (b.line.data + b.line.readPos)
        (b.line.writePos.toNat - b.line.readPos.toNat) = [ttyNewLineChar] := by
  let b₁ := (ttySendKeyEvent inPlace (ttyInit fun _ => 0) (keyDown 0x68)).get (by decide)
  let b₂ := (ttySendKeyEvent inPlace b₁ (keyDown 0x69)).get (by decide)
  let b₃ := (ttyGetc b₂).1
  let b₄ := (ttySendKeyEvent inPlace b₃ (keyDown backspace)).get (by decide)
  let b₅ := (ttySendKeyEvent inPlace b₄ (keyDown ttyNewLineChar)).get (by decide)
  have h₁ : TtyReachable b₁ [0x68] := (TtyReachable.init _).typed 0x68 (by decide)
    (inPlace_preserves (Or.inr rfl)) (by decide) (Option.some_get _).symm
  have h₂ : TtyReachable b₂ [0x68, 0x69] := h₁.typed 0x69 (by decide)
    (inPlace_preserves (Or.inl (by decide))) (by decide) (Option.some_get _).symm
  have h₃ : TtyReachable b₃ [0x69] := h₂.getc (by decide)
  have h₄ : TtyReachable b₄ [] := h₃.typed backspace (by decide)
    (inPlace_preserves (Or.inl (by decide))) (by decide) (Option.some_get _).symm
  have h₅ : TtyReachable b₅ [ttyNewLineChar] := h₄.typed ttyNewLineChar (by decide)
    (inPlace_preserves (Or.inl (by decide))) (by decide) (Option.some_get _).symm
  exact ⟨b₅, h₅, (tty_line_refines_deque h₅).2.1⟩

end ChrisOS.Drivers
