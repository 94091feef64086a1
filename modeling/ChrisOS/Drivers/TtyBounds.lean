import ChrisOS.Drivers.TtyQueue

/-!
# The console's accesses to its line

Which bytes of `line->data` the functions of `drivers/tty.c` read and write. `tty_compact_buffer` moves
as many bytes as there are in the line, read ones included, from the first unread one on. So it reads as
many bytes behind the line as were read from it, and these are inside the line's data only if there is
that much room left once the newline is stored. A full line is doubled for it, which leaves enough
unless all of the line was read.
-/

namespace ChrisOS.Drivers

open ChrisOS.Lib ChrisOS.Utils

/-- An access to a line's data: the line as it is then, and the address. -/
structure DataAccess where
  line : TtyLine
  address : Word

/-- The index into the data. -/
def DataAccess.index (a : DataAccess) : ℕ := (a.address - a.line.data).toNat

/-- The index is below the capacity. -/
def DataAccess.InBounds (a : DataAccess) : Prop := a.index < a.line.capacity.toNat

instance (a : DataAccess) : Decidable a.InBounds := inferInstanceAs (Decidable (_ < _))

/-- What `tty_getc` reads. -/
def ttyGetcAccesses (b : TtyBuffer) : List DataAccess :=
  if ttyLineReadCharsAvailable b.line = 0 then [] else [⟨b.line, b.line.data + b.line.readPos⟩]

/-- What `tty_line_append_char` writes. -/
def ttyLineAppendCharAccesses (krealloc : Krealloc) (b : TtyBuffer) (c : BitVec 8) :
    List DataAccess :=
  if c = backspace then []
  else
    let reserved := ttyLineReserveSpace krealloc b 1
    if reserved.2 = true ∧ ttyLineWriteSpaceAvailable reserved.1.line > 0 then
      [⟨reserved.1.line, reserved.1.line.data + reserved.1.line.writePos⟩]
    else []

/-- What the `memmove` of `tty_compact_buffer` reads and writes. -/
def ttyCompactBufferAccesses (b : TtyBuffer) : List DataAccess :=
  (memmoveBytes b.line.data (b.line.data + b.line.readPos) b.line.length).flatMap fun bytes =>
    [⟨b.line, bytes.2⟩, ⟨b.line, bytes.1⟩]

/-- What `tty_line_newline` reads and writes. -/
def ttyLineNewlineAccesses (krealloc : Krealloc) (b : TtyBuffer) : List DataAccess :=
  ttyLineAppendCharAccesses krealloc b ttyNewLineChar ++
    match ttyLineAppendChar krealloc b ttyNewLineChar with
    | some (b, true) => ttyCompactBufferAccesses b
    | _ => []

/-- What `tty_send_key_event` reads and writes. -/
def ttySendKeyEventAccesses (krealloc : Krealloc) (b : TtyBuffer) (event : TtyKeyEvent) :
    List DataAccess :=
  if event.types then
    if event.character = ttyNewLineChar then ttyLineNewlineAccesses krealloc b
    else ttyLineAppendCharAccesses krealloc b event.character
  else []

/-- A line that is not full has room for a newline and as many bytes as were read of it, and of a full one
not all was read. -/
def TtyLine.HasRoom (line : TtyLine) : Prop :=
  (line.writePos < line.capacity → line.readPos.toNat + line.writePos.toNat < line.capacity.toNat) ∧
    (line.writePos = line.capacity → line.capacity ≠ 0 → line.readPos < line.capacity)

instance (line : TtyLine) : Decidable line.HasRoom := inferInstanceAs (Decidable (_ ∧ _))

/-- An event that completes a line finds that room in it, unless its newline is refused. -/
def CompactsInside (krealloc : Krealloc) (b : TtyBuffer) (event : TtyKeyEvent) : Prop :=
  event.types = true → event.character = ttyNewLineChar → b.noRoom krealloc = false → b.line.HasRoom

section Accesses

variable {krealloc : Krealloc} {b : TtyBuffer}

/-- The index at an offset from the start of the data. -/
theorem index_add (line : TtyLine) (offset : Word) :
    DataAccess.index ⟨line, line.data + offset⟩ = offset.toNat := by
  rw [DataAccess.index, BitVec.add_comm, BitVec.add_sub_cancel]

/-- Reading is in bounds. -/
theorem TtyBuffer.Fits.getc_inBounds (h : b.Fits) : ∀ a ∈ ttyGetcAccesses b, a.InBounds := by
  obtain ⟨hread, hlength, hwrite, _⟩ := h
  intro a ha
  unfold ttyGetcAccesses ttyLineReadCharsAvailable at ha
  split at ha
  · cases ha
  · rename_i havailable
    rw [List.mem_singleton.mp ha, DataAccess.InBounds, index_add]
    dsimp only
    bv_omega

/-- Storing a character is in bounds. -/
theorem TtyBuffer.Fits.append_inBounds (h : b.Fits) (hcap : b.line.capacity.toNat < 2 ^ 31)
    (hk : krealloc.Preserves b) (c : BitVec 8) :
    ∀ a ∈ ttyLineAppendCharAccesses krealloc b c, a.InBounds := by
  obtain ⟨b', hreserve, hsame, hroom⟩ := ttyLineReserveSpace_spec h hcap hk
  intro a ha
  unfold ttyLineAppendCharAccesses at ha
  split at ha
  · cases ha
  · rw [hreserve] at ha
    dsimp only at ha
    split at ha
    · rename_i hreserved
      rw [List.mem_singleton.mp ha, DataAccess.InBounds, index_add, hsame.writePos]
      exact hroom (by simpa using hreserved.1)
    · cases ha

/-- The accesses of a move are in bounds exactly if both ranges end inside the data. -/
theorem compact_inBounds_iff (h : b.Fits) (hsome : b.line.readPos < b.line.writePos)
    (hsize : b.line.writePos.toNat ≤ 2 ^ 31) :
    (∀ a ∈ ttyCompactBufferAccesses b, a.InBounds) ↔
      b.line.readPos.toNat + b.line.length.toNat ≤ b.line.capacity.toNat := by
  obtain ⟨hread, hlength, hwrite, _⟩ := h
  have hlt : b.line.readPos.toNat < b.line.writePos.toNat := hsome
  have hlengthNat : b.line.length.toNat = b.line.writePos.toNat := congrArg BitVec.toNat hlength
  have hsource : ∀ i < b.line.length.toNat, DataAccess.index
      ⟨b.line, b.line.data + b.line.readPos + BitVec.ofNat 32 i⟩ = b.line.readPos.toNat + i := by
    intro i hi
    rw [add_add_ofNat, index_add, BitVec.toNat_ofNat, Nat.mod_eq_of_lt (by omega)]
  have hdest : ∀ i < b.line.length.toNat,
      DataAccess.index ⟨b.line, b.line.data + BitVec.ofNat 32 i⟩ = i := by
    intro i hi
    rw [index_add, BitVec.toNat_ofNat, Nat.mod_eq_of_lt (by omega)]
  constructor
  · intro hall
    -- the last byte that is read
    have hpos : b.line.length.toNat - 1 < b.line.length.toNat := by omega
    have hlast := hall
      ⟨b.line, b.line.data + b.line.readPos + BitVec.ofNat 32 (b.line.length.toNat - 1)⟩
      (List.mem_flatMap.mpr ⟨_, mem_memmoveBytes.mpr ⟨_, hpos, rfl⟩, List.mem_cons_self⟩)
    rw [DataAccess.InBounds, hsource _ hpos] at hlast
    dsimp only at hlast
    omega
  · intro hroom a ha
    obtain ⟨bytes, hbytes, ha⟩ := List.mem_flatMap.mp ha
    obtain ⟨i, hi, rfl⟩ := mem_memmoveBytes.mp hbytes
    obtain rfl | ha := List.mem_cons.mp ha
    · rw [DataAccess.InBounds, hsource i hi]
      dsimp only
      omega
    · rw [List.mem_singleton.mp ha, DataAccess.InBounds, hdest i hi]
      dsimp only
      omega

/-- The line a newline was stored in. -/
theorem line_of_append_newline {b' : TtyBuffer}
    (happend : ttyLineAppendChar krealloc b ttyNewLineChar = some (b', true)) :
    b'.line.readPos = b.line.readPos ∧ b'.line.length = b.line.length + 1 ∧
      b'.line.capacity = if ttyLineWriteSpaceAvailable b.line < 1 then ttyLineNewCapacity b.line 1
        else b.line.capacity := by
  rw [ttyLineAppendChar, if_neg (by decide), ttyLineReserveSpace] at happend
  dsimp only at happend
  by_cases hfull : ttyLineWriteSpaceAvailable b.line < 1
  · rw [if_pos hfull] at happend ⊢
    by_cases hmoved : (krealloc b.mem b.line.data (ttyLineNewCapacity b.line 1)).1 ≠ 0
    · rw [if_pos hmoved, if_pos rfl] at happend
      split at happend <;> cases happend
      exact ⟨rfl, rfl, rfl⟩
    · rw [if_neg hmoved, if_neg (by simp)] at happend
      cases happend
  · rw [if_neg hfull] at happend ⊢
    rw [if_pos rfl] at happend
    split at happend <;> cases happend
    exact ⟨rfl, rfl, rfl⟩

/-- The room behind the line, in terms of the line before the newline. -/
theorem TtyBuffer.Fits.room_after_newline_iff (h : b.Fits) (hcap : b.line.capacity.toNat < 2 ^ 31)
    {b' : TtyBuffer} (happend : ttyLineAppendChar krealloc b ttyNewLineChar = some (b', true)) :
    b'.line.readPos.toNat + b'.line.length.toNat ≤ b'.line.capacity.toNat ↔ b.line.HasRoom := by
  obtain ⟨hread, hlength, hwrite, _⟩ := h
  obtain ⟨hread', hlength', hcapacity'⟩ := line_of_append_newline happend
  have hnext : (b.line.length + 1).toNat = b.line.writePos.toNat + 1 := by
    rw [hlength]
    bv_omega
  rw [hread', hlength', hcapacity', hnext]
  unfold TtyLine.HasRoom ttyLineWriteSpaceAvailable ttyLineNewCapacity
  split
  · split <;> bv_omega
  · bv_omega

/-- Completing a line is in bounds exactly if the newline is refused or there is room to compact it. -/
theorem TtyBuffer.Fits.newline_inBounds_iff (h : b.Fits) (hcap : b.line.capacity.toNat < 2 ^ 31)
    (hk : krealloc.Preserves b) :
    (∀ a ∈ ttyLineNewlineAccesses krealloc b, a.InBounds) ↔
      (b.noRoom krealloc = false → b.line.HasRoom) := by
  have hstore := h.append_inBounds hcap hk ttyNewLineChar
  have hrefuses : b.refuses krealloc ttyNewLineChar = b.noRoom krealloc := by
    rw [TtyBuffer.refuses, decide_eq_true (by decide), Bool.true_and]
  unfold ttyLineNewlineAccesses
  obtain ⟨b', hfits, hsize, ⟨hrefused, happend, _⟩ | ⟨hstored, happend, _, hsome⟩⟩ :=
    ttyLineAppendChar_newline h hcap hk
  · rw [happend]
    refine iff_of_true (fun a ha => hstore a (by simpa using ha)) fun hroom => ?_
    rw [← hrefuses, hrefused] at hroom
    cases hroom
  · rw [happend]
    have hcompact := compact_inBounds_iff hfits hsome hsize
    rw [h.room_after_newline_iff hcap happend] at hcompact
    constructor
    · exact fun hall _ => hcompact.mp fun a ha => hall a (List.mem_append_right _ ha)
    · intro hroom a ha
      obtain ha | ha := List.mem_append.mp ha
      · exact hstore a ha
      · exact hcompact.mpr (hroom (hrefuses.symm.trans hstored)) a ha

end Accesses

/-- After every run of key events and reads, the next read is in bounds, and the next event is in bounds
exactly if it does not complete a line, its newline is refused, or the line has room to be compacted. -/
theorem tty_accesses_in_bounds_iff {b : TtyBuffer} {q : List (BitVec 8)} (h : TtyReachable b q) :
    (∀ a ∈ ttyGetcAccesses b, a.InBounds) ∧
      ∀ event krealloc, b.line.capacity.toNat < 2 ^ 31 → krealloc.Preserves b →
        ((∀ a ∈ ttySendKeyEventAccesses krealloc b event, a.InBounds) ↔
          CompactsInside krealloc b event) := by
  obtain ⟨hfits, _⟩ := h.fits
  refine ⟨hfits.getc_inBounds, fun event krealloc hcap hk => ?_⟩
  unfold ttySendKeyEventAccesses CompactsInside
  cases htypes : event.types with
  | false => exact iff_of_true (fun a ha => by cases ha) fun hfalse => by cases hfalse
  | true =>
    rw [if_pos rfl]
    by_cases hc : event.character = ttyNewLineChar
    · rw [if_pos hc, hfits.newline_inBounds_iff hcap hk]
      exact ⟨fun hroom _ _ => hroom, fun hroom => hroom rfl hc⟩
    · rw [if_neg hc]
      exact iff_of_true (hfits.append_inBounds hcap hk event.character) fun _ hc' => absurd hc' hc

/-- Two characters are typed and one of them read, then a newline typed: the line is full, and doubled. -/
theorem tty_accesses_in_bounds_iff_half :
    ∃ b, TtyReachable b [0x62] ∧ b.line.readPos = 1 ∧ b.line.writePos = 2 ∧
      ∀ a ∈ ttySendKeyEventAccesses inPlace b (keyDown ttyNewLineChar), a.InBounds := by
  let b₁ := (ttySendKeyEvent inPlace (ttyInit fun _ => 0) (keyDown 0x61)).get (by decide)
  let b₂ := (ttySendKeyEvent inPlace b₁ (keyDown 0x62)).get (by decide)
  have h₁ : TtyReachable b₁ [0x61] := (TtyReachable.init _).typed 0x61 (by decide)
    (inPlace_preserves (Or.inr rfl)) (by decide) (Option.some_get _).symm
  have h₂ : TtyReachable b₂ [0x61, 0x62] := h₁.typed 0x62 (by decide)
    (inPlace_preserves (Or.inl (by decide))) (by decide) (Option.some_get _).symm
  have h₃ : TtyReachable (ttyGetc b₂).1 [0x62] := h₂.getc (by decide)
  exact ⟨_, h₃, by decide, by decide, ((tty_accesses_in_bounds_iff h₃).2 (keyDown ttyNewLineChar) inPlace
    (by decide) (inPlace_preserves (Or.inl (by decide)))).mpr fun _ _ _ => by decide⟩

/-- A character is typed and read, then a newline typed: the move reads a byte behind the data. -/
theorem tty_compact_reads_past :
    ∃ b q, TtyReachable b q ∧ b.line.capacity.toNat < 2 ^ 31 ∧ inPlace.Preserves b ∧
      ∃ a ∈ ttySendKeyEventAccesses inPlace b (keyDown ttyNewLineChar), ¬ a.InBounds := by
  let b₁ := (ttySendKeyEvent inPlace (ttyInit fun _ => 0) (keyDown 0x61)).get (by decide)
  have h₁ : TtyReachable b₁ [0x61] := (TtyReachable.init _).typed 0x61 (by decide)
    (inPlace_preserves (Or.inr rfl)) (by decide) (Option.some_get _).symm
  have h₂ : TtyReachable (ttyGetc b₁).1 [] := h₁.getc (by decide)
  exact ⟨_, _, h₂, by decide, inPlace_preserves (Or.inl (by decide)), by decide⟩

end ChrisOS.Drivers
