import ChrisOS.Drivers.TtyThreads

/-!
# The line between two statements

The keyboard thread may be interrupted anywhere, so the line buffer is seen in the middle of
growing, erasing and compacting. Before each statement the positions are in a known order; and
while a reader finds nothing to read, only the statements of a newline put one into the buffer,
after which the observers are always notified.
-/

namespace ChrisOS.Drivers

open ChrisOS.Lib ChrisOS.Utils

/-- The statements of `tty_line_newline`. -/
def KeyPc.inNewline : KeyPc → Bool
  | .reserve c | .realloc c _ | .setData c _ _ | .setCapacity c _ | .store c | .incWritePos c
  | .incLength c => c = ttyNewLineChar
  | .idle | .edit | .eraseWritePos | .eraseLength => false
  | _ => true

/-- The statements that erase a character or compact the buffer. -/
def KeyPc.rewrites : KeyPc → Bool
  | .edit | .eraseWritePos | .eraseLength | .move | .copyUp .. | .copyDown .. | .cutLength
  | .cutWritePos | .zeroReadPos => true
  | _ => false

/-- Erasing or compacting has begun. -/
def KeyPc.rewriting : KeyPc → Bool
  | .eraseWritePos | .eraseLength | .copyUp .. | .copyDown .. | .cutLength | .cutWritePos
  | .zeroReadPos => true
  | _ => false

/-- A newline is in the buffer, and its observers are still to be woken. -/
def KeyPc.willNotify : KeyPc → Bool
  | .incLength c => c = ttyNewLineChar
  | .move | .copyUp .. | .copyDown .. | .cutLength | .cutWritePos | .zeroReadPos | .notify => true
  | _ => false

/-- The positions before each of the keyboard thread's statements. -/
def LineOk (b : TtyBuffer) : KeyPc → Prop
  | .realloc _ newCapacity => b.line.readPos ≤ b.line.length ∧ b.line.writePos = b.line.length ∧
      b.line.writePos ≤ b.line.capacity ∧ b.line.writePos < newCapacity
  | .setData _ newData newCapacity => b.line.readPos ≤ b.line.length ∧
      b.line.writePos = b.line.length ∧ b.line.writePos < newCapacity ∧
      ∀ i < b.line.writePos.toNat,
        b.mem (newData + BitVec.ofNat 32 i) = b.mem (b.line.data + BitVec.ofNat 32 i)
  | .setCapacity _ newCapacity => b.line.readPos ≤ b.line.length ∧
      b.line.writePos = b.line.length ∧ b.line.writePos < newCapacity
  | .store _ => b.line.readPos ≤ b.line.length ∧ b.line.writePos = b.line.length ∧
      b.line.writePos < b.line.capacity
  | .incWritePos c => b.line.readPos ≤ b.line.length ∧ b.line.writePos = b.line.length ∧
      b.line.writePos < b.line.capacity ∧ b.mem (b.line.data + b.line.writePos) = c
  | .incLength c => b.line.readPos ≤ b.line.length ∧ b.line.length < b.line.capacity ∧
      b.line.writePos = b.line.length + 1 ∧ b.mem (b.line.data + b.line.length) = c
  | .eraseWritePos => b.line.readPos < b.line.length ∧ b.line.writePos = b.line.length ∧
      b.line.writePos ≤ b.line.capacity
  | .eraseLength => b.line.readPos < b.line.length ∧ b.line.writePos = b.line.length - 1 ∧
      b.line.length ≤ b.line.capacity
  | .cutWritePos => b.line.readPos ≤ b.line.writePos ∧
      b.line.length = b.line.writePos - b.line.readPos ∧ b.line.writePos ≤ b.line.capacity
  | .zeroReadPos => b.line.writePos = b.line.length ∧ b.line.writePos ≤ b.line.capacity
  | _ => b.line.readPos ≤ b.line.length ∧ b.line.writePos = b.line.length ∧
      b.line.writePos ≤ b.line.capacity

/-- No newline is unread, by positions in the data. -/
def NoLine (b : TtyBuffer) : Prop :=
  ∀ i, b.line.readPos.toNat ≤ i → i < b.line.writePos.toNat →
    b.mem (b.line.data + BitVec.ofNat 32 i) ≠ ttyNewLineChar

/-- No newline is among the unread characters. -/
theorem noLine_iff (b : TtyBuffer) : NoLine b ↔ ttyNewLineChar ∉ b.unread := by
  rw [TtyBuffer.unread, mem_bytesAt]
  constructor
  · rintro h ⟨i, hi, hnewline⟩
    rw [add_add_ofNat] at hnewline
    exact h _ (Nat.le_add_right _ _) (by omega) hnewline
  · intro h i hle hlt hnewline
    refine h ⟨i - b.line.readPos.toNat, by omega, ?_⟩
    rwa [add_add_ofNat, Nat.add_sub_cancel' hle]

section Line

variable {krealloc : Krealloc} {b b' : TtyBuffer} {pc pc' : KeyPc}

/-- The positions are in order after a copied byte as they were before. -/
theorem LineOk.copying (hline : b'.line = b.line)
    (h : b.line.readPos ≤ b.line.length ∧ b.line.writePos = b.line.length ∧
      b.line.writePos ≤ b.line.capacity) :
    b'.line.readPos ≤ b'.line.length ∧ b'.line.writePos = b'.line.length ∧
      b'.line.writePos ≤ b'.line.capacity := by
  rwa [hline]

/-- An iteration of a loop of `memmove` leaves the line as it is, and goes on or ends. -/
theorem keyStatement_copyUp {dest src len i : Word}
    (h : keyStatement krealloc b (.copyUp dest src len i) = some (b', pc')) :
    b'.line = b.line ∧ (pc' = .copyUp dest src len (i + 1) ∨ pc' = .cutLength) := by
  rw [keyStatement] at h
  split at h
  · cases h
    exact ⟨rfl, Or.inl rfl⟩
  · cases h
    exact ⟨rfl, Or.inr rfl⟩

/-- The same for the loop that copies from the end. -/
theorem keyStatement_copyDown {dest src i : Word}
    (h : keyStatement krealloc b (.copyDown dest src i) = some (b', pc')) :
    b'.line = b.line ∧ (pc' = .copyDown dest src (i - 1) ∨ pc' = .cutLength) := by
  rw [keyStatement] at h
  split at h
  · cases h
    exact ⟨rfl, Or.inl rfl⟩
  · cases h
    exact ⟨rfl, Or.inr rfl⟩

/-- Every statement of the keyboard thread keeps the positions in order. -/
theorem keyStatement_lineOk (h : LineOk b pc) (hk : krealloc.Keeps b)
    (hcap : ∀ c, pc = .reserve c → b.line.capacity.toNat < 2 ^ 31)
    (hstatement : keyStatement krealloc b pc = some (b', pc')) : LineOk b' pc' := by
  cases pc with
  | idle | notify | wake | next => cases hstatement
  | edit =>
    cases hstatement
    obtain ⟨hread, hwrite, hcapacity⟩ := h
    split
    · rename_i hsome
      exact ⟨hwrite ▸ hsome, hwrite, hcapacity⟩
    · exact ⟨hread, hwrite, hcapacity⟩
  | eraseWritePos =>
    cases hstatement
    obtain ⟨hread, hwrite, hcapacity⟩ := h
    exact ⟨hread, by dsimp only; rw [hwrite], hwrite ▸ hcapacity⟩
  | eraseLength =>
    cases hstatement
    obtain ⟨hread, hwrite, hcapacity⟩ := h
    refine ⟨?_, hwrite, ?_⟩
    · dsimp only
      bv_omega
    · dsimp only
      bv_omega
  | reserve c =>
    cases hstatement
    obtain ⟨hread, hwrite, hcapacity⟩ := h
    have hgrow := toNat_ttyLineNewCapacity (hcap c rfl)
    split
    · exact ⟨hread, hwrite, hcapacity, Nat.lt_of_le_of_lt hcapacity hgrow⟩
    · rename_i hspace
      refine ⟨hread, hwrite, ?_⟩
      unfold ttyLineWriteSpaceAvailable at hspace
      bv_omega
  | realloc c newCapacity =>
    cases hstatement
    obtain ⟨hread, hwrite, hcapacity, hroom⟩ := h
    split
    · rename_i hmoved
      refine ⟨hread, hwrite, hroom, fun i hi => ?_⟩
      have hi' : i < b.line.capacity.toNat := Nat.lt_of_lt_of_le hi hcapacity
      exact ((hk.moved newCapacity hmoved).2 i hi' (Nat.lt_trans hi hroom)).trans
        (hk.intact newCapacity i hi').symm
    · exact ⟨hread, hwrite, hcapacity⟩
  | setData c newData newCapacity =>
    cases hstatement
    exact ⟨h.1, h.2.1, h.2.2.1⟩
  | setCapacity c newCapacity =>
    cases hstatement
    exact h
  | store c =>
    obtain ⟨_, hstatement⟩ := Option.ite_none_right_eq_some.mp hstatement
    cases hstatement
    exact ⟨h.1, h.2.1, h.2.2, Function.update_self ..⟩
  | incWritePos c =>
    cases hstatement
    obtain ⟨hread, hwrite, hroom, hstored⟩ := h
    exact ⟨hread, hwrite ▸ hroom, by dsimp only; rw [hwrite], hwrite ▸ hstored⟩
  | incLength c =>
    cases hstatement
    obtain ⟨hread, hroom, hwrite, _⟩ := h
    have hall : b.line.readPos ≤ b.line.length + 1 ∧ b.line.writePos = b.line.length + 1 ∧
        b.line.writePos ≤ b.line.capacity := by
      refine ⟨by bv_omega, hwrite, by bv_omega⟩
    split
    · exact hall
    · exact hall
  | move =>
    cases hstatement
    split
    · exact h
    · exact h
  | copyUp dest src len i =>
    obtain ⟨hline, rfl | rfl⟩ := keyStatement_copyUp hstatement
    · exact LineOk.copying hline h
    · exact LineOk.copying hline h
  | copyDown dest src i =>
    obtain ⟨hline, rfl | rfl⟩ := keyStatement_copyDown hstatement
    · exact LineOk.copying hline h
    · exact LineOk.copying hline h
  | cutLength =>
    cases hstatement
    obtain ⟨hread, hwrite, hcapacity⟩ := h
    exact ⟨hwrite ▸ hread, by dsimp only; rw [hwrite], hcapacity⟩
  | cutWritePos =>
    cases hstatement
    obtain ⟨hread, hlength, hcapacity⟩ := h
    refine ⟨hlength.symm, ?_⟩
    dsimp only
    bv_omega
  | zeroReadPos =>
    cases hstatement
    exact ⟨Nat.zero_le _, h.1, h.2⟩

/-- While the reader waits, every statement of the keyboard thread leaves no newline unread, or is
followed by a notification. -/
theorem keyStatement_noLine (h : LineOk b pc) (hk : krealloc.Keeps b)
    (hno : pc.willNotify = true ∨ NoLine b)
    (hstatement : keyStatement krealloc b pc = some (b', pc')) :
    pc'.willNotify = true ∨ NoLine b' := by
  cases pc with
  | idle | notify | wake | next => cases hstatement
  | edit | reserve | eraseLength | setCapacity =>
    cases hstatement
    exact Or.inr (hno.resolve_left Bool.false_ne_true)
  | eraseWritePos =>
    cases hstatement
    have hno := hno.resolve_left Bool.false_ne_true
    obtain ⟨hread, hwrite, _⟩ := h
    refine Or.inr fun i hle hlt => hno i hle ?_
    dsimp only at hlt
    bv_omega
  | realloc c newCapacity =>
    cases hstatement
    have hno := hno.resolve_left Bool.false_ne_true
    refine Or.inr fun i hle hlt => ?_
    dsimp only
    rw [hk.intact newCapacity i (Nat.lt_of_lt_of_le hlt h.2.2.1)]
    exact hno i hle hlt
  | setData c newData newCapacity =>
    cases hstatement
    have hno := hno.resolve_left Bool.false_ne_true
    refine Or.inr fun i hle hlt => ?_
    dsimp only
    rw [h.2.2.2 i hlt]
    exact hno i hle hlt
  | store c =>
    obtain ⟨_, hstatement⟩ := Option.ite_none_right_eq_some.mp hstatement
    cases hstatement
    have hno := hno.resolve_left Bool.false_ne_true
    refine Or.inr fun i hle hlt => ?_
    dsimp only at hle hlt ⊢
    have hne := add_ofNat_ne b.line.data (i := i) (j := b.line.writePos.toNat) (by omega) (by omega)
      (by omega)
    rw [BitVec.ofNat_toNat, BitVec.setWidth_eq] at hne
    rw [Function.update_of_ne hne]
    exact hno i hle hlt
  | incWritePos c =>
    cases hstatement
    have hno := hno.resolve_left Bool.false_ne_true
    obtain ⟨_, hwrite, hroom, hstored⟩ := h
    by_cases hnewline : c = ttyNewLineChar
    · exact Or.inl (decide_eq_true hnewline)
    · refine Or.inr fun i hle hlt => ?_
      dsimp only at hle hlt ⊢
      by_cases hlast : i = b.line.writePos.toNat
      · rw [hlast, BitVec.ofNat_toNat, BitVec.setWidth_eq, hstored]
        exact hnewline
      · exact hno i hle (by bv_omega)
  | incLength c =>
    cases hstatement
    by_cases hnewline : c = ttyNewLineChar
    · rw [if_pos hnewline]
      exact Or.inl rfl
    · exact Or.inr (hno.resolve_left fun hwill => hnewline (of_decide_eq_true hwill))
  | move =>
    cases hstatement
    split
    · exact Or.inl rfl
    · exact Or.inl rfl
  | copyUp dest src len i =>
    obtain ⟨_, rfl | rfl⟩ := keyStatement_copyUp hstatement
    · exact Or.inl rfl
    · exact Or.inl rfl
  | copyDown dest src i =>
    obtain ⟨_, rfl | rfl⟩ := keyStatement_copyDown hstatement
    · exact Or.inl rfl
    · exact Or.inl rfl
  | cutLength | cutWritePos | zeroReadPos =>
    cases hstatement
    exact Or.inl rfl

/-- When the reader finds nothing to read, no newline is unread or a notification is to come. -/
theorem noLine_of_not_available (h : LineOk b pc) (hnone : ttyLineReadCharsAvailable b.line = 0) :
    pc.willNotify = true ∨ NoLine b := by
  have hequal : b.line.length = b.line.readPos := by
    unfold ttyLineReadCharsAvailable at hnone
    bv_omega
  have hempty : b.line.writePos.toNat ≤ b.line.readPos.toNat → NoLine b :=
    fun hle i hi hlt => absurd hlt (by omega)
  cases pc with
  | move | copyUp | copyDown | cutLength | cutWritePos | zeroReadPos | notify => exact Or.inl rfl
  | incLength c =>
    obtain ⟨_, hroom, hwrite, hstored⟩ := h
    by_cases hnewline : c = ttyNewLineChar
    · exact Or.inl (decide_eq_true hnewline)
    · -- the one unread character is the one that was stored
      refine Or.inr fun i hle hlt => ?_
      obtain rfl : i = b.line.length.toNat := by bv_omega
      rw [BitVec.ofNat_toNat, BitVec.setWidth_eq, hstored]
      exact hnewline
  | eraseWritePos =>
    have hread := h.1
    bv_omega
  | eraseLength =>
    obtain ⟨hread, hwrite, _⟩ := h
    bv_omega
  | idle | edit | reserve | realloc | setData | setCapacity | store | incWritePos | wake | next =>
    have hwrite : b.line.writePos = b.line.length := h.2.1
    exact Or.inr (hempty (Nat.le_of_eq (by rw [hwrite, hequal])))

/-- The statements on the buffer do not walk the observers. -/
theorem keyStatement_not_walking (hstatement : keyStatement krealloc b pc = some (b', pc'))
    (elt : Word) : pc' ≠ .wake elt ∧ pc' ≠ .next elt := by
  cases pc with
  | idle | notify | wake | next => cases hstatement
  | eraseWritePos | eraseLength | setData | setCapacity | incWritePos | cutLength | cutWritePos
  | zeroReadPos =>
    cases hstatement
    exact ⟨by simp, by simp⟩
  | edit | reserve | realloc | incLength | move =>
    cases hstatement
    split <;> exact ⟨by simp, by simp⟩
  | store =>
    obtain ⟨_, hstatement⟩ := Option.ite_none_right_eq_some.mp hstatement
    cases hstatement
    exact ⟨by simp, by simp⟩
  | copyUp dest src len i =>
    obtain ⟨_, rfl | rfl⟩ := keyStatement_copyUp hstatement
    · exact ⟨by simp, by simp⟩
    · exact ⟨by simp, by simp⟩
  | copyDown dest src i =>
    obtain ⟨_, rfl | rfl⟩ := keyStatement_copyDown hstatement
    · exact ⟨by simp, by simp⟩
    · exact ⟨by simp, by simp⟩

end Line

end ChrisOS.Drivers
