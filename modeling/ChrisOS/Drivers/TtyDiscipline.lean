import ChrisOS.Drivers.TtyQueue
import Mathlib.Data.List.Infix
import Mathlib.Logic.Relation

/-!
# Line discipline

What a user expects of the console: a line can be edited until its newline, and is read after.
The buffer keeps finished and unfinished lines in one queue, so it is the reader and the typist
who have to respect the difference: characters of an unfinished line are read if nothing else is
left, and a backspace at the start of a line erases the newline before it.
-/

namespace ChrisOS.Drivers

open ChrisOS.Lib ChrisOS.Utils

/-- `tty_gets` in its loop, without the caller's buffer. -/
structure TtyGets where
  maxlength : Word
  i : Word
  c : BitVec 8
deriving DecidableEq, Repr

/-- The condition of the loop. -/
def TtyGets.continues (g : TtyGets) : Prop := g.c ≠ ttyNewLineChar ∧ g.i < g.maxlength

/-- The rest of the loop's body after `tty_getc`; the call returns early on a negative character. -/
def TtyGets.got (g : TtyGets) (c : BitVec 8) : Option TtyGets :=
  if c.toInt < 0 then none else some { g with i := g.i + 1, c := c }

/-- The line buffer, what was typed, what was read, and a call of `tty_gets` that goes on. -/
structure TtySession where
  buffer : TtyBuffer
  completed : List (BitVec 8)
  current : List (BitVec 8)
  read : List (BitVec 8)
  gets : Option TtyGets

/-- What a character does to the lines: backspace erases in the current line only, and a newline
completes it. -/
def TtySession.type (s : TtySession) (c : BitVec 8) : TtySession :=
  if c = backspace then { s with current := s.current.dropLast }
  else if c = ttyNewLineChar then
    { s with completed := s.completed ++ s.current ++ [c], current := [] }
  else { s with current := s.current ++ [c] }

/-- The buffer after `tty_getc`, with the character at the end of what was read. -/
def TtySession.getc (s : TtySession) : TtySession :=
  { s with buffer := (ttyGetc s.buffer).1, read := s.read ++ [BitVec.ofInt 8 (ttyGetc s.buffer).2] }

/-- What happens next. -/
inductive TtySessionAct
  | key (event : TtyKeyEvent)
  | read
deriving DecidableEq, Repr

/-- One step, restricted by `may`: a key event, a call of `tty_getc` that has something to read, the
start of `tty_gets`, its loop, or its return. -/
inductive TtySessionStep (may : TtySession → TtySessionAct → Prop) : TtySession → TtySession → Prop
  | key (s : TtySession) (event : TtyKeyEvent) (krealloc : Krealloc) (b : TtyBuffer)
      (hmay : may s (.key event)) (hcap : s.buffer.line.capacity.toNat < 2 ^ 31)
      (hk : krealloc.Preserves s.buffer)
      (hsend : ttySendKeyEvent krealloc s.buffer event = some b) :
      TtySessionStep may s
        { (if event.types && !s.buffer.refuses krealloc event.character then
            s.type event.character else s) with buffer := b }
  | getc (s : TtySession) (hmay : may s .read) (hidle : s.gets = none)
      (havailable : ttyLineReadCharsAvailable s.buffer.line ≠ 0) : TtySessionStep may s s.getc
  | gets (s : TtySession) (maxlength : Word) (hidle : s.gets = none) :
      TtySessionStep may s { s with gets := some ⟨maxlength, 0, 0⟩ }
  | loop (s : TtySession) (g : TtyGets) (hmay : may s .read) (hgets : s.gets = some g)
      (hcontinues : g.continues) (havailable : ttyLineReadCharsAvailable s.buffer.line ≠ 0) :
      TtySessionStep may s { s.getc with gets := g.got (BitVec.ofInt 8 (ttyGetc s.buffer).2) }
  | return (s : TtySession) (g : TtyGets) (hgets : s.gets = some g) (hstop : ¬ g.continues) :
      TtySessionStep may s { s with gets := none }

/-- Nothing typed or read. -/
def TtySession.initial (mem : ByteMem 32) : TtySession := ⟨ttyInit mem, [], [], [], none⟩

/-- The states of runs. -/
def TtySessionReachable (may : TtySession → TtySessionAct → Prop) (s : TtySession) : Prop :=
  ∃ mem, Relation.ReflTransGen (TtySessionStep may) (.initial mem) s

/-- Reads are made when a finished line is unread, and backspace is not pressed when the last unread
character is a newline. -/
def TtySession.disciplined (s : TtySession) : TtySessionAct → Prop
  | .key event => event.types = true → event.character = backspace →
    s.buffer.unread.getLast? ≠ some ttyNewLineChar
  | .read => ttyNewLineChar ∈ s.buffer.unread

/-- The unread characters are what is left of the completed lines, and the current line. -/
structure TtySession.Inv (s : TtySession) (rest : List (BitVec 8)) : Prop where
  fits : s.buffer.Fits
  completed : s.completed = s.read ++ rest
  unread : s.buffer.unread = rest ++ s.current
  current : ttyNewLineChar ∉ s.current
  ended : ∀ c, rest.getLast? = some c → c = ttyNewLineChar

section Steps

variable {s : TtySession} {rest : List (BitVec 8)}

/-- With the current line empty, the last unread character is a newline. -/
theorem TtySession.Inv.getLast?_unread (h : s.Inv rest) (hcurrent : s.current = [])
    (hunread : s.buffer.unread ≠ []) : s.buffer.unread.getLast? = some ttyNewLineChar := by
  have hrest : s.buffer.unread = rest := by rw [h.unread, hcurrent, List.append_nil]
  rw [hrest] at hunread ⊢
  have hlast := List.getLast?_eq_some_getLast hunread
  rw [hlast, h.ended _ hlast]

/-- A character that reaches the buffer, unless it is a backspace that erases a newline. -/
theorem TtySession.Inv.type (h : s.Inv rest) {c : BitVec 8}
    (hc : c = backspace → s.buffer.unread.getLast? ≠ some ttyNewLineChar) {b : TtyBuffer}
    (hfits : b.Fits) (hunread : b.unread = editQueue s.buffer.unread c) :
    ∃ rest', TtySession.Inv { s.type c with buffer := b } rest' := by
  rw [editQueue, h.unread] at hunread
  unfold TtySession.type
  by_cases hback : c = backspace
  · rw [if_pos hback] at hunread
    rw [if_pos hback]
    by_cases hcurrent : s.current = []
    · -- nothing to erase: the buffer is empty too
      have hnil : s.buffer.unread = [] := by
        by_contra hne
        exact hc hback (h.getLast?_unread hcurrent hne)
      have hrest : rest = [] := (List.append_eq_nil_iff.mp (h.unread.symm.trans hnil)).1
      refine ⟨[], hfits, by rw [← hrest]; exact h.completed, ?_, ?_, fun x hx => by cases hx⟩
      · dsimp only
        rw [hunread, hrest, hcurrent]
        rfl
      · dsimp only
        rw [hcurrent]
        exact List.not_mem_nil
    · refine ⟨rest, hfits, h.completed, ?_, ?_, h.ended⟩
      · dsimp only
        rw [hunread, List.dropLast_append_of_ne_nil hcurrent]
      · exact fun hmem => h.current (List.mem_of_mem_dropLast hmem)
  · rw [if_neg hback] at hunread
    rw [if_neg hback]
    by_cases hnewline : c = ttyNewLineChar
    · rw [if_pos hnewline]
      refine ⟨rest ++ s.current ++ [c], hfits, ?_, ?_, List.not_mem_nil, fun x hx => ?_⟩
      · dsimp only
        rw [h.completed, List.append_assoc, List.append_assoc, List.append_assoc]
      · dsimp only
        rw [hunread, List.append_nil]
      · rw [List.getLast?_concat] at hx
        exact (Option.some.inj hx).symm.trans hnewline
    · rw [if_neg hnewline]
      refine ⟨rest, hfits, h.completed, ?_, ?_, h.ended⟩
      · dsimp only
        rw [hunread, List.append_assoc]
      · intro hmem
        rcases List.mem_append.mp hmem with hmem | hmem
        · exact h.current hmem
        · exact hnewline (List.mem_singleton.mp hmem).symm

/-- Reading takes the first unread character. -/
theorem TtySession.Inv.getc (h : s.Inv rest)
    (havailable : ttyLineReadCharsAvailable s.buffer.line ≠ 0) :
    ∃ c q, s.buffer.unread = c :: q ∧ s.getc.buffer.Fits ∧ s.getc.buffer.unread = q ∧
      s.getc.read = s.read ++ [c] := by
  obtain ⟨c, q, hunread, hresult, hfits, hq⟩ := ttyGetc_spec h.fits havailable
  refine ⟨c, q, hunread, hfits, hq, ?_⟩
  rw [TtySession.getc, hresult, BitVec.ofInt_toInt]

/-- Reading when a finished line is unread takes a character of it. -/
theorem TtySession.Inv.getc_line (h : s.Inv rest)
    (havailable : ttyLineReadCharsAvailable s.buffer.line ≠ 0)
    (hline : ttyNewLineChar ∈ s.buffer.unread) : ∃ rest', s.getc.Inv rest' := by
  obtain ⟨c, q, hunread, hfits, hq, hread⟩ := h.getc havailable
  have hmem : ttyNewLineChar ∈ rest := by
    rw [h.unread] at hline
    exact (List.mem_append.mp hline).resolve_right h.current
  obtain ⟨x, rest', rfl⟩ := List.exists_cons_of_ne_nil (List.ne_nil_of_mem hmem)
  rw [h.unread, List.cons_append, List.cons.injEq] at hunread
  obtain ⟨rfl, rfl⟩ := hunread
  refine ⟨rest', hfits, ?_, hq, h.current, fun y hy => h.ended y ?_⟩
  · rw [hread, List.append_assoc]
    exact h.completed
  · cases rest' with
    | nil => cases hy
    | cons z zs => rwa [List.getLast?_cons_cons]

/-- Every disciplined step keeps the invariant. -/
theorem TtySession.Inv.step (h : s.Inv rest) {s' : TtySession}
    (hstep : TtySessionStep TtySession.disciplined s s') : ∃ rest', s'.Inv rest' := by
  cases hstep with
  | key event krealloc b hmay hcap hk hsend =>
    obtain ⟨b', hsend', hfits, hunread⟩ := ttySendKeyEvent_spec h.fits hcap hk event
    obtain rfl := Option.some.inj (hsend'.symm.trans hsend)
    by_cases hedit : (event.types && !s.buffer.refuses krealloc event.character) = true
    · rw [if_pos hedit] at hunread ⊢
      exact h.type (hmay (Bool.and_eq_true_iff.mp hedit).1) hfits hunread
    · rw [if_neg hedit] at hunread ⊢
      exact ⟨rest, hfits, h.completed, hunread.trans h.unread, h.current, h.ended⟩
  | getc hmay hidle havailable => exact h.getc_line havailable hmay
  | gets maxlength hidle => exact ⟨rest, h.fits, h.completed, h.unread, h.current, h.ended⟩
  | loop g hmay hgets hcontinues havailable =>
    obtain ⟨rest', h'⟩ := h.getc_line havailable hmay
    exact ⟨rest', h'.fits, h'.completed, h'.unread, h'.current, h'.ended⟩
  | «return» g hgets hstop => exact ⟨rest, h.fits, h.completed, h.unread, h.current, h.ended⟩

end Steps

variable {s : TtySession}

/-- The invariant in every state of every disciplined run. -/
theorem TtySession.Inv.of_reachable (h : TtySessionReachable TtySession.disciplined s) :
    ∃ rest, s.Inv rest := by
  obtain ⟨mem, hrun⟩ := h
  induction hrun with
  | refl =>
    have hfits := (TtyReachable.init mem).fits
    exact ⟨[], hfits.1, rfl, hfits.2, List.not_mem_nil, fun c hc => by cases hc⟩
  | tail _ hstep ih =>
    obtain ⟨rest, hinv⟩ := ih
    exact hinv.step hstep

/-- In disciplined runs what was read is a prefix of the completed lines, and everything else that
was completed, followed by the current line, is unread. After such a run a read with no newline
unread returns a character of the unfinished line, and a backspace with a newline unread at the end
erases that newline, which belongs to a completed line. -/
theorem line_discipline_of_disciplined {s : TtySession}
    (h : TtySessionReachable TtySession.disciplined s) :
    (s.read <+: s.completed ∧ s.completed ++ s.current = s.read ++ s.buffer.unread) ∧
      (ttyLineReadCharsAvailable s.buffer.line ≠ 0 → ¬ s.disciplined .read →
        ¬ s.getc.read <+: s.getc.completed) ∧
      ∀ event krealloc b, ¬ s.disciplined (.key event) → s.buffer.line.capacity.toNat < 2 ^ 31 →
        krealloc.Preserves s.buffer → ttySendKeyEvent krealloc s.buffer event = some b →
        (s.type event.character).completed = s.read ++ b.unread ++ [ttyNewLineChar] := by
  obtain ⟨rest, hinv⟩ := TtySession.Inv.of_reachable h
  refine ⟨⟨⟨rest, hinv.completed.symm⟩, ?_⟩, fun havailable hnone hprefix => ?_,
    fun event krealloc b hbreaks hcap hk hsend => ?_⟩
  · rw [hinv.completed, hinv.unread, List.append_assoc]
  · -- nothing is left of the completed lines, so what was read is now longer than they are
    obtain ⟨c, q, _, _, _, hread⟩ := hinv.getc havailable
    have hrest : rest = [] := by
      by_contra hne
      have hmem := List.getLast_mem hne
      rw [hinv.ended _ (List.getLast?_eq_some_getLast hne)] at hmem
      apply hnone
      change _ ∈ s.buffer.unread
      rw [hinv.unread]
      exact List.mem_append_left _ hmem
    have hcompleted : s.getc.completed = s.read := by
      rw [TtySession.getc, hinv.completed, hrest, List.append_nil]
    have hlength := hprefix.length_le
    rw [hread, hcompleted, List.length_append, List.length_singleton] at hlength
    omega
  · simp only [TtySession.disciplined, Classical.not_imp, not_not] at hbreaks
    obtain ⟨htypes, hback, hlast⟩ := hbreaks
    obtain ⟨b', hsend', _, hunread⟩ := ttySendKeyEvent_spec hinv.fits hcap hk event
    obtain rfl := Option.some.inj (hsend'.symm.trans hsend)
    -- the newline is the last unread character, so the current line is empty
    have hcurrent : s.current = [] := by
      by_contra hne
      rw [hinv.unread, List.getLast?_append_of_ne_nil _ hne] at hlast
      exact hinv.current (List.mem_of_getLast? hlast)
    have hrefuses : s.buffer.refuses krealloc event.character = false := by
      rw [TtyBuffer.refuses, hback]
      rfl
    rw [htypes, hrefuses, hback] at hunread
    calc (s.type event.character).completed
      _ = s.completed := by rw [TtySession.type, if_pos hback]
      _ = s.read ++ s.buffer.unread := by
        rw [hinv.completed, hinv.unread, hcurrent, List.append_nil]
      _ = s.read ++ (s.buffer.unread.dropLast ++ [ttyNewLineChar]) := by
        rw [List.dropLast_append_getLast? _ hlast]
      _ = s.read ++ b'.unread ++ [ttyNewLineChar] := by
        rw [hunread, List.append_assoc]
        rfl

/-- Press a key, with memory to grow the buffer in place. -/
theorem TtySessionReachable.press {may : TtySession → TtySessionAct → Prop}
    (h : TtySessionReachable may s) (c : BitVec 8) {b : TtyBuffer} (hmay : may s (.key (keyDown c)))
    (hcap : s.buffer.line.capacity.toNat < 2 ^ 31)
    (hblock : s.buffer.line.data = 0x1000 ∨ s.buffer.line.capacity = 0)
    (hroom : s.buffer.refuses inPlace c = false)
    (hsend : ttySendKeyEvent inPlace s.buffer (keyDown c) = some b) :
    TtySessionReachable may { s.type c with buffer := b } := by
  obtain ⟨mem, hrun⟩ := h
  have hkey := TtySessionStep.key s (keyDown c) inPlace b hmay hcap (inPlace_preserves hblock) hsend
  rw [show (keyDown c).character = c from rfl, hroom,
    show ((keyDown c).types && !false) = true from rfl, if_pos rfl] at hkey
  exact ⟨mem, hrun.tail hkey⟩

/-- Nothing typed, in zeroed memory. -/
def noneTyped : TtySession := .initial fun _ => 0

/-- A session after one more key. -/
def TtySession.pressed (s : TtySession) (c : BitVec 8)
    (hsend : (ttySendKeyEvent inPlace s.buffer (keyDown c)).isSome) : TtySession :=
  { s.type c with buffer := (ttySendKeyEvent inPlace s.buffer (keyDown c)).get hsend }

/-- The line `a` without its newline. -/
def charTyped : TtySession := noneTyped.pressed 0x61 (by decide)

/-- The line `a` with its newline. -/
def lineTyped : TtySession := charTyped.pressed ttyNewLineChar (by decide)

/-- An empty line. -/
def newlineTyped : TtySession := noneTyped.pressed ttyNewLineChar (by decide)

theorem noneTyped_reachable (may : TtySession → TtySessionAct → Prop) :
    TtySessionReachable may noneTyped :=
  ⟨_, .refl⟩

/-- Typing a line with one character, and reading that character. -/
theorem line_discipline_one_line :
    ∃ s, TtySessionReachable TtySession.disciplined s ∧ s.read = [0x61] ∧
      s.read <+: s.completed ∧ s.completed ++ s.current = s.read ++ s.buffer.unread := by
  have hchar : TtySessionReachable TtySession.disciplined charTyped :=
    (noneTyped_reachable _).press 0x61 (fun _ hback => absurd hback (by decide)) (by decide)
      (Or.inr rfl) (by decide) (Option.some_get _).symm
  have hline : TtySessionReachable TtySession.disciplined lineTyped :=
    hchar.press ttyNewLineChar (fun _ hback => absurd hback (by decide)) (by decide)
      (Or.inl (by decide)) (by decide) (Option.some_get _).symm
  obtain ⟨mem, hrun⟩ := hline
  have hunread : ttyNewLineChar ∈ lineTyped.buffer.unread := by decide +kernel
  have hread : TtySessionReachable TtySession.disciplined lineTyped.getc :=
    ⟨mem, hrun.tail (.getc lineTyped hunread rfl (by decide +kernel))⟩
  exact ⟨lineTyped.getc, hread, by decide +kernel, (line_discipline_of_disciplined hread).1⟩

/-- A character is typed and read at once, before its line is finished; and an empty line is
completed and its newline erased. -/
theorem line_discipline_broken :
    (∃ s, TtySessionReachable (fun _ _ => True) s ∧ ¬ s.read <+: s.completed) ∧
      ∃ s, TtySessionReachable (fun _ _ => True) s ∧ s.completed = [ttyNewLineChar] ∧
        s.read ++ s.buffer.unread = [] := by
  constructor
  · have hchar : TtySessionReachable (fun _ _ => True) charTyped :=
      (noneTyped_reachable _).press 0x61 trivial (by decide) (Or.inr rfl) (by decide)
        (Option.some_get _).symm
    obtain ⟨mem, hrun⟩ := hchar
    exact ⟨charTyped.getc, ⟨mem, hrun.tail (.getc charTyped trivial rfl (by decide))⟩, by decide⟩
  · have hnewline : TtySessionReachable (fun _ _ => True) newlineTyped :=
      (noneTyped_reachable _).press ttyNewLineChar trivial (by decide) (Or.inr rfl) (by decide)
        (Option.some_get _).symm
    refine ⟨newlineTyped.pressed backspace (by decide +kernel), hnewline.press backspace trivial
      (by decide +kernel) (Or.inl (by decide +kernel)) rfl (Option.some_get _).symm, ?_, ?_⟩
    · rfl
    · decide +kernel

end ChrisOS.Drivers
