import ChrisOS.Lib.ByteMem
import ChrisOS.Utils.Mem
import Mathlib.Data.List.Basic

/-!
# The subtables of a firmware table

`acpi_foreach_subtable` of `ia32/acpi.c` walks the subtables behind the fixed part of a table. Each of
them begins with its type and its length, and the next one follows. The walk ends at the end of the table
or at a length below two, but it does not ask whether the two bytes of a subtable's header, or the
subtable, are still inside the table. `none` is a walk that was not done within its fuel.

The handler that the kernel uses configures interrupt controllers; it does not write to the table.
-/

namespace ChrisOS.Ia32

open ChrisOS.Utils ChrisOS.Lib

/-- The subtables the handler was called for and the bytes that were read, both in order. -/
structure SubtableWalk where
  handled : List Word
  reads : List Word
deriving DecidableEq, Repr

/-- The `Length` field of a subtable. -/
def subtableLength (mem : ByteMem 32) (header : Word) : Word := (mem (header + 1)).setWidth 32

/-- The loop of `acpi_foreach_subtable`. -/
def foreachSubtableFrom (mem : ByteMem 32) (tableEnd : Word) : ℕ → Word → Option SubtableWalk
  | 0, header => if header < tableEnd then none else some ⟨[], []⟩
  | fuel + 1, header =>
    if header < tableEnd then
      if subtableLength mem header < 2 then some ⟨[], [header + 1]⟩
      else
        (foreachSubtableFrom mem tableEnd fuel (header + subtableLength mem header)).map fun walk =>
          ⟨header :: walk.handled, (header + 1) :: walk.reads⟩
    else some ⟨[], []⟩

/-- The `Length` field of a table. -/
def tableLength (mem : ByteMem 32) (table : Word) : Word := load32 mem (table + 4)

/-- `acpi_foreach_subtable`, which reads the table's length first. -/
def acpiForeachSubtable (fuel : ℕ) (mem : ByteMem 32) (table first : Word) : Option SubtableWalk :=
  (foreachSubtableFrom mem (table + tableLength mem table) fuel first).map fun walk =>
    { walk with reads := [table + 4, table + 5, table + 6, table + 7] ++ walk.reads }

/-- `sizeof(ACPI_TABLE_MADT)`. -/
def sizeofMadt : Word := 44

/-- `acpi_madt_foreach_subtable` for the table that `acpi_get_madt` found. -/
def acpiMadtForeachSubtable (fuel : ℕ) (mem : ByteMem 32) (madt : Word) : Option SubtableWalk :=
  acpiForeachSubtable fuel mem madt (madt + sizeofMadt)

/-- The calls that `acpi_madt_configure_apic_subtable` makes, with their arguments. -/
inductive ApicConfigure
  | lapic (id processorId : BitVec 8) (lapicFlags : Word)
  | ioapic (id : BitVec 8) (physAddress globalIrqBase : Word)
  | intOverride (bus sourceIrq : BitVec 8) (globalIrq : Word) (intiFlags : BitVec 16)
  | nmiSource (globalIrq : Word) (intiFlags : BitVec 16)
  | lapicNmi (processorId lint : BitVec 8) (intiFlags : BitVec 16)
  | lapicOverride (physAddress : BitVec 64)
deriving DecidableEq, Repr

/-- `acpi_madt_configure_apic_subtable`; the structures are packed. -/
def acpiMadtConfigureApicSubtable (mem : ByteMem 32) (header : Word) : Option ApicConfigure :=
  match (mem header).toNat with
  | 0 => some (.lapic (mem (header + 3)) (mem (header + 2)) (load32 mem (header + 4)))
  | 1 => some (.ioapic (mem (header + 2)) (load32 mem (header + 4)) (load32 mem (header + 8)))
  | 2 => some (.intOverride (mem (header + 2)) (mem (header + 3)) (load32 mem (header + 4))
      (load16 mem (header + 8)))
  | 3 => some (.nmiSource (load32 mem (header + 4)) (load16 mem (header + 2)))
  | 4 => some (.lapicNmi (mem (header + 2)) (mem (header + 5)) (load16 mem (header + 3)))
  | 5 => some (.lapicOverride (load64 mem (header + 4)))
  | _ => none

/-- The size of the structure of a type. -/
def madtStructSize : ℕ → ℕ
  | 0 => 8
  | 1 => 12
  | 2 => 10
  | 3 => 8
  | 4 => 6
  | 5 => 12
  | _ => 1

/-- `acpi_configure_apic`. -/
def acpiConfigureApic (fuel : ℕ) (mem : ByteMem 32) (madt : Word) : Option (List ApicConfigure) :=
  (acpiMadtForeachSubtable fuel mem madt).map fun walk =>
    walk.handled.filterMap (acpiMadtConfigureApicSubtable mem)

/-- Subtables of which each starts where the one before it ends by its length. -/
def Successive (mem : ByteMem 32) : Word → List Word → Prop
  | _, [] => True
  | start, header :: rest => header = start ∧ Successive mem (header + subtableLength mem header) rest

/-- A byte of the table. -/
def InTable (mem : ByteMem 32) (table a : Word) : Prop :=
  table.toNat ≤ a.toNat ∧ a.toNat < table.toNat + (tableLength mem table).toNat

/-- The walk ends, it handles successive subtables, all of them inside the table, and it reads nothing
outside the table. -/
def WalksInside (mem : ByteMem 32) (table first : Word) : Prop :=
  ∃ walk, (∀ fuel, (tableLength mem table).toNat ≤ fuel →
      acpiForeachSubtable fuel mem table first = some walk) ∧
    Successive mem first walk.handled ∧ (∀ a ∈ walk.reads, InTable mem table a) ∧
    ∀ header ∈ walk.handled, table.toNat ≤ header.toNat ∧
      header.toNat + (subtableLength mem header).toNat ≤ table.toNat + (tableLength mem table).toNat

/-- The subtables from an address on, up to the end of the table or a length below two: the length of the
last one is read inside the table, and each one before it is inside the table. -/
inductive SubtableChain (mem : ByteMem 32) (table tableEnd : ℕ) : Word → List Word → Prop
  | past {header : Word} (hpast : tableEnd ≤ header.toNat) : SubtableChain mem table tableEnd header []
  | short {header : Word} (hstart : table ≤ header.toNat + 1) (hheader : header.toNat + 2 ≤ tableEnd)
      (hshort : subtableLength mem header < 2) : SubtableChain mem table tableEnd header []
  | cons {header : Word} {rest : List Word} (hstart : table ≤ header.toNat)
      (hlong : ¬ subtableLength mem header < 2)
      (hinside : header.toNat + (subtableLength mem header).toNat ≤ tableEnd)
      (hrest : SubtableChain mem table tableEnd (header + subtableLength mem header) rest) :
      SubtableChain mem table tableEnd header (header :: rest)

section Walk

variable {mem : ByteMem 32} {tableEnd header : Word} {start : ℕ} {l : List Word}

/-- The subtables of a chain succeed each other. -/
theorem SubtableChain.successive {e : ℕ} (h : SubtableChain mem start e header l) :
    Successive mem header l := by
  induction h with
  | past | short => trivial
  | cons _ _ _ _ ih => exact ⟨rfl, ih⟩

/-- The subtables of a chain lie inside the table. -/
theorem SubtableChain.inside {e : ℕ} (h : SubtableChain mem start e header l) :
    ∀ x ∈ l, start ≤ x.toNat ∧ x.toNat + (subtableLength mem x).toNat ≤ e := by
  induction h with
  | past | short => exact List.forall_mem_nil _
  | cons hstart _ hinside _ ih => exact List.forall_mem_cons.mpr ⟨⟨hstart, hinside⟩, ih⟩

/-- A chain starts at most one byte before the table. -/
theorem SubtableChain.end_le {e : ℕ} (h : SubtableChain mem start e header l) :
    e ≤ header.toNat + (e - start) + 1 := by
  cases h with
  | past hpast => omega
  | short hstart => omega
  | cons hstart => omega

/-- The walk over a chain handles its subtables, and it reads only bytes of the table. With a step for
every byte up to the end of the table, save one, it is done. -/
theorem SubtableChain.foreach (h : SubtableChain mem start tableEnd.toNat header l) :
    ∃ reads, (∀ fuel, tableEnd.toNat ≤ header.toNat + fuel + 1 →
        foreachSubtableFrom mem tableEnd fuel header = some ⟨l, reads⟩) ∧
      ∀ a ∈ reads, start ≤ a.toNat ∧ a.toNat < tableEnd.toNat := by
  induction h with
  | past hpast =>
    have hnot : ¬ _ < tableEnd := BitVec.not_lt.mpr hpast
    refine ⟨[], fun fuel _ => ?_, List.forall_mem_nil _⟩
    cases fuel <;> exact if_neg hnot
  | @short header hstart hheader hshort =>
    refine ⟨[header + 1], fun fuel hfuel => ?_, List.forall_mem_singleton.mpr (by bv_omega)⟩
    have hlt : header < tableEnd := by bv_omega
    obtain ⟨fuel, rfl⟩ : ∃ n, fuel = n + 1 := ⟨fuel - 1, by omega⟩
    rw [foreachSubtableFrom, if_pos hlt, if_pos hshort]
  | @cons header rest hstart hlong hinside _ ih =>
    obtain ⟨reads, hwalk, hreads⟩ := ih
    -- The subtable ends inside the table, so the step to the next one does not wrap.
    have hnext : (header + subtableLength mem header).toNat =
        header.toNat + (subtableLength mem header).toNat := by bv_omega
    have htwo : 2 ≤ (subtableLength mem header).toNat := by bv_omega
    refine ⟨(header + 1) :: reads, fun fuel hfuel => ?_,
      List.forall_mem_cons.mpr ⟨by bv_omega, hreads⟩⟩
    have hlt : header < tableEnd := by bv_omega
    obtain ⟨fuel, rfl⟩ : ∃ n, fuel = n + 1 := ⟨fuel - 1, by omega⟩
    rw [foreachSubtableFrom, if_pos hlt, if_neg hlong, hwalk fuel (by omega), Option.map_some]

/-- A walk that reads only bytes of the table, and whose subtables are inside the table, is one over a
chain. -/
theorem subtableChain_of_foreach {fuel : ℕ} {walk : SubtableWalk}
    (hwalk : foreachSubtableFrom mem tableEnd fuel header = some walk)
    (hreads : ∀ a ∈ walk.reads, start ≤ a.toNat ∧ a.toNat < tableEnd.toNat)
    (hhandled : ∀ x ∈ walk.handled,
      start ≤ x.toNat ∧ x.toNat + (subtableLength mem x).toNat ≤ tableEnd.toNat) :
    SubtableChain mem start tableEnd.toNat header walk.handled := by
  induction fuel generalizing header walk with
  | zero =>
    rw [foreachSubtableFrom] at hwalk
    split at hwalk
    · cases hwalk
    · rename_i hpast
      cases hwalk
      exact .past (BitVec.not_lt.mp hpast)
  | succ fuel ih =>
    rw [foreachSubtableFrom] at hwalk
    split at hwalk
    · rename_i hlt
      split at hwalk
      · rename_i hshort
        cases hwalk
        have hread := hreads (header + 1) List.mem_cons_self
        exact .short (by bv_omega) (by bv_omega) hshort
      · rename_i hlong
        obtain ⟨rest, hrest, rfl⟩ := Option.map_eq_some_iff.mp hwalk
        rw [List.forall_mem_cons] at hreads hhandled
        exact .cons hhandled.1.1 hlong hhandled.1.2 (ih hrest hreads.2 hhandled.2)
    · rename_i hpast
      cases hwalk
      exact .past (BitVec.not_lt.mp hpast)

end Walk

/-- The walk over the subtables of a table stays inside the table exactly if the table reaches behind its
own length field and its subtables are a chain. -/
theorem acpiForeachSubtable_inside_iff {mem : ByteMem 32} {table : Word}
    (hspace : table.toNat + (tableLength mem table).toNat < 2 ^ 32) (first : Word) :
    WalksInside mem table first ↔
      8 ≤ (tableLength mem table).toNat ∧
        ∃ l, SubtableChain mem table.toNat (table.toNat + (tableLength mem table).toNat) first l := by
  have hend : (table + tableLength mem table).toNat =
      table.toNat + (tableLength mem table).toNat := by bv_omega
  constructor
  · rintro ⟨walk, hfuel, _, hreads, hhandled⟩
    obtain ⟨inner, hinner, rfl⟩ := Option.map_eq_some_iff.mp (hfuel _ (Nat.le_refl _))
    rw [List.forall_mem_append] at hreads
    -- the last byte of the length field is one of those that are read
    obtain ⟨hlow, hhigh⟩ : InTable mem table (table + 7) := hreads.1 _ (by simp)
    rw [← hend] at hhandled ⊢
    refine ⟨by bv_omega, inner.handled, subtableChain_of_foreach hinner (fun a ha => ?_) hhandled⟩
    rw [hend]
    exact hreads.2 a ha
  · rintro ⟨hheader, l, hchain⟩
    have hstart := hchain.end_le
    have hinside := hchain.inside
    have hsuccessive := hchain.successive
    rw [← hend] at hchain
    obtain ⟨reads, hwalk, hreads⟩ := hchain.foreach
    refine ⟨⟨l, [table + 4, table + 5, table + 6, table + 7] ++ reads⟩, fun fuel hfuel => ?_,
      hsuccessive, List.forall_mem_append.mpr ⟨?_, ?_⟩, hinside⟩
    · rw [acpiForeachSubtable, hwalk fuel (by omega), Option.map_some]
    · simp only [List.forall_mem_cons, List.not_mem_nil, false_implies, implies_true, and_true,
        InTable]
      bv_omega
    · rw [hend] at hreads
      exact hreads

/-- A memory that holds some bytes from an address on, and zeros. -/
def bytesFrom (a : Word) (bytes : List (BitVec 8)) : ByteMem 32 := fun x => bytes.getD (x - a).toNat 0

/-- A table of 20 bytes whose two subtables follow its 10-byte header. -/
def smallTable : ByteMem 32 :=
  bytesFrom 0x1000 [0, 0, 0, 0, 20, 0, 0, 0, 0, 0, 7, 4, 0, 0, 7, 6]

theorem acpiForeachSubtable_inside_small : WalksInside smallTable 0x1000 0x100A :=
  (acpiForeachSubtable_inside_iff (by decide) 0x100A).mpr ⟨by decide, [0x100A, 0x100E],
    .cons (by decide) (by decide) (by decide)
      (.cons (by decide) (by decide) (by decide) (.past (by decide)))⟩

/-- The subtable that starts in the last byte of a table of 45 bytes: its length is read behind the
table. -/
theorem acpiForeachSubtable_reads_behind :
    ¬ WalksInside (bytesFrom 0x1000 [0, 0, 0, 0, 45]) 0x1000 (0x1000 + sizeofMadt) := by
  rintro ⟨walk, hfuel, _, hreads, _⟩
  have hwalk : acpiForeachSubtable 45 (bytesFrom 0x1000 [0, 0, 0, 0, 45]) 0x1000 (0x1000 + sizeofMadt) =
      some ⟨[], [0x1004, 0x1005, 0x1006, 0x1007, 0x102D]⟩ := by decide
  cases (hfuel 45 (by decide)).symm.trans hwalk
  exact absurd (hreads 0x102D (by decide)).2 (by decide)

/-- The subtables of 16 bytes, with a table that ends in the last byte of memory but one. -/
def endlessTable : ByteMem 32 := fun a =>
  if a.toNat % 16 = 1 then 16 else if a = 0xFFFFFF06 then 0xFD else if a = 0xFFFFFF2F then 2 else 0

section Configure

variable {mem mem' : ByteMem 32} {header madt : Word}

/-- The handler reads only the structure of the subtable's type. -/
theorem acpiMadtConfigureApicSubtable_congr
    (h : ∀ i < madtStructSize (mem header).toNat,
      mem (header + BitVec.ofNat 32 i) = mem' (header + BitVec.ofNat 32 i)) :
    acpiMadtConfigureApicSubtable mem header = acpiMadtConfigureApicSubtable mem' header := by
  have hpos : 0 < madtStructSize (mem header).toNat := by
    unfold madtStructSize
    split <;> decide
  have htype : mem header = mem' header := by simpa using h 0 hpos
  -- A field of `n` bytes at offset `k` of the structure.
  have hload (k n : ℕ) (hk : k + n ≤ madtStructSize (mem header).toNat) :
      loadLE mem (header + BitVec.ofNat 32 k) n = loadLE mem' (header + BitVec.ofNat 32 k) n := by
    apply loadLE_congr
    intro i hi
    rw [add_ofNat_add_ofNat]
    exact h (k + i) (by omega)
  unfold acpiMadtConfigureApicSubtable
  rw [← htype]
  generalize (mem header).toNat = type at h hload ⊢
  split
  · congr 2
    exacts [h 3 (by decide), h 2 (by decide), congrArg _ (hload 4 4 (by decide))]
  · congr 2
    exacts [h 2 (by decide), congrArg _ (hload 4 4 (by decide)), congrArg _ (hload 8 4 (by decide))]
  · congr 2
    exacts [h 2 (by decide), h 3 (by decide), congrArg _ (hload 4 4 (by decide)),
      congrArg _ (hload 8 2 (by decide))]
  · congr 2
    exacts [congrArg _ (hload 4 4 (by decide)), congrArg _ (hload 2 2 (by decide))]
  · congr 2
    exacts [h 2 (by decide), h 5 (by decide), congrArg _ (hload 3 2 (by decide))]
  · exact congrArg (fun v => some (ApicConfigure.lapicOverride (BitVec.ofNat 64 v)))
      (hload 4 8 (by decide))
  · rfl

/-- A chain is one for every memory with the same table. -/
theorem SubtableChain.congr {start e : ℕ} {l : List Word} (h : SubtableChain mem start e header l)
    (he : e < 2 ^ 32) (hagree : ∀ a : Word, start ≤ a.toNat → a.toNat < e → mem a = mem' a) :
    SubtableChain mem' start e header l := by
  have hlength {x : Word} (hstart : start ≤ x.toNat + 1) (hx : x.toNat + 2 ≤ e) :
      subtableLength mem x = subtableLength mem' x :=
    congrArg (BitVec.setWidth 32) (hagree (x + 1) (by bv_omega) (by bv_omega))
  induction h with
  | past hpast => exact .past hpast
  | short hstart hheader hshort =>
    rw [hlength hstart hheader] at hshort
    exact .short hstart hheader hshort
  | @cons header _ hstart hlong hinside _ ih =>
    have hsame : subtableLength mem header = subtableLength mem' header :=
      hlength (by omega) (by bv_omega)
    rw [hsame] at hlong hinside ih
    exact .cons hstart hlong hinside ih

/-- What is configured depends only on the bytes of the table, if its subtables are a chain and each of
them is as long as the structure of its type. -/
theorem acpiConfigureApic_congr (hspace : madt.toNat + (tableLength mem madt).toNat < 2 ^ 32)
    (hheader : 8 ≤ (tableLength mem madt).toNat) {l : List Word}
    (hchain : SubtableChain mem madt.toNat (madt.toNat + (tableLength mem madt).toNat)
      (madt + sizeofMadt) l)
    (hstruct : ∀ x ∈ l, madtStructSize (mem x).toNat ≤ (subtableLength mem x).toNat)
    (hagree : ∀ a, InTable mem madt a → mem a = mem' a) {fuel : ℕ}
    (hfuel : (tableLength mem madt).toNat ≤ fuel) :
    acpiConfigureApic fuel mem madt = acpiConfigureApic fuel mem' madt := by
  have hagree' (a : Word) (hlow : madt.toNat ≤ a.toNat)
      (hhigh : a.toNat < madt.toNat + (tableLength mem madt).toNat) : mem a = mem' a :=
    hagree a ⟨hlow, hhigh⟩
  have hlength : tableLength mem madt = tableLength mem' madt := by
    apply load32_congr
    intro i hi
    exact hagree' _ (by bv_omega) (by bv_omega)
  have hend : (madt + tableLength mem madt).toNat =
      madt.toNat + (tableLength mem madt).toNat := by bv_omega
  have hstart := hchain.end_le
  have hhandled : l.filterMap (acpiMadtConfigureApicSubtable mem) =
      l.filterMap (acpiMadtConfigureApicSubtable mem') := by
    apply List.filterMap_congr
    intro x hx
    obtain ⟨hlow, hhigh⟩ := hchain.inside x hx
    have hsize := hstruct x hx
    exact acpiMadtConfigureApicSubtable_congr fun i hi => hagree' _ (by bv_omega) (by bv_omega)
  have hchain' := hchain.congr hspace hagree'
  rw [← hend] at hchain hchain'
  obtain ⟨_, hwalk, _⟩ := hchain.foreach
  obtain ⟨_, hwalk', _⟩ := hchain'.foreach
  unfold acpiConfigureApic acpiMadtForeachSubtable acpiForeachSubtable
  rw [← hlength, hwalk fuel (by omega), hwalk' fuel (by omega)]
  exact congrArg some hhandled

/-- A table with one local APIC, and a byte behind it. -/
theorem acpiConfigureApic_congr_lapic :
    let mem := bytesFrom 0x1000 ([0, 0, 0, 0, 52] ++ List.replicate 39 0 ++ [0, 8, 1, 2, 1])
    acpiConfigureApic 52 mem 0x1000 = acpiConfigureApic 52 (Function.update mem 0x1034 7) 0x1000 := by
  intro mem
  have hlength : tableLength mem 0x1000 = 52 := by decide
  have hchain : SubtableChain mem 0x1000 (0x1000 + 52) (0x1000 + sizeofMadt) [0x102C] :=
    .cons (by decide) (by decide) (by decide) (.past (by decide))
  refine acpiConfigureApic_congr (by decide) (by decide) hchain ?_ ?_ (by decide)
  · simp only [List.forall_mem_singleton]
    decide
  · rintro a ⟨-, hend⟩
    rw [hlength] at hend
    exact (Function.update_of_ne (by bv_omega) 7 mem).symm

end Configure

end ChrisOS.Ia32
