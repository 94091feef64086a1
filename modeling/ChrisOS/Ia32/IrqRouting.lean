import ChrisOS.Ia32.IoApic
import Mathlib.Data.List.Basic

/-!
# Where irqs are routed

`ioapic_interrupt_for_irq`, `ioapic_mask_irq` and `ioapic_unmask_irq` use the entry whose index is
the irq's distance from the base of its controller. `ioapic_setup_irq` passes the irq itself as
the index and drops five of its arguments. So an irq is set up as asked only on a controller with
base zero, and only if it is asked to be unmasked, edge-triggered, active high, in physical mode
and with fixed delivery; in particular `hal_mask_irq` unmasks the irq.
-/

namespace ChrisOS.Ia32

open ChrisOS.Utils ChrisOS.Sys

variable {ι : Type*}

/-- The two registers of the entry with an index. -/
def Ioapics.entryAt (s : Ioapics ι) (i : ι) (index : Word) : Word × Word :=
  (s.reg i (ioapicRegselRedirectTblBase + index * 2),
    s.reg i (ioapicRegselRedirectTblBase + index * 2 + 1))

/-- The entry of an irq of a controller. -/
def Ioapics.entry (s : Ioapics ι) (i : ι) (irq : Word) : Word × Word :=
  s.entryAt i (irq - s.irqBase i)

/-- The irq is in the controller's range. -/
def Ioapics.Serves (s : Ioapics ι) (i : ι) (irq : Word) : Prop :=
  (s.irqBase i).toNat ≤ irq.toNat ∧ irq.toNat < (s.irqBase i).toNat + (s.irqCount i).toNat

instance (s : Ioapics ι) (i : ι) (irq : Word) : Decidable (s.Serves i irq) :=
  inferInstanceAs (Decidable (_ ∧ _))

/-- The controllers' ranges are disjoint. The number of irqs is a signed integer, not negative. -/
structure Ioapics.Layout (s : Ioapics ι) : Prop where
  count : ∀ i ∈ s.ioapics, (s.irqCount i).toNat < 2 ^ 31
  disjoint : ∀ i ∈ s.ioapics, ∀ j ∈ s.ioapics, ∀ irq, s.Serves i irq → s.Serves j irq → i = j

/-- The fields of an entry are these. -/
structure Decodes (entry : Word × Word) (args : Redirection) : Prop where
  destination : ioapicRedGetDestination entry.2 = args.destination.setWidth 32
  masked : ioapicRedGetMask entry.1 = args.masked.toWord
  triggerMode : ioapicRedGetTriggerMode entry.1 = args.triggerMode.toWord
  polarity : ioapicRedGetPolarity entry.1 = args.polarity.toWord
  destMode : ioapicRedGetDestMode entry.1 = args.destMode.toWord
  deliveryMode : ioapicRedGetDeliveryMode entry.1 = args.deliveryMode.toWord
  interruptVector : ioapicRedGetInterruptVector entry.1 = args.interruptVector

/-- An irq is set up: its entry has the fields asked for and the entries of all other irqs, on all
controllers, are as before. -/
structure Routed (s s' : Ioapics ι) (i : ι) (irq : Word) (args : Redirection) : Prop where
  decodes : Decodes (s'.entry i irq) args
  others : ∀ j ∈ s.ioapics, ∀ irq', s.Serves j irq' → irq' ≠ irq → s'.entry j irq' = s.entry j irq'

section Packing

/-- The values of different enumerators differ. -/
theorem IoapicRedirectMask.toWord_injective : Function.Injective IoapicRedirectMask.toWord := by
  rintro (_ | _) (_ | _) h <;> first | rfl | cases h

theorem IoapicTriggerMode.toWord_injective : Function.Injective IoapicTriggerMode.toWord := by
  rintro (_ | _) (_ | _) h <;> first | rfl | cases h

theorem IoapicPolarity.toWord_injective : Function.Injective IoapicPolarity.toWord := by
  rintro (_ | _) (_ | _) h <;> first | rfl | cases h

theorem IoapicDestinationMode.toWord_injective :
    Function.Injective IoapicDestinationMode.toWord := by
  rintro (_ | _) (_ | _) h <;> first | rfl | cases h

theorem IoapicDeliveryMode.toWord_injective : Function.Injective IoapicDeliveryMode.toWord := by
  intro a b h
  cases a <;> cases b <;> first | rfl | cases h

/-- An entry decodes to one setup only. -/
theorem Decodes.unique {entry : Word × Word} {a b : Redirection} (ha : Decodes entry a)
    (hb : Decodes entry b) : a = b := by
  obtain ⟨destination, mask, trigger, polarity, destMode, delivery, vector⟩ := a
  obtain ⟨destination', mask', trigger', polarity', destMode', delivery', vector'⟩ := b
  obtain rfl : destination = destination' := by
    have hwide := congrArg BitVec.toNat (ha.destination.symm.trans hb.destination)
    simp only [BitVec.toNat_setWidth] at hwide
    apply BitVec.eq_of_toNat_eq
    omega
  obtain rfl := IoapicRedirectMask.toWord_injective (ha.masked.symm.trans hb.masked)
  obtain rfl := IoapicTriggerMode.toWord_injective (ha.triggerMode.symm.trans hb.triggerMode)
  obtain rfl := IoapicPolarity.toWord_injective (ha.polarity.symm.trans hb.polarity)
  obtain rfl := IoapicDestinationMode.toWord_injective (ha.destMode.symm.trans hb.destMode)
  obtain rfl := IoapicDeliveryMode.toWord_injective (ha.deliveryMode.symm.trans hb.deliveryMode)
  obtain rfl : vector = vector' := ha.interruptVector.symm.trans hb.interruptVector
  rfl

/-- The two words `ioapic_set_redirection` writes. -/
def Redirection.pack (args : Redirection) : Word × Word :=
  (withbits (withbits (withbits (withbits (withbits (withbits 0
    16 16 args.masked.toWord) 15 15 args.triggerMode.toWord) 13 13 args.polarity.toWord)
    11 11 args.destMode.toWord) 8 10 args.deliveryMode.toWord) 0 7 args.interruptVector,
    withbits 0 24 31 (args.destination.setWidth 32))

/-- The fields of the packed words are the arguments. -/
theorem Redirection.decodes_pack {args : Redirection} (hvector : args.interruptVector.toNat < 256) :
    Decodes args.pack args where
  destination := by
    apply getbits_withbits (by decide) (by decide)
    rw [BitVec.toNat_setWidth]
    omega
  masked := by
    have hfits : args.masked.toWord.toNat < 2 := by cases args.masked <;> decide
    simp (disch := decide) only [pack, ioapicRedGetMask, getbit, getbits_withbits_of_disjoint]
    exact getbits_withbits (by decide) (by decide) hfits
  triggerMode := by
    have hfits : args.triggerMode.toWord.toNat < 2 := by cases args.triggerMode <;> decide
    simp (disch := decide) only [pack, ioapicRedGetTriggerMode, getbit, getbits_withbits_of_disjoint]
    exact getbits_withbits (by decide) (by decide) hfits
  polarity := by
    have hfits : args.polarity.toWord.toNat < 2 := by cases args.polarity <;> decide
    simp (disch := decide) only [pack, ioapicRedGetPolarity, getbit, getbits_withbits_of_disjoint]
    exact getbits_withbits (by decide) (by decide) hfits
  destMode := by
    have hfits : args.destMode.toWord.toNat < 2 := by cases args.destMode <;> decide
    simp (disch := decide) only [pack, ioapicRedGetDestMode, getbit, getbits_withbits_of_disjoint]
    exact getbits_withbits (by decide) (by decide) hfits
  deliveryMode := by
    have hfits : args.deliveryMode.toWord.toNat < 8 := by cases args.deliveryMode <;> decide
    simp (disch := decide) only [pack, ioapicRedGetDeliveryMode, getbits_withbits_of_disjoint]
    exact getbits_withbits (by decide) (by decide) hfits
  interruptVector := getbits_withbits (by decide) (by decide) hvector

end Packing

section Tables

variable {s : Ioapics ι} {i : ι} {irq : Word}

/-- What `ioapic_for_irq` tests. The end of a range that reaches the last irq wraps, and then the
test fails for every irq. -/
theorem Ioapics.tested_iff (s : Ioapics ι) (i : ι) (irq : Word) :
    (irq ≥ s.irqBase i && irq < s.irqBase i + s.irqCount i) = true ↔
      s.Serves i irq ∧ (s.irqBase i).toNat + (s.irqCount i).toNat < 2 ^ 32 := by
  have hbase := (s.irqBase i).isLt
  have hcount := (s.irqCount i).isLt
  simp only [Bool.and_eq_true, decide_eq_true_eq, ge_iff_le, BitVec.le_def, BitVec.lt_def,
    BitVec.toNat_add, Serves]
  omega

/-- A controller that is found passed the test. -/
theorem Ioapics.tested_of_eq_some (hfind : ioapicForIrq s irq = some i) :
    s.Serves i irq ∧ (s.irqBase i).toNat + (s.irqCount i).toNat < 2 ^ 32 := by
  have htest := List.find?_some hfind
  exact (s.tested_iff i irq).mp htest

/-- The controller of an irq is found, unless the end of its range wraps. -/
theorem Ioapics.Layout.ioapicForIrq_eq (h : s.Layout) (hi : i ∈ s.ioapics)
    (hirq : s.Serves i irq) (hend : (s.irqBase i).toNat + (s.irqCount i).toNat < 2 ^ 32) :
    ioapicForIrq s irq = some i := by
  cases hfind : ioapicForIrq s irq with
  | none => exact absurd ((s.tested_iff i irq).mpr ⟨hirq, hend⟩) (List.find?_eq_none.mp hfind i hi)
  | some j =>
    have htested := s.tested_of_eq_some hfind
    rw [h.disjoint j (List.mem_of_find?_eq_some hfind) i hi irq htested.1 hirq]

/-- The controller of an irq is not found if the end of its range wraps. -/
theorem Ioapics.Layout.ioapicForIrq_eq_none (h : s.Layout) (hi : i ∈ s.ioapics)
    (hirq : s.Serves i irq) (hend : ¬ (s.irqBase i).toNat + (s.irqCount i).toNat < 2 ^ 32) :
    ioapicForIrq s irq = none := by
  cases hfind : ioapicForIrq s irq with
  | none => rfl
  | some j =>
    have htested := s.tested_of_eq_some hfind
    obtain rfl := h.disjoint j (List.mem_of_find?_eq_some hfind) i hi irq htested.1 hirq
    exact absurd htested.2 hend

/-- Different irqs of a controller have different entries. -/
theorem Ioapics.Serves.index_ne {irq' : Word} (hirq : s.Serves i irq) (hirq' : s.Serves i irq')
    (hcount : (s.irqCount i).toNat < 2 ^ 31) (hne : irq' ≠ irq) :
    (irq' - s.irqBase i) * 2 ≠ (irq - s.irqBase i) * 2 := by
  obtain ⟨hge, hlt⟩ := hirq
  obtain ⟨hge', hlt'⟩ := hirq'
  bv_omega

variable [DecidableEq ι]

/-- The registers after an entry is written. -/
theorem reg_write (s : Ioapics ι) (i : ι) (index lower upper : Word) :
    (ioapicWriteRedirectionEntry s i index lower upper).reg = Function.update s.reg i
      (Function.update (Function.update (s.reg i) (ioapicRegselRedirectTblBase + index * 2) lower)
        (ioapicRegselRedirectTblBase + index * 2 + 1) upper) := by
  simp [ioapicWriteRedirectionEntry, ioapicWriteReg]

/-- A written entry. -/
theorem entryAt_write (s : Ioapics ι) (i : ι) (index : Word) (entry : Word × Word) :
    (ioapicWriteRedirectionEntry s i index entry.1 entry.2).entryAt i index = entry := by
  have hne : ioapicRegselRedirectTblBase + index * 2 ≠
      ioapicRegselRedirectTblBase + index * 2 + 1 := by
    bv_omega
  rw [Ioapics.entryAt, reg_write, Function.update_self, Function.update_self,
    Function.update_of_ne hne, Function.update_self]

/-- Writing an entry leaves all others alone. -/
theorem entryAt_write_of_ne (s : Ioapics ι) {i j : ι} {index index' : Word}
    (hne : j = i → index' * 2 ≠ index * 2) (entry : Word × Word) :
    (ioapicWriteRedirectionEntry s i index entry.1 entry.2).entryAt j index' =
      s.entryAt j index' := by
  rw [Ioapics.entryAt, reg_write]
  by_cases hj : j = i
  · subst hj
    have hindex := hne rfl
    rw [Function.update_self, Function.update_of_ne (by bv_omega), Function.update_of_ne (by bv_omega),
      Function.update_of_ne (by bv_omega), Function.update_of_ne (by bv_omega)]
    rfl
  · rw [Function.update_of_ne hj]
    rfl

/-- Every function but `ioapic_setup_irq` uses the irq's entry: one reads its vector, the others
write its mask bit, and nothing else changes. -/
structure UsesEntry (s : Ioapics ι) (i : ι) (irq : Word) : Prop where
  interrupt : ∃ s', ioapicInterruptForIrq s irq =
      some (ioapicRedGetInterruptVector (s.entry i irq).1, s') ∧ s'.reg = s.reg
  remask : ∀ mask, ∃ s', ioapicRemaskIrq mask s irq = some s' ∧
    s'.entry i irq = (ioapicRedSetMask (s.entry i irq).1 mask.toWord, (s.entry i irq).2) ∧
    ∀ j ∈ s.ioapics, ∀ irq', s.Serves j irq' → irq' ≠ irq → s'.entry j irq' = s.entry j irq'

/-- Reading an entry changes only the select register. -/
theorem ioapicReadRedirectionEntry_eq (s : Ioapics ι) (i : ι) (index : Word) :
    ∃ ioregsel, ioapicReadRedirectionEntry s i index =
      (s.entryAt i index, { s with ioregsel := ioregsel }) := by
  refine ⟨Function.update s.ioregsel i (ioapicRegselRedirectTblBase + index * 2 + 1), ?_⟩
  simp [ioapicReadRedirectionEntry, ioapicReadReg, Ioapics.entryAt]

/-- The functions find the irq's entry on every layout. -/
theorem Ioapics.Layout.usesEntry (h : s.Layout) (hi : i ∈ s.ioapics) (hirq : s.Serves i irq)
    (hend : (s.irqBase i).toNat + (s.irqCount i).toNat < 2 ^ 32) : UsesEntry s i irq where
  interrupt := by
    obtain ⟨ioregsel, hread⟩ := ioapicReadRedirectionEntry_eq s i (irq - s.irqBase i)
    refine ⟨{ s with ioregsel := ioregsel }, ?_, rfl⟩
    rw [ioapicInterruptForIrq, h.ioapicForIrq_eq hi hirq hend, Option.map_some, hread]
    rfl
  remask := fun mask => by
    obtain ⟨ioregsel, hread⟩ := ioapicReadRedirectionEntry_eq s i (irq - s.irqBase i)
    rw [ioapicRemaskIrq, h.ioapicForIrq_eq hi hirq hend, Option.map_some]
    dsimp only
    rw [hread]
    refine ⟨_, rfl, entryAt_write _ i _ (_, _), fun j _ irq' hirq' hne => ?_⟩
    refine entryAt_write_of_ne { s with ioregsel := ioregsel } ?_ (_, _)
    rintro rfl
    exact hirq.index_ne hirq' (h.count j hi) hne

/-- What `ioapic_setup_irq` writes, and where. -/
theorem Ioapics.Layout.ioapicSetupIrq_eq (h : s.Layout) (hi : i ∈ s.ioapics)
    (hirq : s.Serves i irq) (hend : (s.irqBase i).toNat + (s.irqCount i).toNat < 2 ^ 32)
    (args : Redirection) :
    ioapicSetupIrq s irq args = some (ioapicWriteRedirectionEntry s i irq args.setupIrq.pack.1
      args.setupIrq.pack.2) := by
  rw [ioapicSetupIrq, h.ioapicForIrq_eq hi hirq hend]
  rfl

omit [DecidableEq ι] in
/-- The doubled index selects the registers. -/
theorem Ioapics.entryAt_congr (s : Ioapics ι) (i : ι) {index index' : Word}
    (h : index * 2 = index' * 2) : s.entryAt i index = s.entryAt i index' := by
  rw [entryAt, entryAt, h]

/-- What a setup does: it is as asked only if the base, doubled as indices are, is zero and the
arguments that are dropped are the ones passed on; with another base it misses the entry. -/
structure SetUp (s s' : Ioapics ι) (i : ι) (irq : Word) (args : Redirection) : Prop where
  decodes : s.irqBase i * 2 = 0 → Decodes (s'.entry i irq) args.setupIrq
  routed : s.irqBase i * 2 = 0 → (Routed s s' i irq args ↔ args.setupIrq = args)
  missed : s.irqBase i * 2 ≠ 0 → s'.entry i irq = s.entry i irq

/-- `ioapic_setup_irq` on every layout. -/
theorem Ioapics.Layout.setUp (h : s.Layout) (hi : i ∈ s.ioapics)
    (hirq : s.Serves i irq) (hend : (s.irqBase i).toNat + (s.irqCount i).toNat < 2 ^ 32)
    {args : Redirection} (hvector : args.interruptVector.toNat < 256) :
    ∃ s', ioapicSetupIrq s irq args = some s' ∧ SetUp s s' i irq args := by
  refine ⟨_, h.ioapicSetupIrq_eq hi hirq hend args, ?_⟩
  generalize hs' : ioapicWriteRedirectionEntry s i irq args.setupIrq.pack.1 args.setupIrq.pack.2 = s'
  have hbase' : s'.irqBase = s.irqBase := by
    rw [← hs']
    rfl
  have hwritten : s'.entryAt i irq = args.setupIrq.pack := by
    rw [← hs']
    exact entryAt_write s i irq _
  have hkept : ∀ j index, (j = i → index * 2 ≠ irq * 2) → s'.entryAt j index = s.entryAt j index := by
    intro j index hne
    rw [← hs']
    exact entryAt_write_of_ne s hne _
  have hdecodes : s.irqBase i * 2 = 0 → Decodes (s'.entry i irq) args.setupIrq := by
    intro hbase
    have hindex : (irq - s.irqBase i) * 2 = irq * 2 := by bv_omega
    rw [Ioapics.entry, hbase', s'.entryAt_congr i hindex, hwritten]
    exact Redirection.decodes_pack hvector
  refine ⟨hdecodes, fun hbase => ⟨fun hrouted => ?_, fun hsame => ?_⟩, fun hbase => ?_⟩
  · exact (hdecodes hbase).unique hrouted.decodes
  · refine ⟨hsame ▸ hdecodes hbase, fun j _ irq' hirq' hne => ?_⟩
    rw [Ioapics.entry, hbase']
    apply hkept
    rintro rfl
    have hindex := hirq.index_ne hirq' (h.count j hi) hne
    bv_omega
  · rw [Ioapics.entry, hbase']
    apply hkept
    rintro -
    bv_omega

/-- What masking and unmasking through the hardware abstraction layer do: the irq is unmasked
either way, unless its entry is missed. -/
structure Unmasks (s s' : Ioapics ι) (i : ι) (irq : Word) : Prop where
  unmasked : s.irqBase i * 2 = 0 →
    ioapicRedGetMask (s'.entry i irq).1 = IoapicRedirectMask.unmasked.toWord
  missed : s.irqBase i * 2 ≠ 0 → s'.entry i irq = s.entry i irq

omit [DecidableEq ι] in
/-- The vector of an irq line. -/
theorem halX86InitIrqLines_getElem {irq : Word} (hline : irq.toNat < halMaxIrqs) :
    halX86InitIrqLines[irq.toNat]? = some (irq + apicIrqBase) := by
  rw [halX86InitIrqLines, List.getElem?_map, List.getElem?_range hline, Option.map_some,
    BitVec.ofNat_toNat, BitVec.setWidth_eq]

/-- `hal_mask_irq` and `hal_unmask_irq` for irqs that have a line. -/
theorem Ioapics.Layout.unmasks (h : s.Layout) (hi : i ∈ s.ioapics)
    (hirq : s.Serves i irq) (hend : (s.irqBase i).toNat + (s.irqCount i).toNat < 2 ^ 32)
    (hline : irq.toNat < halMaxIrqs) (mask : IoapicRedirectMask) (lapicId : BitVec 8) :
    ∃ s', halSetupIrq mask lapicId s irq = some s' ∧ Unmasks s s' i irq := by
  have hfits : (irq + apicIrqBase).toNat < 256 := by
    simp only [halMaxIrqs] at hline
    simp only [apicIrqBase]
    bv_omega
  let args : Redirection := ⟨lapicId, mask, .edge, .activeHigh, .physical, .fixed, irq + apicIrqBase⟩
  obtain ⟨s', hsetup, hdone⟩ : ∃ s', ioapicSetupIrq s irq args = some s' ∧ SetUp s s' i irq args :=
    h.setUp hi hirq hend hfits
  refine ⟨s', ?_, fun hbase => (hdone.decodes hbase).masked, hdone.missed⟩
  rw [halSetupIrq, halX86InitIrqLines_getElem hline]
  exact hsetup

/-- Setting up an irq of a controller, on every layout: the call fails if the controller's range
wraps, and otherwise does what `SetUp` and `Unmasks` say. -/
theorem irq_routed_only_if_based (h : s.Layout) (hi : i ∈ s.ioapics) (hirq : s.Serves i irq)
    {args : Redirection} (hvector : args.interruptVector.toNat < 256) (lapicId : BitVec 8) :
    (¬ (s.irqBase i).toNat + (s.irqCount i).toNat < 2 ^ 32 → ioapicSetupIrq s irq args = none) ∧
    ((s.irqBase i).toNat + (s.irqCount i).toNat < 2 ^ 32 →
      UsesEntry s i irq ∧
      (∃ s', ioapicSetupIrq s irq args = some s' ∧ SetUp s s' i irq args) ∧
      (irq.toNat < halMaxIrqs →
        (∃ s', halUnmaskIrq lapicId s irq = some s' ∧ Unmasks s s' i irq) ∧
        ∃ s', halMaskIrq lapicId s irq = some s' ∧ Unmasks s s' i irq)) := by
  refine ⟨fun hend => ?_, fun hend => ⟨h.usesEntry hi hirq hend, h.setUp hi hirq hend hvector,
    fun hline => ⟨h.unmasks hi hirq hend hline .unmasked lapicId,
      h.unmasks hi hirq hend hline .masked lapicId⟩⟩⟩
  rw [ioapicSetupIrq, h.ioapicForIrq_eq_none hi hirq hend]
  rfl

end Tables

/-- A controller for the irqs up to 15 and one for the 24 that follow. -/
def twoIoapics : Ioapics Bool where
  ioapics := [false, true]
  irqBase := fun i => if i then 16 else 0
  irqCount := fun i => if i then 24 else 16
  ioregsel := fun _ => 0
  reg := fun _ _ => 0

theorem twoIoapics_layout : twoIoapics.Layout where
  count := by decide
  disjoint := by
    rintro (_ | _) _ (_ | _) _ irq ⟨hge, hlt⟩ ⟨hge', hlt'⟩ <;>
      first | rfl | (simp [twoIoapics] at hge hlt hge' hlt'; omega)

/-- An edge-triggered, active high interrupt for the processor with identifier 0. -/
def edgeTo (mask : IoapicRedirectMask) (interruptVector : Word) : Redirection :=
  ⟨0, mask, .edge, .activeHigh, .physical, .fixed, interruptVector⟩

/-- Irq 1 is set up on the first controller. -/
theorem irq_routed_first_controller :
    twoIoapics.Serves false 1 ∧ ∃ s', ioapicSetupIrq twoIoapics 1 (edgeTo .unmasked 0x39) = some s' ∧
      Routed twoIoapics s' false 1 (edgeTo .unmasked 0x39) := by
  have hserves : twoIoapics.Serves false 1 := by decide
  have hvector : (edgeTo .unmasked 0x39).interruptVector.toNat < 256 := by decide
  obtain ⟨-, hok⟩ := irq_routed_only_if_based twoIoapics_layout (by decide) hserves hvector 0
  obtain ⟨-, ⟨s', hsetup, hdone⟩, -⟩ := hok (by decide)
  exact ⟨hserves, s', hsetup, (hdone.routed (by decide)).mpr rfl⟩

/-- Irq 1 is masked and ends up unmasked. Irq 20, of the second controller, is set up and its entry
stays as it was; the one that is overwritten belongs to irq 36. -/
theorem irq_misrouted :
    twoIoapics.Layout ∧
    (∃ s', halMaskIrq 0 twoIoapics 1 = some s' ∧ twoIoapics.Serves false 1 ∧
      ioapicRedGetMask (s'.entry false 1).1 ≠ IoapicRedirectMask.masked.toWord) ∧
    ∃ s', ioapicSetupIrq twoIoapics 20 (edgeTo .unmasked 0x4c) = some s' ∧
      twoIoapics.Serves true 20 ∧ twoIoapics.Serves true 36 ∧
      ioapicRedGetInterruptVector (s'.entry true 20).1 ≠ 0x4c ∧
      s'.entry true 36 ≠ twoIoapics.entry true 36 := by
  exact ⟨twoIoapics_layout, ⟨_, rfl, by decide, by decide⟩,
    ⟨_, rfl, by decide, by decide, by decide, by decide⟩⟩

end ChrisOS.Ia32
