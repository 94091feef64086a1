import ChrisOS.Sys.Param
import Mathlib.Logic.Function.Basic

/-!
# Interrupt routing by the I/O APICs

The part of `ia32/apic.c` that programs the redirection tables, and `hal_mask_irq` and
`hal_unmask_irq` of `ia32/hal_x86.c` above it. A controller serves the irqs from its base on, one
redirection entry of two registers for each, and its registers are reached through a select
register and a window.

Controllers are of any type, their fields and registers are functions of them. `none` is a failed
assertion or an index outside `_hal_irqs`. What the hardware itself writes to the read-only bits
of an entry is left out: a register holds what was last written to it.
-/

namespace ChrisOS.Ia32

open ChrisOS.Utils ChrisOS.Sys

/-- `enum ioapic_redirect_mask`. -/
inductive IoapicRedirectMask
  | unmasked
  | masked
deriving DecidableEq, Repr

/-- `enum ioapic_trigger_mode`. -/
inductive IoapicTriggerMode
  | edge
  | level
deriving DecidableEq, Repr

/-- `enum ioapic_polarity`. -/
inductive IoapicPolarity
  | activeHigh
  | activeLow
deriving DecidableEq, Repr

/-- `enum ioapic_destination_mode`. -/
inductive IoapicDestinationMode
  | physical
  | logical
deriving DecidableEq, Repr

/-- `enum ioapic_delivery_mode`. -/
inductive IoapicDeliveryMode
  | fixed
  | lowestPriority
  | smi
  | reserved3
  | nmi
  | init
  | reserved6
  | extint
deriving DecidableEq, Repr

/-- The value of the enumerator. -/
def IoapicRedirectMask.toWord : IoapicRedirectMask → Word
  | .unmasked => 0
  | .masked => 1

/-- The value of the enumerator. -/
def IoapicTriggerMode.toWord : IoapicTriggerMode → Word
  | .edge => 0
  | .level => 1

/-- The value of the enumerator. -/
def IoapicPolarity.toWord : IoapicPolarity → Word
  | .activeHigh => 0
  | .activeLow => 1

/-- The value of the enumerator. -/
def IoapicDestinationMode.toWord : IoapicDestinationMode → Word
  | .physical => 0
  | .logical => 1

/-- The value of the enumerator. -/
def IoapicDeliveryMode.toWord : IoapicDeliveryMode → Word
  | .fixed => 0
  | .lowestPriority => 1
  | .smi => 2
  | .reserved3 => 3
  | .nmi => 4
  | .init => 5
  | .reserved6 => 6
  | .extint => 7

/-- What a redirection entry is set up with: the arguments that `ioapic_set_redirection` and
`ioapic_setup_irq` share. -/
structure Redirection where
  destination : BitVec 8
  masked : IoapicRedirectMask
  triggerMode : IoapicTriggerMode
  polarity : IoapicPolarity
  destMode : IoapicDestinationMode
  deliveryMode : IoapicDeliveryMode
  interruptVector : Word
deriving DecidableEq

section Fields

/-- `IOAPIC_RED_GET_DESTINATION`. -/
def ioapicRedGetDestination (upper : Word) : Word := getbits upper 24 31

/-- `IOAPIC_RED_GET_MASK`. -/
def ioapicRedGetMask (value : Word) : Word := getbit value 16

/-- `IOAPIC_RED_GET_TRIGGER_MODE`. -/
def ioapicRedGetTriggerMode (value : Word) : Word := getbit value 15

/-- `IOAPIC_RED_GET_POLARITY`. -/
def ioapicRedGetPolarity (value : Word) : Word := getbit value 13

/-- `IOAPIC_RED_GET_DEST_MODE`. -/
def ioapicRedGetDestMode (value : Word) : Word := getbit value 11

/-- `IOAPIC_RED_GET_DELIVERY_MODE`. -/
def ioapicRedGetDeliveryMode (value : Word) : Word := getbits value 8 10

/-- `IOAPIC_RED_GET_INTERRUPT_VECTOR`. -/
def ioapicRedGetInterruptVector (value : Word) : Word := getbits value 0 7

/-- `IOAPIC_RED_SET_DESTINATION`. -/
def ioapicRedSetDestination (upper value : Word) : Word := withbits upper 24 31 value

/-- `IOAPIC_RED_SET_MASK`. -/
def ioapicRedSetMask (entry value : Word) : Word := withbit entry 16 value

/-- `IOAPIC_RED_SET_TRIGGER_MODE`. -/
def ioapicRedSetTriggerMode (entry value : Word) : Word := withbit entry 15 value

/-- `IOAPIC_RED_SET_POLARITY`. -/
def ioapicRedSetPolarity (entry value : Word) : Word := withbit entry 13 value

/-- `IOAPIC_RED_SET_DEST_MODE`. -/
def ioapicRedSetDestMode (entry value : Word) : Word := withbit entry 11 value

/-- `IOAPIC_RED_SET_DELIVERY_MODE`. -/
def ioapicRedSetDeliveryMode (entry value : Word) : Word := withbits entry 8 10 value

/-- `IOAPIC_RED_SET_INTERRUPT_VECTOR`. -/
def ioapicRedSetInterruptVector (entry value : Word) : Word := withbits entry 0 7 value

end Fields

/-- The list `_ioapics`, the fields of the controllers and their registers. -/
structure Ioapics (ι : Type*) where
  ioapics : List ι
  irqBase : ι → Word
  irqCount : ι → Word
  ioregsel : ι → Word
  reg : ι → Word → Word

section Functions

variable {ι : Type*}

/-- `ioapic_for_irq`. -/
def ioapicForIrq (s : Ioapics ι) (irq : Word) : Option ι :=
  s.ioapics.find? fun i => irq ≥ s.irqBase i && irq < s.irqBase i + s.irqCount i

variable [DecidableEq ι]

/-- `ioapic_read_reg`. -/
def ioapicReadReg (s : Ioapics ι) (i : ι) (regsel : Word) : Word × Ioapics ι :=
  let s := { s with ioregsel := Function.update s.ioregsel i regsel }
  (s.reg i (s.ioregsel i), s)

/-- `ioapic_write_reg`. -/
def ioapicWriteReg (s : Ioapics ι) (i : ι) (regsel value : Word) : Ioapics ι :=
  let s := { s with ioregsel := Function.update s.ioregsel i regsel }
  { s with reg := Function.update s.reg i (Function.update (s.reg i) (s.ioregsel i) value) }

/-- `IOAPIC_REGSEL_REDIRECT_TBL_BASE`. -/
def ioapicRegselRedirectTblBase : Word := 0x10

/-- `ioapic_read_redirection_entry`: the lower and the upper register. -/
def ioapicReadRedirectionEntry (s : Ioapics ι) (i : ι) (index : Word) :
    (Word × Word) × Ioapics ι :=
  let regsel := ioapicRegselRedirectTblBase + index * 2
  let (lower, s) := ioapicReadReg s i regsel
  let (upper, s) := ioapicReadReg s i (regsel + 1)
  ((lower, upper), s)

/-- `ioapic_write_redirection_entry`. -/
def ioapicWriteRedirectionEntry (s : Ioapics ι) (i : ι) (index lower upper : Word) : Ioapics ι :=
  let regsel := ioapicRegselRedirectTblBase + index * 2
  let s := ioapicWriteReg s i regsel lower
  ioapicWriteReg s i (regsel + 1) upper

/-- `ioapic_set_redirection`. -/
def ioapicSetRedirection (s : Ioapics ι) (i : ι) (index : Word) (args : Redirection) : Ioapics ι :=
  let upper := ioapicRedSetDestination 0 (args.destination.setWidth 32)
  let lower := ioapicRedSetMask 0 args.masked.toWord
  let lower := ioapicRedSetTriggerMode lower args.triggerMode.toWord
  let lower := ioapicRedSetPolarity lower args.polarity.toWord
  let lower := ioapicRedSetDestMode lower args.destMode.toWord
  let lower := ioapicRedSetDeliveryMode lower args.deliveryMode.toWord
  let lower := ioapicRedSetInterruptVector lower args.interruptVector
  ioapicWriteRedirectionEntry s i index lower upper

/-- What `ioapic_setup_irq` passes on instead of its arguments: only the destination and the vector
are the caller's. -/
def Redirection.setupIrq (args : Redirection) : Redirection where
  destination := args.destination
  masked := .unmasked
  triggerMode := .edge
  polarity := .activeHigh
  destMode := .physical
  deliveryMode := .fixed
  interruptVector := args.interruptVector

/-- `ioapic_setup_irq`, which passes the irq itself as the index. -/
def ioapicSetupIrq (s : Ioapics ι) (irq : Word) (args : Redirection) : Option (Ioapics ι) :=
  (ioapicForIrq s irq).map fun i => ioapicSetRedirection s i irq args.setupIrq

/-- `ioapic_interrupt_for_irq`. -/
def ioapicInterruptForIrq (s : Ioapics ι) (irq : Word) : Option (Word × Ioapics ι) :=
  (ioapicForIrq s irq).map fun i =>
    let ((lower, _), s) := ioapicReadRedirectionEntry s i (irq - s.irqBase i)
    (ioapicRedGetInterruptVector lower, s)

/-- Rewrite the mask bit of an irq's entry. -/
def ioapicRemaskIrq (mask : IoapicRedirectMask) (s : Ioapics ι) (irq : Word) :
    Option (Ioapics ι) :=
  (ioapicForIrq s irq).map fun i =>
    let index := irq - s.irqBase i
    let ((lower, upper), s) := ioapicReadRedirectionEntry s i index
    ioapicWriteRedirectionEntry s i index (ioapicRedSetMask lower mask.toWord) upper

/-- `ioapic_mask_irq`. -/
def ioapicMaskIrq (s : Ioapics ι) (irq : Word) : Option (Ioapics ι) := ioapicRemaskIrq .masked s irq

/-- `ioapic_unmask_irq`. -/
def ioapicUnmaskIrq (s : Ioapics ι) (irq : Word) : Option (Ioapics ι) :=
  ioapicRemaskIrq .unmasked s irq

/-- `HAL_MAX_IRQS`. -/
def halMaxIrqs : Nat := 96

/-- `APIC_IRQ_BASE`, one above `APIC_SIVR`. -/
def apicIrqBase : Word := 0x37 + 1

/-- The vectors in `_hal_irqs`, as `hal_x86_init_irq_lines` sets them. -/
def halX86InitIrqLines : List Word :=
  (List.range halMaxIrqs).map fun irq => BitVec.ofNat 32 irq + apicIrqBase

/-- The call of `ioapic_setup_irq` that `hal_mask_irq` and `hal_unmask_irq` make, with `lapicId`
for what `apic_current_cpu_apic_id` returns. -/
def halSetupIrq (mask : IoapicRedirectMask) (lapicId : BitVec 8) (s : Ioapics ι) (irq : Word) :
    Option (Ioapics ι) :=
  halX86InitIrqLines[irq.toNat]?.bind fun vector =>
    ioapicSetupIrq s irq ⟨lapicId, mask, .edge, .activeHigh, .physical, .fixed, vector⟩

/-- `hal_unmask_irq`. -/
def halUnmaskIrq (lapicId : BitVec 8) (s : Ioapics ι) (irq : Word) : Option (Ioapics ι) :=
  halSetupIrq .unmasked lapicId s irq

/-- `hal_mask_irq`. -/
def halMaskIrq (lapicId : BitVec 8) (s : Ioapics ι) (irq : Word) : Option (Ioapics ι) :=
  halSetupIrq .masked lapicId s irq

end Functions

end ChrisOS.Ia32
