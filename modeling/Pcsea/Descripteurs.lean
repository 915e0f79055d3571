import Pcsea.Fault
import Pcsea.Lib.BitField
/-!
# `processor_structs.c`, `interrupt.c`: descriptors and gates

An entry of the GDT or of the IDT is a number of 64 bits. What the processor
reads in it stands beside what the kernel writes.
-/

namespace Pcsea

open Lib

variable {addr limit access sizebits ofs selector wordCount : Nat}

def SZ_32 : Nat := 0x4
def SZ_G : Nat := 0x8
def ACC_TASK_GATE : Nat := 0x05
def ACC_TSS : Nat := 0x09
def ACC_INTR_GATE : Nat := 0x0e
def ACC_DATA_W : Nat := 0x12
def ACC_CODE_R : Nat := 0x1a
def ACC_PL_K : Nat := 0x00
def ACC_PL_U : Nat := 0x60
def ACC_P : Nat := 0x80

def BASE_TSS : Nat := 0x08
def KERNEL_CS : Nat := 0x10
def KERNEL_DS : Nat := 0x18
def USER_CS : Nat := 0x43
def USER_DS : Nat := 0x4b
def TRAP_TSS_BASE : Nat := 0x50

/-! ## What the kernel writes -/

def fillDescriptor (addr limit access sizebits : Nat) : Nat :=
  let sizebits := if limit > 0xfffff then sizebits ||| SZ_G else sizebits
  let limit := if limit > 0xfffff then limit >>> 12 else limit
  let p0 := (limit &&& 0xffff) + (addr &&& 0xffff) <<< 16
  let p1 := addr >>> 16 &&& 0xff
  let p1 := p1 ||| ((access ||| ACC_P) &&& 0xff) <<< 8
  let p1 := p1 ||| (limit &&& 0xf0000)
  let p1 := p1 ||| (sizebits &&& 0xf) <<< 20
  let p1 := p1 ||| (addr &&& 0xff000000)
  p1 <<< 32 ||| p0

def fillGate (offset selector access wordCount : Nat) : Nat :=
  let p0 := offset &&& 0xffff
  let p0 := p0 ||| selector <<< 16
  let p1 := wordCount &&& 0xf
  let p1 := p1 ||| (access ||| ACC_P) <<< 8
  let p1 := p1 ||| (offset &&& 0xffff0000)
  p1 <<< 32 ||| p0

/-! ## What the processor reads -/

def Segment.base (d : Nat) : Nat := field d 16 24 + field d 56 8 <<< 24

/-- The last offset of the segment. -/
def Segment.limite (d : Nat) : Nat :=
  let l := field d 0 16 + field d 48 4 <<< 16
  if d.testBit 55 then l <<< 12 + 0xfff else l

def Segment.acces (d : Nat) : Nat := field d 40 8

theorem fillDescriptor_bits (ha : addr < 2 ^ 32) (i : Nat) : (fillDescriptor addr limit access sizebits).testBit i =
    if i < 16 then (if limit > 0xfffff then limit >>> 12 else limit).testBit i
    else if i < 40 then addr.testBit (i - 16)
    else if i < 48 then (access ||| ACC_P).testBit (i - 40)
    else if i < 52 then (if limit > 0xfffff then limit >>> 12 else limit).testBit (i - 32)
    else if i < 56 then (if limit > 0xfffff then sizebits ||| SZ_G else sizebits).testBit (i - 52)
    else addr.testBit (i - 32) := by
  unfold fillDescriptor
  dsimp only
  generalize (if limit > 0xfffff then limit >>> 12 else limit) = l
  generalize (if limit > 0xfffff then sizebits ||| SZ_G else sizebits) = s
  generalize access ||| ACC_P = acc
  have h16 : (0xffff : Nat) = mask 16 0 := rfl
  have h8 : (0xff : Nat) = mask 8 0 := rfl
  have h4 : (0xf : Nat) = mask 4 0 := rfl
  have hf : (0xf0000 : Nat) = mask 4 16 := rfl
  have hff : (0xff000000 : Nat) = mask 8 24 := rfl
  have hp0 : (l &&& 0xffff) + (addr &&& 0xffff) <<< 16 = (addr &&& 0xffff) <<< 16 ||| (l &&& 0xffff) := by
    rw [Nat.add_comm]
    exact Nat.shiftLeft_add_eq_or_of_lt (Nat.lt_of_le_of_lt Nat.and_le_right (by decide)) _
  rw [hp0, h16, h8, h4, hf, hff]
  simp only [Nat.testBit_or, Nat.testBit_and, Nat.testBit_shiftLeft, Nat.testBit_shiftRight, testBit_mask]
  have hz : ∀ j, 32 ≤ j → addr.testBit j = false := fun j hj => testBit_of_lt ha hj
  grind

theorem fillDescriptor_base_lo (ha : addr < 2 ^ 32) : field (fillDescriptor addr limit access sizebits) 16 24 = addr % 2 ^ 24 := by
  apply field_eq (Nat.mod_lt _ (Nat.two_pow_pos 24))
  intro i hi
  rw [fillDescriptor_bits ha, if_neg (by omega), if_pos (by omega), Nat.testBit_mod_two_pow, decide_eq_true hi, Bool.true_and,
    Nat.add_sub_cancel_left]

theorem fillDescriptor_base_hi (ha : addr < 2 ^ 32) : field (fillDescriptor addr limit access sizebits) 56 8 = addr / 2 ^ 24 := by
  apply field_eq (by omega)
  intro i hi
  rw [fillDescriptor_bits ha, if_neg (by omega), if_neg (by omega), if_neg (by omega), if_neg (by omega), if_neg (by omega),
    Nat.testBit_div_two_pow]
  congr 1
  omega

/-- The base reads back, whatever the rest. -/
theorem fillDescriptor_base (ha : addr < 2 ^ 32) : Segment.base (fillDescriptor addr limit access sizebits) = addr := by
  unfold Segment.base
  rw [fillDescriptor_base_lo ha, fillDescriptor_base_hi ha, Nat.shiftLeft_eq, Nat.mul_comm, Nat.mod_add_div]

theorem fillDescriptor_acces (ha : addr < 2 ^ 32) (hacc : access < 256) :
    Segment.acces (fillDescriptor addr limit access sizebits) = access ||| ACC_P := by
  apply field_eq (Nat.or_lt_two_pow hacc (by decide))
  intro i hi
  rw [fillDescriptor_bits ha, if_neg (by omega), if_neg (by omega), if_pos (by omega), Nat.add_sub_cancel_left]

/-- The 20 bits kept of a limit. -/
def limiteEcrite (limit : Nat) : Nat := if limit > 0xfffff then limit >>> 12 else limit

theorem fillDescriptor_limite_lo (ha : addr < 2 ^ 32) :
    field (fillDescriptor addr limit access sizebits) 0 16 = limiteEcrite limit % 2 ^ 16 := by
  apply field_eq (Nat.mod_lt _ (Nat.two_pow_pos 16))
  intro i hi
  rw [fillDescriptor_bits ha, if_pos (by omega), Nat.testBit_mod_two_pow, decide_eq_true hi, Bool.true_and, Nat.zero_add]
  rfl

theorem fillDescriptor_limite_hi (ha : addr < 2 ^ 32) (hl : limit < 2 ^ 32) :
    field (fillDescriptor addr limit access sizebits) 48 4 = limiteEcrite limit / 2 ^ 16 := by
  have hw : limiteEcrite limit < 2 ^ 20 := by
    rw [limiteEcrite, Nat.shiftRight_eq_div_pow]
    split <;> omega
  apply field_eq (by omega)
  intro i hi
  rw [fillDescriptor_bits ha, if_neg (by omega), if_neg (by omega), if_neg (by omega), if_pos (by omega), Nat.testBit_div_two_pow,
    limiteEcrite]
  congr 1
  omega

theorem fillDescriptor_granularite (ha : addr < 2 ^ 32) (hs : sizebits.testBit 3 = false) :
    (fillDescriptor addr limit access sizebits).testBit 55 = decide (limit > 0xfffff) := by
  rw [fillDescriptor_bits ha, if_neg (by omega), if_neg (by omega), if_neg (by omega), if_neg (by omega), if_pos (by omega)]
  by_cases h : limit > 0xfffff
  · rw [if_pos h, Nat.testBit_or, decide_eq_true h, show SZ_G.testBit (55 - 52) = true from rfl, Bool.or_true]
  · rw [if_neg h, decide_eq_false h]
    exact hs

/-- A limit of more than 20 bits is rounded up to a multiple of 4096, less one. -/
theorem fillDescriptor_limite (ha : addr < 2 ^ 32) (hl : limit < 2 ^ 32) (hs : sizebits.testBit 3 = false) :
    Segment.limite (fillDescriptor addr limit access sizebits) =
      if limit > 0xfffff then limit / 4096 * 4096 + 4095 else limit := by
  have hsum : ∀ l, l % 2 ^ 16 + (l / 2 ^ 16) <<< 16 = l := fun l => by rw [Nat.shiftLeft_eq, Nat.mul_comm, Nat.mod_add_div]
  unfold Segment.limite
  dsimp only
  rw [fillDescriptor_limite_lo ha, fillDescriptor_limite_hi ha hl, fillDescriptor_granularite ha hs, hsum, limiteEcrite]
  by_cases h : limit > 0xfffff
  · rw [if_pos h, if_pos h, decide_eq_true h, if_pos rfl, Nat.shiftLeft_eq, Nat.shiftRight_eq_div_pow]
  · rw [if_neg h, if_neg h, decide_eq_false h]
    rfl

/-! ## Gates -/

def Porte.offset (d : Nat) : Nat := field d 0 16 + field d 48 16 <<< 16

def Porte.selecteur (d : Nat) : Nat := field d 16 16

def Porte.acces (d : Nat) : Nat := field d 40 8

theorem fillGate_bits (hs : selector < 2 ^ 16) (hacc : access < 2 ^ 8) (i : Nat) :
    (fillGate ofs selector access wordCount).testBit i =
      if i < 16 then ofs.testBit i
      else if i < 32 then selector.testBit (i - 16)
      else if i < 40 then decide (i < 36) && wordCount.testBit (i - 32)
      else if i < 48 then (access ||| ACC_P).testBit (i - 40)
      else decide (i < 64) && ofs.testBit (i - 32) := by
  unfold fillGate
  dsimp only
  have ha : access ||| ACC_P < 2 ^ 8 := Nat.or_lt_two_pow hacc (by decide)
  generalize access ||| ACC_P = acc at ha
  have h16 : (0xffff : Nat) = mask 16 0 := rfl
  have h4 : (0xf : Nat) = mask 4 0 := rfl
  have hff : (0xffff0000 : Nat) = mask 16 16 := rfl
  rw [h16, h4, hff]
  simp only [Nat.testBit_or, Nat.testBit_and, Nat.testBit_shiftLeft, testBit_mask]
  have hz : ∀ j, 16 ≤ j → selector.testBit j = false := fun j hj => testBit_of_lt hs hj
  have hz' : ∀ j, 8 ≤ j → acc.testBit j = false := fun j hj => testBit_of_lt ha hj
  grind

theorem fillGate_selecteur (hs : selector < 2 ^ 16) (hacc : access < 2 ^ 8) :
    Porte.selecteur (fillGate ofs selector access wordCount) = selector := by
  apply field_eq hs
  intro i hi
  rw [fillGate_bits hs hacc, if_neg (by omega), if_pos (by omega), Nat.add_sub_cancel_left]

theorem fillGate_acces (hs : selector < 2 ^ 16) (hacc : access < 2 ^ 8) :
    Porte.acces (fillGate ofs selector access wordCount) = access ||| ACC_P := by
  apply field_eq (Nat.or_lt_two_pow hacc (by decide))
  intro i hi
  rw [fillGate_bits hs hacc, if_neg (by omega), if_neg (by omega), if_neg (by omega), if_pos (by omega), Nat.add_sub_cancel_left]

/-- The privilege level of a gate, which the access byte gives. -/
theorem fillGate_niveau (hs : selector < 2 ^ 16) (hacc : access < 2 ^ 8) :
    field (fillGate ofs selector access wordCount) 45 2 = field (access ||| ACC_P) 5 2 := by
  apply field_eq field_lt
  intro i hi
  rw [fillGate_bits hs hacc, if_neg (by omega), if_neg (by omega), if_neg (by omega), if_pos (by omega), testBit_field,
    decide_eq_true hi, Bool.true_and]
  congr 1
  omega

theorem fillGate_offset_lo (hs : selector < 2 ^ 16) (hacc : access < 2 ^ 8) :
    field (fillGate ofs selector access wordCount) 0 16 = ofs % 2 ^ 16 := by
  apply field_eq (Nat.mod_lt _ (Nat.two_pow_pos 16))
  intro i hi
  rw [fillGate_bits hs hacc, if_pos (by omega), Nat.testBit_mod_two_pow, decide_eq_true hi, Bool.true_and, Nat.zero_add]

theorem fillGate_offset_hi (hs : selector < 2 ^ 16) (hacc : access < 2 ^ 8) (ho : ofs < 2 ^ 32) :
    field (fillGate ofs selector access wordCount) 48 16 = ofs / 2 ^ 16 := by
  apply field_eq (Nat.div_lt_of_lt_mul ho)
  intro i hi
  have hi' : 48 + i < 64 := by omega
  rw [fillGate_bits hs hacc, if_neg (by omega), if_neg (by omega), if_neg (by omega), if_neg (by omega), decide_eq_true hi',
    Bool.true_and, Nat.testBit_div_two_pow]
  congr 1
  omega

theorem fillGate_offset (hs : selector < 2 ^ 16) (hacc : access < 2 ^ 8) (ho : ofs < 2 ^ 32) :
    Porte.offset (fillGate ofs selector access wordCount) = ofs := by
  unfold Porte.offset
  rw [fillGate_offset_lo hs hacc, fillGate_offset_hi hs hacc ho, Nat.shiftLeft_eq, Nat.mul_comm, Nat.mod_add_div]

end Pcsea
