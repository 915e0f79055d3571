import Pcsea.Descripteurs
import Pcsea.Lib.Bytes
import Mathlib.Data.List.Induction
/-!
# Exceptions and interrupts

`cpu_init` sends each exception to a task of its own, through a gate of the IDT
and a descriptor of the GDT. `init_traitant_IT` and `open_IRQ` are called after
it, in any order.
-/

namespace Pcsea

open Lib

variable {y : Symboles} {p : Processeur} {n i num traitant sel : Nat} {l : List Reglage} {r : Reglage}

/-- `struct x86_tss`, every field of which is kept as the processor reads it. -/
structure X86Tss where
  backLink : Nat
  esp0 : Nat
  ss0 : Nat
  esp1 : Nat
  ss1 : Nat
  esp2 : Nat
  ss2 : Nat
  cr3 : Nat
  eip : Nat
  eflags : Nat
  eax : Nat
  ecx : Nat
  edx : Nat
  ebx : Nat
  esp : Nat
  ebp : Nat
  esi : Nat
  edi : Nat
  es : Nat
  cs : Nat
  ss : Nat
  ds : Nat
  fs : Nat
  gs : Nat
  ldt : Nat
  traceTrap : Nat
  ioBitMapOffset : Nat
  deriving DecidableEq

/-- `sizeof(struct x86_tss)`. -/
def TSS_SIZE : Nat := 104

/-- `memset(&tss, 0, sizeof(tss))`. -/
def X86Tss.zero : X86Tss := ⟨0, 0, 0, 0, 0, 0, 0, 0, 0, 0, 0, 0, 0, 0, 0, 0, 0, 0, 0, 0, 0, 0, 0, 0, 0, 0, 0⟩

def HANDLER_ENTRIES : Nat := 32

/-- Addresses the linker gives. -/
structure Symboles where
  tss : Nat
  trapTss : Nat
  trapStackFin : Nat
  firstStackFin : Nat
  pgdir : Nat
  exceptionHandlerTasks : Nat → Nat

structure Processeur where
  gdt : Nat → Nat
  idt : Nat → Nat
  tss : X86Tss
  trapTss : Nat → X86Tss
  /-- the mask on port 0x21 -/
  masque : Nat

def setupGdt (y : Symboles) (p : Processeur) : Processeur :=
  let gdt : Nat → Nat := fun _ => 0
  let gdt := Function.update gdt (BASE_TSS / 8) (fillDescriptor y.tss (TSS_SIZE - 1) (ACC_PL_K ||| ACC_TSS ||| ACC_P) 0)
  let gdt := Function.update gdt (KERNEL_CS / 8) (fillDescriptor 0 0xffffffff (ACC_PL_K ||| ACC_CODE_R) SZ_32)
  let gdt := Function.update gdt (KERNEL_DS / 8) (fillDescriptor 0 0xffffffff (ACC_PL_K ||| ACC_DATA_W) SZ_32)
  let gdt := Function.update gdt (USER_CS / 8) (fillDescriptor 0 0xffffffff (ACC_PL_U ||| ACC_CODE_R) SZ_32)
  let gdt := Function.update gdt (USER_DS / 8) (fillDescriptor 0 0xffffffff (ACC_PL_U ||| ACC_DATA_W) SZ_32)
  { p with
    gdt := (List.range HANDLER_ENTRIES).foldl (fun gdt i => Function.update gdt (TRAP_TSS_BASE / 8 + i)
      (fillDescriptor (y.trapTss + TSS_SIZE * i) (TSS_SIZE - 1) (ACC_PL_K ||| ACC_TSS ||| ACC_P) 0)) gdt }

/-- The TSS of exception `i`, whose other fields were 0. -/
def tssException (y : Symboles) (i : Nat) (ts : X86Tss) : X86Tss :=
  { ts with
    ss0 := KERNEL_DS, esp0 := y.trapStackFin, ss := KERNEL_DS, esp := y.trapStackFin, ioBitMapOffset := TSS_SIZE,
    cs := KERNEL_CS, eip := y.exceptionHandlerTasks i, ds := KERNEL_DS, es := KERNEL_DS, fs := 0, gs := 0, eflags := 2,
    traceTrap := 0, cr3 := y.pgdir }

/-- The access byte of the gate of exception `i`. -/
def accesException (i : Nat) : Nat := ACC_TASK_GATE + if i = 3 then 0x60 else 0

def setupIdt (y : Symboles) (p : Processeur) : Processeur :=
  { p with
    idt := (List.range HANDLER_ENTRIES).foldl (fun idt i => Function.update idt (0 + i)
      (fillGate 0 (TRAP_TSS_BASE + 8 * i) (accesException i) 0)) fun _ => 0
    trapTss := (List.range HANDLER_ENTRIES).foldl (fun t i => Function.update t (0 + i) (tssException y i (p.trapTss i))) p.trapTss }

def setupTss (y : Symboles) (p : Processeur) : Processeur :=
  { p with
    tss := { X86Tss.zero with ss0 := KERNEL_DS, esp0 := y.firstStackFin, ioBitMapOffset := TSS_SIZE, cr3 := y.pgdir } }

/-- All IRQs are disabled. -/
def setupPic (p : Processeur) : Processeur := { p with masque := 0xff }

def cpuInit (y : Symboles) (p : Processeur) : Processeur := setupPic (setupTss y (setupIdt y (setupGdt y p)))

/-- `init_traitant_IT(num, traitant)`: the vectors are at the address of `idt`. -/
def initTraitantIT (num traitant : Nat) (p : Processeur) : Processeur :=
  let premierMot := KERNEL_CS <<< 16 ||| traitant &&& 0x0000FFFF
  let deuxiemeMot := traitant &&& 0xFFFF0000 ||| 0x0008E00
  { p with idt := Function.update p.idt num (deuxiemeMot <<< 32 ||| premierMot) }

/-- `open_IRQ(num, masque)`. -/
def openIRQ (num : Nat) (masque : Bool) (p : Processeur) : Processeur :=
  { p with masque := if masque then (p.masque ||| 1 <<< num) % 256 else p.masque &&& (0xffffffff ^^^ 1 <<< num) }

/-- `tss_sel_2_tss`. -/
def tssSel2Tss (p : Processeur) (sel : Nat) : Nat :=
  (field (p.gdt (sel >>> 3)) 16 32 &&& 0xffffff) + field (p.gdt (sel >>> 3)) 56 8 <<< 24

/-! ## What the processor does -/

/-- The TSS of the task that vector `n` switches to. -/
def cibleTache (p : Processeur) (n : Nat) : Option Nat :=
  if (Porte.acces (p.idt n)) &&& 0x9f = ACC_TASK_GATE ||| ACC_P then
    let d := p.gdt (Porte.selecteur (p.idt n) / 8)
    if (Segment.acces d) &&& 0x9f = ACC_TSS ||| ACC_P ∧ TSS_SIZE - 1 ≤ Segment.limite d then some (Segment.base d) else none
  else none

/-- The selector and the address that vector `n` jumps to. -/
def cibleInterruption (p : Processeur) (n : Nat) : Option (Nat × Nat) :=
  if (Porte.acces (p.idt n)) &&& 0x9f = ACC_INTR_GATE ||| ACC_P then some (Porte.selecteur (p.idt n), Porte.offset (p.idt n)) else none

/-- A call of `init_traitant_IT` or of `open_IRQ`. -/
inductive Reglage where
  | traitant (num adresse : Nat)
  | irq (num : Nat) (masque : Bool)

def Reglage.fait : Reglage → Processeur → Processeur
  | .traitant num adresse, p => initTraitantIT num adresse p
  | .irq num masque, p => openIRQ num masque p

/-- The vectors of the exceptions are left alone, and an IRQ has a bit in the mask. -/
def Reglage.Permis : Reglage → Prop
  | .traitant num adresse => 32 ≤ num ∧ num < 256 ∧ adresse < 2 ^ 32
  | .irq num _ => num < 8

def regle (l : List Reglage) (p : Processeur) : Processeur := l.foldl (fun p r => r.fait p) p

/-- The last function attached to vector `n`. -/
def dernierTraitant (n : Nat) (l : List Reglage) : Option Nat :=
  l.foldl (fun o r => match r with
    | .traitant num adresse => if num = n then some adresse else o
    | .irq _ _ => o) none

/-- What the last call for IRQ `n` asked for. -/
def dernierMasque (n : Nat) (l : List Reglage) : Bool :=
  l.foldl (fun b r => match r with
    | .traitant _ _ => b
    | .irq num masque => if num = n then masque else b) true

/-! ## Descriptors and gates in the tables -/

/-- The two words that `init_traitant_IT` stores are the gate that `fill_gate` would. -/
theorem initTraitantIT_gate :
    (initTraitantIT num traitant p).idt = Function.update p.idt num (fillGate traitant KERNEL_CS ACC_INTR_GATE 0) := by
  have hp : (0 &&& 0xf ||| (ACC_INTR_GATE ||| ACC_P) <<< 8 ||| traitant &&& 0xffff0000) = (traitant &&& 0xFFFF0000 ||| 0x0008E00) := by
    rw [Nat.or_comm _ (traitant &&& 0xffff0000)]
    rfl
  unfold initTraitantIT fillGate
  dsimp only
  rw [hp, Nat.or_comm (KERNEL_CS <<< 16)]

theorem setupGdt_gdt (h : i < 32) : (setupGdt y p).gdt (10 + i) =
    fillDescriptor (y.trapTss + TSS_SIZE * i) (TSS_SIZE - 1) (ACC_PL_K ||| ACC_TSS ||| ACC_P) 0 := by
  unfold setupGdt
  dsimp only
  have hi : TRAP_TSS_BASE / 8 ≤ 10 + i ∧ 10 + i < TRAP_TSS_BASE / 8 + HANDLER_ENTRIES := by
    unfold TRAP_TSS_BASE HANDLER_ENTRIES
    omega
  rw [foldl_update_range, if_pos hi, show 10 + i - TRAP_TSS_BASE / 8 = i from Nat.add_sub_cancel_left 10 i]

theorem setupGdt_autre {j : Nat} (h : j < 10) : (setupGdt y p).gdt j =
    if j = 9 then fillDescriptor 0 0xffffffff (ACC_PL_U ||| ACC_DATA_W) SZ_32
    else if j = 8 then fillDescriptor 0 0xffffffff (ACC_PL_U ||| ACC_CODE_R) SZ_32
    else if j = 3 then fillDescriptor 0 0xffffffff (ACC_PL_K ||| ACC_DATA_W) SZ_32
    else if j = 2 then fillDescriptor 0 0xffffffff (ACC_PL_K ||| ACC_CODE_R) SZ_32
    else if j = 1 then fillDescriptor y.tss (TSS_SIZE - 1) (ACC_PL_K ||| ACC_TSS ||| ACC_P) 0
    else 0 := by
  have hj : ¬(TRAP_TSS_BASE / 8 ≤ j ∧ j < TRAP_TSS_BASE / 8 + HANDLER_ENTRIES) := by
    unfold TRAP_TSS_BASE
    omega
  unfold setupGdt
  dsimp only
  rw [foldl_update_range, if_neg hj]
  simp only [Function.update_apply]
  rfl

theorem setupIdt_idt : (setupIdt y p).idt n =
    if n < 32 then fillGate 0 (TRAP_TSS_BASE + 8 * n) (accesException n) 0 else 0 := by
  unfold setupIdt
  dsimp only
  rw [foldl_update_range, Nat.sub_zero, Nat.zero_add]
  simp only [Nat.zero_le, true_and]
  rfl

theorem setupIdt_trapTss (h : i < 32) : (setupIdt y p).trapTss i = tssException y i (p.trapTss i) := by
  unfold setupIdt
  dsimp only
  rw [foldl_update_range, if_pos ⟨Nat.zero_le i, (Nat.zero_add HANDLER_ENTRIES).symm ▸ h⟩, Nat.sub_zero]

theorem tssSel2Tss_eq : tssSel2Tss p sel = Segment.base (p.gdt (sel / 8)) := by
  unfold tssSel2Tss Segment.base
  rw [Nat.shiftRight_eq_div_pow]
  congr 1
  apply Nat.eq_of_testBit_eq
  intro i
  rw [show (0xffffff : Nat) = mask 24 0 from rfl, Nat.testBit_and, testBit_field, testBit_field, testBit_mask]
  grind

/-! ## Runs -/

/-- Everything goes where it should after the calls `l`. -/
structure TablesServies (y : Symboles) (l : List Reglage) (p : Processeur) : Prop where
  tache : ∀ i < 32, cibleTache p i = some (y.trapTss + TSS_SIZE * i)
  niveau : ∀ i < 32, field (p.idt i) 45 2 = if i = 3 then 3 else 0
  contexte : ∀ i < 32, (p.trapTss i).eip = y.exceptionHandlerTasks i ∧ (p.trapTss i).cs = KERNEL_CS ∧ (p.trapTss i).cr3 = y.pgdir
  selecteur : ∀ i < 32, tssSel2Tss p (TRAP_TSS_BASE + 8 * i) = y.trapTss + TSS_SIZE * i
  courante : tssSel2Tss p BASE_TSS = y.tss
  plat : ∀ sel ∈ [KERNEL_CS, KERNEL_DS, USER_CS, USER_DS], Segment.base (p.gdt (sel / 8)) = 0 ∧ Segment.limite (p.gdt (sel / 8)) = 2 ^ 32 - 1
  interruption : ∀ n, 32 ≤ n → n < 256 → cibleInterruption p n = (dernierTraitant n l).map fun a => (KERNEL_CS, a)
  masque : ∀ i < 8, p.masque.testBit i = dernierMasque i l
  borne : p.masque < 256

theorem accesException_lt : accesException i < 2 ^ 8 := by
  unfold accesException
  split <;> decide

theorem cibleTache_congr {q : Processeur} (hg : q.gdt = p.gdt) (hi : q.idt n = p.idt n) : cibleTache q n = cibleTache p n := by
  rw [cibleTache, cibleTache, hg, hi]

theorem cibleInterruption_congr {q : Processeur} (hi : q.idt n = p.idt n) : cibleInterruption q n = cibleInterruption p n := by
  rw [cibleInterruption, cibleInterruption, hi]

theorem cibleTache_eq {d : Nat} (hporte : p.idt n = fillGate 0 (TRAP_TSS_BASE + 8 * i) (accesException i) 0) (hi : i < 32)
    (hd : p.gdt (10 + i) = fillDescriptor d (TSS_SIZE - 1) (ACC_PL_K ||| ACC_TSS ||| ACC_P) 0) (ha : d < 2 ^ 32) :
    cibleTache p n = some d := by
  have hsel : TRAP_TSS_BASE + 8 * i < 2 ^ 16 := by
    unfold TRAP_TSS_BASE
    omega
  have hacc : (accesException i ||| ACC_P) &&& 0x9f = ACC_TASK_GATE ||| ACC_P := by
    unfold accesException
    split <;> rfl
  have hq : (TRAP_TSS_BASE + 8 * i) / 8 = 10 + i := by
    unfold TRAP_TSS_BASE
    omega
  rw [cibleTache, hporte, fillGate_acces hsel accesException_lt, if_pos hacc, fillGate_selecteur hsel accesException_lt, hq, hd]
  dsimp only
  rw [fillDescriptor_acces ha (by decide), fillDescriptor_limite ha (by decide) (by decide), fillDescriptor_base ha]
  rfl

theorem cibleInterruption_eq (hporte : p.idt n = fillGate traitant KERNEL_CS ACC_INTR_GATE 0) (ht : traitant < 2 ^ 32) :
    cibleInterruption p n = some (KERNEL_CS, traitant) := by
  rw [cibleInterruption, hporte, fillGate_acces (by decide) (by decide), fillGate_selecteur (by decide) (by decide),
    fillGate_offset (by decide) (by decide) ht]
  rfl

theorem plat_eq {access : Nat} :
    Segment.base (fillDescriptor 0 0xffffffff access SZ_32) = 0 ∧
      Segment.limite (fillDescriptor 0 0xffffffff access SZ_32) = 2 ^ 32 - 1 :=
  ⟨fillDescriptor_base (by decide), fillDescriptor_limite (by decide) (by decide) (by decide)⟩

theorem setupGdt_plat {sel : Nat} (h : sel ∈ [KERNEL_CS, KERNEL_DS, USER_CS, USER_DS]) :
    Segment.base ((setupGdt y p).gdt (sel / 8)) = 0 ∧ Segment.limite ((setupGdt y p).gdt (sel / 8)) = 2 ^ 32 - 1 := by
  have hs : sel / 8 = 2 ∨ sel / 8 = 3 ∨ sel / 8 = 8 ∨ sel / 8 = 9 := by
    simp only [List.mem_cons, List.not_mem_nil, or_false] at h
    rcases h with rfl | rfl | rfl | rfl
    · exact .inl rfl
    · exact .inr (.inl rfl)
    · exact .inr (.inr (.inl rfl))
    · exact .inr (.inr (.inr rfl))
  generalize sel / 8 = j at hs
  rw [setupGdt_autre (by omega)]
  rcases hs with rfl | rfl | rfl | rfl
  · exact plat_eq
  · exact plat_eq
  · exact plat_eq
  · exact plat_eq

theorem cpuInit_servi (ht : y.tss < 2 ^ 32) (hy : y.trapTss + TSS_SIZE * 32 ≤ 2 ^ 32) : TablesServies y [] (cpuInit y p) := by
  -- Nothing after `setup_idt` touches the gates, nothing after `setup_gdt` the segments.
  have hidt : ∀ n, (cpuInit y p).idt n = if n < 32 then fillGate 0 (TRAP_TSS_BASE + 8 * n) (accesException n) 0 else 0 := by
    intro n
    have h₀ : (cpuInit y p).idt = (setupIdt y (setupGdt y p)).idt := rfl
    rw [h₀]
    exact setupIdt_idt
  have hgdt : (cpuInit y p).gdt = (setupGdt y p).gdt := rfl
  have ha : ∀ i < 32, y.trapTss + TSS_SIZE * i < 2 ^ 32 := by
    intro i hi
    unfold TSS_SIZE at hy ⊢
    omega
  constructor
  · intro i hi
    have hporte : (cpuInit y p).idt i = fillGate 0 (TRAP_TSS_BASE + 8 * i) (accesException i) 0 := by rw [hidt, if_pos hi]
    exact cibleTache_eq hporte hi (by rw [hgdt, setupGdt_gdt hi]) (ha i hi)
  · intro i hi
    have hsel : TRAP_TSS_BASE + 8 * i < 2 ^ 16 := by
      unfold TRAP_TSS_BASE
      omega
    rw [hidt, if_pos hi, fillGate_niveau hsel accesException_lt]
    unfold accesException
    split <;> rfl
  · intro i hi
    have h₀ : (cpuInit y p).trapTss = (setupIdt y (setupGdt y p)).trapTss := rfl
    rw [h₀, setupIdt_trapTss hi]
    exact ⟨rfl, rfl, rfl⟩
  · intro i hi
    have hq : (TRAP_TSS_BASE + 8 * i) / 8 = 10 + i := by
      unfold TRAP_TSS_BASE
      omega
    rw [tssSel2Tss_eq, hgdt, hq, setupGdt_gdt hi, fillDescriptor_base (ha i hi)]
  · rw [tssSel2Tss_eq, hgdt, show BASE_TSS / 8 = 1 from rfl, setupGdt_autre (by decide)]
    exact fillDescriptor_base ht
  · intro sel hsel
    rw [hgdt]
    exact setupGdt_plat hsel
  · intro n hn _
    have h₀ : (cpuInit y p).idt n = 0 := by rw [hidt, if_neg (by omega)]
    rw [cibleInterruption, h₀]
    rfl
  · intro i hi
    show (mask 8 0).testBit i = true
    rw [testBit_mask, decide_eq_true (Nat.zero_le i), decide_eq_true (by omega)]
    rfl
  · show 0xff < 256
    decide

theorem openIRQ_masque (hi : i < 8) (b : Bool) :
    (openIRQ num b p).masque.testBit i = if num = i then b else p.masque.testBit i := by
  have hone : (1 <<< num).testBit i = decide (num = i) := by
    rw [Nat.one_shiftLeft, Nat.testBit_two_pow]
  unfold openIRQ
  dsimp only
  cases b with
  | true =>
    rw [if_pos rfl, show 256 = 2 ^ 8 from rfl, Nat.testBit_mod_two_pow, decide_eq_true hi, Bool.true_and, Nat.testBit_or, hone]
    split
    · next h => simp [h]
    · next h => simp [h]
  | false =>
    have hff : (0xffffffff : Nat).testBit i = true := by
      rw [show (0xffffffff : Nat) = mask 32 0 from rfl, testBit_mask]
      simp
      omega
    rw [if_neg (by decide), Nat.testBit_and, Nat.testBit_xor, hff, hone]
    split
    · next h => simp [h]
    · next h => simp [h]

theorem openIRQ_borne (hp : p.masque < 256) (b : Bool) : (openIRQ num b p).masque < 256 := by
  unfold openIRQ
  cases b with
  | true => exact Nat.mod_lt _ (by decide)
  | false => exact Nat.lt_of_le_of_lt Nat.and_le_left hp

/-- A call keeps what was set up before it, but for its own vector or its own IRQ. -/
theorem TablesServies.fait (h : TablesServies y l p) (hr : r.Permis) : TablesServies y (l ++ [r]) (r.fait p) := by
  cases r with
  -- A handler is attached above the 32 exceptions, whose gates stay.
  | traitant num adresse =>
    obtain ⟨h₁, h₂, h₃⟩ := hr
    have hidt : (initTraitantIT num adresse p).idt = Function.update p.idt num (fillGate adresse KERNEL_CS ACC_INTR_GATE 0) :=
      initTraitantIT_gate
    refine ⟨fun i hi => ?_, fun i hi => ?_, h.contexte, h.selecteur, h.courante, h.plat, fun n hn hn' => ?_, fun i hi => ?_, h.borne⟩
    · have hne : i ≠ num := by omega
      have hi' : (initTraitantIT num adresse p).idt i = p.idt i := by rw [hidt, Function.update_of_ne hne]
      exact (cibleTache_congr (p := p) (q := initTraitantIT num adresse p) rfl hi').trans (h.tache i hi)
    · have hne : i ≠ num := by omega
      have hi' : (initTraitantIT num adresse p).idt i = p.idt i := by rw [hidt, Function.update_of_ne hne]
      exact (congrArg (fun d => field d 45 2) hi').trans (h.niveau i hi)
    · rw [dernierTraitant, List.foldl_append]
      dsimp only [List.foldl_cons, List.foldl_nil]
      by_cases he : num = n
      · subst he
        have hi' : (initTraitantIT num adresse p).idt num = fillGate adresse KERNEL_CS ACC_INTR_GATE 0 := by
          rw [hidt, Function.update_self]
        rw [if_pos rfl]
        exact cibleInterruption_eq hi' h₃
      · have hi' : (initTraitantIT num adresse p).idt n = p.idt n := by rw [hidt, Function.update_of_ne (Ne.symm he)]
        rw [if_neg he]
        exact (cibleInterruption_congr (p := p) (q := initTraitantIT num adresse p) hi').trans (h.interruption n hn hn')
    · rw [dernierMasque, List.foldl_append]
      exact h.masque i hi
  | irq num masque =>
    refine ⟨h.tache, h.niveau, h.contexte, h.selecteur, h.courante, h.plat, fun n hn hn' => ?_, fun i hi => ?_, openIRQ_borne h.borne masque⟩
    · rw [dernierTraitant, List.foldl_append]
      exact (cibleInterruption_congr (p := p) (q := openIRQ num masque p) rfl).trans (h.interruption n hn hn')
    · rw [dernierMasque, List.foldl_append]
      dsimp only [Reglage.fait, List.foldl_cons, List.foldl_nil]
      rw [openIRQ_masque hi, h.masque i hi]
      rfl

/-- After `cpu_init`, and after any calls of `init_traitant_IT` and `open_IRQ`, each exception switches to its own TSS, from user mode
for a breakpoint alone, each vector jumps to the last function attached to it, and each IRQ is masked as it was last asked. -/
theorem regle_servi (ht : y.tss < 2 ^ 32) (hy : y.trapTss + TSS_SIZE * 32 ≤ 2 ^ 32) (hl : ∀ r ∈ l, r.Permis) :
    TablesServies y l (regle l (cpuInit y p)) := by
  induction l using List.reverseRecOn with
  | nil => exact cpuInit_servi ht hy
  | append_singleton l r ih =>
    rw [regle, List.foldl_append]
    exact (ih fun r hr => hl r (by simp [hr])).fait (hl r (by simp))

/-- The calls of `kernel_start`, with addresses for the functions. -/
theorem regle_servi_kernel :
    let y : Symboles := ⟨0x20000, 0x150000, 0x154000, 0x158000, 0x101000, fun i => 0x142000 + 16 * i⟩
    let l : List Reglage := [.irq 0 false, .traitant 32 0x143000, .irq 1 false, .traitant 33 0x143100, .traitant 49 0x143200]
    TablesServies y l (regle l (cpuInit y ⟨fun _ => 0, fun _ => 0, .zero, fun _ => .zero, 0⟩)) :=
  regle_servi (by decide) (by decide) (by simp [Reglage.Permis])

end Pcsea
