import Pcsea.Fault
import Pcsea.Lib.BitField
import Pcsea.Lib.Words
/-!
# `early_mm.c`: the memory map of the kernel

Physical memory is a function from addresses to bytes. The tables are built
before paging is on, and `phys_addr_lookup` of `gdb_serial_support.c` walks them
as the processor does.
-/

namespace Pcsea

open Lib

abbrev Ram := Nat → Nat

/-- The symbols of `kernel.lds`, in the order in which it puts the sections. -/
structure Liens where
  start : Nat
  textStart : Nat
  textEnd : Nat
  multibootStart : Nat
  multibootEnd : Nat
  bootstrapStackStart : Nat
  bootstrapStackEnd : Nat
  rodataStart : Nat
  rodataEnd : Nat
  dataStart : Nat
  dataEnd : Nat
  bssStart : Nat
  bssEnd : Nat
  /-- `_end`, which is not aligned -/
  fin : Nat
  pgdir : Nat
  pgtab : Nat
  memEnd : Nat
  start_eq : start = 0x100000
  pgdir_eq : pgdir = start + 0x1000
  pgtab_eq : pgtab = start + 0x2000
  crt0 : start + 0x42000 ≤ textStart
  text : textStart ≤ textEnd ∧ textEnd ≤ multibootStart
  multiboot : multibootStart ≤ multibootEnd ∧ multibootEnd ≤ bootstrapStackStart
  bootstrapStack : bootstrapStackStart ≤ bootstrapStackEnd ∧ bootstrapStackEnd ≤ rodataStart
  rodata : rodataStart ≤ rodataEnd ∧ rodataEnd ≤ dataStart
  data : dataStart ≤ dataEnd ∧ dataEnd ≤ bssStart
  bss : bssStart ≤ bssEnd ∧ bssStart % 0x1000 = 0 ∧ bssEnd % 0x1000 = 0
  fin_le : bssStart ≤ fin ∧ fin ≤ bssEnd ∧ bssEnd ≤ memEnd
  memEnd_eq : memEnd = 0x10000000

variable {l : Liens} {m m₀ : Ram} {cr0 va q debut finRegion flags : Nat}

/-! ## The check -/

/-- `ASSERT_ALIGNED`. -/
def aligne (symbol : Nat) : Bool := symbol &&& 0xFFFFF000 = symbol

/-- `ASSERT_CONSISTENT`. -/
def coherent (debut fin : Nat) : Bool := ¬(fin : Int) - debut < 4096

/-- `early_mm_check` returns. The third check of the sections is the second one again. -/
def earlyMmCheck (l : Liens) : Bool :=
  aligne l.start
    && aligne l.textStart && aligne l.textEnd && coherent l.textStart l.textEnd
    && aligne l.multibootStart && aligne l.multibootEnd && coherent l.multibootStart l.multibootEnd
    && aligne l.bootstrapStackStart && aligne l.bootstrapStackEnd && coherent l.bootstrapStackStart l.bootstrapStackEnd
    && aligne l.rodataStart && aligne l.rodataEnd && coherent l.rodataStart l.rodataEnd
    && aligne l.dataStart && aligne l.dataEnd && coherent l.dataStart l.dataEnd
    && aligne l.dataStart && aligne l.dataEnd && coherent l.dataStart l.dataEnd
    && coherent l.start l.fin

/-! ## The tables -/

def PAGE_DIR_FLAGS : Nat := 3
def PAGE_TABLE_RO : Nat := 1
def PAGE_TABLE_RW : Nat := 3

/-- `memset`. -/
def remplitRam (dst c n : Nat) (m : Ram) : Ram := fun a => if dst ≤ a ∧ a < dst + n then c else m a

def earlyMmFillPgdir (pagedir pagetab count : Nat) (m : Ram) : Ram :=
  putWords pagedir (fun i => if i < count then pagetab + i * 0x1000 ||| PAGE_DIR_FLAGS else 0) 1024 m

/-- One page of `early_mm_map_region`. -/
def mapPage (pdir flags address : Nat) (m : Ram) : Ram :=
  let pdIndex := address >>> 22
  let ptIndex := address >>> 12 &&& 0x3FF
  let ptable := word m (pdir + 4 * pdIndex) &&& 0xFFFFF000
  putWord m (ptable + 4 * ptIndex) (address &&& 0xFFFFF000 ||| flags)

/-- The number of values of `address` in `for (address = start; address < end; address += 4096)`. -/
def nbPages (start fin : Nat) : Nat := (fin - start + 4095) / 4096

def earlyMmMapRegion (pdir start fin flags : Nat) (m : Ram) : Ram :=
  (List.range (nbPages start fin)).foldl (fun m i => mapPage pdir flags (start + 4096 * i) m) m

def earlyMmMapKernel (l : Liens) (m : Ram) : Ram :=
  let m := remplitRam l.pgtab 0 (4096 * 64) m
  let m := earlyMmFillPgdir l.pgdir l.pgtab 64 m
  let m := putWord m l.pgtab 0
  let m := earlyMmMapRegion l.pgdir 4096 l.start PAGE_TABLE_RW m
  let m := earlyMmMapRegion l.pgdir l.start l.textStart PAGE_TABLE_RW m
  let m := earlyMmMapRegion l.pgdir l.textStart l.textEnd PAGE_TABLE_RO m
  let m := earlyMmMapRegion l.pgdir l.multibootStart l.multibootEnd PAGE_TABLE_RO m
  let m := earlyMmMapRegion l.pgdir l.rodataStart l.rodataEnd PAGE_TABLE_RO m
  let m := earlyMmMapRegion l.pgdir l.bootstrapStackStart l.bootstrapStackEnd PAGE_TABLE_RW m
  let m := earlyMmMapRegion l.pgdir l.dataStart l.dataEnd PAGE_TABLE_RW m
  let m := earlyMmMapRegion l.pgdir l.bssStart l.bssEnd PAGE_TABLE_RW m
  earlyMmMapRegion l.pgdir l.fin l.memEnd PAGE_TABLE_RW m

/-! ## The walk -/

/-- `phys_addr_lookup`: the physical address and what is left of the page; nothing where `*len` is 0. -/
def physAddrLookup (m : Ram) (cr0 cr3 vaddr : Nat) : Option (Nat × Nat) :=
  let pd := cr3 &&& 0xfffff000
  let pde := word m (pd + 4 * (vaddr >>> 22 &&& 0x3ff))
  if cr0 &&& 0x80000000 = 0 then some (vaddr, 0xffffffff)
  else if pde &&& 1 = 0 then none
  else if pde &&& 0x80 = 0 then
    let pt := pde &&& 0xfffff000
    let pte := word m (pt + 4 * (vaddr >>> 12 &&& 0x3ff))
    let offs := vaddr &&& 0xfff
    if pte &&& 1 = 0 then none else some ((pte &&& 0xfffff000) + offs, 0x1000 - offs)
  else
    let offs := vaddr &&& 0x3fffff
    some ((pde &&& 0xffc00000) + offs, 0x400000 - offs)

/-- The processor may write to the page, or lets user mode in, when both entries say so: bit 1, or bit 2. -/
def autorise (bit : Nat) (m : Ram) (cr3 vaddr : Nat) : Bool :=
  let pde := word m ((cr3 &&& 0xfffff000) + 4 * (vaddr >>> 22 &&& 0x3ff))
  pde.testBit bit && (word m ((pde &&& 0xfffff000) + 4 * (vaddr >>> 12 &&& 0x3ff))).testBit bit

/-! ## Bits of addresses -/

theorem and_page {x : Nat} (hx : x < 2 ^ 32) : x &&& 0xFFFFF000 = x / 4096 * 4096 := and_mask_top (k := 20) (s := 12) hx

theorem and_offset (x : Nat) : x &&& 0xfff = x % 4096 := and_mask_zero (k := 12)

theorem and_index (x : Nat) : x &&& 0x3FF = x % 1024 := and_mask_zero (k := 10)

theorem or_flags {n f : Nat} (hf : f < 4096) : n * 4096 ||| f = n * 4096 + f := mul_or (s := 12) hf n

/-! ## What the tables map -/

/-- The flags with which each page is mapped, if it is. -/
abbrev Carte := Nat → Option Nat

/-- `n` pages from page `p` on are mapped with the flags `f`. -/
def Carte.projette (c : Carte) (p n f : Nat) : Carte := fun q => if p ≤ q ∧ q < p + n then some f else c q

def Carte.entree (c : Carte) (q : Nat) : Nat := ((c q).map fun f => q * 4096 + f).getD 0

/-- The tables of `m` map the pages as `c` says, each to itself; the rest of the memory is that of `m₀`. -/
structure Represente (l : Liens) (m₀ m : Ram) (c : Carte) : Prop where
  dir : ∀ i < 64, word m (l.pgdir + 4 * i) = l.pgtab + i * 4096 + 3
  vide : ∀ i, 64 ≤ i → i < 1024 → word m (l.pgdir + 4 * i) = 0
  tab : ∀ q < 65536, word m (l.pgtab + 4 * q) = c.entree q
  drapeaux : ∀ q f, c q = some f → f = PAGE_TABLE_RO ∨ f = PAGE_TABLE_RW
  autour : ∀ a, a < l.pgdir ∨ l.pgtab + 0x40000 ≤ a → m a = m₀ a

theorem mapPage_eq {c : Carte} (h : Represente l m₀ m c) {r : Nat} (hq : q < 65536) (hr : r < 4096) (hf : flags < 4096) :
    mapPage l.pgdir flags (4096 * q + r) m = putWord m (l.pgtab + 4 * q) (q * 4096 + flags) := by
  have hpt : l.pgtab = 0x102 * 4096 := by rw [l.pgtab_eq, l.start_eq]
  have hq' : (4096 * q + r) / 4096 = q := by omega
  have hd : (4096 * q + r) >>> 22 = q / 1024 := by
    rw [Nat.shiftRight_eq_div_pow]
    omega
  have ht : (4096 * q + r) >>> 12 &&& 0x3FF = q % 1024 := by rw [and_index, Nat.shiftRight_eq_div_pow, show 2 ^ 12 = 4096 from rfl, hq']
  have ha : (4096 * q + r) &&& 0xFFFFF000 = q * 4096 := by rw [and_page (by omega), hq']
  have hdir : word m (l.pgdir + 4 * (q / 1024)) &&& 0xFFFFF000 = l.pgtab + q / 1024 * 4096 := by
    rw [h.dir _ (by omega), and_page (by omega)]
    omega
  unfold mapPage
  dsimp only
  rw [hd, ht, ha, hdir, or_flags hf]
  congr 1
  omega

/-- One more page. -/
theorem Represente.mapPage {c : Carte} (h : Represente l m₀ m c) {r : Nat} (hq : q < 65536) (hr : r < 4096)
    (hf : flags = PAGE_TABLE_RO ∨ flags = PAGE_TABLE_RW) :
    Represente l m₀ (mapPage l.pgdir flags (4096 * q + r) m) (c.projette q 1 flags) := by
  have hlt : flags < 4 := by
    rcases hf with rfl | rfl <;> decide
  have hdt : l.pgtab = l.pgdir + 0x1000 := by
    rw [l.pgtab_eq, l.pgdir_eq]
  rw [mapPage_eq h hq hr (by omega)]
  constructor
  · intro i hi
    rw [word_putWord_of_disjoint (by omega), h.dir i hi]
  · intro i hi hi'
    rw [word_putWord_of_disjoint (by omega), h.vide i hi hi']
  -- The entry of the page is written, and no other word of the tables.
  · intro j hj
    unfold Carte.entree Carte.projette
    by_cases hjq : j = q
    · subst hjq
      rw [word_putWord (by omega), if_pos (by omega)]
      rfl
    · rw [word_putWord_of_disjoint (by omega), if_neg (by omega), h.tab j hj]
      rfl
  · intro j f hj
    unfold Carte.projette at hj
    split at hj
    · exact Option.some.inj hj ▸ hf
    · exact h.drapeaux j f hj
  · intro a ha
    rw [putWord_of_not_mem (by omega), h.autour a ha]

theorem projette_succ {c : Carte} (p n f : Nat) : (c.projette p n f).projette (p + n) 1 f = c.projette p (n + 1) f := by
  funext q
  unfold Carte.projette
  split
  · rw [if_pos (by omega)]
  · split
    · rw [if_pos (by omega)]
    · rw [if_neg (by omega)]

/-- A region of whole pages, or of parts of them at its start. -/
theorem Represente.mapRegion {c : Carte} (h : Represente l m₀ m c) (hfin : finRegion ≤ 0x10000000)
    (hf : flags = PAGE_TABLE_RO ∨ flags = PAGE_TABLE_RW) :
    Represente l m₀ (earlyMmMapRegion l.pgdir debut finRegion flags m) (c.projette (debut / 4096) (nbPages debut finRegion) flags) := by
  have hn : ∀ i < nbPages debut finRegion, debut / 4096 + i < 65536 := by
    intro i hi
    unfold nbPages at hi
    omega
  unfold earlyMmMapRegion
  generalize nbPages debut finRegion = n at hn
  induction n with
  | zero =>
    have h₀ : c.projette (debut / 4096) 0 flags = c := by
      funext q
      exact if_neg (by omega)
    rw [h₀]
    exact h
  | succ n ih =>
    have hr : debut + 4096 * n = 4096 * (debut / 4096 + n) + debut % 4096 := by omega
    rw [List.range_succ, List.foldl_append, List.foldl_cons, List.foldl_nil, hr, ← projette_succ]
    exact (ih fun i hi => hn i (by omega)).mapPage (hn n (by omega)) (Nat.mod_lt _ (by decide)) hf

/-- The tables before the first region: nothing is mapped. -/
theorem represente_vide : Represente l m (putWord (earlyMmFillPgdir l.pgdir l.pgtab 64 (remplitRam l.pgtab 0 (4096 * 64) m)) l.pgtab 0)
    fun _ => none := by
  have hdt : l.pgtab = l.pgdir + 0x1000 := by
    rw [l.pgtab_eq, l.pgdir_eq]
  have hpt : l.pgtab = 0x102 * 4096 := by
    rw [l.pgtab_eq, l.start_eq]
  have hent : ∀ i, l.pgtab + i * 0x1000 ||| PAGE_DIR_FLAGS = l.pgtab + i * 4096 + 3 := by
    intro i
    rw [hpt, ← Nat.add_mul]
    exact or_flags (by decide)
  have hlt : ∀ i < 1024, (if i < 64 then l.pgtab + i * 0x1000 ||| PAGE_DIR_FLAGS else 0) < 2 ^ 32 := by
    intro i _
    rw [hent]
    split <;> omega
  unfold earlyMmFillPgdir
  constructor
  · intro i hi
    rw [word_putWord_of_disjoint (by omega), word_putWords hlt (by omega), if_pos hi, hent]
  · intro i hi hi'
    rw [word_putWord_of_disjoint (by omega), word_putWords hlt hi', if_neg (by omega)]
  · intro q hq
    by_cases h0 : q = 0
    · subst h0
      exact word_putWord (by decide)
    · rw [word_putWord_of_disjoint (by omega), word_putWords_of_disjoint (by omega)]
      unfold word remplitRam
      rw [if_pos (by omega), if_pos (by omega), if_pos (by omega), if_pos (by omega)]
      rfl
  · intro q f h
    cases h
  · intro a ha
    rw [putWord_of_not_mem (by omega), putWords_of_not_mem (by omega)]
    unfold remplitRam
    rw [if_neg (by omega)]

/-- The regions, one after the other. -/
def carteNoyau (l : Liens) : Carte :=
  let c : Carte := fun _ => none
  let c := c.projette (4096 / 4096) (nbPages 4096 l.start) PAGE_TABLE_RW
  let c := c.projette (l.start / 4096) (nbPages l.start l.textStart) PAGE_TABLE_RW
  let c := c.projette (l.textStart / 4096) (nbPages l.textStart l.textEnd) PAGE_TABLE_RO
  let c := c.projette (l.multibootStart / 4096) (nbPages l.multibootStart l.multibootEnd) PAGE_TABLE_RO
  let c := c.projette (l.rodataStart / 4096) (nbPages l.rodataStart l.rodataEnd) PAGE_TABLE_RO
  let c := c.projette (l.bootstrapStackStart / 4096) (nbPages l.bootstrapStackStart l.bootstrapStackEnd) PAGE_TABLE_RW
  let c := c.projette (l.dataStart / 4096) (nbPages l.dataStart l.dataEnd) PAGE_TABLE_RW
  let c := c.projette (l.bssStart / 4096) (nbPages l.bssStart l.bssEnd) PAGE_TABLE_RW
  c.projette (l.fin / 4096) (nbPages l.fin l.memEnd) PAGE_TABLE_RW

theorem represente_noyau : Represente l m (earlyMmMapKernel l m) (carteNoyau l) := by
  have h₁ := l.start_eq
  have h₂ := l.text
  have h₃ := l.multiboot
  have h₄ := l.bootstrapStack
  have h₅ := l.rodata
  have h₆ := l.data
  have h₇ := l.bss
  have h₈ := l.fin_le
  have h₉ := l.memEnd_eq
  have hro : PAGE_TABLE_RO = PAGE_TABLE_RO ∨ PAGE_TABLE_RO = PAGE_TABLE_RW := .inl rfl
  have hrw : PAGE_TABLE_RW = PAGE_TABLE_RO ∨ PAGE_TABLE_RW = PAGE_TABLE_RW := .inr rfl
  unfold earlyMmMapKernel carteNoyau
  refine Represente.mapRegion ?_ (by omega) hrw
  refine Represente.mapRegion ?_ (by omega) hrw
  refine Represente.mapRegion ?_ (by omega) hrw
  refine Represente.mapRegion ?_ (by omega) hrw
  refine Represente.mapRegion ?_ (by omega) hro
  refine Represente.mapRegion ?_ (by omega) hro
  refine Represente.mapRegion ?_ (by omega) hro
  refine Represente.mapRegion ?_ (by omega) hrw
  refine Represente.mapRegion ?_ (by omega) hrw
  exact represente_vide

/-! ## Translation -/

/-- `.text`, `.multiboot` and `.rodata`. -/
def LectureSeule (l : Liens) (a : Nat) : Prop :=
  l.textStart ≤ a ∧ a < l.textEnd ∨ l.multibootStart ≤ a ∧ a < l.multibootEnd ∨ l.rodataStart ≤ a ∧ a < l.rodataEnd

instance (l : Liens) (a : Nat) : Decidable (LectureSeule l a) := inferInstanceAs (Decidable (_ ∨ _))

/-- What comes before the code, the first stack, `.data`, and `.bss` with the free memory after it; but not the first page. -/
def LectureEcriture (l : Liens) (a : Nat) : Prop :=
  4096 ≤ a ∧ a < l.textStart ∨ l.bootstrapStackStart ≤ a ∧ a < l.bootstrapStackEnd ∨ l.dataStart ≤ a ∧ a < l.dataEnd ∨
    l.bssStart ≤ a ∧ a < l.memEnd

instance (l : Liens) (a : Nat) : Decidable (LectureEcriture l a) := inferInstanceAs (Decidable (_ ∨ _))

theorem aligne_iff {x : Nat} (hx : x < 2 ^ 32) : aligne x = true ↔ x % 4096 = 0 := by
  unfold aligne
  rw [decide_eq_true_iff, and_page hx]
  omega

/-- The symbols that the check finds aligned. -/
structure Alignes (l : Liens) : Prop where
  text : l.textStart % 4096 = 0 ∧ l.textEnd % 4096 = 0
  multiboot : l.multibootStart % 4096 = 0 ∧ l.multibootEnd % 4096 = 0
  bootstrapStack : l.bootstrapStackStart % 4096 = 0 ∧ l.bootstrapStackEnd % 4096 = 0
  rodata : l.rodataStart % 4096 = 0 ∧ l.rodataEnd % 4096 = 0
  data : l.dataStart % 4096 = 0 ∧ l.dataEnd % 4096 = 0

theorem alignes_of_check (h : earlyMmCheck l = true) : Alignes l := by
  have h₁ := l.text
  have h₂ := l.multiboot
  have h₃ := l.bootstrapStack
  have h₄ := l.rodata
  have h₅ := l.data
  have h₆ := l.bss
  have h₇ := l.fin_le
  have h₈ := l.memEnd_eq
  unfold earlyMmCheck at h
  simp only [Bool.and_eq_true, aligne_iff (show l.textStart < 2 ^ 32 by omega), aligne_iff (show l.textEnd < 2 ^ 32 by omega),
    aligne_iff (show l.multibootStart < 2 ^ 32 by omega), aligne_iff (show l.multibootEnd < 2 ^ 32 by omega),
    aligne_iff (show l.bootstrapStackStart < 2 ^ 32 by omega), aligne_iff (show l.bootstrapStackEnd < 2 ^ 32 by omega),
    aligne_iff (show l.rodataStart < 2 ^ 32 by omega), aligne_iff (show l.rodataEnd < 2 ^ 32 by omega),
    aligne_iff (show l.dataStart < 2 ^ 32 by omega), aligne_iff (show l.dataEnd < 2 ^ 32 by omega)] at h
  exact ⟨⟨by tauto, by tauto⟩, ⟨by tauto, by tauto⟩, ⟨by tauto, by tauto⟩, ⟨by tauto, by tauto⟩, ⟨by tauto, by tauto⟩⟩

/-- The pages of a region that ends with a page. -/
theorem pages_iff (hf : finRegion % 4096 = 0) :
    (debut / 4096 ≤ q ∧ q < debut / 4096 + nbPages debut finRegion) ↔ debut / 4096 * 4096 ≤ q * 4096 ∧ q * 4096 < finRegion ∧ debut < finRegion := by
  unfold nbPages
  omega

/-- The map, with the regions as intervals of addresses. -/
theorem carteNoyau_intervalles (h : Alignes l) (q : Nat) : carteNoyau l q =
    if l.fin / 4096 * 4096 ≤ q * 4096 ∧ q * 4096 < l.memEnd ∧ l.fin < l.memEnd then some PAGE_TABLE_RW
    else if l.bssStart ≤ q * 4096 ∧ q * 4096 < l.bssEnd then some PAGE_TABLE_RW
    else if l.dataStart ≤ q * 4096 ∧ q * 4096 < l.dataEnd then some PAGE_TABLE_RW
    else if l.bootstrapStackStart ≤ q * 4096 ∧ q * 4096 < l.bootstrapStackEnd then some PAGE_TABLE_RW
    else if l.rodataStart ≤ q * 4096 ∧ q * 4096 < l.rodataEnd then some PAGE_TABLE_RO
    else if l.multibootStart ≤ q * 4096 ∧ q * 4096 < l.multibootEnd then some PAGE_TABLE_RO
    else if l.textStart ≤ q * 4096 ∧ q * 4096 < l.textEnd then some PAGE_TABLE_RO
    else if l.start ≤ q * 4096 ∧ q * 4096 < l.textStart then some PAGE_TABLE_RW
    else if 4096 ≤ q * 4096 ∧ q * 4096 < l.start then some PAGE_TABLE_RW
    else none := by
  have hreg : ∀ debut fin, debut % 4096 = 0 → fin % 4096 = 0 →
      ((debut / 4096 ≤ q ∧ q < debut / 4096 + nbPages debut fin) ↔ debut ≤ q * 4096 ∧ q * 4096 < fin) := by
    intro debut fin hd hf
    rw [pages_iff hf]
    omega
  have hs := l.start_eq
  have hm := l.memEnd_eq
  unfold carteNoyau Carte.projette
  simp only [hreg _ _ h.text.1 h.text.2, hreg _ _ h.multiboot.1 h.multiboot.2, hreg _ _ h.bootstrapStack.1 h.bootstrapStack.2,
    hreg _ _ h.rodata.1 h.rodata.2, hreg _ _ h.data.1 h.data.2, hreg _ _ l.bss.2.1 l.bss.2.2,
    hreg l.start l.textStart (by omega) h.text.1, hreg 4096 l.start (by omega) (by omega),
    pages_iff (show l.memEnd % 4096 = 0 by omega)]

/-- The start of a page is in at most one kind of section, and its entry says which. -/
theorem carteNoyau_cas (h : Alignes l) (q : Nat) :
    (LectureSeule l (q * 4096) → ¬LectureEcriture l (q * 4096) ∧ carteNoyau l q = some PAGE_TABLE_RO) ∧
    (LectureEcriture l (q * 4096) → carteNoyau l q = some PAGE_TABLE_RW) ∧
    (¬LectureSeule l (q * 4096) → ¬LectureEcriture l (q * 4096) → carteNoyau l q = none) := by
  have h₁ := l.start_eq
  have h₂ := l.crt0
  have h₃ := l.text
  have h₄ := l.multiboot
  have h₅ := l.bootstrapStack
  have h₆ := l.rodata
  have h₇ := l.data
  have h₈ := l.bss
  have h₉ := l.fin_le
  have h₁₀ := l.memEnd_eq
  -- The sections are in this order in memory, so at most one contains the page.
  rw [carteNoyau_intervalles h]
  unfold LectureSeule LectureEcriture
  obtain ⟨a, ha⟩ : ∃ a, a = q * 4096 := ⟨_, rfl⟩
  rw [← ha]
  refine ⟨fun hro => ⟨by omega, ?_⟩, fun hrw => ?_, fun hro hrw => ?_⟩
  · rw [if_neg (by omega), if_neg (by omega), if_neg (by omega), if_neg (by omega)]
    split
    · rfl
    split
    · rfl
    rw [if_pos (by omega)]
  · split
    · rfl
    split
    · rfl
    split
    · rfl
    split
    · rfl
    rw [if_neg (by omega), if_neg (by omega), if_neg (by omega)]
    split
    · rfl
    rw [if_pos (by omega)]
  · rw [if_neg (by omega), if_neg (by omega), if_neg (by omega), if_neg (by omega), if_neg (by omega), if_neg (by omega),
      if_neg (by omega), if_neg (by omega), if_neg (by omega)]

/-- A page is in a section from its start to its end. -/
theorem lectureSeule_page (h : Alignes l) (a : Nat) : LectureSeule l (a / 4096 * 4096) ↔ LectureSeule l a := by
  have h₁ := h.text
  have h₂ := h.multiboot
  have h₃ := h.rodata
  unfold LectureSeule
  omega

theorem lectureEcriture_page (h : Alignes l) (a : Nat) : LectureEcriture l (a / 4096 * 4096) ↔ LectureEcriture l a := by
  have h₁ := h.text
  have h₂ := h.bootstrapStack
  have h₃ := h.data
  have h₄ := l.bss
  have h₅ := l.memEnd_eq
  unfold LectureEcriture
  omega

theorem pgdir_page : l.pgdir &&& 0xfffff000 = l.pgdir := by
  have h := l.pgdir_eq
  have h' := l.start_eq
  rw [and_page (by omega)]
  omega

theorem shift_index (va : Nat) (hva : va < 2 ^ 32) : va >>> 22 &&& 0x3ff = va / 2 ^ 22 := by
  rw [and_index, Nat.shiftRight_eq_div_pow]
  omega

/-- The entries met in a walk: a table of the first 64, and the entry of the page in it. -/
theorem Represente.pde {c : Carte} (h : Represente l m₀ m c) (hva : va < 2 ^ 28) :
    word m ((l.pgdir &&& 0xfffff000) + 4 * (va >>> 22 &&& 0x3ff)) = l.pgtab + va / 2 ^ 22 * 4096 + 3 := by
  rw [pgdir_page, shift_index va (by omega), h.dir _ (by omega)]

theorem Represente.pte {c : Carte} (h : Represente l m₀ m c) (hva : va < 2 ^ 28) :
    word m ((l.pgtab + va / 2 ^ 22 * 4096 + 3 &&& 0xfffff000) + 4 * (va >>> 12 &&& 0x3ff)) = c.entree (va / 4096) := by
  have hpt : l.pgtab = 0x102 * 4096 := by
    rw [l.pgtab_eq, l.start_eq]
  have ha : (l.pgtab + va / 2 ^ 22 * 4096 + 3 &&& 0xfffff000) + 4 * (va >>> 12 &&& 0x3ff) = l.pgtab + 4 * (va / 4096) := by
    rw [and_page (by omega), and_index, Nat.shiftRight_eq_div_pow]
    omega
  rw [ha, h.tab _ (by omega)]

/-- The flags are the low bits of an entry. -/
theorem testBit_flags {n f i : Nat} (hi : i < 12) : (n * 4096 + f).testBit i = f.testBit i := by
  have hmod : (n * 4096 + f) % 2 ^ 12 = f % 2 ^ 12 := by omega
  have hbit := congrArg (fun x => x.testBit i) hmod
  simpa only [Nat.testBit_mod_two_pow, decide_eq_true hi, Bool.true_and] using hbit

/-- A walk in tables that represent `c`. -/
theorem Represente.lookup {c : Carte} (h : Represente l m₀ m c) (hva : va < 2 ^ 32) (hpg : cr0 &&& 0x80000000 ≠ 0) :
    physAddrLookup m cr0 l.pgdir va =
      if va < 2 ^ 28 ∧ (c (va / 4096)).isSome then some (va, 0x1000 - va % 4096) else none := by
  unfold physAddrLookup
  dsimp only
  by_cases hlo : va < 2 ^ 28
  · have hpt : l.pgtab + va / 2 ^ 22 * 4096 + 3 = (0x102 + va / 2 ^ 22) * 4096 + 3 := by
      rw [l.pgtab_eq, l.start_eq]
      omega
    have h₁ : l.pgtab + va / 2 ^ 22 * 4096 + 3 &&& 1 ≠ 0 := by
      rw [Nat.and_one_is_mod]
      omega
    have h₂ : l.pgtab + va / 2 ^ 22 * 4096 + 3 &&& 0x80 = 0 := by
      rw [hpt, show 0x80 = 2 ^ 7 from rfl, Nat.and_two_pow, testBit_flags (by decide)]
      rfl
    rw [h.pde hlo, if_neg hpg, if_neg h₁, if_pos h₂, h.pte hlo, and_offset]
    cases hc : c (va / 4096) with
    | none =>
      have he : c.entree (va / 4096) = 0 := by simp [Carte.entree, hc]
      rw [he]
      simp
    | some f =>
      have hf : f = 1 ∨ f = 3 := h.drapeaux _ f hc
      have he : c.entree (va / 4096) = va / 4096 * 4096 + f := by simp [Carte.entree, hc]
      have hv : ¬(va / 4096 * 4096 + f) % 2 = 0 := by omega
      rw [he, Nat.and_one_is_mod, if_neg hv, if_pos ⟨hlo, rfl⟩, and_page (by omega)]
      congr 2
      omega
  · rw [pgdir_page, shift_index va hva, h.vide _ (by omega) (by omega), if_neg hpg, if_pos (Nat.zero_and 1),
      if_neg fun h => hlo h.1]

/-- What a walk may do, in tables that represent `c`. -/
theorem Represente.autorise {c : Carte} (h : Represente l m₀ m c) (hva : va < 2 ^ 32) {i : Nat} (hi : i < 12) :
    autorise i m l.pgdir va = (decide (va < 2 ^ 28) && (3).testBit i && ((c (va / 4096)).getD 0).testBit i) := by
  unfold Pcsea.autorise
  dsimp only
  by_cases hlo : va < 2 ^ 28
  · have hpt : l.pgtab + va / 2 ^ 22 * 4096 + 3 = (0x102 + va / 2 ^ 22) * 4096 + 3 := by
      rw [l.pgtab_eq, l.start_eq]
      omega
    rw [h.pde hlo, h.pte hlo, hpt, testBit_flags hi, decide_eq_true hlo, Bool.true_and]
    congr 1
    unfold Carte.entree
    cases c (va / 4096) with
    | none => rfl
    | some f => exact testBit_flags hi
  · rw [pgdir_page, shift_index va hva, h.vide _ (by omega) (by omega), decide_eq_false hlo, Nat.zero_testBit]
    rfl

/-- Once paging is on, an address is that of a byte of the kernel's map or nothing: the code and the constants for reading, the data,
the stack and the rest of the 256 MB for writing too, the first page and what is above for nothing, and user mode nothing at all. -/
theorem noyau_projete (hc : earlyMmCheck l = true) (hva : va < 2 ^ 32) (hpg : cr0 &&& 0x80000000 ≠ 0) :
    physAddrLookup (earlyMmMapKernel l m) cr0 l.pgdir va =
      (if LectureSeule l va ∨ LectureEcriture l va then some (va, 0x1000 - va % 4096) else none) ∧
    autorise 1 (earlyMmMapKernel l m) l.pgdir va = decide (LectureEcriture l va) ∧
    autorise 2 (earlyMmMapKernel l m) l.pgdir va = false := by
  have ha := alignes_of_check hc
  obtain ⟨hro, hrw, hno⟩ := carteNoyau_cas ha (va / 4096)
  simp only [lectureSeule_page ha, lectureEcriture_page ha] at hro hrw hno
  -- What the kernel maps is below 256 MiB, where its tables end.
  have hlo : LectureSeule l va ∨ LectureEcriture l va → va < 2 ^ 28 := by
    have h₁ := l.text
    have h₂ := l.multiboot
    have h₃ := l.bootstrapStack
    have h₄ := l.rodata
    have h₅ := l.data
    have h₆ := l.fin_le
    have h₇ := l.memEnd_eq
    unfold LectureSeule LectureEcriture
    omega
  rw [represente_noyau.lookup hva hpg, represente_noyau.autorise hva (by decide), represente_noyau.autorise hva (by decide)]
  by_cases hs : LectureSeule l va
  · obtain ⟨hne, he⟩ := hro hs
    rw [he, if_pos ⟨hlo (.inl hs), rfl⟩, if_pos (.inl hs), decide_eq_true (hlo (.inl hs)), decide_eq_false hne]
    exact ⟨rfl, rfl, rfl⟩
  · by_cases hw : LectureEcriture l va
    · rw [hrw hw, if_pos ⟨hlo (.inr hw), rfl⟩, if_pos (.inr hw), decide_eq_true (hlo (.inr hw)), decide_eq_true hw]
      exact ⟨rfl, rfl, rfl⟩
    · rw [hno hs hw, if_neg (by simp), if_neg (by tauto), decide_eq_false hw]
      simp

/-- A kernel whose code has 56 KB. -/
def liensExemple : Liens where
  start := 0x100000
  textStart := 0x142000
  textEnd := 0x150000
  multibootStart := 0x150000
  multibootEnd := 0x151000
  bootstrapStackStart := 0x151000
  bootstrapStackEnd := 0x155000
  rodataStart := 0x155000
  rodataEnd := 0x158000
  dataStart := 0x158000
  dataEnd := 0x160000
  bssStart := 0x160000
  bssEnd := 0x170000
  fin := 0x16f123
  pgdir := 0x101000
  pgtab := 0x102000
  memEnd := 0x10000000
  start_eq := rfl
  pgdir_eq := rfl
  pgtab_eq := rfl
  crt0 := by decide
  text := by decide
  multiboot := by decide
  bootstrapStack := by decide
  rodata := by decide
  data := by decide
  bss := by decide
  fin_le := by decide
  memEnd_eq := rfl

/-- A null pointer. -/
theorem noyau_projete_nul : let m : Ram := fun _ => 0
    physAddrLookup (earlyMmMapKernel liensExemple m) 0x80010011 liensExemple.pgdir 0 =
      (if LectureSeule liensExemple 0 ∨ LectureEcriture liensExemple 0 then some (0, 0x1000 - 0 % 4096) else none) ∧
    autorise 1 (earlyMmMapKernel liensExemple m) liensExemple.pgdir 0 = decide (LectureEcriture liensExemple 0) ∧
    autorise 2 (earlyMmMapKernel liensExemple m) liensExemple.pgdir 0 = false :=
  noyau_projete (by decide) (by decide) (by decide)

end Pcsea
