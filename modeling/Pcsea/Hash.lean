import Pcsea.Fault
/-!
# `hash.c`: the hash table

Open addressing in a table of slots; `π` is the type of `void *`, with 0 for
NULL. A `hash_slot_t *` is the index of its slot in the table. `libre` is the
answer of `public_mALLOc`, asked by an operation at most once. What `mem_free`
does to the old table is not modelled.
-/

namespace Pcsea

variable {π : Type}

def HASH_MINSIZE : Int := 8

inductive SlotMode where
  /-- has never held a key -/
  | slEmpty
  | slActive
  | slDeleted
  deriving DecidableEq, Repr

/-- `hash_slot_t`, of 16 bytes. -/
structure HashSlot (π : Type) where
  key : π
  value : π
  hash : Int
  mode : SlotMode
  deriving DecidableEq, Repr

/-- `hash_t`. -/
structure HashT (π : Type) where
  fill : Int
  count : Int
  mask : Nat
  table : List (HashSlot π)
  hfunc : π → Int
  cmp : π → π → Int

/-- `a * b` on `long`. -/
def mulInt (a b : Int) : Except Fault Int :=
  if -2 ^ 31 ≤ a * b ∧ a * b < 2 ^ 31 then .ok (a * b) else .error .intOverflow

/-- `table[i]`. -/
def litSlot (table : List (HashSlot π)) (i : Nat) : Except Fault (HashSlot π) :=
  match table[i]? with
  | some s => .ok s
  | none => .error .outOfBounds

/-- `table[i] = s`. -/
def ecritSlot (table : List (HashSlot π)) (i : Nat) (s : HashSlot π) : Except Fault (List (HashSlot π)) :=
  if i < table.length then .ok (table.set i s) else .error .outOfBounds

/-! ## Lookup -/

section Lookup
variable [DecidableEq π]

/-- The loop of `hash_lookup`, for `n` turns at most. -/
def lookupLoop (map : HashT π) (key : π) (hash : Int) : Nat → Nat → Nat → Nat → Option Nat → Except Fault Nat
  | 0, _, _, _, _ => .error .diverge
  | n + 1, index, perturb, slot, freeslot => do
    let s ← litSlot map.table slot
    if s.mode = .slEmpty then .ok (freeslot.getD slot)
    else if s.mode = .slActive ∧ (s.key = key ∨ s.hash = hash ∧ map.cmp s.key key ≠ 0) then .ok slot
    else
      -- The first deleted slot on the way is the one to write.
      let freeslot := if s.mode = .slDeleted ∧ freeslot = none then some slot else freeslot
      let index := (5 * index + perturb + 1) % 2 ^ 32
      lookupLoop map key hash n index (perturb >>> 5) (index &&& map.mask) freeslot

/-- `hash_lookup`. After seven turns `perturb` is 0, and then `mask + 1` turns see every slot. -/
def hashLookup (map : HashT π) (key : π) (hash : Int) : Except Fault Nat :=
  let index := toUint32 hash &&& map.mask
  lookupLoop map key hash (map.mask + 8) index (toUint32 hash) index none

/-- A turn of the loop of `hash_copy`. -/
def hashCopySlot (map : HashT π) (old : HashSlot π) : Except Fault (HashT π) :=
  if old.mode ≠ .slActive then .ok map
  else do
    let new ← hashLookup map old.key (map.hfunc old.key)
    let table ← ecritSlot map.table new ⟨old.key, old.value, old.hash, .slActive⟩
    let fill ← addInt map.fill 1
    let count ← addInt map.count 1
    .ok { map with table := table, fill := fill, count := count }

def hashCopy (map : HashT π) (oldtable : List (HashSlot π)) (oldsize : Int) : Except Fault (HashT π) :=
  (List.range oldsize.toNat).foldlM (fun map i => do hashCopySlot map (← litSlot oldtable i)) map

/-! ## Reading -/

def hashIsset (map : Option (HashT π)) (key : π) : Except Fault Int :=
  match map with
  | none => .ok 0
  | some map => do
    let s ← litSlot map.table (← hashLookup map key (map.hfunc key))
    .ok (if s.mode = .slActive then 1 else 0)

def hashGet (map : Option (HashT π)) (key defaultValue : π) : Except Fault π :=
  match map with
  | none => .ok defaultValue
  | some map => do
    let s ← litSlot map.table (← hashLookup map key (map.hfunc key))
    .ok (if s.mode = .slActive then s.value else defaultValue)

end Lookup

/-! ## Resizing -/

section Resize
variable [Zero π]

def HashSlot.vide : HashSlot π := ⟨0, 0, 0, .slEmpty⟩

/-- `mem_alloc(length)`: NULL, or a block of zeros, in slots. -/
def memAllocSlots (libre : Bool) (length : Nat) : Option (List (HashSlot π)) :=
  let l := (length + 4 - 1) % 2 ^ 32 / 4 + 4
  let l2 := l * 4 % 2 ^ 32
  if length = 0 then none
  else if l2 ≤ length then none
  else if libre then some (List.replicate (length / 16) .vide)
  else none

def hashInitialize (libre : Bool) (map : HashT π) (size : Int) : Except Fault (Int × HashT π) :=
  match memAllocSlots libre (toUint32 (size * 16)) with
  | none => .ok (-1, map)
  | some table => do
    let table ← (List.range size.toNat).foldlM (fun table i => ecritSlot table i .vide) table
    .ok (0, { map with fill := 0, count := 0, mask := toUint32 (size - 1), table := table })

def hashInit (libre : Bool) (map : HashT π) (hfunc : π → Int) (cmp : π → π → Int) : Except Fault (Int × HashT π) := do
  let (code, map) ← hashInitialize libre map HASH_MINSIZE
  if code = -1 then .ok (-1, map)
  else .ok (0, { map with hfunc := hfunc, cmp := cmp })

/-- What `hash_update` decides before it allocates. -/
inductive Taille where
  | rend (code : Int)
  | alloue (size : Int)
  deriving DecidableEq, Repr

/-- `old_size`. -/
def HashT.size (map : HashT π) : Int := toInt32 (succUint32 map.mask)

def hashTaille (map : HashT π) : Except Fault Taille := do
  if (← mulInt 3 map.fill) ≥ (← mulInt 2 map.size) then
    let newSize ← mulInt map.size 2
    -- Full by two thirds: twice as large.
    if newSize < map.size then .ok (.rend (-1)) else .ok (.alloue newSize)
  else if map.size > HASH_MINSIZE then
    -- Full by a quarter at most: half as large.
    if (← mulInt 4 map.count) ≤ map.size then .ok (.alloue (map.size / 2)) else .ok (.rend 0)
  else .ok (.rend 0)

variable [DecidableEq π]

def hashUpdate (libre : Bool) (map : HashT π) : Except Fault (Int × HashT π) := do
  match ← hashTaille map with
  | .rend code => .ok (code, map)
  | .alloue newSize =>
    let oldTable := map.table
    let oldSize := map.size
    let (code, map) ← hashInitialize libre map newSize
    if code = -1 then .ok (-1, map)
    else
      let map ← hashCopy map oldTable oldSize
      .ok (0, map)

/-! ## Writing -/

/-- `hash_set` up to the call of `hash_update`, and whether it is called. -/
def hashSetSlot (map : HashT π) (key value : π) : Except Fault (Bool × HashT π) := do
  let hash := map.hfunc key
  let slot ← hashLookup map key hash
  let s ← litSlot map.table slot
  if s.mode = .slActive then .ok (false, { map with table := map.table.set slot { s with value := value } })
  else
    -- A deleted slot was counted in `fill` already.
    let count ← addInt map.count 1
    let fill ← if s.mode = .slEmpty then addInt map.fill 1 else .ok map.fill
    .ok (true, { map with count := count, fill := fill, table := map.table.set slot ⟨key, value, hash, .slActive⟩ })

/-- `hash_del` up to the call of `hash_update`. -/
def hashDelSlot (map : HashT π) (key : π) : Except Fault (Bool × HashT π) := do
  let slot ← hashLookup map key (map.hfunc key)
  let s ← litSlot map.table slot
  if s.mode ≠ .slActive then .ok (false, map)
  else
    let count ← addInt map.count (-1)
    .ok (true, { map with count := count, table := map.table.set slot ⟨0, 0, 0, .slDeleted⟩ })

/-- The end of `hash_set` and `hash_del`. -/
def hashFin (libre : Bool) : Bool × HashT π → Except Fault (Int × Option (HashT π))
  | (false, map) => .ok (0, some map)
  | (true, map) => do
    let (code, map) ← hashUpdate libre map
    .ok (code, some map)

def hashSet (libre : Bool) (map : Option (HashT π)) (key value : π) : Except Fault (Int × Option (HashT π)) :=
  match map with
  | none => .ok (-1, none)
  | some map => do hashFin libre (← hashSetSlot map key value)

def hashDel (libre : Bool) (map : Option (HashT π)) (key : π) : Except Fault (Int × Option (HashT π)) :=
  match map with
  | none => .ok (-1, none)
  | some map => do hashFin libre (← hashDelSlot map key)

end Resize

/-! ## Keys that are pointers -/

/-- `hash_direct_cmp`. -/
def hashDirectCmp [DecidableEq π] (key1 key2 : π) : Int := if key1 = key2 then 1 else 0

/-- `hash_direct_hfunc`; `adresse` is the cast of a pointer to `long`. -/
def hashDirectHfunc (adresse : π → Int) (key : π) : Int := adresse key

def hashInitDirect [DecidableEq π] [Zero π] (libre : Bool) (map : HashT π) (adresse : π → Int) : Except Fault (Int × HashT π) :=
  hashInit libre map (hashDirectHfunc adresse) hashDirectCmp

end Pcsea
