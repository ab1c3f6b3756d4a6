import Karac.Lib.Lanes

/-! The runtime's open-addressing hash map. The storage arrays are raw memory, so they are functions
of the slot; a key or value that has not been written reads as `none`. What the heap-freeing flags of
`remove` and `clear` release is not part of the map's contents and is left out. An allocation is
granted or refused by the caller's `alloc`, by the number of buckets asked for. -/

namespace Karac.Map

open Karac.Lib

abbrev Byte := BitVec 8
abbrev Word := BitVec 64

def initialCapacity : ℕ := 16
def bucketEmpty : Byte := 0
def bucketTombstone : Byte := 1
def bucketOccupiedBit : Byte := 0x80

/-- The control byte of a bucket whose key has this hash: the top seven bits. -/
def ctrlOf (hash : Word) : Byte := bucketOccupiedBit ||| ((hash >>> 57).setWidth 8 &&& 0x7f)

def isOccupied (status : Byte) : Bool := decide (bucketOccupiedBit ≤ status)

/-! The eight-lane scan. -/

def group : ℕ := 8
def lo : Word := 0x0101010101010101
def hi : Word := 0x8080808080808080

def zeroLanes (x : Word) : Word := ~~~(((x &&& ~~~hi) + ~~~hi) ||| x) &&& hi

def lanesEq (g : Word) (b : Byte) : Word := zeroLanes (g ^^^ lo * b.setWidth 64)

def firstLane (m : Word) : ℕ := if m = 0 then group else m.ctz.toNat / 8

/-- The control bytes from `slot` on, the byte of `slot` in the lowest lane. -/
def groupAt (status : ℕ → Byte) (slot : ℕ) : Word :=
  status (slot + 7) ++ status (slot + 6) ++ status (slot + 5) ++ status (slot + 4) ++
    status (slot + 3) ++ status (slot + 2) ++ status (slot + 1) ++ status slot

theorem clear_lowest_lt {m : Word} (hm : m ≠ 0) : (m &&& (m - 1)).toNat < m.toNat := by
  have hpos : m.toNat ≠ 0 := fun h => hm (BitVec.eq_of_toNat_eq h)
  have hone : (1 : Word).toNat = 1 := rfl
  have hpred : (m - 1).toNat = m.toNat - 1 :=
    BitVec.toNat_sub_of_le (BitVec.le_def.mpr (by omega))
  have hle : (m &&& (m - 1)).toNat ≤ (m - 1).toNat := by
    rw [BitVec.toNat_and]
    exact Nat.and_le_right
  omega

/-- `while m != 0`: the first lane below `stop` whose key compares equal. -/
def matchLanes (eq : ℕ → Bool) (slot stop : ℕ) (m : Word) : Option ℕ :=
  if hm : m ≠ 0 then
    let lane := firstLane m
    if lane ≥ stop then none
    else if eq (slot + lane) then some (slot + lane)
    else matchLanes eq slot stop (m &&& (m - 1))
  else none
termination_by m.toNat
decreasing_by exact clear_lowest_lt hm

/-! The table. -/

structure KaracMap (K V : Type) where
  status : ℕ → Byte
  keys : ℕ → Option K
  vals : ℕ → Option V
  capacity : ℕ
  len : ℕ
  tombstones : ℕ
  keySize : ℕ
  valSize : ℕ

variable {K V : Type}

/-- `alloc_storage` hands out buckets that read as empty. -/
def KaracMap.withStorage (m : KaracMap K V) (capacity : ℕ) : KaracMap K V :=
  { m with status := fun _ => bucketEmpty, keys := fun _ => none, vals := fun _ => none,
           capacity := capacity, len := 0, tombstones := 0 }

def KaracMap.new (K V : Type) (keySize valSize : ℕ) : KaracMap K V where
  status := fun _ => bucketEmpty
  keys := fun _ => none
  vals := fun _ => none
  capacity := initialCapacity
  len := 0
  tombstones := 0
  keySize := keySize
  valSize := valSize

namespace KaracMap

def mask (m : KaracMap K V) : ℕ := m.capacity - 1

/-- The loop of `lookup_hashed`. A round advances by at least one bucket, so `capacity` rounds reach
the end of the scan. -/
def lookupLoop (m : KaracMap K V) (ctrl : Byte) (eq : ℕ → Bool) : ℕ → ℕ → ℕ → Option ℕ
  | 0, _, _ => none
  | fuel + 1, slot, scanned =>
    if scanned < m.capacity then
      if slot + group > m.capacity then
        -- a group would run off the end: one byte at a time
        let s := m.status slot
        if s = bucketEmpty then none
        else if s = ctrl ∧ eq slot = true then some slot
        else lookupLoop m ctrl eq fuel ((slot + 1) &&& m.mask) (scanned + 1)
      else
        let g := groupAt m.status slot
        let empty := zeroLanes g
        let stop := firstLane empty
        (matchLanes eq slot stop (lanesEq g ctrl)).or
          (if empty ≠ 0 then none
          else lookupLoop m ctrl eq fuel ((slot + group) &&& m.mask) (scanned + group))
    else none

def lookupHashed (m : KaracMap K V) (hash : Word) (eq : ℕ → Bool) : Option ℕ :=
  lookupLoop m (ctrlOf hash) eq m.capacity (hash.toNat &&& m.mask) 0

/-- What `find_insert_slot` answers after its loop. -/
def fallThrough (firstTombstone : Option ℕ) : ℕ × Bool := (firstTombstone.getD 0, false)

/-- The loop of `find_insert_slot`: the slot, and whether it holds the key; `after` is the answer of a
loop that runs to its end. -/
def insertLoop (m : KaracMap K V) (ctrl : Byte) (eq : ℕ → Bool) (after : Option ℕ → ℕ × Bool) :
    ℕ → ℕ → ℕ → Option ℕ → ℕ × Bool
  | 0, _, _, firstTombstone => after firstTombstone
  | fuel + 1, slot, scanned, firstTombstone =>
    if scanned < m.capacity then
      if slot + group > m.capacity then
        let s := m.status slot
        if s = bucketEmpty then (firstTombstone.getD slot, false)
        else if s = bucketTombstone then
          insertLoop m ctrl eq after fuel ((slot + 1) &&& m.mask) (scanned + 1)
            (firstTombstone.or (some slot))
        else if s = ctrl ∧ eq slot = true then (slot, true)
        else insertLoop m ctrl eq after fuel ((slot + 1) &&& m.mask) (scanned + 1) firstTombstone
      else
        let g := groupAt m.status slot
        let empty := zeroLanes g
        let stop := firstLane empty
        let t := firstLane (lanesEq g bucketTombstone)
        let tombstone := firstTombstone.or (if t < stop then some (slot + t) else none)
        (matchLanes eq slot stop (lanesEq g ctrl)).elim
          (if empty ≠ 0 then (tombstone.getD (slot + stop), false)
          else insertLoop m ctrl eq after fuel ((slot + group) &&& m.mask) (scanned + group) tombstone)
          fun s => (s, true)
    else after firstTombstone

/-! Writes to one bucket. -/

def setStatus (m : KaracMap K V) (slot : ℕ) (s : Byte) : KaracMap K V :=
  { m with status := Function.update m.status slot s }

def setKey (m : KaracMap K V) (slot : ℕ) (k : K) : KaracMap K V :=
  { m with keys := Function.update m.keys slot (some k) }

def setVal (m : KaracMap K V) (slot : ℕ) (v : V) : KaracMap K V :=
  { m with vals := Function.update m.vals slot (some v) }

/-- `vacate`: a bucket whose successor is empty is released outright. -/
def vacate (m : KaracMap K V) (slot : ℕ) : KaracMap K V :=
  let runEnd := decide (m.status ((slot + 1) &&& m.mask) = bucketEmpty)
  { m.setStatus slot (if runEnd then bucketEmpty else bucketTombstone) with
    len := m.len - 1, tombstones := m.tombstones + if runEnd then 0 else 1 }

def nextCapacity (m : KaracMap K V) : ℕ :=
  if (m.len + 1) * 16 ≤ m.capacity * 3 then m.capacity else m.capacity * 2

/-- The growth test of every insertion. -/
def needsResize (m : KaracMap K V) : Bool := decide ((m.len + m.tombstones + 1) * 4 > m.capacity * 3)

/-- The bytes of a refused allocation, saturating at `u64`. -/
def storageBytes (m : KaracMap K V) (capacity : ℕ) : ℕ :=
  min (2 ^ 64 - 1) (capacity + min (2 ^ 64 - 1) (capacity * max (m.keySize + m.valSize) 1))

/-- `while status[slot] != EMPTY`. There is an empty bucket, so `capacity` rounds find one. -/
def emptySlot (m : KaracMap K V) : ℕ → ℕ → ℕ
  | 0, slot => slot
  | fuel + 1, slot =>
    if m.status slot ≠ bucketEmpty then emptySlot m fuel ((slot + 1) &&& m.mask) else slot

/-- The new capacity of a reservation, doubled until it suffices; `none` when doubling overflows. -/
def growTo (needed : ℕ) : ℕ → ℕ → Option ℕ
  | 0, _ => none
  | fuel + 1, cap =>
    if cap < needed then
      if cap * 2 < 2 ^ 64 then growTo needed fuel (cap * 2) else none
    else some cap

def satAdd (a b : ℕ) : ℕ := min (2 ^ 64 - 1) (a + b)
def satMul (a b : ℕ) : ℕ := min (2 ^ 64 - 1) (a * b)

/-- The capacity a reservation asks for. -/
def neededCapacity (m : KaracMap K V) (additional : ℕ) : ℕ :=
  satAdd (satMul (satAdd (satAdd m.len m.tombstones) additional) 4) 2 / 3

section Ops

variable (hashFn : K → Word) (eqFn : K → K → Bool)

/-- `eq_fn` of the stored key and the key looked for. -/
def eqAt (m : KaracMap K V) (key : K) (slot : ℕ) : Bool := (m.keys slot).any fun k => eqFn k key

def lookup (m : KaracMap K V) (key : K) : Option ℕ := m.lookupHashed (hashFn key) (m.eqAt eqFn key)

/-- The slot, whether it holds the key, and the control byte to store. -/
def findInsertSlot (m : KaracMap K V) (key : K) : ℕ × Bool × Byte :=
  let ctrl := ctrlOf (hashFn key)
  let r := insertLoop m ctrl (m.eqAt eqFn key) fallThrough m.capacity ((hashFn key).toNat &&& m.mask) 0
    none
  (r.1, r.2, ctrl)

/-- One occupied bucket of a replaced table moves into the fresh storage. -/
def rehashSlot (old : KaracMap K V) (m : KaracMap K V) (i : ℕ) : KaracMap K V :=
  if isOccupied (old.status i) then
    match old.keys i with
    | some key =>
      let hash := hashFn key
      let slot := m.emptySlot m.capacity (hash.toNat &&& m.mask)
      { m with keys := Function.update m.keys slot (some key),
               vals := Function.update m.vals slot (old.vals i),
               status := Function.update m.status slot (ctrlOf hash),
               len := m.len + 1 }
    | none => m
  else m

def rehashFrom (old : KaracMap K V) (m : KaracMap K V) : KaracMap K V :=
  (List.range old.capacity).foldl (rehashSlot hashFn old) m

/-- The table after growing or compacting to `capacity` buckets. -/
def regrow (m : KaracMap K V) (capacity : ℕ) : KaracMap K V :=
  rehashFrom hashFn m (m.withStorage capacity)

/-- `resize`; a refused allocation ends the process. -/
def resize (alloc : ℕ → Bool) (m : KaracMap K V) : Option (KaracMap K V) :=
  if alloc m.nextCapacity then some (m.regrow hashFn m.nextCapacity) else none

def tryResize (alloc : ℕ → Bool) (m : KaracMap K V) : Except ℕ (KaracMap K V) :=
  if alloc m.nextCapacity then .ok (m.regrow hashFn m.nextCapacity)
  else .error (m.storageBytes m.nextCapacity)

def reserveAdditional (alloc : ℕ → Bool) (m : KaracMap K V) (additional : ℕ) :
    Except ℕ (KaracMap K V) :=
  let needed := m.neededCapacity additional
  if needed ≤ m.capacity then .ok m
  else match growTo needed 64 (max m.capacity initialCapacity) with
    | none => .error (2 ^ 64 - 1)
    | some newCap =>
      if alloc newCap then .ok (m.regrow hashFn newCap) else .error (m.storageBytes newCap)

/-- Claim the slot for a key: write the key bytes and count the bucket, unless it holds the key. -/
def claim (m : KaracMap K V) (key : K) (slot : ℕ) (fresh : Bool) : KaracMap K V :=
  if fresh then
    { m.setKey slot key with
      len := m.len + 1,
      tombstones := if m.status slot = bucketTombstone then m.tombstones - 1 else m.tombstones }
  else m

/-- The insertion after the growth test; the old value of an existing key is handed back. -/
def place (m : KaracMap K V) (key : K) (val : V) : KaracMap K V × Option V :=
  let (slot, exists_, ctrl) := m.findInsertSlot hashFn eqFn key
  (((m.claim key slot (!exists_)).setVal slot val).setStatus slot ctrl,
    if exists_ then m.vals slot else none)

def resizeIfNeeded (alloc : ℕ → Bool) (m : KaracMap K V) : Option (KaracMap K V) :=
  if m.needsResize then m.resize hashFn alloc else some m

def insert (alloc : ℕ → Bool) (m : KaracMap K V) (key : K) (val : V) : Option (KaracMap K V) :=
  (m.resizeIfNeeded hashFn alloc).map fun m => (m.place hashFn eqFn key val).1

def insertOld (alloc : ℕ → Bool) (m : KaracMap K V) (key : K) (val : V) :
    Option (KaracMap K V × Option V) :=
  (m.resizeIfNeeded hashFn alloc).map fun m => m.place hashFn eqFn key val

/-- On a refused allocation the map is unchanged and the bytes are reported. -/
def tryInsert (alloc : ℕ → Bool) (m : KaracMap K V) (key : K) (val : V) :
    KaracMap K V × Except ℕ (Option V) :=
  if m.needsResize then
    match m.tryResize hashFn alloc with
    | .error bytes => (m, .error bytes)
    | .ok m => let r := m.place hashFn eqFn key val; (r.1, .ok r.2)
  else let r := m.place hashFn eqFn key val; (r.1, .ok r.2)

/-- `karac_map_entry`: the slot whose value half the caller gets, and whether the key was there. A
vacant bucket is claimed with its value unwritten. -/
def entry (alloc : ℕ → Bool) (m : KaracMap K V) (key : K) : Option (KaracMap K V × ℕ × Bool) :=
  (m.resizeIfNeeded hashFn alloc).map fun m =>
    let (slot, exists_, ctrl) := m.findInsertSlot hashFn eqFn key
    (if exists_ then m else (m.claim key slot true).setStatus slot ctrl, slot, exists_)

/-- `or_insert`: the caller of `entry` writes the default through the pointer when the key was absent,
and reads the value there. -/
def entryOrInsert (alloc : ℕ → Bool) (m : KaracMap K V) (key : K) (default : V) :
    Option (KaracMap K V × Option V) :=
  (m.entry hashFn eqFn alloc key).map fun r =>
    let m := if r.2.2 then r.1 else r.1.setVal r.2.1 default
    (m, m.vals r.2.1)

def get (m : KaracMap K V) (key : K) : Option V := (m.lookup hashFn eqFn key).bind m.vals

def contains (m : KaracMap K V) (key : K) : Bool := (m.lookup hashFn eqFn key).isSome

def remove (m : KaracMap K V) (key : K) : KaracMap K V × Bool :=
  match m.lookup hashFn eqFn key with
  | some slot => (m.vacate slot, true)
  | none => (m, false)

def removeOld (m : KaracMap K V) (key : K) : KaracMap K V × Option V :=
  match m.lookup hashFn eqFn key with
  | some slot => (m.vacate slot, m.vals slot)
  | none => (m, none)

/-- A reservation that fails ends the process; one of nothing or less does nothing. -/
def reserve (alloc : ℕ → Bool) (m : KaracMap K V) (additional : ℤ) : Option (KaracMap K V) :=
  if additional ≤ 0 then some m
  else match m.reserveAdditional hashFn alloc additional.toNat with
    | .ok m => some m
    | .error _ => none

def tryReserve (alloc : ℕ → Bool) (m : KaracMap K V) (additional : ℤ) : KaracMap K V × Except ℕ Unit :=
  if additional ≤ 0 then (m, .ok ())
  else match m.reserveAdditional hashFn alloc additional.toNat with
    | .ok m => (m, .ok ())
    | .error bytes => (m, .error bytes)

end Ops

def clear (m : KaracMap K V) : KaracMap K V :=
  { m with status := fun s => if s < m.capacity then bucketEmpty else m.status s, len := 0, tombstones := 0 }

/-! The iterator. -/

/-- `karac_map_iter_next` from an index: the pair and the index to go on from. -/
def iterNext (m : KaracMap K V) : ℕ → ℕ → Option ((Option K × Option V) × ℕ)
  | 0, _ => none
  | fuel + 1, index =>
    if index < m.capacity then
      if isOccupied (m.status index) then some ((m.keys index, m.vals index), index + 1)
      else iterNext m fuel (index + 1)
    else none

/-- A full iteration: `iter_next` until it answers false. -/
def iterate (m : KaracMap K V) : ℕ → ℕ → List (Option K × Option V)
  | 0, _ => []
  | fuel + 1, index =>
    match m.iterNext (m.capacity + 1) index with
    | some (pair, index) => pair :: iterate m fuel index
    | none => []

end KaracMap

end Karac.Map
