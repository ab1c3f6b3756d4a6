import Karac.Lib.Interleaving
import Karac.Lib.BlockHeap

/-! `buf_cache`: large buffers that are freed are parked in sixteen slots and handed out again. Any number of threads
allocates and frees; the cache is touched under its lock only, and `malloc` and `free` are the system's. -/

namespace Karac.Runtime.BufCache

def usizeMax : ℕ := 2 ^ 64 - 1

def satAdd (a b : ℕ) : ℕ := min (a + b) usizeMax

def satMul (a b : ℕ) : ℕ := min (a * b) usizeMax

def karacMaxAllocBytes : ℕ := 2 ^ 61 - 1

def bufCacheMinBytes : ℕ := 2 ^ 20

def maxTotal : ℕ := 128 * 2 ^ 20

def bracketSlots : ℕ := 2

abbrev SlotIndex := Fin 16

/-- An address is 0 in an empty slot. -/
structure Slot where
  ptr : ℕ
  usable : ℕ
deriving DecidableEq

structure Cache where
  slots : SlotIndex → Slot
  total : ℕ

def Cache.init : Cache := ⟨fun _ => ⟨0, 0⟩, 0⟩

def better (c : Cache) (size : ℕ) (best : Option SlotIndex) (i : SlotIndex) : Option SlotIndex :=
  if (c.slots i).ptr ≠ 0 ∧ size ≤ (c.slots i).usable ∧ (c.slots i).usable ≤ satMul size 2 ∧
      ∀ j ∈ best, (c.slots i).usable < (c.slots j).usable then some i
  else best

/-- The slot of the best fit. -/
def bestFit (c : Cache) (size : ℕ) : Option SlotIndex := (List.finRange 16).foldl (better c size) none

def take (size : ℕ) (c : Cache) : ℕ × Cache :=
  match bestFit c size with
  | some i => ((c.slots i).ptr, ⟨Function.update c.slots i ⟨0, 0⟩, c.total - (c.slots i).usable⟩)
  | none => (0, c)

def leadingZeros (n : ℕ) : ℕ := 64 - n.size

def bracket (usable : ℕ) : ℕ := 64 - 1 - leadingZeros usable

/-- The first empty slot, and how many buffers the bracket holds. -/
def scan (c : Cache) (usable : ℕ) (found : Option SlotIndex × ℕ) (i : SlotIndex) : Option SlotIndex × ℕ :=
  if (c.slots i).ptr = 0 then (found.1.or (some i), found.2)
  else if bracket (c.slots i).usable = bracket usable then (found.1, satAdd found.2 1)
  else found

/-- The locked part of `put`: whether the buffer is parked. -/
def park (ptr usable : ℕ) (c : Cache) : Bool × Cache :=
  if satAdd c.total usable > maxTotal then (false, c)
  else
    let found := (List.finRange 16).foldl (scan c usable) (none, 0)
    if found.2 ≥ bracketSlots then (false, c)
    else
      match found.1 with
      | none => (false, c)
      | some i => (true, ⟨Function.update c.slots i ⟨ptr, usable⟩, satAdd c.total usable⟩)

/-- `put`, with what the allocator says of the buffer. -/
def put (ptr usable : ℕ) (c : Cache) : Bool × Cache := if bufCacheMinBytes ≤ usable then park ptr usable c else (false, c)

/-! The threads. -/

/-- Where a thread is: outside, or in `karac_alloc_fallible` before the cache is tried, before `malloc` and before the
return, or in `karac_free_buf` before the cache is tried and before `free`. -/
inductive Pc
  | idle
  | taking (size n : ℕ)
  | mallocing (size n : ℕ)
  | returning (size ptr : ℕ)
  | putting (ptr : ℕ)
  | freeing (ptr : ℕ)
deriving DecidableEq

variable {Thread : Type} [DecidableEq Thread]

/-- The live blocks with their usable sizes, the cache, the threads, and the blocks that the program has. -/
structure State (Thread : Type) where
  heap : ℕ → Option ℕ
  cache : Cache
  threads : Thread → Pc
  held : Finset ℕ

def State.init : State Thread := ⟨fun _ => none, .init, fun _ => .idle, ∅⟩

namespace State

variable (s : State Thread)

def setPc (t : Thread) (pc : Pc) : State Thread := { s with threads := Function.update s.threads t pc }

/-- The call of `karac_alloc_fallible`; `enabled` is what the environment says. -/
def karacAllocFallible (t : Thread) (size : ℕ) (enabled : Bool) : State Thread :=
  if size > karacMaxAllocBytes then s.setPc t (.returning size 0)
  else
    let n := if size = 0 then 1 else size
    if n ≥ bufCacheMinBytes ∧ enabled = true then s.setPc t (.taking size n) else s.setPc t (.mallocing size n)

def doTake (t : Thread) (size n : ℕ) : State Thread :=
  let taken := take n s.cache
  let s' := { s with cache := taken.2 }
  if taken.1 ≠ 0 then s'.setPc t (.returning size taken.1) else s'.setPc t (.mallocing size n)

/-- `malloc` gives a new block. -/
def doMalloc (t : Thread) (size ptr usable : ℕ) : State Thread :=
  { s with heap := Function.update s.heap ptr (some usable) }.setPc t (.returning size ptr)

/-- The caller has the block, if it got one. -/
def doReturn (t : Thread) (ptr : ℕ) : State Thread :=
  { s with held := if ptr = 0 then s.held else insert ptr s.held }.setPc t .idle

/-- The call of `karac_free_buf`. -/
def karacFreeBuf (t : Thread) (ptr bytesHint : ℕ) (enabled : Bool) : State Thread :=
  if ptr = 0 then s
  else
    let s' := { s with held := s.held.erase ptr }
    if bytesHint ≠ 0 ∧ bytesHint < bufCacheMinBytes then s'.setPc t (.freeing ptr)
    else if enabled then s'.setPc t (.putting ptr)
    else s'.setPc t (.freeing ptr)

def doPut (t : Thread) (ptr usable : ℕ) : State Thread :=
  let putted := put ptr usable s.cache
  let s' := { s with cache := putted.2 }
  if putted.1 then s'.setPc t .idle else s'.setPc t (.freeing ptr)

def doFree (t : Thread) (ptr : ℕ) : State Thread :=
  { s with heap := Function.update s.heap ptr none }.setPc t .idle

end State

inductive Action (Thread : Type)
  | alloc (t : Thread) (size : ℕ) (enabled : Bool)
  | take (t : Thread)
  /-- What `malloc` answers: a block and its usable size, or nothing. -/
  | malloc (t : Thread) (block : Option (ℕ × ℕ))
  | ret (t : Thread)
  | freeBuf (t : Thread) (ptr bytesHint : ℕ) (enabled : Bool)
  | put (t : Thread)
  | free (t : Thread)

/-- `malloc` is correct: a new block holds the request. -/
def Mallocs (s : State Thread) (n ptr usable : ℕ) : Prop :=
  ptr ≠ 0 ∧ s.heap ptr = none ∧ n ≤ usable ∧ usable ≤ usizeMax

instance (s : State Thread) (n ptr usable : ℕ) : Decidable (Mallocs s n ptr usable) :=
  inferInstanceAs (Decidable (_ ∧ _))

/-- A buffer is freed by its owner: the program has it. -/
def step (s : State Thread) : Action Thread → Option (State Thread)
  | .alloc t size enabled => if s.threads t = .idle then some (s.karacAllocFallible t size enabled) else none
  | .take t =>
    match s.threads t with
    | .taking size n => some (s.doTake t size n)
    | _ => none
  | .malloc t block =>
    match s.threads t, block with
    | .mallocing size n, some (ptr, usable) => if Mallocs s n ptr usable then some (s.doMalloc t size ptr usable) else none
    | .mallocing size _, none => some (s.setPc t (.returning size 0))
    | _, _ => none
  | .ret t =>
    match s.threads t with
    | .returning _ ptr => some (s.doReturn t ptr)
    | _ => none
  | .freeBuf t ptr bytesHint enabled =>
    if s.threads t = .idle ∧ (ptr = 0 ∨ ptr ∈ s.held) then some (s.karacFreeBuf t ptr bytesHint enabled) else none
  | .put t =>
    match s.threads t with
    | .putting ptr => (s.heap ptr).map fun usable => s.doPut t ptr usable
    | _ => none
  | .free t =>
    match s.threads t with
    | .freeing ptr => some (s.doFree t ptr)
    | _ => none

def run (as : List (Action Thread)) : Option (State Thread) := Lib.runSteps step .init as

/-! The ownership. -/

inductive Owner (Thread : Type)
  | program
  /-- A call in progress. -/
  | call (t : Thread)
  | slot (i : SlotIndex)

def Pc.block : Pc → ℕ
  | .returning _ ptr => ptr
  | .putting ptr => ptr
  | .freeing ptr => ptr
  | _ => 0

def State.Owns (s : State Thread) (p : ℕ) : Owner Thread → Prop
  | .program => p ∈ s.held
  | .call t => p ≠ 0 ∧ (s.threads t).block = p
  | .slot i => p ≠ 0 ∧ (s.cache.slots i).ptr = p

def State.Live (s : State Thread) (p : ℕ) : Prop := ∃ usable, s.heap p = some usable

/-- The parked buffers of `2 ^ k` to `2 ^ (k + 1)` bytes. -/
def Cache.inBracket (c : Cache) (k : ℕ) : Finset SlotIndex :=
  {i | (c.slots i).ptr ≠ 0 ∧ 2 ^ k ≤ (c.slots i).usable ∧ (c.slots i).usable < 2 ^ (k + 1)}

/-- The conservation of ownership. -/
structure State.Conserves (s : State Thread) : Prop where
  exclusive : Lib.Exclusive s.Live s.Owns
  /-- A block that is returned for a request holds it. -/
  fits : ∀ t size ptr usable, s.threads t = .returning size ptr → s.heap ptr = some usable → size ≤ usable
  parked : ∀ i, (s.cache.slots i).ptr ≠ 0 → s.heap (s.cache.slots i).ptr = some (s.cache.slots i).usable
  empty : ∀ i, (s.cache.slots i).ptr = 0 → (s.cache.slots i).usable = 0
  total : s.cache.total = ∑ i, (s.cache.slots i).usable
  cap : s.cache.total ≤ maxTotal
  brackets : ∀ k, (s.cache.inBracket k).card ≤ bracketSlots

end Karac.Runtime.BufCache
