/-
The code that `allocator.c` and `segregated_allocator.c` share: the arena, the
boundary tags, the intrusive free lists, `my_malloc` and `my_calloc`.  The two
files differ here only in how many lists there are (one, or one per bin) and in
the accounting of live bytes, which are parameters.

Addresses and `size_t` values are naturals below `2 ^ 64`; pointer and size
arithmetic wraps explicitly, and a tag is stored as a 32-bit word.
-/
import AllocSitter.ByteMemory
import AllocSitter.LinkedChain
import Mathlib.Logic.Function.Basic

namespace AllocSitter

open ByteMemory LinkedChain

-- The unknown stands second in both sums, so that unfolding one of them stops
-- there and does not count through a large literal.

/-- `p + n` in 64-bit arithmetic, on pointers and on unsigned integers. -/
def ptrAdd (p n : Nat) : Nat := (n + p) % 2 ^ 64

/-- `p - n` in 64-bit arithmetic, for `n ≤ 2 ^ 64`. -/
def ptrSub (p n : Nat) : Nat := (2 ^ 64 - n + p) % 2 ^ 64

/-- `tag & ~15`. -/
def tagSize (tag : Nat) : Nat := tag / 16 * 16

/-- `(size + 4 + 4 + 15) & ~(size_t)15`. -/
def chunkNeed (size : Nat) : Nat := tagSize ((size + 4 + 4 + 15) % 2 ^ 64)

/-- `ARENA_SIZE`: 4 GiB. -/
def arenaSize : Nat := 4 * 2 ^ 30

/-- `(void*)-1`, both `MAP_FAILED` and the failure value of `arena_extend`. -/
def mapFailed : Nat := 2 ^ 64 - 1

/-- The answers of `mmap`: the `k`-th call fails or returns a region. -/
abbrev Mmap := Nat → Option Nat

/-- What is assumed of `mmap`: a region it returns is page-aligned, does not
start at `NULL` and does not wrap around the address space.  Each call may fail,
whatever the calls before it did. -/
def Mmap.Sound (mmap : Mmap) : Prop :=
  ∀ k base, mmap k = some base →
    base % 4096 = 0 ∧ 4096 ≤ base ∧ base + arenaSize < 2 ^ 64

/-- What is known of `mmap` besides: a region lies in the lower half of the address
space, where user space is, and below the last page of it, which is never mapped. -/
def Mmap.InUserSpace (mmap : Mmap) : Prop :=
  ∀ k base, mmap k = some base → base + arenaSize + 4096 ≤ 2 ^ 63

/-- `AllocStat`. -/
structure AllocStat where
  scanSteps : Nat := 0
  removeSteps : Nat := 0
  freelistLen : Nat := 0
  realBytes : Nat := 0
  liveRealBytes : Nat := 0
  peakLiveRealBytes : Nat := 0
  arenaUsedBytes : Nat := 0
deriving Repr, DecidableEq

/-- The static variables of one allocator together with the memory they point
into, in which an address that is not mapped can be read and written as well.
`ι` indexes the free lists: `Unit` for a single list. -/
structure Globals (ι : Type) where
  mem : Memory
  freeHead : ι → Nat
  stat : AllocStat
  heapLo : Nat
  heapHi : Nat
  arenaBase : Nat
  arenaCur : Nat
  arenaEnd : Nat
  /-- How often `mmap` has been called so far. -/
  mmapCalls : Nat

/-- The state of a process that has not called the allocator yet. -/
def Globals.initial (ι : Type) : Globals ι where
  mem := fun _ => 0
  freeHead := fun _ => 0
  stat := {}
  heapLo := 0
  heapHi := 0
  arenaBase := 0
  arenaCur := 0
  arenaEnd := 0
  mmapCalls := 0

variable {ι : Type}

/-- `arena_extend` once the region exists. -/
def moveBreak (s : Globals ι) (n : Nat) : Globals ι × Nat :=
  if n = 0 then (s, s.arenaCur)
  else if ptrAdd s.arenaCur n > s.arenaEnd then (s, mapFailed)
  else ({ s with arenaCur := ptrAdd s.arenaCur n }, s.arenaCur)

/-- The first call that gets a region from `mmap` installs it. -/
def installArena (s : Globals ι) (base : Nat) : Globals ι :=
  { s with
    mem := fill s.mem base arenaSize 0
    arenaBase := base
    arenaCur := base
    arenaEnd := ptrAdd base arenaSize
    mmapCalls := s.mmapCalls + 1 }

def arenaExtend (mmap : Mmap) (s : Globals ι) (n : Nat) : Globals ι × Nat :=
  if s.arenaBase = 0 then
    match mmap s.mmapCalls with
    | none => ({ s with mmapCalls := s.mmapCalls + 1 }, mapFailed)
    | some base => moveBreak (installArena s base) n
  else moveBreak s n

/-- Write a tag to the header and to the footer, whose place is computed from
the size in the tag. -/
def setTags (m : Memory) (header tag : Nat) : Memory :=
  let tag := tag % 2 ^ 32
  let m := store m header 4 tag
  store m (ptrSub (ptrAdd header (tagSize tag)) 4) 4 tag

/-- A free block keeps the pointer to the next one in its first payload word. -/
def nextFree (m : Memory) (header : Nat) : Nat := load m (ptrAdd header 4) 8

/-- `*link = value` for a link of list `bin`. -/
def setLink [DecidableEq ι] (s : Globals ι) (bin : ι) (link : Link Nat)
    (value : Nat) : Globals ι :=
  match link with
  | .head => { s with freeHead := Function.update s.freeHead bin value }
  | .after header => { s with mem := store s.mem (ptrAdd header 4) 8 value }

def addFreelistLen (s : Globals ι) : Globals ι :=
  { s with stat.freelistLen := ptrAdd s.stat.freelistLen 1 }

def subFreelistLen (s : Globals ι) : Globals ι :=
  { s with stat.freelistLen := ptrSub s.stat.freelistLen 1 }

def freelistPush [DecidableEq ι] (s : Globals ι) (header : Nat) (bin : ι) :
    Globals ι :=
  let s := { s with mem := store s.mem (ptrAdd header 4) 8 (s.freeHead bin) }
  let s := { s with freeHead := Function.update s.freeHead bin header }
  addFreelistLen s

/-- More steps than there are places to keep a link: a walk that is still going
has come back to a link it has seen and never ends. -/
def walkFuel : Nat := 2 ^ 64 + 2

/-- The two tests on which the scan of `my_malloc` stops. -/
def fits (m : Memory) (need header : Nat) : Bool :=
  let chunk := tagSize (load m header 4)
  decide (ptrAdd need 16 ≤ chunk) || decide (need ≤ chunk)

def addScanSteps (s : Globals ι) (steps : Nat) : Globals ι :=
  { s with stat.scanSteps := ptrAdd s.stat.scanSteps steps }

def addRealBytes (stat : AllocStat) (n : Nat) : AllocStat :=
  { stat with realBytes := ptrAdd stat.realBytes n }

section Malloc

variable [DecidableEq ι] (binOf : Nat → ι) (account : Nat → AllocStat → AllocStat)

/-- The branch of the scan that cuts `need` bytes off the block at `h`. -/
def splitBlock (s : Globals ι) (bin : ι) (link : Link Nat) (h chunk need : Nat) :
    Globals ι × Nat :=
  let s := { s with stat := account need (addRealBytes s.stat need) }
  let s := { s with mem := setTags s.mem h (need ||| 1) }
  let payload := ptrAdd h 4
  let splitHeader := ptrAdd h need
  let s := { s with mem := setTags s.mem splitHeader (ptrSub chunk need) }
  let s := setLink s bin link (load s.mem payload 8)
  let s := subFreelistLen s
  let s := freelistPush s splitHeader (binOf (load s.mem splitHeader 4))
  (s, payload)

/-- The branch of the scan that hands out the block at `h` as it is. -/
def wholeBlock (s : Globals ι) (bin : ι) (link : Link Nat) (h chunk : Nat) :
    Globals ι × Nat :=
  let s := { s with mem := setTags s.mem h (chunk ||| 1) }
  let s := { s with stat := account chunk (addRealBytes s.stat chunk) }
  let payload := ptrAdd h 4
  let s := setLink s bin link (load s.mem payload 8)
  let s := subFreelistLen s
  (s, payload)

/-- The part of `my_malloc` after an unsuccessful scan. -/
def extendHeap (mmap : Mmap) (s : Globals ι) (need : Nat) : Globals ι × Nat :=
  let (s, cur) := arenaExtend mmap s 0
  let pad := ptrSub 12 cur % 16
  let (s, p) := arenaExtend mmap s (ptrAdd need pad)
  let (s, hi) := arenaExtend mmap s 0
  let s := { s with heapHi := hi }
  if p = mapFailed then (s, 0)
  else
    let s := { s with stat := account need (addRealBytes s.stat (ptrAdd need pad)) }
    let header := ptrAdd p pad
    let payload := ptrAdd header 4
    let s := { s with mem := setTags s.mem header (need % 2 ^ 32 ||| 1) }
    let s := if s.heapLo = 0 then { s with heapLo := header } else s
    (s, payload)

/-- `my_malloc` over the lists indexed by `binOf`; `account` is what the file
does to its statistics for a block handed out.  `none` is a scan that does not
end. -/
def mallocWith (mmap : Mmap) (s : Globals ι) (size : Nat) :
    Option (Globals ι × Nat) :=
  let need := chunkNeed size
  let bin := binOf need
  match walk (nextFree s.mem) 0 (s.freeHead bin) (fits s.mem need)
      walkFuel .head 0 with
  | none => none
  | some (steps, some link) =>
      let s := addScanSteps s steps
      let h := link.target (nextFree s.mem) (s.freeHead bin)
      let chunk := tagSize (load s.mem h 4)
      if ptrAdd need 16 ≤ chunk then
        some (splitBlock binOf account s bin link h chunk need)
      else some (wholeBlock account s bin link h chunk)
  | some (steps, none) =>
      some (extendHeap account mmap (addScanSteps s steps) need)

end Malloc

/-- `my_calloc` over a `my_malloc`. -/
def callocWith (malloc : Globals ι → Nat → Option (Globals ι × Nat))
    (s : Globals ι) (nmemb size : Nat) : Option (Globals ι × Nat) :=
  if nmemb = 0 ∨ size = 0 then some (s, 0)
  else if nmemb > (2 ^ 64 - 1) / size then some (s, 0)
  else do
    let total := nmemb * size % 2 ^ 64
    let (s, p) ← malloc s total
    if p = 0 then some (s, p)
    else some ({ s with mem := fill s.mem p total 0 }, p)

/-- The interface both headers declare.  A call that does not return is `none`. -/
structure Api (ι : Type) where
  malloc : Globals ι → Nat → Option (Globals ι × Nat)
  calloc : Globals ι → Nat → Nat → Option (Globals ι × Nat)
  free : Globals ι → Nat → Option (Globals ι)
  realloc : Globals ι → Nat → Nat → Option (Globals ι × Nat)
  statReset : Globals ι → Globals ι

end AllocSitter
