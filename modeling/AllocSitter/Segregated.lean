/-
`segregated_allocator.c`: eleven free lists by size class, splitting inside a
class, no merging, and an account of live bytes.
-/
import AllocSitter.Allocator

namespace AllocSitter

namespace Segregated

open ByteMemory LinkedChain

/-- `NUM_BINS` lists. -/
abbrev Bin := Fin 11

abbrev State := Globals Bin

/-- `size_to_bin`. -/
def sizeToBin (size : Nat) : Bin :=
  if size ≤ 16 then 0
  else if size ≤ 32 then 1
  else if size ≤ 64 then 2
  else if size ≤ 80 then 3
  else if size ≤ 96 then 4
  else if size ≤ 112 then 5
  else if size ≤ 128 then 6
  else if size ≤ 256 then 7
  else if size ≤ 512 then 8
  else if size ≤ 1024 then 9
  else 10

/-- `live_add`: count the bytes in and raise the peak. -/
def liveAdd (n : Nat) (stat : AllocStat) : AllocStat :=
  let stat := { stat with liveRealBytes := ptrAdd stat.liveRealBytes n }
  if stat.liveRealBytes > stat.peakLiveRealBytes then
    { stat with peakLiveRealBytes := stat.liveRealBytes }
  else stat

def myMalloc (mmap : Mmap) (s : State) (size : Nat) : Option (State × Nat) :=
  mallocWith sizeToBin liveAdd mmap s size

def myFree (s : State) (ptr : Nat) : State :=
  if ptr = 0 then s
  else
    let header := ptrSub ptr 4
    if load s.mem header 4 % 2 = 0 then s
    else
      let s := { s with mem := store s.mem header 4 (load s.mem header 4 / 2 * 2) }
      let live := ptrSub s.stat.liveRealBytes (tagSize (load s.mem header 4))
      let s := { s with stat.liveRealBytes := live }
      freelistPush s header (sizeToBin (load s.mem header 4))

def myCalloc (mmap : Mmap) (s : State) (nmemb size : Nat) : Option (State × Nat) :=
  callocWith (myMalloc mmap) s nmemb size

/-- The `memcpy` of `my_realloc`: not beyond the old payload, whose length is
computed in 32 bits. -/
def copyOver (s : State) (ptr newPtr size : Nat) : State :=
  let oldPayload := (2 ^ 32 - 8 + tagSize (load s.mem (ptrSub ptr 4) 4)) % 2 ^ 32
  let len := if oldPayload < size then oldPayload else size
  { s with mem := copy s.mem newPtr ptr len }

/-- Always a new block, a copy and a free of the old one. -/
def myRealloc (mmap : Mmap) (s : State) (ptr size : Nat) : Option (State × Nat) :=
  if ptr = 0 then myMalloc mmap s size
  else if size = 0 then some (myFree s ptr, 0)
  else do
    let (s, newPtr) ← myMalloc mmap s size
    if newPtr = 0 then some (s, 0)
    else some (myFree (copyOver s ptr newPtr size) ptr, newPtr)

/-- `alloc_stat_get().arena_used_bytes`. -/
def arenaUsedBytes (s : State) : Nat :=
  if s.arenaBase = 0 then 0 else ptrSub s.arenaCur s.arenaBase

/-- Clear the counters; list length and live bytes are state and are kept, and
the peak starts again from the live bytes. -/
def allocStatReset (s : State) : State :=
  { s with stat :=
    { freelistLen := s.stat.freelistLen
      liveRealBytes := s.stat.liveRealBytes
      peakLiveRealBytes := s.stat.liveRealBytes } }

def api (mmap : Mmap) : Api Bin where
  malloc := myMalloc mmap
  calloc := myCalloc mmap
  free := fun s ptr => some (myFree s ptr)
  realloc := myRealloc mmap
  statReset := allocStatReset

end Segregated

end AllocSitter
