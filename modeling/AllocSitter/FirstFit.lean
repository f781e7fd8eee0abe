/-
`allocator.c`: one first-fit free list, merging of free neighbours and resizing
in place.
-/
import AllocSitter.Allocator

namespace AllocSitter

namespace FirstFit

open ByteMemory LinkedChain

/-- The statics of `allocator.c`; its only list is indexed by `Unit`. -/
abbrev State := Globals Unit

/-- Take `header` off the free list; a block that is not on it is ignored. -/
def freelistRemove (s : State) (header : Nat) : Option State :=
  match walk (nextFree s.mem) 0 (s.freeHead ()) (· == header) walkFuel .head 0 with
  | none => none
  | some (steps, found) =>
      let s := { s with stat.removeSteps := ptrAdd s.stat.removeSteps steps }
      match found with
      | none => some s
      | some link => some (subFreelistLen (setLink s () link (nextFree s.mem header)))

/-- `allocator.c` keeps no account of live bytes. -/
def myMalloc (mmap : Mmap) (s : State) (size : Nat) : Option (State × Nat) :=
  mallocWith (fun _ => ()) (fun _ stat => stat) mmap s size

/-- The first half of `my_free`: swallow the right neighbour if it is free. -/
def mergeRight (s : State) (header : Nat) : Option State :=
  let size := tagSize (load s.mem header 4)
  let rightHeader := ptrAdd header size
  if rightHeader < s.heapHi ∧ load s.mem rightHeader 4 % 2 = 0 then do
    let s ← freelistRemove s rightHeader
    some { s with
      mem := setTags s.mem header (size + tagSize (load s.mem rightHeader 4)) }
  else some s

/-- The second half of `my_free`: let a left neighbour whose footer says free
swallow the block, and push what results. -/
def mergeLeft (s : State) (header : Nat) : Option State :=
  let leftFooter := ptrSub header 4
  let leftSize := tagSize (load s.mem leftFooter 4)
  if leftFooter > s.heapLo ∧ load s.mem leftFooter 4 % 2 = 0 then do
    let leftHeader := ptrAdd (ptrSub leftFooter leftSize) 4
    let s ← freelistRemove s leftHeader
    let tag := tagSize (load s.mem header 4) + tagSize (load s.mem leftHeader 4)
    let s := { s with mem := setTags s.mem leftHeader tag }
    some (freelistPush s leftHeader ())
  else some (freelistPush s header ())

def myFree (s : State) (ptr : Nat) : Option State :=
  if ptr = 0 then some s
  else
    let header := ptrSub ptr 4
    if load s.mem header 4 % 2 = 0 then some s
    else do
      -- Only the header loses its flag here: the footer keeps it unless a
      -- merge writes the tags again.
      let s := { s with mem := store s.mem header 4 (load s.mem header 4 / 2 * 2) }
      let s ← mergeRight s header
      mergeLeft s header

def myCalloc (mmap : Mmap) (s : State) (nmemb size : Nat) : Option (State × Nat) :=
  callocWith (myMalloc mmap) s nmemb size

/-- `(size + 8 + 15) & ~15u`: the mask is a 32-bit constant, so the bits from
32 on are cleared too. -/
def reallocSize (size : Nat) : Nat := tagSize ((size + 8 + 15) % 2 ^ 64 % 2 ^ 32)

/-- Growth over the free right neighbour, `rightHeader`. -/
def growInPlace (s : State) (ptr oldSize newSize rightHeader : Nat) :
    Option (State × Nat) := do
  let combined := oldSize + load s.mem rightHeader 4
  let s ← freelistRemove s rightHeader
  if combined ≥ newSize + 16 then
    let splitHeader := ptrSub (ptrAdd ptr newSize) 4
    let s := { s with mem := setTags s.mem splitHeader (combined - newSize) }
    let s := freelistPush s splitHeader ()
    let s := { s with mem := setTags s.mem (ptrSub ptr 4) (newSize ||| 1) }
    some (s, ptr)
  else
    let s := { s with mem := setTags s.mem (ptrSub ptr 4) (combined ||| 1) }
    some (s, ptr)

/-- Growth into a new block. -/
def moveBlock (mmap : Mmap) (s : State) (ptr oldSize newSize : Nat) :
    Option (State × Nat) := do
  let (s, newPtr) ← myMalloc mmap s newSize
  if newPtr = 0 then some (s, 0)
  else
    let s := { s with mem := copy s.mem newPtr ptr (ptrSub oldSize 8) }
    let s ← myFree s ptr
    some (s, newPtr)

/-- The block is large enough: cut off what is left over. -/
def shrinkInPlace (s : State) (ptr oldSize newSize : Nat) : State × Nat :=
  let leftover := oldSize - newSize
  if leftover ≥ 16 then
    let s := { s with mem := setTags s.mem (ptrSub ptr 4) (newSize ||| 1) }
    let freeHeader := ptrSub (ptrAdd ptr newSize) 4
    let s := { s with mem := setTags s.mem freeHeader leftover }
    (freelistPush s freeHeader (), ptr)
  else (s, ptr)

/-- `my_realloc` of a block to a nonzero size, with the request rounded to
`newSize`. -/
def resizeBlock (mmap : Mmap) (s : State) (ptr newSize : Nat) : Option (State × Nat) :=
  let oldSize := tagSize (load s.mem (ptrSub ptr 4) 4)
  if newSize > oldSize then
    let rightHeader := ptrAdd (ptrSub ptr 4) oldSize
    if rightHeader < s.heapHi ∧ load s.mem rightHeader 4 % 2 = 0 ∧
        oldSize + tagSize (load s.mem rightHeader 4) ≥ newSize then
      growInPlace s ptr oldSize newSize rightHeader
    else moveBlock mmap s ptr oldSize newSize
  else some (shrinkInPlace s ptr oldSize newSize)

def myRealloc (mmap : Mmap) (s : State) (ptr size : Nat) : Option (State × Nat) :=
  if ptr = 0 then myMalloc mmap s size
  else if size = 0 then do
    let s ← myFree s ptr
    some (s, 0)
  else resizeBlock mmap s ptr (reallocSize size)

/-- Clear the counters; the length of the list is state and is kept. -/
def allocStatReset (s : State) : State :=
  { s with stat := { freelistLen := s.stat.freelistLen } }

def api (mmap : Mmap) : Api Unit where
  malloc := myMalloc mmap
  calloc := myCalloc mmap
  free := myFree
  realloc := myRealloc mmap
  statReset := allocStatReset

end FirstFit

end AllocSitter
