/-
The client of an allocator: the calls it makes, the pointers it holds, and the
writes it makes to the blocks it holds.
-/
import AllocSitter.Allocator
import AllocSitter.Runs

namespace AllocSitter

open ByteMemory LinkedChain

variable {ι : Type}

/-- One action of the client. -/
inductive Call where
  | malloc (size : Nat)
  | calloc (nmemb size : Nat)
  | free (ptr : Nat)
  | realloc (ptr size : Nat)
  | write (addr : Nat) (byte : UInt8)
  | statReset
deriving Repr, DecidableEq

/-- The allocator's globals and the live pointers, each with the byte count
last requested for it. -/
structure Client (ι : Type) where
  heap : Globals ι
  live : List (Nat × Nat)

namespace Client

def initial (ι : Type) : Client ι := ⟨Globals.initial ι, []⟩

/-- Record a pointer that a call has returned. -/
def hold (live : List (Nat × Nat)) (ptr size : Nat) : List (Nat × Nat) :=
  if ptr = 0 then live else (ptr, size) :: live

/-- Forget a pointer that a call has consumed. -/
def drop (live : List (Nat × Nat)) (ptr : Nat) : List (Nat × Nat) :=
  live.filter fun entry => entry.1 ≠ ptr

/-- Execute one call: the client after it and the pointer returned (`0` where
the C function returns nothing). -/
def exec (api : Api ι) (w : Client ι) : Call → Option (Client ι × Nat)
  | .malloc size => do
      let (heap, p) ← api.malloc w.heap size
      some (⟨heap, hold w.live p size⟩, p)
  | .calloc nmemb size => do
      let (heap, p) ← api.calloc w.heap nmemb size
      some (⟨heap, hold w.live p (nmemb * size)⟩, p)
  | .free ptr => do
      let heap ← api.free w.heap ptr
      some (⟨heap, drop w.live ptr⟩, 0)
  | .realloc ptr size => do
      let (heap, q) ← api.realloc w.heap ptr size
      -- A failed resize leaves the old block with the client; a resize to zero
      -- returns `NULL` too, but has freed it.
      if q = 0 ∧ size ≠ 0 then some (⟨heap, w.live⟩, q)
      else some (⟨heap, hold (drop w.live ptr) q size⟩, q)
  | .write addr byte =>
      some (⟨{ w.heap with mem := Function.update w.heap.mem addr byte }, w.live⟩, 0)
  | .statReset => some (⟨api.statReset w.heap, w.live⟩, 0)

def step (api : Api ι) (w : Client ι) (call : Call) : Option (Client ι) :=
  (w.exec api call).map Prod.fst

theorem step_of_exec {api : Api ι} {w w' : Client ι} {call : Call} {p : Nat}
    (hexec : w.exec api call = some (w', p)) : w.step api call = some w' := by
  rw [step, hexec]
  rfl

/-- What a call does to the globals. -/
def heapAfter (api : Api ι) (s : Globals ι) : Call → Option (Globals ι)
  | .malloc size => (api.malloc s size).map Prod.fst
  | .calloc nmemb size => (api.calloc s nmemb size).map Prod.fst
  | .free ptr => api.free s ptr
  | .realloc ptr size => (api.realloc s ptr size).map Prod.fst
  | .write addr byte => some { s with mem := Function.update s.mem addr byte }
  | .statReset => some (api.statReset s)

theorem step_heap {api : Api ι} {w w' : Client ι} {call : Call}
    (hstep : w.step api call = some w') : heapAfter api w.heap call = some w'.heap := by
  obtain ⟨result, hexec, rfl⟩ := Option.map_eq_some_iff.mp hstep
  cases call with
  | malloc size =>
      obtain ⟨r, hcall, hr⟩ := Option.bind_eq_some_iff.mp hexec
      rw [heapAfter, hcall, ← Option.some.inj hr]
      rfl
  | calloc nmemb size =>
      obtain ⟨r, hcall, hr⟩ := Option.bind_eq_some_iff.mp hexec
      rw [heapAfter, hcall, ← Option.some.inj hr]
      rfl
  | free ptr =>
      obtain ⟨r, hcall, hr⟩ := Option.bind_eq_some_iff.mp hexec
      rw [heapAfter, hcall, ← Option.some.inj hr]
  | realloc ptr size =>
      obtain ⟨⟨heap, q⟩, hcall, hr⟩ := Option.bind_eq_some_iff.mp hexec
      rw [heapAfter, hcall]
      change (if q = 0 ∧ size ≠ 0 then _ else _) = _ at hr
      by_cases hfail : q = 0 ∧ size ≠ 0
      · rw [if_pos hfail] at hr
        rw [← Option.some.inj hr]
        rfl
      · rw [if_neg hfail] at hr
        rw [← Option.some.inj hr]
        rfl
  | write addr byte =>
      rw [← Option.some.inj hexec]
      rfl
  | statReset =>
      rw [← Option.some.inj hexec]
      rfl

section Exec

variable {api : Api ι} {w w' : Client ι} {p : Nat}

theorem exec_malloc {size : Nat} (hexec : w.exec api (.malloc size) = some (w', p)) :
    api.malloc w.heap size = some (w'.heap, p) ∧ w'.live = hold w.live p size := by
  obtain ⟨r, hcall, hr⟩ := Option.bind_eq_some_iff.mp hexec
  obtain ⟨rfl, rfl⟩ := Prod.mk.inj (Option.some.inj hr)
  exact ⟨hcall, rfl⟩

theorem exec_calloc {nmemb size : Nat} (hexec : w.exec api (.calloc nmemb size) = some (w', p)) :
    api.calloc w.heap nmemb size = some (w'.heap, p) ∧
      w'.live = hold w.live p (nmemb * size) := by
  obtain ⟨r, hcall, hr⟩ := Option.bind_eq_some_iff.mp hexec
  obtain ⟨rfl, rfl⟩ := Prod.mk.inj (Option.some.inj hr)
  exact ⟨hcall, rfl⟩

theorem exec_free {ptr : Nat} (hexec : w.exec api (.free ptr) = some (w', p)) :
    api.free w.heap ptr = some w'.heap ∧ w'.live = drop w.live ptr ∧ p = 0 := by
  obtain ⟨r, hcall, hr⟩ := Option.bind_eq_some_iff.mp hexec
  obtain ⟨rfl, rfl⟩ := Prod.mk.inj (Option.some.inj hr)
  exact ⟨hcall, rfl, rfl⟩

theorem exec_realloc {ptr size : Nat} (hexec : w.exec api (.realloc ptr size) = some (w', p)) :
    api.realloc w.heap ptr size = some (w'.heap, p) ∧
      w'.live = if p = 0 ∧ size ≠ 0 then w.live else hold (drop w.live ptr) p size := by
  obtain ⟨⟨heap, q⟩, hcall, hr⟩ := Option.bind_eq_some_iff.mp hexec
  dsimp only at hr
  by_cases hfail : q = 0 ∧ size ≠ 0
  · rw [if_pos hfail] at hr
    obtain ⟨rfl, rfl⟩ := Prod.mk.inj (Option.some.inj hr)
    exact ⟨hcall, (if_pos hfail).symm⟩
  · rw [if_neg hfail] at hr
    obtain ⟨rfl, rfl⟩ := Prod.mk.inj (Option.some.inj hr)
    exact ⟨hcall, (if_neg hfail).symm⟩

theorem exec_of_realloc {ptr size : Nat} {heap : Globals ι}
    (hcall : api.realloc w.heap ptr size = some (heap, p)) :
    w.exec api (.realloc ptr size) = some (⟨heap, if p = 0 ∧ size ≠ 0 then w.live
      else hold (drop w.live ptr) p size⟩, p) := by
  simp only [exec, hcall, Option.bind_eq_bind, Option.bind_some]
  split <;> rfl

/-- A resize to a nonzero size: the old pointer is kept or replaced. -/
theorem exec_resize {ptr size : Nat} (hpos : size ≠ 0)
    (hexec : w.exec api (.realloc ptr size) = some (w', p)) :
    api.realloc w.heap ptr size = some (w'.heap, p) ∧ (p = 0 → w'.live = w.live) ∧
      (p ≠ 0 → w'.live = (p, size) :: drop w.live ptr) := by
  obtain ⟨hcall, hlive⟩ := exec_realloc hexec
  refine ⟨hcall, fun hnull => ?_, fun hp => ?_⟩
  · rw [hlive, if_pos ⟨hnull, hpos⟩]
  · rw [hlive, if_neg fun hboth => hp hboth.1, hold, if_neg hp]

end Exec

def Holds (w : Client ι) (ptr : Nat) : Prop := ∃ size, (ptr, size) ∈ w.live

theorem holds_iff {w : Client ι} {ptr : Nat} :
    w.Holds ptr ↔ ∃ entry ∈ w.live, entry.1 = ptr := by
  constructor
  · rintro ⟨size, hmem⟩
    exact ⟨_, hmem, rfl⟩
  · rintro ⟨⟨_, size⟩, hmem, rfl⟩
    exact ⟨size, hmem⟩

instance (w : Client ι) (ptr : Nat) : Decidable (w.Holds ptr) :=
  decidable_of_iff _ holds_iff.symm

/-- The size in the header of the block at `ptr`. -/
def chunk (w : Client ι) (ptr : Nat) : Nat :=
  tagSize (load w.heap.mem (ptrSub ptr 4) 4)

/-- The discipline of the callers: pointers passed are `NULL` or live, sizes are
`size_t` values, and the client writes to payload bytes of live blocks only. -/
def Allows (w : Client ι) : Call → Prop
  | .malloc size => size < 2 ^ 64
  | .calloc nmemb size => nmemb < 2 ^ 64 ∧ size < 2 ^ 64
  | .free ptr => ptr = 0 ∨ w.Holds ptr
  | .realloc ptr size => (ptr = 0 ∨ w.Holds ptr) ∧ size < 2 ^ 64
  | .write addr _ => ∃ ptr, w.Holds ptr ∧ ptr ≤ addr ∧ addr + 8 < ptr + w.chunk ptr
  | .statReset => True

instance (w : Client ι) : ∀ call, Decidable (w.Allows call)
  | .malloc size => inferInstanceAs (Decidable (size < 2 ^ 64))
  | .calloc nmemb size => inferInstanceAs (Decidable (nmemb < 2 ^ 64 ∧ size < 2 ^ 64))
  | .free ptr => inferInstanceAs (Decidable (ptr = 0 ∨ w.Holds ptr))
  | .realloc ptr size =>
      inferInstanceAs (Decidable ((ptr = 0 ∨ w.Holds ptr) ∧ size < 2 ^ 64))
  | .write addr _ => decidable_of_iff
      (∃ entry ∈ w.live, entry.1 ≤ addr ∧ addr + 8 < entry.1 + w.chunk entry.1)
      ⟨fun ⟨entry, hmem, h⟩ => ⟨entry.1, ⟨entry.2, hmem⟩, h⟩,
        fun ⟨ptr, ⟨size, hmem⟩, h⟩ => ⟨(ptr, size), hmem, h⟩⟩
  | .statReset => .isTrue trivial

end Client

/-- Byte counts requested by `my_malloc` and `my_calloc`, and by `my_realloc`,
are bounded. -/
def Call.Within (allocMax reallocMax : Nat) : Call → Prop
  | .malloc size => size ≤ allocMax
  | .calloc nmemb size => nmemb * size ≤ allocMax
  | .realloc _ size => size ≤ reallocMax
  | _ => True

instance (allocMax reallocMax : Nat) : ∀ call, Decidable (Call.Within allocMax reallocMax call)
  | .malloc size => inferInstanceAs (Decidable (size ≤ allocMax))
  | .calloc nmemb size => inferInstanceAs (Decidable (nmemb * size ≤ allocMax))
  | .free _ => .isTrue trivial
  | .realloc _ size => inferInstanceAs (Decidable (size ≤ reallocMax))
  | .write _ _ => .isTrue trivial
  | .statReset => .isTrue trivial

/-- A call that a well-behaved client may make, with bounded byte counts. -/
def Client.Disciplined (allocMax reallocMax : Nat) (w : Client ι) (call : Call) : Prop :=
  w.Allows call ∧ call.Within allocMax reallocMax

instance (allocMax reallocMax : Nat) (w : Client ι) (call : Call) :
    Decidable (w.Disciplined allocMax reallocMax call) :=
  inferInstanceAs (Decidable (_ ∧ _))

/-- The scan of `my_malloc` for this request ends without a block. -/
def ScanMisses [DecidableEq ι] (binOf : Nat → ι) (s : Globals ι) (size : Nat) :
    Prop :=
  ∃ steps, walk (nextFree s.mem) 0 (s.freeHead (binOf (chunkNeed size)))
    (fits s.mem (chunkNeed size)) walkFuel .head 0 = some (steps, none)

instance [DecidableEq ι] (binOf : Nat → ι) (s : Globals ι) (size : Nat) :
    Decidable (ScanMisses binOf s size) :=
  match hwalk : walk (nextFree s.mem) 0 (s.freeHead (binOf (chunkNeed size)))
      (fits s.mem (chunkNeed size)) walkFuel .head 0 with
  | none => .isFalse fun ⟨_, h⟩ => by simp [hwalk] at h
  | some (_, some _) => .isFalse fun ⟨_, h⟩ => by simp [hwalk] at h
  | some (steps, none) => .isTrue ⟨steps, hwalk⟩

/-- The arena can be asked for `need` bytes without harm: the sum that
`arena_extend` compares with the end does not wrap around the address space, and
when `mmap` fails for the first `arena_extend(0)`, whose failure is not checked,
it fails for the second call too or the request is refused for its size. -/
def ArenaSafe (mmap : Mmap) (s : Globals ι) (need : Nat) : Prop :=
  if s.arenaBase = 0 then
    match mmap s.mmapCalls with
    | some base => base + need + 12 < 2 ^ 64
    | none =>
        match mmap (s.mmapCalls + 1) with
        | some base => arenaSize < need + 13 ∧ base + need + 13 < 2 ^ 64
        | none => True
  else s.arenaCur + need + ptrSub 12 s.arenaCur % 16 < 2 ^ 64

instance (mmap : Mmap) (s : Globals ι) (need : Nat) : Decidable (ArenaSafe mmap s need) :=
  if hbase : s.arenaBase = 0 then
    match hfirst : mmap s.mmapCalls, hsecond : mmap (s.mmapCalls + 1) with
    | some base, _ => decidable_of_iff (base + need + 12 < 2 ^ 64)
        (by simp only [ArenaSafe, hbase, hfirst, ↓reduceIte])
    | none, some base =>
        decidable_of_iff (arenaSize < need + 13 ∧ base + need + 13 < 2 ^ 64)
          (by simp only [ArenaSafe, hbase, hfirst, hsecond, ↓reduceIte])
    | none, none => .isTrue (by simp only [ArenaSafe, hbase, hfirst, hsecond, ↓reduceIte])
  else decidable_of_iff (s.arenaCur + need + ptrSub 12 s.arenaCur % 16 < 2 ^ 64)
    (by simp only [ArenaSafe, hbase, ↓reduceIte])

/-- A request that reaches the arena reaches it safely. -/
def RequestSafe [DecidableEq ι] (binOf : Nat → ι) (mmap : Mmap) (s : Globals ι)
    (size : Nat) : Prop :=
  ScanMisses binOf s size → ArenaSafe mmap s (chunkNeed size)

instance [DecidableEq ι] (binOf : Nat → ι) (mmap : Mmap) (s : Globals ι) (size : Nat) :
    Decidable (RequestSafe binOf mmap s size) :=
  inferInstanceAs (Decidable (_ → _))

/-- The byte count with which `my_calloc` calls `my_malloc`, if it does. -/
def callocRequest (nmemb size : Nat) : Option Nat :=
  if nmemb = 0 ∨ size = 0 then none
  else if nmemb > (2 ^ 64 - 1) / size then none
  else some (nmemb * size)

/-- Whatever a call passes on to `my_malloc` is safe. -/
def PassesSafely [DecidableEq ι] (binOf : Nat → ι) (mmap : Mmap) (s : Globals ι)
    (request : Option Nat) : Prop :=
  ∀ n, request = some n → RequestSafe binOf mmap s n

instance [DecidableEq ι] (binOf : Nat → ι) (mmap : Mmap) (s : Globals ι) :
    ∀ request, Decidable (PassesSafely binOf mmap s request)
  | none => .isTrue fun _ h => by simp at h
  | some n => decidable_of_iff (RequestSafe binOf mmap s n)
      ⟨fun h _ hn => Option.some.inj hn ▸ h, fun h => h n rfl⟩

end AllocSitter
