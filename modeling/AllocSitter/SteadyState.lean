/-
Repeated workloads on `segregated_allocator.c`.  A trace names its pointers by the
calls that produced them, so that it can be executed again.  Splits are for good,
as there is no merging, and a trace that splits may need new blocks each time; an
execution that does not split finds every block it needs, whatever the one before did.
-/
import AllocSitter.Accounting

namespace AllocSitter

namespace Segregated

open ByteMemory LinkedChain Tiling

/-- A call of a trace; a pointer is named by the position of the call that
returned it, and no name is `NULL`. -/
inductive Op where
  | malloc (size : Nat)
  | calloc (nmemb size : Nat)
  | realloc (name : Option Nat) (size : Nat)
  | free (name : Option Nat)
deriving Repr, DecidableEq

/-- The pointer behind a name, with the pointers returned so far. -/
def pointer (pointers : List Nat) : Option Nat → Nat
  | none => 0
  | some name => pointers.getD name 0

namespace Op

def call (pointers : List Nat) : Op → Call
  | .malloc size => .malloc size
  | .calloc nmemb size => .calloc nmemb size
  | .realloc name size => .realloc (pointer pointers name) size
  | .free name => .free (pointer pointers name)

/-- The call asks for a block. -/
def asks : Op → Bool
  | .malloc _ => true
  | .calloc _ _ => true
  | .realloc name size => name.isNone || size != 0
  | .free _ => false

/-- The size of the chunk that is asked for. -/
def chunk : Op → Nat
  | .malloc size => chunkNeed size
  | .calloc nmemb size => chunkNeed (nmemb * size)
  | .realloc _ size => chunkNeed size
  | .free _ => 0

/-- The names that are live after the call at position `i`; a call may only use a
name that is live. -/
def names (i : Nat) (live : List Nat) : Op → Option (List Nat)
  | .malloc _ => some (i :: live)
  | .calloc _ _ => some (i :: live)
  | .realloc none _ => some (i :: live)
  | .realloc (some name) size =>
      if name ∈ live then
        some (if size = 0 then live.erase name else i :: live.erase name)
      else none
  | .free none => some live
  | .free (some name) => if name ∈ live then some (live.erase name) else none

end Op

/-- The names that are live after a trace. -/
def liveNames : Nat → List Nat → List Op → Option (List Nat)
  | _, live, [] => some live
  | i, live, op :: rest => (op.names i live).bind fun live' => liveNames (i + 1) live' rest

/-- After the trace every block it has obtained has been freed. -/
def Balanced (trace : List Op) : Prop := liveNames 0 [] trace = some []

instance (trace : List Op) : Decidable (Balanced trace) :=
  inferInstanceAs (Decidable (_ = _))

/-- An execution in progress: the heap, and what each call has returned. -/
structure Running where
  heap : State
  pointers : List Nat

/-- What a call does to the heap, and what it returns. -/
def serve (mmap : Mmap) (s : State) : Call → Option (State × Nat)
  | .malloc size => myMalloc mmap s size
  | .calloc nmemb size => myCalloc mmap s nmemb size
  | .realloc ptr size => myRealloc mmap s ptr size
  | .free ptr => some (myFree s ptr, 0)
  | _ => some (s, 0)

def Running.step (mmap : Mmap) (r : Running) (op : Op) : Option Running :=
  (serve mmap r.heap (op.call r.pointers)).map fun result =>
    ⟨result.1, r.pointers ++ [result.2]⟩

/-- Execute a trace once. -/
def execute (mmap : Mmap) (trace : List Op) (s : State) : Option State :=
  (Runs.run (Running.step mmap) ⟨s, []⟩ trace).map Running.heap

/-- The heap after `n` executions, one after the other. -/
def executions (mmap : Mmap) (trace : List Op) : Nat → Option State
  | 0 => some (Globals.initial Bin)
  | n + 1 => (executions mmap trace n).bind (execute mmap trace)

instance (mmap : Mmap) (s : State) (call : Call) : Decidable (Safe mmap s call) :=
  inferInstanceAs (Decidable (∀ n ∈ request call, n + 40 ≤ 2 ^ 64 ∧ RequestSafe sizeToBin mmap s n))

/-- The call does not fail, and its request reaches the arena safely. -/
def Succeeds (mmap : Mmap) (r : Running) (op : Op) : Prop :=
  Safe mmap r.heap (op.call r.pointers) ∧
    ∀ result, serve mmap r.heap (op.call r.pointers) = some result →
      op.asks = true → result.2 ≠ 0

instance (mmap : Mmap) (r : Running) (op : Op) : Decidable (Succeeds mmap r op) :=
  inferInstanceAs (Decidable (Safe mmap r.heap (op.call r.pointers) ∧
    ∀ result ∈ serve mmap r.heap (op.call r.pointers), op.asks = true → result.2 ≠ 0))

/-- The scan of `my_malloc` for `size` bytes stops at a block that it will cut. -/
def SplitsBlock (s : State) (size : Nat) : Prop :=
  ∃ result, walk (nextFree s.mem) 0 (s.freeHead (sizeToBin (chunkNeed size)))
      (fits s.mem (chunkNeed size)) walkFuel .head 0 = some result ∧
    ∃ link, result.2 = some link ∧ ptrAdd (chunkNeed size) 16 ≤ tagSize (load s.mem
      (link.target (nextFree s.mem) (s.freeHead (sizeToBin (chunkNeed size)))) 4)

instance (s : State) (size : Nat) : Decidable (SplitsBlock s size) :=
  inferInstanceAs (Decidable (∃ result ∈ walk (nextFree s.mem) 0
      (s.freeHead (sizeToBin (chunkNeed size))) (fits s.mem (chunkNeed size)) walkFuel .head 0,
    ∃ link ∈ result.2, ptrAdd (chunkNeed size) 16 ≤ tagSize (load s.mem
      (link.target (nextFree s.mem) (s.freeHead (sizeToBin (chunkNeed size)))) 4)))

/-- The call is not served by cutting a block. -/
def Whole (r : Running) (op : Op) : Prop :=
  ∀ n, request (op.call r.pointers) = some n → ¬ SplitsBlock r.heap n

instance (r : Running) (op : Op) : Decidable (Whole r op) :=
  inferInstanceAs (Decidable (∀ n ∈ request (op.call r.pointers), ¬ SplitsBlock r.heap n))

/-- The sizes of the blocks on each list, in link order. -/
abbrev Stock := Bin → List Nat

namespace Stock

/-- Without the first block that a request for `need` bytes would stop at. -/
def take (need : Nat) (stock : Stock) : Stock :=
  Function.update stock (sizeToBin need) ((stock (sizeToBin need)).eraseP (need ≤ ·))

/-- With one more block in front of the list of its class. -/
def put (size : Nat) (stock : Stock) : Stock :=
  Function.update stock (sizeToBin size) (size :: stock (sizeToBin size))

/-- The block that a request stops at. -/
def find (need : Nat) (stock : Stock) : Option Nat := (stock (sizeToBin need)).find? (need ≤ ·)

/-- How many blocks of the class of `k` have at least `k` bytes. -/
def above (k : Nat) (stock : Stock) : Nat := (stock (sizeToBin k)).countP (k ≤ ·)

variable {stock stock' : Stock} {need size k : Nat}

theorem take_sublist (h : ∀ i, (stock i).Sublist (stock' i)) (i : Bin) :
    (stock.take need i).Sublist (stock'.take need i) := by
  unfold take
  by_cases hi : i = sizeToBin need
  · subst hi
    rw [Function.update_self, Function.update_self]
    exact (h _).eraseP
  · rw [Function.update_of_ne hi, Function.update_of_ne hi]
    exact h i

theorem take_prefix (h : ∀ i, stock i <+: stock' i) (i : Bin) :
    stock.take need i <+: stock'.take need i := by
  unfold take
  by_cases hi : i = sizeToBin need
  · subst hi
    rw [Function.update_self, Function.update_self]
    exact (h _).eraseP
  · rw [Function.update_of_ne hi, Function.update_of_ne hi]
    exact h i

theorem put_sublist (h : ∀ i, (stock i).Sublist (stock' i)) (i : Bin) :
    (stock.put size i).Sublist (stock'.put size i) := by
  unfold put
  by_cases hi : i = sizeToBin size
  · subst hi
    rw [Function.update_self, Function.update_self]
    exact (h _).cons_cons size
  · rw [Function.update_of_ne hi, Function.update_of_ne hi]
    exact h i

theorem put_prefix (h : ∀ i, stock i <+: stock' i) (i : Bin) :
    stock.put size i <+: stock'.put size i := by
  unfold put
  by_cases hi : i = sizeToBin size
  · subst hi
    rw [Function.update_self, Function.update_self]
    exact (List.prefix_cons_inj size).mpr (h _)
  · rw [Function.update_of_ne hi, Function.update_of_ne hi]
    exact h i

theorem sublist_put (stock : Stock) (size : Nat) (i : Bin) :
    (stock i).Sublist (stock.put size i) := by
  unfold put
  by_cases hi : i = sizeToBin size
  · subst hi
    rw [Function.update_self]
    exact List.sublist_cons_self _ _
  · rw [Function.update_of_ne hi]

theorem find_prefix (h : ∀ i, stock i <+: stock' i) {x : Nat} (hx : stock.find need = some x) :
    stock'.find need = some x := by
  obtain ⟨rest, hrest⟩ := h (sizeToBin need)
  unfold find at hx ⊢
  rw [← hrest, List.find?_append, hx, Option.some_or]

theorem above_put (stock : Stock) (size k : Nat) : (stock.put size).above k =
    stock.above k + if sizeToBin size = sizeToBin k ∧ k ≤ size then 1 else 0 := by
  unfold above put
  by_cases hbin : sizeToBin size = sizeToBin k
  · rw [hbin, Function.update_self, List.countP_cons]
    simp
  · rw [Function.update_of_ne (Ne.symm hbin)]
    simp [hbin]

/-- A request that stops at a block of its own size takes one that counts for it. -/
theorem above_take_of_find (hfind : stock.find need = some need) (k : Nat) :
    (stock.take need).above k + (if sizeToBin need = sizeToBin k ∧ k ≤ need then 1 else 0) =
      stock.above k := by
  unfold above take
  by_cases hbin : sizeToBin need = sizeToBin k
  · unfold find at hfind
    obtain ⟨hfit, front, back, hlist, hfront⟩ := List.find?_eq_some_iff_append.mp hfind
    rw [hbin] at hlist ⊢
    have herase : (front ++ need :: back).eraseP (need ≤ ·) = front ++ back := by
      rw [List.eraseP_append_right _ (by simpa using hfront), List.eraseP_cons_of_pos (by simp)]
    rw [Function.update_self, hlist, herase]
    simp only [List.countP_append, List.countP_cons, decide_eq_true_eq, true_and]
    omega
  · rw [Function.update_of_ne (Ne.symm hbin)]
    simp [hbin]

/-- A request that finds nothing takes nothing. -/
theorem take_of_find_none (hfind : stock.find need = none) : stock.take need = stock := by
  unfold take
  rw [List.eraseP_of_forall_not (by simpa [find] using hfind), Function.update_eq_self]

theorem find_isSome_of_above (hpos : 0 < stock.above need) : (stock.find need).isSome = true := by
  obtain ⟨x, hx, hfit⟩ := List.countP_pos_iff.mp hpos
  rw [find, List.find?_isSome]
  exact ⟨x, hx, hfit⟩

theorem above_mono (h : ∀ i, (stock i).Sublist (stock' i)) (k : Nat) :
    stock.above k ≤ stock'.above k :=
  (h _).countP_le

end Stock

/-- The sizes on the lists of a heap. -/
def stockOf (L : Layout Bin) : Stock := fun i => (L.lists i).map Block.size

section Lists

variable {mmap : Mmap} {s s' : State} {L L' : Layout Bin} {front back : List Block} {c : Block}
  {need size p : Nat}

theorem stock_push (lists : Bin → List Block) (b : Block) (blocks blocks' : List Block) :
    stockOf ⟨blocks, pushBlock sizeToBin lists b⟩ =
      Stock.put b.size (stockOf ⟨blocks', lists⟩) := by
  funext i
  by_cases hi : i = sizeToBin b.size
  · subst hi
    simp [stockOf, pushBlock, Stock.put]
  · simp [stockOf, pushBlock, Stock.put, hi]

/-- The scan of `my_malloc` stops where the search in the sizes does. -/
theorem stock_found (hlist : L.lists (sizeToBin need) = front ++ c :: back)
    (hfront : ∀ b ∈ front, b.size < need) (hfit : need ≤ c.size) (blocks : List Block) :
    Stock.find need (stockOf L) = some c.size ∧
      stockOf ⟨blocks, Function.update L.lists (sizeToBin need) (front ++ back)⟩ =
        Stock.take need (stockOf L) := by
  have hsizes : stockOf L (sizeToBin need) =
      front.map Block.size ++ c.size :: back.map Block.size := by
    rw [stockOf, hlist, List.map_append, List.map_cons]
  have hless : ∀ x ∈ front.map Block.size, ¬ need ≤ x := by
    intro x hx
    obtain ⟨b, hb, rfl⟩ := List.mem_map.mp hx
    exact Nat.not_le.mpr (hfront b hb)
  constructor
  · rw [Stock.find, hsizes, List.find?_append, List.find?_eq_none.mpr (by simpa using hless),
      List.find?_cons_of_pos (by simpa using hfit), Option.none_or]
  · funext i
    by_cases hi : i = sizeToBin need
    · subst hi
      rw [Stock.take, Function.update_self, hsizes,
        List.eraseP_append_right _ (by simpa using hless),
        List.eraseP_cons_of_pos (by simpa using hfit)]
      simp [stockOf]
    · simp [stockOf, Stock.take, hi]

theorem stock_missed (hmiss : ∀ b ∈ L.lists (sizeToBin need), b.size < need) :
    Stock.find need (stockOf L) = none := by
  rw [Stock.find, List.find?_eq_none]
  intro x hx
  obtain ⟨b, hb, rfl⟩ := List.mem_map.mp hx
  have hless := hmiss b hb
  simp only [decide_eq_true_eq]
  omega

/-- A request that is granted takes the first block that fits off its list.  A cut puts the
rest on a list. -/
theorem mallocCase_takes (hcase : MallocCase sizeToBin liveAdd mmap s L need s' p L')
    (hp : p ≠ 0) (i : Bin) :
    (Stock.take need (stockOf L) i).Sublist (stockOf L' i) := by
  cases hcase with
  | @split pre post front back c hge hmod hfit hblocks hlist hfront =>
      rw [stock_push _ _ _ L.blocks, (stock_found hlist hfront (by omega) L.blocks).2]
      exact Stock.sublist_put _ _ i
  | @whole pre post front back c hsize hblocks hlist hfront =>
      rw [(stock_found hlist hfront (by omega) _).2]
  | extend _ _ hmiss =>
      rw [Stock.take_of_find_none (stock_missed hmiss)]
      exact List.Sublist.refl _
  | fail => exact absurd rfl hp

/-- The split branch of `my_malloc` is the one that `SplitsBlock` describes. -/
theorem splitsBlock_of_split (h : Represents sizeToBin s L) (hsize : size + 40 ≤ 2 ^ 64)
    {front back : List Block} {c : Block}
    (hlist : L.lists (sizeToBin (chunkNeed size)) = front ++ c :: back)
    (hfront : ∀ b ∈ front, b.size < chunkNeed size) (hfit : chunkNeed size + 16 ≤ c.size) :
    SplitsBlock s size := by
  obtain ⟨_, _, _, _, hneed⟩ := chunkNeed_bounds hsize
  have hc : c ∈ L.lists (sizeToBin (chunkNeed size)) := by simp [hlist]
  have htag := (h.threaded.tagged c (h.binned.mem_iff.mp hc).1).tagSize_head
  have hmiss : ∀ b ∈ front, fits s.mem (chunkNeed size) b.addr = false := by
    intro b hb
    have hsmall := hfront b hb
    rw [h.fits_iff hneed (i := sizeToBin (chunkNeed size)) (by simp [hlist, hb])]
    simp only [decide_eq_false_iff_not]
    omega
  have hstop : fits s.mem (chunkNeed size) c.addr = true := by
    rw [h.fits_iff hneed hc]
    simp only [decide_eq_true_eq]
    omega
  refine ⟨_, h.walk_first hlist hmiss hstop, _, rfl, ?_⟩
  rw [h.head_eq hlist, htag, ptrAdd_of_lt hneed]
  exact hfit

/-- A request that is granted without a cut stops at a block of its own size, or goes to the
arena. -/
theorem mallocCase_whole (h : Represents sizeToBin s L) (hsize : size + 40 ≤ 2 ^ 64)
    (hcase : MallocCase sizeToBin liveAdd mmap s L (chunkNeed size) s' p L') (hp : p ≠ 0)
    (hwhole : ¬ SplitsBlock s size) :
    stockOf L' = Stock.take (chunkNeed size) (stockOf L) ∧
      (∀ x, Stock.find (chunkNeed size) (stockOf L) = some x → x = chunkNeed size) ∧
      ((Stock.find (chunkNeed size) (stockOf L)).isSome = true →
        arenaUsedBytes s' = arenaUsedBytes s) := by
  cases hcase with
  | split _ _ hfit _ hlist hfront =>
      exact absurd (splitsBlock_of_split h hsize hlist hfront hfit) hwhole
  | @whole pre post front back c hexact hblocks hlist hfront _ hsame =>
      obtain ⟨hfind, htake⟩ := stock_found hlist hfront (by omega)
        (pre ++ [c.taken c.size c.size_ge c.size_mod] ++ post)
      refine ⟨htake, fun x hx => ?_, fun _ => arenaUsedBytes_same hsame⟩
      rw [hfind] at hx
      exact (Option.some.inj hx).symm.trans hexact
  | extend _ _ hmiss =>
      have hnone := stock_missed hmiss
      refine ⟨(Stock.take_of_find_none hnone).symm, fun x hx => ?_, fun hsome => ?_⟩
      · rw [hnone] at hx
        simp at hx
      · rw [hnone] at hsome
        simp at hsome
  | fail => exact absurd rfl hp

/-- `my_free` puts a block on its list. -/
theorem myFree_puts (h : Represents sizeToBin s L) (hc : c ∈ Layout.usedBlocks L.blocks) :
    ∃ L', Represents sizeToBin (myFree s c.payload) L' ∧
      (Layout.usedBlocks L.blocks).Perm (c :: Layout.usedBlocks L'.blocks) ∧
      stockOf L' = Stock.put c.size (stockOf L) ∧
      arenaUsedBytes (myFree s c.payload) = arenaUsedBytes s := by
  obtain ⟨hrow, hused⟩ := Layout.mem_usedBlocks.mp hc
  obtain ⟨pre, post, hblocks⟩ := List.append_of_mem hrow
  obtain ⟨hrep, _, _, hsame⟩ := myFree_spec h hblocks hused
  refine ⟨_, hrep, ?_, stock_push _ _ _ L.blocks, arenaUsedBytes_same hsame⟩
  rw [hblocks]
  exact usedBlocks_freed hused

end Lists

section Restock

/-- The chunk that a call asks for. -/
def Op.asked (op : Op) : Option Nat := if op.asks then some op.chunk else none

/-- The chunk that a call frees, with the chunks of the names. -/
def Op.freed (chunk : Nat → Nat) : Op → Option Nat
  | .realloc (some name) _ => some (chunk name)
  | .free (some name) => some (chunk name)
  | _ => none

/-- What a call does to the lists when it cuts nothing. -/
def restock (chunk : Nat → Nat) (stock : Stock) (op : Op) : Stock :=
  let stock := op.asked.elim stock fun need => stock.take need
  (op.freed chunk).elim stock fun size => stock.put size

/-- How many of the live names have a chunk of the class of `k` with at least `k` bytes. -/
def liveAbove (chunk : Nat → Nat) (live : List Nat) (k : Nat) : Nat :=
  (live.map chunk).countP fun size => sizeToBin size = sizeToBin k ∧ k ≤ size

/-- How many blocks there are of that kind, held or on the list. -/
def total (chunk : Nat → Nat) (live : List Nat) (stock : Stock) (k : Nat) : Nat :=
  liveAbove chunk live k + stock.above k

variable {chunk : Nat → Nat} {stock stock' : Stock} {op : Op} {live live' : List Nat} {i : Nat}

theorem restock_sublist (h : ∀ i, (stock i).Sublist (stock' i)) (i : Bin) :
    (restock chunk stock op i).Sublist (restock chunk stock' op i) := by
  unfold restock
  cases op.asked with
  | none =>
      cases op.freed chunk with
      | none => exact h i
      | some size => exact Stock.put_sublist h i
  | some need =>
      cases op.freed chunk with
      | none => exact Stock.take_sublist h i
      | some size => exact Stock.put_sublist (Stock.take_sublist h) i

theorem restock_prefix (h : ∀ i, stock i <+: stock' i) (i : Bin) :
    restock chunk stock op i <+: restock chunk stock' op i := by
  unfold restock
  cases op.asked with
  | none =>
      cases op.freed chunk with
      | none => exact h i
      | some size => exact Stock.put_prefix h i
  | some need =>
      cases op.freed chunk with
      | none => exact Stock.take_prefix h i
      | some size => exact Stock.put_prefix (Stock.take_prefix h) i

/-- The chunks of the live names before and after a call. -/
theorem names_chunks (hnames : op.names i live = some live')
    (hchunk : op.asks = true → chunk i = op.chunk) :
    ((op.freed chunk).toList ++ live'.map chunk).Perm (op.asked.toList ++ live.map chunk) := by
  have hnew (h : op.asks = true) :
      chunk i :: live.map chunk = op.asked.toList ++ live.map chunk := by
    rw [Op.asked, if_pos h, hchunk h]
    rfl
  have hgone {name : Nat} (h : name ∈ live) :
      (chunk name :: (live.erase name).map chunk).Perm (live.map chunk) :=
    ((List.perm_cons_erase h).map chunk).symm
  cases op with
  | malloc size =>
      rw [← Option.some.inj hnames, ← hnew rfl]
      exact List.Perm.refl _
  | calloc nmemb size =>
      rw [← Option.some.inj hnames, ← hnew rfl]
      exact List.Perm.refl _
  | realloc name size =>
      cases name with
      | none =>
          rw [← Option.some.inj hnames, ← hnew rfl]
          exact List.Perm.refl _
      | some name =>
          simp only [Op.names] at hnames
          split at hnames
          · next hmem =>
              rw [← Option.some.inj hnames]
              by_cases hzero : size = 0
              · simpa [Op.freed, Op.asked, Op.asks, hzero] using hgone hmem
              · rw [← hnew (by simp [Op.asks, hzero]), if_neg hzero]
                exact (List.Perm.swap _ _ _).trans ((hgone hmem).cons _)
          · simp at hnames
  | free name =>
      cases name with
      | none =>
          rw [← Option.some.inj hnames]
          exact List.Perm.refl _
      | some name =>
          simp only [Op.names] at hnames
          split at hnames
          · next hmem =>
              rw [← Option.some.inj hnames]
              exact hgone hmem
          · simp at hnames

/-- A call that cuts nothing leaves at least as many blocks of each kind as there were, one
more than are held of the kind it asks for, and as many as there were if it finds its
block. -/
theorem total_restock (hnames : op.names i live = some live')
    (hchunk : op.asks = true → chunk i = op.chunk)
    (hexact : ∀ need ∈ op.asked, ∀ x, stock.find need = some x → x = need) (k : Nat) :
    total chunk live stock k ≤ total chunk live' (restock chunk stock op) k ∧
      (op.asked = some k →
        liveAbove chunk live k < total chunk live' (restock chunk stock op) k) ∧
      ((∀ need ∈ op.asked, (stock.find need).isSome = true) →
        total chunk live' (restock chunk stock op) k = total chunk live stock k) := by
  -- What is asked for comes to the names, what is freed goes to the lists.
  have hlive := (names_chunks hnames hchunk).countP_eq
    fun size => sizeToBin size = sizeToBin k ∧ k ≤ size
  rw [List.countP_append, List.countP_append] at hlive
  have hput (stock : Stock) : ((op.freed chunk).elim stock fun size => stock.put size).above k =
      stock.above k + (op.freed chunk).toList.countP
        fun size => sizeToBin size = sizeToBin k ∧ k ≤ size := by
    cases op.freed chunk with
    | none => rfl
    | some size => simp [Stock.above_put, List.countP_singleton]
  have htotal : total chunk live' (restock chunk stock op) k =
      liveAbove chunk live' k + ((op.asked.elim stock fun need => stock.take need).above k +
        (op.freed chunk).toList.countP fun size => sizeToBin size = sizeToBin k ∧ k ≤ size) := by
    rw [total, restock, hput]
  rw [htotal]
  unfold total liveAbove
  cases hasked : op.asked with
  | none =>
      rw [hasked] at hlive
      simp only [Option.toList_none, List.countP_nil, Option.elim_none] at hlive ⊢
      exact ⟨by omega, by simp, fun _ => by omega⟩
  | some need =>
      rw [hasked] at hlive
      simp only [Option.toList_some, List.countP_singleton, decide_eq_true_eq,
        Option.elim_some] at hlive ⊢
      cases hfind : stock.find need with
      | none =>
          rw [Stock.take_of_find_none hfind]
          refine ⟨by omega, fun hk => ?_, fun hsome => ?_⟩
          · rw [Option.some.inj hk] at hlive
            simp only [le_refl, and_self, ↓reduceIte] at hlive
            omega
          · have hfound := hsome need rfl
            rw [hfind] at hfound
            simp at hfound
      | some x =>
          rw [hexact need hasked x hfind] at hfind
          have htake := Stock.above_take_of_find hfind k
          refine ⟨by omega, fun hk => ?_, fun _ => by omega⟩
          rw [Option.some.inj hk] at hlive
          simp only [le_refl, and_self, ↓reduceIte] at hlive
          omega

end Restock

/-- The live names stand for the used blocks, each with the size that its call
has asked for. -/
structure Tracks (chunk : Nat → Nat) (r : Running) (live : List Nat) (L : Layout Bin) :
    Prop where
  represents : Represents sizeToBin r.heap L
  fresh : ∀ k ∈ live, k < r.pointers.length
  blocks : (live.map fun k => (r.pointers.getD k 0, chunk k)).Perm
    ((Layout.usedBlocks L.blocks).map fun b => (b.payload, b.size))

section Tracks

variable {mmap : Mmap} {chunk : Nat → Nat} {r : Running} {live live' : List Nat}
  {L L' : Layout Bin} {s' : State} {op : Op}

theorem Tracks.block (h : Tracks chunk r live L) {k : Nat} (hk : k ∈ live) :
    ∃ c ∈ Layout.usedBlocks L.blocks, r.pointers.getD k 0 = c.payload ∧ chunk k = c.size := by
  have hmem := h.blocks.mem_iff.mp (List.mem_map_of_mem hk)
  obtain ⟨c, hc, heq⟩ := List.mem_map.mp hmem
  simp only [Prod.mk.injEq] at heq
  exact ⟨c, hc, heq.1.symm, heq.2.symm⟩

/-- A pointer that no live name stands for. -/
theorem Tracks.append (h : Tracks chunk r live L) (p : Nat) :
    Tracks chunk ⟨r.heap, r.pointers ++ [p]⟩ live L := by
  refine ⟨h.represents, fun k hk => ?_, ?_⟩
  · have hlt := h.fresh k hk
    simp only [List.length_append, List.length_singleton]
    omega
  · have hsame : (live.map fun k => ((r.pointers ++ [p]).getD k 0, chunk k)) =
        live.map fun k => (r.pointers.getD k 0, chunk k) := by
      apply List.map_congr_left
      intro k hk
      simp only [List.getD_eq_getElem?_getD, List.getElem?_append_left (h.fresh k hk)]
    rw [hsame]
    exact h.blocks

theorem Tracks.gain (h : Tracks chunk r live L) {u : Block} (hrep : Represents sizeToBin s' L')
    (hperm : (Layout.usedBlocks L'.blocks).Perm (u :: Layout.usedBlocks L.blocks))
    (hchunk : chunk r.pointers.length = u.size) :
    Tracks chunk ⟨s', r.pointers ++ [u.payload]⟩ (r.pointers.length :: live) L' := by
  have happend := h.append u.payload
  refine ⟨hrep, fun k hk => ?_, ?_⟩
  · rcases List.mem_cons.mp hk with rfl | hk
    · simp
    · exact happend.fresh k hk
  · have hnew : (r.pointers ++ [u.payload]).getD r.pointers.length 0 = u.payload := by
      simp [List.getD_eq_getElem?_getD]
    rw [List.map_cons, hnew, hchunk]
    have hsizes := hperm.map fun b => (b.payload, b.size)
    exact (happend.blocks.cons _).trans hsizes.symm

theorem Tracks.lose (h : Tracks chunk r live L) {k : Nat} {c : Block} (hk : k ∈ live)
    (hc : r.pointers.getD k 0 = c.payload ∧ chunk k = c.size)
    (hrep : Represents sizeToBin s' L')
    (hperm : (Layout.usedBlocks L.blocks).Perm (c :: Layout.usedBlocks L'.blocks)) :
    Tracks chunk ⟨s', r.pointers⟩ (live.erase k) L' := by
  refine ⟨hrep, fun j hj => h.fresh j (List.mem_of_mem_erase hj), ?_⟩
  have hlive := (List.perm_cons_erase hk).map fun k => (r.pointers.getD k 0, chunk k)
  have hboth := hlive.symm.trans (h.blocks.trans (hperm.map _))
  rw [List.map_cons, List.map_cons, hc.1, hc.2] at hboth
  exact hboth.cons_inv

/-- A call that hands out a block of `my_malloc`, whatever it writes to it. -/
theorem Tracks.allocate (h : Tracks chunk r live L) {size p : Nat} {s₁ : State} {m : Memory}
    (hcase : MallocCase sizeToBin liveAdd mmap r.heap L (chunkNeed size) s₁ p L')
    (hrep : Represents sizeToBin { s₁ with mem := m } L') (hp : p ≠ 0)
    (hchunk : chunk r.pointers.length = chunkNeed size) :
    Tracks chunk ⟨{ s₁ with mem := m }, r.pointers ++ [p]⟩ (r.pointers.length :: live) L' := by
  rcases hcase.gains h.represents.lists_free with ⟨hnull, _⟩ | ⟨u, _, _, _, rfl, hu, hperm, _⟩
  · exact absurd hnull hp
  · exact h.gain hrep hperm (hchunk.trans hu.symm)

/-- What a call that cuts nothing does to the lists, what it finds there, and when it leaves
the arena alone. -/
structure CutsNothing (chunk : Nat → Nat) (op : Op) (s : State) (L : Layout Bin) (s' : State)
    (L' : Layout Bin) : Prop where
  stock : stockOf L' = restock chunk (stockOf L) op
  exact : ∀ need ∈ op.asked, ∀ x, (stockOf L).find need = some x → x = need
  still : (∀ need ∈ op.asked, ((stockOf L).find need).isSome = true) →
    arenaUsedBytes s' = arenaUsedBytes s

/-- What one call of a trace does: the names stay those of the used blocks, and on the lists
there is what a call that cuts nothing would leave there. -/
def Tracks.Stepped (chunk : Nat → Nat) (mmap : Mmap) (r : Running) (L : Layout Bin) (op : Op)
    (live' : List Nat) : Prop :=
  ∃ r' L', r.step mmap op = some r' ∧ r'.pointers.length = r.pointers.length + 1 ∧
    Tracks chunk r' live' L' ∧
    (∀ i, (restock chunk (stockOf L) op i).Sublist (stockOf L' i)) ∧
    (Whole r op → CutsNothing chunk op r.heap L r'.heap L')

/-- A request and what it has asked for. -/
theorem Tracks.serves (h : Tracks chunk r live L) {size p : Nat} {s₁ : State}
    (hsize : size + 40 ≤ 2 ^ 64)
    (hcase : MallocCase sizeToBin liveAdd mmap r.heap L (chunkNeed size) s₁ p L') (hp : p ≠ 0)
    (hrequest : request (op.call r.pointers) = some size)
    (hasked : op.asked = some (chunkNeed size)) (hfreed : op.freed chunk = none)
    (hused : arenaUsedBytes s' = arenaUsedBytes s₁) :
    (∀ i, (restock chunk (stockOf L) op i).Sublist (stockOf L' i)) ∧
      (Whole r op → CutsNothing chunk op r.heap L s' L') := by
  have hrestock : restock chunk (stockOf L) op =
      (stockOf L).take (chunkNeed size) := by
    rw [restock, hasked, hfreed]
    rfl
  rw [hrestock]
  refine ⟨mallocCase_takes hcase hp, fun hwhole => ?_⟩
  obtain ⟨htake, hexact, hstill⟩ :=
    mallocCase_whole h.represents hsize hcase hp (hwhole size hrequest)
  refine ⟨htake.trans hrestock.symm, ?_, fun hfound => hused.trans (hstill (hfound _ hasked))⟩
  intro need hneed x hx
  rw [hasked] at hneed
  obtain rfl := Option.some.inj hneed
  exact hexact x hx

theorem Tracks.step_malloc (hsound : mmap.Sound) (h : Tracks chunk r live L)
    (hok : Succeeds mmap r op) {size : Nat}
    (hserve : serve mmap r.heap (op.call r.pointers) = myMalloc mmap r.heap size)
    (hrequest : request (op.call r.pointers) = some size) (hasks : op.asks = true)
    (hneed : op.chunk = chunkNeed size) (hfreed : op.freed chunk = none)
    (hchunk : chunk r.pointers.length = op.chunk) :
    Tracks.Stepped chunk mmap r L op (r.pointers.length :: live) := by
  obtain ⟨hsize, hsafe⟩ := hok.1 size hrequest
  obtain ⟨s₁, p, L', heq, hcase, hrep, _⟩ :=
    mallocWith_spec liveAdd_freelistLen h.represents hsound hsize hsafe
  have hserved : serve mmap r.heap (op.call r.pointers) = some (s₁, p) := hserve.trans heq
  have hp : p ≠ 0 := hok.2 _ hserved hasks
  have hasked : op.asked = some (chunkNeed size) := by rw [Op.asked, if_pos hasks, hneed]
  refine ⟨⟨s₁, r.pointers ++ [p]⟩, L', ?_, by simp,
    h.allocate hcase hrep hp (hchunk.trans hneed),
    h.serves hsize hcase hp hrequest hasked hfreed rfl⟩
  simp only [Running.step, hserved, Option.map_some]

theorem Tracks.step_calloc (hsound : mmap.Sound) (h : Tracks chunk r live L) {nmemb size : Nat}
    (hok : Succeeds mmap r (.calloc nmemb size))
    (hchunk : chunk r.pointers.length = chunkNeed (nmemb * size)) :
    Tracks.Stepped chunk mmap r L (.calloc nmemb size) (r.pointers.length :: live) := by
  cases hrequest : callocRequest nmemb size with
  | none =>
      have hnull : serve mmap r.heap (.calloc nmemb size) = some (r.heap, 0) :=
        callocWith_none hrequest
      exact absurd rfl (hok.2 _ hnull rfl)
  | some n =>
      obtain ⟨hsize, hsafe⟩ := hok.1 n hrequest
      obtain ⟨s₁, p, L', m, _, heq, hcase, _, hrep', _⟩ :=
        callocWith_spec liveAdd_freelistLen hsound h.represents hrequest hsize hsafe
      obtain ⟨rfl, _⟩ := callocRequest_eq hrequest
      have hserved : serve mmap r.heap (.calloc nmemb size) = some ({ s₁ with mem := m }, p) := heq
      have hp : p ≠ 0 := hok.2 _ hserved rfl
      refine ⟨⟨{ s₁ with mem := m }, r.pointers ++ [p]⟩, L', ?_, by simp,
        h.allocate hcase hrep' hp hchunk, h.serves hsize hcase hp hrequest rfl rfl rfl⟩
      simp only [Running.step, Op.call, hserved, Option.map_some]

/-- A call that frees the block of a name and asks for nothing. -/
theorem Tracks.step_free (h : Tracks chunk r live L) {k : Nat} (hk : k ∈ live)
    (hserve : serve mmap r.heap (op.call r.pointers) =
      some (myFree r.heap (r.pointers.getD k 0), 0)) (hasks : op.asks = false)
    (hfreed : op.freed chunk = some (chunk k)) :
    Tracks.Stepped chunk mmap r L op (live.erase k) := by
  obtain ⟨c, hc, hname⟩ := h.block hk
  obtain ⟨L', hrep, hperm, hput, hused⟩ := myFree_puts h.represents hc
  have hasked : op.asked = none := by rw [Op.asked, hasks]; rfl
  have hrestock : restock chunk (stockOf L) op = (stockOf L).put c.size := by
    rw [restock, hasked, hfreed, hname.2]
    rfl
  refine ⟨_, L', by rw [Running.step, hserve]; rfl, by simp, ?_, ?_, fun _ => ?_⟩
  · rw [hname.1]
    exact (h.lose hk hname hrep hperm).append 0
  · intro i
    rw [hrestock, hput]
  · refine ⟨hput.trans hrestock.symm, fun need hneed => ?_, fun _ => ?_⟩
    · rw [hasked] at hneed
      simp at hneed
    · rw [hname.1]
      exact hused

theorem Tracks.step_realloc (hsound : mmap.Sound) (h : Tracks chunk r live L) {k size : Nat}
    (hk : k ∈ live) (hpos : size ≠ 0) (hok : Succeeds mmap r (.realloc (some k) size))
    (hchunk : chunk r.pointers.length = chunkNeed size) :
    Tracks.Stepped chunk mmap r L (.realloc (some k) size)
      (r.pointers.length :: live.erase k) := by
  obtain ⟨c, hc, hname⟩ := h.block hk
  have hcall : Op.call r.pointers (.realloc (some k) size) = .realloc c.payload size :=
    congrArg (Call.realloc · size) hname.1
  have hrequest : request (.realloc c.payload size) = some size := by simp [request, hpos]
  have hasks : Op.asks (.realloc (some k) size) = true := by simp [Op.asks, hpos]
  have hasked : Op.asked (.realloc (some k) size) = some (chunkNeed size) := by
    rw [Op.asked, if_pos hasks]
    rfl
  obtain ⟨hsize, hsafe⟩ := hok.1 size (hcall ▸ hrequest)
  obtain ⟨s₁, p, L₁, _, hcase, _, _, hresult⟩ :=
    myRealloc_spec hsound h.represents hc hpos hsize hsafe
  rcases hresult with ⟨_, heq⟩ | ⟨s₂, hs₂, hp, hrep₂, hc₁, _, _, heq⟩
  · exact absurd rfl (hok.2 (s₁, 0) (by rw [hcall]; exact heq) hasks)
  · subst hs₂
    have htracks := h.allocate hcase hrep₂ hp hchunk
    obtain ⟨L', hrep', hperm, hput, hused⟩ := myFree_puts hrep₂ hc₁
    have hlt := h.fresh k hk
    have hold : (r.pointers ++ [p]).getD k 0 = c.payload := by
      rw [← hname.1]
      simp only [List.getD_eq_getElem?_getD, List.getElem?_append_left hlt]
    have hlose := htracks.lose (List.mem_cons_of_mem _ hk) ⟨hold, hname.2⟩ hrep' hperm
    rw [List.erase_cons_tail (by simp; omega)] at hlose
    have hrestock : restock chunk (stockOf L) (.realloc (some k) size) =
        ((stockOf L).take (chunkNeed size)).put c.size := by
      rw [restock, hasked, Op.freed, hname.2]
      rfl
    refine ⟨_, L', ?_, by simp, hlose, ?_, fun hwhole => ?_⟩
    · rw [Running.step, hcall]
      simp only [serve, heq, Option.map_some]
    · rw [hrestock, hput]
      exact Stock.put_sublist (mallocCase_takes hcase hp)
    · obtain ⟨htake, hexact, hstill⟩ :=
        mallocCase_whole h.represents hsize hcase hp (hwhole size (hcall ▸ hrequest))
      refine ⟨by rw [hput, htake, hrestock], fun need hneed x hx => ?_, fun hfound => ?_⟩
      · rw [hasked] at hneed
        obtain rfl := Option.some.inj hneed
        exact hexact x hx
      · exact hused.trans (hstill (hfound _ hasked))

theorem Tracks.step (hsound : mmap.Sound) (h : Tracks chunk r live L)
    (hok : Succeeds mmap r op) (hnames : op.names r.pointers.length live = some live')
    (hchunk : op.asks = true → chunk r.pointers.length = op.chunk) :
    Tracks.Stepped chunk mmap r L op live' := by
  cases op with
  | malloc size =>
      rw [← Option.some.inj hnames]
      exact h.step_malloc hsound hok rfl rfl rfl rfl rfl (hchunk rfl)
  | calloc nmemb size =>
      rw [← Option.some.inj hnames]
      exact h.step_calloc hsound hok (hchunk rfl)
  | realloc name size =>
      cases name with
      | none =>
          rw [← Option.some.inj hnames]
          exact h.step_malloc hsound hok rfl (by simp [request, Op.call, pointer]) rfl rfl rfl
            (hchunk rfl)
      | some k =>
          simp only [Op.names] at hnames
          split at hnames
          · next hk =>
              rw [← Option.some.inj hnames]
              by_cases hzero : size = 0
              · subst hzero
                rw [if_pos rfl]
                obtain ⟨c, hc, hname, _⟩ := h.block hk
                have hptr := h.represents.payload_ne_zero hc
                apply h.step_free hk _ rfl rfl
                simp only [serve, Op.call, pointer, myRealloc, hname, hptr, ↓reduceIte]
              · rw [if_neg hzero]
                exact h.step_realloc hsound hk hzero hok (hchunk (by simp [Op.asks, hzero]))
          · simp at hnames
  | free name =>
      cases name with
      | none =>
          rw [← Option.some.inj hnames]
          refine ⟨⟨r.heap, r.pointers ++ [0]⟩, L, ?_, by simp, h.append 0,
            fun i => List.Sublist.refl _, fun _ => ⟨rfl, fun _ hneed => ?_, fun _ => rfl⟩⟩
          · simp [Running.step, serve, Op.call, pointer, myFree]
          · simp [Op.asked, Op.asks] at hneed
      | some k =>
          simp only [Op.names] at hnames
          split at hnames
          · next hk =>
              rw [← Option.some.inj hnames]
              exact h.step_free hk rfl rfl rfl
          · simp at hnames

/-- With `population k` blocks for requests of `k` bytes, a trace always finds one of them
free for the chunk it asks for. -/
def Enough (population chunk : Nat → Nat) : Nat → List Nat → List Op → Prop
  | _, _, [] => True
  | i, live, op :: rest =>
      (∀ need ∈ op.asked, liveAbove chunk live need < population need) ∧
        ∀ live', op.names i live = some live' → Enough population chunk (i + 1) live' rest

theorem Enough.mono {population population' : Nat → Nat} {i : Nat} {ops : List Op}
    (h : Enough population chunk i live ops) (hle : ∀ k, population k ≤ population' k) :
    Enough population' chunk i live ops := by
  induction ops generalizing i live with
  | nil => trivial
  | cons op rest ih =>
      refine ⟨fun need hneed => ?_, fun live' hnames => ih (h.2 live' hnames)⟩
      exact Nat.lt_of_lt_of_le (h.1 need hneed) (hle need)

/-- What the lists have at the end of a trace that cuts nothing, if they have `stock` in front
at its beginning. -/
def restocked (chunk : Nat → Nat) (stock : Stock) (ops : List Op) : Stock :=
  ops.foldl (restock chunk) stock

/-- A trace that cuts nothing: what it leaves on top of the lists would have been enough for
it, and where there was enough before it, the arena is left alone. -/
structure CutsNothingIn (chunk : Nat → Nat) (ops : List Op) (live live' : List Nat)
    (r : Running) (L : Layout Bin) (r' : Running) : Prop where
  leaves : ∀ stock, (∀ i, stock i <+: stockOf L i) →
    (∀ k, total chunk live stock k ≤ total chunk live' (restocked chunk stock ops) k) ∧
    Enough (total chunk live' (restocked chunk stock ops)) chunk r.pointers.length live ops
  still : Enough (total chunk live (stockOf L)) chunk r.pointers.length live ops →
    arenaUsedBytes r'.heap = arenaUsedBytes r.heap

/-- The first call of such a trace. -/
theorem CutsNothing.cons {rest : List Op} {live₁ : List Nat} {r₁ r' : Running} {L₁ : Layout Bin}
    (hstep : CutsNothing chunk op r.heap L r₁.heap L₁)
    (hnames : op.names r.pointers.length live = some live₁)
    (hchunk : op.asks = true → chunk r.pointers.length = op.chunk)
    (hlength : r₁.pointers.length = r.pointers.length + 1)
    (hrest : CutsNothingIn chunk rest live₁ live' r₁ L₁ r') :
    CutsNothingIn chunk (op :: rest) live live' r L r' := by
  refine ⟨fun stock hprefix => ?_, fun henough => ?_⟩
  · have hexact : ∀ need ∈ op.asked, ∀ x, stock.find need = some x → x = need :=
      fun need hneed x hx => hstep.exact need hneed x (Stock.find_prefix hprefix hx)
    have hprefix₁ : ∀ i, restock chunk stock op i <+: stockOf L₁ i := by
      rw [hstep.stock]
      exact restock_prefix hprefix
    obtain ⟨hgrows, hlater⟩ := hrest.leaves _ hprefix₁
    rw [hlength] at hlater
    refine ⟨fun k => ?_, fun need hneed => ?_, fun live₂ hlive₂ => ?_⟩
    · exact (total_restock hnames hchunk hexact k).1.trans (hgrows k)
    · exact Nat.lt_of_lt_of_le ((total_restock hnames hchunk hexact need).2.1 hneed) (hgrows need)
    · rw [hnames] at hlive₂
      exact Option.some.inj hlive₂ ▸ hlater
  · -- With enough at hand neither this call nor the rest adds a block.
    have hfound : ∀ need ∈ op.asked, ((stockOf L).find need).isSome = true := by
      intro need hneed
      have hlt := henough.1 need hneed
      unfold total at hlt
      exact Stock.find_isSome_of_above (by omega)
    rw [← hstep.still hfound]
    apply hrest.still
    rw [hlength]
    refine (henough.2 live₁ hnames).mono fun k => Nat.le_of_eq ?_
    rw [hstep.stock]
    exact ((total_restock hnames hchunk hstep.exact k).2.2 hfound).symm

/-- A whole trace: on the lists it leaves what it would leave there if it cut nothing. -/
theorem Tracks.run (hsound : mmap.Sound) {ops : List Op} (h : Tracks chunk r live L)
    (hnames : liveNames r.pointers.length live ops = some live')
    (hchunk : ∀ j op, ops[j]? = some op → op.asks = true →
      chunk (r.pointers.length + j) = op.chunk)
    (hok : Runs.RunOk (Running.step mmap) (Succeeds mmap) r ops) :
    ∃ r' L', Runs.run (Running.step mmap) r ops = some r' ∧ Tracks chunk r' live' L' ∧
      (∀ stock, (∀ i, (stock i).Sublist (stockOf L i)) →
        ∀ i, (restocked chunk stock ops i).Sublist (stockOf L' i)) ∧
      (Runs.RunOk (Running.step mmap) Whole r ops →
        CutsNothingIn chunk ops live live' r L r') := by
  induction ops generalizing r live L with
  | nil =>
      rw [← Option.some.inj hnames]
      exact ⟨r, L, rfl, h, fun _ hstock => hstock,
        fun _ => ⟨fun _ _ => ⟨fun _ => Nat.le_refl _, trivial⟩, fun _ => rfl⟩⟩
  | cons op rest ih =>
      obtain ⟨live₁, hnext, hrest⟩ := Option.bind_eq_some_iff.mp hnames
      obtain ⟨r₁, L₁, hstep, hlength, htracks, hcovers, hnothing⟩ :=
        h.step hsound hok.1 hnext (hchunk 0 op rfl)
      have hchunk₁ : ∀ j op', rest[j]? = some op' → op'.asks = true →
          chunk (r₁.pointers.length + j) = op'.chunk := by
        intro j op' hop hasks
        rw [hlength, Nat.add_assoc, Nat.add_comm 1 j]
        exact hchunk (j + 1) op' hop hasks
      rw [← hlength] at hrest
      obtain ⟨r', L', hrun, htracks', hcovers', hnothing'⟩ :=
        ih htracks hrest hchunk₁ (hok.2 r₁ hstep)
      refine ⟨r', L', by simp only [Runs.run, hstep, Option.bind_some, hrun], htracks', ?_, ?_⟩
      · intro stock hstock
        exact hcovers' _ fun i => (restock_sublist hstock i).trans (hcovers i)
      · intro hwhole
        exact (hnothing hwhole.1).cons hnext (hchunk 0 op rfl) hlength
          (hnothing' (hwhole.2 r₁ hstep))

end Tracks

section Executions

variable {mmap : Mmap} {trace : List Op}

/-- All calls of execution `m + 1` meet `ok`. -/
def Throughout (mmap : Mmap) (trace : List Op) (ok : Running → Op → Prop) (m : Nat) : Prop :=
  ∀ s, executions mmap trace m = some s → Runs.RunOk (Running.step mmap) ok ⟨s, []⟩ trace

instance (mmap : Mmap) (trace : List Op) (ok : Running → Op → Prop)
    [∀ r op, Decidable (ok r op)] (m : Nat) : Decidable (Throughout mmap trace ok m) :=
  inferInstanceAs (Decidable (∀ s ∈ executions mmap trace m,
    Runs.RunOk (Running.step mmap) ok ⟨s, []⟩ trace))

/-- The chunk that the call at position `k` asks for. -/
def chunkAt (trace : List Op) (k : Nat) : Nat := (trace.map Op.chunk).getD k 0

/-- One execution of a balanced trace, from a heap where nothing is used to such a
heap. -/
theorem execute_tracks (hsound : mmap.Sound) (hbalanced : Balanced trace) {s : State}
    {L : Layout Bin} (h : Tracks (chunkAt trace) ⟨s, []⟩ [] L)
    (hok : Runs.RunOk (Running.step mmap) (Succeeds mmap) ⟨s, []⟩ trace) :
    ∃ r' L', Runs.run (Running.step mmap) ⟨s, []⟩ trace = some r' ∧
      Tracks (chunkAt trace) ⟨r'.heap, []⟩ [] L' ∧
      (∀ i, (restocked (chunkAt trace) (fun _ => []) trace i).Sublist (stockOf L' i)) ∧
      (Runs.RunOk (Running.step mmap) Whole ⟨s, []⟩ trace →
        CutsNothingIn (chunkAt trace) trace [] [] ⟨s, []⟩ L r') := by
  obtain ⟨r', L', hrun, htracks, hcovers, hnothing⟩ := h.run hsound hbalanced
    (fun j op hop _ => by simp [chunkAt, List.getD_eq_getElem?_getD, hop]) hok
  exact ⟨r', L', hrun, ⟨htracks.represents, by simp, htracks.blocks⟩,
    hcovers _ fun _ => List.nil_sublist _, hnothing⟩

theorem executions_succ {n : Nat} {s : State} {r' : Running}
    (hs : executions mmap trace n = some s)
    (hrun : Runs.run (Running.step mmap) ⟨s, []⟩ trace = some r') :
    executions mmap trace (n + 1) = some r'.heap := by
  simp only [executions, hs, Option.bind_some, execute, hrun, Option.map_some]

theorem executions_tracks (hsound : mmap.Sound) (hbalanced : Balanced trace) {n : Nat}
    (hok : ∀ m < n, Throughout mmap trace (Succeeds mmap) m) :
    ∃ s L, executions mmap trace n = some s ∧ Tracks (chunkAt trace) ⟨s, []⟩ [] L := by
  induction n with
  | zero => exact ⟨_, Layout.empty Bin, rfl, represents_initial sizeToBin, by simp, by rfl⟩
  | succ n ih =>
      obtain ⟨s, L, heq, htracks⟩ := ih fun m hm => hok m (by omega)
      obtain ⟨r', L', hrun, htracks', _⟩ :=
        execute_tracks hsound hbalanced htracks (hok n (by omega) s heq)
      exact ⟨r'.heap, L', executions_succ heq hrun, htracks'⟩

/-- A balanced trace in steady state.  When no call fails, every request reaches the
arena safely, and execution `n + 1` has no call that is served by cutting a block, it
leaves the footprint as it is, whatever execution `n` has cut. -/
theorem steady_footprint (hsound : mmap.Sound) (hbalanced : Balanced trace) {n : Nat}
    (hok : ∀ m ≤ n + 1, Throughout mmap trace (Succeeds mmap) m)
    (hnow : Throughout mmap trace Whole (n + 1)) :
    ∃ s s', executions mmap trace (n + 1) = some s ∧ executions mmap trace (n + 2) = some s' ∧
      arenaUsedBytes s' = arenaUsedBytes s := by
  obtain ⟨s₀, L₀, heq₀, htracks₀⟩ :=
    executions_tracks hsound hbalanced (n := n) fun m hm => hok m (by omega)
  obtain ⟨r₁, L₁, hrun₁, htracks₁, hcovers, _⟩ :=
    execute_tracks hsound hbalanced htracks₀ (hok n (by omega) s₀ heq₀)
  have heq₁ := executions_succ heq₀ hrun₁
  obtain ⟨r₂, L₂, hrun₂, _, _, hnothing⟩ :=
    execute_tracks hsound hbalanced htracks₁ (hok (n + 1) (by omega) r₁.heap heq₁)
  obtain ⟨hleaves, hstill⟩ := hnothing (hnow r₁.heap heq₁)
  -- What the second execution leaves, the first one has left below other blocks.
  obtain ⟨_, henough⟩ := hleaves (fun _ => []) fun _ => List.nil_prefix
  refine ⟨r₁.heap, r₂.heap, heq₁, executions_succ heq₁ hrun₂, hstill (henough.mono fun k => ?_)⟩
  exact Nat.add_le_add_left (Stock.above_mono hcovers k) _

/-- Two blocks, one of them moved, over and over. -/
theorem steady_footprint_example :
    ∃ s s', executions lowRegion
        [.malloc 56, .calloc 5 8, .free (some 0), .realloc (some 1) 100, .free (some 3)] 2 =
          some s ∧
      executions lowRegion
        [.malloc 56, .calloc 5 8, .free (some 0), .realloc (some 1) 100, .free (some 3)] 3 =
          some s' ∧ arenaUsedBytes s' = arenaUsedBytes s :=
  steady_footprint lowRegion_sound (by decide) (n := 1) (by decide +kernel) (by decide +kernel)

/-- A trace that splits: the block of 64 bytes is cut by the later request for 48,
and the next execution needs a new one. -/
theorem steady_footprint_fails : lowRegion.Sound ∧
    Balanced [.malloc 56, .free (some 0), .malloc 40, .free (some 2)] ∧
      (∀ m ≤ 1, Throughout lowRegion
        [.malloc 56, .free (some 0), .malloc 40, .free (some 2)] (Succeeds lowRegion) m) ∧
      (executions lowRegion [.malloc 56, .free (some 0), .malloc 40, .free (some 2)] 1).map
        arenaUsedBytes = some 76 ∧
      (executions lowRegion [.malloc 56, .free (some 0), .malloc 40, .free (some 2)] 2).map
        arenaUsedBytes = some 140 :=
  ⟨lowRegion_sound, by decide, by decide +kernel, by decide +kernel, by decide +kernel⟩

end Executions

end Segregated

end AllocSitter
