/-
Both allocators refine the store of named blocks.  A client that knows its blocks by name
reads what it wrote, wherever the blocks are and however they are moved, split and merged;
so it cannot tell the two allocators apart as long as neither fails.
-/
import AllocSitter.BlockStore
import AllocSitter.ExactChunks
import AllocSitter.ResizedBlocks
import AllocSitter.SegregatedResize

namespace AllocSitter

open BlockStore

variable {ι : Type}

/-- A client with the variables in which it keeps its pointers. -/
structure Session (ι : Type) where
  client : Client ι
  next : Nat
  pointer : Nat → Nat

namespace Session

def initial (ι : Type) : Session ι := ⟨Client.initial ι, 0, fun _ => 0⟩

/-- The pointer passed for a name, `NULL` for none. -/
def address (σ : Session ι) : Option Nat → Nat
  | none => 0
  | some name => σ.pointer name

/-- A pointer that was returned for a new block goes to the next variable, unless it is
`NULL`. -/
def named (σ : Session ι) (result : Client ι × Nat) : Session ι × Reply UInt8 :=
  if result.2 = 0 then ({ σ with client := result.1 }, .refused)
  else (⟨result.1, σ.next + 1, Function.update σ.pointer σ.next result.2⟩, .granted)

/-- `p = realloc(p, size)` by a client that keeps `p` if the resize fails. -/
def resized (σ : Session ι) (name size : Nat) (result : Client ι × Nat) :
    Session ι × Reply UInt8 :=
  if size = 0 then ({ σ with client := result.1 }, .done)
  else if result.2 = 0 then ({ σ with client := result.1 }, .refused)
  else ({ σ with client := result.1, pointer := Function.update σ.pointer name result.2 },
    .granted)

def finished (σ : Session ι) (result : Client ι × Nat) : Session ι × Reply UInt8 :=
  ({ σ with client := result.1 }, .done)

/-- One operation through the allocator. -/
def exec (api : Api ι) (σ : Session ι) : Op UInt8 → Option (Session ι × Reply UInt8)
  | .malloc size => (σ.client.exec api (.malloc size)).map σ.named
  | .calloc nmemb size => (σ.client.exec api (.calloc nmemb size)).map σ.named
  | .free name => (σ.client.exec api (.free (σ.address name))).map σ.finished
  | .realloc none size => (σ.client.exec api (.realloc 0 size)).map σ.named
  | .realloc (some name) size =>
      (σ.client.exec api (.realloc (σ.pointer name) size)).map (σ.resized name size)
  | .write name offset byte =>
      (σ.client.exec api (.write (σ.pointer name + offset) byte)).map σ.finished
  | .read name offset => some (σ, .value (σ.client.heap.mem (σ.pointer name + offset)))

/-- The call that the operation makes, if it makes one, is admitted. -/
def Allowed (admits : Client ι → Call → Prop) (σ : Session ι) : Op UInt8 → Prop
  | .malloc size => admits σ.client (.malloc size)
  | .calloc nmemb size => admits σ.client (.calloc nmemb size)
  | .free name => admits σ.client (.free (σ.address name))
  | .realloc name size => admits σ.client (.realloc (σ.address name) size)
  | .write name offset byte => admits σ.client (.write (σ.pointer name + offset) byte)
  | .read _ _ => True

instance (admits : Client ι → Call → Prop) [∀ w call, Decidable (admits w call)]
    (σ : Session ι) : ∀ op, Decidable (σ.Allowed admits op)
  | .malloc size => inferInstanceAs (Decidable (admits σ.client (.malloc size)))
  | .calloc nmemb size => inferInstanceAs (Decidable (admits σ.client (.calloc nmemb size)))
  | .free name => inferInstanceAs (Decidable (admits σ.client (.free (σ.address name))))
  | .realloc name size =>
      inferInstanceAs (Decidable (admits σ.client (.realloc (σ.address name) size)))
  | .write name offset byte =>
      inferInstanceAs (Decidable (admits σ.client (.write (σ.pointer name + offset) byte)))
  | .read _ _ => .isTrue trivial

end Session

/-- The client holds `ptr`, with the size and the written cells of `b`. -/
structure Carries (w : Client ι) (ptr : Nat) (b : BlockStore.Block UInt8) : Prop where
  held : (ptr, b.size) ∈ w.live
  bytes : ∀ i < b.size, ∀ v, b.cell i = some v → w.heap.mem (ptr + i) = v

/-- What the refinement needs of an allocator, in every state that its admitted calls
lead to. -/
structure Reliable [DecidableEq ι] (binOf : Nat → ι) (api : Api ι)
    (admits : Client ι → Call → Prop) : Prop where
  invariant : ∀ {w}, Runs.Reach (Client.step api) admits (Client.initial ι) w → Inv binOf w
  returns : ∀ {w call}, Runs.Reach (Client.step api) admits (Client.initial ι) w →
    admits w call → ∃ w' p, w.exec api call = some (w', p) ∧ Considerate w call w' p
  resizes : ∀ {w ptr size}, Runs.Reach (Client.step api) admits (Client.initial ι) w →
    w.Holds ptr → size ≠ 0 → admits w (.realloc ptr size) →
    ∃ w' q, w.exec api (.realloc ptr size) = some (w', q) ∧ KeepsData w ptr size w' q ∧
      (q = 0 → w'.heap.mem = w.heap.mem)
  refuses : ∀ {w w' : Client ι} {nmemb size p}, nmemb * size = 0 →
    w.exec api (.calloc nmemb size) = some (w', p) → p = 0

/-- The session shows the store: every block of the store is held under its name, each in
a place of its own. -/
structure Shows (api : Api ι) (admits : Client ι → Call → Prop) (σ : Session ι)
    (st : Store UInt8) : Prop where
  reached : Runs.Reach (Client.step api) admits (Client.initial ι) σ.client
  next : σ.next = st.next
  carries : ∀ name b, st.block name = some b → Carries σ.client (σ.pointer name) b
  apart : ∀ name name' b b', st.block name = some b → st.block name' = some b' →
    σ.pointer name = σ.pointer name' → name = name'

theorem Carries.holds {w : Client ι} {ptr : Nat} {b : BlockStore.Block UInt8}
    (h : Carries w ptr b) : w.Holds ptr := ⟨b.size, h.held⟩

section Refinement

variable [DecidableEq ι] {binOf : Nat → ι} {api : Api ι} {admits : Client ι → Call → Prop}
  {w w' : Client ι} {σ : Session ι} {st : Store UInt8} {call : Call} {p ptr : Nat}
  {b : BlockStore.Block UInt8}

/-- A block that a call was not given is carried on, if it is still held. -/
theorem Carries.frame (h : Carries w ptr b) (hinv : Inv binOf w)
    (hconsiderate : Considerate w call w' p) (hout : ¬ call.Touches ptr)
    (hheld : (ptr, b.size) ∈ w'.live) : Carries w' ptr b := by
  refine ⟨hheld, fun i hi v hv => ?_⟩
  have hroom := hinv.held_room h.held
  rw [← h.bytes i hi v hv]
  exact hconsiderate.untouched ptr h.holds hout _ (by omega) (by omega)

/-- The first two facts of `Shows` for a session that has only made a call. -/
theorem Shows.blocks_kept (hreliable : Reliable binOf api admits) (h : Shows api admits σ st)
    (hconsiderate : Considerate σ.client call w' p)
    (hkeep : ∀ name b, st.block name = some b → ¬ call.Touches (σ.pointer name) ∧
      (σ.pointer name, b.size) ∈ w'.live) {name : Nat} (hb : st.block name = some b) :
    Carries w' (σ.pointer name) b := by
  obtain ⟨hout, hheld⟩ := hkeep name b hb
  exact (h.carries name b hb).frame (hreliable.invariant h.reached) hconsiderate hout hheld

/-- A block with a new name, or a failed request. -/
theorem Shows.requested (hreliable : Reliable binOf api admits) (h : Shows api admits σ st)
    (hadmits : admits σ.client call) (hexec : σ.client.exec api call = some (w', p))
    (hconsiderate : Considerate σ.client call w' p)
    (hout : ∀ q, σ.client.Holds q → ¬ call.Touches q)
    (hlive : w'.live = Client.hold σ.client.live p b.size)
    (hbytes : p ≠ 0 → ∀ i < b.size, ∀ v, b.cell i = some v → w'.heap.mem (p + i) = v) :
    (σ.named (w', p)).2 = (st.request (decide (p ≠ 0)) b).2 ∧
      Shows api admits (σ.named (w', p)).1 (st.request (decide (p ≠ 0)) b).1 := by
  have hreached := h.reached.next hadmits (Client.step_of_exec hexec)
  have hkeys := (hreliable.invariant hreached).keys_nodup
  by_cases hp : p = 0
  · simp only [Session.named, Store.request, hp, ne_eq, not_true_eq_false, decide_false,
      ↓reduceIte, Bool.false_eq_true, true_and]
    refine ⟨hreached, h.next, fun name c hc => ?_, h.apart⟩
    refine h.blocks_kept hreliable hconsiderate (fun name c hc => ?_) hc
    have hcarries := h.carries name c hc
    refine ⟨hout _ hcarries.holds, ?_⟩
    rw [hlive, Client.hold, if_pos hp]
    exact hcarries.held
  · rw [Client.hold, if_neg hp] at hlive
    have hfresh : ∀ name c, st.block name = some c → σ.pointer name ≠ p := by
      intro name c hc heq
      have hheld := List.mem_map_of_mem (f := Prod.fst) (h.carries name c hc).held
      rw [hlive, List.map_cons, List.nodup_cons] at hkeys
      exact hkeys.1 (heq ▸ hheld)
    simp only [Session.named, Store.request, hp, ne_eq, not_false_eq_true, decide_true,
      ↓reduceIte, true_and]
    refine ⟨hreached, congrArg (· + 1) h.next, fun name c hc => ?_, ?_⟩
    · change Function.update st.block st.next (some b) name = some c at hc
      change Carries w' (Function.update σ.pointer σ.next p name) c
      rw [h.next]
      by_cases hname : name = st.next
      · subst hname
        rw [Function.update_self] at hc ⊢
        obtain rfl := Option.some.inj hc
        exact ⟨hlive ▸ List.mem_cons_self, hbytes hp⟩
      · rw [Function.update_of_ne hname] at hc ⊢
        refine h.blocks_kept hreliable hconsiderate (fun name c hc => ?_) hc
        have hcarries := h.carries name c hc
        exact ⟨hout _ hcarries.holds, hlive ▸ List.mem_cons_of_mem _ hcarries.held⟩
    · intro name name' c c' hc hc' heq
      change Function.update st.block st.next (some b) name = some c at hc
      change Function.update st.block st.next (some b) name' = some c' at hc'
      change Function.update σ.pointer σ.next p name =
        Function.update σ.pointer σ.next p name' at heq
      rw [h.next] at heq
      by_cases hname : name = st.next
      · by_cases hname' : name' = st.next
        · rw [hname, hname']
        · rw [hname, Function.update_self, Function.update_of_ne hname'] at heq
          rw [Function.update_of_ne hname'] at hc'
          exact absurd heq.symm (hfresh name' c' hc')
      · rw [Function.update_of_ne hname] at hc heq
        by_cases hname' : name' = st.next
        · rw [hname', Function.update_self] at heq
          exact absurd heq (hfresh name c hc)
        · rw [Function.update_of_ne hname'] at hc' heq
          exact h.apart name name' c c' hc hc' heq

omit [DecidableEq ι] in
/-- One name gets another place or another block, or loses its block. -/
theorem Shows.replaced {name q : Nat} {block : Option (BlockStore.Block UInt8)}
    (h : Shows api admits σ st)
    (hreached : Runs.Reach (Client.step api) admits (Client.initial ι) w')
    (hblock : ∀ b, block = some b → Carries w' q b ∧
      ∀ other c, other ≠ name → st.block other = some c → σ.pointer other ≠ q)
    (hothers : ∀ other c, other ≠ name → st.block other = some c →
      Carries w' (σ.pointer other) c) :
    Shows api admits ⟨w', σ.next, Function.update σ.pointer name q⟩ (st.put name block) := by
  refine ⟨hreached, h.next, fun other c hc => ?_, fun other other' c c' hc hc' heq => ?_⟩
  · change Function.update st.block name block other = some c at hc
    change Carries w' (Function.update σ.pointer name q other) c
    by_cases hother : other = name
    · rw [hother, Function.update_self] at hc ⊢
      exact (hblock c hc).1
    · rw [Function.update_of_ne hother] at hc ⊢
      exact hothers other c hother hc
  · change Function.update st.block name block other = some c at hc
    change Function.update st.block name block other' = some c' at hc'
    change Function.update σ.pointer name q other = Function.update σ.pointer name q other' at heq
    by_cases hother : other = name
    · by_cases hother' : other' = name
      · rw [hother, hother']
      · rw [hother, Function.update_self] at hc heq
        rw [Function.update_of_ne hother'] at hc' heq
        exact absurd heq.symm ((hblock c hc).2 other' c' hother' hc')
    · rw [Function.update_of_ne hother] at hc heq
      by_cases hother' : other' = name
      · rw [hother', Function.update_self] at hc' heq
        exact absurd heq ((hblock c' hc').2 other c hother hc)
      · rw [Function.update_of_ne hother'] at hc' heq
        exact h.apart other other' c c' hc hc' heq

omit [DecidableEq ι] in
/-- The same where the place stays. -/
theorem Shows.rewritten {name : Nat} {block : Option (BlockStore.Block UInt8)}
    (h : Shows api admits σ st) (hb : st.block name = some b)
    (hreached : Runs.Reach (Client.step api) admits (Client.initial ι) w')
    (hblock : ∀ b, block = some b → Carries w' (σ.pointer name) b)
    (hothers : ∀ other c, other ≠ name → st.block other = some c →
      Carries w' (σ.pointer other) c) :
    Shows api admits { σ with client := w' } (st.put name block) := by
  have hresult := h.replaced (q := σ.pointer name) hreached (fun c hc => ⟨hblock c hc,
    fun other d hother hd heq => hother (h.apart other name d b hd hb heq)⟩) hothers
  rwa [Function.update_eq_self] at hresult

omit [DecidableEq ι] in
theorem Shows.pointer_ne {name other : Nat} {c : BlockStore.Block UInt8}
    (h : Shows api admits σ st) (hb : st.block name = some b) (hother : other ≠ name)
    (hc : st.block other = some c) : σ.pointer other ≠ σ.pointer name :=
  fun heq => hother (h.apart other name c b hc hb heq)

/-- The blocks that a call on `name` leaves alone, if they stay with the client. -/
theorem Shows.others_kept {name other : Nat} {c : BlockStore.Block UInt8}
    (hreliable : Reliable binOf api admits) (h : Shows api admits σ st)
    (hconsiderate : Considerate σ.client call w' p)
    (htouches : ∀ q, call.Touches q → q = σ.pointer name)
    (hlive : ∀ entry ∈ σ.client.live, entry.1 ≠ σ.pointer name → entry ∈ w'.live)
    (hb : st.block name = some b) (hother : other ≠ name) (hc : st.block other = some c) :
    Carries w' (σ.pointer other) c := by
  have hne := h.pointer_ne hb hother hc
  have hcarries := h.carries other c hc
  exact hcarries.frame (hreliable.invariant h.reached) hconsiderate
    (fun htouch => hne (htouches _ htouch)) (hlive _ hcarries.held hne)

/-- One lemma of one shape for each operation: it returns, and the store that decides as
the allocator did gives the same reply and is shown again. -/
def Follows (api : Api ι) (admits : Client ι → Call → Prop) (σ : Session ι) (st : Store UInt8)
    (op : Op UInt8) : Prop :=
  ∃ σ' st' reply, σ.exec api op = some (σ', reply) ∧
    st.exec 0 (!reply.isRefused) op = some (st', reply) ∧ Shows api admits σ' st'

omit [DecidableEq ι] in
/-- The reply to a request tells whether a pointer was returned. -/
theorem named_reply (σ : Session ι) (w' : Client ι) (p : Nat) :
    (!(σ.named (w', p)).2.isRefused) = decide (p ≠ 0) := by
  by_cases hp : p = 0
  · simp [Session.named, hp, Reply.isRefused]
  · simp [Session.named, hp, Reply.isRefused]

theorem follows_malloc (hreliable : Reliable binOf api admits) (h : Shows api admits σ st)
    {size : Nat} (hallowed : σ.Allowed admits (.malloc size)) :
    Follows api admits σ st (.malloc size) := by
  obtain ⟨w', p, hexec, hconsiderate⟩ := hreliable.returns h.reached hallowed
  obtain ⟨_, hlive⟩ := Client.exec_malloc hexec
  obtain ⟨hreply, hshows⟩ := h.requested (b := .blank UInt8 size) hreliable hallowed hexec
    hconsiderate (fun _ _ htouch => htouch) hlive (fun _ _ _ v hv => by
      simp [BlockStore.Block.blank] at hv)
  refine ⟨(σ.named (w', p)).1, _, (σ.named (w', p)).2, by rw [Session.exec, hexec]; rfl, ?_,
    hshows⟩
  rw [named_reply, hreply]
  rfl

theorem follows_calloc (hreliable : Reliable binOf api admits) (h : Shows api admits σ st)
    {nmemb size : Nat} (hallowed : σ.Allowed admits (.calloc nmemb size)) :
    Follows api admits σ st (.calloc nmemb size) := by
  obtain ⟨w', p, hexec, hconsiderate⟩ := hreliable.returns h.reached hallowed
  obtain ⟨_, hlive⟩ := Client.exec_calloc hexec
  obtain ⟨hreply, hshows⟩ := h.requested (b := .filled (nmemb * size) 0) hreliable hallowed hexec
    hconsiderate (fun _ _ htouch => htouch) hlive (fun hp i hi v hv => by
      rw [← Option.some.inj hv]
      exact hconsiderate.zeroed nmemb size rfl hp i hi)
  refine ⟨(σ.named (w', p)).1, _, (σ.named (w', p)).2, by rw [Session.exec, hexec]; rfl, ?_,
    hshows⟩
  have hgranted : (decide (p ≠ 0) && nmemb * size != 0) = decide (p ≠ 0) := by
    by_cases hzero : nmemb * size = 0
    · simp [hreliable.refuses hzero hexec]
    · simp [hzero]
  rw [named_reply, hreply, Store.exec, hgranted]

theorem follows_free (hreliable : Reliable binOf api admits) (h : Shows api admits σ st)
    {name : Option Nat} (hallowed : σ.Allowed admits (.free name))
    (haccepts : (st.ideal 0 (.free name)).isSome) : Follows api admits σ st (.free name) := by
  obtain ⟨w', p, hexec, hconsiderate⟩ := hreliable.returns h.reached hallowed
  obtain ⟨_, hlive, _⟩ := Client.exec_free hexec
  have hreached := h.reached.next hallowed (Client.step_of_exec hexec)
  have hstays : ∀ entry ∈ σ.client.live, entry.1 ≠ σ.address name → entry ∈ w'.live := by
    intro entry hentry hne
    rw [hlive]
    exact List.mem_filter.mpr ⟨hentry, by simpa using hne⟩
  cases name with
  | none =>
      refine ⟨σ.finished (w', p) |>.1, st, .done, by rw [Session.exec, hexec]; rfl, rfl, hreached,
        h.next, fun name b hb => ?_, h.apart⟩
      have hcarries := h.carries name b hb
      have hnull : σ.pointer name ≠ 0 := fun heq =>
        (hreliable.invariant h.reached).null_not_held (heq ▸ hcarries.holds)
      exact hcarries.frame (hreliable.invariant h.reached) hconsiderate hnull
        (hstays _ hcarries.held hnull)
  | some name =>
      obtain ⟨result, hresult⟩ := Option.isSome_iff_exists.mp haccepts
      obtain ⟨b, hb, hresult⟩ := Option.bind_eq_some_iff.mp hresult
      refine ⟨σ.finished (w', p) |>.1, st.put name none, .done, by rw [Session.exec, hexec]; rfl,
        by simp [Store.exec, hb], ?_⟩
      exact h.rewritten hb hreached (fun _ hnone => by simp at hnone) fun other c hother hc =>
        h.others_kept hreliable hconsiderate (fun _ htouch => htouch) hstays hb hother hc

/-- `realloc(NULL, size)` is a request for a new block. -/
theorem follows_realloc_null (hreliable : Reliable binOf api admits) (h : Shows api admits σ st)
    {size : Nat} (hallowed : σ.Allowed admits (.realloc none size)) :
    Follows api admits σ st (.realloc none size) := by
  obtain ⟨w', p, hexec, hconsiderate⟩ := hreliable.returns h.reached hallowed
  obtain ⟨_, hlive⟩ := Client.exec_realloc hexec
  have hinv := hreliable.invariant h.reached
  have hdrop : Client.drop σ.client.live 0 = σ.client.live := by
    apply List.filter_eq_self.mpr
    intro entry hentry
    have hne : entry.1 ≠ 0 := fun heq => hinv.null_not_held ⟨entry.2, heq ▸ hentry⟩
    simpa using hne
  have hhold : w'.live = Client.hold σ.client.live p size := by
    rw [hlive, Session.address, hdrop]
    by_cases hfail : p = 0 ∧ size ≠ 0
    · rw [if_pos hfail, Client.hold, if_pos hfail.1]
    · rw [if_neg hfail]
  obtain ⟨hreply, hshows⟩ := h.requested (b := .blank UInt8 size) hreliable hallowed hexec
    hconsiderate (fun q hq (htouch : q = 0) => hinv.null_not_held (htouch ▸ hq)) hhold
    (fun _ _ _ v hv => by simp [BlockStore.Block.blank] at hv)
  refine ⟨(σ.named (w', p)).1, _, (σ.named (w', p)).2, congrArg (Option.map σ.named) hexec, ?_,
    hshows⟩
  rw [named_reply, hreply]
  rfl

theorem follows_realloc (hreliable : Reliable binOf api admits) (h : Shows api admits σ st)
    {name size : Nat} (hallowed : σ.Allowed admits (.realloc (some name) size))
    (haccepts : (st.ideal 0 (.realloc (some name) size)).isSome) :
    Follows api admits σ st (.realloc (some name) size) := by
  obtain ⟨w', q, hexec, hconsiderate⟩ := hreliable.returns h.reached hallowed
  obtain ⟨_, hlive⟩ := Client.exec_realloc hexec
  have hreached := h.reached.next hallowed (Client.step_of_exec hexec)
  obtain ⟨result, hresult⟩ := Option.isSome_iff_exists.mp haccepts
  obtain ⟨b, hb, _⟩ := Option.bind_eq_some_iff.mp hresult
  have hcarries := h.carries name b hb
  have hothers : ∀ other c, other ≠ name → st.block other = some c →
      Carries w' (σ.pointer other) c := by
    intro other c hother hc
    refine h.others_kept hreliable hconsiderate (fun _ htouch => htouch) ?_ hb hother hc
    intro entry hentry hne
    have hdrop : entry ∈ Client.drop σ.client.live (σ.pointer name) :=
      List.mem_filter.mpr ⟨hentry, by simpa using hne⟩
    rw [hlive]
    split
    · exact hentry
    · unfold Client.hold
      split
      · exact hdrop
      · exact List.mem_cons_of_mem _ hdrop
  have hexec' : σ.exec api (.realloc (some name) size) = some (σ.resized name size (w', q)) := by
    rw [Session.exec]
    exact congrArg (Option.map (σ.resized name size)) hexec
  by_cases hsize : size = 0
  · refine ⟨{ σ with client := w' }, st.put name none, .done, ?_, by simp [Store.exec, hb, hsize],
      h.rewritten hb hreached (fun _ hnone => by simp at hnone) hothers⟩
    rw [hexec', Session.resized, if_pos hsize]
  · obtain ⟨w₁, q₁, hexec₁, hkeeps, hsame⟩ :=
      hreliable.resizes h.reached hcarries.holds hsize hallowed
    obtain ⟨rfl, rfl⟩ := Prod.mk.inj (Option.some.inj (hexec₁.symm.trans hexec))
    by_cases hq : q₁ = 0
    · refine ⟨{ σ with client := w₁ }, st, .refused, ?_,
        by simp [Store.exec, hb, hsize, Reply.isRefused], hreached, h.next, fun other c hc => ?_,
        h.apart⟩
      · rw [hexec', Session.resized, if_neg hsize, if_pos hq]
      · have hcarries' := h.carries other c hc
        refine ⟨hkeeps.refused hq ▸ hcarries'.held, fun i hi v hv => ?_⟩
        rw [hsame hq]
        exact hcarries'.bytes i hi v hv
    · have hmoved : w₁.live = (q₁, size) :: Client.drop σ.client.live (σ.pointer name) := by
        rw [hlive, if_neg fun hboth => hq hboth.1, Client.hold, if_neg hq]
        rfl
      have hkeys := (hreliable.invariant hreached).keys_nodup
      have hroom := (hreliable.invariant h.reached).held_room hcarries.held
      refine ⟨{ σ with client := w₁, pointer := Function.update σ.pointer name q₁ },
        st.put name (some (b.resize size)), .granted, ?_,
        by simp [Store.exec, hb, hsize, Reply.isRefused], h.replaced hreached ?_ hothers⟩
      · rw [hexec', Session.resized, if_neg hsize, if_neg hq]
      · intro b' hb'
        obtain rfl := Option.some.inj hb'
        refine ⟨⟨hmoved ▸ List.mem_cons_self, fun i hi v hv => ?_⟩, fun other c hother hc heq => ?_⟩
        · change (if i < b.size then b.cell i else none) = some v at hv
          split at hv
          · next hlt =>
              have hdata := hkeeps.data hq i (by
                change i < size at hi
                omega)
              rw [hdata]
              exact hcarries.bytes i hlt v hv
          · simp at hv
        · have hheld := (hothers other c hother hc).held
          have hne := h.pointer_ne hb hother hc
          rw [hmoved, List.map_cons, List.nodup_cons] at hkeys
          refine hkeys.1 (List.mem_map.mpr ⟨_, List.mem_filter.mpr
            ⟨(h.carries other c hc).held, by simpa using hne⟩, heq⟩)

theorem follows_write (hreliable : Reliable binOf api admits) (h : Shows api admits σ st)
    {name offset : Nat} {byte : UInt8} (hallowed : σ.Allowed admits (.write name offset byte))
    (haccepts : (st.ideal 0 (.write name offset byte)).isSome) :
    Follows api admits σ st (.write name offset byte) := by
  obtain ⟨result, hresult⟩ := Option.isSome_iff_exists.mp haccepts
  obtain ⟨b, hb, hwritten⟩ := Option.bind_eq_some_iff.mp hresult
  have hoffset : offset < b.size := by
    by_contra hnot
    simp [hnot] at hwritten
  have hinv := hreliable.invariant h.reached
  have hcarries := h.carries name b hb
  have hroom := hinv.held_room hcarries.held
  have hreached := h.reached.next hallowed rfl
  refine ⟨_, st.put name (some (b.write offset byte)), .done, rfl,
    by simp [Store.exec, hb, hoffset], h.rewritten hb hreached ?_ ?_⟩
  · intro b' hb'
    obtain rfl := Option.some.inj hb'
    refine ⟨hcarries.held, fun i hi v hv => ?_⟩
    change Function.update b.cell offset (some byte) i = some v at hv
    change Function.update σ.client.heap.mem (σ.pointer name + offset) byte
      (σ.pointer name + i) = v
    by_cases heq : i = offset
    · rw [heq, Function.update_self] at hv ⊢
      exact Option.some.inj hv
    · rw [Function.update_of_ne heq] at hv
      rw [Function.update_of_ne (by omega)]
      exact hcarries.bytes i hi v hv
  · intro other c hother hc
    have hcarries' := h.carries other c hc
    have hroom' := hinv.held_room hcarries'.held
    have hapart := hinv.held_apart hcarries'.holds hcarries.holds (h.pointer_ne hb hother hc)
    refine ⟨hcarries'.held, fun i hi v hv => ?_⟩
    change Function.update σ.client.heap.mem (σ.pointer name + offset) byte
      (σ.pointer other + i) = v
    rw [Function.update_of_ne (by omega)]
    exact hcarries'.bytes i hi v hv

omit [DecidableEq ι] in
theorem follows_read (h : Shows api admits σ st) {name offset : Nat}
    (haccepts : (st.ideal 0 (.read name offset)).isSome) :
    Follows api admits σ st (.read name offset) := by
  obtain ⟨result, hresult⟩ := Option.isSome_iff_exists.mp haccepts
  obtain ⟨b, hb, hread⟩ := Option.bind_eq_some_iff.mp hresult
  by_cases hoffset : offset < b.size
  · rw [if_pos hoffset] at hread
    obtain ⟨v, hv, _⟩ := Option.bind_eq_some_iff.mp hread
    refine ⟨σ, st, .value v, ?_, by simp [Store.exec, hb, hoffset, hv], h⟩
    rw [Session.exec, (h.carries name b hb).bytes offset hoffset v hv]
  · simp [hoffset] at hread

/-- An allocator that keeps its promises refines the store. -/
theorem Reliable.refines (hreliable : Reliable binOf api admits) :
    Refines 0 (Session.exec api) (Shows api admits) (Session.Allowed admits) := by
  intro σ st op h hallowed haccepts
  cases op with
  | malloc size => exact follows_malloc hreliable h hallowed
  | calloc nmemb size => exact follows_calloc hreliable h hallowed
  | free name => exact follows_free hreliable h hallowed haccepts
  | realloc name size =>
      cases name with
      | none => exact follows_realloc_null hreliable h hallowed
      | some name => exact follows_realloc hreliable h hallowed haccepts
  | write name offset byte => exact follows_write hreliable h hallowed haccepts
  | read name offset => exact follows_read h haccepts

end Refinement

theorem shows_initial (api : Api ι) (admits : Client ι → Call → Prop) :
    Shows api admits (Session.initial ι) (Store.empty UInt8) :=
  ⟨.start, rfl, fun _ _ hb => by simp [Store.empty] at hb, fun _ _ _ _ hb => by
    simp [Store.empty] at hb⟩

/-- The session and the store side by side from the start: the client's operations are
admitted by the allocator and accepted by the store. -/
def SideBySide (api : Api ι) (admits : Client ι → Call → Prop) (σ : Session ι)
    (st : Store UInt8) : Prop :=
  Runs.Reach (joint 0 (Session.exec api))
    (fun pair op => pair.1.Allowed admits op ∧ (pair.2.ideal 0 op).isSome)
    (Session.initial ι, Store.empty UInt8) (σ, st)

theorem callocWith_empty {malloc : Globals ι → Nat → Option (Globals ι × Nat)} {s s' : Globals ι}
    {nmemb size p : Nat} (hzero : nmemb * size = 0)
    (hcall : callocWith malloc s nmemb size = some (s', p)) : p = 0 := by
  rw [callocWith, if_pos (Nat.mul_eq_zero.mp hzero)] at hcall
  exact (Prod.mk.inj (Option.some.inj hcall)).2.symm

namespace Segregated

theorem reliable {mmap : Mmap} (hsound : mmap.Sound) :
    Reliable sizeToBin (api mmap) (Admits mmap) where
  invariant := reach_inv hsound
  returns := by
    intro w call hreach hadmits
    obtain ⟨hallows, hsafe⟩ := hadmits.safe
    obtain ⟨w', p, hexec, _, hconsiderate⟩ :=
      (contract hsound).step (reach_inv hsound hreach) hallows hsafe
    exact ⟨w', p, hexec, hconsiderate⟩
  resizes := by
    intro w ptr size hreach hptr hpos hadmits
    obtain ⟨L, h, howns, hacc⟩ := reach_accounts hsound hreach
    obtain ⟨w', q, hexec, hresult⟩ := reallocated_of_safe hsound (reach_inv hsound hreach) h howns
      hacc hptr hpos hadmits.1.2 hadmits.2
    exact ⟨w', q, hexec, hresult.keeps, fun hq => (hresult.memory hq).1⟩
  refuses := fun hzero hexec => callocWith_empty hzero (Client.exec_calloc hexec).1

/-- `segregated_allocator.c` refines the store of named blocks: after any operations that the
client may ask for, the next one returns, with the reply that the store gives if it grants
and refuses as the allocator did. -/
theorem refines_block_store {mmap : Mmap} (hsound : mmap.Sound) {σ : Session Bin}
    {st : Store UInt8} (hrun : SideBySide (api mmap) (Admits mmap) σ st) {op : Op UInt8}
    (hallowed : σ.Allowed (Admits mmap) op) (haccepts : (st.ideal 0 op).isSome) :
    ∃ σ' st' reply, σ.exec (api mmap) op = some (σ', reply) ∧
      st.exec 0 (!reply.isRefused) op = some (st', reply) := by
  have hrefines := (reliable hsound).refines
  have hshows := hrefines.shows_of_reach (shows_initial (api mmap) (Admits mmap)) hrun
  obtain ⟨σ', st', reply, hexec, hstore, _⟩ := hrefines σ st op hshows hallowed haccepts
  exact ⟨σ', st', reply, hexec, hstore⟩

/-- A byte is written, and read again after its block has moved. -/
theorem refines_block_store_example : ∃ σ st,
    Runs.run (joint 0 (Session.exec (api lowRegion))) (Session.initial Bin, Store.empty UInt8)
        [.malloc 20, .write 0 19 7, .calloc 3 4, .realloc (some 0) 100] = some (σ, st) ∧
      ∃ σ' st' reply, σ.exec (api lowRegion) (.read 0 19) = some (σ', reply) ∧
        st.exec 0 (!reply.isRefused) (.read 0 19) = some (st', reply) := by
  have hfacts : (Runs.run (joint 0 (Session.exec (api lowRegion)))
      (Session.initial Bin, Store.empty UInt8)
      [.malloc 20, .write 0 19 7, .calloc 3 4, .realloc (some 0) 100]).map
        (fun pair => decide (pair.1.Allowed (Admits lowRegion) (.read 0 19) ∧
          (pair.2.ideal 0 (.read 0 19)).isSome)) = some true := by decide +kernel
  obtain ⟨⟨σ, st⟩, hrun, hnext⟩ := Option.map_eq_some_iff.mp hfacts
  obtain ⟨hallowed, haccepts⟩ := of_decide_eq_true hnext
  exact ⟨σ, st, hrun, refines_block_store lowRegion_sound
    (.of_run .start (by decide +kernel) hrun) hallowed haccepts⟩

end Segregated

namespace FirstFit

theorem reliable {mmap : Mmap} (hsound : mmap.Sound) :
    Reliable theList (api mmap) (Admits mmap) where
  invariant := reach_inv hsound
  returns := by
    intro w call hreach hadmits
    obtain ⟨hallows, hsafe⟩ := hadmits.safe
    obtain ⟨w', p, hexec, _, hconsiderate⟩ :=
      (contract hsound).step (reach_inv hsound hreach) hallows hsafe
    exact ⟨w', p, hexec, hconsiderate⟩
  resizes := by
    intro w ptr size hreach hptr hpos hadmits
    obtain ⟨w', q, hexec, hresult⟩ :=
      resized_of_safe hsound (reach_inv hsound hreach) hptr hpos hadmits.1.2 hadmits.2
    exact ⟨w', q, hexec, hresult.keeps, fun hq => (hresult.reshapes.refused hq).1⟩
  refuses := fun hzero hexec => callocWith_empty hzero (Client.exec_calloc hexec).1

/-- `allocator.c` refines the same store, through merges and resizes in place. -/
theorem refines_block_store_in_place {mmap : Mmap} (hsound : mmap.Sound) {σ : Session Unit}
    {st : Store UInt8} (hrun : SideBySide (api mmap) (Admits mmap) σ st) {op : Op UInt8}
    (hallowed : σ.Allowed (Admits mmap) op) (haccepts : (st.ideal 0 op).isSome) :
    ∃ σ' st' reply, σ.exec (api mmap) op = some (σ', reply) ∧
      st.exec 0 (!reply.isRefused) op = some (st', reply) := by
  have hrefines := (reliable hsound).refines
  have hshows := hrefines.shows_of_reach (shows_initial (api mmap) (Admits mmap)) hrun
  obtain ⟨σ', st', reply, hexec, hstore, _⟩ := hrefines σ st op hshows hallowed haccepts
  exact ⟨σ', st', reply, hexec, hstore⟩

/-- The block grows over its free neighbour, and keeps its byte. -/
theorem refines_block_store_in_place_example : ∃ σ st,
    Runs.run (joint 0 (Session.exec (api lowRegion))) (Session.initial Unit, Store.empty UInt8)
        [.malloc 20, .write 0 19 7, .malloc 90, .free (some 1), .realloc (some 0) 100] =
          some (σ, st) ∧
      ∃ σ' st' reply, σ.exec (api lowRegion) (.read 0 19) = some (σ', reply) ∧
        st.exec 0 (!reply.isRefused) (.read 0 19) = some (st', reply) := by
  have hfacts : (Runs.run (joint 0 (Session.exec (api lowRegion)))
      (Session.initial Unit, Store.empty UInt8)
      [.malloc 20, .write 0 19 7, .malloc 90, .free (some 1), .realloc (some 0) 100]).map
        (fun pair => decide (pair.1.Allowed (Admits lowRegion) (.read 0 19) ∧
          (pair.2.ideal 0 (.read 0 19)).isSome)) = some true := by decide +kernel
  obtain ⟨⟨σ, st⟩, hrun, hnext⟩ := Option.map_eq_some_iff.mp hfacts
  obtain ⟨hallowed, haccepts⟩ := of_decide_eq_true hnext
  exact ⟨σ, st, hrun, refines_block_store_in_place lowRegion_sound
    (.of_run .start (by decide +kernel) hrun) hallowed haccepts⟩

end FirstFit

/-- The two allocators cannot be told apart: a client that is well behaved over the store
which grants everything, whatever it makes of the replies, gets the same replies from both,
as long as its calls are admitted and no request fails. -/
theorem same_replies {mmap mmap' : Mmap} (hsound : mmap.Sound) (hsound' : mmap'.Sound)
    (strategy : List (Reply UInt8) → Op UInt8) (n : Nat) {st : Store UInt8}
    {replies : List (Reply UInt8)}
    (hideal : play (Store.ideal 0) strategy n (Store.empty UInt8) [] = some (st, replies))
    (hfirst : Smooth (Session.exec (FirstFit.api mmap)) strategy
      (Session.Allowed (FirstFit.Admits mmap)) n (Session.initial Unit) [])
    (hsecond : Smooth (Session.exec (Segregated.api mmap')) strategy
      (Session.Allowed (Segregated.Admits mmap')) n (Session.initial Segregated.Bin) []) :
    ∃ σ σ', play (Session.exec (FirstFit.api mmap)) strategy n (Session.initial Unit) [] =
        some (σ, replies) ∧
      play (Session.exec (Segregated.api mmap')) strategy n (Session.initial Segregated.Bin) [] =
        some (σ', replies) := by
  obtain ⟨σ, hplay, _⟩ :=
    (FirstFit.reliable hsound).refines.play_eq (shows_initial _ _) hfirst hideal
  obtain ⟨σ', hplay', _⟩ :=
    (Segregated.reliable hsound').refines.play_eq (shows_initial _ _) hsecond hideal
  exact ⟨σ, σ', hplay, hplay'⟩

/-- A client that frees a block or not by a byte that it reads. -/
def readingClient (replies : List (Reply UInt8)) : Op UInt8 :=
  match replies with
  | [] => .malloc 20
  | [_] => .write 0 3 7
  | [_, _] => .calloc 2 8
  | [_, _, _] => .realloc (some 0) 100
  | [_, _, _, _] => .read 0 3
  | [_, _, _, _, .value v] => if v = 7 then .free (some 1) else .free (some 0)
  | _ => .read 0 3

theorem same_replies_example : ∃ σ σ',
    play (Session.exec (FirstFit.api lowRegion)) readingClient 7 (Session.initial Unit) [] =
        some (σ, [.granted, .done, .granted, .granted, .value 7, .done, .value 7]) ∧
      play (Session.exec (Segregated.api highRegion)) readingClient 7
        (Session.initial Segregated.Bin) [] =
        some (σ', [.granted, .done, .granted, .granted, .value 7, .done, .value 7]) := by
  have hideal : (play (Store.ideal 0) readingClient 7 (Store.empty UInt8) []).map Prod.snd =
      some [.granted, .done, .granted, .granted, .value 7, .done, .value 7] := by decide +kernel
  obtain ⟨⟨st, replies⟩, hplay, rfl⟩ := Option.map_eq_some_iff.mp hideal
  exact same_replies lowRegion_sound highRegion_sound readingClient 7 hplay (by decide +kernel)
    (by decide +kernel)

end AllocSitter
