/-
What an allocator is for, without addresses: a store of blocks that are known by name
and hold what was last written to them.  A client is a strategy that decides its next
operation by the replies so far.
-/
import AllocSitter.Runs
import Mathlib.Logic.Function.Basic

namespace BlockStore

universe u v

variable {β : Type u}

/-- A block of `size` cells; a cell that has not been written is `none`. -/
structure Block (β : Type u) where
  size : Nat
  cell : Nat → Option β

/-- The blocks by name.  Names are given out in order, and a block that was given back
has none. -/
structure Store (β : Type u) where
  next : Nat
  block : Nat → Option (Block β)

inductive Op (β : Type u) where
  | malloc (size : Nat)
  | calloc (nmemb size : Nat)
  | free (name : Option Nat)
  | realloc (name : Option Nat) (size : Nat)
  | write (name offset : Nat) (value : β)
  | read (name offset : Nat)
deriving DecidableEq

inductive Reply (β : Type u) where
  | done
  | granted
  | refused
  | value (v : β)
deriving DecidableEq

namespace Block

def blank (β : Type u) (size : Nat) : Block β := ⟨size, fun _ => none⟩

def filled (size : Nat) (v : β) : Block β := ⟨size, fun _ => some v⟩

/-- The cells that both sizes have are kept. -/
def resize (b : Block β) (size : Nat) : Block β :=
  ⟨size, fun i => if i < b.size then b.cell i else none⟩

def write (b : Block β) (offset : Nat) (v : β) : Block β :=
  { b with cell := Function.update b.cell offset (some v) }

end Block

namespace Store

def empty (β : Type u) : Store β := ⟨0, fun _ => none⟩

def put (st : Store β) (name : Nat) (b : Option (Block β)) : Store β :=
  { st with block := Function.update st.block name b }

/-- A new block takes the next name, if it is granted. -/
def request (st : Store β) (granted : Bool) (b : Block β) : Store β × Reply β :=
  if granted then (⟨st.next + 1, Function.update st.block st.next (some b)⟩, .granted)
  else (st, .refused)

/-- One operation.  Whether a request is granted is not for the store to decide;
`none` is an operation that no client may ask for: on a block it does not have, beyond the
end of a block, or on a cell that was never written. -/
def exec (zero : β) (st : Store β) (granted : Bool) : Op β → Option (Store β × Reply β)
  | .malloc size => some (st.request granted (.blank β size))
  | .calloc nmemb size =>
      some (st.request (granted && nmemb * size != 0) (.filled (nmemb * size) zero))
  | .free none => some (st, .done)
  | .free (some name) => do
      let _ ← st.block name
      some (st.put name none, .done)
  | .realloc none size => some (st.request granted (.blank β size))
  | .realloc (some name) size => do
      let b ← st.block name
      if size = 0 then some (st.put name none, .done)
      else if granted then some (st.put name (some (b.resize size)), .granted)
      else some (st, .refused)
  | .write name offset v => do
      let b ← st.block name
      if offset < b.size then some (st.put name (some (b.write offset v)), .done) else none
  | .read name offset => do
      let b ← st.block name
      if offset < b.size then
        let v ← b.cell offset
        some (st, .value v)
      else none

/-- The store that grants everything. -/
def ideal (zero : β) (st : Store β) (op : Op β) : Option (Store β × Reply β) :=
  st.exec zero true op

end Store

/-- A request that nobody grants: `calloc` of no cells. -/
def Op.Idle : Op β → Prop
  | .calloc nmemb size => nmemb * size = 0
  | _ => False

instance : ∀ op : Op β, Decidable op.Idle
  | .malloc _ => .isFalse id
  | .calloc nmemb size => inferInstanceAs (Decidable (nmemb * size = 0))
  | .free _ => .isFalse id
  | .realloc _ _ => .isFalse id
  | .write _ _ _ => .isFalse id
  | .read _ _ => .isFalse id

def Reply.isRefused : Reply β → Bool
  | .refused => true
  | _ => false

/-- A request for room has failed. -/
def Fails (op : Op β) (reply : Reply β) : Prop := reply.isRefused = true ∧ ¬ op.Idle

instance (op : Op β) (reply : Reply β) : Decidable (Fails op reply) :=
  inferInstanceAs (Decidable (_ ∧ _))

/-- Where nothing has failed, the store has granted everything. -/
theorem exec_granted {zero : β} {st st' : Store β} {granted : Bool} {op : Op β}
    {reply : Reply β} (hexec : st.exec zero granted op = some (st', reply))
    (hserved : ¬ Fails op reply) : st.ideal zero op = some (st', reply) := by
  cases granted with
  | true => exact hexec
  | false =>
      have hrefused : ∀ b, st.request false b = (st', reply) → reply.isRefused = true := by
        intro b h
        rw [← (Prod.mk.inj h).2]
        rfl
      cases op with
      | malloc size =>
          exact absurd ⟨hrefused _ (Option.some.inj hexec), id⟩ hserved
      | calloc nmemb size =>
          by_cases hzero : nmemb * size = 0
          · simpa [Store.ideal, Store.exec, hzero] using hexec
          · exact absurd ⟨hrefused _ (Option.some.inj hexec), hzero⟩ hserved
      | free name =>
          cases name with
          | none => exact hexec
          | some name => exact hexec
      | realloc name size =>
          cases name with
          | none => exact absurd ⟨hrefused _ (Option.some.inj hexec), id⟩ hserved
          | some name =>
              obtain ⟨b, hb, hresult⟩ := Option.bind_eq_some_iff.mp hexec
              by_cases hsize : size = 0
              · simpa [Store.ideal, Store.exec, hb, hsize] using hresult
              · simp only [hsize, ↓reduceIte, Bool.false_eq_true] at hresult
                have hreply := (Prod.mk.inj (Option.some.inj hresult)).2
                exact absurd ⟨by rw [← hreply]; rfl, id⟩ hserved
      | write => exact hexec
      | read => exact hexec

section Play

variable {σ : Type v} (exec : σ → Op β → Option (σ × Reply β))
  (strategy : List (Reply β) → Op β)

/-- The first `n` operations of a client. -/
def play : Nat → σ → List (Reply β) → Option (σ × List (Reply β))
  | 0, s, replies => some (s, replies)
  | n + 1, s, replies =>
      (exec s (strategy replies)).bind fun result =>
        play n result.1 (replies ++ [result.2])

/-- Every operation of the play is admitted where it is made, and nothing fails. -/
def Smooth (ok : σ → Op β → Prop) : Nat → σ → List (Reply β) → Prop
  | 0, _, _ => True
  | n + 1, s, replies => ok s (strategy replies) ∧
      ∀ s' reply, exec s (strategy replies) = some (s', reply) →
        ¬ Fails (strategy replies) reply ∧ Smooth ok n s' (replies ++ [reply])

instance Smooth.decidable {ok : σ → Op β → Prop} [∀ s op, Decidable (ok s op)] :
    ∀ n s replies, Decidable (Smooth exec strategy ok n s replies)
  | 0, _, _ => .isTrue trivial
  | n + 1, s, replies =>
      match hexec : exec s (strategy replies) with
      | none => decidable_of_iff (ok s (strategy replies))
          ⟨fun hok => ⟨hok, fun s' reply h => by simp [hexec] at h⟩, fun h => h.1⟩
      | some (s', reply) =>
          have : Decidable (Smooth exec strategy ok n s' (replies ++ [reply])) :=
            Smooth.decidable n s' (replies ++ [reply])
          decidable_of_iff (ok s (strategy replies) ∧ ¬ Fails (strategy replies) reply ∧
              Smooth exec strategy ok n s' (replies ++ [reply]))
            ⟨fun h => ⟨h.1, fun s'' reply' h' => by
              rw [hexec] at h'
              obtain ⟨rfl, rfl⟩ := Prod.mk.inj (Option.some.inj h')
              exact h.2⟩, fun h => ⟨h.1, h.2 s' reply hexec⟩⟩

variable {exec strategy}

/-- An implementation that shows the store: what the store accepts returns, and the store
that decides as the implementation did gives the same reply. -/
def Refines (zero : β) (exec : σ → Op β → Option (σ × Reply β)) (shows : σ → Store β → Prop)
    (ok : σ → Op β → Prop) : Prop :=
  ∀ s st op, shows s st → ok s op → (st.ideal zero op).isSome →
    ∃ s' st' reply, exec s op = some (s', reply) ∧
      st.exec zero (!reply.isRefused) op = some (st', reply) ∧ shows s' st'

/-- The implementation and the store side by side. -/
def joint (zero : β) (exec : σ → Op β → Option (σ × Reply β)) (pair : σ × Store β) (op : Op β) :
    Option (σ × Store β) :=
  (exec pair.1 op).bind fun result =>
    (pair.2.exec zero (!result.2.isRefused) op).map fun stored => (result.1, stored.1)

/-- Along every run that the store accepts the implementation shows it. -/
theorem Refines.shows_of_reach {zero : β} {shows : σ → Store β → Prop} {ok : σ → Op β → Prop}
    (hrefines : Refines zero exec shows ok) {init pair : σ × Store β}
    (hinit : shows init.1 init.2)
    (hreach : Runs.Reach (joint zero exec)
      (fun pair op => ok pair.1 op ∧ (pair.2.ideal zero op).isSome) init pair) :
    shows pair.1 pair.2 := by
  induction hreach with
  | start => exact hinit
  | @next before after op _ hok hstep ih =>
      obtain ⟨s', st', reply, hexec, hstore, hshows⟩ :=
        hrefines before.1 before.2 op ih hok.1 hok.2
      rw [joint, hexec, Option.bind_some, hstore] at hstep
      obtain rfl := Option.some.inj hstep
      exact hshows

/-- A play in which nothing fails is the play over the store that grants everything. -/
theorem Refines.play_eq {zero : β} {shows : σ → Store β → Prop} {ok : σ → Op β → Prop}
    (hrefines : Refines zero exec shows ok) {n : Nat} {s : σ} {st st' : Store β}
    {replies out : List (Reply β)} (hshows : shows s st)
    (hsmooth : Smooth exec strategy ok n s replies)
    (hideal : play (Store.ideal zero) strategy n st replies = some (st', out)) :
    ∃ s', play exec strategy n s replies = some (s', out) ∧ shows s' st' := by
  induction n generalizing s st replies with
  | zero =>
      obtain ⟨rfl, rfl⟩ := Prod.mk.inj (Option.some.inj hideal)
      exact ⟨s, rfl, hshows⟩
  | succ n ih =>
      obtain ⟨hok, hrest⟩ := hsmooth
      obtain ⟨⟨st₁, reply⟩, hstore, hideal⟩ := Option.bind_eq_some_iff.mp hideal
      obtain ⟨s₁, st₂, reply', hexec, hsame, hshows'⟩ :=
        hrefines s st (strategy replies) hshows hok (by rw [hstore]; rfl)
      obtain ⟨hserved, hsmooth⟩ := hrest s₁ reply' hexec
      -- The store that grants everything has made the same step.
      have heq := (exec_granted hsame hserved).symm.trans hstore
      obtain ⟨rfl, rfl⟩ := Prod.mk.inj (Option.some.inj heq)
      obtain ⟨s', hplay, hend⟩ := ih hshows' hsmooth hideal
      exact ⟨s', by rw [play, hexec]; exact hplay, hend⟩

end Play

end BlockStore
