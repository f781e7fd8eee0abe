/-
The runs of `segregated_allocator.c` in which no sum of `arena_extend` wraps around, on a
region that may come late: every live block is as large as its request needs, and the account
is their sum.
-/
import AllocSitter.ExactChunks
import AllocSitter.PooledHeap

namespace AllocSitter

open ByteMemory LinkedChain Tiling

namespace Segregated

/-- A call as a well-behaved client makes it, with byte counts of at most `2 ^ 63`, whose
request, if it misses the lists, is compared with the end of the region by its true sum. -/
def AdmitsLate (mmap : Mmap) (w : Client Bin) (call : Call) : Prop :=
  w.Disciplined (2 ^ 63) (2 ^ 63) call ∧ BreakSafe sizeToBin mmap w.heap (request call)

instance (mmap : Mmap) (w : Client Bin) (call : Call) : Decidable (AdmitsLate mmap w call) :=
  inferInstanceAs (Decidable (_ ∧ _))

variable {mmap : Mmap} {w w' : Client Bin} {s s' : State} {L L' : Layout Bin} {call : Call}
  {q : Nat}

theorem Admits.late (h : Admits mmap w call) : AdmitsLate mmap w call := by
  refine ⟨h.1, fun n hn hmisses => ?_⟩
  have hsafe := h.2 n hn hmisses
  unfold ArenaSafe at hsafe
  unfold SumSafe
  split
  · next hbase =>
      rw [if_pos hbase] at hsafe
      cases hfirst : mmap w.heap.mmapCalls with
      | some base => simpa only [hfirst] using hsafe
      | none =>
          cases hsecond : mmap (w.heap.mmapCalls + 1) with
          | some base =>
              simp only [hfirst, hsecond] at hsafe
              exact hsafe.2
          | none => trivial
  · next hbase => rwa [if_neg hbase] at hsafe

/-- The region, if there is one, is one that `mmap` has returned. -/
def Backs (mmap : Mmap) (s : State) : Prop :=
  s.arenaBase ≠ 0 → ∃ k, mmap k = some s.arenaBase

theorem Backs.of_same (h : Backs mmap s) (hsame : SameArena s s') : Backs mmap s' := by
  unfold Backs
  rwa [hsame.arenaBase]

/-- What a call of the measured part does to the peak and to the region in use. -/
structure PeakStep (s s' : State) : Prop where
  mono : s.stat.peakLiveRealBytes ≤ s'.stat.peakLiveRealBytes
  /-- The peak is raised to what is in use at most. -/
  within : s'.stat.peakLiveRealBytes ≤ max s.stat.peakLiveRealBytes (arenaUsedBytes s')
  grows : arenaUsedBytes s ≤ arenaUsedBytes s'

theorem PeakStep.of_same (hstat : s'.stat.peakLiveRealBytes = s.stat.peakLiveRealBytes)
    (hsame : SameArena s s') : PeakStep s s' :=
  ⟨Nat.le_of_eq hstat.symm, hstat ▸ Nat.le_max_left _ _,
    Nat.le_of_eq (arenaUsedBytes_same hsame).symm⟩

theorem PeakStep.trans {s'' : State} (h : PeakStep s s') (h' : PeakStep s' s'') :
    PeakStep s s'' := by
  obtain ⟨hmono, hwithin, hgrows⟩ := h
  obtain ⟨hmono', hwithin', hgrows'⟩ := h'
  exact ⟨by omega, by omega, by omega⟩

/-- The client holds the used blocks, each as large as the last request for it needs, and the
account is right. -/
structure Booked (mmap : Mmap) (w : Client Bin) (L : Layout Bin) : Prop where
  pooled : Pooled sizeToBin w.heap L
  owns : OwnsBy (fun n size => n + 8 ≤ size ∧ size = chunkNeed n) w.live
    (Layout.usedBlocks L.blocks)
  accounts : Accounts w.heap L
  region : Backs mmap w.heap

theorem booked_initial (mmap : Mmap) : Booked mmap (Client.initial Bin) (Layout.empty Bin) :=
  ⟨(represents_initial sizeToBin).pooled, ⟨List.Perm.refl _, by simp [Client.initial]⟩,
    ⟨rfl, Nat.le_refl _⟩, fun hne => absurd rfl hne⟩

namespace Booked

theorem drop_null (h : Booked mmap w L) : Client.drop w.live 0 = w.live :=
  h.owns.drop_null fun _ hb => h.pooled.payload_ne_zero hb

theorem keys_nodup (h : Booked mmap w L) : (w.live.map Prod.fst).Nodup :=
  h.owns.pointers.nodup_iff.mpr h.pooled.payload_nodup

/-- In user space no sum wraps for a request of at most `2 ^ 63` bytes. -/
theorem admits (h : Booked mmap w L) (hspace : mmap.InUserSpace)
    (hcall : w.Disciplined (2 ^ 63) (2 ^ 63) call) : AdmitsLate mmap w call := by
  refine ⟨hcall, fun n hn _ => ?_⟩
  have hbound := request_le hcall.2 hn
  have hneed := (chunkNeed_bounds (show n + 40 ≤ 2 ^ 64 by omega)).2.2.2.1
  unfold SumSafe
  split
  · cases hfirst : mmap w.heap.mmapCalls with
    | some base =>
        have hlow := hspace _ _ hfirst
        simp only
        omega
    | none =>
        cases hsecond : mmap (w.heap.mmapCalls + 1) with
        | some base =>
            have hlow := hspace _ _ hsecond
            simp only
            omega
        | none => trivial
  · next hbase =>
      obtain ⟨k, hmap⟩ := h.region hbase
      have hlow := hspace _ _ hmap
      obtain ⟨_, _, _, hend⟩ := h.pooled.room.region hbase
      obtain ⟨_, htop⟩ := h.pooled.room.top hbase
      omega

theorem exact (h : Booked mmap w L) : Exact w := by
  rintro ⟨ptr, n⟩ hentry
  obtain ⟨b, hb, rfl, _, hsize⟩ := h.owns.block_of_mem hentry
  exact (h.pooled.chunk_eq (Layout.mem_usedBlocks.mp hb).1).trans hsize

/-- The client has written to its blocks, or the counters were reset. -/
theorem of_same (h : Booked mmap w L) (hpooled : Pooled sizeToBin s' L)
    (hsame : SameArena w.heap s') (hlive : s'.stat.liveRealBytes = w.heap.stat.liveRealBytes)
    (hpeak : s'.stat.liveRealBytes ≤ s'.stat.peakLiveRealBytes) :
    Booked mmap ⟨s', w.live⟩ L :=
  ⟨hpooled, h.owns, ⟨hlive.trans h.accounts.live, hpeak⟩, h.region.of_same hsame⟩

/-- A request has been answered, and then at most payload bytes were written. -/
theorem gain {s₁ : State} {L₁ : Layout Bin} {n p : Nat} (h : Booked mmap w L)
    (hn : n + 40 ≤ 2 ^ 64) (hanswered : Answered sizeToBin liveAdd mmap w.heap L n s₁ p L₁)
    (hpooled : Pooled sizeToBin s' L₁) (hsame : SameArena s₁ s') (hstat : s'.stat = s₁.stat) :
    Booked mmap ⟨s', Client.hold w.live p n⟩ L₁ ∧ PeakStep w.heap s' := by
  obtain ⟨haccounts, _, hpeak⟩ := gains_accounts h.accounts hanswered.gains hanswered.pooled
  have hused := live_le_used hanswered.pooled haccounts
  have hgrows := arenaUsedBytes_le h.pooled.room hanswered.pooled.room hanswered.grows
  have hregion : Backs mmap s₁ := by
    intro hne
    by_cases hbase : w.heap.arenaBase = 0
    · exact hanswered.region hbase hne
    · rw [(hanswered.grows hbase).1]
      exact h.region hbase
  refine ⟨⟨hpooled, ?_, ⟨by rw [hstat]; exact haccounts.live, by rw [hstat]; exact haccounts.peak⟩,
    hregion.of_same hsame⟩, ⟨?_, ?_, ?_⟩⟩
  · rcases hanswered.gains with ⟨rfl, rfl, _⟩ | ⟨u, _, _, _, rfl, hsize, hperm, _⟩
    · exact h.owns
    · have hu : u ∈ Layout.usedBlocks L₁.blocks := hperm.mem_iff.mpr List.mem_cons_self
      have hroom := (chunkNeed_bounds hn).2.2.1
      exact h.owns.hold hperm hanswered.pooled.payload_nodup (hanswered.pooled.payload_ne_zero hu)
        ⟨by omega, hsize⟩
  · rw [hstat, hpeak]
    exact Nat.le_max_left _ _
  · rw [hstat, hpeak, arenaUsedBytes_same hsame]
    exact max_le_max_left _ hused
  · rw [arenaUsedBytes_same hsame]
    exact hgrows

/-- A block has been given back. -/
theorem lose {c : Block} (h : Booked mmap w L) (hc : c ∈ Layout.usedBlocks L.blocks) :
    ∃ L', Booked mmap ⟨myFree w.heap c.payload, Client.drop w.live c.payload⟩ L' ∧
      PeakStep w.heap (myFree w.heap c.payload) := by
  obtain ⟨_, L', hpooled, hperm, haccounts, _, hpeak, hsame⟩ :=
    myFree_accounts h.pooled h.accounts hc
  exact ⟨L', ⟨hpooled, h.owns.drop hperm h.pooled.payload_nodup, haccounts,
    h.region.of_same hsame⟩, .of_same hpeak hsame⟩

/-- `my_free` of a pointer that is held, or of `NULL`. -/
theorem free {ptr : Nat} (h : Booked mmap w L) (hptr : ptr = 0 ∨ w.Holds ptr) :
    ∃ L', Booked mmap ⟨myFree w.heap ptr, Client.drop w.live ptr⟩ L' ∧
      PeakStep w.heap (myFree w.heap ptr) := by
  rcases hptr with rfl | ⟨n, hmem⟩
  · rw [myFree_null, h.drop_null]
    exact ⟨L, h, .of_same rfl (SameArena.refl _)⟩
  · obtain ⟨c, hc, rfl, _⟩ := h.owns.block_of_mem hmem
    exact h.lose hc

variable (hsound : mmap.Sound)
include hsound

theorem answered (h : Booked mmap w L) (hadmits : AdmitsLate mmap w call) {n : Nat}
    (hn : request call = some n) :
    n + 40 ≤ 2 ^ 64 ∧ ∃ s' p L', myMalloc mmap w.heap n = some (s', p) ∧
      Answered sizeToBin liveAdd mmap w.heap L n s' p L' := by
  have hbound := request_le hadmits.1.2 hn
  have hsize : n + 40 ≤ 2 ^ 64 := by omega
  exact ⟨hsize, mallocWith_pooled liveAdd_freelistLen hsound h.pooled hsize (hn ▸ hadmits.2)⟩

theorem malloc {size : Nat} (h : Booked mmap w L)
    (hadmits : AdmitsLate mmap w call) (hrequest : request call = some size) :
    ∃ s' p L', myMalloc mmap w.heap size = some (s', p) ∧
      Booked mmap ⟨s', Client.hold w.live p size⟩ L' ∧ PeakStep w.heap s' := by
  obtain ⟨hsize, s', p, L', heq, hanswered⟩ := h.answered hsound hadmits hrequest
  exact ⟨s', p, L', heq, h.gain hsize hanswered hanswered.pooled (SameArena.refl s') rfl⟩

theorem calloc {nmemb size : Nat} (h : Booked mmap w L)
    (hadmits : AdmitsLate mmap w (.calloc nmemb size)) :
    ∃ s' p L', myCalloc mmap w.heap nmemb size = some (s', p) ∧
      Booked mmap ⟨s', Client.hold w.live p (nmemb * size)⟩ L' ∧ PeakStep w.heap s' := by
  cases hrequest : callocRequest nmemb size with
  | none => exact ⟨w.heap, 0, L, callocWith_none hrequest, h, .of_same rfl (SameArena.refl _)⟩
  | some n =>
      obtain ⟨hsize, s₁, p, L', heq, hanswered⟩ := h.answered hsound hadmits hrequest
      obtain ⟨m, hcalloc, hpooled, _⟩ := callocWith_filled h.pooled hrequest heq hanswered.pooled
        (hanswered.gains.effect (chunkNeed_bounds hsize).2.2.1) hanswered.kept
      rw [← (callocRequest_eq hrequest).1]
      exact ⟨_, p, L', hcalloc, h.gain hsize hanswered hpooled
        (SameArena.of_mem_stat s₁ m s₁.stat) rfl⟩

/-- `my_realloc` of a block: the old block stays where there is no room for the new one. -/
theorem resize {ptr size : Nat} (h : Booked mmap w L) (hptr : w.Holds ptr) (hpos : size ≠ 0)
    (hadmits : AdmitsLate mmap w (.realloc ptr size)) :
    ∃ s' q L', myRealloc mmap w.heap ptr size = some (s', q) ∧
      Booked mmap ⟨s', if q = 0 then w.live else Client.hold (Client.drop w.live ptr) q size⟩ L' ∧
      PeakStep w.heap s' ∧ (q = 0 ↔ Refuses sizeToBin w.heap size) := by
  obtain ⟨n, hmem⟩ := hptr
  obtain ⟨c, hc, rfl, _⟩ := h.owns.block_of_mem hmem
  have hbase := h.pooled.room.base_ne_zero (List.ne_nil_of_mem (Layout.mem_usedBlocks.mp hc).1)
  obtain ⟨hsize, s₁, p, L₁, heq, hanswered⟩ :=
    h.answered hsound hadmits (show request _ = some size by simp [request, hpos])
  have heffect := hanswered.gains.effect (chunkNeed_bounds hsize).2.2.1
  rcases myRealloc_moved h.pooled hc hpos heq hanswered.pooled heffect hanswered.kept with
    ⟨rfl, hrealloc⟩ | ⟨s₂, rfl, hp, hpooled, hc₁, _, _, hrealloc⟩
  · obtain ⟨hbooked, hpeak⟩ :=
      h.gain hsize hanswered hanswered.pooled (SameArena.refl s₁) rfl
    exact ⟨s₁, 0, L₁, hrealloc, hbooked, hpeak, hanswered.refused hbase⟩
  · obtain ⟨hbooked, hpeak⟩ := h.gain hsize hanswered hpooled
      (SameArena.of_mem_stat s₁ _ s₁.stat) rfl
    obtain ⟨L₂, hbooked₂, hpeak₂⟩ := hbooked.lose hc₁
    -- The new pointer is another one than the old, so the order of the two changes is free.
    have hother : p ≠ c.payload := by
      rcases hanswered.gains with ⟨hnull, _⟩ | ⟨u, _, _, _, rfl, _, hperm, _⟩
      · exact absurd hnull hp
      · have hnodup := (hperm.map Block.payload).nodup_iff.mp hanswered.pooled.payload_nodup
        exact fun heq => (List.nodup_cons.mp hnodup).1 (heq ▸ List.mem_map_of_mem hc)
    have hlive : Client.drop (Client.hold w.live p size) c.payload =
        Client.hold (Client.drop w.live c.payload) p size := by
      simp [Client.hold, Client.drop, hp, hother]
    refine ⟨_, p, L₂, hrealloc, ?_, hpeak.trans hpeak₂, hanswered.refused hbase⟩
    rw [if_neg hp, ← hlive]
    exact hbooked₂

theorem realloc {ptr size : Nat} (h : Booked mmap w L)
    (hadmits : AdmitsLate mmap w (.realloc ptr size)) :
    ∃ s' q L', myRealloc mmap w.heap ptr size = some (s', q) ∧
      Booked mmap ⟨s', if q = 0 ∧ size ≠ 0 then w.live
        else Client.hold (Client.drop w.live ptr) q size⟩ L' ∧ PeakStep w.heap s' := by
  by_cases hnull : ptr = 0
  · obtain ⟨s', p, L', heq, hbooked, hpeak⟩ :=
      h.malloc hsound hadmits (show request _ = some size by simp [request, hnull])
    refine ⟨s', p, L', by rw [myRealloc, if_pos hnull, heq], ?_, hpeak⟩
    rw [hnull, h.drop_null]
    split
    · next hfail => rwa [Client.hold, if_pos hfail.1] at hbooked
    · exact hbooked
  · have hheld := hadmits.1.1.1.resolve_left hnull
    by_cases hzero : size = 0
    · obtain ⟨L', hbooked, hpeak⟩ := h.free (Or.inr hheld)
      refine ⟨_, 0, L', by rw [myRealloc, if_neg hnull, if_pos hzero], ?_, hpeak⟩
      rw [if_neg fun hfail => hfail.2 hzero]
      exact hbooked
    · obtain ⟨s', q, L', hrealloc, hbooked, hpeak, _⟩ := h.resize hsound hheld hzero hadmits
      refine ⟨s', q, L', hrealloc, ?_, hpeak⟩
      simpa only [ne_eq, hzero, not_false_eq_true, and_true] using hbooked

/-- Every admitted call returns and keeps the books. -/
theorem exec (h : Booked mmap w L) (hadmits : AdmitsLate mmap w call) :
    ∃ w' q L', w.exec (api mmap) call = some (w', q) ∧ Booked mmap w' L' ∧
      (call ≠ .statReset → PeakStep w.heap w'.heap) := by
  have hallows := hadmits.1.1
  cases call with
  | malloc size =>
      obtain ⟨s', p, L', heq, hbooked, hpeak⟩ := h.malloc hsound hadmits rfl
      exact ⟨_, p, L', by simp [Client.exec, api, heq], hbooked, fun _ => hpeak⟩
  | calloc nmemb size =>
      obtain ⟨s', p, L', heq, hbooked, hpeak⟩ := h.calloc hsound hadmits
      exact ⟨_, p, L', by simp [Client.exec, api, heq], hbooked, fun _ => hpeak⟩
  | free ptr =>
      obtain ⟨L', hbooked, hpeak⟩ := h.free hallows
      exact ⟨_, 0, L', rfl, hbooked, fun _ => hpeak⟩
  | realloc ptr size =>
      obtain ⟨s', q, L', hrealloc, hbooked, hpeak⟩ := h.realloc hsound hadmits
      exact ⟨_, q, L', Client.exec_of_realloc hrealloc, hbooked, fun _ => hpeak⟩
  | write addr byte =>
      have hpooled := h.pooled.client_write (h.owns.mono fun _ _ hfit => hfit.1) hallows
      have hsame := SameArena.of_mem_stat w.heap (Function.update w.heap.mem addr byte) w.heap.stat
      exact ⟨_, 0, L, rfl, h.of_same hpooled hsame rfl h.accounts.peak, fun _ => .of_same rfl hsame⟩
  | statReset =>
      have hsame : SameArena w.heap (allocStatReset w.heap) :=
        SameArena.of_mem_stat w.heap w.heap.mem _
      exact ⟨_, 0, L, rfl, h.of_same (h.pooled.of_same h.pooled.threaded hsame rfl) hsame rfl
        (Nat.le_refl _), fun hne => absurd rfl hne⟩

/-- The same of a call that has returned. -/
theorem kept (h : Booked mmap w L) (hadmits : AdmitsLate mmap w call)
    (hexec : w.exec (api mmap) call = some (w', q)) :
    ∃ L', Booked mmap w' L' ∧ (call ≠ .statReset → PeakStep w.heap w'.heap) := by
  obtain ⟨w₁, q₁, L', hexec₁, hbooked, hpeak⟩ := h.exec hsound hadmits
  obtain ⟨rfl, _⟩ := Prod.mk.inj (Option.some.inj (hexec₁.symm.trans hexec))
  exact ⟨L', hbooked, hpeak⟩

end Booked

/-- The books are kept in every state of a run. -/
theorem reach_booked (hsound : mmap.Sound)
    (hreach : Runs.Reach (Client.step (api mmap)) (AdmitsLate mmap) (Client.initial Bin) w) :
    ∃ L, Booked mmap w L := by
  induction hreach with
  | start => exact ⟨_, booked_initial mmap⟩
  | next _ hadmits hstep ih =>
      obtain ⟨L, h⟩ := ih
      obtain ⟨⟨w', q⟩, hexec, rfl⟩ := Option.map_eq_some_iff.mp hstep
      obtain ⟨L', h', _⟩ := h.kept hsound hadmits hexec
      exact ⟨L', h'⟩

/-- In user space every run with requests of at most `2 ^ 63` bytes is one of these. -/
theorem reach_late (hsound : mmap.Sound) (hspace : mmap.InUserSpace)
    (hreach : Runs.Reach (Client.step (api mmap)) (Client.Disciplined (2 ^ 63) (2 ^ 63))
      (Client.initial Bin) w) :
    Runs.Reach (Client.step (api mmap)) (AdmitsLate mmap) (Client.initial Bin) w := by
  induction hreach with
  | start => exact .start
  | next _ hcall hstep ih =>
      obtain ⟨L, h⟩ := reach_booked hsound ih
      exact ih.next (h.admits hspace hcall) hstep

end Segregated

end AllocSitter
