import Csc453.Lwp.Book

/-!
# Csc453.Lwp.Invariant — what holds whenever user code runs

`Inv W` is the invariant of a book in which the threads of `W` are in `lwp_wait`: the live threads
are the runnable and the waiting ones, a runnable thread is in `lwp_wait` exactly if it was given a
terminated thread, and while somebody waits every zombie was given to somebody (`served`).
`UserMode` is a state in which user code runs, `Yielding k` one in which the current thread is about
to call `lwp_yield` and to go on at `k`; `yieldFrom` leads from the second to the first, or the
process ends.
-/

namespace Csc453.Lwp

open Function

/-! ### Termination status -/

theorem lwpTerminated_live : lwpTerminated LWP_LIVE = false := by decide

theorem lwpTermStat_mkTermStat (s : Status) : lwpTermStat (mkTermStat LWP_TERM s) = s &&& 255 := by
  have h : (256 : Status) &&& 255 = 0#32 := by decide
  show (256 ||| s &&& 255) &&& 255 = s &&& 255
  rw [BitVec.and_comm, BitVec.and_or_distrib_left, BitVec.and_comm 255 256, h, BitVec.and_comm 255,
    BitVec.and_assoc, BitVec.and_self, BitVec.zero_or]

theorem lwpTerminated_mkTermStat (s : Status) : lwpTerminated (mkTermStat LWP_TERM s) = true := by
  have h : (255 : Status) >>> 8 = 0#32 := by decide
  have h' : (256 : Status) >>> 8 = 1 := by decide
  show decide ((256 ||| s &&& 255) >>> 8 &&& 1 = 1) = true
  rw [BitVec.ushiftRight_or_distrib, BitVec.ushiftRight_and_distrib, h, h', BitVec.and_zero,
    BitVec.or_zero]
  rfl

/-- The low eight bits are the value modulo 256, negative or not. -/
theorem toInt_and_255 (s : Status) : (s &&& 255).toInt = s.toInt % 256 := by
  have hn : (s &&& 255).toNat = s.toNat % 256 := by
    rw [BitVec.toNat_and]
    exact Nat.and_two_pow_sub_one_eq_mod s.toNat 8
  have hs := s.isLt
  rw [BitVec.toInt_eq_toNat_cond, BitVec.toInt_eq_toNat_cond, hn]
  split_ifs <;> omega

/-! ### The invariant -/

/-- The place is inside `lwp_wait`. -/
def Resume.InWait : Resume → Prop
  | .wait _ => True
  | _ => False

namespace Book

variable {ι : Type}

structure Inv (W : Ptr → Prop) (b : Book ι) : Prop where
  nodup : (b.live ++ b.zombies).Nodup
  nonnull : 0 ∉ b.live ++ b.zombies
  perm : b.live.Perm (b.pool ++ b.waiting)
  parked : ∀ t ∈ b.waiting, W t
  woken : ∀ t ∈ b.live, (b.ctx t).exited ≠ 0 ↔ t ∈ b.pool ∧ W t
  served : b.waiting ≠ [] → ∀ z ∈ b.zombies, ∃ t ∈ b.pool, (b.ctx t).exited = z
  alive : ∀ t ∈ b.live, lwpTerminated (b.ctx t).status = false
  dead : ∀ z ∈ b.zombies, lwpTerminated (b.ctx z).status = true
  used : ∀ t ∈ b.live ++ b.zombies, b.used t = true

/-- The place where a thread goes on, if the current one yields at `k`. -/
def goesOn (b : Book ι) (k : Resume) (t : Ptr) : Resume :=
  if t = b.currThread then k else (b.ctx t).state

def Parked (b : Book ι) (k : Resume) (t : Ptr) : Prop := (b.goesOn k t).InWait

structure UserMode (b : Book ι) : Prop where
  inv : b.Inv (b.Parked .user)
  curr : b.currThread ≠ 0 → b.currThread ∈ b.pool
  started : b.currThread = 0 → b.waiting = []
  running : b.exit = none

structure Yielding (k : Resume) (b : Book ι) : Prop where
  inv : b.Inv (b.Parked k)
  running : b.exit = none
  idle : b.pool = [] → b.currThread = 0 ∧ b.waiting = [] ∧ ¬ k.InWait ∨
    b.currThread ≠ 0 ∧ lwpTerminated (b.ctx b.currThread).status = true

variable {b : Book ι} {W W' : Ptr → Prop} {t z : Ptr} {k : Resume} {e : Env}

namespace Inv

theorem congr (h : b.Inv W) (hW : ∀ t ∈ b.live, W t ↔ W' t) : b.Inv W' where
  nodup := h.nodup
  nonnull := h.nonnull
  perm := h.perm
  parked t ht := (hW t (h.perm.symm.subset (List.mem_append_right _ ht))).mp (h.parked t ht)
  woken t ht := by rw [h.woken t ht, hW t ht]
  served := h.served
  alive := h.alive
  dead := h.dead
  used := h.used

/-- The invariant looks at `exited`, `status` and `used` only. -/
theorem set (h : b.Inv W) (f : Core ι → Core ι)
    (hf : ∀ t, ((f b.toCore).ctx t).exited = (b.ctx t).exited ∧
      ((f b.toCore).ctx t).status = (b.ctx t).status ∧ (f b.toCore).used t = b.used t) :
    (b.set f).Inv W where
  nodup := h.nodup
  nonnull := h.nonnull
  perm := h.perm
  parked := h.parked
  woken t ht := by
    have hx : ((b.set f).ctx t).exited = (b.ctx t).exited := (hf t).1
    rw [hx]
    exact h.woken t ht
  served hw z hz := by
    obtain ⟨t, ht, hx⟩ := h.served hw z hz
    exact ⟨t, ht, (hf t).1.trans hx⟩
  alive t ht := (congrArg lwpTerminated (hf t).2.1).trans (h.alive t ht)
  dead z hz := (congrArg lwpTerminated (hf z).2.1).trans (h.dead z hz)
  used t ht := (hf t).2.2.trans (h.used t ht)

theorem record (h : b.Inv W) (ev : Core ι → Event) : (b.set fun c => c.record (ev c)).Inv W :=
  h.set _ fun _ => ⟨rfl, rfl, rfl⟩

theorem useScheduler (h : b.Inv W) : (b.set (·.useScheduler)).Inv W :=
  h.set _ fun _ => ⟨rfl, rfl, rfl⟩

theorem pool_live (h : b.Inv W) (ht : t ∈ b.pool) : t ∈ b.live :=
  h.perm.symm.subset (List.mem_append_left _ ht)

theorem waiting_live (h : b.Inv W) (ht : t ∈ b.waiting) : t ∈ b.live :=
  h.perm.symm.subset (List.mem_append_right _ ht)

theorem ne_zero (h : b.Inv W) (ht : t ∈ b.live) : t ≠ 0 := fun he =>
  h.nonnull (List.mem_append_left _ (he ▸ ht))

theorem zombie_ne_zero (h : b.Inv W) (hz : z ∈ b.zombies) : z ≠ 0 := fun he =>
  h.nonnull (List.mem_append_right _ (he ▸ hz))

theorem ne_of_live_zombie (h : b.Inv W) (ht : t ∈ b.live) (hz : z ∈ b.zombies) : t ≠ z :=
  (List.nodup_append.mp h.nodup).2.2 t ht z hz

theorem pool_waiting (h : b.Inv W) : (b.pool ++ b.waiting).Nodup :=
  h.perm.nodup_iff.mp (List.nodup_append.mp h.nodup).1

theorem ne_of_pool_waiting {w : Ptr} (h : b.Inv W) (ht : t ∈ b.pool) (hw : w ∈ b.waiting) : t ≠ w :=
  (List.nodup_append.mp h.pool_waiting).2.2 t ht w hw

theorem of_eq {b' : Book ι} (h : b.Inv W) (hctx : b'.ctx = b.ctx) (hused : b'.used = b.used)
    (hlive : b'.live = b.live) (hwait : b'.waiting = b.waiting) (hz : b'.zombies = b.zombies)
    (hpool : b'.pool = b.pool) : b'.Inv W := by
  constructor <;> simp only [hctx, hused, hlive, hwait, hz, hpool]
  · exact h.nodup
  · exact h.nonnull
  · exact h.perm
  · exact h.parked
  · exact h.woken
  · exact h.served
  · exact h.alive
  · exact h.dead
  · exact h.used

/-- A zombie is unmapped and freed. -/
theorem bury (h : b.Inv W) (hz : z ∈ b.zombies) : (b.bury z).Inv W := by
  have hctx : (b.bury z).ctx = b.ctx := Core.discard_ctx b.toCore z
  have hused : (b.bury z).used = update b.used z false := Core.discard_used b.toCore z
  have hsub : (b.live ++ b.zombies.erase z).Sublist (b.live ++ b.zombies) :=
    (List.Sublist.refl _).append List.erase_sublist
  have hzz : z ∉ b.zombies.erase z :=
    fun hm => (List.nodup_append.mp h.nodup).2.1.not_mem_erase hm
  refine ⟨h.nodup.sublist hsub, fun hm => h.nonnull (hsub.subset hm), h.perm, h.parked, ?_, ?_, ?_,
    ?_, ?_⟩
  · rw [hctx]
    exact h.woken
  · rw [hctx]
    exact fun hw y hy => h.served hw y (List.mem_of_mem_erase hy)
  · rw [hctx]
    exact h.alive
  · rw [hctx]
    exact fun y hy => h.dead y (List.mem_of_mem_erase hy)
  · intro t ht
    have hne : t ≠ z := by
      rintro rfl
      rcases List.mem_append.mp ht with ht | ht
      · exact h.ne_of_live_zombie ht hz rfl
      · exact hzz ht
    rw [hused, update_of_ne hne]
    exact h.used t (hsub.subset ht)

/-- The current thread clears its `exited`, which is no zombie any more. -/
theorem clear (h : b.Inv W) (hc : b.currThread ∈ b.pool)
    (hx : (b.ctx b.currThread).exited ∉ b.zombies) :
    b.clear.Inv fun t => W t ∧ t ≠ b.currThread := by
  have hexited := fun t => Core.setExited_exited b.toCore b.currThread t 0
  have hstatus := fun t => Core.setExited_status b.toCore b.currThread t 0
  refine ⟨h.nodup, h.nonnull, h.perm, fun t ht => ⟨h.parked t ht, (h.ne_of_pool_waiting hc ht).symm⟩,
    fun t ht => ?_, fun hw z hz => ?_, fun t ht => ?_, fun z hz => ?_, h.used⟩
  · show ((b.toCore.setExited b.currThread 0).ctx t).exited ≠ 0 ↔ _
    rw [hexited]
    by_cases htc : t = b.currThread
    · simp [htc]
    · rw [if_neg htc, h.woken t ht]
      exact and_congr_right fun _ => ⟨fun hw => ⟨hw, htc⟩, fun hw => hw.1⟩
  · obtain ⟨t, ht, htz⟩ := h.served hw z hz
    refine ⟨t, ht, (hexited t).trans ?_⟩
    rw [if_neg fun he : t = b.currThread => hx (he ▸ htz ▸ hz)]
    exact htz
  · exact (congrArg lwpTerminated (hstatus t)).trans (h.alive t ht)
  · exact (congrArg lwpTerminated (hstatus z)).trans (h.dead z hz)

/-- The new thread `t`, which is not in `lwp_wait`, becomes live and runnable. -/
theorem spawn {x : Context} (h : b.Inv W) (hfresh : b.used t = false) (h0 : t ≠ 0) (hW : ¬ W t)
    (hx : x.exited = 0) (hstatus : x.status = LWP_LIVE) : (b.spawn t x).Inv W := by
  have hnew : t ∉ b.live ++ b.zombies := fun hm => by simp [h.used t hm] at hfresh
  have hold : ∀ s ∈ b.live ++ b.zombies, s ≠ t := fun s hs he => hnew (he ▸ hs)
  have hctx := fun s => spawn_ctx b t s x
  have hused : ∀ s, (b.spawn t x).used s = if s = t then true else b.used s :=
    fun s => update_apply ..
  have hperm : ((b.live ++ [t]) ++ b.zombies).Perm (t :: (b.live ++ b.zombies)) := by
    rw [List.append_assoc]
    exact List.perm_middle
  refine ⟨hperm.nodup_iff.mpr (List.nodup_cons.mpr ⟨hnew, h.nodup⟩), fun hm => ?_, ?_, h.parked,
    fun s hs => ?_, fun hw z hz => ?_, fun s hs => ?_, fun z hz => ?_, fun s hs => ?_⟩
  · rcases List.mem_cons.mp (hperm.subset hm) with hm | hm
    · exact h0 hm.symm
    · exact h.nonnull hm
  · refine (h.perm.append_right [t]).trans ?_
    rw [List.append_assoc]
    exact (List.perm_append_comm.append_left b.pool).trans (by rw [← List.append_assoc]; rfl)
  · rw [hctx]
    rcases List.mem_append.mp hs with hs | hs
    · have hne := hold s (List.mem_append_left _ hs)
      rw [if_neg hne, h.woken s hs]
      refine and_congr_left fun _ => ?_
      show s ∈ b.pool ↔ s ∈ b.pool ++ [t]
      simp [hne]
    · rw [if_pos (List.mem_singleton.mp hs), hx, List.mem_singleton.mp hs]
      simp [hW]
  · obtain ⟨s, hs, hsz⟩ := h.served hw z hz
    refine ⟨s, List.mem_append_left _ hs, ?_⟩
    rw [hctx, if_neg (hold s (List.mem_append_left _ (h.pool_live hs)))]
    exact hsz
  · rw [hctx]
    split_ifs with hst
    · rw [hstatus]
      exact lwpTerminated_live
    · rcases List.mem_append.mp hs with hs | hs
      · exact h.alive s hs
      · exact absurd (List.mem_singleton.mp hs) hst
  · rw [hctx, if_neg (hold z (List.mem_append_right _ hz))]
    exact h.dead z hz
  · rw [hused]
    split_ifs with hst
    · rfl
    · exact h.used s ((List.mem_cons.mp (hperm.subset hs)).resolve_left hst)

/-- The current thread terminates, and the first waiting thread is given it. -/
theorem retire (h : b.Inv W) (hc : b.currThread ∈ b.pool) (hW : ¬ W b.currThread) (status : Status) :
    (b.retire status).wake.Inv W := by
  have hlive := h.pool_live hc
  have hexited0 : (b.ctx b.currThread).exited = 0 := by
    by_contra hx
    exact hW ((h.woken _ hlive).mp hx).2
  have hnd := (List.nodup_append.mp h.nodup).1
  -- the thread moves from the live list to the zombies
  have hperm : (b.live.erase b.currThread ++ (b.zombies ++ [b.currThread])).Perm
      (b.live ++ b.zombies) := by
    rw [← List.append_assoc]
    refine (List.perm_append_singleton _ _).trans ?_
    exact (List.perm_cons_erase hlive).symm.append_right b.zombies
  have hpool : (b.live.erase b.currThread).Perm (b.pool.erase b.currThread ++ b.waiting) := by
    rw [← List.erase_append_left _ hc]
    exact h.perm.erase _
  have hmem : ∀ t, t ∈ b.live.erase b.currThread → t ∈ b.live ∧ t ≠ b.currThread := fun t ht =>
    ⟨List.mem_of_mem_erase ht, fun he => hnd.not_mem_erase (he ▸ ht)⟩
  have hpoolne : ∀ t, t ≠ b.currThread → (t ∈ b.pool.erase b.currThread ↔ t ∈ b.pool) :=
    fun t ht => List.mem_erase_of_ne ht
  have hst := Core.setStatus_status b.toCore b.currThread
  have hex := Core.setStatus_exited b.toCore b.currThread
  have halive : ∀ t ∈ b.live.erase b.currThread,
      lwpTerminated ((b.toCore.setStatus b.currThread (mkTermStat LWP_TERM status)).ctx t).status =
        false := by
    intro t ht
    rw [hst, if_neg (hmem t ht).2]
    exact h.alive t (hmem t ht).1
  have hdead : ∀ z ∈ b.zombies ++ [b.currThread],
      lwpTerminated ((b.toCore.setStatus b.currThread (mkTermStat LWP_TERM status)).ctx z).status =
        true := by
    intro z hz
    rw [hst]
    split_ifs with hzc
    · exact lwpTerminated_mkTermStat status
    · rcases List.mem_append.mp hz with hz | hz
      · exact h.dead z hz
      · exact absurd (List.mem_singleton.mp hz) hzc
  have hnodup := hperm.nodup_iff.mpr h.nodup
  have hnonnull := fun hm => h.nonnull (hperm.subset hm)
  have hused := fun t ht => h.used t (hperm.subset ht)
  obtain ⟨hq, hw⟩ | ⟨w, rest, hq, hw⟩ := wake_cases (b.retire status) <;> rw [hw]
  · refine ⟨hnodup, hnonnull, hpool, h.parked, fun t ht => ?_, fun hne => absurd hq hne, halive,
      hdead, hused⟩
    obtain ⟨ht, htc⟩ := hmem t ht
    show ((b.toCore.setStatus b.currThread _).ctx t).exited ≠ 0 ↔ t ∈ b.pool.erase b.currThread ∧ W t
    rw [hex, h.woken t ht, hpoolne t htc]
  · have hq : b.waiting = w :: rest := hq
    have hww : w ∈ b.waiting := by simp [hq]
    have hwc : w ≠ b.currThread := (h.ne_of_pool_waiting hc hww).symm
    have hex' : ∀ t, (({ (b.retire status).set fun c => c.setExited w c.currThread with
        pool := (b.retire status).pool ++ [w], waiting := rest } : Book ι).ctx t).exited =
        if t = w then b.currThread else (b.ctx t).exited := by
      intro t
      refine (Core.setExited_exited (b.retire status).toCore w t b.currThread).trans ?_
      split_ifs
      · rfl
      · exact hex t _
    have hst' := Core.setExited_status (b.retire status).toCore w
    refine ⟨hnodup, hnonnull, ?_, fun t ht => h.parked t (by simp [hq, ht]), fun t ht => ?_,
      fun _ z hz => ?_, fun t ht => ?_, fun z hz => ?_, hused⟩
    · show (b.live.erase b.currThread).Perm (b.pool.erase b.currThread ++ [w] ++ rest)
      rw [List.append_assoc, List.singleton_append, ← hq]
      exact hpool
    · rw [hex']
      obtain ⟨ht, htc⟩ := hmem t ht
      show _ ↔ t ∈ b.pool.erase b.currThread ++ [w] ∧ W t
      by_cases htw : t = w
      · rw [if_pos htw, htw]
        exact iff_of_true (h.ne_zero hlive) ⟨by simp, h.parked w hww⟩
      · rw [if_neg htw, h.woken t ht, List.mem_append, hpoolne t htc]
        simp [htw]
    · -- an old zombie keeps its waiter, the new one has `w`
      have hz : z ∈ b.zombies ++ [b.currThread] := hz
      rcases List.mem_append.mp hz with hz | hz
      · obtain ⟨t, ht, htz⟩ := h.served (List.ne_nil_of_mem hww) z hz
        have htc : t ≠ b.currThread := by
          rintro rfl
          exact h.zombie_ne_zero hz (htz ▸ hexited0)
        have htw := h.ne_of_pool_waiting ht hww
        exact ⟨t, List.mem_append_left _ ((hpoolne t htc).mpr ht), by rw [hex', if_neg htw, htz]⟩
      · refine ⟨w, List.mem_append_right _ (List.mem_singleton_self w), ?_⟩
        rw [hex', if_pos rfl, List.mem_singleton.mp hz]
    · exact (congrArg lwpTerminated (hst' t _)).trans (halive t ht)
    · exact (congrArg lwpTerminated (hst' z _)).trans (hdead z hz)

/-- The current thread blocks; there is no zombie. -/
theorem block (h : b.Inv W) (hc : b.currThread ∈ b.pool) (hW : ¬ W b.currThread)
    (hz : b.zombies = []) : b.block.Inv fun t => W t ∨ t = b.currThread := by
  have hlive := h.pool_live hc
  have hnd : b.pool.Nodup := (List.nodup_append.mp h.pool_waiting).1
  refine ⟨h.nodup, h.nonnull, ?_, fun t ht => ?_, fun t ht => ?_, fun _ z hz' => ?_, h.alive, h.dead,
    h.used⟩
  · have : b.pool.Perm (b.currThread :: b.pool.erase b.currThread) := List.perm_cons_erase hc
    refine h.perm.trans ((this.append_right b.waiting).trans ?_)
    show (b.currThread :: b.pool.erase b.currThread ++ b.waiting).Perm
      (b.pool.erase b.currThread ++ (b.waiting ++ [b.currThread]))
    rw [← List.append_assoc]
    exact (List.perm_append_singleton _ _).symm
  · rcases List.mem_append.mp ht with ht | ht
    · exact .inl (h.parked t ht)
    · exact .inr (List.mem_singleton.mp ht)
  · show (b.ctx t).exited ≠ 0 ↔ t ∈ b.pool.erase b.currThread ∧ _
    rw [h.woken t ht, hnd.mem_erase_iff]
    constructor
    · rintro ⟨hp, hw⟩
      exact ⟨⟨fun he => hW (he ▸ hw), hp⟩, .inl hw⟩
    · rintro ⟨⟨hne, hp⟩, hw⟩
      exact ⟨hp, hw.resolve_right hne⟩
  · have hz' : z ∈ b.zombies := hz'
    simp [hz] at hz'

/-- The first runnable thread goes last. -/
theorem rotate {rest : List Ptr} (h : b.Inv W) (hp : b.pool = t :: rest) :
    ({ b with pool := rest ++ [t] } : Book ι).Inv W := by
  have hperm : (rest ++ [t]).Perm b.pool := by
    rw [hp]
    exact List.perm_append_singleton t rest
  refine ⟨h.nodup, h.nonnull, h.perm.trans (hperm.symm.append_right _), h.parked, fun s hs => ?_,
    fun hw z hz => ?_, h.alive, h.dead, h.used⟩
  · show (b.ctx s).exited ≠ 0 ↔ s ∈ rest ++ [t] ∧ W s
    rw [h.woken s hs, hperm.mem_iff]
  · obtain ⟨s, hs, hsz⟩ := h.served hw z hz
    exact ⟨s, hperm.mem_iff.mpr hs, hsz⟩

end Inv

/-! ### From call to call -/

theorem parked_curr (b : Book ι) (k : Resume) : b.Parked k b.currThread ↔ k.InWait := by
  unfold Parked goesOn
  rw [if_pos rfl]

theorem parked_of_ne (ht : t ≠ b.currThread) (k : Resume) :
    b.Parked k t ↔ (b.ctx t).state.InWait := by
  unfold Parked goesOn
  rw [if_neg ht]

/-- After `lwp_yield` the thread that runs goes on at the place `lwp_yield` returns. -/
theorem Inv.switchTo (h : b.Inv (b.Parked k)) (t : Ptr) :
    (b.switchTo t k).2.Inv ((b.switchTo t k).2.Parked (b.switchTo t k).1) ∧
      (b.switchTo t k).2.currThread = t := by
  unfold Book.switchTo
  by_cases hc : b.currThread = 0
  · rw [if_pos hc]
    refine ⟨(h.set (·.setCurr t) fun _ => ⟨rfl, rfl, rfl⟩).congr fun s hs => ?_, rfl⟩
    have hne : s ≠ b.currThread := fun he => h.ne_zero hs (he.trans hc)
    rw [parked_of_ne hne]
    by_cases hst : s = t
    · rw [hst]
      exact (parked_curr (b.set (·.setCurr t)) _).symm
    · exact (parked_of_ne (b := b.set (·.setCurr t)) hst _).symm
  rw [if_neg hc]
  by_cases hct : b.currThread = t
  · rw [if_pos hct]
    exact ⟨h, hct⟩
  rw [if_neg hct]
  have hset := h.set (fun c => (c.setState c.currThread k).setCurr t) fun s =>
    ⟨Core.setState_exited b.toCore b.currThread s k, Core.setState_status b.toCore b.currThread s k,
      rfl⟩
  refine ⟨hset.congr fun s hs => ?_, rfl⟩
  by_cases hst : s = t
  · rw [hst, parked_of_ne (Ne.symm hct)]
    exact (parked_curr (b.set fun c => (c.setState c.currThread k).setCurr t) _).symm
  · refine Iff.trans ?_
      (parked_of_ne (b := b.set fun c => (c.setState c.currThread k).setCurr t) hst _).symm
    have hstate := Core.setState_state b.toCore b.currThread s k
    show _ ↔ ((b.toCore.setState b.currThread k).ctx s).state.InWait
    rw [hstate]
    unfold Parked goesOn
    rfl

theorem UserMode.record (h : b.UserMode) (ev : Core ι → Event) :
    (b.set fun c => c.record (ev c)).UserMode := ⟨h.inv.record ev, h.curr, h.started, h.running⟩

theorem UserMode.useScheduler (h : b.UserMode) : (b.set (·.useScheduler)).UserMode :=
  ⟨h.inv.useScheduler, h.curr, h.started, h.running⟩

theorem bury_ctx (b : Book ι) (z : Ptr) : (b.bury z).ctx = b.ctx := Core.discard_ctx b.toCore z

theorem bury_curr (b : Book ι) (z : Ptr) : (b.bury z).currThread = b.currThread :=
  Core.discard_currThread b.toCore z

theorem bury_exit (b : Book ι) (z : Ptr) : (b.bury z).exit = b.exit := Core.discard_exit b.toCore z

theorem bury_parked (b : Book ι) (z : Ptr) : (b.bury z).Parked k = b.Parked k := by
  funext t
  unfold Parked goesOn
  rw [bury_ctx, bury_curr]

theorem UserMode.bury (h : b.UserMode) (hz : z ∈ b.zombies) : (b.bury z).UserMode where
  inv := by
    rw [bury_parked]
    exact h.inv.bury hz
  curr := by
    rw [bury_curr]
    exact h.curr
  started := by
    rw [bury_curr]
    exact h.started
  running := (bury_exit b z).trans h.running

/-- The current thread reaps a zombie and returns from `lwp_wait`. -/
theorem UserMode.waitReap (h : b.UserMode) (e : Env) (status blocked : Bool) (hz : z ∈ b.zombies) :
    (b.waitReap e z status blocked).exit ≠ none ∨ (b.waitReap e z status blocked).UserMode := by
  obtain ⟨hn, -⟩ | ⟨-, hr⟩ | ⟨-, hr⟩ := waitReap_cases b e z status blocked h.running
  · exact absurd hz hn
  · rw [hr]
    exact .inl nofun
  · rw [hr]
    exact .inr ((h.bury hz).record _)

theorem continueAt_of_not_inWait (hk : ¬ k.InWait) (e : Env) : b.continueAt e k = b := by
  cases k with
  | wait status => exact absurd trivial hk
  | _ => rfl

/-- A thread that returns to user code is not in `lwp_wait`. -/
theorem Inv.toUser {b' : Book ι} (h : b'.Inv fun t => b.Parked k t ∧ t ≠ b.currThread)
    (hcurr : b'.currThread = b.currThread) (hstate : ∀ t, (b'.ctx t).state = (b.ctx t).state) :
    b'.Inv (b'.Parked .user) := by
  refine h.congr fun t _ => ?_
  by_cases ht : t = b.currThread
  · have huser : ¬ b'.Parked .user t := by
      rw [ht, ← hcurr, parked_curr]
      exact id
    exact iff_of_false (fun hp => hp.2 ht) huser
  · rw [parked_of_ne ht, parked_of_ne (hcurr ▸ ht), hstate]
    exact and_iff_left ht

/-- The current thread clears its `exited` after that thread is gone. -/
theorem Inv.collect (h : b.Inv W) (hc : b.currThread ∈ b.pool)
    (hz : (b.ctx b.currThread).exited ∈ b.zombies) :
    (b.clear.bury (b.ctx b.currThread).exited).Inv
      fun t => W t ∧ t ≠ b.currThread := by
  have hzz : (b.ctx b.currThread).exited ∉ b.zombies.erase (b.ctx b.currThread).exited :=
    fun hm => (List.nodup_append.mp h.nodup).2.1.not_mem_erase hm
  have hcurr := bury_curr b (b.ctx b.currThread).exited
  have hctx := bury_ctx b (b.ctx b.currThread).exited
  have hclear := (h.bury hz).clear (by rw [hcurr]; exact hc) (by rw [hcurr, hctx]; exact hzz)
  rw [hcurr] at hclear
  refine hclear.of_eq ?_ ?_ rfl rfl rfl rfl
  · refine (bury_ctx _ _).trans ?_
    show (b.toCore.setExited b.currThread 0).ctx =
      ((b.toCore.discard (b.ctx b.currThread).exited).setExited
        (b.bury (b.ctx b.currThread).exited).currThread 0).ctx
    rw [hcurr, Core.setExited, Core.setExited, Core.discard_ctx]
    funext t
    rw [Core.setCtx_ctx, Core.setCtx_ctx, Core.discard_ctx]
  · refine (Core.discard_used _ _).trans ?_
    exact (Core.discard_used b.toCore _).symm

/-- A thread that has been switched to goes on. -/
theorem Inv.continueAt (h : b.Inv (b.Parked k)) (hc : b.currThread ∈ b.pool) (hx : b.exit = none)
    (e : Env) : (b.continueAt e k).exit ≠ none ∨ (b.continueAt e k).UserMode := by
  have hstarted : ∀ {q : List Ptr}, b.currThread = 0 → q = [] := fun h0 =>
    absurd h0 (h.ne_zero (h.pool_live hc))
  by_cases hk : k.InWait
  · obtain ⟨status, rfl⟩ : ∃ status, k = .wait status := by
      cases k with
      | wait status => exact ⟨status, rfl⟩
      | _ => exact absurd hk nofun
    have hex := (h.woken _ (h.pool_live hc)).mpr ⟨hc, (parked_curr b _).mpr trivial⟩
    unfold Book.continueAt
    dsimp only
    rw [if_pos hex]
    unfold waitExited
    have hstate := fun t => Core.setExited_state b.toCore b.currThread t 0
    obtain ⟨hn, hr⟩ | ⟨-, hr⟩ | ⟨hz, hr⟩ := waitReap_cases
      b.clear e (b.ctx b.currThread).exited status true hx
    · rw [hr]
      have hinv := (h.clear hc hn).record fun c => .returned c.currThread NO_THREAD status none true
      exact .inr ⟨hinv.toUser rfl hstate, fun _ => hc, hstarted, hx⟩
    · rw [hr]
      exact .inl nofun
    · rw [hr]
      have hinv := (h.collect hc hz).record fun c => .returned c.currThread
        (b.clear.ctx (b.ctx b.currThread).exited).tid status
        (b.clear.report (b.ctx b.currThread).exited status) true
      refine .inr ⟨hinv.toUser (bury_curr _ _) fun t => ?_, fun _ => ?_, fun h0 => ?_,
        (bury_exit _ _).trans hx⟩
      · show ((Book.bury _ b.clear).ctx t).state = _
        rw [bury_ctx]
        exact hstate t
      · exact (bury_curr b.clear _).symm ▸ hc
      · exact hstarted ((bury_curr b.clear _).symm.trans h0)
  · rw [continueAt_of_not_inWait hk]
    refine .inr ⟨h.congr fun t _ => ?_, fun _ => hc, hstarted, hx⟩
    by_cases ht : t = b.currThread
    · rw [ht, parked_curr, parked_curr]
      exact iff_of_false hk id
    · rw [parked_of_ne ht, parked_of_ne ht]

theorem Yielding.yieldFrom (h : b.Yielding k) (e : Env) :
    (b.yieldFrom e k).exit ≠ none ∨ (b.yieldFrom e k).UserMode := by
  have hrun : (b.set (·.useScheduler)).exit = none := h.running
  unfold Book.yieldFrom Book.yield
  cases hp : b.pool with
  | nil =>
    dsimp only
    have hcurr : (b.set (·.useScheduler)).currThread = b.currThread := rfl
    rcases h.idle hp with ⟨hc, hw, hk⟩ | ⟨hc, hterm⟩
    · have hhalt : (b.set (·.useScheduler)).halt e = b.set (·.useScheduler) := if_pos (.inl hc)
      rw [hhalt, hrun, if_neg (by simp), continueAt_of_not_inWait hk]
      refine .inr ⟨h.inv.useScheduler.congr fun t ht => ?_, fun hn => absurd hc hn, fun _ => hw,
        hrun⟩
      have hne : t ≠ b.currThread := fun he => h.inv.ne_zero ht (he.trans hc)
      rw [parked_of_ne hne]
      exact (parked_of_ne (b := b.set (·.useScheduler)) hne .user).symm
    · left
      have hx : ((b.set (·.useScheduler)).halt e).exit ≠ none := by
        unfold halt
        dsimp only
        rw [if_neg (by
          rintro (h0 | h0)
          · exact hc h0
          · exact absurd (hterm.symm.trans h0) (by simp))]
        exact nofun
      rw [if_pos (Option.isSome_iff_ne_none.mpr hx)]
      exact hx
  | cons t rest =>
    dsimp only
    have hinv := h.inv.useScheduler.rotate (b := b.set (·.useScheduler)) hp
    obtain ⟨hinv', hcurr⟩ := Inv.switchTo (b := { b.set (·.useScheduler) with pool := rest ++ [t] })
      (k := k) hinv t
    have hpool : (Book.switchTo t k { b.set (·.useScheduler) with pool := rest ++ [t] }).2.pool =
        rest ++ [t] := by
      unfold Book.switchTo
      split_ifs <;> rfl
    have hx : (Book.switchTo t k { b.set (·.useScheduler) with pool := rest ++ [t] }).2.exit =
        none := by
      unfold Book.switchTo
      split_ifs <;> exact hrun
    rw [hx, if_neg (by simp)]
    refine hinv'.continueAt ?_ hx e
    rw [hcurr, hpool]
    simp

/-! ### The calls -/

/-- A new thread is not in `lwp_wait`, and nobody else moves. -/
theorem UserMode.spawn {x : Context} (h : b.UserMode) (hfresh : b.used t = false) (h0 : t ≠ 0)
    (hx : x.exited = 0) (hstatus : x.status = LWP_LIVE) :
    (b.spawn t x).Inv fun s => s ≠ t ∧ b.Parked .user s :=
  (h.inv.congr fun s hs => by
    have hne : s ≠ t := by
      rintro rfl
      simp [h.inv.used s (List.mem_append_left _ hs)] at hfresh
    exact (and_iff_right hne).symm).spawn hfresh h0 (fun hn => hn.1 rfl) hx hstatus

theorem UserMode.create (h : b.UserMode) (e : Env) (f a : Word)
    (hfresh : ∀ t, e.thread = some t → t ≠ 0 ∧ b.used t = false) : (b.create e f a).2.UserMode := by
  obtain ⟨-, hr⟩ | ⟨t, ht, hr | ⟨base, -, hr⟩⟩ := create_cases b e f a <;> rw [hr]
  · exact h
  · obtain ⟨-, hfree⟩ := hfresh t ht
    refine ⟨h.inv.set (fun c => ((c.malloc t).assignTid).free t) fun s => ⟨rfl, rfl, ?_⟩, h.curr,
      h.started, h.running⟩
    show update (update b.used t true) t false s = b.used s
    rw [update_idem, ← hfree, update_eq_self]
  · obtain ⟨h0, hfree⟩ := hfresh t ht
    refine ⟨(h.spawn hfree h0 rfl rfl).congr fun s _ => ?_,
      fun hn => List.mem_append_left _ (h.curr hn), h.started, h.running⟩
    by_cases hsc : s = b.currThread
    · have hno : ∀ b' : Book ι, b'.currThread = b.currThread → ¬ b'.Parked .user s := by
        intro b' hb'
        rw [hsc, ← hb', parked_curr]
        exact id
      exact iff_of_false (fun hp => hno b rfl hp.2) (hno _ rfl)
    · rw [parked_of_ne hsc]
      refine Iff.trans ?_ (parked_of_ne (b := b.spawn t _) hsc .user).symm
      rw [spawn_ctx]
      by_cases hst : s = t
      · rw [if_pos hst]
        exact iff_of_false (fun hp => hp.1 hst) id
      · rw [if_neg hst]
        exact and_iff_right hst

/-- A thread that `lwp_start` made is about to yield. -/
theorem UserMode.spawnCurr {x : Context} (h : b.UserMode) (hcurr : b.currThread = 0)
    (hfresh : b.used t = false) (h0 : t ≠ 0) (hx : x.exited = 0) (hstatus : x.status = LWP_LIVE) :
    ((b.spawn t x).set (·.setCurr t)).Yielding .user := by
  have hinv := h.spawn hfresh h0 hx hstatus
  refine ⟨(hinv.set (·.setCurr t) fun _ => ⟨rfl, rfl, rfl⟩).congr fun s hs => ?_, h.running,
    fun hp => ?_⟩
  · by_cases hst : s = t
    · have huser := parked_curr ((b.spawn t x).set (·.setCurr t)) .user
      rw [hst]
      exact iff_of_false (fun hp => hp.1 rfl) huser.mp
    · have hs0 : s ≠ b.currThread := fun he => hinv.ne_zero hs (he.trans hcurr)
      have hctx := spawn_ctx b t s x
      rw [if_neg hst] at hctx
      rw [parked_of_ne hs0, ← hctx]
      refine (and_iff_right hst).trans ?_
      exact (parked_of_ne (b := (b.spawn t x).set (·.setCurr t)) hst .user).symm
  · exact absurd hp (List.append_ne_nil_of_right_ne_nil _ (List.cons_ne_nil t []))

theorem UserMode.start (h : b.UserMode) (e : Env) (hcurr : b.currThread = 0)
    (hfresh : ∀ t, e.thread = some t → t ≠ 0 ∧ b.used t = false) :
    (b.start e).exit ≠ none ∨ (b.start e).UserMode := by
  unfold Book.start
  cases ht : e.thread with
  | none => exact .inl nofun
  | some t => exact (h.spawnCurr hcurr (hfresh t ht).2 (hfresh t ht).1 rfl rfl).yieldFrom e

theorem not_parked_curr (b : Book ι) : ¬ b.Parked .user b.currThread := (parked_curr b .user).mp

/-- The thread that runs has nothing to collect. -/
theorem UserMode.exited_curr (h : b.UserMode) (hc : b.currThread ≠ 0) :
    (b.ctx b.currThread).exited = 0 := by
  by_contra hx
  exact not_parked_curr b ((h.inv.woken _ (h.inv.pool_live (h.curr hc))).mp hx).2

/-- A thread that called `lwp_exit` is about to yield. -/
theorem UserMode.handOver (h : b.UserMode) (hc : b.currThread ≠ 0) (status : Status) :
    (b.handOver status).Yielding .exit := by
  have hlive := h.inv.pool_live (h.curr hc)
  have hcurr : (b.retire status).wake.currThread = b.currThread := wake_curr _
  have hnotlive : b.currThread ∉ (b.retire status).wake.live := by
    rw [wake_live]
    exact (List.nodup_append.mp h.inv.nodup).1.not_mem_erase
  have hinv := (h.inv.retire (h.curr hc) (not_parked_curr b) status).record fun c =>
    .exited b.currThread (c.ctx b.currThread).tid status (b.waiting.headD 0)
  refine ⟨hinv.congr fun t ht => ?_, (wake_exit _).trans h.running, fun _ => .inr ⟨hcurr ▸ hc, ?_⟩⟩
  · have hne : t ≠ b.currThread := fun he => hnotlive (he ▸ ht)
    rw [parked_of_ne hne]
    refine Iff.trans ?_ (parked_of_ne (b := b.handOver status) (hcurr ▸ hne) .exit).symm
    show _ ↔ ((b.retire status).wake.ctx t).state.InWait
    rw [(wake_ctx _ t).1]
    exact iff_of_eq (congrArg _ (Core.setStatus_state b.toCore b.currThread t _).symm)
  · show lwpTerminated ((b.retire status).wake.ctx (b.retire status).wake.currThread).status = true
    rw [hcurr, (wake_ctx _ _).2.1]
    have := Core.setStatus_status b.toCore b.currThread b.currThread (mkTermStat LWP_TERM status)
    rw [if_pos rfl] at this
    exact (congrArg lwpTerminated this).trans (lwpTerminated_mkTermStat status)

theorem UserMode.terminate (h : b.UserMode) (e : Env) (status : Status) :
    (b.terminate e status).exit ≠ none ∨ (b.terminate e status).UserMode := by
  unfold Book.terminate
  dsimp only
  by_cases hc : b.currThread = 0
  · rw [if_pos hc]
    exact .inr h
  rw [if_neg hc]
  by_cases hwr : e.wrapper = none
  · rw [if_pos hwr]
    exact .inl nofun
  rw [if_neg hwr]
  exact (h.handOver hc status).yieldFrom e

/-- A thread that blocks in `lwp_wait`, while another one is runnable, is about to yield. -/
theorem UserMode.block (h : b.UserMode) (hc : b.currThread ≠ 0) (hz : b.zombies = [])
    (hlen : ¬ b.pool.length ≤ 1) (status : Bool) : b.block.Yielding (.wait status) := by
  have hpool := h.curr hc
  refine ⟨(h.inv.block hpool (not_parked_curr b) hz).congr fun t _ => ?_, h.running, fun hp => ?_⟩
  · by_cases ht : t = b.currThread
    · rw [ht]
      exact iff_of_true (.inr rfl) ((parked_curr b.block (.wait status)).mpr trivial)
    · rw [parked_of_ne ht]
      exact (or_iff_left ht).trans (parked_of_ne (b := b.block) ht (.wait status)).symm
  · have hp : b.pool.erase b.currThread = [] := hp
    have := List.length_erase_of_mem hpool
    rw [hp, List.length_nil] at this
    omega

theorem UserMode.wait (h : b.UserMode) (e : Env) (status : Bool) :
    (b.wait e status).exit ≠ none ∨ (b.wait e status).UserMode := by
  unfold Book.wait
  have h := h.useScheduler
  generalize b.set (·.useScheduler) = b at h
  dsimp only
  by_cases hc : b.currThread = 0
  · rw [if_pos hc]
    exact .inr (h.record _)
  rw [if_neg hc, if_neg (not_not.mpr (h.exited_curr hc))]
  by_cases hz : b.zombies = []
  · rw [if_neg (not_not.mpr hz)]
    by_cases hlen : b.pool.length ≤ 1
    · rw [if_pos hlen]
      exact .inr (h.record _)
    · rw [if_neg hlen]
      exact (h.block hc hz hlen status).yieldFrom e
  · rw [if_pos hz]
    obtain ⟨z, rest, hq⟩ := List.exists_cons_of_ne_nil hz
    rw [hq, List.headD_cons]
    exact h.waitReap e status false (by simp [hq])

theorem UserMode.idle (h : b.UserMode) (hp : b.pool = []) : b.currThread = 0 := by
  by_contra hc
  have := h.curr hc
  simp [hp] at this

/-- User code can yield. -/
theorem UserMode.yielding (h : b.UserMode) : b.Yielding .user :=
  ⟨h.inv, h.running, fun hp => .inl ⟨h.idle hp, h.started (h.idle hp), id⟩⟩

/-- A call from user code leads to user code, or ends the process. -/
theorem UserMode.exec (h : b.UserMode) {e : Env} {c : Call ι}
    (hfresh : ∀ t, e.thread = some t → t ≠ 0 ∧ b.used t = false)
    (hstart : c = .start → b.currThread = 0) :
    (b.exec e c).exit ≠ none ∨ (b.exec e c).UserMode := by
  cases c with
  | create f a => exact .inr ((h.create e f a hfresh).record fun _ => .made _)
  | start => exact h.start e (hstart rfl) hfresh
  | yield => exact h.yielding.yieldFrom e
  | exit status => exact h.terminate e status
  | finish rval => exact h.terminate e rval
  | wait status => exact h.wait e status
  | setScheduler fn =>
    exact .inr ⟨h.inv.set (·.setScheduler _) fun _ => ⟨rfl, rfl, rfl⟩, h.curr, h.started,
      h.running⟩

end Book

end Csc453.Lwp
