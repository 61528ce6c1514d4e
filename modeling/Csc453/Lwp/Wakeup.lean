import Csc453.Lwp.History

/-!
# Csc453.Lwp.Wakeup — a woken waiter gets the thread that woke it

This holds as long as no `lwp_wait` takes the first zombie of the queue while that zombie is meant
for a woken waiter (`Served`).  Then whatever a thread was given is a zombie, which nobody else was
given (`Handed`), and every `lwp_wait` that blocked returns it (`Delivered`).
-/

namespace Csc453.Lwp

open Transition

/-- An `lwp_wait` that blocked returns the tid of the thread that woke it, with its status. -/
def Delivered (before : List Event) : Event → Prop
  | .returned t tid asked value true => ∃ x status, wokenBy t before = some (x, tid, status) ∧
      Stored asked status value
  | _ => True

namespace Book

variable {ι : Type} {b b' : Book ι} {t z : Ptr} {status : Status}

def exitedAt (b : Book ι) (t : Ptr) : Ptr := (b.ctx t).exited

/-- The first zombie is not meant for a waiter. -/
def Served (b : Book ι) : Prop := ∀ t ∈ b.live, b.zombies.head? ≠ some (b.exitedAt t)

structure Handed (b : Book ι) : Prop where
  zombie : ∀ t ∈ b.live, b.exitedAt t ≠ 0 → b.exitedAt t ∈ b.zombies
  unique : ∀ t ∈ b.live, ∀ u ∈ b.live, b.exitedAt t ≠ 0 → b.exitedAt t = b.exitedAt u → t = u
  settled : ∀ z ∈ b.zombies, b.exitedAt z = 0
  woken : ∀ t ∈ b.live, b.exitedAt t ≠ 0 → ∃ status,
    wokenBy t b.log = some (b.exitedAt t, (b.ctx (b.exitedAt t)).tid, status) ∧
      (b.ctx (b.exitedAt t)).status = mkTermStat LWP_TERM status

def HandedOver (b : Book ι) : Prop :=
  Throughout Delivered b.log ∧ (b.exit = none → b.Handed)

/-- Nobody is woken, and nobody is given another thread. -/
theorem Handed.mono (h : b.Handed) (hlog : ∀ t, wokenBy t b'.log = wokenBy t b.log)
    (hz : ∀ z ∈ b'.zombies, z ∈ b.zombies ∧ b'.exitedAt z = b.exitedAt z ∧
      (b'.ctx z).tid = (b.ctx z).tid ∧ (b'.ctx z).status = (b.ctx z).status)
    (hlive : ∀ t ∈ b'.live, b'.exitedAt t ≠ 0 →
      t ∈ b.live ∧ b'.exitedAt t = b.exitedAt t ∧ (b.exitedAt t ∈ b.zombies → b.exitedAt t ∈ b'.zombies)) :
    b'.Handed := by
  have hzombie : ∀ t ∈ b'.live, b'.exitedAt t ≠ 0 → b'.exitedAt t ∈ b'.zombies := by
    intro t ht hx
    obtain ⟨ht', he, hmem⟩ := hlive t ht hx
    rw [he] at hx ⊢
    exact hmem (h.zombie t ht' hx)
  refine ⟨hzombie, fun t ht u hu hx he => ?_, fun z hzm => ?_, fun t ht hx => ?_⟩
  · obtain ⟨ht', het, -⟩ := hlive t ht hx
    obtain ⟨hu', heu, -⟩ := hlive u hu (he ▸ hx)
    exact h.unique t ht' u hu' (het ▸ hx) (het.symm.trans (he.trans heu))
  · obtain ⟨hzb, he, -⟩ := hz z hzm
    exact he.trans (h.settled z hzb)
  · obtain ⟨ht', he, -⟩ := hlive t ht hx
    obtain ⟨-, -, htid, hstatus⟩ := hz _ (hzombie t ht hx)
    obtain ⟨status, hw, hst⟩ := h.woken t ht' (he ▸ hx)
    rw [htid, hstatus, hlog, he]
    exact ⟨status, hw, hst⟩

theorem Handed.quiet (h : b.Handed) (hq : Quiet b b') : b'.Handed := by
  refine h.mono (fun t => by rw [hq.log]) (fun z hz => ⟨hq.zombies ▸ hz, hq.exited z, hq.tid z, hq.status z⟩)
    fun t ht _ => ⟨hq.live ▸ ht, hq.exited t, ?_⟩
  rw [hq.zombies]
  exact id

theorem Handed.record (h : b.Handed) (ev : Event) (hev : ∀ t log, wokenBy t (ev :: log) = wokenBy t log) :
    (b.set (·.record ev)).Handed :=
  h.mono (fun t => hev t b.log) (fun _ hz => ⟨hz, rfl, rfl, rfl⟩) fun _ ht _ => ⟨ht, rfl, id⟩

/-- A zombie that is meant for nobody is buried. -/
theorem Handed.bury (h : b.Handed) (hn : ∀ t ∈ b.live, b.exitedAt t ≠ z) : (b.bury z).Handed := by
  have hctx : ∀ t, (b.bury z).ctx t = b.ctx t := congrFun (bury_ctx b z)
  refine h.mono (fun t => wokenBy_bury b z) (fun y hy => ?_) fun t ht _ => ?_
  · exact ⟨List.mem_of_mem_erase hy, congrArg Context.exited (hctx y), congrArg Context.tid (hctx y),
      congrArg Context.status (hctx y)⟩
  · exact ⟨ht, congrArg Context.exited (hctx t), (List.mem_erase_of_ne (hn t ht)).mpr⟩

theorem exitedAt_clear (b : Book ι) (t : Ptr) :
    b.clear.exitedAt t = if t = b.currThread then 0 else b.exitedAt t :=
  Core.setExited_exited b.toCore b.currThread t 0

/-- The current thread forgets the thread it was given. -/
theorem Handed.clear (h : b.Handed) : b.clear.Handed := by
  refine h.mono (fun _ => rfl) (fun z hz => ⟨hz, ?_, Core.setExited_tid .., Core.setExited_status ..⟩)
    fun t ht hx => ⟨ht, ?_, id⟩
  · rw [exitedAt_clear, h.settled z hz]
    exact ite_self 0
  · rw [exitedAt_clear] at hx ⊢
    exact if_neg fun htc => hx (if_pos htc)

/-- A new thread was given nothing. -/
theorem Handed.spawn {x : Context} (h : b.Handed) (hnew : t ∉ b.live ++ b.zombies)
    (hx : x.exited = 0) : (b.spawn t x).Handed := by
  have hctx : ∀ s, s ≠ t → (b.spawn t x).ctx s = b.ctx s := fun s hs =>
    (spawn_ctx b t s x).trans (if_neg hs)
  have hold : ∀ s ∈ b.live ++ b.zombies, s ≠ t := fun s hs he => hnew (he ▸ hs)
  refine h.mono (fun s => by rw [spawn_log]; rfl) (fun z hz => ?_) fun s hs hxs => ?_
  · have hz' := hctx z (hold z (List.mem_append_right _ hz))
    exact ⟨hz, congrArg Context.exited hz', congrArg Context.tid hz', congrArg Context.status hz'⟩
  · have hst : s ≠ t := by
      rintro rfl
      exact hxs ((congrArg Context.exited ((spawn_ctx b s s x).trans (if_pos rfl))).trans hx)
    exact ⟨(List.mem_append.mp hs).resolve_right fun hn => hst (List.mem_singleton.mp hn),
      congrArg Context.exited (hctx s hst), id⟩

theorem handOver_exitedAt (b : Book ι) (status : Status) (t : Ptr) :
    (b.handOver status).exitedAt t =
      if b.waiting.head? = some t then b.currThread else b.exitedAt t := by
  have hst := Core.setStatus_exited b.toCore b.currThread t (mkTermStat LWP_TERM status)
  show ((b.retire status).wake.ctx t).exited = _
  obtain ⟨hq, hw⟩ | ⟨w, rest, hq, hw⟩ := wake_cases (b.retire status) <;> rw [hw] <;>
    have hq : b.waiting = _ := hq <;> rw [hq]
  · exact hst
  · refine (Core.setExited_exited (b.retire status).toCore w t b.currThread).trans ?_
    simp only [List.head?_cons, Option.some.injEq, eq_comm (a := t)]
    split_ifs
    · rfl
    · exact hst

theorem handOver_tid (b : Book ι) (status : Status) (t : Ptr) :
    ((b.handOver status).ctx t).tid = (b.ctx t).tid :=
  (wake_ctx (b.retire status) t).2.2.trans (Core.setStatus_tid ..)

theorem wokenBy_handOver (b : Book ι) (status : Status) (h0 : t ≠ 0) :
    wokenBy t (b.handOver status).log = if b.waiting.head? = some t then
      some (b.currThread, (b.ctx b.currThread).tid, status) else wokenBy t b.log := by
  rw [handOver_log]
  cases b.waiting with
  | nil => exact if_neg fun he => h0 he.symm
  | cons w rest => by_cases hw : w = t <;> simp [wokenBy, hw]

/-- The first waiting thread is given the current thread. -/
theorem Handed.handOver (h : b.Handed) (hu : b.UserMode) (hc : b.currThread ≠ 0) :
    (b.handOver status).Handed := by
  have hpool := hu.curr hc
  have hlive := hu.inv.pool_live hpool
  have hz := handOver_zombies b status
  have hmem : ∀ t, t ∈ (b.handOver status).live → t ∈ b.live := fun t ht =>
    List.mem_of_mem_erase (handOver_live b status ▸ ht)
  have hhead : ∀ t, b.waiting.head? = some t → t ∈ b.waiting := fun t ht => List.mem_of_head? ht
  have hnew : ∀ t ∈ b.live, b.exitedAt t ≠ 0 → b.exitedAt t ≠ b.currThread := fun t ht hx he =>
    hu.inv.ne_of_live_zombie hlive (h.zombie t ht hx) he.symm
  refine ⟨fun t ht hx => ?_, fun t ht u hut hx he => ?_, fun z hzm => ?_, fun t ht hx => ?_⟩
  · rw [handOver_exitedAt] at hx ⊢
    rw [hz, List.mem_append]
    split_ifs at hx ⊢
    · exact .inr (List.mem_singleton_self _)
    · exact .inl (h.zombie t (hmem t ht) hx)
  · rw [handOver_exitedAt] at hx he
    rw [handOver_exitedAt] at he
    split_ifs at hx he with h1 h2 h2
    · exact Option.some.inj (h1.symm.trans h2)
    · exact absurd he.symm (hnew u (hmem u hut) (he ▸ hx))
    · exact absurd he (hnew t (hmem t ht) hx)
    · exact h.unique t (hmem t ht) u (hmem u hut) hx he
  · rw [handOver_exitedAt]
    rw [hz] at hzm
    rcases List.mem_append.mp hzm with hzm | hzm
    · rw [if_neg fun hh => hu.inv.ne_of_live_zombie (hu.inv.waiting_live (hhead z hh)) hzm rfl]
      exact h.settled z hzm
    · rw [List.mem_singleton.mp hzm,
        if_neg fun hh => hu.inv.ne_of_pool_waiting hpool (hhead _ hh) rfl]
      exact hu.exited_curr hc
  · rw [wokenBy_handOver b status (hu.inv.ne_zero (hmem t ht))]
    rw [handOver_exitedAt] at hx ⊢
    rw [handOver_tid, handOver_status]
    split_ifs at hx ⊢ with h1 h2 h2
    · exact ⟨status, rfl, rfl⟩
    · exact absurd rfl h2
    · exact absurd h2 (hnew t (hmem t ht) hx)
    · exact h.woken t (hmem t ht) hx

theorem delivered_bury (h : Throughout Delivered b.log) (z : Ptr) :
    Throughout Delivered (b.bury z).log :=
  throughout_bury h z (fun _ _ _ => trivial) fun _ _ _ _ => trivial

/-- The current thread reaps the thread it was given. -/
theorem Handed.collect (h : b.Handed) (st : Bool) (hlive : b.currThread ∈ b.live)
    (hx : b.exitedAt b.currThread ≠ 0) (hlog : Throughout Delivered b.log) :
    Throughout Delivered (b.clear.returnBuried (b.exitedAt b.currThread) st true).log ∧
      (b.clear.returnBuried (b.exitedAt b.currThread) st true).Handed := by
  have hother : ∀ t ∈ b.clear.live, b.clear.exitedAt t ≠ b.exitedAt b.currThread := by
    intro t ht he
    rw [exitedAt_clear] at he
    split_ifs at he with htc
    · exact hx he.symm
    · exact htc (h.unique t ht _ hlive (he ▸ hx) he)
  obtain ⟨status, hw, hst⟩ := h.woken _ hlive hx
  have htid : (b.clear.ctx (b.exitedAt b.currThread)).tid = (b.ctx (b.exitedAt b.currThread)).tid :=
    Core.setExited_tid ..
  have hstatus : (b.clear.ctx (b.exitedAt b.currThread)).status = mkTermStat LWP_TERM status :=
    (Core.setExited_status ..).trans hst
  have hcurr : (b.clear.bury (b.exitedAt b.currThread)).currThread = b.currThread := bury_curr _ _
  refine ⟨⟨⟨b.exitedAt b.currThread, status, ?_, stored_report hstatus st⟩,
    delivered_bury (b := b.clear) hlog _⟩,
    ((h.clear).bury hother).record _ fun _ _ => rfl⟩
  · show wokenBy (b.clear.bury (b.exitedAt b.currThread)).currThread
      (b.clear.bury (b.exitedAt b.currThread)).log = _
    rw [hcurr, wokenBy_bury, htid]
    exact hw

/-! ### The calls -/

theorem handedOver_kept : Kept Served (HandedOver (ι := ι)) where
  quiet {b b'} h _ hq := by
    unfold HandedOver
    rw [hq.log, hq.exit]
    exact ⟨h.1, fun hx => (h.2 hx).quiet hq⟩
  failed {b b'} h hx hlog hx' := by
    unfold HandedOver
    rw [hlog, hx']
    exact ⟨h.1, nofun⟩
  issue {b} t h hu := ⟨⟨trivial, h.1⟩, fun _ => (h.2 hu.running).mono (fun _ => rfl)
    (fun _ hz => ⟨hz, rfl, rfl, rfl⟩) fun _ ht _ => ⟨ht, rfl, id⟩⟩
  spawn {b t x} h hu hfresh _ _ hx := by
    have hnew : t ∉ b.live ++ b.zombies := fun hm => by simp [hu.inv.used t hm] at hfresh
    exact ⟨⟨trivial, trivial, h.1⟩, fun _ => (h.2 hu.running).spawn hnew hx⟩
  handOver {b} status h hu hc := by
    refine ⟨?_, fun _ => (h.2 hu.running).handOver hu hc⟩
    rw [handOver_log]
    exact ⟨trivial, h.1⟩
  refuse {b} h hu := ⟨⟨trivial, h.1⟩, fun _ => (h.2 hu.running).record _ fun _ _ => rfl⟩
  answer {b t x} h hu := ⟨⟨trivial, h.1⟩, fun _ => (h.2 hu.running).record _ fun _ _ => rfl⟩
  returnNone {b} _ h hu := ⟨⟨trivial, h.1⟩, fun _ => (h.2 hu.running).record _ fun _ _ => rfl⟩
  reap {b z rest} st h hu hG hc hz := by
    have hother : ∀ t ∈ b.live, b.exitedAt t ≠ z := fun t ht he => hG t ht (by rw [hz, he]; rfl)
    exact ⟨⟨trivial, delivered_bury h.1 z⟩,
      fun _ => ((h.2 hu.running).bury hother).record _ fun _ _ => rfl⟩
  collect {b W} st h hinv hc hx hW hz := by
    obtain ⟨hlog, hh⟩ := (h.2 hx).collect st (hinv.pool_live hc) (hinv.zombie_ne_zero hz) h.1
    exact ⟨hlog, fun _ => hh⟩
  stale {b W} _ h hinv hc hx hW hn := by
    -- what the waiter was given is still a zombie
    have hlive := hinv.pool_live hc
    exact absurd ((h.2 hx).zombie _ hlive ((hinv.woken _ hlive).mpr ⟨hc, hW⟩)) hn
  last {b b'} status hu hc _ hq _ _ _ h := by
    exact ⟨throughout_endProcess h.1 (fun _ _ _ _ => trivial) fun _ _ _ _ _ => trivial, nofun⟩

end Book

end Csc453.Lwp
