import Csc453.Lwp.History

/-!
# Csc453.Lwp.Reaping — every thread is reaped at most once, with its own status

While no tid is used twice, the tids of the live threads, of the zombies and of the freed threads
are all different, and `lwp_wait` returns the tids of freed threads only (`Account`).  So the history
shows no thread reaped twice, or before it exited (`Audited`).
-/

namespace Csc453.Lwp

open Transition

/-- The tids in a history that `f` reads off its events. -/
def tidsOf (f : Event → Option Tid) (log : List Event) : List Tid := log.filterMap f

def Event.exitedTid : Event → Option Tid
  | .exited _ tid _ _ => some tid
  | _ => none

def Event.returnedTid : Event → Option Tid
  | .returned _ tid _ _ _ => if tid = NO_THREAD then none else some tid
  | _ => none

def Event.unmappedTid : Event → Option Tid
  | .unmapped _ tid _ => some tid
  | _ => none

def Event.freedTid : Event → Option Tid
  | .freed _ tid _ _ => some tid
  | _ => none

/-- An event of reaping follows an exit of the same thread: a returned tid comes with the status of
that exit, modulo 256, if the caller wants it; a stack is not unmapped while its thread is the current one. -/
def Justified (before : List Event) : Event → Prop
  | .returned _ tid asked value _ => tid ≠ NO_THREAD → ∃ x status woken,
      .exited x tid status woken ∈ before ∧ Stored asked status value
  | .unmapped t tid curr => t ≠ curr ∧ ∃ status woken, .exited t tid status woken ∈ before
  | .freed t tid _ _ => ∃ status woken, .exited t tid status woken ∈ before
  | _ => True

/-- What the history of a run says of reaping. -/
structure Audited (log : List Event) (exit : Option Exit) : Prop where
  justified : Throughout Justified log
  /-- Only a thread without a stack is freed while it is the current one, and then the process
  ends. -/
  final : ∀ t tid stack, .freed t tid stack t ∈ log →
    stack = 0 ∧ log.head? = some (.freed t tid stack t) ∧ ∃ code, exit = some (.yielded code)
  exitedOnce : (tidsOf Event.exitedTid log).Nodup
  returnedOnce : (tidsOf Event.returnedTid log).Nodup
  unmappedOnce : (tidsOf Event.unmappedTid log).Nodup
  freedOnce : (tidsOf Event.freedTid log).Nodup
  nonzero : NO_THREAD ∉ tidsOf Event.exitedTid log

variable {ι : Type} {b b' : Book ι} {t z : Ptr} {tid : Tid} {status : Status}

namespace Book

/-- The tid of the context at `t`. -/
def tidAt (b : Book ι) (t : Ptr) : Tid := (b.ctx t).tid

/-- The tids in use or used up: of the live threads, of the zombies and of the freed threads. -/
def tids (b : Book ι) : List Tid :=
  b.live.map b.tidAt ++ (b.zombies.map b.tidAt ++ tidsOf Event.freedTid b.log)

structure Account (b : Book ι) : Prop where
  next : b.currTid = BitVec.ofNat 64 (issued b.log + 1)
  old : ∀ x ∈ b.tids, 0 < x.toNat ∧ x.toNat ≤ issued b.log
  nodup : b.tids.Nodup
  dead : ∀ z ∈ b.zombies, ∃ status woken, .exited z (b.tidAt z) status woken ∈ b.log ∧
    (b.ctx z).status = mkTermStat LWP_TERM status
  exited : tidsOf Event.exitedTid b.log ⊆ b.zombies.map b.tidAt ++ tidsOf Event.freedTid b.log
  returned : tidsOf Event.returnedTid b.log ⊆ tidsOf Event.freedTid b.log
  unmapped : tidsOf Event.unmappedTid b.log ⊆ tidsOf Event.freedTid b.log

/-- The history is in order, if no tid was used twice. -/
def InOrder (b : Book ι) : Prop :=
  issued b.log < addresses → Audited b.log b.exit ∧ (b.exit = none → b.Account)

theorem Account.fresh (h : b.Account) (hlt : issued b.log + 1 < addresses) : b.currTid ∉ b.tids := by
  intro hm
  have hle := (h.old _ hm).2
  have hnat : b.currTid.toNat = issued b.log + 1 := by
    rw [h.next, BitVec.toNat_ofNat]
    exact Nat.mod_eq_of_lt hlt
  omega

end Book

/-! ### Adding events -/

variable {log : List Event} {ev : Event}

theorem nodup_tidsOf_cons {f : Event → Option Tid} (h : (tidsOf f log).Nodup)
    (hev : ∀ x, f ev = some x → x ∉ tidsOf f log) : (tidsOf f (ev :: log)).Nodup := by
  cases hx : f ev with
  | none =>
    rw [tidsOf, List.filterMap_cons_none hx]
    exact h
  | some x =>
    rw [tidsOf, List.filterMap_cons_some hx]
    exact List.nodup_cons.mpr ⟨hev x hx, h⟩

theorem mem_tidsOf_cons {f : Event → Option Tid} {x : Tid} (h : x ∈ tidsOf f (ev :: log)) :
    f ev = some x ∨ x ∈ tidsOf f log := by
  obtain ⟨a, ha, hx⟩ := List.mem_filterMap.mp h
  rcases List.mem_cons.mp ha with rfl | ha
  · exact .inl hx
  · exact .inr (List.mem_filterMap.mpr ⟨a, ha, hx⟩)

theorem tidsOf_subset_cons (f : Event → Option Tid) (ev : Event) (log : List Event) :
    tidsOf f log ⊆ tidsOf f (ev :: log) := (List.sublist_cons_self ev log).filterMap f |>.subset

theorem Audited.running (h : Audited log none) (t : Ptr) (tid : Tid) (stack : Word) :
    .freed t tid stack t ∉ log := by
  intro hm
  obtain ⟨-, -, code, hc⟩ := h.final t tid stack hm
  cases hc

/-- A justified event that repeats no tid. -/
theorem Audited.cons {exit : Option Exit} (h : Audited log none) (hj : Justified log ev)
    (hself : ∀ t tid stack, ev = .freed t tid stack t →
      stack = 0 ∧ ∃ code, exit = some (.yielded code))
    (he : ∀ x, ev.exitedTid = some x → x ≠ NO_THREAD ∧ x ∉ tidsOf Event.exitedTid log)
    (hr : ∀ x, ev.returnedTid = some x → x ∉ tidsOf Event.returnedTid log)
    (hu : ∀ x, ev.unmappedTid = some x → x ∉ tidsOf Event.unmappedTid log)
    (hf : ∀ x, ev.freedTid = some x → x ∉ tidsOf Event.freedTid log) : Audited (ev :: log) exit where
  justified := ⟨hj, h.justified⟩
  final t tid stack hm := by
    rcases List.mem_cons.mp hm with hm | hm
    · obtain ⟨h0, hcode⟩ := hself t tid stack hm.symm
      exact ⟨h0, congrArg some hm.symm, hcode⟩
    · exact absurd hm (h.running t tid stack)
  exitedOnce := nodup_tidsOf_cons h.exitedOnce fun x hx => (he x hx).2
  returnedOnce := nodup_tidsOf_cons h.returnedOnce hr
  unmappedOnce := nodup_tidsOf_cons h.unmappedOnce hu
  freedOnce := nodup_tidsOf_cons h.freedOnce hf
  nonzero hm := by
    rcases mem_tidsOf_cons hm with hm | hm
    · exact (he _ hm).1 rfl
    · exact h.nonzero hm

theorem Audited.exit (h : Audited log none) (x : Option Exit) : Audited log x :=
  { h with final := fun t tid stack hm => absurd hm (h.running t tid stack) }

theorem Audited.assigned (h : Audited log none) (tid : Tid) : Audited (.assigned tid :: log) none :=
  h.cons trivial nofun nofun nofun nofun nofun

theorem Audited.created (h : Audited log none) (t : Ptr) : Audited (.created t :: log) none :=
  h.cons trivial nofun nofun nofun nofun nofun

theorem Audited.made (h : Audited log none) (tid : Tid) : Audited (.made tid :: log) none :=
  h.cons trivial nofun nofun nofun nofun nofun

theorem Audited.returned (h : Audited log none) {asked blocked : Bool} {value : Option Status}
    (hj : Justified log (.returned t tid asked value blocked))
    (hr : tid ≠ NO_THREAD → tid ∉ tidsOf Event.returnedTid log) :
    Audited (.returned t tid asked value blocked :: log) none := by
  refine h.cons hj nofun nofun (fun x hx => ?_) nofun nofun
  by_cases h0 : tid = NO_THREAD
  · rw [Event.returnedTid, if_pos h0] at hx
    cases hx
  · rw [Event.returnedTid, if_neg h0] at hx
    exact Option.some.inj hx ▸ hr h0

theorem Audited.exited (h : Audited log none) {woken : Ptr} (h0 : tid ≠ NO_THREAD)
    (hn : tid ∉ tidsOf Event.exitedTid log) : Audited (.exited t tid status woken :: log) none :=
  h.cons trivial nofun (fun _ hx => Option.some.inj hx ▸ ⟨h0, hn⟩) nofun nofun nofun

theorem Audited.unmapped (h : Audited log none) {curr woken : Ptr} (hne : t ≠ curr)
    (hx : .exited t tid status woken ∈ log) (hn : tid ∉ tidsOf Event.unmappedTid log) :
    Audited (.unmapped t tid curr :: log) none :=
  h.cons ⟨hne, status, woken, hx⟩ nofun nofun nofun (fun _ hx => Option.some.inj hx ▸ hn) nofun

theorem Audited.freed {exit : Option Exit} (h : Audited log none) {curr woken : Ptr} {stack : Word}
    (hself : t = curr → stack = 0 ∧ ∃ code, exit = some (.yielded code))
    (hx : .exited t tid status woken ∈ log) (hn : tid ∉ tidsOf Event.freedTid log) :
    Audited (.freed t tid stack curr :: log) exit := by
  refine h.cons ⟨status, woken, hx⟩ (fun s x st he => ?_) nofun nofun nofun
    (fun _ hx => Option.some.inj hx ▸ hn)
  obtain ⟨rfl, rfl, rfl, rfl⟩ := Event.freed.inj he
  exact hself rfl

namespace Book

theorem Account.congr (h : b.Account) (hlog : b'.log = b.log) (hlive : b'.live = b.live)
    (hz : b'.zombies = b.zombies) (hnext : b'.currTid = b.currTid) (htid : b'.tidAt = b.tidAt)
    (hst : ∀ t, (b'.ctx t).status = (b.ctx t).status) : b'.Account := by
  constructor <;> simp only [tids, hlog, hlive, hz, hnext, htid, hst]
  · exact h.next
  · exact h.old
  · exact h.nodup
  · exact h.dead
  · exact h.exited
  · exact h.returned
  · exact h.unmapped

/-- A zombie's tid is not used up. -/
theorem Account.tid_notMem (h : b.Account) (hz : z ∈ b.zombies) :
    b.tidAt z ∉ tidsOf Event.freedTid b.log := fun hm =>
  (List.nodup_append.mp (List.nodup_append.mp h.nodup).2.1).2.2 _
    (List.mem_map_of_mem hz) _ hm rfl

/-- The history before the context of `z` is freed. -/
def unmapLog (b : Book ι) (z : Ptr) : List Event :=
  if (b.ctx z).stack ≠ 0 then .unmapped z (b.tidAt z) b.currThread :: b.log else b.log

theorem unmapLog_tids (b : Book ι) (z : Ptr) {f : Event → Option Tid}
    (hf : ∀ t tid curr, f (.unmapped t tid curr) = none) :
    tidsOf f (b.unmapLog z) = tidsOf f b.log := by
  unfold unmapLog
  split_ifs
  · exact List.filterMap_cons_none (hf ..)
  · rfl

theorem mem_unmapLog {ev : Event} (h : ev ∈ b.log) : ev ∈ b.unmapLog z := by
  unfold unmapLog
  split_ifs
  · exact List.mem_cons_of_mem _ h
  · exact h

theorem Account.unmapLog (h : b.Account) (ha : Audited b.log none) (hz : z ∈ b.zombies)
    (hne : z ≠ b.currThread) : Audited (b.unmapLog z) none := by
  obtain ⟨status, woken, hx, -⟩ := h.dead z hz
  unfold Book.unmapLog
  split_ifs
  · exact ha.unmapped hne hx fun hm => h.tid_notMem hz (h.unmapped hm)
  · exact ha

/-- Reaping the zombie `z`, which is not the current thread. -/
theorem Account.bury (h : b.Account) (ha : Audited b.log none) (hz : z ∈ b.zombies)
    (hne : z ≠ b.currThread) : Audited (b.bury z).log none ∧ (b.bury z).Account := by
  obtain ⟨status, woken, hx, -⟩ := h.dead z hz
  have hlog : (b.bury z).log = .freed z (b.tidAt z) (b.ctx z).stack b.currThread :: b.unmapLog z :=
    bury_log b z
  have hfreed : tidsOf Event.freedTid (b.bury z).log =
      b.tidAt z :: tidsOf Event.freedTid b.log := by
    rw [hlog]
    exact congrArg (b.tidAt z :: ·) (unmapLog_tids b z fun _ _ _ => rfl)
  have hexited : tidsOf Event.exitedTid (b.bury z).log = tidsOf Event.exitedTid b.log := by
    rw [hlog]
    exact unmapLog_tids b z fun _ _ _ => rfl
  have hreturned : tidsOf Event.returnedTid (b.bury z).log = tidsOf Event.returnedTid b.log := by
    rw [hlog]
    exact unmapLog_tids b z fun _ _ _ => rfl
  have hunmapped : tidsOf Event.unmappedTid (b.bury z).log ⊆
      b.tidAt z :: tidsOf Event.unmappedTid b.log := by
    rw [hlog]
    show tidsOf Event.unmappedTid (b.unmapLog z) ⊆ _
    unfold Book.unmapLog
    split_ifs
    · exact List.Subset.refl _
    · exact List.subset_cons_self _ _
  have htid : (b.bury z).tidAt = b.tidAt := funext fun t => congrArg (fun c => (c t).tid) (bury_ctx b z)
  have hzs : (b.bury z).zombies = b.zombies.erase z := rfl
  -- the tid of `z` moves from the zombies to the freed threads
  have hmove : ((b.bury z).zombies.map b.tidAt ++ tidsOf Event.freedTid (b.bury z).log).Perm
      (b.zombies.map b.tidAt ++ tidsOf Event.freedTid b.log) := by
    rw [hfreed, hzs]
    refine List.perm_middle.trans ?_
    exact ((List.perm_cons_erase hz).symm.map b.tidAt).append_right _
  have hperm : (b.bury z).tids.Perm b.tids := by
    unfold tids
    rw [htid]
    exact hmove.append_left _
  have hsub : tidsOf Event.freedTid b.log ⊆ tidsOf Event.freedTid (b.bury z).log := by
    rw [hfreed]
    exact List.subset_cons_self _ _
  refine ⟨?_, ⟨?_, fun x hx => ?_, hperm.nodup_iff.mpr h.nodup, fun y hy => ?_, ?_, ?_, ?_⟩⟩
  · rw [hlog]
    refine (h.unmapLog ha hz hne).freed (fun he => absurd he hne) (mem_unmapLog hx) ?_
    rw [unmapLog_tids b z fun _ _ _ => rfl]
    exact h.tid_notMem hz
  · rw [issued_bury, ← h.next]
    exact Core.discard_currTid b.toCore z
  · rw [issued_bury]
    exact h.old x (hperm.subset hx)
  · obtain ⟨status, woken, hy', hst⟩ := h.dead y (List.mem_of_mem_erase hy)
    rw [htid, bury_ctx, hlog]
    exact ⟨status, woken, List.mem_cons_of_mem _ (mem_unmapLog hy'), hst⟩
  · rw [hexited, htid]
    exact fun x hx => hmove.symm.subset (h.exited hx)
  · rw [hreturned]
    exact List.Subset.trans h.returned hsub
  · refine List.Subset.trans hunmapped
      (List.cons_subset.mpr ⟨?_, List.Subset.trans h.unmapped hsub⟩)
    rw [hfreed]
    exact List.mem_cons_self

theorem Account.answer (h : b.Account) (tid : Tid) : (b.answer tid).Account where
  next := h.next
  old := h.old
  nodup := h.nodup
  dead z hz := by
    obtain ⟨status, woken, hx, hst⟩ := h.dead z hz
    exact ⟨status, woken, List.mem_cons_of_mem _ hx, hst⟩
  exited := h.exited
  returned := h.returned
  unmapped := h.unmapped

/-- The tid of a buried thread is returned. -/
theorem Account.record (h : b.Account) {asked blocked : Bool} {value : Option Status}
    (hmem : tid ≠ NO_THREAD → tid ∈ tidsOf Event.freedTid b.log) :
    (b.set (·.record (.returned t tid asked value blocked))).Account where
  next := h.next
  old := h.old
  nodup := h.nodup
  dead z hz := by
    obtain ⟨status, woken, hx, hst⟩ := h.dead z hz
    exact ⟨status, woken, List.mem_cons_of_mem _ hx, hst⟩
  exited := h.exited
  returned x hx := by
    rcases mem_tidsOf_cons hx with hx | hx
    · by_cases h0 : tid = NO_THREAD
      · rw [Event.returnedTid, if_pos h0] at hx
        cases hx
      · rw [Event.returnedTid, if_neg h0] at hx
        exact Option.some.inj hx ▸ hmem h0
    · exact h.returned hx
  unmapped := h.unmapped

/-- `lwp_wait` reaps the zombie `z` and returns its tid. -/
theorem Account.returnBuried (h : b.Account) (ha : Audited b.log none) (hz : z ∈ b.zombies)
    (hne : z ≠ b.currThread) (st blocked : Bool) :
    Audited (b.returnBuried z st blocked).log none ∧ (b.returnBuried z st blocked).Account := by
  obtain ⟨hbury, hacc⟩ := h.bury ha hz hne
  obtain ⟨status, woken, hx, hst⟩ := h.dead z hz
  have hlog : (b.bury z).log = .freed z (b.tidAt z) (b.ctx z).stack b.currThread :: b.unmapLog z :=
    bury_log b z
  refine ⟨hbury.returned (fun _ => ⟨z, status, woken, ?_, stored_report hst st⟩) fun _ hm => ?_,
    hacc.record fun _ => ?_⟩
  · rw [hlog]
    exact List.mem_cons_of_mem _ (mem_unmapLog hx)
  · rw [hlog] at hm
    have hm : b.tidAt z ∈ tidsOf Event.returnedTid (b.unmapLog z) := hm
    rw [unmapLog_tids b z fun _ _ _ => rfl] at hm
    exact h.tid_notMem hz (h.returned hm)
  · rw [hlog]
    exact List.mem_cons_self

/-- A tid is used up. -/
theorem Account.assign (h : b.Account) (ha : Audited b.log none) {c : Book ι}
    (hlog : c.log = .assigned b.currTid :: b.log) (hlive : c.live = b.live)
    (hz : c.zombies = b.zombies) (hnext : c.currTid = b.currTid + 1)
    (hctx : ∀ t ∈ b.live ++ b.zombies, c.ctx t = b.ctx t) :
    Audited c.log none ∧ c.Account ∧ c.tids = b.tids := by
  have htid : ∀ t ∈ b.live ++ b.zombies, c.tidAt t = b.tidAt t :=
    fun t ht => congrArg Context.tid (hctx t ht)
  have hzs : c.zombies.map c.tidAt = b.zombies.map b.tidAt := by
    rw [hz]
    exact List.map_congr_left fun t ht => htid t (List.mem_append_right _ ht)
  have hlv : c.live.map c.tidAt = b.live.map b.tidAt := by
    rw [hlive]
    exact List.map_congr_left fun t ht => htid t (List.mem_append_left _ ht)
  have htids : c.tids = b.tids := by
    unfold tids
    rw [hzs, hlv, hlog]
    rfl
  refine ⟨hlog ▸ ha.assigned _, ⟨?_, fun x hx => ?_, htids ▸ h.nodup, fun z hzc => ?_, ?_, ?_, ?_⟩,
    htids⟩
  · rw [hnext, h.next, hlog]
    exact (BitVec.ofNat_add ..).symm
  · rw [htids] at hx
    rw [hlog]
    exact ⟨(h.old x hx).1, (h.old x hx).2.trans (Nat.le_succ _)⟩
  · rw [hz] at hzc
    obtain ⟨status, woken, hx, hst⟩ := h.dead z hzc
    have hz' := List.mem_append_right b.live hzc
    rw [htid z hz', hlog, hctx z hz']
    exact ⟨status, woken, List.mem_cons_of_mem _ hx, hst⟩
  · rw [hzs, hlog]
    exact h.exited
  · rw [hlog]
    exact h.returned
  · rw [hlog]
    exact h.unmapped

/-- A thread with a new tid becomes live. -/
theorem Account.enroll (h : b.Account) (ha : Audited b.log none) (hn : b.tidAt t ∉ b.tids)
    (hold : 0 < (b.tidAt t).toNat ∧ (b.tidAt t).toNat ≤ issued b.log) :
    Audited (b.enroll t).log none ∧ (b.enroll t).Account := by
  have hperm : (b.enroll t).tids.Perm (b.tidAt t :: b.tids) := by
    show ((b.live ++ [t]).map b.tidAt ++ _).Perm _
    rw [List.map_append, List.append_assoc]
    exact List.perm_middle
  refine ⟨ha.created t, ⟨h.next, fun x hx => ?_, hperm.nodup_iff.mpr (List.nodup_cons.mpr ⟨hn, h.nodup⟩),
    fun z hz => ?_, h.exited, h.returned, h.unmapped⟩⟩
  · rcases List.mem_cons.mp (hperm.subset hx) with rfl | hx
    · exact hold
    · exact h.old x hx
  · obtain ⟨status, woken, hx, hst⟩ := h.dead z hz
    exact ⟨status, woken, List.mem_cons_of_mem _ hx, hst⟩

/-- A new thread gets the next tid. -/
theorem Account.spawn {x : Context} (h : b.Account) (ha : Audited b.log none)
    (hlt : issued b.log + 1 < addresses) (hnew : t ∉ b.live ++ b.zombies) (hx : x.tid = b.currTid) :
    Audited (b.spawn t x).log none ∧ (b.spawn t x).Account := by
  unfold Book.spawn
  obtain ⟨ha', h', htids⟩ := h.assign (c := ((b.set (·.malloc t)).set (·.assignTid)).set
    (·.setCtx t x)) ha rfl rfl rfl rfl fun s hs => by
      have hne : s ≠ t := fun he => hnew (he ▸ hs)
      exact Function.update_of_ne hne ..
  have htid : Book.tidAt (((b.set (·.malloc t)).set (·.assignTid)).set (·.setCtx t x)) t =
      b.currTid := (congrArg Context.tid (Function.update_self ..)).trans hx
  refine h'.enroll ha' ?_ ?_
  · rw [htid, htids]
    exact h.fresh hlt
  · have hnat : b.currTid.toNat = issued b.log + 1 := by
      rw [h.next, BitVec.toNat_ofNat]
      exact Nat.mod_eq_of_lt hlt
    rw [htid, hnat]
    exact ⟨Nat.succ_pos _, Nat.le_refl _⟩

theorem handOver_tidAt (b : Book ι) (status : Status) : (b.handOver status).tidAt = b.tidAt :=
  funext fun t => (wake_ctx (b.retire status) t).2.2.trans (Core.setStatus_tid ..)

/-- The current thread becomes a zombie. -/
theorem Account.handOver (h : b.Account) (ha : Audited b.log none) (hc : b.currThread ∈ b.live) :
    Audited (b.handOver status).log none ∧ (b.handOver status).Account := by
  have htid := handOver_tidAt b status
  have hlog := handOver_log b status
  have hz := handOver_zombies b status
  have hfreed : tidsOf Event.freedTid (b.handOver status).log = tidsOf Event.freedTid b.log := by
    rw [hlog]
    rfl
  -- the tid of the thread moves from the live threads to the zombies
  have hmove : ((b.handOver status).zombies.map b.tidAt ++ tidsOf Event.freedTid b.log).Perm
      (b.tidAt b.currThread :: (b.zombies.map b.tidAt ++ tidsOf Event.freedTid b.log)) := by
    rw [hz, List.map_append, List.append_assoc]
    exact List.perm_middle
  have hperm : (b.handOver status).tids.Perm b.tids := by
    unfold tids
    rw [htid, hfreed, handOver_live]
    refine (hmove.append_left _).trans (List.perm_middle.trans ?_)
    exact ((List.perm_cons_erase hc).symm.map b.tidAt).append_right _
  have hmem : b.tidAt b.currThread ∈ b.tids :=
    List.mem_append_left _ (List.mem_map_of_mem hc)
  have hnew : b.tidAt b.currThread ∉ tidsOf Event.exitedTid b.log := fun hm =>
    (List.nodup_append.mp h.nodup).2.2 _ (List.mem_map_of_mem hc) _ (h.exited hm) rfl
  refine ⟨?_, ⟨?_, fun x hx => ?_, hperm.nodup_iff.mpr h.nodup, fun z hzc => ?_, ?_, ?_, ?_⟩⟩
  · rw [hlog]
    refine ha.exited (fun h0 => ?_) hnew
    have := (h.old _ hmem).1
    have h0 : b.tidAt b.currThread = NO_THREAD := h0
    rw [h0] at this
    exact absurd this (Nat.lt_irrefl 0)
  · rw [hlog]
    refine Eq.trans ?_ h.next
    show (b.retire status).wake.currTid = b.currTid
    unfold wake
    split <;> rfl
  · rw [hlog]
    exact h.old x (hperm.subset hx)
  · rw [htid, hlog, handOver_status]
    split_ifs with hzc'
    · rw [hzc']
      exact ⟨status, _, List.mem_cons_self, rfl⟩
    · rw [hz] at hzc
      obtain ⟨st, woken, hx, hst⟩ := h.dead z
        ((List.mem_append.mp hzc).resolve_right fun hn => hzc' (List.mem_singleton.mp hn))
      exact ⟨st, woken, List.mem_cons_of_mem _ hx, hst⟩
  · rw [htid, hfreed, hlog]
    refine List.Subset.trans ?_ hmove.symm.subset
    exact List.cons_subset.mpr ⟨List.mem_cons_self,
      List.Subset.trans h.exited (List.subset_cons_self _ _)⟩
  · rw [hfreed, hlog]
    exact h.returned
  · rw [hfreed, hlog]
    exact h.unmapped

/-- The stackless current thread, a zombie, is freed at the end of the process. -/
theorem Account.endProcess (h : b.Account) (ha : Audited b.log none) (hz : b.currThread ∈ b.zombies) :
    Audited b.endProcess.log b.endProcess.exit := by
  unfold Book.endProcess
  split_ifs with hs
  · obtain ⟨status, woken, hx, -⟩ := h.dead _ hz
    show Audited (b.bury b.currThread).log _
    rw [bury_log, if_neg (not_not.mpr hs), hs]
    exact ha.freed (fun _ => ⟨rfl, _, rfl⟩) hx (h.tid_notMem hz)
  · exact ha.exit _

theorem InOrder.intro (h : issued b.log < addresses → b.exit = none ∧ Audited b.log none ∧ b.Account) :
    b.InOrder := fun hlt => by
  obtain ⟨hx, ha, hacc⟩ := h hlt
  rw [hx]
  exact ⟨ha, fun _ => hacc⟩

/-- Between the calls. -/
theorem InOrder.elim (h : b.InOrder) (hx : b.exit = none) (hlt : issued b.log < addresses) :
    Audited b.log none ∧ b.Account := by
  obtain ⟨ha, hacc⟩ := h hlt
  exact ⟨hx ▸ ha, hacc hx⟩

theorem InOrder.answer (h : b.InOrder) (hx : b.exit = none) (tid : Tid) : (b.answer tid).InOrder :=
  .intro fun hlt => by
    obtain ⟨ha, hacc⟩ := h.elim hx hlt
    exact ⟨hx, ha.made tid, hacc.answer tid⟩

theorem inOrder_kept : Kept (fun _ => True) (InOrder (ι := ι)) where
  quiet {b b'} h _ hq hlt := by
    rw [hq.log] at hlt ⊢
    rw [hq.exit]
    obtain ⟨ha, hacc⟩ := h hlt
    exact ⟨ha, fun hx => (hacc hx).congr hq.log hq.live hq.zombies hq.currTid (funext hq.tid) hq.status⟩
  failed {b b'} h hx hlog hx' hlt := by
    rw [hlog] at hlt ⊢
    exact ⟨(h.elim hx hlt).1.exit _, fun hn => by simp [hx'] at hn⟩
  issue {b} t h hu := .intro fun hlt => by
    obtain ⟨ha, hacc⟩ := h.elim hu.running (Nat.lt_of_succ_lt hlt)
    obtain ⟨ha', hacc', -⟩ :=
      hacc.assign (c := b.spawnFailed t) ha rfl rfl rfl rfl fun _ _ => rfl
    exact ⟨hu.running, ha', hacc'⟩
  spawn {b t x} h hu hfresh _ hx _ := .intro fun hlt => by
    obtain ⟨ha, hacc⟩ := h.elim hu.running (Nat.lt_of_succ_lt hlt)
    have hnew : t ∉ b.live ++ b.zombies := fun hm => by simp [hu.inv.used t hm] at hfresh
    exact ⟨hu.running, hacc.spawn ha hlt hnew hx⟩
  handOver {b} status h hu hc := .intro fun hlt => by
    rw [handOver_log] at hlt
    obtain ⟨ha, hacc⟩ := h.elim hu.running hlt
    exact ⟨(hu.handOver hc status).running, hacc.handOver ha (hu.inv.pool_live (hu.curr hc))⟩
  refuse {b} h hu := h.answer hu.running NO_THREAD
  answer {b t x} h hu := h.answer hu.running b.currTid
  returnNone {b} _ h hu := .intro fun hlt => by
    obtain ⟨ha, hacc⟩ := h.elim hu.running hlt
    exact ⟨hu.running, ha.returned (fun hn => absurd rfl hn) (fun hn => absurd rfl hn),
      hacc.record fun hn => absurd rfl hn⟩
  reap {b z rest} st h hu _ hc hz := .intro fun hlt => by
    obtain ⟨ha, hacc⟩ := h.elim hu.running ((issued_bury b z).symm.trans_lt hlt)
    have hmem : z ∈ b.zombies := by simp [hz]
    have hne := hu.inv.ne_of_live_zombie (hu.inv.pool_live (hu.curr hc)) hmem
    exact ⟨(bury_exit b z).trans hu.running, hacc.returnBuried ha hmem hne.symm st false⟩
  collect {b W} st h hinv hc hx _ hz := .intro fun hlt => by
    obtain ⟨ha, hacc⟩ := h.elim hx ((issued_bury b.clear _).symm.trans_lt hlt)
    have hacc : b.clear.Account := hacc.congr rfl rfl rfl rfl
      (funext fun t => Core.setExited_tid b.toCore b.currThread t 0)
      fun t => Core.setExited_status b.toCore b.currThread t 0
    have hne := hinv.ne_of_live_zombie (hinv.pool_live hc) hz
    exact ⟨(bury_exit b.clear _).trans hx,
      hacc.returnBuried (b := b.clear) ha hz hne.symm st true⟩
  stale {b W} _ h hinv hc hx _ _ := .intro fun hlt => by
    obtain ⟨ha, hacc⟩ := h.elim hx hlt
    have hacc : b.clear.Account := hacc.congr rfl rfl rfl rfl
      (funext fun t => Core.setExited_tid b.toCore b.currThread t 0)
      fun t => Core.setExited_status b.toCore b.currThread t 0
    exact ⟨hx, ha.returned (fun hn => absurd rfl hn) (fun hn => absurd rfl hn),
      hacc.record (b := b.clear) fun hn => absurd rfl hn⟩
  last {b b'} status hu hc _ hq hcurr _ _ h := fun hlt => by
    have hlog : issued b'.endProcess.log = issued b'.log := by
      unfold Book.endProcess
      split_ifs
      · exact issued_bury b' _
      · rfl
    rw [hlog] at hlt
    obtain ⟨ha, hacc⟩ := h.elim (hq.exit.trans (hu.handOver hc status).running) hlt
    have hz : b'.currThread ∈ b'.zombies := by
      rw [hcurr, hq.zombies, handOver_zombies]
      simp
    exact ⟨hacc.endProcess ha hz, nofun⟩

end Book

end Csc453.Lwp
