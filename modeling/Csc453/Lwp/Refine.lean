import Csc453.Lwp.Book

/-!
# Csc453.Lwp.Refine — the library does what the book says

For FIFO-pool schedulers (`Pools`) every library function returns, and takes a state that represents
a book (`Rel`) to one that represents the book after the operation.
-/

namespace Csc453.Lwp

open Function LinkedQueue

variable {ι M : Type}

/-- The pools of the schedulers other than `k` are kept, if they share no thread with `L`. -/
def Apart (Rep : SchedulerPtr ι → M → List Ptr → Prop) (k : SchedulerPtr ι) (L : List Ptr)
    (m m' : M) : Prop :=
  ∀ k' L', k' ≠ k → (∀ t ∈ L', t ∉ L) → Rep k' m L' → Rep k' m' L'

/-- Every scheduler is a FIFO pool and leaves the pools of the others alone. -/
def Pools (S : SchedulerPtr ι → Scheduler M) (Rep : SchedulerPtr ι → M → List Ptr → Prop) : Prop :=
  ∀ k, FifoPool (S k) (Rep k) (Apart Rep k)

theorem published_pools {σ : Type} [DecidableEq ι] {other : ι → Scheduler (Links × σ)}
    {Rep : ι → Links × σ → List Ptr → Prop} (hother : ∀ i, FifoScheduler (other i) (Rep i)) :
    Pools (published other) (PoolRep Rep) := fun k =>
  (published_fifo hother k).mono fun _ _ _ hf _ _ hne hd hr => hr.frame hother hne.symm hf hd

/-- The state represents the book. -/
structure Rel (S : SchedulerPtr ι → Scheduler M) (Rep : SchedulerPtr ι → M → List Ptr → Prop)
    (s : State ι M) (b : Book ι) : Prop where
  core : s.toCore = b.toCore
  live : s.live.Rep 0 b.live
  waiting : s.waiting.Rep 0 b.waiting
  zombies : ∃ nodes, s.zombies.Rep 0 nodes ∧ nodes.map s.zombieThread = b.zombies ∧
    ∀ w ∈ nodes, s.wrappers w = true
  pool : Rep s.schedulerInUse s.sched b.pool
  empty : s.currentScheduler = none → b.pool = []
  idle : ∀ k, k ≠ s.schedulerInUse → (S k).init = none → Rep k s.sched []

variable {S : SchedulerPtr ι → Scheduler M} {Rep : SchedulerPtr ι → M → List Ptr → Prop}
  {s : State ι M} {b : Book ι} {t : Ptr}

theorem eraseP_eq_erase (L : List Ptr) (t : Ptr) : L.eraseP (fun x => decide (x = t)) = L.erase t := by
  rw [List.erase_eq_eraseP']
  rfl

/-- **The rule of the transfer loop.**  `R m L done` says that the old scheduler holds `L` and the
new one has got `done`; it is kept by the three calls of a round.  The first thread of `L` is in
hand, and `next` has put it last. -/
theorem transfer_spec {old new : Scheduler M} {R : M → List Ptr → List Ptr → Prop}
    (hremove : ∀ {m L done t}, R m (L ++ [t]) done → (done ++ t :: L).Nodup →
      ∃ m', old.remove t m = some m' ∧ R m' L done)
    (hadd : ∀ {m L done t}, R m L done → (done ++ t :: L).Nodup → t ≠ 0 →
      R (new.admitThread t m) L (done ++ [t]))
    (hnext : ∀ {m L done}, R m L done → (done ++ L).Nodup →
      (old.next m).1 = L.headD 0 ∧ R (old.next m).2 (L.rotate 1) done)
    {m : M} {L done : List Ptr} (hR : R m (L.rotate 1) done) (hnd : (done ++ L).Nodup) (h0 : 0 ∉ L) :
    ∃ m', transfer old new L.length (L.headD 0) m = some m' ∧ R m' [] (done ++ L) := by
  induction L generalizing m done with
  | nil =>
    rw [List.append_nil]
    exact ⟨m, rfl, hR⟩
  | cons t L ih =>
    rw [List.rotate_cons_succ, List.rotate_zero] at hR
    have ht0 : t ≠ 0 := fun he => h0 (by simp [he])
    have hdone : done ++ t :: L = (done ++ [t]) ++ L := by simp
    obtain ⟨m₁, hrem, h₁⟩ := hremove hR hnd
    have h₂ := hadd h₁ hnd ht0
    rw [hdone] at hnd ⊢
    obtain ⟨hhead, h₃⟩ := hnext h₂ hnd
    obtain ⟨m', htr, h'⟩ := ih h₃ hnd fun hm => h0 (List.mem_cons_of_mem _ hm)
    refine ⟨m', ?_, h'⟩
    show Option.bind _ _ = _
    rw [List.headD_cons, hrem, Option.bind_some]
    dsimp only
    rw [hhead]
    exact htr

namespace Rel

theorem ctx_eq (h : Rel S Rep s b) : s.ctx = b.ctx := by rw [h.core]

theorem curr_eq (h : Rel S Rep s b) : s.currThread = b.currThread := by rw [h.core]

theorem exit_eq (h : Rel S Rep s b) : s.exit = b.exit := by rw [h.core]

/-- Both sides change the contexts and plain variables in the same way. -/
theorem set (h : Rel S Rep s b) (f : Core ι → Core ι)
    (hf : ∀ c, (f c).currentScheduler = c.currentScheduler) : Rel S Rep (s.set f) (b.set f) := by
  have hin : (s.set f).schedulerInUse = s.schedulerInUse := by
    unfold Core.schedulerInUse
    exact congrArg (·.getD .RoundRobin) (hf s.toCore)
  refine ⟨congrArg f h.core, h.live, h.waiting, h.zombies, ?_, ?_, ?_⟩
  · rw [hin]
    exact h.pool
  · intro hn
    exact h.empty ((hf s.toCore).symm.trans hn)
  · rw [hin]
    exact h.idle

theorem useScheduler (h : Rel S Rep s b) :
    Rel S Rep (s.set (·.useScheduler)) (b.set (·.useScheduler)) :=
  ⟨congrArg Core.useScheduler h.core, h.live, h.waiting, h.zombies, h.pool, nofun, h.idle⟩

/-! ### The queues -/

theorem length_lt {q : Queue Ptr} {L : List Ptr} (h : q.Rep 0 L) : L.length < addresses :=
  length_lt_addresses h.nodup h.seg.null_notMem

theorem insertLive (h : Rel S Rep s b) (ht : t ∉ b.live) (h0 : t ≠ 0) :
    Rel S Rep (insertLive t s) { b with live := b.live ++ [t] } := by
  unfold Lwp.insertLive
  rw [if_neg h0]
  exact { h with live := h.live.insert ht h0 }

theorem removeLive (h : Rel S Rep s b) (h0 : t ≠ 0) :
    ∃ s', removeLive t s = some s' ∧ Rel S Rep s' { b with live := b.live.erase t } := by
  obtain ⟨q, hq, hrep⟩ := h.live.remove (p := (· = t)) (length_lt h.live)
  rw [eraseP_eq_erase] at hrep
  unfold Lwp.removeLive
  rw [if_neg h0, hq]
  exact ⟨_, rfl, { h with live := hrep }⟩

theorem insertWaiting (h : Rel S Rep s b) (ht : t ∉ b.waiting) (h0 : t ≠ 0) :
    Rel S Rep (insertWaiting t s) { b with waiting := b.waiting ++ [t] } := by
  unfold Lwp.insertWaiting
  rw [if_neg h0]
  exact { h with waiting := h.waiting.insert ht h0 }

theorem removeWaiting (h : Rel S Rep s b) (h0 : t ≠ 0) :
    ∃ s', removeWaiting t s = some s' ∧ Rel S Rep s' { b with waiting := b.waiting.erase t } := by
  obtain ⟨q, hq, hrep⟩ := h.waiting.remove (p := (· = t)) (length_lt h.waiting)
  rw [eraseP_eq_erase] at hrep
  unfold Lwp.removeWaiting
  rw [if_neg h0, hq]
  exact ⟨_, rfl, { h with waiting := hrep }⟩

theorem insertZombie {e : Env} {w : Ptr} (h : Rel S Rep s b) (hw : e.wrapper = some w)
    (hw0 : w ≠ 0) (hfree : s.wrappers w = false) (h0 : t ≠ 0) :
    Rel S Rep (insertZombie e t s) { b with zombies := b.zombies ++ [t] } := by
  obtain ⟨nodes, hrep, hmap, hused⟩ := h.zombies
  have hnew : w ∉ nodes := fun hm => by simp [hused w hm] at hfree
  unfold Lwp.insertZombie
  rw [if_neg h0, hw]
  refine { h with zombies := ⟨nodes ++ [w], hrep.insert hnew hw0, ?_, ?_⟩ }
  · have hold : nodes.map (Function.update s.zombieThread w t) = b.zombies := by
      rw [← hmap]
      refine List.map_congr_left fun y hy => update_of_ne (fun he : y = w => hnew (he ▸ hy)) ..
    simp [hold]
  · intro y hy
    rcases List.mem_append.mp hy with hy | hy
    · by_cases he : y = w
      · rw [he]
        exact update_self ..
      · exact (update_of_ne he ..).trans (hused y hy)
    · rw [List.mem_singleton.mp hy]
      exact update_self ..

theorem zombies_head (h : Rel S Rep s b) :
    (s.zombies.head = 0 ↔ b.zombies = []) ∧
      (s.zombies.head ≠ 0 → s.zombieThread s.zombies.head = b.zombies.headD 0) := by
  obtain ⟨nodes, hrep, hmap, -⟩ := h.zombies
  rw [hrep.head_eq_null, ← hmap, List.map_eq_nil_iff]
  refine ⟨Iff.rfl, fun hne => ?_⟩
  rw [hrep.head_eq] at hne ⊢
  cases nodes with
  | nil => exact absurd rfl hne
  | cons w nodes => rfl

/-- `find_zombie` finds nothing if the thread is no zombie. -/
theorem findZombie_absent (h : Rel S Rep s b) (ht : t ∉ b.zombies) : findZombie t s = some 0 := by
  obtain ⟨nodes, hrep, hmap, -⟩ := h.zombies
  exact hrep.find_absent (length_lt hrep) (hmap ▸ ht)

/-- The wrapper `find_zombie` finds goes out of the queue with its thread. -/
theorem removeZombie (h : Rel S Rep s b) (ht : t ∈ b.zombies) (h0 : t ≠ 0) :
    ∃ w s', findZombie t s = some w ∧ w ≠ 0 ∧ removeZombie t s = some s' ∧
      Rel S Rep s' { b with zombies := b.zombies.erase t } ∧
      Rel S Rep { s' with wrappers := Function.update s'.wrappers w false }
        { b with zombies := b.zombies.erase t } := by
  obtain ⟨nodes, hrep, hmap, hused⟩ := h.zombies
  obtain ⟨w, hfind, hw0, hout⟩ := hrep.find_present (length_lt hrep) (hmap.symm ▸ ht)
  obtain ⟨q, hq, hqrep⟩ :=
    hrep.remove (p := fun z => decide (s.zombieThread z = t)) (length_lt hrep)
  have herase := Queue.map_eraseP s.zombieThread t nodes
  rw [hmap] at herase
  have hsub : ∀ y ∈ nodes.eraseP fun z => s.zombieThread z = t, s.wrappers y = true :=
    fun y hy => hused y (List.mem_of_mem_eraseP hy)
  refine ⟨w, { s with zombies := q }, hfind, hw0, ?_, { h with zombies := ⟨_, hqrep, herase, hsub⟩ },
    { h with zombies := ⟨_, hqrep, herase, fun y hy => ?_⟩ }⟩
  · unfold Lwp.removeZombie
    rw [if_neg h0, hq]
    rfl
  · have hne : y ≠ w := fun he => hout (he ▸ hy)
    exact (update_of_ne hne ..).trans (hsub y hy)

/-! ### The scheduler -/

theorem schedAdmit (hS : Pools S Rep) (h : Rel S Rep s b) (hcur : s.currentScheduler ≠ none)
    (ht : t ∉ b.pool) (h0 : t ≠ 0) :
    Rel S Rep (schedAdmit S t s) { b with pool := b.pool ++ [t] } := by
  obtain ⟨hpool, hapart⟩ := (hS s.schedulerInUse).admitThread h.pool ht h0
  exact { h with
    pool := hpool
    empty := fun hn => absurd hn hcur
    idle := fun k hk hi => hapart k [] hk (by simp) (h.idle k hk hi) }

theorem schedRemove (hS : Pools S Rep) (h : Rel S Rep s b) (ht : t ∈ b.pool) :
    ∃ s', schedRemove S t s = some s' ∧ Rel S Rep s' { b with pool := b.pool.erase t } := by
  obtain ⟨m, hm, hpool, hapart⟩ := (hS s.schedulerInUse).remove h.pool ht
  refine ⟨{ s with sched := m }, ?_, { h with
    pool := hpool
    empty := fun hn => by rw [h.empty hn] at ht; simp at ht
    idle := fun k hk hi => hapart k [] hk (by simp) (h.idle k hk hi) }⟩
  unfold Lwp.schedRemove
  rw [hm]
  rfl

theorem schedNext (hS : Pools S Rep) (h : Rel S Rep s b) :
    (schedNext S s).1 = b.pool.headD 0 ∧ Rel S Rep (schedNext S s).2 { b with pool := b.pool.rotate 1 } := by
  obtain ⟨hhead, hpool, hapart⟩ := (hS s.schedulerInUse).next h.pool
  exact ⟨hhead, { h with
    pool := hpool
    empty := fun hn => by simp [h.empty hn]
    idle := fun k hk hi => hapart k [] hk (by simp) (h.idle k hk hi) }⟩

theorem schedQlen (hS : Pools S Rep) (h : Rel S Rep s b) : schedQlen S s = b.pool.length :=
  (hS s.schedulerInUse).qlen h.pool

/-! ### Reaping and yielding -/

theorem reapAndRemove (e : Env) (status : Bool) (h : Rel S Rep s b) (hz : 0 ∉ b.zombies) :
    ∃ s', reapAndRemove e t status s =
        some ((b.reap e t status).1, (b.reap e t status).2.1, s') ∧
      Rel S Rep s' (b.reap e t status).2.2 := by
  unfold Lwp.reapAndRemove Book.reap
  by_cases ht : t ∈ b.zombies
  · have h0 : t ≠ 0 := fun he => hz (he ▸ ht)
    obtain ⟨w, s', hfind, hw0, hrem, hrel, hrel'⟩ := h.removeZombie ht h0
    have hctx : s'.ctx t = b.ctx t := by rw [hrel.ctx_eq]
    rw [if_neg h0, if_pos ht, hfind]
    simp only [Option.bind_eq_bind, Option.bind_some]
    rw [if_neg hw0, hrem]
    simp only [Option.bind_some, hctx]
    by_cases hfail : (b.ctx t).stack ≠ 0 ∧ e.munmap = false
    · rw [if_pos hfail, if_pos hfail]
      exact ⟨_, rfl, hrel.set _ fun _ => rfl⟩
    · rw [if_neg hfail, if_neg hfail]
      refine ⟨_, rfl, hrel'.set (·.discard t) fun c => ?_⟩
      unfold Core.discard
      dsimp only
      split_ifs <;> rfl
  · rw [if_neg ht]
    by_cases h0 : t = 0
    · rw [if_pos h0]
      exact ⟨s, rfl, h⟩
    · rw [if_neg h0, h.findZombie_absent ht]
      exact ⟨s, rfl, h⟩

theorem yieldNone (e : Env) (h : Rel S Rep s b) (hz : 0 ∉ b.zombies) :
    ∃ s', yieldNone e s = some s' ∧ Rel S Rep s' (b.halt e) := by
  unfold Lwp.yieldNone Book.halt
  simp only [h.ctx_eq, h.curr_eq]
  by_cases hc : b.currThread = 0
  · rw [if_pos hc, if_pos (.inl hc)]
    exact ⟨s, rfl, h⟩
  by_cases hterm : lwpTerminated (b.ctx b.currThread).status = false
  · rw [if_neg hc, if_pos hterm, if_pos (.inr hterm)]
    exact ⟨s, rfl, h⟩
  have hdead : ¬ (b.currThread = 0 ∨ lwpTerminated (b.ctx b.currThread).status = false) :=
    fun h => h.elim hc hterm
  rw [if_neg hc, if_neg hterm, if_neg hdead]
  by_cases hst : (b.ctx b.currThread).stack = 0
  · obtain ⟨s', hreap, hrel⟩ := h.reapAndRemove (t := b.currThread) e false hz
    rw [if_pos hst, if_pos hst, hreap]
    exact ⟨_, rfl, (hrel.set (·.setCurr 0) fun _ => rfl).set (·.exitProcess _) fun _ => rfl⟩
  · rw [if_neg hst, if_neg hst]
    exact ⟨_, rfl, h.set _ fun _ => rfl⟩

theorem switchTo (t : Ptr) (k : Resume) (h : Rel S Rep s b) :
    (switchTo t k s).1 = (b.switchTo t k).1 ∧
      Rel S Rep (switchTo t k s).2 (b.switchTo t k).2 := by
  unfold Lwp.switchTo Book.switchTo
  rw [h.ctx_eq, h.curr_eq]
  by_cases hc : b.currThread = 0
  · rw [if_pos hc, if_pos hc]
    exact ⟨rfl, h.set _ fun _ => rfl⟩
  · rw [if_neg hc, if_neg hc]
    by_cases hct : b.currThread = t
    · rw [if_pos hct, if_pos hct]
      exact ⟨rfl, h⟩
    · rw [if_neg hct, if_neg hct]
      exact ⟨rfl, h.set (fun c => (c.setState c.currThread k).setCurr t) fun _ => rfl⟩

theorem lwpYield (hS : Pools S Rep) (e : Env) (k : Resume) (h : Rel S Rep s b) (h0 : 0 ∉ b.pool)
    (hz : 0 ∉ b.zombies) :
    ∃ s', lwpYield S e k s = some ((b.yield e k).1, s') ∧ Rel S Rep s' (b.yield e k).2 := by
  unfold Lwp.lwpYield Book.yield
  obtain ⟨hhead, hrel⟩ := h.useScheduler.schedNext hS
  generalize Lwp.schedNext S (s.set (·.useScheduler)) = r at hhead hrel ⊢
  obtain ⟨n, s⟩ := r
  dsimp only at hhead hrel ⊢
  subst hhead
  have hpool : (b.set (·.useScheduler)).pool = b.pool := rfl
  cases hp : b.pool with
  | nil =>
    rw [hpool, hp] at hrel
    obtain ⟨s', hy, hrel'⟩ := Rel.yieldNone e hrel hz
    rw [hpool, hp, List.headD_nil, if_pos rfl, hy]
    have hb : ({ b.set (·.useScheduler) with pool := [].rotate 1 } : Book ι) =
        b.set (·.useScheduler) := by
      rw [List.rotate_nil, ← hp]
      rfl
    exact ⟨s', rfl, hb ▸ hrel'⟩
  | cons t rest =>
    have ht : t ≠ 0 := fun he => h0 (by simp [hp, he])
    rw [hpool, hp, List.rotate_cons_succ, List.rotate_zero] at hrel
    rw [hpool, hp, List.headD_cons, if_neg ht]
    obtain ⟨hk, hrel'⟩ := Rel.switchTo t k hrel
    exact ⟨_, by rw [← hk], hrel'⟩

/-! ### `lwp_wait` -/

theorem returnNone (status blocked : Bool) (h : Rel S Rep s b) :
    Rel S Rep (returnNone status blocked s) (b.returnNone status blocked) := h.set _ fun _ => rfl

theorem waitReap (e : Env) (status blocked : Bool) (h : Rel S Rep s b) (hz : 0 ∉ b.zombies) :
    ∃ s', waitReap e t status blocked s = some s' ∧
      Rel S Rep s' (b.waitReap e t status blocked) := by
  unfold Lwp.waitReap Book.waitReap
  obtain ⟨s', hreap, hrel⟩ := h.reapAndRemove (t := t) e status hz
  rw [hreap]
  simp only [Option.bind_eq_bind, Option.bind_some, hrel.exit_eq]
  by_cases hx : (b.reap e t status).2.2.exit.isSome
  · rw [if_pos hx, if_pos hx]
    exact ⟨_, rfl, hrel⟩
  · rw [if_neg hx, if_neg hx]
    exact ⟨_, rfl, hrel.set _ fun _ => rfl⟩

theorem waitExited (e : Env) (status blocked : Bool) (h : Rel S Rep s b) (hz : 0 ∉ b.zombies) :
    ∃ s', waitExited e status blocked s = some s' ∧
      Rel S Rep s' (b.waitExited e status blocked) := by
  unfold Lwp.waitExited Book.waitExited
  rw [h.ctx_eq, h.curr_eq]
  exact Rel.waitReap e status blocked (h.set _ fun _ => rfl) hz

theorem continueAt (e : Env) (k : Resume) (h : Rel S Rep s b) (hz : 0 ∉ b.zombies) :
    ∃ s', continueAt e k s = some s' ∧ Rel S Rep s' (b.continueAt e k) := by
  unfold Lwp.continueAt Book.continueAt
  cases k with
  | wait status =>
    simp only [h.ctx_eq, h.curr_eq]
    by_cases hx : (b.ctx b.currThread).exited ≠ 0
    · rw [if_pos hx, if_pos hx]
      exact h.waitExited e status true hz
    · rw [if_neg hx, if_neg hx]
      exact ⟨_, rfl, h.returnNone status true⟩
  | _ => exact ⟨s, rfl, h⟩

theorem yieldFrom (hS : Pools S Rep) (e : Env) (k : Resume) (h : Rel S Rep s b) (h0 : 0 ∉ b.pool)
    (hz : 0 ∉ b.zombies) :
    ∃ s', yieldFrom S e k s = some s' ∧ Rel S Rep s' (b.yieldFrom e k) := by
  unfold Lwp.yieldFrom Book.yieldFrom
  obtain ⟨s', hy, hrel⟩ := h.lwpYield hS e k h0 hz
  rw [hy]
  simp only [Option.bind_eq_bind, Option.bind_some, hrel.exit_eq]
  by_cases hx : (b.yield e k).2.exit.isSome
  · rw [if_pos hx, if_pos hx]
    exact ⟨_, rfl, hrel⟩
  · rw [if_neg hx, if_neg hx]
    exact hrel.continueAt e _ fun hm => hz (Book.yield_zombies e k hm)

theorem lwpWait (hS : Pools S Rep) (e : Env) (status : Bool) (h : Rel S Rep s b)
    (h0 : 0 ∉ b.pool) (hz : 0 ∉ b.zombies) (hcurr : b.currThread ≠ 0 → b.currThread ∈ b.pool)
    (hwait : b.currThread ∉ b.waiting) :
    ∃ s', lwpWait S e status s = some s' ∧ Rel S Rep s' (b.wait e status) := by
  unfold Lwp.lwpWait Book.wait
  have hrel := h.useScheduler
  generalize hs₁ : s.set (·.useScheduler) = s₁ at hrel ⊢
  have hb₁ : (b.set (·.useScheduler)).pool = b.pool ∧ (b.set (·.useScheduler)).zombies = b.zombies ∧
    (b.set (·.useScheduler)).currThread = b.currThread ∧
    (b.set (·.useScheduler)).waiting = b.waiting := ⟨rfl, rfl, rfl, rfl⟩
  generalize b.set (·.useScheduler) = b₁ at hrel hb₁ ⊢
  obtain ⟨hb1, hb2, hb3, hb4⟩ := hb₁
  rw [← hb1] at h0
  rw [← hb2] at hz
  rw [← hb3, ← hb1] at hcurr
  rw [← hb3, ← hb4] at hwait
  simp only [hrel.ctx_eq, hrel.curr_eq, hrel.schedQlen hS]
  by_cases hc : b₁.currThread = 0
  · rw [if_pos hc, if_pos hc]
    exact ⟨_, rfl, hrel.returnNone status false⟩
  rw [if_neg hc, if_neg hc]
  by_cases hx : (b₁.ctx b₁.currThread).exited ≠ 0
  · rw [if_pos hx, if_pos hx]
    exact hrel.waitExited e status false hz
  rw [if_neg hx, if_neg hx]
  obtain ⟨hnil, hhead⟩ := hrel.zombies_head
  by_cases hq : b₁.zombies = []
  · have hhead0 : ¬ s₁.zombies.head ≠ 0 := fun hn => hn (hnil.mpr hq)
    rw [if_neg hhead0, if_neg (not_not.mpr hq)]
    by_cases hlen : b₁.pool.length ≤ 1
    · have hlen' : (b₁.pool.length : ℤ) ≤ 1 := by omega
      rw [if_pos hlen', if_pos hlen]
      exact ⟨_, rfl, hrel.returnNone status false⟩
    · have hlen' : ¬ (b₁.pool.length : ℤ) ≤ 1 := by omega
      rw [if_neg hlen', if_neg hlen]
      obtain ⟨s₂, hrem, hrel₂⟩ := hrel.schedRemove hS (hcurr hc)
      rw [hrem]
      simp only [Option.bind_eq_bind, Option.bind_some]
      have hcurr₂ : s₂.currThread = b₁.currThread := hrel₂.curr_eq
      rw [hcurr₂]
      exact (hrel₂.insertWaiting hwait hc).yieldFrom hS e (.wait status)
        (fun hm => h0 (List.mem_of_mem_erase hm)) hz
  · rw [if_pos (mt hnil.mp hq), if_pos hq, hhead (mt hnil.mp hq)]
    exact hrel.waitReap e status false hz

/-! ### Creation and termination -/

theorem enroll (hS : Pools S Rep) (h : Rel S Rep s b) (hlive : t ∉ b.live) (hpool : t ∉ b.pool)
    (h0 : t ≠ 0) : Rel S Rep (enroll S t s) (b.enroll t) :=
  ((h.insertLive hlive h0).useScheduler.schedAdmit hS nofun hpool h0).set (·.record (.created t))
    fun _ => rfl

theorem lwpCreate (hS : Pools S Rep) (e : Env) (f a : Word) (h : Rel S Rep s b)
    (hfresh : ∀ t, e.thread = some t → t ∉ b.live ∧ t ∉ b.pool ∧ t ≠ 0) :
    (lwpCreate S e f a s).1 = (b.create e f a).1 ∧
      Rel S Rep (lwpCreate S e f a s).2 (b.create e f a).2 := by
  have htid : s.currTid = b.currTid := by rw [h.core]
  unfold Lwp.lwpCreate Book.create
  rw [htid]
  cases ht : e.thread with
  | none => exact ⟨rfl, h⟩
  | some t =>
    obtain ⟨hlive, hpool, h0⟩ := hfresh t ht
    have hrel := (h.set (·.malloc t) fun _ => rfl).set (·.assignTid) fun _ => rfl
    dsimp only
    by_cases hsize : getStackSize e = 0
    · rw [if_pos hsize, if_pos hsize]
      exact ⟨rfl, hrel.set _ fun _ => rfl⟩
    · rw [if_neg hsize, if_neg hsize]
      cases e.stack with
      | none => exact ⟨rfl, hrel.set (·.free t) fun _ => rfl⟩
      | some base =>
        exact ⟨rfl, Rel.enroll hS (hrel.set (·.setCtx t _) fun _ => rfl) hlive hpool h0⟩

theorem lwpStart (hS : Pools S Rep) (e : Env) (h : Rel S Rep s b) (hp : 0 ∉ b.pool)
    (hz : 0 ∉ b.zombies) (hfresh : ∀ t, e.thread = some t → t ∉ b.live ∧ t ∉ b.pool ∧ t ≠ 0) :
    ∃ s', lwpStart S e s = some s' ∧ Rel S Rep s' (b.start e) := by
  have htid : s.currTid = b.currTid := by rw [h.core]
  unfold Lwp.lwpStart Book.start
  rw [htid, h.ctx_eq]
  cases ht : e.thread with
  | none => exact ⟨_, rfl, h.set (·.exitProcess .failed) fun _ => rfl⟩
  | some t =>
    obtain ⟨hlive, hpool, h0⟩ := hfresh t ht
    have hrel := (h.set (·.malloc t) fun _ => rfl).set (·.assignTid) fun _ => rfl
    have hrel := Rel.enroll hS
      (hrel.set (·.setCtx t ⟨b.currTid, 0, 0, (b.ctx t).state, LWP_LIVE, 0⟩) fun _ => rfl)
      hlive hpool h0
    refine (hrel.set (·.setCurr t) fun _ => rfl).yieldFrom hS e .user (fun hm => ?_) hz
    rcases List.mem_append.mp hm with hm | hm
    · exact hp hm
    · exact h0 (List.mem_singleton.mp hm).symm

theorem wakeWaiter (hS : Pools S Rep) (h : Rel S Rep s b) (hcur : s.currentScheduler ≠ none)
    (hw : ∀ w ∈ b.waiting, w ∉ b.pool) :
    ∃ s', wakeWaiter S s = some (b.waiting.headD 0, s') ∧ Rel S Rep s' b.wake := by
  have hhead := h.waiting.head_eq
  have hnull := h.waiting.seg.null_notMem
  unfold Lwp.wakeWaiter Book.wake
  cases hq : b.waiting with
  | nil =>
    rw [hq] at hhead
    rw [hhead]
    exact ⟨s, if_pos rfl, h⟩
  | cons w rest =>
    rw [hq] at hhead hnull hw
    have h0 : w ≠ 0 := fun he => hnull (by simp [he])
    have hrel := (h.set (fun c => c.setExited w c.currThread) fun _ => rfl).schedAdmit hS
      (t := w) hcur (hw w List.mem_cons_self) h0
    obtain ⟨s', hrem, hrel'⟩ := hrel.removeWaiting h0
    dsimp only
    rw [hhead, List.headD_cons, if_neg h0, hrem]
    have herase : b.waiting.erase w = rest := by rw [hq, List.erase_cons_head]
    refine ⟨s', rfl, ?_⟩
    rw [← herase]
    exact hrel'

theorem lwpExit (hS : Pools S Rep) (e : Env) (status : Status) (h : Rel S Rep s b)
    (hx : b.exit = none) (h0 : 0 ∉ b.pool) (hz : 0 ∉ b.zombies)
    (hcurr : b.currThread ≠ 0 → b.currThread ∈ b.pool) (hw : ∀ w ∈ b.waiting, w ∉ b.pool)
    (hfresh : ∀ w, e.wrapper = some w → w ≠ 0 ∧ s.wrappers w = false) :
    ∃ s', lwpExit S e status s = some s' ∧ Rel S Rep s' (b.terminate e status) := by
  unfold Lwp.lwpExit Book.terminate
  dsimp only
  rw [h.curr_eq]
  by_cases hc : b.currThread = 0
  · rw [if_pos hc, if_pos hc]
    exact ⟨s, rfl, h⟩
  rw [if_neg hc, if_neg hc]
  have hrel := h.set (·.setStatus b.currThread (mkTermStat LWP_TERM status)) fun _ => rfl
  cases hwr : e.wrapper with
  | none =>
    have hins : Lwp.insertZombie e b.currThread
        (s.set (·.setStatus b.currThread (mkTermStat LWP_TERM status))) =
        (s.set (·.setStatus b.currThread (mkTermStat LWP_TERM status))).set
          (·.exitProcess .failed) := by
      unfold Lwp.insertZombie
      rw [if_neg hc, hwr]
    rw [hins]
    exact ⟨_, if_pos rfl, hrel.set (·.exitProcess .failed) fun _ => rfl⟩
  | some w =>
    obtain ⟨hw0, hfree⟩ := hfresh w hwr
    have hrel := hrel.insertZombie (t := b.currThread) hwr hw0 hfree hc
    have hx₁ := hrel.exit_eq.trans hx
    generalize Lwp.insertZombie e b.currThread _ = s₁ at hrel hx₁ ⊢
    obtain ⟨s₂, hrem, hrel⟩ := hrel.useScheduler.schedRemove hS (hcurr hc)
    obtain ⟨s₃, hlive, hrel⟩ := hrel.removeLive hc
    have hcur : s₃.currentScheduler ≠ none := by
      rw [hrel.core]
      exact nofun
    obtain ⟨s₄, hwake, hrel⟩ := hrel.wakeWaiter hS hcur
      fun w hm hp => hw w hm (List.mem_of_mem_erase hp)
    rw [if_neg (by simp [hx₁]), if_neg (by simp)]
    simp only [Option.bind_eq_bind, hrem, hlive, hwake, Option.bind_some]
    change Rel S Rep s₄ (b.retire status).wake at hrel
    have hrel := hrel.set (fun c => c.record (.exited b.currThread (c.ctx b.currThread).tid status
      (b.waiting.headD 0))) fun _ => rfl
    refine hrel.yieldFrom hS e .exit (fun hm => ?_) fun hm => ?_
    · rcases Book.mem_wake_pool _ hm with hm | hm
      · exact h0 (List.mem_of_mem_erase hm)
      · exact h.waiting.seg.null_notMem hm
    · have hm : 0 ∈ (b.retire status).wake.zombies := hm
      rw [Book.wake_zombies] at hm
      rcases List.mem_append.mp hm with hm | hm
      · exact hz hm
      · exact hc (List.mem_singleton.mp hm).symm

/-! ### `lwp_set_scheduler` -/

/-- The transfer loop drains the old pool `L`, whose first thread is in hand and was put last, and
appends it to the new one. -/
theorem transfer (hS : Pools S Rep) {old new : SchedulerPtr ι} (hne : old ≠ new) {L done : List Ptr}
    {m : M} (hold : Rep old m (L.rotate 1)) (hnew : Rep new m done) (hnd : (done ++ L).Nodup)
    (h0 : 0 ∉ L) :
    ∃ m', transfer (S old) (S new) L.length (L.headD 0) m = some m' ∧ Rep old m' [] ∧
      Rep new m' (done ++ L) ∧ ∀ k, k ≠ old → k ≠ new → Rep k m [] → Rep k m' [] := by
  refine transfer_spec (R := fun m' L done => Rep old m' L ∧ Rep new m' done ∧
    ∀ k, k ≠ old → k ≠ new → Rep k m [] → Rep k m' []) ?_ ?_ ?_ ⟨hold, hnew, fun _ _ _ h => h⟩ hnd h0
  · rintro m L done t ⟨hold, hnew, hothers⟩ hd
    obtain ⟨m₁, hrem, hold₁, hapart⟩ := (hS old).remove hold (by simp : t ∈ L ++ [t])
    have htL : t ∉ L := fun hm => (nodup_cut hd).2 (List.mem_append_right _ hm)
    rw [List.erase_append_right _ htL, List.erase_cons_head, List.append_nil] at hold₁
    refine ⟨m₁, hrem, hold₁, hapart new done hne.symm (fun x hx hm => ?_) hnew, fun k hko hkn hk => ?_⟩
    · exact (List.nodup_append.mp hd).2.2 x hx x (by simpa [or_comm] using hm) rfl
    · exact hapart k [] hko (by simp) (hothers k hko hkn hk)
  · rintro m L done t ⟨hold, hnew, hothers⟩ hd ht0
    have htd : t ∉ done := fun hm => (nodup_cut hd).2 (List.mem_append_left _ hm)
    obtain ⟨hnew₁, hapart⟩ := (hS new).admitThread hnew htd ht0
    refine ⟨hapart old L hne (fun x hx hm => ?_) hold, hnew₁, fun k hko hkn hk => ?_⟩
    · rcases List.mem_append.mp hm with hm | hm
      · exact (List.nodup_append.mp hd).2.2 x hm x (List.mem_cons_of_mem _ hx) rfl
      · rw [List.mem_singleton.mp hm] at hx
        exact (nodup_cut hd).2 (List.mem_append_right _ hx)
    · exact hapart k [] hkn (by simp) (hothers k hko hkn hk)
  · rintro m L done ⟨hold, hnew, hothers⟩ hd
    obtain ⟨hhead, hold₁, hapart⟩ := (hS old).next hold
    refine ⟨hhead, hold₁, hapart new done hne.symm (fun x hx hm => ?_) hnew, fun k hko hkn hk => ?_⟩
    · exact (List.nodup_append.mp hd).2.2 x hx x hm rfl
    · exact hapart k [] hko (by simp) (hothers k hko hkn hk)

theorem lwpSetScheduler [DecidableEq ι] (hS : Pools S Rep) (fn : Option (SchedulerPtr ι))
    (h : Rel S Rep s b) (hnd : b.pool.Nodup) (h0 : 0 ∉ b.pool) :
    ∃ s', lwpSetScheduler S fn s = some s' ∧ Rel S Rep s' (b.setScheduler fn) := by
  unfold Lwp.lwpSetScheduler Book.setScheduler
  generalize fn.getD .RoundRobin = new
  dsimp only
  by_cases hcur : s.currentScheduler = some new
  · rw [if_pos hcur]
    refine ⟨s, rfl, ?_⟩
    have hb : b.set (·.setScheduler new) = b := by
      have hcb : b.currentScheduler = some new := by rw [← hcur, h.core]
      unfold Book.set Core.setScheduler
      rw [← hcb]
    rw [hb]
    exact h
  rw [if_neg hcur]
  have hcore : s.toCore.setScheduler new = b.toCore.setScheduler new :=
    congrArg (Core.setScheduler new) h.core
  -- the pool of the new scheduler is empty once it is initialised, the others are kept
  have hinit : Rep new (callIfDefined (S new).init s.sched) [] ∧
      ∀ k L, k ≠ new → Rep k s.sched L → Rep k (callIfDefined (S new).init s.sched) L := by
    cases hi : (S new).init with
    | some f =>
      obtain ⟨hrep, hapart⟩ := (hS new).init f hi s.sched
      exact ⟨hrep, fun k L hk hr => hapart k L hk (by simp) hr⟩
    | none =>
      refine ⟨?_, fun _ _ _ hr => hr⟩
      by_cases hn : new = s.schedulerInUse
      · have hnone : s.currentScheduler = none := by
          cases hc : s.currentScheduler with
          | none => rfl
          | some old =>
            have : s.schedulerInUse = old := by rw [Core.schedulerInUse, hc]; rfl
            rw [hc, hn, this] at hcur
            exact absurd rfl hcur
        have := h.pool
        rw [h.empty hnone, ← hn] at this
        exact this
      · exact h.idle new hn hi
  generalize callIfDefined (S new).init s.sched = m at hinit ⊢
  obtain ⟨hnew, hkeep⟩ := hinit
  cases hold : s.currentScheduler with
  | none =>
    have hempty := h.empty hold
    have hin : s.schedulerInUse = .RoundRobin := by rw [Core.schedulerInUse, hold]; rfl
    refine ⟨_, rfl, hcore, h.live, h.waiting, h.zombies, ?_, nofun, fun k hk hi => ?_⟩
    · show Rep new m b.pool
      rw [hempty]
      exact hnew
    · refine hkeep k [] hk ?_
      by_cases hkr : k = s.schedulerInUse
      · have := h.pool
        rw [hempty, ← hkr] at this
        exact this
      · exact h.idle k hkr hi
  | some old =>
    have hin : s.schedulerInUse = old := by rw [Core.schedulerInUse, hold]; rfl
    have hne : old ≠ new := fun he => hcur (he ▸ hold)
    have hpool := hkeep old b.pool hne (hin ▸ h.pool)
    obtain ⟨hhead, hpool₁, hapart₁⟩ := (hS old).next hpool
    have hlen := (hS old).qlen hpool₁
    have hnew₁ := hapart₁ new [] hne.symm (by simp) hnew
    obtain ⟨m₂, htr, hold₂, hnew₂, hothers⟩ := Rel.transfer hS hne hpool₁ hnew₁
      (by simpa using hnd) h0
    have hdown : Rep new (callIfDefined (S old).shutdown m₂) b.pool ∧
        Rep old (callIfDefined (S old).shutdown m₂) [] ∧
        ∀ k, k ≠ old → Rep k m₂ [] → Rep k (callIfDefined (S old).shutdown m₂) [] := by
      cases hd : (S old).shutdown with
      | none => exact ⟨hnew₂, hold₂, fun _ _ hr => hr⟩
      | some f =>
        obtain ⟨hrep, hapart⟩ := (hS old).shutdown f hd m₂ hold₂
        exact ⟨hapart new _ hne.symm (by simp) hnew₂, hrep,
          fun k hk hr => hapart k [] hk (by simp) hr⟩
    dsimp only
    rw [hhead, hlen, List.length_rotate, Int.toNat_natCast, htr]
    refine ⟨_, rfl, hcore, h.live, h.waiting, h.zombies, hdown.1, nofun, fun k hk hi => ?_⟩
    by_cases hko : k = old
    · rw [hko]
      exact hdown.2.1
    · exact hdown.2.2 k hko <| hothers k hko hk <| hapart₁ k [] hko (by simp) <|
        hkeep k [] hk (h.idle k (hin ▸ hko) hi)

end Rel

end Csc453.Lwp
