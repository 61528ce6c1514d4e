import Csc453.Lwp.Invariant

/-!
# Csc453.Lwp.Kept — the rule for properties of books

A call is a sequence of a few operations on the book.  `Kept G P` lists them: what each must do to a
property `P`, with what is known of the book at that point; `G` is known when `lwp_wait` takes a
zombie without blocking.  `Kept.exec` is the rule: then every call keeps `P`.
-/

namespace Csc453.Lwp.Book

open Function

variable {ι : Type}

/-- Nothing changes but the pool, the waiting list, the current thread and saved places. -/
structure Quiet (b b' : Book ι) : Prop where
  log : b'.log = b.log
  live : b'.live = b.live
  zombies : b'.zombies = b.zombies
  currTid : b'.currTid = b.currTid
  exit : b'.exit = b.exit
  tid : ∀ t, (b'.ctx t).tid = (b.ctx t).tid
  stack : ∀ t, (b'.ctx t).stack = (b.ctx t).stack
  status : ∀ t, (b'.ctx t).status = (b.ctx t).status
  exited : ∀ t, (b'.ctx t).exited = (b.ctx t).exited

/-- The process ends in `lwp_yield`, which reaps the current thread if it has no stack. -/
def endProcess (b : Book ι) : Book ι :=
  (if (b.ctx b.currThread).stack = 0 then (b.bury b.currThread).set (·.setCurr 0) else b).set
    (·.exitProcess (.yielded (lwpTermStat (b.ctx b.currThread).status)))

structure Kept (G P : Book ι → Prop) : Prop where
  quiet : ∀ {b b'}, P b → b.exit = none → Quiet b b' → P b'
  failed : ∀ {b b'}, P b → b.exit = none → b'.log = b.log → b'.exit = some .failed → P b'
  issue : ∀ {b} t, P b → b.UserMode → P (b.spawnFailed t)
  spawn : ∀ {b t x}, P b → b.UserMode → b.used t = false → t ≠ 0 → x.tid = b.currTid →
    x.exited = 0 → P (b.spawn t x)
  refuse : ∀ {b}, P b → b.UserMode → P (b.answer NO_THREAD)
  answer : ∀ {b : Book ι} {t x}, P (b.spawn t x) → (b.spawn t x).UserMode →
    P ((b.spawn t x).answer b.currTid)
  handOver : ∀ {b} status, P b → b.UserMode → b.currThread ≠ 0 → P (b.handOver status)
  returnNone : ∀ {b} status, P b → b.UserMode → P (b.returnNone status false)
  reap : ∀ {b z rest} status, P b → b.UserMode → G b → b.currThread ≠ 0 → b.zombies = z :: rest →
    P (b.returnBuried z status false)
  collect : ∀ {b} {W : Ptr → Prop} status, P b → b.Inv W → b.currThread ∈ b.pool →
    b.exit = none → W b.currThread → (b.ctx b.currThread).exited ∈ b.zombies →
    P (b.clear.returnBuried (b.ctx b.currThread).exited status true)
  stale : ∀ {b} {W : Ptr → Prop} status, P b → b.Inv W → b.currThread ∈ b.pool → b.exit = none →
    W b.currThread → (b.ctx b.currThread).exited ∉ b.zombies → P (b.clear.returnNone status true)
  last : ∀ {b b' : Book ι} status, b.UserMode → b.currThread ≠ 0 → b.live = [b.currThread] →
    Quiet (b.handOver status) b' → b'.currThread = b.currThread → b'.pool = [] → b'.waiting = [] →
    P b' → P b'.endProcess

variable {G P : Book ι → Prop} {b : Book ι} {k : Resume} {status : Status}

theorem Quiet.refl (b : Book ι) : Quiet b b :=
  ⟨rfl, rfl, rfl, rfl, rfl, fun _ => rfl, fun _ => rfl, fun _ => rfl, fun _ => rfl⟩

theorem Quiet.useScheduler (b : Book ι) : Quiet b (b.set (·.useScheduler)) := { Quiet.refl b with }

theorem Quiet.setCurr (b : Book ι) (t : Ptr) : Quiet b (b.set (·.setCurr t)) := { Quiet.refl b with }

theorem Quiet.switchTo (b : Book ι) (t : Ptr) (k : Resume) : Quiet b (b.switchTo t k).2 := by
  unfold Book.switchTo
  split_ifs
  · exact Quiet.setCurr b t
  · exact Quiet.refl b
  · exact
      { Quiet.refl b with
        tid := fun s => Core.setState_tid b.toCore b.currThread s k
        stack := fun s => Core.setState_stack b.toCore b.currThread s k
        status := fun s => Core.setState_status b.toCore b.currThread s k
        exited := fun s => Core.setState_exited b.toCore b.currThread s k }

theorem halt_eq (hc : b.currThread ≠ 0) (hterm : lwpTerminated (b.ctx b.currThread).status = true)
    (hz : b.currThread ∈ b.zombies) (e : Env) : b.halt e = b.endProcess := by
  unfold halt endProcess
  dsimp only
  have hno : ¬ (b.currThread = 0 ∨ lwpTerminated (b.ctx b.currThread).status = false) := by
    rintro (h0 | h0)
    · exact hc h0
    · simp [hterm] at h0
  rw [if_neg hno]
  by_cases hs : (b.ctx b.currThread).stack = 0
  · obtain ⟨hn, -⟩ | ⟨-, hs', -⟩ | ⟨-, hr⟩ := reap_cases b e b.currThread false
    · exact absurd hz hn
    · exact absurd hs hs'
    · rw [if_pos hs, if_pos hs, hr]
  · rw [if_neg hs, if_neg hs]

namespace Kept

theorem mono {G G' : Book ι → Prop} (hP : Kept G P) (hG : ∀ b, G' b → G b) : Kept G' P :=
  { hP with reap := fun status h hu hg => hP.reap status h hu (hG _ hg) }

theorem and {Q : Book ι → Prop} (hP : Kept G P) (hQ : Kept G Q) : Kept G fun b => P b ∧ Q b where
  quiet h hx hq := ⟨hP.quiet h.1 hx hq, hQ.quiet h.2 hx hq⟩
  failed h hx hlog hx' := ⟨hP.failed h.1 hx hlog hx', hQ.failed h.2 hx hlog hx'⟩
  issue t h hu := ⟨hP.issue t h.1 hu, hQ.issue t h.2 hu⟩
  spawn h hu hfree h0 htid hx :=
    ⟨hP.spawn h.1 hu hfree h0 htid hx, hQ.spawn h.2 hu hfree h0 htid hx⟩
  handOver status h hu hc := ⟨hP.handOver status h.1 hu hc, hQ.handOver status h.2 hu hc⟩
  refuse h hu := ⟨hP.refuse h.1 hu, hQ.refuse h.2 hu⟩
  answer h hu := ⟨hP.answer h.1 hu, hQ.answer h.2 hu⟩
  returnNone status h hu := ⟨hP.returnNone status h.1 hu, hQ.returnNone status h.2 hu⟩
  reap status h hu hg hc hz := ⟨hP.reap status h.1 hu hg hc hz, hQ.reap status h.2 hu hg hc hz⟩
  collect status h hinv hc hx hW hz :=
    ⟨hP.collect status h.1 hinv hc hx hW hz, hQ.collect status h.2 hinv hc hx hW hz⟩
  stale status h hinv hc hx hW hn :=
    ⟨hP.stale status h.1 hinv hc hx hW hn, hQ.stale status h.2 hinv hc hx hW hn⟩
  last status hu hc hlive hq hcurr hp hw h :=
    ⟨hP.last status hu hc hlive hq hcurr hp hw h.1, hQ.last status hu hc hlive hq hcurr hp hw h.2⟩

/-- The rest of `lwp_wait` of a thread that was given a terminated thread. -/
theorem waitExited {W : Ptr → Prop} (hP : Kept G P) (h : P b) (hinv : b.Inv W)
    (hc : b.currThread ∈ b.pool) (hx : b.exit = none) (hW : W b.currThread) (e : Env)
    (status : Bool) : P (b.waitExited e status true) := by
  unfold Book.waitExited
  obtain ⟨hn, hr⟩ | ⟨-, hr⟩ | ⟨hz, hr⟩ :=
    waitReap_cases b.clear e (b.ctx b.currThread).exited status true hx
  · rw [hr]
    exact hP.stale status h hinv hc hx hW hn
  · rw [hr]
    exact hP.failed h hx rfl rfl
  · rw [hr]
    exact hP.collect status h hinv hc hx hW hz

theorem continueAt (hP : Kept G P) (h : P b) (hinv : b.Inv (b.Parked k))
    (hc : b.currThread ∈ b.pool) (hx : b.exit = none) (e : Env) : P (b.continueAt e k) := by
  cases k with
  | wait status =>
    have hW : b.Parked (.wait status) b.currThread := (parked_curr b _).mpr trivial
    have hex := (hinv.woken _ (hinv.pool_live hc)).mpr ⟨hc, hW⟩
    unfold Book.continueAt
    dsimp only
    rw [if_pos hex]
    exact hP.waitExited h hinv hc hx hW e status
  | _ => exact h

/-- `lwp_yield`, and what the next thread does, unless the process ends here. -/
theorem yieldFrom (hP : Kept G P) (h : P b) (hy : b.Yielding k)
    (hp : b.pool = [] → b.currThread = 0) (e : Env) : P (b.yieldFrom e k) := by
  unfold Book.yieldFrom Book.yield
  cases hpool : b.pool with
  | nil =>
    dsimp only
    have hc := hp hpool
    have hk : ¬ k.InWait := by
      rcases hy.idle hpool with ⟨-, -, hk⟩ | ⟨hn, -⟩
      · exact hk
      · exact absurd hc hn
    have hhalt : (b.set (·.useScheduler)).halt e = b.set (·.useScheduler) := if_pos (.inl hc)
    have hrun : (b.set (·.useScheduler)).exit = none := hy.running
    rw [hhalt, hrun, if_neg (by simp), continueAt_of_not_inWait hk]
    exact hP.quiet h hy.running (Quiet.useScheduler b)
  | cons t rest =>
    dsimp only
    have hinv := hy.inv.useScheduler.rotate (b := b.set (·.useScheduler)) hpool
    have h : P { b.set (·.useScheduler) with pool := rest ++ [t] } :=
      hP.quiet h hy.running { Quiet.refl b with }
    have hrun : ({ b.set (·.useScheduler) with pool := rest ++ [t] } : Book ι).exit = none :=
      hy.running
    have hpool' : ({ b.set (·.useScheduler) with pool := rest ++ [t] } : Book ι).pool =
        rest ++ [t] := rfl
    have hparked : ({ b.set (·.useScheduler) with pool := rest ++ [t] } : Book ι).Inv
        (({ b.set (·.useScheduler) with pool := rest ++ [t] } : Book ι).Parked k) := hinv
    generalize ({ b.set (·.useScheduler) with pool := rest ++ [t] } : Book ι) = b' at *
    obtain ⟨hinv', hcurr⟩ := hparked.switchTo t
    have hq := Quiet.switchTo b' t k
    have hpool'' : (b'.switchTo t k).2.pool = b'.pool := by
      unfold Book.switchTo
      split_ifs <;> rfl
    rw [hq.exit, hrun, if_neg (by simp)]
    refine hP.continueAt (hP.quiet h hrun hq) hinv' ?_ (hq.exit.trans hrun) e
    rw [hcurr, hpool'', hpool']
    simp

/-- With no other thread left, the last one ends the process. -/
theorem endProcess (hP : Kept G P) (h : P (b.handOver status)) (hu : b.UserMode)
    (hc : b.currThread ≠ 0) (hp : (b.handOver status).pool = []) (e : Env) :
    P ((b.handOver status).yieldFrom e .exit) := by
  have hy := hu.handOver hc status
  have hcurr : (b.handOver status).currThread = b.currThread := wake_curr _
  have hz : (b.handOver status).zombies = b.zombies ++ [b.currThread] := wake_zombies _
  -- nobody was woken, and nobody else was runnable
  obtain ⟨hwait, hwait', hpool⟩ : b.waiting = [] ∧ (b.handOver status).waiting = [] ∧
      b.pool.erase b.currThread = [] := by
    obtain ⟨hq, hw⟩ | ⟨w, rest, -, hw⟩ := wake_cases (b.retire status)
    · exact ⟨hq, (congrArg Book.waiting hw).trans hq, (congrArg Book.pool hw).symm.trans hp⟩
    · have : (b.retire status).pool ++ [w] = [] := (congrArg Book.pool hw).symm.trans hp
      simp at this
  have hlive : b.live = [b.currThread] := by
    have hperm := (List.perm_cons_erase (hu.curr hc)).append_right b.waiting
    rw [hwait, hpool, List.append_nil, List.append_nil] at hperm
    have := hu.inv.perm
    rw [hwait, List.append_nil] at this
    exact List.perm_singleton.mp (this.trans hperm)
  obtain ⟨-, hterm⟩ : (b.handOver status).currThread ≠ 0 ∧ _ :=
    (hy.idle hp).resolve_left fun h0 => hc (hcurr.symm.trans h0.1)
  unfold Book.yieldFrom Book.yield
  rw [hp]
  have hq := Quiet.useScheduler (b.handOver status)
  have hhalt : ((b.handOver status).set (·.useScheduler)).halt e =
      ((b.handOver status).set (·.useScheduler)).endProcess :=
    halt_eq (b := (b.handOver status).set (·.useScheduler))
      (hcurr ▸ hc : (b.handOver status).currThread ≠ 0) hterm
      (by show (b.handOver status).currThread ∈ (b.handOver status).zombies; simp [hz, hcurr]) e
  dsimp only
  rw [hhalt, if_pos (by rfl)]
  exact hP.last status hu hc hlive hq hcurr hp hwait' (hP.quiet h hy.running hq)

theorem terminate (hP : Kept G P) (h : P b) (hu : b.UserMode) (e : Env) (status : Status) :
    P (b.terminate e status) := by
  unfold Book.terminate
  dsimp only
  by_cases hc : b.currThread = 0
  · rw [if_pos hc]
    exact h
  rw [if_neg hc]
  by_cases hwr : e.wrapper = none
  · rw [if_pos hwr]
    exact hP.failed h hu.running rfl rfl
  rw [if_neg hwr]
  have h := hP.handOver status h hu hc
  by_cases hp : (b.handOver status).pool = []
  · exact hP.endProcess h hu hc hp e
  · exact hP.yieldFrom h (hu.handOver hc status) (fun hn => absurd hn hp) e

theorem create (hP : Kept G P) (h : P b) (hu : b.UserMode) {e : Env}
    (hfresh : ∀ t, e.thread = some t → t ≠ 0 ∧ b.used t = false) (f a : Word) :
    P ((b.create e f a).2.answer (b.create e f a).1) := by
  have hu' := hu.create e f a hfresh
  obtain ⟨-, hr⟩ | ⟨t, ht, hr | ⟨base, -, hr⟩⟩ := create_cases b e f a <;> rw [hr] at hu' ⊢
  · exact hP.refuse h hu'
  · exact hP.refuse (hP.issue t h hu) hu'
  · exact hP.answer (hP.spawn h hu (hfresh t ht).2 (hfresh t ht).1 rfl rfl) hu'

theorem start (hP : Kept G P) (h : P b) (hu : b.UserMode) {e : Env} (hc : b.currThread = 0)
    (hfresh : ∀ t, e.thread = some t → t ≠ 0 ∧ b.used t = false) : P (b.start e) := by
  unfold Book.start
  cases ht : e.thread with
  | none => exact hP.failed h hu.running rfl rfl
  | some t =>
    obtain ⟨h0, hfree⟩ := hfresh t ht
    refine hP.yieldFrom (hP.quiet (hP.spawn h hu hfree h0 rfl rfl) hu.running (Quiet.setCurr _ t))
      (hu.spawnCurr hc hfree h0 rfl rfl) (fun hp => ?_) e
    exact absurd hp (List.append_ne_nil_of_right_ne_nil _ (List.cons_ne_nil t []))

theorem wait (hP : Kept G P) (h : P b) (hu : b.UserMode) (hG : G (b.set (·.useScheduler)))
    (e : Env) (status : Bool) : P (b.wait e status) := by
  unfold Book.wait
  have h := hP.quiet h hu.running (Quiet.useScheduler b)
  have hu := hu.useScheduler
  generalize b.set (·.useScheduler) = b at h hu hG
  dsimp only
  by_cases hc : b.currThread = 0
  · rw [if_pos hc]
    exact hP.returnNone status h hu
  rw [if_neg hc, if_neg (not_not.mpr (hu.exited_curr hc))]
  by_cases hz : b.zombies = []
  · rw [if_neg (not_not.mpr hz)]
    by_cases hlen : b.pool.length ≤ 1
    · rw [if_pos hlen]
      exact hP.returnNone status h hu
    · rw [if_neg hlen]
      have hy := hu.block hc hz hlen status
      have hq : Quiet b b.block := { Quiet.refl b with }
      refine hP.yieldFrom (hP.quiet h hu.running hq) hy (fun hp => ?_) e
      rcases hy.idle hp with ⟨-, -, hn⟩ | ⟨-, hterm⟩
      · exact absurd trivial hn
      · have halive : lwpTerminated (b.block.ctx b.block.currThread).status = false :=
          hu.inv.alive _ (hu.inv.pool_live (hu.curr hc))
        exact absurd (halive.symm.trans hterm) Bool.false_ne_true
  · rw [if_pos hz]
    obtain ⟨z, rest, hq⟩ := List.exists_cons_of_ne_nil hz
    rw [hq, List.headD_cons]
    obtain ⟨hn, -⟩ | ⟨-, hr⟩ | ⟨-, hr⟩ := waitReap_cases b e z status false hu.running
    · exact absurd (by simp [hq]) hn
    · rw [hr]
      exact hP.failed h hu.running rfl rfl
    · rw [hr]
      exact hP.reap status h hu hG hc hq

/-- **The rule**: what the operations keep, every call keeps. -/
theorem exec (hP : Kept G P) (h : P b) (hu : b.UserMode) {e : Env} {c : Call ι}
    (hfresh : ∀ t, e.thread = some t → t ≠ 0 ∧ b.used t = false)
    (hstart : c = .start → b.currThread = 0)
    (hG : ∀ status, c = .wait status → G (b.set (·.useScheduler))) : P (b.exec e c) := by
  cases c with
  | create f a => exact hP.create h hu hfresh f a
  | start => exact hP.start h hu (hstart rfl) hfresh
  | yield => exact hP.yieldFrom h hu.yielding hu.idle e
  | exit status => exact hP.terminate h hu e status
  | finish rval => exact hP.terminate h hu e rval
  | wait status => exact hP.wait h hu (hG status rfl) e status
  | setScheduler fn => exact hP.quiet h hu.running { Quiet.refl b with }

end Kept

end Csc453.Lwp.Book
