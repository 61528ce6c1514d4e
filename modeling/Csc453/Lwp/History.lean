import Csc453.Lwp.Kept

/-!
# Csc453.Lwp.History — reading the history of a run

The history says which threads are live and which are zombies (`Recorded`), and what status the
process ends with (`Ended`).
-/

namespace Csc453.Lwp

open Transition

/-- The threads created and not exited, oldest first. -/
def unexited : List Event → List Ptr
  | [] => []
  | .created t :: log => unexited log ++ [t]
  | .exited t _ _ _ :: log => (unexited log).erase t
  | _ :: log => unexited log

/-- The threads exited and not freed, oldest first. -/
def unreaped : List Event → List Ptr
  | [] => []
  | .exited t _ _ _ :: log => unreaped log ++ [t]
  | .freed t _ _ _ :: log => (unreaped log).erase t
  | _ :: log => unreaped log

/-- The argument of the last `lwp_exit`. -/
def lastExit : List Event → Option Status
  | [] => none
  | .exited _ _ status _ :: _ => some status
  | _ :: log => lastExit log

/-- How many tids were assigned. -/
def issued : List Event → ℕ
  | [] => 0
  | .assigned _ :: log => issued log + 1
  | _ :: log => issued log

/-- The last thread that woke `t`, with its tid and its argument of `lwp_exit`. -/
def wokenBy (t : Ptr) : List Event → Option (Ptr × Tid × Status)
  | [] => none
  | .exited x tid status woken :: log => if woken = t then some (x, tid, status) else wokenBy t log
  | _ :: log => wokenBy t log

/-- What `lwp_wait` stores for a thread that exited with `status`: the status modulo 256, if its
`status` argument is not `NULL`, else nothing. -/
def Stored (asked : Bool) (status : Status) (value : Option Status) : Prop :=
  value.isSome = asked ∧ ∀ v, value = some v → v.toInt = status.toInt % 256

namespace Book

variable {ι : Type} {b b' : Book ι} {t z : Ptr} {status : Status}

/-! ### What the operations write -/

theorem stored_report (h : (b.ctx z).status = mkTermStat LWP_TERM status) (asked : Bool) :
    Stored asked status (b.report z asked) := by
  unfold report
  cases asked with
  | false => exact ⟨rfl, nofun⟩
  | true =>
    refine ⟨rfl, fun v hv => ?_⟩
    rw [← Option.some.inj hv, h, lwpTermStat_mkTermStat, toInt_and_255]

theorem wake_log (b : Book ι) : b.wake.log = b.log := by
  unfold wake
  split <;> rfl

theorem handOver_log (b : Book ι) (status : Status) : (b.handOver status).log =
    .exited b.currThread (b.ctx b.currThread).tid status (b.waiting.headD 0) :: b.log := by
  have htid : ((b.retire status).wake.ctx b.currThread).tid = (b.ctx b.currThread).tid :=
    (wake_ctx _ _).2.2.trans (Core.setStatus_tid ..)
  show Event.exited _ ((b.retire status).wake.ctx b.currThread).tid _ _ ::
    (b.retire status).wake.log = _
  rw [htid, wake_log]
  rfl

theorem bury_log (b : Book ι) (z : Ptr) : (b.bury z).log =
    .freed z (b.ctx z).tid (b.ctx z).stack b.currThread ::
      if (b.ctx z).stack ≠ 0 then .unmapped z (b.ctx z).tid b.currThread :: b.log else b.log := by
  show (b.toCore.discard z).log = _
  unfold Core.discard
  dsimp only
  split_ifs <;> rfl

theorem handOver_status (b : Book ι) (status : Status) :
    ((b.handOver status).ctx t).status =
      if t = b.currThread then mkTermStat LWP_TERM status else (b.ctx t).status :=
  (wake_ctx _ _).2.1.trans (Core.setStatus_status ..)

theorem handOver_live (b : Book ι) (status : Status) :
    (b.handOver status).live = b.live.erase b.currThread := wake_live _

theorem handOver_zombies (b : Book ι) (status : Status) :
    (b.handOver status).zombies = b.zombies ++ [b.currThread] := wake_zombies _

theorem unexited_bury (b : Book ι) (z : Ptr) : unexited (b.bury z).log = unexited b.log := by
  rw [bury_log]
  split_ifs <;> rfl

theorem unreaped_bury (b : Book ι) (z : Ptr) :
    unreaped (b.bury z).log = (unreaped b.log).erase z := by
  rw [bury_log]
  split_ifs <;> rfl

theorem issued_bury (b : Book ι) (z : Ptr) : issued (b.bury z).log = issued b.log := by
  rw [bury_log]
  split_ifs <;> rfl

theorem wokenBy_bury (b : Book ι) (z : Ptr) : wokenBy t (b.bury z).log = wokenBy t b.log := by
  rw [bury_log]
  split_ifs <;> rfl

theorem lastExit_bury (b : Book ι) (z : Ptr) : lastExit (b.bury z).log = lastExit b.log := by
  rw [bury_log]
  split_ifs <;> rfl

/-- Reaping writes nothing that `J` asks something of. -/
theorem throughout_bury {J : List Event → Event → Prop} (h : Throughout J b.log) (z : Ptr)
    (hu : ∀ log tid curr, J log (.unmapped z tid curr))
    (hf : ∀ log tid stack curr, J log (.freed z tid stack curr)) : Throughout J (b.bury z).log := by
  rw [bury_log]
  split_ifs
  · exact ⟨hf .., hu .., h⟩
  · exact ⟨hf .., h⟩

theorem throughout_endProcess {J : List Event → Event → Prop} (h : Throughout J b.log)
    (hu : ∀ log z tid curr, J log (.unmapped z tid curr))
    (hf : ∀ log z tid stack curr, J log (.freed z tid stack curr)) :
    Throughout J b.endProcess.log := by
  unfold endProcess
  split_ifs
  · exact throughout_bury h _ (fun _ => hu _ _) fun _ => hf _ _
  · exact h

/-- The lists of the runnable, the waiting and the live threads are as before. -/
theorem endProcess_lists (b : Book ι) : b.endProcess.live = b.live ∧
    b.endProcess.waiting = b.waiting ∧ b.endProcess.pool = b.pool := by
  unfold endProcess
  split_ifs <;> exact ⟨rfl, rfl, rfl⟩

theorem lastExit_endProcess (b : Book ι) : lastExit b.endProcess.log = lastExit b.log := by
  unfold endProcess
  split_ifs
  · exact lastExit_bury b _
  · rfl

/-! ### The live threads and the zombies -/

/-- The live threads and the zombies are those of the history. -/
def Recorded (b : Book ι) : Prop :=
  b.exit = none → b.live = unexited b.log ∧ b.zombies = unreaped b.log

theorem Recorded.returnBuried {c : Book ι} (h : b.Recorded) (hx : b.exit = none)
    (hlog : c.log = b.log) (hlive : c.live = b.live) (hz : c.zombies = b.zombies)
    (st blocked : Bool) : (c.returnBuried z st blocked).Recorded := by
  intro _
  obtain ⟨hl, hzs⟩ := h hx
  refine ⟨?_, ?_⟩
  · show c.live = unexited (c.bury z).log
    rw [unexited_bury, hlog, hlive, hl]
  · show c.zombies.erase z = unreaped (c.bury z).log
    rw [unreaped_bury, hlog, hz, hzs]

theorem spawn_log (b : Book ι) (t : Ptr) (x : Context) :
    (b.spawn t x).log = .created t :: .assigned b.currTid :: b.log := rfl

theorem Recorded.spawn (h : b.Recorded) (hx : b.exit = none) (t : Ptr) (x : Context) :
    (b.spawn t x).Recorded := by
  intro _
  obtain ⟨hl, hz⟩ := h hx
  rw [spawn_log]
  simp only [unexited, unreaped, ← hl, ← hz]
  exact ⟨rfl, rfl⟩

theorem Recorded.handOver (h : b.Recorded) (hx : b.exit = none) (status : Status) :
    (b.handOver status).Recorded := by
  intro _
  obtain ⟨hl, hz⟩ := h hx
  rw [handOver_live, handOver_zombies, handOver_log]
  simp only [unexited, unreaped, ← hl, ← hz, and_self]

theorem recorded_kept : Kept (fun _ => True) (Recorded (ι := ι)) where
  quiet h _ hq hx := by
    rw [hq.live, hq.zombies, hq.log]
    exact h (hq.exit ▸ hx)
  failed _ _ _ hx := fun hn => by simp [hx] at hn
  issue _ h hu := fun _ => h hu.running
  spawn h hu _ _ _ _ := h.spawn hu.running _ _
  handOver status h hu _ := h.handOver hu.running status
  refuse h hu := fun _ => h hu.running
  answer h hu := fun _ => h hu.running
  returnNone _ h hu := fun _ => h hu.running
  reap st h hu _ _ _ := h.returnBuried hu.running rfl rfl rfl st false
  collect {b W} st h _ _ hx _ _ := h.returnBuried (c := b.clear) hx rfl rfl rfl st true
  stale _ h _ _ hx _ _ := fun _ => h hx
  last _ _ _ _ _ _ _ _ _ := fun hx => by cases hx

/-! ### The end of the process -/

/-- `lwp_yield` calls `exit(3)` only when no thread is left, with the status of the last one. -/
def Ended (b : Book ι) : Prop :=
  ∀ code, b.exit = some (.yielded code) →
    b.live = [] ∧ b.waiting = [] ∧ b.pool = [] ∧
      ∃ status, lastExit b.log = some status ∧ code.toInt = status.toInt % 256

theorem ended_of_running (hx : b.exit = none) : b.Ended := fun _ h => by simp [hx] at h

theorem ended_kept : Kept (fun _ => True) (Ended (ι := ι)) where
  quiet _ hx hq := ended_of_running (hq.exit.trans hx)
  failed _ _ _ hx := fun _ hn => by simp [hx] at hn
  issue _ _ hu := ended_of_running hu.running
  spawn _ hu _ _ _ _ := ended_of_running hu.running
  handOver status _ hu hc := ended_of_running (hu.handOver hc status).running
  refuse _ hu := ended_of_running hu.running
  answer _ hu := ended_of_running hu.running
  returnNone _ _ hu := ended_of_running hu.running
  reap _ _ hu _ _ _ := ended_of_running ((bury_exit _ _).trans hu.running)
  collect _ _ _ _ hx _ _ := ended_of_running ((bury_exit _ _).trans hx)
  stale _ _ _ _ hx _ _ := ended_of_running hx
  last {b b'} status hu hc hlive hq hcurr hp hw _ := by
    intro code hx
    have hcode : lwpTermStat (b'.ctx b'.currThread).status = code := by
      have : (some (Exit.yielded (lwpTermStat (b'.ctx b'.currThread).status))) =
        some (.yielded code) := hx
      simpa using this
    rw [hcurr, hq.status, handOver_status, if_pos rfl, lwpTermStat_mkTermStat] at hcode
    obtain ⟨hl, hw', hp'⟩ := endProcess_lists b'
    refine ⟨?_, hw'.trans hw, hp'.trans hp, status, ?_, ?_⟩
    · rw [hl, hq.live, handOver_live, hlive]
      simp
    · rw [lastExit_endProcess, hq.log, handOver_log]
      rfl
    · rw [← hcode, toInt_and_255]

end Book

end Csc453.Lwp
