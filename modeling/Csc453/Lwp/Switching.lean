import Csc453.Lwp.Runs
import Csc453.Lwp.RoundRobin

/-!
# Csc453.Lwp.Switching — lwp_set_scheduler from round robin to any scheduler and back

`recorded S` is the scheduler `S` with a log of the calls it gets; forgetting the log gives the run
without it (`lwpSetScheduler_mapSched`).  Of the new scheduler only `Polite` is assumed: it touches
its own state and the links of the threads admitted to it.  Result: `scheduler_switch`.
-/

namespace Csc453.Lwp

open Function LinkedQueue

/-! ### Recording the calls of a scheduler -/

/-- A call a scheduler gets that can change something. -/
inductive SchedCall
  | init
  | shutdown
  | admitThread (new : Ptr)
  | remove (victim : Ptr)
  | next
  deriving DecidableEq

variable {ι σ M N : Type}

/-- The scheduler with a log of its calls, the first one first, next to its state. -/
def recorded (S : Scheduler (Links × σ)) : Scheduler (Links × (σ × List SchedCall)) :=
  let put (c : SchedCall) (log : List SchedCall) (r : Links × σ) : Links × (σ × List SchedCall) :=
    (r.1, (r.2, log ++ [c]))
  { init := S.init.map fun f m => put .init m.2.2 (f (m.1, m.2.1))
    shutdown := S.shutdown.map fun f m => put .shutdown m.2.2 (f (m.1, m.2.1))
    admitThread := fun t m => put (.admitThread t) m.2.2 (S.admitThread t (m.1, m.2.1))
    remove := fun t m => (S.remove t (m.1, m.2.1)).map (put (.remove t) m.2.2)
    next := fun m =>
      let r := S.next (m.1, m.2.1)
      (r.1, put .next m.2.2 r.2)
    qlen := fun m => S.qlen (m.1, m.2.1) }

namespace SchedMem

/-- Empty logs for all schedulers. -/
def withLogs (m : SchedMem ι σ) : SchedMem ι (σ × List SchedCall) :=
  ⟨m.links, m.rr, fun i => (m.pool i, [])⟩

def forgetLogs (m : SchedMem ι (σ × List SchedCall)) : SchedMem ι σ :=
  ⟨m.links, m.rr, fun i => (m.pool i).1⟩

end SchedMem

/-- The same state with other memory of the schedulers. -/
def State.mapSched (f : M → N) (s : State ι M) : State ι N where
  toCore := s.toCore
  live := s.live
  waiting := s.waiting
  zombies := s.zombies
  zombieThread := s.zombieThread
  wrappers := s.wrappers
  sched := f s.sched

/-- The calls of `S'` do to `f m` what those of `S` do to `m`. -/
structure Simulates (f : M → N) (S : Scheduler M) (S' : Scheduler N) : Prop where
  init : ∀ m, f (callIfDefined S.init m) = callIfDefined S'.init (f m)
  shutdown : ∀ m, f (callIfDefined S.shutdown m) = callIfDefined S'.shutdown (f m)
  admitThread : ∀ t m, f (S.admitThread t m) = S'.admitThread t (f m)
  remove : ∀ t m, S'.remove t (f m) = (S.remove t m).map f
  next : ∀ m, S'.next (f m) = ((S.next m).1, f (S.next m).2)
  qlen : ∀ m, S'.qlen (f m) = S.qlen m

theorem Simulates.transfer {f : M → N} {old new : Scheduler M} {old' new' : Scheduler N}
    (ho : Simulates f old old') (hn : Simulates f new new') (n : ℕ) (t : Ptr) (m : M) :
    transfer old' new' n t (f m) = (transfer old new n t m).map f := by
  induction n generalizing t m with
  | zero => rfl
  | succ n ih =>
    show Option.bind _ _ = Option.map f (Option.bind _ _)
    rw [ho.remove]
    cases old.remove t m with
    | none => rfl
    | some m₁ =>
      rw [Option.map_some, Option.bind_some, Option.bind_some]
      dsimp only
      rw [← hn.admitThread, ho.next]
      exact ih _ _

/-- `lwp_set_scheduler` does not look into the memory of the schedulers. -/
theorem lwpSetScheduler_mapSched [DecidableEq ι] {f : M → N} {S : SchedulerPtr ι → Scheduler M}
    {S' : SchedulerPtr ι → Scheduler N} (hS : ∀ k, Simulates f (S k) (S' k))
    (fn : Option (SchedulerPtr ι)) (s : State ι M) :
    lwpSetScheduler S' fn (s.mapSched f) = (lwpSetScheduler S fn s).map (State.mapSched f) := by
  have hsame : (s.mapSched f).currentScheduler = s.currentScheduler := rfl
  unfold lwpSetScheduler
  generalize fn.getD .RoundRobin = new
  dsimp only
  rw [hsame]
  by_cases hcur : s.currentScheduler = some new
  · rw [if_pos hcur, if_pos hcur]
    rfl
  · rw [if_neg hcur, if_neg hcur]
    have hinit : callIfDefined (S' new).init (s.mapSched f).sched =
        f (callIfDefined (S new).init s.sched) := ((hS new).init _).symm
    rw [hinit]
    generalize callIfDefined (S new).init s.sched = m
    cases s.currentScheduler with
    | none => rfl
    | some old =>
      dsimp only
      rw [(hS old).next, (hS old).qlen, (hS old).transfer (hS new)]
      cases transfer (S old) (S new) _ _ _ with
      | none => rfl
      | some m₂ =>
        show some _ = some _
        rw [← (hS old).shutdown]
        rfl

theorem recorded_simulates [DecidableEq ι] (other : ι → Scheduler (Links × σ)) (k : SchedulerPtr ι) :
    Simulates SchedMem.forgetLogs (published (fun i => recorded (other i)) k) (published other k) := by
  cases k with
  | RoundRobin =>
    refine ⟨fun _ => rfl, fun _ => rfl, fun _ _ => rfl, fun t m => ?_, fun _ => rfl, fun _ => rfl⟩
    show (rrRemove t m.getRR).map _ = ((rrRemove t m.getRR).map _).map _
    rw [Option.map_map]
    rfl
  | other i =>
    have hset : ∀ (x : Links × (σ × List SchedCall)) (m : SchedMem ι (σ × List SchedCall)),
        SchedMem.forgetLogs (SchedMem.setPool i x m) =
          SchedMem.setPool i (x.1, x.2.1) m.forgetLogs := by
      intro x m
      unfold SchedMem.forgetLogs SchedMem.setPool
      congr 1
      funext j
      show (update m.pool i x.2 j).1 = update (fun j => (m.pool j).1) i x.2.1 j
      by_cases hj : j = i
      · rw [hj, update_self, update_self]
      · rw [update_of_ne hj, update_of_ne hj]
    refine ⟨fun m => ?_, fun m => ?_, fun t m => hset _ m, fun t m => ?_, fun m => ?_, fun _ => rfl⟩
    · show SchedMem.forgetLogs (callIfDefined (((other i).init.map _).map _) m) =
        callIfDefined ((other i).init.map _) m.forgetLogs
      cases (other i).init with
      | none => rfl
      | some f => exact hset _ m
    · show SchedMem.forgetLogs (callIfDefined (((other i).shutdown.map _).map _) m) =
        callIfDefined ((other i).shutdown.map _) m.forgetLogs
      cases (other i).shutdown with
      | none => rfl
      | some f => exact hset _ m
    · show ((other i).remove t (m.links, (m.pool i).1)).map _ =
        ((((other i).remove t (m.links, (m.pool i).1)).map _).map _).map _
      rw [Option.map_map, Option.map_map]
      congr 1
      funext x
      exact (hset (x.1, (x.2, (m.pool i).2 ++ [.remove t])) m).symm
    · let r := (other i).next (m.links, (m.pool i).1)
      exact congrArg (Prod.mk r.1) (hset (r.2.1, (r.2.2, (m.pool i).2 ++ [SchedCall.next])) m).symm

/-! ### The switch away from round robin -/

/-- The scheduler's `init` and `admit` touch its own state and the links of the threads admitted to
it.  `Adm A m`: the threads admitted since `init` are `A`; links of other threads do not matter. -/
structure Polite (S : Scheduler (Links × σ)) (Adm : List Ptr → Links × σ → Prop) : Prop where
  init : ∀ f, S.init = some f → ∀ m, Adm [] (f m) ∧ Links.Frame [] m.1 (f m).1
  admitThread : ∀ {A m t}, Adm A m → t ∉ A → t ≠ 0 →
    Adm (A ++ [t]) (S.admitThread t m) ∧ Links.Frame (A ++ [t]) m.1 (S.admitThread t m).1
  congr : ∀ {A l l' x}, Adm A (l, x) → (∀ t ∈ A, l.AgreeAt l' t) → Adm A (l', x)

theorem FifoScheduler.polite {S : Scheduler (Links × σ)} {Rep : Links × σ → List Ptr → Prop}
    (h : FifoScheduler S Rep) : Polite S fun A m => Rep m A :=
  ⟨h.init, fun hm ht h0 => h.admitThread hm ht h0, fun hm hl => h.congr hm hl⟩

theorem Polite.recorded {S : Scheduler (Links × σ)} {Adm : List Ptr → Links × σ → Prop}
    (h : Polite S Adm) : Polite (recorded S) fun A m => Adm A (m.1, m.2.1) where
  init f hf m := by
    obtain ⟨g, hg, rfl⟩ := Option.map_eq_some_iff.mp hf
    exact h.init g hg (m.1, m.2.1)
  admitThread hm ht h0 := h.admitThread hm ht h0
  congr hm hl := h.congr hm hl

/-- The threads `n` successive calls of `next` choose. -/
def choices (S : Scheduler M) : ℕ → M → List Ptr
  | 0, _ => []
  | n + 1, m => (S.next m).1 :: choices S n (S.next m).2

theorem RR.Rep.choices_append {A B : List Ptr} {m : Links × RR} (h : RR.Rep m (A ++ B)) :
    choices roundRobin A.length m = A := by
  induction A generalizing B m with
  | nil => rfl
  | cons a A ih =>
    obtain ⟨hhead, hrep, -⟩ := h.next
    rw [List.cons_append, List.rotate_cons_succ, List.rotate_zero, List.append_assoc] at hrep
    show (rrNext m).1 :: choices roundRobin A.length (rrNext m).2 = _
    rw [ih hrep, hhead]
    rfl

/-- The calls of `init` a scheduler gets before the transfer. -/
def initCalls (S : Scheduler M) : List SchedCall := if S.init.isSome then [.init] else []

section Away

variable [DecidableEq ι] {other : ι → Scheduler (Links × σ)} {i : ι} {L : List Ptr}
  {Adm : List Ptr → Links × σ → Prop}

/-- Where the transfer stands: round robin holds `L`, the new scheduler has been given `done`. -/
structure Handover (Adm : List Ptr → Links × σ → Prop) (i : ι) (calls : List SchedCall)
    (m₀ : SchedMem ι σ) (m : SchedMem ι (σ × List SchedCall)) (L done : List Ptr) : Prop where
  pool : RR.Rep m.getRR L
  given : Adm done (m.links, (m.pool i).1)
  log : (m.pool i).2 = calls ++ done.map .admitThread
  others : ∀ j, j ≠ i → m.pool j = (m₀.pool j, [])

variable {calls : List SchedCall} {m₀ : SchedMem ι σ} {m : SchedMem ι (σ × List SchedCall)}
  {done : List Ptr} {t : Ptr}

theorem Handover.remove (hpol : Polite (other i) Adm) (h : Handover Adm i calls m₀ m (L ++ [t]) done)
    (hnd : (done ++ t :: L).Nodup) :
    ∃ m', (published (fun j => recorded (other j)) .RoundRobin).remove t m = some m' ∧
      Handover Adm i calls m₀ m' L done := by
  obtain ⟨x, hx, hrep, hframe⟩ := h.pool.remove (by simp : t ∈ L ++ [t])
  have htL : t ∉ L := fun hm => (nodup_cut hnd).2 (List.mem_append_right _ hm)
  rw [List.erase_append_right _ htL, List.erase_cons_head, List.append_nil] at hrep
  refine ⟨SchedMem.setRR x m, ?_, hrep, hpol.congr h.given fun u hu => hframe u fun hm => ?_, h.log,
    h.others⟩
  · show (rrRemove t m.getRR).map _ = _
    rw [hx]
    rfl
  · exact (List.nodup_append.mp hnd).2.2 u hu u (by simpa [or_comm] using hm) rfl

theorem Handover.add (hpol : Polite (other i) Adm) (h : Handover Adm i calls m₀ m L done)
    (hnd : (done ++ t :: L).Nodup) (h0 : t ≠ 0) :
    Handover Adm i calls m₀
      ((published (fun j => recorded (other j)) (.other i)).admitThread t m) L (done ++ [t]) := by
  have htd : t ∉ done := fun hm => (nodup_cut hnd).2 (List.mem_append_left _ hm)
  obtain ⟨hadm, hframe⟩ := hpol.admitThread h.given htd h0
  have hpool : ∀ (x : Links × (σ × List SchedCall)), (SchedMem.setPool i x m).pool i = x.2 :=
    fun x => update_self ..
  refine ⟨h.pool.congr fun u hu => hframe u fun hm => ?_, ?_, ?_, fun j hj => ?_⟩
  · rcases List.mem_append.mp hm with hm | hm
    · exact (List.nodup_append.mp hnd).2.2 u hm u (List.mem_cons_of_mem _ hu) rfl
    · rw [List.mem_singleton.mp hm] at hu
      exact (nodup_cut hnd).2 (List.mem_append_right _ hu)
  · show Adm (done ++ [t]) (_, ((SchedMem.setPool i _ m).pool i).1)
    rw [hpool]
    exact hadm
  · show ((SchedMem.setPool i _ m).pool i).2 = _
    rw [hpool, List.map_append, ← List.append_assoc, ← h.log]
    rfl
  · exact (update_of_ne hj ..).trans (h.others j hj)

theorem Handover.next (hpol : Polite (other i) Adm) (h : Handover Adm i calls m₀ m L done)
    (hnd : (done ++ L).Nodup) :
    ((published (fun j => recorded (other j)) .RoundRobin).next m).1 = L.headD 0 ∧
      Handover Adm i calls m₀ ((published (fun j => recorded (other j)) .RoundRobin).next m).2
        (L.rotate 1) done := by
  obtain ⟨hhead, hrep, hframe⟩ := h.pool.next
  refine ⟨hhead, hrep, hpol.congr h.given fun u hu => hframe u fun hm => ?_, h.log, h.others⟩
  exact (List.nodup_append.mp hnd).2.2 u hu u hm rfl

/-- The new scheduler is initialised before the first thread is taken from the old one. -/
theorem handover_init (hpol : Polite (other i) Adm) (hpool : RR.Rep m₀.getRR L)
    (hidle : (other i).init = none → Adm [] (m₀.getPool i)) :
    Handover Adm i (initCalls (other i)) m₀
      (callIfDefined (published (fun j => recorded (other j)) (.other i)).init m₀.withLogs) L [] := by
  show Handover Adm i _ m₀ (callIfDefined (((other i).init.map _).map _) m₀.withLogs) L []
  unfold initCalls
  cases hi : (other i).init with
  | none => exact ⟨hpool, hidle hi, rfl, fun _ _ => rfl⟩
  | some f =>
    obtain ⟨hadm, hframe⟩ := hpol.init f hi (m₀.links, m₀.pool i)
    have hself : ∀ (x : Links × (σ × List SchedCall)),
        (SchedMem.setPool i x m₀.withLogs).pool i = x.2 := fun x => update_self ..
    refine ⟨hpool.congr fun u _ => hframe u List.not_mem_nil, ?_, ?_, fun j hj => update_of_ne hj ..⟩
    · show Adm [] (_, ((SchedMem.setPool i _ m₀.withLogs).pool i).1)
      rw [hself]
      exact hadm
    · show ((SchedMem.setPool i _ m₀.withLogs).pool i).2 = _
      rw [hself]
      rfl

/-- The whole switch: the pool is drained in order, and the log has one `admit` a thread. -/
theorem switch_away {s : State ι (SchedMem ι σ)} (hpol : Polite (other i) Adm)
    (hcur : s.currentScheduler = some .RoundRobin) (hpool : RR.Rep s.sched.getRR L)
    (hidle : (other i).init = none → Adm [] (s.sched.getPool i)) :
    ∃ m, lwpSetScheduler (published fun j => recorded (other j)) (some (.other i))
        (s.mapSched SchedMem.withLogs) =
        some ((s.mapSched fun _ => m).set (·.setScheduler (.other i))) ∧
      Handover Adm i (initCalls (other i)) s.sched m [] L := by
  have h₀ := handover_init hpol hpool hidle
  have hnd : ([] ++ L).Nodup := hpool.nodup
  obtain ⟨hhead, h₁⟩ := h₀.next hpol hnd
  obtain ⟨m₂, htr, h₂⟩ := transfer_spec (R := Handover Adm i (initCalls (other i)) s.sched)
    (fun h hd => h.remove hpol hd) (fun h hd ht => h.add hpol hd ht) (fun h hd => h.next hpol hd)
    h₁ hnd hpool.null_notMem
  have hlen : (published (fun j => recorded (other j)) .RoundRobin).qlen _ = _ := h₁.pool.count
  rw [List.length_rotate] at hlen
  refine ⟨SchedMem.setRR (rrShutdown m₂.getRR) m₂, ?_, .init m₂.getRR, h₂.given, h₂.log, h₂.others⟩
  unfold lwpSetScheduler
  have hsame : (s.mapSched SchedMem.withLogs).currentScheduler = some .RoundRobin := hcur
  have hne : ¬ some (SchedulerPtr.RoundRobin (ι := ι)) = some (.other i) := by simp
  rw [hsame]
  dsimp only [Option.getD_some]
  rw [if_neg hne]
  rw [show (s.mapSched SchedMem.withLogs).sched = s.sched.withLogs from rfl, hhead, hlen,
    Int.toNat_natCast, htr]
  rfl

end Away

/-! ### The switch back -/

section Back

variable [DecidableEq ι] {other : ι → Scheduler (Links × σ)} {i : ι} {L done : List Ptr} {t : Ptr}
  {Rep : Links × σ → List Ptr → Prop} {m m' : SchedMem ι σ}

/-- The pool `i` holds `L`, round robin has been given `done`. -/
def Returning (Rep : Links × σ → List Ptr → Prop) (i : ι) (m : SchedMem ι σ) (L done : List Ptr) :
    Prop := Rep (m.getPool i) L ∧ RR.Rep m.getRR done

omit [DecidableEq ι] in
/-- Round robin does not notice a change of links of other threads. -/
theorem rr_frame (h : RR.Rep m.getRR done) (hf : PoolFrame (.other i) L m m')
    (hd : ∀ u ∈ done, u ∉ L) : RR.Rep m'.getRR done := by
  have := RR.Rep.congr h fun u hu => hf.1 u (hd u hu)
  rw [← hf.2.1] at this
  exact this

theorem Returning.remove (hf : FifoScheduler (other i) Rep) (h : Returning Rep i m (L ++ [t]) done)
    (hnd : (done ++ t :: L).Nodup) :
    ∃ m', (published other (.other i)).remove t m = some m' ∧ Returning Rep i m' L done := by
  obtain ⟨m', hm', hrep, hframe⟩ := (other_fifo hf).remove h.1 (by simp : t ∈ L ++ [t])
  have htL : t ∉ L := fun hm => (nodup_cut hnd).2 (List.mem_append_right _ hm)
  rw [List.erase_append_right _ htL, List.erase_cons_head, List.append_nil] at hrep
  refine ⟨m', hm', hrep, rr_frame h.2 hframe fun u hu hm => ?_⟩
  exact (List.nodup_append.mp hnd).2.2 u hu u (by simpa [or_comm] using hm) rfl

theorem Returning.add (hf : FifoScheduler (other i) Rep) (h : Returning Rep i m L done)
    (hnd : (done ++ t :: L).Nodup) (h0 : t ≠ 0) :
    Returning Rep i ((published other .RoundRobin).admitThread t m) L (done ++ [t]) := by
  have htd : t ∉ done := fun hm => (nodup_cut hnd).2 (List.mem_append_left _ hm)
  obtain ⟨hrep, hframe⟩ := h.2.rrAdmit_append htd h0
  refine ⟨hf.congr h.1 fun u hu => hframe u fun hm => ?_, hrep⟩
  rcases List.mem_append.mp hm with hm | hm
  · exact (List.nodup_append.mp hnd).2.2 u hm u (List.mem_cons_of_mem _ hu) rfl
  · rw [List.mem_singleton.mp hm] at hu
    exact (nodup_cut hnd).2 (List.mem_append_right _ hu)

theorem Returning.next (hf : FifoScheduler (other i) Rep) (h : Returning Rep i m L done)
    (hnd : (done ++ L).Nodup) : ((published other (.other i)).next m).1 = L.headD 0 ∧
      Returning Rep i ((published other (.other i)).next m).2 (L.rotate 1) done := by
  obtain ⟨hhead, hrep, hframe⟩ := (other_fifo hf).next h.1
  refine ⟨hhead, hrep, rr_frame h.2 hframe fun u hu hm => ?_⟩
  exact (List.nodup_append.mp hnd).2.2 u hu u hm rfl

theorem switch_back {s : State ι (SchedMem ι σ)} (hf : FifoScheduler (other i) Rep)
    (hcur : s.currentScheduler = some (.other i)) (hpool : Rep (s.sched.getPool i) L)
    (hnd : L.Nodup) (h0 : 0 ∉ L) {back : Option (SchedulerPtr ι)}
    (hback : back.getD .RoundRobin = .RoundRobin) :
    ∃ m, lwpSetScheduler (published other) back s =
        some ((s.mapSched fun _ => m).set (·.setScheduler .RoundRobin)) ∧ RR.Rep m.getRR L := by
  have h₀ : Returning Rep i (callIfDefined (published other .RoundRobin).init s.sched) L [] :=
    ⟨hpool, .init s.sched.getRR⟩
  have hnd : ([] ++ L).Nodup := hnd
  obtain ⟨hhead, h₁⟩ := h₀.next hf hnd
  obtain ⟨m₂, htr, h₂⟩ := transfer_spec (R := Returning Rep i) (fun h hd => h.remove hf hd)
    (fun h hd ht => h.add hf hd ht) (fun h hd => h.next hf hd) h₁ hnd h0
  have hlen := (other_fifo hf).qlen h₁.1
  rw [List.length_rotate] at hlen
  have hdown : RR.Rep (callIfDefined (published other (.other i)).shutdown m₂).getRR ([] ++ L) := by
    cases hd : (published other (.other i)).shutdown with
    | none => exact h₂.2
    | some f => exact rr_frame h₂.2 ((other_fifo hf).shutdown f hd m₂ h₂.1).2 fun _ _ => List.not_mem_nil
  refine ⟨callIfDefined (published other (.other i)).shutdown m₂, ?_, hdown⟩
  unfold lwpSetScheduler
  have hne : ¬ some (SchedulerPtr.other i) = some .RoundRobin := by simp
  rw [hback, hcur]
  dsimp only
  rw [if_neg hne, hhead, hlen, Int.toNat_natCast, htr]
  rfl

end Back

/-! ### The switch -/

/-- **Switching schedulers loses and duplicates no thread.**  From round robin with the pool `L`: the
new scheduler gets its `init` and then each thread of `L` once, in the order round robin would have
chosen them; the old pool ends up empty, and of the state only the schedulers' memory and the
current scheduler change.  Back from a FIFO pool, round robin has its pool again. -/
theorem scheduler_switch [DecidableEq ι] {other : ι → Scheduler (Links × σ)} {i : ι}
    {Adm : List Ptr → Links × σ → Prop} {s : State ι (SchedMem ι σ)} {L : List Ptr}
    (hpol : Polite (other i) Adm) (hcur : s.currentScheduler = some .RoundRobin)
    (hpool : RR.Rep s.sched.getRR L) (hidle : (other i).init = none → Adm [] (s.sched.getPool i)) :
    ∃ m : SchedMem ι (σ × List SchedCall),
      lwpSetScheduler (published fun j => recorded (other j)) (some (.other i))
          (s.mapSched SchedMem.withLogs) =
        some ((s.mapSched fun _ => m).set (·.setScheduler (.other i))) ∧
      lwpSetScheduler (published other) (some (.other i)) s =
        some ((s.mapSched fun _ => m.forgetLogs).set (·.setScheduler (.other i))) ∧
      (m.pool i).2 =
        initCalls (other i) ++ (choices roundRobin L.length s.sched.getRR).map .admitThread ∧
      (∀ j, j ≠ i → (m.pool j).2 = []) ∧
      choices roundRobin L.length s.sched.getRR = L ∧ L.Nodup ∧
      RR.Rep m.forgetLogs.getRR [] ∧
      ∀ Rep, FifoScheduler (other i) Rep → ((other i).init = none → Rep (s.sched.getPool i) []) →
        ∀ back : Option (SchedulerPtr ι), back.getD .RoundRobin = .RoundRobin →
        ∃ m', lwpSetScheduler (published other) back
            ((s.mapSched fun _ => m.forgetLogs).set (·.setScheduler (.other i))) =
            some ((s.mapSched fun _ => m').set (·.setScheduler .RoundRobin)) ∧
          RR.Rep m'.getRR L := by
  obtain ⟨m, hrun, hm⟩ := switch_away hpol hcur hpool hidle
  have hplain : lwpSetScheduler (published other) (some (.other i)) s =
      some ((s.mapSched fun _ => m.forgetLogs).set (·.setScheduler (.other i))) := by
    have := lwpSetScheduler_mapSched (recorded_simulates other) (some (.other i))
      (s.mapSched SchedMem.withLogs)
    rw [hrun] at this
    exact this
  have hL : choices roundRobin L.length s.sched.getRR = L := by
    have hpool' : RR.Rep s.sched.getRR (L ++ []) := by
      rw [List.append_nil]
      exact hpool
    exact hpool'.choices_append
  refine ⟨m, hrun, hplain, by rw [hL, hm.log], fun j hj => by rw [hm.others j hj], hL, hpool.nodup,
    hm.pool, fun Rep hf hempty back hback => ?_⟩
  -- a FIFO pool is polite, and its run is the one above
  obtain ⟨m₁, hrun₁, hm₁⟩ := switch_away hf.polite hcur hpool hempty
  obtain rfl : m₁ = m := by
    rw [hrun] at hrun₁
    exact (congrArg State.sched (Option.some.inj hrun₁)).symm
  exact switch_back (s := (s.mapSched fun _ => m₁.forgetLogs).set (·.setScheduler (.other i))) hf rfl
    hm₁.given hpool.nodup hpool.null_notMem hback

/-- Two threads under round robin; the other scheduler is a second round robin. -/
def twoReady : State Unit (SchedMem Unit RR) :=
  let m := rrAdmit 32 (rrAdmit 16 (rrInit (⟨fun _ => 0, fun _ => 0⟩, ⟨0, 0, 0⟩)))
  (State.zeroed ⟨m.1, m.2, fun _ => ⟨0, 0, 0⟩⟩).set (·.setScheduler .RoundRobin)

theorem scheduler_switch_two : ∃ m : SchedMem Unit (RR × List SchedCall),
    lwpSetScheduler (published fun _ => recorded roundRobin) (some (.other ()))
        (twoReady.mapSched SchedMem.withLogs) =
      some ((twoReady.mapSched fun _ => m).set (·.setScheduler (.other ()))) ∧
    (m.pool ()).2 = [.init, .admitThread 16, .admitThread 32] := by
  have hpool : RR.Rep twoReady.sched.getRR [16, 32] :=
    ((((RR.Rep.init _).rrAdmit_append (t := 16) (by simp) (by decide)).1).rrAdmit_append (t := 32)
      (by decide) (by decide)).1
  obtain ⟨m, hrun, -, hlog, -, hL, -⟩ :=
    @scheduler_switch Unit RR _ (fun _ => roundRobin) () _ _ _ roundRobin_fifo.polite rfl hpool nofun
  rw [hL] at hlog
  exact ⟨m, hrun, hlog⟩

end Csc453.Lwp
