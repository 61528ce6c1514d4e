import Csc453.Lib.LinkedQueue

/-!
# Csc453.Lwp.Scheduler — the scheduler interface and round robin (Asgn2/scheduler.c)

A `Scheduler` is `struct scheduler` of lwp.h: operations on the two link fields every thread lends
to schedulers (`Links`: `sched_one`, `sched_two`) and on private state.  `RoundRobin` is scheduler.c.
`FifoPool` says what a scheduler has to do to be a FIFO pool, with the threads it may touch; round
robin is one (`roundRobin_fifo`).
-/

namespace Csc453.Lwp

open Function LinkedQueue

/-- A machine word; as a pointer, `0` is `NULL`. -/
abbrev Word := BitVec 64

/-- The address of a thread's context. -/
abbrev Ptr := Word

/-- The fields `sched_prev` and `sched_next` of the threads. -/
structure Links where
  prev : Ptr → Ptr
  next : Ptr → Ptr

namespace Links

def setPrev (l : Links) (t v : Ptr) : Links := { l with prev := update l.prev t v }

def setNext (l : Links) (t v : Ptr) : Links := { l with next := update l.next t v }

@[simp] theorem setPrev_prev (l : Links) (t v : Ptr) : (l.setPrev t v).prev = update l.prev t v :=
  rfl

@[simp] theorem setPrev_next (l : Links) (t v : Ptr) : (l.setPrev t v).next = l.next := rfl

@[simp] theorem setNext_prev (l : Links) (t v : Ptr) : (l.setNext t v).prev = l.prev := rfl

@[simp] theorem setNext_next (l : Links) (t v : Ptr) : (l.setNext t v).next = update l.next t v :=
  rfl

/-- The two link maps agree at `t`. -/
def AgreeAt (l l' : Links) (t : Ptr) : Prop := l'.prev t = l.prev t ∧ l'.next t = l.next t

/-- Only links of the threads `L` differ. -/
def Frame (L : List Ptr) (l l' : Links) : Prop := ∀ t, t ∉ L → l.AgreeAt l' t

variable {l l' l'' : Links} {L : List Ptr} {t : Ptr}

theorem Frame.refl (L : List Ptr) (l : Links) : Frame L l l := fun _ _ => ⟨rfl, rfl⟩

theorem Frame.setPrev (h : Frame L l l') (ht : t ∈ L) (v : Ptr) : Frame L l (l'.setPrev t v) := by
  intro s hs
  have hne : s ≠ t := fun he => hs (he ▸ ht)
  exact ⟨(update_of_ne hne ..).trans (h s hs).1, (h s hs).2⟩

theorem Frame.setNext (h : Frame L l l') (ht : t ∈ L) (v : Ptr) : Frame L l (l'.setNext t v) := by
  intro s hs
  have hne : s ≠ t := fun he => hs (he ▸ ht)
  exact ⟨(h s hs).1, (update_of_ne hne ..).trans (h s hs).2⟩

end Links

/-- `struct scheduler`: the operations work on the links and on the private state. -/
structure Scheduler (M : Type*) where
  init : Option (M → M)
  shutdown : Option (M → M)
  admitThread : Ptr → M → M
  remove : Ptr → M → Option M
  next : M → Ptr × M
  qlen : M → ℤ

/-! ### Round robin -/

/-- The loops over thread lists may visit every address once. -/
def addresses : ℕ := 2 ^ 64

/-- The static variables of scheduler.c.  The count is a C `int`, whose overflow is undefined. -/
structure RR where
  schedulerThreadCount : ℤ
  schedHead : Ptr
  schedTail : Ptr

def rrInit (m : Links × RR) : Links × RR := (m.1, ⟨0, 0, 0⟩)

def rrShutdown (m : Links × RR) : Links × RR := (m.1, ⟨0, 0, 0⟩)

def rrAdmit (new : Ptr) (m : Links × RR) : Links × RR :=
  if new = 0 then m
  else
    let l := m.1
    let r := m.2
    if r.schedHead = 0 then
      ((l.setPrev new 0).setNext new 0, ⟨r.schedulerThreadCount + 1, new, new⟩)
    else
      (((l.setNext r.schedTail new).setPrev new r.schedTail).setNext new 0,
        ⟨r.schedulerThreadCount + 1, r.schedHead, new⟩)

def rrRemove (victim : Ptr) (m : Links × RR) : Option (Links × RR) :=
  let l := m.1
  let r := m.2
  if victim = 0 then some m
  else
    match walk 0 l.next (· = victim) addresses 0 r.schedHead with
    | none => none
    | some (_, found) =>
      if found = 0 then some m
      else
        let prevThread := l.prev victim
        let nextThread := l.next victim
        let m' : Links × RR :=
          if victim = r.schedHead ∧ victim = r.schedTail then
            (l, { r with schedHead := 0, schedTail := 0 })
          else if victim = r.schedHead then
            (l.setPrev nextThread 0, { r with schedHead := nextThread })
          else if victim = r.schedTail then
            (l.setNext prevThread 0, { r with schedTail := prevThread })
          else ((l.setNext prevThread nextThread).setPrev nextThread prevThread, r)
        some ((m'.1.setPrev victim 0).setNext victim 0,
          { m'.2 with schedulerThreadCount := r.schedulerThreadCount - 1 })

def rrNext (m : Links × RR) : Ptr × (Links × RR) :=
  let l := m.1
  let r := m.2
  if r.schedHead = 0 then (0, m)
  else if r.schedHead = r.schedTail then (r.schedHead, m)
  else
    let nextThread := l.next r.schedHead
    let l' := (((l.setNext r.schedTail r.schedHead).setPrev r.schedHead r.schedTail).setNext
      r.schedHead 0).setPrev nextThread 0
    (r.schedHead, (l', { r with schedHead := nextThread, schedTail := r.schedHead }))

def rrQlen (m : Links × RR) : ℤ := m.2.schedulerThreadCount

def roundRobin : Scheduler (Links × RR) where
  init := some rrInit
  shutdown := some rrShutdown
  admitThread := rrAdmit
  remove := rrRemove
  next := rrNext
  qlen := rrQlen

/-! ### FIFO pools -/

/-- The scheduler is a FIFO pool: `Rep` says which list its memory represents, `admit` appends,
`remove` erases, `next` returns the first thread and puts it last.  `Frame L` relates memories that
differ in the scheduler's own state and in the links of the threads `L` only. -/
structure FifoPool {M : Type*} (S : Scheduler M) (Rep : M → List Ptr → Prop)
    (Frame : List Ptr → M → M → Prop) : Prop where
  init : ∀ f, S.init = some f → ∀ m, Rep (f m) [] ∧ Frame [] m (f m)
  shutdown : ∀ f, S.shutdown = some f → ∀ m, Rep m [] → Rep (f m) [] ∧ Frame [] m (f m)
  admitThread : ∀ {m L t}, Rep m L → t ∉ L → t ≠ 0 →
    Rep (S.admitThread t m) (L ++ [t]) ∧ Frame (L ++ [t]) m (S.admitThread t m)
  remove : ∀ {m L t}, Rep m L → t ∈ L →
    ∃ m', S.remove t m = some m' ∧ Rep m' (L.erase t) ∧ Frame L m m'
  next : ∀ {m L}, Rep m L →
    (S.next m).1 = L.headD 0 ∧ Rep (S.next m).2 (L.rotate 1) ∧ Frame L m (S.next m).2
  qlen : ∀ {m L}, Rep m L → S.qlen m = L.length

/-- A FIFO pool over the links and private state of its own; what it represents depends on the
links of the threads in the pool only. -/
structure FifoScheduler {σ : Type*} (S : Scheduler (Links × σ))
    (Rep : Links × σ → List Ptr → Prop) : Prop
    extends FifoPool S Rep fun L m m' => Links.Frame L m.1 m'.1 where
  congr : ∀ {l l' x L}, Rep (l, x) L → (∀ t ∈ L, l.AgreeAt l' t) → Rep (l', x) L

/-- The round-robin queue represents the list `L`: read forwards from the head, read backwards from
the tail, and counted. -/
structure RR.Rep (m : Links × RR) (L : List Ptr) : Prop where
  fwd : Seg 0 m.1.next m.2.schedHead L 0
  bwd : Seg 0 m.1.prev m.2.schedTail L.reverse 0
  nodup : L.Nodup
  count : m.2.schedulerThreadCount = L.length

/-- Distinct addresses other than `NULL` are fewer than all addresses. -/
theorem length_lt_addresses {L : List Ptr} (h : L.Nodup) (h0 : 0 ∉ L) : L.length < addresses := by
  have hnd : ((0 :: L).map BitVec.toFin).Nodup :=
    (List.nodup_cons.mpr ⟨h0, h⟩).map fun _ _ => BitVec.eq_of_toFin_eq
  have := hnd.length_le_card
  rw [Fintype.card_fin, List.length_map, List.length_cons] at this
  exact this

namespace RR.Rep

variable {m : Links × RR} {A B L : List Ptr} {t : Ptr}

theorem null_notMem (h : RR.Rep m L) : 0 ∉ L := h.fwd.null_notMem

theorem head_eq (h : RR.Rep m L) : m.2.schedHead = L.headD 0 := h.fwd.head_eq

theorem tail_eq (h : RR.Rep m L) : m.2.schedTail = L.getLastD 0 := by
  rw [h.bwd.head_eq]
  rcases List.eq_nil_or_concat' L with rfl | ⟨A, a, rfl⟩
  · rfl
  · simp

theorem init (m : Links × RR) : RR.Rep (rrInit m) [] := ⟨rfl, rfl, List.nodup_nil, rfl⟩

theorem congr {l l' : Links} {x : RR} (h : RR.Rep (l, x) L) (hl : ∀ t ∈ L, l.AgreeAt l' t) :
    RR.Rep (l', x) L where
  fwd := h.fwd.congr fun t ht => (hl t ht).2
  bwd := h.bwd.congr fun t ht => (hl t (List.mem_reverse.mp ht)).1
  nodup := h.nodup
  count := h.count

theorem nodup_concat (h : L.Nodup) (ht : t ∉ L) : (L ++ [t]).Nodup := by
  simpa using (List.nodup_concat L t).mpr ⟨ht, h⟩

/-- `rr_admit` appends. -/
theorem rrAdmit_append (h : RR.Rep m L) (ht : t ∉ L) (h0 : t ≠ 0) :
    RR.Rep (rrAdmit t m) (L ++ [t]) ∧ Links.Frame (L ++ [t]) m.1 (rrAdmit t m).1 := by
  have hnd := nodup_concat h.nodup ht
  have hmem : t ∈ L ++ [t] := by simp
  have hcount : m.2.schedulerThreadCount + 1 = ((L ++ [t]).length : ℤ) := by
    rw [h.count, List.length_append, List.length_singleton]
    omega
  unfold rrAdmit
  rw [if_neg h0]
  dsimp only
  have hbwd : ∀ p, m.1.prev = p → m.2.schedTail = L.getLastD 0 →
      Seg 0 (update p t (L.getLastD 0)) t (L ++ [t]).reverse 0 := by
    rintro p rfl htail
    rw [List.reverse_append, List.reverse_singleton, List.singleton_append]
    refine ⟨rfl, h0, ?_⟩
    rw [update_self, ← htail]
    exact h.bwd.update_out (by simpa using ht)
  rcases List.eq_nil_or_concat' L with rfl | ⟨A, a, rfl⟩
  · have hhead : m.2.schedHead = 0 := h.head_eq
    rw [if_pos hhead]
    refine ⟨⟨⟨rfl, h0, update_self ..⟩, hbwd _ rfl h.tail_eq, hnd, hcount⟩, ?_⟩
    exact ((Links.Frame.refl _ _).setPrev hmem _).setNext hmem _
  · have hhead : m.2.schedHead ≠ 0 := by
      rw [h.head_eq]
      refine h.fwd.ne_null ?_
      cases A <;> simp
    rw [if_neg hhead]
    have htail : m.2.schedTail = a := by rw [h.tail_eq, List.getLastD_concat]
    refine ⟨⟨?_, ?_, hnd, hcount⟩, ?_⟩
    · simp only [Links.setNext_next, Links.setPrev_next, htail]
      exact h.fwd.snoc (fun hm => (nodup_cut h.nodup).2 (List.mem_append_left _ hm)) ht h0
    · have := hbwd _ rfl h.tail_eq
      rw [← h.tail_eq] at this
      exact this
    · have ha : m.2.schedTail ∈ A ++ [a] ++ [t] := by simp [htail]
      exact (((Links.Frame.refl _ _).setNext ha _).setPrev hmem _).setNext hmem _

/-- The links of a thread in the queue are its neighbours. -/
theorem neighbours (h : RR.Rep m (A ++ t :: B)) :
    m.1.prev t = A.getLastD 0 ∧ m.1.next t = B.headD 0 := by
  have hrev : (A ++ t :: B).reverse = B.reverse ++ t :: A.reverse := by simp
  have hb := h.bwd
  rw [hrev] at hb
  refine ⟨?_, h.fwd.cut.2.2.head_eq⟩
  rw [hb.cut.2.2.head_eq]
  rcases List.eq_nil_or_concat' A with rfl | ⟨A, a, rfl⟩
  · rfl
  · simp

/-- `rr_remove` of a thread that is not in the queue does nothing. -/
theorem remove_absent (h : RR.Rep m L) (ht : t ∉ L) : rrRemove t m = some m := by
  unfold rrRemove
  by_cases h0 : t = 0
  · exact if_pos h0
  · obtain ⟨q, hw⟩ := walk_absent (p := (· = t)) 0 h.fwd
      (fun y hy => by simpa using fun he : y = t => ht (he ▸ hy))
      (length_lt_addresses h.nodup h.null_notMem)
    dsimp only
    rw [if_neg h0, hw]
    exact if_pos rfl

/-- `rr_remove` unlinks a thread of the queue and clears its links. -/
theorem remove_present (h : RR.Rep m (A ++ t :: B)) :
    ∃ m', rrRemove t m = some m' ∧ RR.Rep m' (A ++ B) ∧
      Links.Frame (A ++ t :: B) m.1 m'.1 ∧ m'.1.prev t = 0 ∧ m'.1.next t = 0 := by
  obtain ⟨-, h0, hB⟩ := h.fwd.cut
  obtain ⟨hnd, hout⟩ := nodup_cut h.nodup
  have htA : t ∉ A := fun hm => hout (List.mem_append_left _ hm)
  have htB : t ∉ B := fun hm => hout (List.mem_append_right _ hm)
  have hlen := length_lt_addresses h.nodup h.null_notMem
  rw [List.length_append] at hlen
  have hw := walk_present (p := (· = t)) (k := addresses) 0 h.fwd
    (fun y hy => by simpa using fun he : y = t => htA (he ▸ hy)) (by simp) (by omega)
  have hhead : t = m.2.schedHead ↔ A = [] := by rw [h.head_eq, eq_comm, headD_eq_iff htA]
  have htail : t = m.2.schedTail ↔ B = [] := by rw [h.tail_eq, eq_comm, getLastD_eq_iff htB]
  obtain ⟨hprev, hnext⟩ := h.neighbours
  have hrev : (A ++ t :: B).reverse = B.reverse ++ t :: A.reverse := by simp
  have hbwd := h.bwd
  rw [hrev] at hbwd
  obtain ⟨-, -, hA⟩ := hbwd.cut
  have hrnd : (B.reverse ++ A.reverse).Nodup := by
    rw [← List.reverse_append]
    exact List.nodup_reverse.mpr hnd
  have hrout : t ∉ (A ++ B).reverse := by
    rw [List.mem_reverse]
    exact hout
  have hBlast : B.reverse.getLastD 0 = m.1.next t := by
    rw [hnext]
    cases B <;> simp
  have hcount : m.2.schedulerThreadCount - 1 = ((A ++ B).length : ℤ) := by
    rw [h.count, List.length_append, List.length_append, List.length_cons]
    omega
  -- both directions, as the predecessor is a thread of the queue or not
  have hfwd : A ≠ [] → Seg 0 (update (update m.1.next (m.1.prev t) (m.1.next t)) t 0)
      m.2.schedHead (A ++ B) 0 := by
    intro hA0
    rw [hprev]
    exact (h.fwd.unlink hnd hA0).update_out hout
  have hbwd : B ≠ [] → Seg 0 (update (update m.1.prev (m.1.next t) (m.1.prev t)) t 0)
      m.2.schedTail (A ++ B).reverse 0 := by
    intro hB0
    rw [← hBlast, List.reverse_append]
    rw [List.reverse_append] at hrout
    exact (hbwd.unlink hrnd (by simpa using hB0)).update_out hrout
  have hmem : t ∈ A ++ t :: B := by simp
  have hpmem : A ≠ [] → m.1.prev t ∈ A ++ t :: B := by
    intro hA0
    obtain ⟨A, a, rfl⟩ := (List.eq_nil_or_concat' A).resolve_left hA0
    simp [hprev]
  have hnmem : B ≠ [] → m.1.next t ∈ A ++ t :: B := by
    intro hB0
    obtain ⟨b, B, rfl⟩ := List.exists_cons_of_ne_nil hB0
    simp [hnext]
  have hclear : ∀ {l : Links}, Links.Frame (A ++ t :: B) m.1 l →
      Links.Frame (A ++ t :: B) m.1 ((l.setPrev t 0).setNext t 0) :=
    fun hl => (hl.setPrev hmem 0).setNext hmem 0
  unfold rrRemove
  dsimp only
  rw [if_neg h0, hw]
  dsimp only
  rw [if_neg h0]
  refine ⟨_, rfl, ?_⟩
  by_cases hA0 : A = [] <;> by_cases hB0 : B = []
  · rw [if_pos ⟨hhead.mpr hA0, htail.mpr hB0⟩]
    subst hA0 hB0
    exact ⟨⟨rfl, rfl, hnd, hcount⟩, hclear (.refl _ _), update_self .., update_self ..⟩
  · rw [if_neg fun h => hB0 (htail.mp h.2), if_pos (hhead.mpr hA0)]
    have hp0 : m.1.prev t = 0 := by rw [hprev, hA0]; rfl
    rw [hp0] at hbwd
    refine ⟨⟨?_, hbwd hB0, hnd, hcount⟩, hclear ((Links.Frame.refl _ _).setPrev (hnmem hB0) 0),
      update_self .., update_self ..⟩
    subst hA0
    exact hB.update_out htB
  · rw [if_neg fun h => hA0 (hhead.mp h.1), if_neg (mt hhead.mp hA0), if_pos (htail.mpr hB0)]
    have hn0 : m.1.next t = 0 := by rw [hnext, hB0]; rfl
    rw [hn0] at hfwd
    refine ⟨⟨hfwd hA0, ?_, hnd, hcount⟩, hclear ((Links.Frame.refl _ _).setNext (hpmem hA0) 0),
      update_self .., update_self ..⟩
    subst hB0
    rw [List.append_nil]
    exact hA.update_out (by simpa using htA)
  · rw [if_neg fun h => hA0 (hhead.mp h.1), if_neg (mt hhead.mp hA0), if_neg (mt htail.mp hB0)]
    exact ⟨⟨hfwd hA0, hbwd hB0, hnd, hcount⟩,
      hclear (((Links.Frame.refl _ _).setNext (hpmem hA0) _).setPrev (hnmem hB0) _),
      update_self .., update_self ..⟩

/-- `rr_remove` erases. -/
theorem remove (h : RR.Rep m L) (ht : t ∈ L) :
    ∃ m', rrRemove t m = some m' ∧ RR.Rep m' (L.erase t) ∧ Links.Frame L m.1 m'.1 := by
  obtain ⟨A, B, rfl⟩ := List.append_of_mem ht
  obtain ⟨m', hm, hrep, hframe, -⟩ := h.remove_present
  have hA : t ∉ A := fun hm => (nodup_cut h.nodup).2 (List.mem_append_left _ hm)
  rw [List.erase_append_right _ hA, List.erase_cons_head]
  exact ⟨m', hm, hrep, hframe⟩

/-- `rr_next` returns the first thread and puts it last. -/
theorem next (h : RR.Rep m L) : (rrNext m).1 = L.headD 0 ∧ RR.Rep (rrNext m).2 (L.rotate 1) ∧
    Links.Frame L m.1 (rrNext m).2.1 := by
  have hhead := h.head_eq
  have htail := h.tail_eq
  unfold rrNext
  dsimp only
  match L with
  | [] =>
    rw [if_pos (by exact hhead)]
    exact ⟨rfl, h, .refl _ _⟩
  | [x] =>
    rw [if_neg (hhead ▸ h.fwd.2.1), if_pos (hhead.trans htail.symm)]
    rw [List.rotate_singleton]
    exact ⟨hhead, h, .refl _ _⟩
  | x :: y :: M =>
    -- the first thread goes behind the last one, and the second becomes the head
    obtain ⟨hx, hnd⟩ := List.nodup_cons.mp h.nodup
    obtain ⟨hx0, hfwd⟩ := h.fwd.2
    obtain ⟨hprev, hnext⟩ := h.neighbours (A := []) (t := x) (B := y :: M)
    have hxy : x ≠ y := fun he => hx (by simp [he])
    have hrot : (x :: y :: M).rotate 1 = (y :: M) ++ [x] := by simp
    obtain ⟨M', t, hM⟩ := (List.eq_nil_or_concat' (y :: M)).resolve_left (by simp)
    have htail' : m.2.schedTail = t := by
      rw [htail, hM, ← List.cons_append, List.getLastD_concat]
    have htx : x ≠ t := fun he => hx (by simp [hM, he])
    change m.2.schedHead = x at hhead
    change m.1.next x = y at hnext
    rw [if_neg (hhead ▸ hx0), if_neg (by rw [hhead, htail']; exact htx), hrot]
    simp only [hhead, htail', hnext]
    refine ⟨rfl, ⟨?_, ?_, nodup_concat hnd hx, ?_⟩, ?_⟩
    · rw [hnext, hM] at hfwd
      rw [hM] at hx hnd ⊢
      exact hfwd.snoc (fun hm => (nodup_cut hnd).2 (List.mem_append_left _ hm)) hx hx0
    · have hbwd := h.bwd
      have hlist : (x :: y :: M).reverse = (M.reverse ++ [y]) ++ x :: [] := by simp
      have hlast : (M.reverse ++ [y]).getLastD 0 = y := List.getLastD_concat ..
      rw [hlist, htail'] at hbwd
      have hrnd : (M.reverse ++ [y] ++ []).Nodup := by
        rw [List.append_nil, ← List.reverse_cons]
        exact List.nodup_reverse.mpr hnd
      have hcut := hbwd.unlink hrnd (by simp)
      rw [hlast, hprev, List.append_nil] at hcut
      simp only [Links.setPrev_prev, Links.setNext_prev, List.reverse_append, List.reverse_cons]
      rw [update_comm hxy]
      refine ⟨rfl, hx0, ?_⟩
      rw [update_self]
      exact hcut.update_out (by simpa [and_comm] using hx)
    · rw [h.count]
      simp
    · have ht : t ∈ x :: y :: M := by simp [hM]
      exact (((Links.Frame.refl _ _).setNext ht _).setPrev (by simp) _).setNext (by simp) _
        |>.setPrev (by simp) _

end RR.Rep

/-- Round robin is a FIFO pool. -/
theorem roundRobin_fifo : FifoScheduler roundRobin RR.Rep where
  init := by
    rintro _ ⟨⟩ m
    exact ⟨.init m, .refl _ _⟩
  shutdown := by
    rintro _ ⟨⟩ m _
    exact ⟨.init m, .refl _ _⟩
  admitThread := RR.Rep.rrAdmit_append
  remove := RR.Rep.remove
  next := RR.Rep.next
  qlen := RR.Rep.count
  congr := RR.Rep.congr

/-! ### The schedulers of a process -/

/-- Which `struct scheduler` a non-`NULL` scheduler pointer points to. -/
inductive SchedulerPtr (ι : Type*)
  | RoundRobin
  | other (i : ι)
  deriving DecidableEq

/-- The memory the schedulers work on: the links they share, the static variables of scheduler.c
and the private state of every other scheduler. -/
structure SchedMem (ι σ : Type*) where
  links : Links
  rr : RR
  pool : ι → σ

/-- A scheduler that works on a part of a larger memory. -/
def Scheduler.on {M N : Type*} (get : M → N) (set : N → M → M) (S : Scheduler N) :
    Scheduler M where
  init := S.init.map fun f m => set (f (get m)) m
  shutdown := S.shutdown.map fun f m => set (f (get m)) m
  admitThread t m := set (S.admitThread t (get m)) m
  remove t m := (S.remove t (get m)).map fun x => set x m
  next m := ((S.next (get m)).1, set (S.next (get m)).2 m)
  qlen m := S.qlen (get m)

theorem FifoPool.on {M N : Type*} (get : M → N) (set : N → M → M) {S : Scheduler N}
    {Rep : N → List Ptr → Prop} {Frame : List Ptr → N → N → Prop} (h : FifoPool S Rep Frame)
    (hget : ∀ x m, get (set x m) = x) :
    FifoPool (S.on get set) (fun m => Rep (get m))
      fun L m m' => Frame L (get m) (get m') ∧ ∃ x, m' = set x m where
  init f hf m := by
    obtain ⟨g, hg, rfl⟩ := Option.map_eq_some_iff.mp hf
    have := h.init g hg (get m)
    rw [hget]
    exact ⟨this.1, this.2, _, rfl⟩
  shutdown f hf m hm := by
    obtain ⟨g, hg, rfl⟩ := Option.map_eq_some_iff.mp hf
    have := h.shutdown g hg (get m) hm
    rw [hget]
    exact ⟨this.1, this.2, _, rfl⟩
  admitThread hm ht h0 := by
    have := h.admitThread hm ht h0
    unfold Scheduler.on
    rw [hget]
    exact ⟨this.1, this.2, _, rfl⟩
  remove {m L t} hm ht := by
    obtain ⟨x, hx, hrep, hframe⟩ := h.remove hm ht
    refine ⟨set x m, ?_, ?_, ?_, x, rfl⟩
    · show (S.remove t (get m)).map _ = _
      rw [hx]
      rfl
    · rw [hget]
      exact hrep
    · rw [hget]
      exact hframe
  next hm := by
    have := h.next hm
    unfold Scheduler.on
    rw [hget]
    exact ⟨this.1, this.2.1, this.2.2, _, rfl⟩
  qlen hm := h.qlen hm

variable {ι σ : Type*} [DecidableEq ι]

namespace SchedMem

def getRR (m : SchedMem ι σ) : Links × RR := (m.links, m.rr)

def setRR (x : Links × RR) (m : SchedMem ι σ) : SchedMem ι σ := { m with links := x.1, rr := x.2 }

def getPool (i : ι) (m : SchedMem ι σ) : Links × σ := (m.links, m.pool i)

def setPool (i : ι) (x : Links × σ) (m : SchedMem ι σ) : SchedMem ι σ :=
  { m with links := x.1, pool := update m.pool i x.2 }

end SchedMem

/-- The scheduler behind a pointer. -/
def published (other : ι → Scheduler (Links × σ)) : SchedulerPtr ι → Scheduler (SchedMem ι σ)
  | .RoundRobin => roundRobin.on SchedMem.getRR SchedMem.setRR
  | .other i => (other i).on (SchedMem.getPool i) (SchedMem.setPool i)

/-- The list the pool of a scheduler represents. -/
def PoolRep (Rep : ι → Links × σ → List Ptr → Prop) (k : SchedulerPtr ι) (m : SchedMem ι σ)
    (L : List Ptr) : Prop :=
  match k with
  | .RoundRobin => RR.Rep m.getRR L
  | .other i => Rep i (m.getPool i) L

/-- `m'` differs from `m` in links of the threads `L` and in the private state of `k` only. -/
def PoolFrame (k : SchedulerPtr ι) (L : List Ptr) (m m' : SchedMem ι σ) : Prop :=
  Links.Frame L m.links m'.links ∧
    match k with
    | .RoundRobin => m'.pool = m.pool
    | .other i => m'.rr = m.rr ∧ ∀ j, j ≠ i → m'.pool j = m.pool j

variable {other : ι → Scheduler (Links × σ)} {Rep : ι → Links × σ → List Ptr → Prop}

theorem FifoPool.mono {M : Type*} {S : Scheduler M} {R : M → List Ptr → Prop}
    {F G : List Ptr → M → M → Prop} (h : FifoPool S R F) (hFG : ∀ L m m', F L m m' → G L m m') :
    FifoPool S R G where
  init f hf m := ⟨(h.init f hf m).1, hFG _ _ _ (h.init f hf m).2⟩
  shutdown f hf m hm := ⟨(h.shutdown f hf m hm).1, hFG _ _ _ (h.shutdown f hf m hm).2⟩
  admitThread hm ht h0 := ⟨(h.admitThread hm ht h0).1, hFG _ _ _ (h.admitThread hm ht h0).2⟩
  remove hm ht := by
    obtain ⟨m', h1, h2, h3⟩ := h.remove hm ht
    exact ⟨m', h1, h2, hFG _ _ _ h3⟩
  next hm := ⟨(h.next hm).1, (h.next hm).2.1, hFG _ _ _ (h.next hm).2.2⟩
  qlen := h.qlen

theorem other_fifo {i : ι} {R : Links × σ → List Ptr → Prop} (h : FifoScheduler (other i) R) :
    FifoPool (published other (.other i)) (fun m => R (m.getPool i)) (PoolFrame (.other i)) := by
  refine (h.toFifoPool.on (SchedMem.getPool i) (SchedMem.setPool i) fun x m => ?_).mono ?_
  · simp [SchedMem.getPool, SchedMem.setPool]
  · rintro L m _ ⟨hl, x, rfl⟩
    exact ⟨hl, rfl, fun j hj => update_of_ne hj ..⟩

/-- Every scheduler of the process is a FIFO pool within the shared memory. -/
theorem published_fifo (hother : ∀ i, FifoScheduler (other i) (Rep i)) (k : SchedulerPtr ι) :
    FifoPool (published other k) (PoolRep Rep k) (PoolFrame k) := by
  cases k with
  | RoundRobin =>
    refine (roundRobin_fifo.toFifoPool.on SchedMem.getRR SchedMem.setRR
      fun _ _ => rfl).mono ?_
    rintro L m _ ⟨hl, x, rfl⟩
    exact ⟨hl, rfl⟩
  | other i => exact other_fifo (hother i)

omit [DecidableEq ι] in
/-- What one scheduler does leaves the pools of the others alone, if no thread is in both. -/
theorem PoolRep.frame (hother : ∀ i, FifoScheduler (other i) (Rep i)) {k k' : SchedulerPtr ι}
    {m m' : SchedMem ι σ} {L L' : List Ptr} (hne : k ≠ k') (hf : PoolFrame k L m m')
    (hd : ∀ t ∈ L', t ∉ L) (hr : PoolRep Rep k' m L') : PoolRep Rep k' m' L' := by
  obtain ⟨hl, hp⟩ := hf
  have hl : ∀ t ∈ L', m.links.AgreeAt m'.links t := fun t ht => hl t (hd t ht)
  cases k' with
  | RoundRobin =>
    cases k with
    | RoundRobin => exact absurd rfl hne
    | other i =>
      have : RR.Rep (m'.links, m.rr) L' := RR.Rep.congr hr hl
      rw [← hp.1] at this
      exact this
  | other j =>
    have := (hother j).congr hr hl
    have hj : m'.pool j = m.pool j := by
      cases k with
      | RoundRobin => rw [hp]
      | other i => exact hp.2 j fun he => hne (he ▸ rfl)
    rw [← hj] at this
    exact this

end Csc453.Lwp
