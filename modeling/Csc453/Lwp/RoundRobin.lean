import Csc453.Lib.Transition
import Csc453.Lwp.Scheduler

/-!
# Csc453.Lwp.RoundRobin — sequences of calls of the round-robin scheduler

`rrCalls` are the runs of `rr_admit`, `rr_remove` and `rr_next` from `rr_init` on.  Over any run the
pointers represent the list the calls have built (`run_rep`): `rr_refines_list`.  On that list a
thread moves towards the front only, one place with each `rr_next` (`onList_ahead`), which gives the
bound on waiting: `rr_bounded_waiting`.
-/

namespace Csc453.Lwp

open Function LinkedQueue Transition

/-- A call of the scheduler; `next` comes with the thread it returns. -/
inductive RRCall
  | admitThread (new : Ptr)
  | remove (victim : Ptr)
  | next (chosen : Ptr)
  deriving DecidableEq

def RRCall.Runs : RRCall → Links × RR → Links × RR → Prop
  | .admitThread new, m, m' => m' = rrAdmit new m
  | .remove victim, m, m' => rrRemove victim m = some m'
  | .next chosen, m, m' => rrNext m = (chosen, m')

/-- The runs of scheduler.c from `rr_init`, whatever the links were before. -/
def rrCalls : System (Links × RR) RRCall where
  init m := ∃ m₀, m = rrInit m₀
  step m c m' := c.Runs m m'

/-- What the calls mean on a list. -/
def RRCall.onList : RRCall → List Ptr → List Ptr
  | .admitThread new, L => if new = 0 then L else L ++ [new]
  | .remove victim, L => L.erase victim
  | .next _, L => L.rotate 1

abbrev RRHistory := List (Transition.Event (Links × RR) RRCall)

/-- The list the calls of a history build. -/
def pooled (h : RRHistory) : List Ptr := h.foldr (fun e L => e.label.onList L) []

/-- No thread was admitted that was in the pool. -/
def FreshAdmits (h : RRHistory) : Prop :=
  Throughout (fun earlier e => ∀ t, e.label = .admitThread t → t ∉ pooled earlier) h

/-- The threads the calls of `rr_next` returned, the first one first. -/
def chosenBy : RRHistory → List Ptr
  | [] => []
  | e :: h =>
    match e.label with
    | .next t => chosenBy h ++ [t]
    | _ => chosenBy h

/-- The pointers read as the list `L`, from both ends. -/
structure ReadsAs (m : Links × RR) (L : List Ptr) : Prop where
  forwards : Seg 0 m.1.next m.2.schedHead L 0
  backwards : Seg 0 m.1.prev m.2.schedTail L.reverse 0
  nodup : L.Nodup
  head_prev : ∀ t ∈ L.head?, m.1.prev t = 0
  tail_next : ∀ t ∈ L.getLast?, m.1.next t = 0
  count : m.2.schedulerThreadCount = L.length

variable {m m' : Links × RR} {L : List Ptr} {t : Ptr} {h : RRHistory}

theorem RR.Rep.readsAs (hm : RR.Rep m L) : ReadsAs m L := by
  refine ⟨hm.fwd, hm.bwd, hm.nodup, fun t ht => ?_, fun t ht => ?_, hm.count⟩
  · rcases L with _ | ⟨x, B⟩
    · simp at ht
    · obtain rfl : x = t := by simpa using ht
      exact (hm.neighbours (A := [])).1
  · rcases List.eq_nil_or_concat' L with rfl | ⟨A, x, rfl⟩
    · simp at ht
    · obtain rfl : x = t := by simpa using ht
      exact (hm.neighbours (B := [])).2

/-! ### One call -/

theorem rrAdmit_null (m : Links × RR) : rrAdmit 0 m = m := if_pos rfl

theorem RR.Rep.admitted (hm : RR.Rep m L) (ht : t ∉ L) :
    RR.Rep (rrAdmit t m) (RRCall.onList (.admitThread t) L) := by
  show RR.Rep (rrAdmit t m) (if t = 0 then L else L ++ [t])
  by_cases h0 : t = 0
  · rw [if_pos h0, h0, rrAdmit_null]
    exact hm
  · rw [if_neg h0]
    exact (hm.rrAdmit_append ht h0).1

/-- `rr_remove` always returns, and says whether it found its victim. -/
theorem RR.Rep.removed (hm : RR.Rep m L) (t : Ptr) :
    ∃ m', rrRemove t m = some m' ∧ RR.Rep m' (L.erase t) ∧
      (t ∈ L → m'.1.prev t = 0 ∧ m'.1.next t = 0) ∧ (t ∉ L → m' = m) := by
  by_cases ht : t ∈ L
  · obtain ⟨A, B, rfl⟩ := List.append_of_mem ht
    obtain ⟨m', hm', hrep, -, hprev, hnext⟩ := hm.remove_present
    have hA : t ∉ A := fun hA => (nodup_cut hm.nodup).2 (List.mem_append_left _ hA)
    refine ⟨m', hm', ?_, fun _ => ⟨hprev, hnext⟩, fun hno => absurd ht hno⟩
    rw [List.erase_append_right _ hA, List.erase_cons_head]
    exact hrep
  · refine ⟨m, hm.remove_absent ht, ?_, fun hin => absurd hin ht, fun _ => rfl⟩
    rw [List.erase_of_not_mem ht]
    exact hm

/-- One call keeps memory and list together, and `rr_next` returns the head. -/
theorem RR.Rep.call {c : RRCall} (hm : RR.Rep m L) (hs : c.Runs m m')
    (hadm : ∀ t, c = .admitThread t → t ∉ L) :
    RR.Rep m' (c.onList L) ∧ ∀ t, c = .next t → t = L.headD 0 := by
  cases c with
  | admitThread t =>
    have hm' : m' = rrAdmit t m := hs
    rw [hm']
    exact ⟨hm.admitted (hadm t rfl), by simp⟩
  | remove t =>
    obtain ⟨m₁, hm₁, hrep, -⟩ := hm.removed t
    obtain rfl : m₁ = m' := Option.some.inj (hm₁.symm.trans hs)
    exact ⟨hrep, by simp⟩
  | next t =>
    obtain ⟨hhead, hrep, -⟩ := hm.next
    rw [show rrNext m = (t, m') from hs] at hhead hrep
    exact ⟨hrep, fun u hu => (RRCall.next.inj hu) ▸ hhead⟩

/-! ### Runs -/

theorem run_rep (hr : Run rrCalls h m) (hadm : FreshAdmits h) : RR.Rep m (pooled h) := by
  induction hr with
  | init hi =>
    obtain ⟨m₀, rfl⟩ := hi
    exact .init m₀
  | step hr hs ih => exact ((ih hadm.2).call hs hadm.1).1

theorem FreshAdmits.older {newer older : RRHistory} (hadm : FreshAdmits (newer ++ older)) :
    FreshAdmits older := by
  induction newer with
  | nil => exact hadm
  | cons e newer ih => exact ih hadm.2

/-- **The round-robin queue is a list**: over every run the pointers read as the list the calls
built, `rr_admit` appends, `rr_remove` erases and `rr_next` rotates. -/
theorem rr_refines_list (hr : Run rrCalls h m) (hadm : FreshAdmits h) :
    ReadsAs m (pooled h) ∧
    (∀ t, t ∉ pooled h →
      ReadsAs (rrAdmit t m) (if t = 0 then pooled h else pooled h ++ [t])) ∧
    (∀ t, ∃ m', rrRemove t m = some m' ∧ ReadsAs m' ((pooled h).erase t) ∧
      (t ∈ pooled h → m'.1.prev t = 0 ∧ m'.1.next t = 0) ∧ (t ∉ pooled h → m' = m)) ∧
    (rrNext m).1 = (pooled h).headD 0 ∧ ReadsAs (rrNext m).2 ((pooled h).rotate 1) := by
  have hm := run_rep hr hadm
  refine ⟨hm.readsAs, fun t ht => (hm.admitted ht).readsAs, fun t => ?_, hm.next.1,
    hm.next.2.1.readsAs⟩
  obtain ⟨m', hm', hrep, hlinks, hsame⟩ := hm.removed t
  exact ⟨m', hm', hrep.readsAs, hlinks, hsame⟩

/-- A run of four calls on memory that is zero. -/
def fourCalls : RRHistory :=
  let m₀ := rrInit (⟨fun _ => 0, fun _ => 0⟩, ⟨0, 0, 0⟩)
  let m₁ := rrAdmit 1 m₀
  let m₂ := rrAdmit 2 m₁
  let m₃ := (rrNext m₂).2
  [⟨m₃, .next 2, (rrNext m₃).2⟩, ⟨m₂, .next 1, m₃⟩, ⟨m₁, .admitThread 2, m₂⟩,
    ⟨m₀, .admitThread 1, m₁⟩]

theorem fourCalls_run : ∃ m, Run rrCalls fourCalls m :=
  ⟨_, .step (.step (.step (.step (.init ⟨_, rfl⟩) rfl) rfl) rfl) rfl⟩

theorem fourCalls_fresh : FreshAdmits fourCalls := by
  refine ⟨by simp, by simp, fun t ht => ?_, fun t ht => ?_, trivial⟩
  · obtain rfl : t = 2 := (RRCall.admitThread.inj ht).symm
    decide
  · exact List.not_mem_nil

theorem rr_refines_list_four : pooled fourCalls = [1, 2] ∧ ∃ m, ReadsAs m (pooled fourCalls) := by
  obtain ⟨m, hr⟩ := fourCalls_run
  exact ⟨by decide, m, (rr_refines_list hr fourCalls_fresh).1⟩

/-! ### Waiting -/

/-- A call other than the removal of `t` leaves it in its place or moves it forward; `rr_next` moves
it forward, or returns it from the front. -/
theorem onList_ahead {c : RRCall} {k : ℕ} (hk : L[k]? = some t) (hrem : c ≠ .remove t)
    (hhead : ∀ u, c = .next u → u = L.headD 0) :
    (∀ u, c = .next u → k = 0 ∧ u = t ∨ ∃ j, k = j + 1 ∧ (c.onList L)[j]? = some t) ∧
    ((∀ u, c ≠ .next u) → ∃ j ≤ k, (c.onList L)[j]? = some t) := by
  cases c with
  | admitThread u =>
    refine ⟨by simp, fun _ => ⟨k, le_rfl, ?_⟩⟩
    show (if u = 0 then L else L ++ [u])[k]? = some t
    by_cases h0 : u = 0
    · rw [if_pos h0, hk]
    · rw [if_neg h0, List.getElem?_append_left (List.getElem?_eq_some_iff.mp hk).1, hk]
  | remove u =>
    refine ⟨by simp, fun _ => ?_⟩
    have hne : t ≠ u := fun he => hrem (by rw [he])
    show ∃ j ≤ k, (L.erase u)[j]? = some t
    by_cases hu : u ∈ L
    · obtain ⟨A, B, rfl, hA⟩ : ∃ A B, L = A ++ u :: B ∧ u ∉ A := by
        obtain ⟨x, A, B, hA, hx, hL, -⟩ := List.exists_of_eraseP hu (beq_self_eq_true u)
        obtain rfl : u = x := eq_of_beq hx
        exact ⟨A, B, hL, fun hu => by simpa using hA u hu⟩
      rw [List.erase_append_right _ hA, List.erase_cons_head]
      rcases lt_trichotomy k A.length with hlt | heq | hgt
      · rw [List.getElem?_append_left hlt] at hk
        exact ⟨k, le_rfl, by rw [List.getElem?_append_left hlt, hk]⟩
      · rw [heq, List.getElem?_append_right le_rfl, Nat.sub_self] at hk
        exact absurd (Option.some.inj hk).symm hne
      · obtain ⟨j, rfl⟩ := Nat.exists_eq_add_of_lt hgt
        rw [List.getElem?_append_right (by omega)] at hk
        refine ⟨A.length + j, by omega, ?_⟩
        rw [List.getElem?_append_right (by omega), Nat.add_sub_cancel_left]
        rw [show A.length + j + 1 - A.length = j + 1 by omega] at hk
        exact hk
    · rw [List.erase_of_not_mem hu]
      exact ⟨k, le_rfl, hk⟩
  | next u =>
    refine ⟨fun v hv => ?_, fun hno => absurd rfl (hno u)⟩
    have hv := hhead v hv
    rcases L with _ | ⟨x, L⟩
    · simp at hk
    · rcases k with _ | j
      · refine Or.inl ⟨rfl, ?_⟩
        rw [hv]
        simpa using hk
      · refine Or.inr ⟨j, rfl, ?_⟩
        show ((x :: L).rotate 1)[j]? = some t
        have hj : L[j]? = some t := by simpa using hk
        rw [List.rotate_cons_succ, List.rotate_zero,
          List.getElem?_append_left (List.getElem?_eq_some_iff.mp hj).1, hj]

theorem chosenBy_next {e : Transition.Event (Links × RR) RRCall} (he : e.label = .next t) :
    chosenBy (e :: h) = chosenBy h ++ [t] := by
  rw [chosenBy, he]

theorem chosenBy_other {e : Transition.Event (Links × RR) RRCall} (he : ∀ t, e.label ≠ .next t) :
    chosenBy (e :: h) = chosenBy h := by
  rw [chosenBy]
  rcases hl : e.label with u | u | u
  · rfl
  · rfl
  · exact absurd hl (he u)

/-- Until it is chosen, the place of `t` and the choices made add up to its first place at most. -/
theorem chosen_or_ahead {newer older : RRHistory} {k : ℕ} (hr : Run rrCalls (newer ++ older) m)
    (hadm : FreshAdmits (newer ++ older)) (hk : (pooled older)[k]? = some t)
    (hrem : ∀ e ∈ newer, e.label ≠ .remove t) :
    t ∈ (chosenBy newer).take (k + 1) ∨
      ∃ j, j + (chosenBy newer).length ≤ k ∧ (pooled (newer ++ older))[j]? = some t := by
  induction newer generalizing m with
  | nil => exact Or.inr ⟨k, le_rfl, hk⟩
  | cons e newer ih =>
    obtain ⟨hpre, hs, -⟩ := hr.tail
    rcases ih hpre hadm.2 fun d hd => hrem d (List.mem_cons_of_mem _ hd) with hin | ⟨j, hj, hat⟩
    · left
      by_cases hnext : ∃ u, e.label = .next u
      · obtain ⟨u, hu⟩ := hnext
        rw [chosenBy_next hu, List.take_append]
        exact List.mem_append_left _ hin
      · rw [chosenBy_other fun u hu => hnext ⟨u, hu⟩]
        exact hin
    · have hcall := (run_rep hpre hadm.2).call hs hadm.1
      obtain ⟨hchoose, hother⟩ :=
        onList_ahead hat (hrem e List.mem_cons_self) hcall.2
      by_cases hnext : ∃ u, e.label = .next u
      · obtain ⟨u, hu⟩ := hnext
        rw [chosenBy_next hu]
        rcases hchoose u hu with ⟨h0, rfl⟩ | ⟨i, hi, hat'⟩
        · left
          rw [List.take_of_length_le (by simp; omega)]
          simp
        · exact Or.inr ⟨i, by simp; omega, hat'⟩
      · rw [chosenBy_other fun u hu => hnext ⟨u, hu⟩]
        obtain ⟨i, hi, hat'⟩ := hother fun u hu => hnext ⟨u, hu⟩
        exact Or.inr ⟨i, by omega, hat'⟩

/-- Calls of `rr_next` alone take the threads in order and turn the list. -/
theorem rotated {newer older : RRHistory} (hr : Run rrCalls (newer ++ older) m)
    (hadm : FreshAdmits (newer ++ older)) (hnext : ∀ e ∈ newer, ∃ u, e.label = .next u)
    (hlen : newer.length ≤ (pooled older).length) :
    chosenBy newer = (pooled older).take newer.length ∧
      pooled (newer ++ older) = (pooled older).rotate newer.length := by
  induction newer generalizing m with
  | nil => simp [chosenBy]
  | cons e newer ih =>
    obtain ⟨hpre, hs, -⟩ := hr.tail
    rw [List.length_cons] at hlen
    obtain ⟨htake, hrot⟩ := ih hpre hadm.2 (fun d hd => hnext d (List.mem_cons_of_mem _ hd)) (by omega)
    obtain ⟨u, hu⟩ := hnext e List.mem_cons_self
    have hhead : u = (pooled (newer ++ older)).headD 0 :=
      ((run_rep hpre hadm.2).call hs hadm.1).2 u hu
    have hlt : newer.length < (pooled older).length := by omega
    have hu' : u = (pooled older)[newer.length] := by
      rw [hhead, hrot, List.headD_eq_head?_getD, List.head?_rotate hlt,
        List.getElem?_eq_getElem hlt, Option.getD_some]
    refine ⟨?_, ?_⟩
    · rw [chosenBy_next hu, htake, hu', List.length_cons, List.take_succ_eq_append_getElem hlt]
    · show e.label.onList (pooled (newer ++ older)) = _
      rw [hu, hrot]
      exact List.rotate_rotate ..

/-- **Bounded waiting.**  A thread with `k` threads ahead of it is among the next `k + 1` choices,
and calls of `rr_next` alone go once through the queue and leave it as it was. -/
theorem rr_bounded_waiting {newer older : RRHistory} (hr : Run rrCalls (newer ++ older) m)
    (hadm : FreshAdmits (newer ++ older)) :
    (∀ k t, (pooled older)[k]? = some t → (∀ e ∈ newer, e.label ≠ .remove t) →
      k + 1 ≤ (chosenBy newer).length → t ∈ (chosenBy newer).take (k + 1)) ∧
    ((∀ e ∈ newer, ∃ t, e.label = .next t) → newer.length = (pooled older).length →
      chosenBy newer = pooled older ∧ (pooled older).Nodup ∧ ReadsAs m (pooled older)) := by
  refine ⟨fun k t hk hrem hlen => ?_, fun hnext hlen => ?_⟩
  · rcases chosen_or_ahead hr hadm hk hrem with hin | ⟨j, hj, -⟩
    · exact hin
    · omega
  · obtain ⟨htake, hrot⟩ := rotated hr hadm hnext (by omega)
    have hm := run_rep hr hadm
    rw [hlen, List.take_length] at htake
    rw [hlen, List.rotate_length] at hrot
    rw [hrot] at hm
    exact ⟨htake, hm.nodup, hm.readsAs⟩

theorem rr_bounded_waiting_four : (2 : Ptr) ∈ (chosenBy (fourCalls.take 2)).take 2 := by
  obtain ⟨m, hr⟩ := fourCalls_run
  have hr : Run rrCalls (fourCalls.take 2 ++ fourCalls.drop 2) m := hr
  exact (rr_bounded_waiting hr fourCalls_fresh).1 1 2 (by decide) (by decide) (by decide)

end Csc453.Lwp
