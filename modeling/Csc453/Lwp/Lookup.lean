import Csc453.Lwp.Runs

/-!
# Csc453.Lwp.Lookup — tid2thread over whole runs

`enrolled` reads off the history which thread got which tid, `wasted` which tids went to creations
that failed.  A live thread or a zombie is enrolled under its tid, and whoever is enrolled is live, a
zombie or freed (`Enlisted`); with all tids different (`Account`) the three walks are exact:
`tid2thread_exact`.
-/

namespace Csc453.Lwp

open Function LinkedQueue Transition

/-- The tids of the threads created or started, with their contexts. -/
def enrolled : List Event → List (Tid × Ptr)
  | [] => []
  | .created t :: .assigned tid :: log => (tid, t) :: enrolled log
  | _ :: log => enrolled log

/-- The tids used up by creations that failed. -/
def wasted : List Event → List Tid
  | [] => []
  | .created _ :: .assigned _ :: log => wasted log
  | .assigned tid :: log => tid :: wasted log
  | _ :: log => wasted log

def Event.assignedTid : Event → Option Tid
  | .assigned tid => some tid
  | _ => none

section

variable {ev : Event} {log : List Event}

theorem enrolled_cons (hno : ∀ t tid rest, ev = .created t → log = .assigned tid :: rest → False) :
    enrolled (ev :: log) = enrolled log := enrolled.eq_3 ev log hno

theorem wasted_cons (hno : ∀ t tid rest, ev = .created t → log = .assigned tid :: rest → False)
    (ha : ∀ tid, ev ≠ .assigned tid) : wasted (ev :: log) = wasted log :=
  wasted.eq_4 ev log hno ha

theorem wasted_assigned (tid : Tid) (log : List Event) :
    wasted (.assigned tid :: log) = tid :: wasted log := rfl

end

/-- Every assigned tid went to a thread or was wasted. -/
theorem assigned_perm (log : List Event) :
    (tidsOf Event.assignedTid log).Perm ((enrolled log).map Prod.fst ++ wasted log) := by
  induction log using enrolled.induct with
  | case1 => exact .refl _
  | case2 t tid log ih => exact ih.cons tid
  | case3 ev log hno ih =>
    rw [enrolled_cons hno]
    cases ev with
    | assigned tid =>
      rw [wasted_assigned]
      exact (ih.cons tid).trans List.perm_middle.symm
    | created t =>
      rw [wasted_cons hno (by simp)]
      exact ih
    | _ => exact ih

/-- The first `n` tids, the last one first. -/
def firstTids : ℕ → List Tid
  | 0 => []
  | n + 1 => BitVec.ofNat 64 (n + 1) :: firstTids n

theorem toNat_ofNat_tid {k : ℕ} (hk : k < addresses) : (BitVec.ofNat 64 k : Tid).toNat = k := by
  rw [BitVec.toNat_ofNat]
  exact Nat.mod_eq_of_lt hk

theorem toNat_of_mem_firstTids {n : ℕ} (hn : n < addresses) {x : Tid} (hx : x ∈ firstTids n) :
    0 < x.toNat ∧ x.toNat ≤ n := by
  induction n with
  | zero => cases hx
  | succ n ih =>
    rcases List.mem_cons.mp hx with rfl | hx
    · rw [toNat_ofNat_tid hn]
      exact ⟨Nat.succ_pos n, le_rfl⟩
    · obtain ⟨h0, hle⟩ := ih (by omega) hx
      exact ⟨h0, by omega⟩

theorem nodup_firstTids {n : ℕ} (hn : n < addresses) : (firstTids n).Nodup := by
  induction n with
  | zero => exact List.nodup_nil
  | succ n ih =>
    refine List.nodup_cons.mpr ⟨fun hm => ?_, ih (by omega)⟩
    have hle := (toNat_of_mem_firstTids (by omega) hm).2
    rw [toNat_ofNat_tid hn] at hle
    omega

namespace Book

variable {ι : Type} {b b' : Book ι} {t z : Ptr} {tid : Tid}

/-- The tids were assigned in order. -/
def Numbered (b : Book ι) : Prop :=
  (b.exit = none → b.currTid = BitVec.ofNat 64 (issued b.log + 1)) ∧
    tidsOf Event.assignedTid b.log = firstTids (issued b.log)

/-- Live threads and zombies are enrolled under their tids; whoever is enrolled is one of them or was
freed. -/
def Enlisted (b : Book ι) : Prop :=
  b.exit = none → (∀ t ∈ b.live ++ b.zombies, (b.tidAt t, t) ∈ enrolled b.log) ∧
    ∀ x ∈ enrolled b.log, x.1 ∈ tidsOf Event.freedTid b.log ∨
      x.2 ∈ b.live ++ b.zombies ∧ b.tidAt x.2 = x.1

theorem assigned_bury (b : Book ι) (z : Ptr) :
    tidsOf Event.assignedTid (b.bury z).log = tidsOf Event.assignedTid b.log := by
  rw [bury_log]
  split_ifs <;> rfl

theorem enrolled_bury (b : Book ι) (z : Ptr) : enrolled (b.bury z).log = enrolled b.log := by
  rw [bury_log]
  split_ifs <;> rfl

theorem freed_bury (b : Book ι) (z : Ptr) :
    tidsOf Event.freedTid (b.bury z).log = b.tidAt z :: tidsOf Event.freedTid b.log := by
  rw [bury_log]
  split_ifs <;> rfl

/-- The next tid is assigned. -/
theorem Numbered.assign {b' : Book ι} (h : b.Numbered) (hx : b.exit = none)
    (hlog : tidsOf Event.assignedTid b'.log = b.currTid :: tidsOf Event.assignedTid b.log)
    (hissued : issued b'.log = issued b.log + 1) (hnext : b'.currTid = b.currTid + 1) :
    b'.Numbered := by
  have hcurr := h.1 hx
  refine ⟨fun _ => ?_, ?_⟩
  · rw [hnext, hcurr, hissued]
    exact (BitVec.ofNat_add ..).symm
  · rw [hlog, hissued, hcurr, h.2]
    rfl

theorem Numbered.bury (h : b.Numbered) : (b.bury z).Numbered := by
  refine ⟨fun hx => ?_, ?_⟩
  · rw [issued_bury, ← h.1 ((bury_exit b z).symm.trans hx)]
    exact Core.discard_currTid b.toCore z
  · rw [assigned_bury, issued_bury, h.2]

theorem numbered_kept : Kept (fun _ => True) (Numbered (ι := ι)) where
  quiet h _ hq := by
    unfold Numbered
    rw [hq.log, hq.currTid, hq.exit]
    exact h
  failed {b b'} h _ hlog hx' := by
    refine ⟨fun hx => ?_, ?_⟩
    · rw [hx'] at hx
      cases hx
    · rw [hlog]
      exact h.2
  issue t h hu := h.assign hu.running rfl rfl rfl
  spawn h hu _ _ _ _ := h.assign hu.running rfl rfl rfl
  handOver {b} status h hu _ := by
    have hcurr : (b.handOver status).currTid = b.currTid := by
      show (b.retire status).wake.currTid = b.currTid
      unfold wake
      split <;> rfl
    unfold Numbered
    rw [handOver_log, hcurr]
    exact ⟨fun _ => h.1 hu.running, h.2⟩
  refuse h _ := h
  answer h _ := h
  returnNone _ h _ := h
  reap st h _ _ _ _ := Numbered.bury h
  collect {b W} st h _ _ _ _ _ := Numbered.bury (b := b.clear) h
  stale _ h _ _ _ _ _ := h
  last {b b'} status _ _ _ _ _ _ _ h := by
    refine ⟨nofun, ?_⟩
    unfold endProcess
    split_ifs
    · exact (Numbered.bury h).2
    · exact h.2

/-- The set of the live threads and zombies is the same, and so is the history of creations. -/
theorem Enlisted.congr (h : b.Enlisted) (hx : b.exit = none)
    (hmem : ∀ t, t ∈ b'.live ++ b'.zombies ↔ t ∈ b.live ++ b.zombies) (htid : b'.tidAt = b.tidAt)
    (hlog : enrolled b'.log = enrolled b.log)
    (hfreed : tidsOf Event.freedTid b'.log = tidsOf Event.freedTid b.log) : b'.Enlisted := by
  intro _
  obtain ⟨hin, hout⟩ := h hx
  rw [htid, hlog, hfreed]
  refine ⟨fun t ht => hin t ((hmem t).mp ht), fun x hxm => (hout x hxm).imp_right fun ⟨h1, h2⟩ => ?_⟩
  exact ⟨(hmem _).mpr h1, h2⟩

theorem Enlisted.spawn {x : Context} (h : b.Enlisted) (hx : b.exit = none)
    (hnew : t ∉ b.live ++ b.zombies) (htid : x.tid = b.currTid) : (b.spawn t x).Enlisted := by
  intro _
  obtain ⟨hin, hout⟩ := h hx
  have hself : (b.spawn t x).tidAt t = b.currTid :=
    (congrArg Context.tid (update_self ..)).trans htid
  have hother : ∀ u, u ≠ t → (b.spawn t x).tidAt u = b.tidAt u :=
    fun u hu => congrArg Context.tid (update_of_ne hu ..)
  have hmem : ∀ u, u ∈ (b.spawn t x).live ++ (b.spawn t x).zombies ↔
      u = t ∨ u ∈ b.live ++ b.zombies := by
    intro u
    show u ∈ b.live ++ [t] ++ b.zombies ↔ _
    simp only [List.mem_append, List.mem_singleton]
    tauto
  refine ⟨fun u hu => ?_, fun y hy => ?_⟩
  · rcases (hmem u).mp hu with rfl | hu
    · rw [hself]
      exact List.mem_cons_self
    · rw [hother u fun he => hnew (he ▸ hu)]
      exact List.mem_cons_of_mem _ (hin u hu)
  · rcases List.mem_cons.mp hy with rfl | hy
    · exact .inr ⟨(hmem t).mpr (.inl rfl), hself⟩
    · refine (hout y hy).imp_right fun ⟨h1, h2⟩ => ⟨(hmem _).mpr (.inr h1), ?_⟩
      rw [hother _ fun he => hnew (he ▸ h1)]
      exact h2

/-- A zombie is reaped and its tid returned. -/
theorem Enlisted.returnBuried (h : b.Enlisted) (hx : b.exit = none) (st blocked : Bool) :
    (b.returnBuried z st blocked).Enlisted := by
  intro _
  obtain ⟨hin, hout⟩ := h hx
  have htid : (b.returnBuried z st blocked).tidAt = b.tidAt :=
    funext fun t => congrArg (fun c => (c t).tid) (bury_ctx b z)
  have henr : enrolled (b.returnBuried z st blocked).log = enrolled b.log := enrolled_bury b z
  have hfreed : tidsOf Event.freedTid (b.returnBuried z st blocked).log =
      b.tidAt z :: tidsOf Event.freedTid b.log := freed_bury b z
  have hmem : ∀ u, u ∈ b.live ++ b.zombies.erase z → u ∈ b.live ++ b.zombies := fun u hu =>
    (List.mem_append.mp hu).elim (List.mem_append_left _)
      fun hu => List.mem_append_right _ (List.mem_of_mem_erase hu)
  rw [htid, henr, hfreed]
  refine ⟨fun u hu => hin u (hmem u hu), fun y hy => ?_⟩
  rcases hout y hy with hf | ⟨hy', hyt⟩
  · exact .inl (List.mem_cons_of_mem _ hf)
  · by_cases hyz : y.2 = z
    · left
      rw [← hyt, hyz]
      exact List.mem_cons_self
    · refine .inr ⟨(List.mem_append.mp hy').elim (List.mem_append_left _) fun hm => ?_, hyt⟩
      exact List.mem_append_right _ ((List.mem_erase_of_ne hyz).mpr hm)

theorem enlisted_kept : Kept (fun _ => True) (Enlisted (ι := ι)) where
  quiet h hx hq := by
    refine h.congr hx (fun t => ?_) (funext hq.tid) ?_ ?_
    · rw [hq.live, hq.zombies]
    · rw [hq.log]
    · rw [hq.log]
  failed _ _ _ hx' := fun hx => by simp [hx'] at hx
  issue t h hu := h.congr hu.running (fun _ => Iff.rfl) rfl rfl rfl
  spawn h hu hfree _ htid _ := h.spawn hu.running
    (fun hm => by simp [hu.inv.used _ hm] at hfree) htid
  handOver {b} status h hu hc := by
    have hlive := hu.inv.pool_live (hu.curr hc)
    refine h.congr hu.running (fun t => ?_) (handOver_tidAt b status) ?_ ?_
    · rw [handOver_live, handOver_zombies, ← List.append_assoc, List.mem_append, List.mem_append,
        List.mem_append, List.mem_singleton]
      by_cases ht : t = b.currThread
      · simp [ht, hlive]
      · simp [ht, List.mem_erase_of_ne ht]
    · rw [handOver_log]
      rfl
    · rw [handOver_log]
      rfl
  refuse h hu := h.congr hu.running (fun _ => Iff.rfl) rfl rfl rfl
  answer h hu := h.congr hu.running (fun _ => Iff.rfl) rfl rfl rfl
  returnNone _ h hu := h.congr hu.running (fun _ => Iff.rfl) rfl rfl rfl
  reap st h hu _ _ _ := h.returnBuried hu.running st false
  collect {b W} st h _ _ hx _ _ := Enlisted.returnBuried (b := b.clear)
    (h.congr hx (fun _ => Iff.rfl)
      (funext fun t => Core.setExited_tid b.toCore b.currThread t 0) rfl rfl) hx st true
  stale {b W} _ h _ _ hx _ _ := h.congr hx (fun _ => Iff.rfl)
    (funext fun t => Core.setExited_tid b.toCore b.currThread t 0) rfl rfl
  last _ _ _ _ _ _ _ _ _ := fun hx => by cases hx

/-- A tid that `lwp_create` returns went to the thread it created. -/
def Told (before : List Event) : Event → Prop
  | .made tid => tid ≠ NO_THREAD → ∃ t log, before = .created t :: .assigned tid :: log
  | _ => True

theorem told_kept : Kept (fun _ => True) fun b : Book ι => Throughout Told b.log where
  quiet h _ hq := hq.log.symm ▸ h
  failed h _ hlog _ := hlog.symm ▸ h
  issue _ h _ := ⟨trivial, h⟩
  spawn h _ _ _ _ _ := ⟨trivial, trivial, h⟩
  refuse h _ := ⟨fun hn => absurd rfl hn, h⟩
  answer {b t x} h _ := ⟨fun _ => ⟨t, b.log, rfl⟩, h⟩
  handOver {b} status h _ _ := by
    rw [handOver_log]
    exact ⟨trivial, h⟩
  returnNone _ h _ := ⟨trivial, h⟩
  reap _ h _ _ _ _ := ⟨trivial, throughout_bury h _ (fun _ _ _ => trivial) fun _ _ _ _ => trivial⟩
  collect {b W} _ h _ _ _ _ _ := ⟨trivial,
    throughout_bury (b := b.clear) h _ (fun _ _ _ => trivial) fun _ _ _ _ => trivial⟩
  stale _ h _ _ _ _ _ := ⟨trivial, h⟩
  last _ _ _ _ _ _ _ _ h :=
    throughout_endProcess h (fun _ _ _ _ => trivial) fun _ _ _ _ _ => trivial

/-- No two unreaped threads share a tid. -/
theorem Account.tid_inj (h : b.Account) {u : Ptr} (ht : t ∈ b.live ++ b.zombies)
    (hu : u ∈ b.live ++ b.zombies) (he : b.tidAt t = b.tidAt u) : t = u := by
  have hnd := h.nodup
  unfold tids at hnd
  rw [← List.append_assoc, ← List.map_append] at hnd
  exact List.inj_on_of_nodup_map (List.nodup_append.mp hnd).1 ht hu he

/-- The tid of an unreaped thread is not used up. -/
theorem Account.tid_notFreed (h : b.Account) (ht : t ∈ b.live ++ b.zombies) :
    b.tidAt t ∉ tidsOf Event.freedTid b.log := by
  have hnd := h.nodup
  unfold tids at hnd
  rw [← List.append_assoc, ← List.map_append] at hnd
  exact fun hm => (List.nodup_append.mp hnd).2.2 _ (List.mem_map_of_mem ht) _ hm rfl

end Book

variable {ι M : Type} {S : SchedulerPtr ι → Scheduler M}
  {Rep : SchedulerPtr ι → M → List Ptr → Prop} {s : State ι M} {b : Book ι} {t : Ptr} {tid : Tid}

/-- The three walks find the first thread with the tid. -/
theorem Rel.tid2thread (h : Rel S Rep s b) (tid : Tid) : tid2thread tid s =
    some (((b.live ++ b.waiting ++ b.zombies).find? (fun t => b.tidAt t = tid)).getD 0) := by
  have hp : (fun t => decide ((s.ctx t).tid = tid)) = fun t => decide (b.tidAt t = tid) := by
    rw [h.ctx_eq]
    rfl
  have hfind : ∀ {q : Queue Ptr} {L : List Ptr}, q.Rep 0 L →
      q.find 0 (fun t => (s.ctx t).tid = tid) addresses =
        some ((L.find? (fun t => b.tidAt t = tid)).getD 0) := by
    intro q L hq
    rw [hp]
    exact hq.find (Rel.length_lt hq)
  obtain ⟨nodes, hrep, hmap, -⟩ := h.zombies
  have hz : s.zombies.find 0 (fun z => (s.ctx (s.zombieThread z)).tid = tid) addresses =
      some ((nodes.find? (fun z => b.tidAt (s.zombieThread z) = tid)).getD 0) := by
    have hq := hrep.find (p := fun z => (s.ctx (s.zombieThread z)).tid = tid) (Rel.length_lt hrep)
    rw [h.ctx_eq] at hq ⊢
    exact hq
  unfold Lwp.tid2thread
  rw [hfind h.live, hfind h.waiting, hz, ← hmap, List.find?_append, List.find?_append,
    List.find?_map]
  have hne : ∀ {q : Queue Ptr} {L : List Ptr} {p : Ptr → Bool} {u : Ptr}, q.Rep 0 L →
      L.find? p = some u → u ≠ 0 := fun hq hu => hq.seg.ne_null (List.mem_of_find?_eq_some hu)
  show (if _ then _ else _) = _
  cases hl : b.live.find? (fun t => b.tidAt t = tid) with
  | some u => exact if_pos (hne h.live hl)
  | none =>
    rw [if_neg (by simp)]
    show (if _ then _ else _) = _
    cases hw : b.waiting.find? (fun t => b.tidAt t = tid) with
    | some u => exact if_pos (hne h.waiting hw)
    | none =>
      rw [if_neg (by simp)]
      show some (if _ then _ else _) = _
      cases hn : nodes.find? (fun z => b.tidAt (s.zombieThread z) = tid) with
      | some z =>
        have hz0 : z ≠ 0 := hne hrep hn
        have hn' : nodes.find? ((fun t => decide (b.tidAt t = tid)) ∘ s.zombieThread) = some z := hn
        rw [hn', Option.getD_some, if_neg hz0]
        rfl
      | none =>
        have hn' : nodes.find? ((fun t => decide (b.tidAt t = tid)) ∘ s.zombieThread) = none := hn
        rw [hn', Option.getD_none, if_pos rfl]
        rfl

section

variable (h : Rel S Rep s b) (hw : ∀ t ∈ b.waiting, t ∈ b.live)
include hw

/-- A waiting thread is live, so the second walk finds nothing new. -/
theorem mem_walked (ht : t ∈ b.live ++ b.waiting ++ b.zombies) : t ∈ b.live ++ b.zombies := by
  rcases List.mem_append.mp ht with ht | ht
  · exact List.mem_append_left _ ((List.mem_append.mp ht).elim id (hw t))
  · exact List.mem_append_right _ ht

include h

theorem Rel.tid2thread_found (hacc : b.Account) (ht : t ∈ b.live ++ b.zombies) :
    Lwp.tid2thread (b.tidAt t) s = some t := by
  have ht' : t ∈ b.live ++ b.waiting ++ b.zombies := by
    rcases List.mem_append.mp ht with hm | hm
    · exact List.mem_append_left _ (List.mem_append_left _ hm)
    · exact List.mem_append_right _ hm
  rw [h.tid2thread]
  cases hf : (b.live ++ b.waiting ++ b.zombies).find? (fun u => b.tidAt u = b.tidAt t) with
  | none =>
    have hno := List.find?_eq_none.mp hf t ht'
    simp at hno
  | some u =>
    have htid : b.tidAt u = b.tidAt t := by simpa using List.find?_some hf
    have hut := hacc.tid_inj (mem_walked hw (List.mem_of_find?_eq_some hf)) ht htid
    rw [hut]
    rfl

theorem Rel.tid2thread_none (hno : ∀ t ∈ b.live ++ b.zombies, b.tidAt t ≠ tid) :
    Lwp.tid2thread tid s = some 0 := by
  have hf : (b.live ++ b.waiting ++ b.zombies).find? (fun u => b.tidAt u = tid) = none := by
    refine List.find?_eq_none.mpr fun u hu htid => ?_
    exact hno u (mem_walked hw hu) (by simpa using htid)
  rw [h.tid2thread, hf]
  rfl

end

/-! ### The lookup theorem -/

variable {statics : M → Prop}

theorem Initial.numbered (h : Initial statics s) : (Book.initial s.toCore).Numbered := by
  have hlog : (Book.initial s.toCore).log = [] := h.log
  unfold Book.Numbered
  rw [hlog]
  exact ⟨fun _ => h.currTid, rfl⟩

theorem Initial.enlisted (h : Initial statics s) : (Book.initial s.toCore).Enlisted := by
  have hlog : (Book.initial s.toCore).log = [] := h.log
  intro _
  rw [hlog]
  exact ⟨nofun, nofun⟩

/-- The unreaped threads and their tids, in a running process that has not used up its tids. -/
theorem unreaped_tids [DecidableEq ι] (hS : Pools S Rep) (hst : ∀ m, statics m → EmptyPools S Rep m)
    (hr : Reachable (lwp S statics) s) (hx : s.exit = none) (hlt : issued s.log < addresses) :
    ∃ b, Rel S Rep s b ∧ b.live = unexited s.log ∧ b.zombies = unreaped s.log ∧
      (∀ t ∈ b.waiting, t ∈ b.live) ∧ b.Account ∧ b.Numbered ∧
      (∀ t ∈ b.live ++ b.zombies, (b.tidAt t, t) ∈ enrolled s.log) ∧
      ∀ x ∈ enrolled s.log, x.1 ∈ tidsOf Event.freedTid s.log ∨
        x.2 ∈ b.live ++ b.zombies ∧ b.tidAt x.2 = x.1 := by
  have hkept := (Book.inOrder_kept.and Book.recorded_kept).and
    ((Book.numbered_kept (ι := ι)).and Book.enlisted_kept)
  obtain ⟨b, hrel, huser, ⟨horder, hrec⟩, hnum, henl⟩ := reachable_book hS hst hkept
    (fun _ hi => ⟨⟨hi.inOrder, hi.recorded⟩, hi.numbered, hi.enlisted⟩) hr
  have hbx := hrel.exit_eq.symm.trans hx
  have hlog : s.log = b.log := by rw [hrel.core]
  rw [hlog] at hlt ⊢
  obtain ⟨hl, hz⟩ := hrec hbx
  exact ⟨b, hrel, hl, hz, fun t ht => (huser hbx).inv.waiting_live ht, (horder.elim hbx hlt).2, hnum,
    henl hbx⟩

/-- Every tid that `lwp_create` returned in a run, but `NO_THREAD`, went to the thread it created. -/
theorem told_throughout [DecidableEq ι] (hS : Pools S Rep) (hst : ∀ m, statics m → EmptyPools S Rep m)
    (hr : Reachable (lwp S statics) s) : Throughout Book.Told s.log := by
  obtain ⟨b, hrel, -, htold⟩ := reachable_book hS hst Book.told_kept (fun s hi => by
    have hlog : (Book.initial s.toCore).log = [] := hi.log
    rw [hlog]
    trivial) hr
  rw [hrel.core]
  exact htold

/-- **tid2thread is exact.**  It returns the thread that got the tid when it was created or started
and that is not reaped, and `NULL` for every other value. -/
theorem tid2thread_exact [DecidableEq ι] {σ : Type} {other : ι → Scheduler (Links × σ)}
    {R : ι → Links × σ → List Ptr → Prop} {s : State ι (SchedMem ι σ)}
    (hother : ∀ i, FifoScheduler (other i) (R i))
    (hr : Reachable (lwp (published other) (Statics other R)) s) (hx : s.exit = none)
    (hlt : issued s.log < addresses) :
    (∀ tid t, (tid, t) ∈ enrolled s.log → tid ∉ tidsOf Event.freedTid s.log →
      tid2thread tid s = some t) ∧
    (∀ tid, (∀ t, (tid, t) ∈ enrolled s.log → tid ∈ tidsOf Event.freedTid s.log) →
      tid2thread tid s = some 0) ∧
    tid2thread NO_THREAD s = some 0 ∧
    (∀ tid ∈ wasted s.log, tid2thread tid s = some 0) ∧
    (∀ tid ∈ tidsOf Event.freedTid s.log, tid2thread tid s = some 0) ∧
    (∀ t ∈ unexited s.log ++ unreaped s.log, tid2thread (s.ctx t).tid s = some t) ∧
    ∀ t ∈ unexited s.log ++ unreaped s.log, ∀ u ∈ unexited s.log ++ unreaped s.log,
      (s.ctx t).tid = (s.ctx u).tid → t = u := by
  obtain ⟨b, hrel, hl, hz, hwl, hacc, hnum, hin, hout⟩ :=
    unreaped_tids (published_pools hother) (fun _ hm => hm.empty) hr hx hlt
  have hlog : s.log = b.log := by rw [hrel.core]
  have hnone : ∀ tid, (∀ t, (tid, t) ∈ enrolled s.log → tid ∈ tidsOf Event.freedTid s.log) →
      tid2thread tid s = some 0 := by
    intro tid hno
    refine hrel.tid2thread_none hwl fun u hu htid => ?_
    have hfreed := hno u (htid ▸ hin u hu)
    rw [← htid, hlog] at hfreed
    exact hacc.tid_notFreed hu hfreed
  have hassigned := hnum.2
  rw [← hlog] at hassigned
  have hperm := assigned_perm s.log
  rw [hassigned] at hperm
  refine ⟨fun tid t ht hnf => ?_, hnone, hnone _ fun t ht => ?_, fun tid htid => hnone _ fun t ht => ?_,
    fun tid htid => hnone _ fun _ _ => htid, fun t ht => ?_, fun t ht u hu he => ?_⟩
  · obtain hf | ⟨hm, htid⟩ := hout _ ht
    · exact absurd hf hnf
    · have htid : b.tidAt t = tid := htid
      rw [← htid]
      exact hrel.tid2thread_found hwl hacc hm
  · have hpos := (toNat_of_mem_firstTids hlt (hperm.symm.subset
      (List.mem_append_left _ (List.mem_map_of_mem ht)))).1
    exact absurd hpos (Nat.lt_irrefl 0)
  · have hnd := hperm.nodup_iff.mp (nodup_firstTids hlt)
    exact absurd rfl ((List.nodup_append.mp hnd).2.2 _ (List.mem_map_of_mem ht) _ htid)
  · rw [← hl, ← hz] at ht
    rw [hrel.ctx_eq]
    exact hrel.tid2thread_found hwl hacc ht
  · rw [← hl, ← hz] at ht hu
    rw [hrel.ctx_eq] at he
    exact hacc.tid_inj ht hu he

/-- A failed creation uses up tid 2 and a reaped thread had tid 3; the thread that waited for it got
tid 1, and the running one tid 4. -/
theorem tid2thread_exact_four : ∃ s, Reachable rrLwp s ∧
    tid2thread 1 s = some 16 ∧ tid2thread 2 s = some 0 ∧ tid2thread 3 s = some 0 ∧
      tid2thread 4 s = some 48 := by
  obtain ⟨s, hs, hx, hissued, henrolled, hwasted, hfreed⟩ : ∃ s, replay rrSchedulers (fun _ _ => true)
      [(.granting 16 8, .create 1 2), (⟨some 32, none, some 4096, some 4096, none, true⟩, .create 1 2),
        (.granting 32 8, .create 1 2), (.granting 48 8, .start), (.granting 64 8, .wait true),
        (.granting 64 8, .exit 7), (.granting 64 24, .yield)]
      (State.zeroed rrZero) = some s ∧ s.exit = none ∧ issued s.log = 4 ∧
      enrolled s.log = [(4, 48), (3, 32), (1, 16)] ∧ wasted s.log = [2] ∧
      tidsOf Event.freedTid s.log = [3] := ⟨_, rfl, rfl, rfl, rfl, rfl, rfl⟩
  have hr : Reachable rrLwp s := replay_reachable hs rrZero_initial
  obtain ⟨hfound, -, -, hw, hf, -⟩ := tid2thread_exact (fun i => i.elim) hr hx (by
    rw [hissued]
    exact length_lt_addresses (L := [1, 2, 3, 4]) (by decide) (by decide))
  rw [henrolled, hfreed] at hfound
  rw [hwasted] at hw
  rw [hfreed] at hf
  exact ⟨s, hr, hfound 1 16 (by decide) (by decide), hw 2 (by decide), hf 3 (by decide),
    hfound 4 48 (by decide) (by decide)⟩

end Csc453.Lwp
