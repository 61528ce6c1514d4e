import Csc453.Lib.QueueIn
import Csc453.Lwp.Refine

/-!
# Csc453.Lwp.Queues — the three queues in the variables of lwp.c

The live and the waiting queue are threaded through two fields of one struct, the zombie queue
through wrapper nodes of its own; each has a head and a tail of its own.  Here they share one
`Store`, so that a call on one queue can in principle reach another.  `queueCalls` are all sequences
of insertions and removals; `contents` is the list each queue should hold after a history, by append
and erase.  One call keeps pointers and lists together (`Listed.put`, `Listed.drop`), which gives
`queues_fifo`; `Backs` ties the store to the queues of the library's state.
-/

namespace Csc453.Lwp

open Function LinkedQueue Transition

/-- The two pointers of a context that are reserved for the library. -/
structure LibLinks where
  libOne : Ptr
  libTwo : Ptr

namespace LibLinks

def liveNext (c : LibLinks) : Ptr := c.libOne

def waitNext (c : LibLinks) : Ptr := c.libTwo

end LibLinks

/-- `struct zombie`. -/
structure Zombie where
  zombieThread : Ptr
  next : Ptr

/-- The contexts, the wrappers with those that are allocated, and the static variables of the
queues. -/
structure Store where
  ctx : Ptr → LibLinks
  zombie : Ptr → Zombie
  wrappers : Ptr → Bool
  liveHead : Ptr
  liveTail : Ptr
  waitingHead : Ptr
  waitingTail : Ptr
  zombiesHead : Ptr
  zombiesTail : Ptr
  exit : Option Exit

/-- A field read after an update of its record. -/
theorem field_update {C : Type} (get : C → Ptr) (m : Ptr → C) (t : Ptr) (c : C) :
    (fun x => get (update m t c x)) = update (fun x => get (m x)) t (get c) :=
  comp_update get m t c

/-- A field read after an update of another field. -/
theorem field_kept {C α : Type} (get : C → α) (m : Ptr → C) (t : Ptr) {c : C} (h : get c = get (m t)) :
    (fun x => get (update m t c x)) = fun x => get (m x) := by
  ext x
  by_cases hx : x = t
  · rw [hx, update_self, h]
  · rw [update_of_ne hx]

inductive QueueName
  | live
  | waiting
  | zombies
  deriving DecidableEq

namespace QueueName

/-- The variables of each queue. -/
def vars : QueueName → QueueIn Store Ptr
  | .live =>
    { view s := ⟨fun t => (s.ctx t).liveNext, s.liveHead, s.liveTail⟩
      setNext t v s := { s with ctx := update s.ctx t { s.ctx t with libOne := v } }
      setHead v s := { s with liveHead := v }
      setTail v s := { s with liveTail := v }
      view_setNext _ _ _ := by simp [field_update, LibLinks.liveNext]
      view_setHead _ _ := rfl
      view_setTail _ _ := rfl }
  | .waiting =>
    { view s := ⟨fun t => (s.ctx t).waitNext, s.waitingHead, s.waitingTail⟩
      setNext t v s := { s with ctx := update s.ctx t { s.ctx t with libTwo := v } }
      setHead v s := { s with waitingHead := v }
      setTail v s := { s with waitingTail := v }
      view_setNext _ _ _ := by simp [field_update, LibLinks.waitNext]
      view_setHead _ _ := rfl
      view_setTail _ _ := rfl }
  | .zombies =>
    { view s := ⟨fun z => (s.zombie z).next, s.zombiesHead, s.zombiesTail⟩
      setNext z v s := { s with zombie := update s.zombie z { s.zombie z with next := v } }
      setHead v s := { s with zombiesHead := v }
      setTail v s := { s with zombiesTail := v }
      view_setNext _ _ _ := by simp [field_update]
      view_setHead _ _ := rfl
      view_setTail _ _ := rfl }

/-- The thread a node stands for: itself, or the one in the wrapper. -/
def thread (s : Store) : QueueName → Ptr → Ptr
  | .zombies, z => (s.zombie z).zombieThread
  | _, t => t

end QueueName

/-! ### The functions -/

namespace Store

/-- `insert_live` and `insert_waiting`. -/
def insertThread (q : QueueName) (new : Ptr) (s : Store) : Store :=
  if new = 0 then s else q.vars.insert 0 new s

/-- `remove_live`, `remove_waiting` and `remove_zombie`. -/
def removeThread (q : QueueName) (victim : Ptr) (s : Store) : Option Store :=
  if victim = 0 then some s
  else q.vars.remove 0 (fun curr => q.thread s curr = victim) addresses s

def insertLive : Ptr → Store → Store := insertThread .live

def removeLive : Ptr → Store → Option Store := removeThread .live

def insertWaiting : Ptr → Store → Store := insertThread .waiting

def removeWaiting : Ptr → Store → Option Store := removeThread .waiting

/-- A new wrapper: its thread, and no link yet. -/
def wrap (newZombie new : Ptr) (s : Store) : Store :=
  { s with wrappers := update s.wrappers newZombie true, zombie := update s.zombie newZombie ⟨new, 0⟩ }

/-- `malloc` is what `malloc` returned; without memory the process exits. -/
def insertZombie (malloc : Option Ptr) (new : Ptr) (s : Store) : Store :=
  if new = 0 then s
  else
    match malloc with
    | none => { s with exit := some .failed }
    | some newZombie =>
      let s₁ := s.wrap newZombie new
      if s₁.zombiesHead = 0 then { s₁ with zombiesHead := newZombie, zombiesTail := newZombie }
      else
        let s₂ := QueueName.zombies.vars.setNext s₁.zombiesTail newZombie s₁
        { QueueName.zombies.vars.setNext newZombie 0 s₂ with zombiesTail := newZombie }

def findZombie (curr : Ptr) (s : Store) : Option Ptr :=
  (QueueName.zombies.vars.view s).find 0 (fun z => (s.zombie z).zombieThread = curr) addresses

def removeZombie : Ptr → Store → Option Store := removeThread .zombies

/-- What `reap_and_remove` does to the queue: find the wrapper, take it out and free it. -/
def reap (deadThread : Ptr) (s : Store) : Option Store :=
  if deadThread = 0 then some s
  else do
    let zombieNode ← s.findZombie deadThread
    if zombieNode = 0 then some s
    else
      let s ← s.removeZombie deadThread
      some { s with wrappers := update s.wrappers zombieNode false }

end Store

/-! ### The variables do not meet -/

namespace QueueName

/-- The assignments to one queue's variables do not reach another queue. -/
theorem leaves_view {q r : QueueName} (h : q ≠ r) : r.vars.Leaves q.vars.view := by
  have hone : ∀ (t v : Ptr) (s : Store),
      QueueName.waiting.vars.view (QueueName.live.vars.setNext t v s) = QueueName.waiting.vars.view s := by
    intro t v s
    exact congrArg (Queue.mk · s.waitingHead s.waitingTail) (field_kept LibLinks.waitNext s.ctx t rfl)
  have htwo : ∀ (t v : Ptr) (s : Store),
      QueueName.live.vars.view (QueueName.waiting.vars.setNext t v s) = QueueName.live.vars.view s := by
    intro t v s
    exact congrArg (Queue.mk · s.liveHead s.liveTail) (field_kept LibLinks.liveNext s.ctx t rfl)
  cases q <;> cases r
  · exact absurd rfl h
  · exact ⟨htwo, fun _ _ => rfl, fun _ _ => rfl⟩
  · exact ⟨fun _ _ _ => rfl, fun _ _ => rfl, fun _ _ => rfl⟩
  · exact ⟨hone, fun _ _ => rfl, fun _ _ => rfl⟩
  · exact absurd rfl h
  · exact ⟨fun _ _ _ => rfl, fun _ _ => rfl, fun _ _ => rfl⟩
  · exact ⟨fun _ _ _ => rfl, fun _ _ => rfl, fun _ _ => rfl⟩
  · exact ⟨fun _ _ _ => rfl, fun _ _ => rfl, fun _ _ => rfl⟩
  · exact absurd rfl h

/-- They do not change what thread a node stands for. -/
theorem leaves_thread (q r : QueueName) : r.vars.Leaves fun s => q.thread s := by
  have hzombie : ∀ (z v : Ptr) (s : Store),
      QueueName.zombies.thread (QueueName.zombies.vars.setNext z v s) = QueueName.zombies.thread s := by
    intro z v s
    exact field_kept Zombie.zombieThread s.zombie z rfl
  cases q <;> cases r
  case zombies.zombies => exact ⟨hzombie, fun _ _ => rfl, fun _ _ => rfl⟩
  all_goals exact ⟨fun _ _ _ => rfl, fun _ _ => rfl, fun _ _ => rfl⟩

theorem leaves_wrappers (r : QueueName) : r.vars.Leaves Store.wrappers := by
  cases r <;> exact ⟨fun _ _ _ => rfl, fun _ _ => rfl, fun _ _ => rfl⟩

theorem leaves_exit (r : QueueName) : r.vars.Leaves Store.exit := by
  cases r <;> exact ⟨fun _ _ _ => rfl, fun _ _ => rfl, fun _ _ => rfl⟩

end QueueName

/-- `insert_zombie` fills the wrapper first and then inserts it like the other two queues; in the
empty queue it does not clear the link a second time. -/
theorem Store.insertZombie_some {w new : Ptr} {s : Store} (h0 : new ≠ 0) :
    s.insertZombie (some w) new = QueueName.zombies.vars.insert 0 w (s.wrap w new) := by
  unfold insertZombie QueueIn.insert
  rw [if_neg h0]
  refine if_congr Iff.rfl ?_ rfl
  have hagain : update (s.wrap w new).zombie w { (s.wrap w new).zombie w with next := 0 } =
      (s.wrap w new).zombie := by
    show update (update s.zombie w ⟨new, 0⟩) w { update s.zombie w ⟨new, 0⟩ w with next := 0 } = _
    rw [update_self, update_idem]
    rfl
  show _ = { s.wrap w new with
    zombie := update (s.wrap w new).zombie w { (s.wrap w new).zombie w with next := 0 },
    zombiesHead := w, zombiesTail := w }
  rw [hagain]

/-! ### Pointers and lists -/

/-- The nodes `nodes` hold the threads `L` of the queue `q`. -/
structure Listed (s : Store) (q : QueueName) (nodes L : List Ptr) : Prop where
  rep : (q.vars.view s).Rep 0 nodes
  threads : nodes.map (q.thread s) = L
  nodup : L.Nodup
  nonnull : 0 ∉ L
  allocated : q = .zombies → ∀ z ∈ nodes, s.wrappers z = true

namespace Listed

variable {s s' : Store} {q r : QueueName} {nodes L : List Ptr} {t : Ptr}

/-- A store that is the same to the queue. -/
theorem congr (h : Listed s q nodes L) (hview : q.vars.view s' = q.vars.view s)
    (hthread : q.thread s' = q.thread s) (hw : ∀ z ∈ nodes, s.wrappers z = true → s'.wrappers z = true) :
    Listed s' q nodes L where
  rep := hview ▸ h.rep
  threads := hthread ▸ h.threads
  nodup := h.nodup
  nonnull := h.nonnull
  allocated hq z hz := hw z hz (h.allocated hq z hz)

/-- The wrapper that is filled is in no queue. -/
theorem wrap (h : Listed s q nodes L) {w new : Ptr} (hw : s.wrappers w = false) :
    Listed (s.wrap w new) q nodes L := by
  have hadd : ∀ z, s.wrappers z = true → (s.wrap w new).wrappers z = true := by
    intro z hz
    have hne : z ≠ w := fun he => by simp [he, hw] at hz
    exact (update_of_ne hne ..).trans hz
  cases q
  case zombies =>
    have hout : ∀ z ∈ nodes, (s.wrap w new).zombie z = s.zombie z := by
      intro z hz
      have hne : z ≠ w := fun he => by simpa [he ▸ hw] using h.allocated rfl z hz
      exact update_of_ne hne ..
    refine ⟨⟨h.rep.seg.congr fun z hz => ?_, h.rep.tail_eq, h.rep.nodup⟩, ?_, h.nodup, h.nonnull, ?_⟩
    · exact congrArg Zombie.next (hout z hz)
    · rw [← h.threads]
      exact List.map_congr_left fun z hz => congrArg Zombie.zombieThread (hout z hz)
    · exact fun _ z hz => hadd z (h.allocated rfl z hz)
  all_goals exact h.congr rfl rfl fun z _ => hadd z

/-- One more node at the end. -/
theorem put (h : Listed s q nodes L) {node : Ptr} (hnode : node ∉ nodes) (hnode0 : node ≠ 0)
    (hw : q = .zombies → s.wrappers node = true) (ht : q.thread s node = t) (htL : t ∉ L) (ht0 : t ≠ 0) :
    Listed (q.vars.insert 0 node s) q (nodes ++ [node]) (L ++ [t]) where
  rep := by
    rw [QueueIn.view_insert]
    exact h.rep.insert hnode hnode0
  threads := by
    have hthread : q.thread (q.vars.insert 0 node s) = q.thread s := (q.leaves_thread q).insert node s
    rw [hthread, List.map_append, h.threads, List.map_singleton, ht]
  nodup := by
    rw [← List.concat_eq_append]
    exact (List.nodup_concat L t).mpr ⟨htL, h.nodup⟩
  nonnull := by
    intro h0
    rcases List.mem_append.mp h0 with h0 | h0
    · exact h.nonnull h0
    · exact ht0 (List.mem_singleton.mp h0).symm
  allocated hq z hz := by
    rw [q.leaves_wrappers.insert]
    rcases List.mem_append.mp hz with hz | hz
    · exact h.allocated hq z hz
    · rw [List.mem_singleton.mp hz]
      exact hw hq

/-- The first node of the thread goes; if there is none, nothing happens. -/
theorem drop (h : Listed s q nodes L) (t : Ptr) :
    ∃ s', Store.removeThread q t s = some s' ∧
      Listed s' q (nodes.eraseP fun z => q.thread s z = t) (L.erase t) ∧ (t ∉ L → s' = s) := by
  have hlen := Rel.length_lt h.rep
  by_cases ht : t ∈ L
  · have ht0 : t ≠ 0 := fun he => h.nonnull (he ▸ ht)
    obtain ⟨q', hq', hrep⟩ := h.rep.remove (p := fun z => decide (q.thread s z = t)) hlen
    rw [← QueueIn.view_remove] at hq'
    obtain ⟨s', hs', rfl⟩ := Option.map_eq_some_iff.mp hq'
    have hthread : q.thread s' = q.thread s := (q.leaves_thread q).remove hs'
    refine ⟨s', (if_neg ht0).trans hs', ⟨hrep, ?_, h.nodup.erase t, ?_, ?_⟩, fun hno => absurd ht hno⟩
    · rw [hthread, Queue.map_eraseP, h.threads]
    · exact fun h0 => h.nonnull (List.mem_of_mem_erase h0)
    · intro hq z hz
      rw [q.leaves_wrappers.remove hs']
      exact h.allocated hq z (List.mem_of_mem_eraseP hz)
  · have hno : ∀ z ∈ nodes, ¬ decide (q.thread s z = t) = true := by
      intro z hz hzt
      rw [← h.threads] at ht
      exact ht (of_decide_eq_true hzt ▸ List.mem_map_of_mem hz)
    refine ⟨s, ?_, ?_, fun _ => rfl⟩
    · unfold Store.removeThread
      split_ifs
      · rfl
      · exact QueueIn.remove_absent h.rep hno hlen
    · rw [List.erase_of_not_mem ht, List.eraseP_of_forall_not hno]
      exact h

end Listed

/-! ### Sequences of calls -/

/-- A call; `insertZombie` comes with what `malloc` returned. -/
inductive QueueCall
  | insertLive (new : Ptr)
  | removeLive (victim : Ptr)
  | insertWaiting (new : Ptr)
  | removeWaiting (victim : Ptr)
  | insertZombie (malloc : Option Ptr) (new : Ptr)
  | removeZombie (victim : Ptr)
  | reap (deadThread : Ptr)

namespace QueueCall

def exec : QueueCall → Store → Option Store
  | .insertLive new, s => some (s.insertLive new)
  | .removeLive victim, s => s.removeLive victim
  | .insertWaiting new, s => some (s.insertWaiting new)
  | .removeWaiting victim, s => s.removeWaiting victim
  | .insertZombie malloc new, s => some (s.insertZombie malloc new)
  | .removeZombie victim, s => s.removeZombie victim
  | .reap deadThread, s => s.reap deadThread

/-- The queue a call is about. -/
def target : QueueCall → QueueName
  | .insertLive _ => .live
  | .removeLive _ => .live
  | .insertWaiting _ => .waiting
  | .removeWaiting _ => .waiting
  | _ => .zombies

/-- What a call means on the list of its queue: append or erase. -/
def onList : QueueCall → List Ptr → List Ptr
  | .insertLive new, L => if new = 0 then L else L ++ [new]
  | .insertWaiting new, L => if new = 0 then L else L ++ [new]
  | .insertZombie malloc new, L => if new = 0 ∨ malloc = none then L else L ++ [new]
  | .removeLive victim, L => L.erase victim
  | .removeWaiting victim, L => L.erase victim
  | .removeZombie victim, L => L.erase victim
  | .reap deadThread, L => L.erase deadThread

/-- A call changes the list of its queue only. -/
def onLists (c : QueueCall) (l : QueueName → List Ptr) : QueueName → List Ptr :=
  update l c.target (c.onList (l c.target))

/-- The thread that is inserted is not in the list. -/
def Fresh (L : List Ptr) : QueueCall → Prop
  | .insertLive new => new ∉ L
  | .insertWaiting new => new ∉ L
  | .insertZombie _ new => new ∉ L
  | _ => True

/-- `NULL` is inserted, or a thread removed that is not in the list. -/
def Idle (L : List Ptr) : QueueCall → Prop
  | .insertLive new => new = 0
  | .insertWaiting new => new = 0
  | .insertZombie _ new => new = 0
  | .removeLive victim => victim ∉ L
  | .removeWaiting victim => victim ∉ L
  | .removeZombie victim => victim ∉ L
  | .reap deadThread => deadThread ∉ L

/-- `malloc` returns memory that is not in use. -/
def MallocOk (s : Store) : QueueCall → Prop
  | .insertZombie (some w) _ => w ≠ 0 ∧ s.wrappers w = false
  | _ => True

end QueueCall

/-- All sequences of calls, from empty queues in memory that may hold anything. -/
def queueCalls : System Store QueueCall where
  init s := s.liveHead = 0 ∧ s.liveTail = 0 ∧ s.waitingHead = 0 ∧ s.waitingTail = 0 ∧
    s.zombiesHead = 0 ∧ s.zombiesTail = 0 ∧ (∀ w, s.wrappers w = false) ∧ s.exit = none
  step s c s' := s.exit = none ∧ c.MallocOk s ∧ c.exec s = some s'

abbrev QueueHistory := List (Transition.Event Store QueueCall)

/-- The list each queue should hold after the calls of a history. -/
def contents (h : QueueHistory) : QueueName → List Ptr :=
  h.foldr (fun e l => e.label.onLists l) fun _ => []

/-- No thread was inserted into a queue it was in. -/
def FreshInserts (h : QueueHistory) : Prop :=
  Throughout (fun earlier e => e.label.Fresh (contents earlier e.label.target)) h

/-- The queue `q` is the list `L`: its nodes read from head to tail, and their threads are those of
`L`, without duplicates. -/
structure IsFifo (s : Store) (q : QueueName) (L : List Ptr) : Prop where
  nodes : ∃ nodes, (q.vars.view s).ReadsAs 0 nodes ∧ nodes.map (q.thread s) = L
  nodup : L.Nodup

theorem Listed.isFifo {s : Store} {q : QueueName} {nodes L : List Ptr} (h : Listed s q nodes L) :
    IsFifo s q L :=
  ⟨⟨nodes, h.rep.readsAs, h.threads⟩, h.nodup⟩

/-! ### One call -/

/-- `s'` is `s` outside the variables of the queue `r`. -/
structure Outside (r : QueueName) (s s' : Store) : Prop where
  view : ∀ q, q ≠ r → q.vars.view s' = q.vars.view s
  thread : ∀ q, q ≠ r → q.thread s' = q.thread s
  wrappers : r ≠ .zombies → s'.wrappers = s.wrappers

namespace Outside

variable {s s' s'' : Store} {q r : QueueName}

theorem refl (r : QueueName) (s : Store) : Outside r s s := ⟨fun _ _ => rfl, fun _ _ => rfl, fun _ => rfl⟩

theorem trans (h : Outside r s s') (h' : Outside r s' s'') : Outside r s s'' where
  view q hq := (h'.view q hq).trans (h.view q hq)
  thread q hq := (h'.thread q hq).trans (h.thread q hq)
  wrappers hr := (h'.wrappers hr).trans (h.wrappers hr)

theorem insert (node : Ptr) (s : Store) : Outside r s (r.vars.insert 0 node s) where
  view _ hq := (QueueName.leaves_view hq).insert node s
  thread q _ := (q.leaves_thread r).insert node s
  wrappers _ := r.leaves_wrappers.insert node s

theorem removeThread {t : Ptr} (h : s.removeThread r t = some s') : Outside r s s' := by
  unfold Store.removeThread at h
  split_ifs at h
  · rw [← Option.some.inj h]
    exact .refl r s
  · exact ⟨fun q hq => (QueueName.leaves_view hq).remove h, fun q _ => (q.leaves_thread r).remove h,
      fun _ => r.leaves_wrappers.remove h⟩

theorem insertThread (t : Ptr) (s : Store) : Outside r s (s.insertThread r t) := by
  unfold Store.insertThread
  split_ifs
  · exact .refl r s
  · exact .insert t s

theorem zombies (hq : ∀ q : QueueName, q ≠ .zombies →
    q.vars.view s' = q.vars.view s ∧ q.thread s' = q.thread s) :
    Outside .zombies s s' :=
  ⟨fun q h => (hq q h).1, fun q h => (hq q h).2, fun h => absurd rfl h⟩

theorem insertZombie (malloc : Option Ptr) (t : Ptr) (s : Store) :
    Outside .zombies s (s.insertZombie malloc t) := by
  by_cases h0 : t = 0
  · rw [show s.insertZombie malloc t = s from if_pos h0]
    exact .refl _ s
  · rcases malloc with _ | w
    · rw [show s.insertZombie none t = { s with exit := some .failed } from if_neg h0]
      exact Outside.zombies fun q _ => by cases q <;> exact ⟨rfl, rfl⟩
    · rw [Store.insertZombie_some h0]
      refine .trans (Outside.zombies fun q hq => ?_) (.insert w _)
      cases q
      · exact ⟨rfl, rfl⟩
      · exact ⟨rfl, rfl⟩
      · exact absurd rfl hq

theorem freeWrapper (z : Ptr) (s : Store) :
    Outside .zombies s { s with wrappers := update s.wrappers z false } :=
  Outside.zombies fun q _ => by cases q <;> exact ⟨rfl, rfl⟩

end Outside

/-! ### The queues of the library's state -/

section Library

variable {ι M : Type}

namespace State

def queue (t : State ι M) : QueueName → Queue Ptr
  | .live => t.live
  | .waiting => t.waiting
  | .zombies => t.zombies

def setQueue (t : State ι M) (x : Queue Ptr) : QueueName → State ι M
  | .live => { t with live := x }
  | .waiting => { t with waiting := x }
  | .zombies => { t with zombies := x }

end State

/-- Two results of functions that may not return, related step by step. -/
theorem rel_bind {α β γ δ : Type*} {R : α → β → Prop} {R' : γ → δ → Prop} {x : Option α} {y : Option β}
    {f : α → Option γ} {g : β → Option δ} (h : Option.Rel R x y)
    (hfg : ∀ a b, R a b → Option.Rel R' (f a) (g b)) : Option.Rel R' (x.bind f) (y.bind g) := by
  cases h with
  | some hab => exact hfg _ _ hab
  | none => exact .none

/-- The store holds the queues of the library's state `t`. -/
structure Backs (s : Store) (t : State ι M) : Prop where
  view : ∀ q : QueueName, q.vars.view s = t.queue q
  thread : QueueName.zombies.thread s = t.zombieThread
  wrappers : s.wrappers = t.wrappers
  exit : s.exit = t.exit

namespace Backs

variable {s s' : Store} {t : State ι M} {q : QueueName} {p : Ptr → Bool}

/-- The new queue of a store that changed one. -/
theorem setQueue (h : Backs s t) {x : Queue Ptr} (hx : q.vars.view s' = x) (ho : Outside q s s')
    (hthread : QueueName.zombies.thread s' = QueueName.zombies.thread s)
    (hw : s'.wrappers = s.wrappers) (he : s'.exit = s.exit) : Backs s' (t.setQueue x q) := by
  refine ⟨fun r => ?_, ?_, ?_, ?_⟩
  · by_cases hr : r = q
    · rw [hr, hx]
      cases q <;> rfl
    · rw [ho.view r hr, h.view r]
      cases r <;> cases q <;> first | rfl | exact absurd rfl hr
  · rw [hthread, h.thread]
    cases q <;> rfl
  · rw [hw, h.wrappers]
    cases q <;> rfl
  · rw [he, h.exit]
    cases q <;> rfl

theorem insert (h : Backs s t) (node : Ptr) (q : QueueName) :
    Backs (q.vars.insert 0 node s) (t.setQueue ((t.queue q).insert 0 node) q) := by
  refine h.setQueue ?_ (.insert node s) ((QueueName.zombies.leaves_thread q).insert node s)
    (q.leaves_wrappers.insert node s) (q.leaves_exit.insert node s)
  rw [QueueIn.view_insert, h.view]

theorem remove (h : Backs s t) (q : QueueName) :
    Option.Rel Backs (q.vars.remove 0 p addresses s)
      (((t.queue q).remove 0 p addresses).map (t.setQueue · q)) := by
  rw [← h.view, ← QueueIn.view_remove]
  rcases hs : q.vars.remove 0 p addresses s with _ | s'
  · exact .none
  · refine .some (h.setQueue rfl ⟨fun r hr => ?_, fun r _ => ?_, fun _ => ?_⟩ ?_ ?_ ?_)
    · exact (QueueName.leaves_view hr).remove hs
    · exact (r.leaves_thread q).remove hs
    · exact q.leaves_wrappers.remove hs
    · exact (QueueName.zombies.leaves_thread q).remove hs
    · exact q.leaves_wrappers.remove hs
    · exact q.leaves_exit.remove hs

theorem insertThread (h : Backs s t) (q : QueueName) (new : Ptr) : Backs (s.insertThread q new)
    (if new = 0 then t else t.setQueue ((t.queue q).insert 0 new) q) := by
  unfold Store.insertThread
  split_ifs
  · exact h
  · exact h.insert new q

theorem insertLive (h : Backs s t) (new : Ptr) : Backs (s.insertLive new) (insertLive new t) :=
  h.insertThread .live new

theorem insertWaiting (h : Backs s t) (new : Ptr) : Backs (s.insertWaiting new) (insertWaiting new t) :=
  h.insertThread .waiting new

theorem insertZombie (h : Backs s t) (e : Env) (new : Ptr) :
    Backs (s.insertZombie e.wrapper new) (insertZombie e new t) := by
  unfold Lwp.insertZombie
  by_cases h0 : new = 0
  · rw [if_pos h0, show s.insertZombie e.wrapper new = s from if_pos h0]
    exact h
  rw [if_neg h0]
  rcases e.wrapper with _ | w
  · rw [show s.insertZombie none new = { s with exit := some .failed } from if_neg h0]
    refine ⟨fun q => ?_, h.thread, h.wrappers, rfl⟩
    cases q
    · exact h.view .live
    · exact h.view .waiting
    · exact h.view .zombies
  rw [Store.insertZombie_some h0]
  have hwrap : QueueName.zombies.vars.view (s.wrap w new) =
      { t.zombies with next := update t.zombies.next w 0 } := by
    rw [show t.zombies = _ from (h.view .zombies).symm]
    exact congrArg (Queue.mk · s.zombiesHead s.zombiesTail) (field_update Zombie.next s.zombie w ⟨new, 0⟩)
  have hout : Outside .zombies s (QueueName.zombies.vars.insert 0 w (s.wrap w new)) := by
    rw [← Store.insertZombie_some h0]
    exact .insertZombie (some w) new s
  refine ⟨fun q => ?_, ?_, ?_, ?_⟩
  · cases q
    · exact (hout.view .live nofun).trans (h.view .live)
    · exact (hout.view .waiting nofun).trans (h.view .waiting)
    · rw [QueueIn.view_insert, hwrap, Queue.insert_update]
      rfl
  · rw [(QueueName.zombies.leaves_thread .zombies).insert]
    dsimp only
    rw [← h.thread]
    exact field_update Zombie.zombieThread s.zombie w ⟨new, 0⟩
  · rw [QueueName.zombies.leaves_wrappers.insert]
    exact congrArg (update · w true) h.wrappers
  · rw [QueueName.zombies.leaves_exit.insert]
    exact h.exit

theorem removeThread (h : Backs s t) (q : QueueName) (victim : Ptr) :
    Option.Rel Backs (s.removeThread q victim)
      (if victim = 0 then some t
      else ((t.queue q).remove 0 (fun z => q.thread s z = victim) addresses).map (t.setQueue · q)) := by
  unfold Store.removeThread
  split_ifs
  · exact .some h
  · exact h.remove q

theorem removeLive (h : Backs s t) (victim : Ptr) :
    Option.Rel Backs (s.removeLive victim) (removeLive victim t) :=
  h.removeThread .live victim

theorem removeWaiting (h : Backs s t) (victim : Ptr) :
    Option.Rel Backs (s.removeWaiting victim) (removeWaiting victim t) :=
  h.removeThread .waiting victim

theorem removeZombie (h : Backs s t) (victim : Ptr) :
    Option.Rel Backs (s.removeZombie victim) (removeZombie victim t) := by
  have hrem := h.removeThread .zombies victim
  rw [h.thread] at hrem
  exact hrem

theorem findZombie (h : Backs s t) (curr : Ptr) : s.findZombie curr = findZombie curr t := by
  unfold Store.findZombie Lwp.findZombie
  rw [h.view, ← h.thread]
  rfl

/-- `reap_and_remove`, if `munmap` succeeds. -/
theorem reap (h : Backs s t) {e : Env} (he : e.munmap = true) (deadThread : Ptr) (status : Bool) :
    Option.Rel (fun s' r => Backs s' r.2.2) (s.reap deadThread) (reapAndRemove e deadThread status t) := by
  unfold Store.reap reapAndRemove
  by_cases h0 : deadThread = 0
  · rw [if_pos h0, if_pos h0]
    exact .some h
  rw [if_neg h0, if_neg h0, h.findZombie]
  rcases Lwp.findZombie deadThread t with _ | z
  · exact .none
  simp only [Option.bind_eq_bind, Option.bind_some]
  by_cases hz : z = 0
  · rw [if_pos hz, if_pos hz]
    exact .some h
  rw [if_neg hz, if_neg hz]
  refine rel_bind (h.removeZombie deadThread) fun s₁ t₁ h₁ => ?_
  rw [if_neg (by simp [he])]
  refine .some ⟨fun q => ?_, h₁.thread, congrArg (update · z false) h₁.wrappers, ?_⟩
  · cases q
    · exact h₁.view .live
    · exact h₁.view .waiting
    · exact h₁.view .zombies
  · exact h₁.exit.trans (Core.discard_exit t₁.toCore deadThread).symm

end Backs

end Library

namespace Listed

variable {s s' : Store} {q r : QueueName} {nodes L : List Ptr} {t : Ptr}

/-- A queue is not touched by calls on another one. -/
theorem outside (h : Listed s q nodes L) (ho : Outside r s s') (hq : q ≠ r) : Listed s' q nodes L := by
  refine ⟨?_, ?_, h.nodup, h.nonnull, fun hz z hzn => ?_⟩
  · rw [ho.view q hq]
    exact h.rep
  · rw [ho.thread q hq]
    exact h.threads
  · rw [ho.wrappers fun hr => hq (hz.trans hr.symm)]
    exact h.allocated hz z hzn

theorem insertThread (h : Listed s q nodes L) (hq : q ≠ .zombies) (ht : t ∉ L) :
    ∃ nodes', Listed (s.insertThread q t) q nodes' (if t = 0 then L else L ++ [t]) := by
  -- the nodes are the threads
  have hself : q.thread s = id := by
    cases q
    · rfl
    · rfl
    · exact absurd rfl hq
  have hL : nodes = L := by
    rw [← h.threads, hself, List.map_id]
  unfold Store.insertThread
  by_cases h0 : t = 0
  · rw [if_pos h0, if_pos h0]
    exact ⟨nodes, h⟩
  · rw [if_neg h0, if_neg h0]
    exact ⟨_, h.put (hL ▸ ht) h0 (fun hz => absurd hz hq) (congrFun hself t) ht h0⟩

theorem insertZombie (h : Listed s .zombies nodes L) {malloc : Option Ptr}
    (hm : (QueueCall.insertZombie malloc t).MallocOk s) (ht : t ∉ L) :
    ∃ nodes', Listed (s.insertZombie malloc t) .zombies nodes'
      ((QueueCall.insertZombie malloc t).onList L) := by
  show ∃ nodes', Listed _ .zombies nodes' (if t = 0 ∨ malloc = none then L else L ++ [t])
  by_cases h0 : t = 0
  · rw [if_pos (Or.inl h0), show s.insertZombie malloc t = s from if_pos h0]
    exact ⟨nodes, h⟩
  · rcases malloc with _ | w
    · rw [if_pos (Or.inr rfl), show s.insertZombie none t = { s with exit := some .failed } from if_neg h0]
      exact ⟨nodes, h.congr rfl rfl fun _ _ hz => hz⟩
    · obtain ⟨hw0, hfree⟩ := hm
      have hout : w ∉ nodes := fun hw => by simp [h.allocated rfl w hw] at hfree
      rw [if_neg (not_or.mpr ⟨h0, nofun⟩), Store.insertZombie_some h0]
      have hthread : QueueName.zombies.thread (s.wrap w t) w = t := by
        show (update s.zombie w ⟨t, 0⟩ w).zombieThread = t
        rw [update_self]
      exact ⟨_, (h.wrap hfree).put hout hw0 (fun _ => update_self ..) hthread ht h0⟩

theorem reap (h : Listed s .zombies nodes L) (t : Ptr) :
    ∃ s' nodes', s.reap t = some s' ∧ Listed s' .zombies nodes' (L.erase t) ∧ Outside .zombies s s' ∧
      (t ∉ L → s' = s) := by
  by_cases ht : t ∈ L
  · have ht0 : t ≠ 0 := fun he => h.nonnull (he ▸ ht)
    obtain ⟨w, hfind, hw0, hout⟩ := h.rep.find_present (Rel.length_lt h.rep) (h.threads.symm ▸ ht)
    obtain ⟨s₁, hs₁, hlist, -⟩ := h.drop t
    refine ⟨{ s₁ with wrappers := update s₁.wrappers w false }, _, ?_, hlist.congr rfl rfl ?_,
      .trans (.removeThread hs₁) (.freeWrapper w s₁), fun hno => absurd ht hno⟩
    · have hz : s.findZombie t = some w := hfind
      unfold Store.reap Store.removeZombie
      rw [if_neg ht0, hz]
      show (if w = 0 then some s else _) = _
      rw [if_neg hw0, hs₁]
      rfl
    · intro z hz hzw
      exact (update_of_ne (fun he : z = w => hout (he ▸ hz)) ..).trans hzw
  · refine ⟨s, nodes, ?_, (List.erase_of_not_mem ht).symm ▸ h, .refl _ s, fun _ => rfl⟩
    unfold Store.reap
    by_cases h0 : t = 0
    · exact if_pos h0
    · have hz : s.findZombie t = some 0 := h.rep.find_absent (Rel.length_lt h.rep) (h.threads.symm ▸ ht)
      rw [if_neg h0, hz]
      rfl

end Listed

/-- What one call does to the queues that hold the lists `l`. -/
structure Answered (s : Store) (l : QueueName → List Ptr) (c : QueueCall) (s' : Store) : Prop where
  keeps : c.Fresh (l c.target) → ∃ nodes, Listed s' c.target nodes (c.onList (l c.target))
  outside : Outside c.target s s'
  idle : c.Idle (l c.target) → s' = s

/-- The queues hold the lists `l`. -/
def Store.Holds (s : Store) (l : QueueName → List Ptr) : Prop := ∀ q, ∃ nodes, Listed s q nodes (l q)

variable {s s' : Store} {l : QueueName → List Ptr} {c : QueueCall}

/-- Every call returns, whatever its thread. -/
theorem Store.Holds.answered (hs : s.Holds l) (hm : c.MallocOk s) :
    ∃ s', c.exec s = some s' ∧ Answered s l c s' := by
  obtain ⟨nodes, hL⟩ := hs c.target
  have hdrop := hL.drop
  cases c with
  | insertLive new =>
    exact ⟨_, rfl, fun ht => hL.insertThread nofun ht, .insertThread new s, fun h0 => if_pos h0⟩
  | insertWaiting new =>
    exact ⟨_, rfl, fun ht => hL.insertThread nofun ht, .insertThread new s, fun h0 => if_pos h0⟩
  | insertZombie malloc new =>
    exact ⟨_, rfl, fun ht => hL.insertZombie hm ht, .insertZombie malloc new s, fun h0 => if_pos h0⟩
  | removeLive victim =>
    obtain ⟨s', hs', hlist, hidle⟩ := hdrop victim
    exact ⟨s', hs', fun _ => ⟨_, hlist⟩, .removeThread hs', hidle⟩
  | removeWaiting victim =>
    obtain ⟨s', hs', hlist, hidle⟩ := hdrop victim
    exact ⟨s', hs', fun _ => ⟨_, hlist⟩, .removeThread hs', hidle⟩
  | removeZombie victim =>
    obtain ⟨s', hs', hlist, hidle⟩ := hdrop victim
    exact ⟨s', hs', fun _ => ⟨_, hlist⟩, .removeThread hs', hidle⟩
  | reap deadThread =>
    obtain ⟨s', nodes', hs', hlist, hout, hidle⟩ := hL.reap deadThread
    exact ⟨s', hs', fun _ => ⟨nodes', hlist⟩, hout, hidle⟩

theorem Answered.holds (ha : Answered s l c s') (hs : s.Holds l) (hf : c.Fresh (l c.target)) :
    s'.Holds (c.onLists l) := by
  intro q
  unfold QueueCall.onLists
  by_cases hq : q = c.target
  · rw [hq, update_self]
    exact ha.keeps hf
  · obtain ⟨nodes, hL⟩ := hs q
    rw [update_of_ne hq]
    exact ⟨nodes, hL.outside ha.outside hq⟩

/-! ### Runs -/

/-- Over every run the queues hold the lists that the calls have built. -/
theorem run_store_holds {h : QueueHistory} (hr : Run queueCalls h s) (hf : FreshInserts h) :
    s.Holds (contents h) := by
  induction hr with
  | @init s hi =>
    obtain ⟨h1, h2, h3, h4, h5, h6, -, -⟩ := hi
    intro q
    have hends : (q.vars.view s).head = 0 ∧ (q.vars.view s).tail = 0 := by
      cases q
      · exact ⟨h1, h2⟩
      · exact ⟨h3, h4⟩
      · exact ⟨h5, h6⟩
    exact ⟨[], ⟨hends.1, hends.2, List.nodup_nil⟩, rfl, List.nodup_nil, List.not_mem_nil,
      fun _ _ hz => absurd hz List.not_mem_nil⟩
  | step hr hstep ih =>
    obtain ⟨-, hm, hs'⟩ := hstep
    have hold := ih hf.2
    obtain ⟨s₁, hs₁, ha⟩ := hold.answered hm
    obtain rfl := Option.some.inj (hs₁.symm.trans hs')
    exact ha.holds hold hf.1

/-- **The three queues are FIFO lists.**  After every sequence of calls each queue is the list that
append and erase have built; every further call returns, changes its own queue only, keeps all three
lists, and does nothing if it inserts `NULL` or removes a thread that is not there. -/
theorem queues_fifo {h : QueueHistory} (hr : Run queueCalls h s) (hf : FreshInserts h) :
    (∀ q, IsFifo s q (contents h q)) ∧
    ∀ c : QueueCall, c.MallocOk s → ∃ s', c.exec s = some s' ∧
      (c.Fresh (contents h c.target) → ∀ q, IsFifo s' q (c.onLists (contents h) q)) ∧
      Outside c.target s s' ∧ (c.Idle (contents h c.target) → s' = s) := by
  have hs := run_store_holds hr hf
  refine ⟨fun q => (hs q).choose_spec.isFifo, fun c hm => ?_⟩
  obtain ⟨s', hs', ha⟩ := hs.answered hm
  exact ⟨s', hs', fun hc q => (ha.holds hs hc q).choose_spec.isFifo, ha.outside, ha.idle⟩

/-- Two threads become live, the first one waits and exits. -/
def fiveCalls : QueueHistory :=
  let s₀ : Store := ⟨fun _ => ⟨0, 0⟩, fun _ => ⟨0, 0⟩, fun _ => false, 0, 0, 0, 0, 0, 0, none⟩
  let s₁ := s₀.insertLive 1
  let s₂ := s₁.insertLive 2
  let s₃ := s₂.insertWaiting 1
  let s₄ := s₃.insertZombie (some 16) 1
  [⟨s₄, .removeLive 1, (s₄.removeLive 1).getD s₄⟩, ⟨s₃, .insertZombie (some 16) 1, s₄⟩,
    ⟨s₂, .insertWaiting 1, s₃⟩, ⟨s₁, .insertLive 2, s₂⟩, ⟨s₀, .insertLive 1, s₁⟩]

theorem fiveCalls_run : ∃ s, Run queueCalls fiveCalls s := by
  refine ⟨_, .step (.step (.step (.step (.step (.init ?_) ?_) ?_) ?_) ?_) ?_⟩
  · exact ⟨rfl, rfl, rfl, rfl, rfl, rfl, fun _ => rfl, rfl⟩
  · exact ⟨rfl, trivial, rfl⟩
  · exact ⟨rfl, trivial, rfl⟩
  · exact ⟨rfl, trivial, rfl⟩
  · exact ⟨rfl, ⟨by decide, rfl⟩, rfl⟩
  · exact ⟨rfl, trivial, rfl⟩

theorem fiveCalls_fresh : FreshInserts fiveCalls := by
  refine ⟨trivial, ?_, ?_, ?_, ?_, trivial⟩
  · exact List.not_mem_nil
  · exact List.not_mem_nil
  · show (2 : Ptr) ∉ [1]
    decide
  · exact List.not_mem_nil

theorem queues_fifo_five : ∃ s : Store, IsFifo s .live [2] ∧ IsFifo s .waiting [1] ∧ IsFifo s .zombies [1] := by
  obtain ⟨s, hr⟩ := fiveCalls_run
  obtain ⟨hfifo, -⟩ := queues_fifo hr fiveCalls_fresh
  exact ⟨s, hfifo .live, hfifo .waiting, hfifo .zombies⟩

end Csc453.Lwp
