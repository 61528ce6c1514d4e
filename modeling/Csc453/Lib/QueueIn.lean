import Csc453.Lib.LinkedQueue

/-!
# Queues kept in the variables of a state

A program that has several linked queues keeps each in its own variables: a link field of the nodes
and a pointer to either end.  `QueueIn σ N` names these variables for one queue in a state `σ`, with
the queue they hold (`view`) and the assignments to them.  `insert` and `remove` are the operations
of `Queue`, one assignment after the other.

* `view_insert`, `view_remove`: on the queue they are `Queue.insert` and `Queue.remove`;
* `Leaves.insert`, `Leaves.remove`: what no assignment touches, they leave alone.
-/

namespace LinkedQueue

open Function

variable {σ N α : Type*} [DecidableEq N]

/-- Where a state keeps a queue. -/
structure QueueIn (σ N : Type*) [DecidableEq N] where
  view : σ → Queue N
  setNext : N → N → σ → σ
  setHead : N → σ → σ
  setTail : N → σ → σ
  view_setNext : ∀ t v s, view (setNext t v s) = { view s with next := update (view s).next t v }
  view_setHead : ∀ v s, view (setHead v s) = { view s with head := v }
  view_setTail : ∀ v s, view (setTail v s) = { view s with tail := v }

namespace QueueIn

attribute [simp] view_setNext view_setHead view_setTail

variable (P : QueueIn σ N) (null : N) (p : N → Bool) (fuel : ℕ)

/-- Put `new` behind the tail. -/
def insert (new : N) (s : σ) : σ :=
  if (P.view s).head = null then P.setTail new (P.setHead new (P.setNext new null s))
  else P.setTail new (P.setNext new null (P.setNext (P.view s).tail new s))

/-- Take out the first node that passes `p`. -/
def remove (s : σ) : Option σ :=
  let q := P.view s
  match walk null q.next p fuel null q.head with
  | none => none
  | some (prev, curr) =>
    if curr = null then some s
    else
      let nextNode := q.next curr
      let s' :=
        if curr = q.head ∧ curr = q.tail then P.setTail null (P.setHead null s)
        else if curr = q.head then P.setHead nextNode s
        else if curr = q.tail then P.setTail prev (P.setNext prev null s)
        else P.setNext prev nextNode s
      some (P.setNext curr null s')

variable {P null p fuel}

theorem view_insert (new : N) (s : σ) : P.view (P.insert null new s) = (P.view s).insert null new := by
  unfold insert Queue.insert
  split_ifs <;> simp

/-- The four cases of a removal, on the queue. -/
theorem view_remove (s : σ) : (P.remove null p fuel s).map P.view = (P.view s).remove null p fuel := by
  unfold remove Queue.remove
  dsimp only
  rcases walk null (P.view s).next p fuel null (P.view s).head with _ | ⟨prev, curr⟩
  · rfl
  · dsimp only
    by_cases hnull : curr = null
    · rw [if_pos hnull, if_pos hnull]
      rfl
    · rw [if_neg hnull, if_neg hnull, Option.map_some, view_setNext]
      split_ifs <;> simp

/-- Without a node that passes the test nothing in the state changes. -/
theorem remove_absent {L : List N} {s : σ} (h : (P.view s).Rep null L) (hp : ∀ y ∈ L, ¬ p y)
    (hk : L.length < fuel) : P.remove null p fuel s = some s := by
  obtain ⟨r, hw⟩ := walk_absent null h.seg hp hk
  unfold remove
  dsimp only
  rw [hw]
  exact if_pos rfl

/-! ### The rest of the state -/

/-- No assignment to the queue's variables changes `f`. -/
structure Leaves (P : QueueIn σ N) (f : σ → α) : Prop where
  setNext : ∀ t v s, f (P.setNext t v s) = f s
  setHead : ∀ v s, f (P.setHead v s) = f s
  setTail : ∀ v s, f (P.setTail v s) = f s

namespace Leaves

variable {f : σ → α}

theorem insert (hf : P.Leaves f) (new : N) (s : σ) : f (P.insert null new s) = f s := by
  unfold QueueIn.insert
  split_ifs <;> simp only [hf.setNext, hf.setHead, hf.setTail]

theorem remove (hf : P.Leaves f) {s s' : σ} (h : P.remove null p fuel s = some s') : f s' = f s := by
  unfold QueueIn.remove at h
  dsimp only at h
  rcases hw : walk null (P.view s).next p fuel null (P.view s).head with _ | ⟨prev, curr⟩
  · rw [hw] at h
    cases h
  · rw [hw] at h
    dsimp only at h
    by_cases hnull : curr = null
    · rw [if_pos hnull] at h
      rw [Option.some.inj h]
    · rw [if_neg hnull] at h
      rw [← Option.some.inj h, hf.setNext]
      split_ifs <;> simp only [hf.setNext, hf.setHead, hf.setTail]

end Leaves

end QueueIn

end LinkedQueue
