import Mathlib.Tactic

/-!
# Linked queues

Lists threaded through a map `next` from nodes to nodes, ended by `null`.  `Seg next a L b` is a
segment: from `a` the links visit `L` and arrive at `b`.  The segment lemmas are the link edits
(`Seg.congr` for edits elsewhere, `Seg.snoc` for a new last node, `Seg.unlink` for taking a node
out behind its predecessor); a doubly linked list is two segments, one of them reversed.

`Queue` is a head and a tail pointer over one such map, with the insertion at the tail and the
removal by a walk that remembers the previous node.  On the list it represents (`Queue.Rep`) they
are append (`Rep.insert`) and erasing the first node that passes the test (`Rep.remove`).  The walks
carry fuel; the length of the list is enough.
-/

namespace LinkedQueue

open Function

variable {N : Type*} {null : N} {next : N → N}

/-! ### Ends of lists -/

section Ends

variable {x d : N} {A B : List N}

theorem nodup_cut (h : (A ++ x :: B).Nodup) : (A ++ B).Nodup ∧ x ∉ A ++ B := by
  have hp : (A ++ x :: B).Perm (x :: (A ++ B)) := List.perm_middle
  have := List.nodup_cons.mp (hp.nodup_iff.mp h)
  exact ⟨this.2, this.1⟩

theorem getLastD_append (hB : B ≠ []) : (A ++ B).getLastD d = B.getLastD d := by
  rcases List.eq_nil_or_concat' B with rfl | ⟨B, b, rfl⟩
  · exact absurd rfl hB
  · rw [← List.append_assoc, List.getLastD_concat, List.getLastD_concat]

theorem getLastD_cut (hB : B ≠ []) : (A ++ x :: B).getLastD d = (A ++ B).getLastD d := by
  rw [getLastD_append (List.cons_ne_nil x B), getLastD_append hB, ← List.singleton_append,
    getLastD_append hB]

theorem getLastD_eq_iff (hx : x ∉ B) : (A ++ x :: B).getLastD d = x ↔ B = [] := by
  rcases List.eq_nil_or_concat' B with rfl | ⟨B, b, rfl⟩
  · simp
  · rw [← List.cons_append, ← List.append_assoc, List.getLastD_concat]
    have : b ≠ x := fun he => hx (by simp [he])
    simp [this]

theorem headD_eq_iff (hx : x ∉ A) : (A ++ x :: B).headD d = x ↔ A = [] := by
  cases A with
  | nil => simp
  | cons y A =>
    have : y ≠ x := fun he => hx (by simp [he])
    simp [this]

theorem find?_cut {p : N → Bool} (hA : ∀ y ∈ A, ¬ p y) (hx : p x) :
    (A ++ x :: B).find? p = some x := by
  rw [List.find?_append, List.find?_eq_none.mpr (by simpa using hA), Option.none_or,
    List.find?_cons_of_pos hx]

end Ends

/-! ### Segments -/

/-- Following `next` from `a` visits the nodes of `L`, none of them `null`, and arrives at `b`. -/
def Seg (null : N) (next : N → N) : N → List N → N → Prop
  | a, [], b => a = b
  | a, x :: L, b => a = x ∧ x ≠ null ∧ Seg null next (next x) L b

namespace Seg

variable {a b x : N} {L A B : List N}

@[simp] theorem nil_iff : Seg null next a [] b ↔ a = b := Iff.rfl

@[simp] theorem cons_iff :
    Seg null next a (x :: L) b ↔ a = x ∧ x ≠ null ∧ Seg null next (next x) L b := Iff.rfl

theorem append_iff : Seg null next a (A ++ B) b ↔ ∃ c, Seg null next a A c ∧ Seg null next c B b := by
  induction A generalizing a with
  | nil => simp
  | cons x A ih =>
    rw [List.cons_append, cons_iff, ih]
    constructor
    · rintro ⟨rfl, hx, c, h1, h2⟩
      exact ⟨c, ⟨rfl, hx, h1⟩, h2⟩
    · rintro ⟨c, ⟨rfl, hx, h1⟩, h2⟩
      exact ⟨rfl, hx, c, h1, h2⟩

/-- A segment whose list is cut at a node passes through that node. -/
theorem cut (h : Seg null next a (A ++ x :: B) b) :
    Seg null next a A x ∧ x ≠ null ∧ Seg null next (next x) B b := by
  obtain ⟨c, h1, rfl, hx, h2⟩ := append_iff.mp h
  exact ⟨h1, hx, h2⟩

theorem ne_null (h : Seg null next a L b) (hx : x ∈ L) : x ≠ null := by
  obtain ⟨A, B, rfl⟩ := List.append_of_mem hx
  exact h.cut.2.1

theorem null_notMem (h : Seg null next a L b) : null ∉ L := fun hx => h.ne_null hx rfl

/-- A whole list starts at its first node, or is empty. -/
theorem head_eq (h : Seg null next a L null) : a = L.headD null := by
  cases L with
  | nil => exact h
  | cons x L => exact h.1

/-- A segment depends on the links of its own nodes only. -/
theorem congr {next' : N → N} (h : Seg null next a L b) (hc : ∀ y ∈ L, next' y = next y) :
    Seg null next' a L b := by
  induction L generalizing a with
  | nil => exact h
  | cons x L ih =>
    obtain ⟨rfl, hx, h⟩ := h
    refine ⟨rfl, hx, ?_⟩
    rw [hc a List.mem_cons_self]
    exact ih h fun y hy => hc y (List.mem_cons_of_mem _ hy)

variable [DecidableEq N]

theorem update_out {v : N} (h : Seg null next a L b) (hx : x ∉ L) :
    Seg null (update next x v) a L b :=
  h.congr fun y hy => update_of_ne (fun he : y = x => hx (he ▸ hy)) _ _

/-- The last node `t` is linked to a new last node `x`. -/
theorem snoc {t : N} (h : Seg null next a (A ++ [t]) null) (ht : t ∉ A) (hx : x ∉ A ++ [t])
    (h0 : x ≠ null) : Seg null (update (update next t x) x null) a (A ++ [t] ++ [x]) null := by
  obtain ⟨h1, ht0, _⟩ := h.cut
  have hxA : x ∉ A := fun h => hx (List.mem_append_left _ h)
  have hxt : t ≠ x := fun h => hx (by simp [h])
  rw [List.append_assoc]
  refine append_iff.mpr ⟨t, (h1.update_out ht).update_out hxA, rfl, ht0, ?_⟩
  rw [update_of_ne hxt, update_self]
  exact ⟨rfl, h0, update_self ..⟩

/-- The node `x` is taken out behind the last node of `A`. -/
theorem unlink (h : Seg null next a (A ++ x :: B) b) (hnd : (A ++ B).Nodup) (hA : A ≠ []) :
    Seg null (update next (A.getLastD null) (next x)) a (A ++ B) b := by
  obtain ⟨A, p, rfl⟩ := (List.eq_nil_or_concat' A).resolve_left hA
  rw [List.append_assoc, List.singleton_append] at h hnd ⊢
  obtain ⟨h1, hp0, hx, _, h2⟩ := h.cut
  have hp := (nodup_cut hnd).2
  have hpA : p ∉ A := fun hm => hp (List.mem_append_left _ hm)
  have hpB : p ∉ B := fun hm => hp (List.mem_append_right _ hm)
  rw [List.getLastD_concat]
  refine append_iff.mpr ⟨p, h1.update_out hpA, rfl, hp0, ?_⟩
  rw [update_self]
  exact h2.update_out hpB

end Seg

/-! ### The walk -/

variable [DecidableEq N]

/-- Walk to the first node that passes `p`, with the node before it; `(_, null)` if there is none.
`none` if the fuel does not suffice. -/
def walk (null : N) (next : N → N) (p : N → Bool) : ℕ → N → N → Option (N × N)
  | 0, _, _ => none
  | k + 1, prev, curr =>
    if curr = null then some (prev, null)
    else if p curr then some (prev, curr)
    else walk null next p k curr (next curr)

variable {p : N → Bool} {k : ℕ} {a x : N} {L A B : List N}

theorem walk_absent (prev : N) (h : Seg null next a L null) (hp : ∀ y ∈ L, ¬ p y) (hk : L.length < k) :
    ∃ q, walk null next p k prev a = some (q, null) := by
  induction L generalizing a k prev with
  | nil =>
    obtain ⟨k, rfl⟩ := Nat.exists_eq_add_one_of_ne_zero (Nat.ne_of_gt hk)
    exact ⟨prev, if_pos h⟩
  | cons x L ih =>
    obtain ⟨rfl, h0, h⟩ := h
    obtain ⟨k, rfl⟩ := Nat.exists_eq_add_one_of_ne_zero (Nat.ne_of_gt (Nat.zero_lt_of_lt hk))
    rw [walk, if_neg h0, if_neg (hp a List.mem_cons_self)]
    exact ih _ h (fun y hy => hp y (List.mem_cons_of_mem _ hy)) (Nat.lt_of_succ_lt_succ hk)

theorem walk_present {b : N} (prev : N) (h : Seg null next a (A ++ x :: B) b) (hA : ∀ y ∈ A, ¬ p y) (hx : p x)
    (hk : A.length < k) : walk null next p k prev a = some (A.getLastD prev, x) := by
  induction A generalizing a k prev with
  | nil =>
    obtain ⟨k, rfl⟩ := Nat.exists_eq_add_one_of_ne_zero (Nat.ne_of_gt hk)
    obtain ⟨rfl, h0, _⟩ := h
    rw [walk, if_neg h0, if_pos hx]
    rfl
  | cons y A ih =>
    obtain ⟨k, rfl⟩ := Nat.exists_eq_add_one_of_ne_zero (Nat.ne_of_gt (Nat.zero_lt_of_lt hk))
    obtain ⟨rfl, h0, h⟩ := h
    rw [walk, if_neg h0, if_neg (hA a List.mem_cons_self),
      ih _ h (fun y hy => hA y (List.mem_cons_of_mem _ hy)) (Nat.lt_of_succ_lt_succ hk)]
    cases A <;> rfl

/-! ### Queues -/

/-- A head and a tail pointer over a link map. -/
structure Queue (N : Type*) where
  next : N → N
  head : N
  tail : N

namespace Queue

/-- Put `x` behind the tail. -/
def insert (null : N) (q : Queue N) (x : N) : Queue N :=
  if q.head = null then ⟨update q.next x null, x, x⟩
  else ⟨update (update q.next q.tail x) x null, q.head, x⟩

/-- Whatever the link of the new node was, it is overwritten. -/
theorem insert_update (q : Queue N) (x v : N) :
    Queue.insert null { q with next := update q.next x v } x = q.insert null x := by
  unfold insert
  dsimp only
  split_ifs
  · rw [update_idem]
  · by_cases ht : q.tail = x
    · rw [ht, update_idem, update_idem, update_idem]
    · rw [update_comm (Ne.symm ht), update_idem]

/-- Take out the first node that passes `p`, by the four cases of its place in the queue. -/
def remove (null : N) (p : N → Bool) (fuel : ℕ) (q : Queue N) : Option (Queue N) :=
  match walk null q.next p fuel null q.head with
  | none => none
  | some (prev, curr) =>
    if curr = null then some q
    else
      let nextNode := q.next curr
      let r : Queue N :=
        if curr = q.head ∧ curr = q.tail then { q with head := null, tail := null }
        else if curr = q.head then { q with head := nextNode }
        else if curr = q.tail then { q with next := update q.next prev null, tail := prev }
        else { q with next := update q.next prev nextNode }
      some { r with next := update r.next curr null }

/-- The first node that passes `p`, `null` if there is none. -/
def find (null : N) (p : N → Bool) (fuel : ℕ) (q : Queue N) : Option N :=
  (walk null q.next p fuel null q.head).map Prod.snd

/-- The queue represents the list `L`. -/
structure Rep (null : N) (q : Queue N) (L : List N) : Prop where
  seg : Seg null q.next q.head L null
  tail_eq : q.tail = L.getLastD null
  nodup : L.Nodup

variable {q : Queue N}

omit [DecidableEq N] in
theorem Rep.head_eq (h : q.Rep null L) : q.head = L.headD null := h.seg.head_eq

omit [DecidableEq N] in
theorem Rep.head_eq_null (h : q.Rep null L) : q.head = null ↔ L = [] := by
  rw [h.head_eq]
  cases L with
  | nil => simp
  | cons x L => simpa using h.seg.2.1

/-- Insertion is append. -/
theorem Rep.insert (h : q.Rep null L) (hx : x ∉ L) (h0 : x ≠ null) :
    (q.insert null x).Rep null (L ++ [x]) := by
  have hnd : (L ++ [x]).Nodup := by
    simpa using (List.nodup_concat L x).mpr ⟨hx, h.nodup⟩
  unfold Queue.insert
  rcases List.eq_nil_or_concat' L with rfl | ⟨A, t, rfl⟩
  · rw [if_pos (h.head_eq_null.mpr rfl)]
    exact ⟨⟨rfl, h0, update_self ..⟩, rfl, hnd⟩
  · rw [if_neg (by simp [h.head_eq_null]), h.tail_eq, List.getLastD_concat]
    have ht : t ∉ A := fun ht => (nodup_cut h.nodup).2 (List.mem_append_left _ ht)
    exact ⟨h.seg.snoc ht hx h0, (List.getLastD_concat ..).symm, hnd⟩

theorem Rep.remove_absent (h : q.Rep null L) (hp : ∀ y ∈ L, ¬ p y) (hk : L.length < k) :
    q.remove null p k = some q := by
  obtain ⟨r, hw⟩ := walk_absent null h.seg hp hk
  unfold Queue.remove
  rw [hw]
  exact if_pos rfl

theorem Rep.remove_present (h : q.Rep null (A ++ x :: B)) (hA : ∀ y ∈ A, ¬ p y) (hx : p x)
    (hk : A.length < k) : ∃ q', q.remove null p k = some q' ∧ q'.Rep null (A ++ B) := by
  have hw := walk_present null h.seg hA hx hk
  obtain ⟨-, h0, hB⟩ := h.seg.cut
  obtain ⟨hnd, hout⟩ := nodup_cut h.nodup
  have hxA : x ∉ A := fun hm => hout (List.mem_append_left _ hm)
  have hxB : x ∉ B := fun hm => hout (List.mem_append_right _ hm)
  have hhead : x = q.head ↔ A = [] := by rw [h.head_eq, eq_comm, headD_eq_iff hxA]
  have htail : x = q.tail ↔ B = [] := by rw [h.tail_eq, eq_comm, getLastD_eq_iff hxB]
  unfold Queue.remove
  rw [hw]
  dsimp only
  rw [if_neg h0]
  refine ⟨_, rfl, ?_⟩
  rcases List.eq_nil_or_concat' A with rfl | ⟨A, a, rfl⟩
  · -- the head goes
    by_cases hBnil : B = []
    · subst hBnil
      rw [if_pos ⟨hhead.mpr rfl, htail.mpr rfl⟩]
      exact ⟨rfl, rfl, hnd⟩
    · rw [if_neg fun h => hBnil (htail.mp h.2), if_pos (hhead.mpr rfl)]
      refine ⟨hB.update_out hxB, ?_, hnd⟩
      exact h.tail_eq.trans (getLastD_cut hBnil)
  · have hA0 : A ++ [a] ≠ [] := by simp
    rw [if_neg fun h => hA0 (hhead.mp h.1), if_neg (mt hhead.mp hA0)]
    have hcut := h.seg.unlink hnd hA0
    by_cases hBnil : B = []
    · -- the tail goes
      rw [if_pos (htail.mpr hBnil)]
      subst hBnil
      have hnext : q.next x = null := hB
      rw [hnext] at hcut
      refine ⟨hcut.update_out hout, ?_, hnd⟩
      rw [List.append_nil]
    · rw [if_neg (mt htail.mp hBnil)]
      exact ⟨hcut.update_out hout, h.tail_eq.trans (getLastD_cut hBnil), hnd⟩

/-- Removal erases the first node that passes the test, and changes nothing if there is none. -/
theorem Rep.remove (h : q.Rep null L) (hk : L.length < k) :
    ∃ q', q.remove null p k = some q' ∧ q'.Rep null (L.eraseP p) := by
  by_cases hp : ∃ y ∈ L, p y
  · obtain ⟨y, hy, hpy⟩ := hp
    obtain ⟨x, A, B, hA, hx, rfl, he⟩ := List.exists_of_eraseP hy hpy
    rw [he]
    refine h.remove_present (fun y hy => hA y hy) hx (lt_of_le_of_lt ?_ hk)
    simp
  · have hp : ∀ y ∈ L, ¬ p y := fun y hy hpy => hp ⟨y, hy, hpy⟩
    rw [List.eraseP_of_forall_not hp]
    exact ⟨q, h.remove_absent hp hk, h⟩

/-- The search finds the first node that passes the test. -/
theorem Rep.find (h : q.Rep null L) (hk : L.length < k) :
    q.find null p k = some ((L.find? p).getD null) := by
  unfold Queue.find
  by_cases hp : ∃ y ∈ L, p y
  · obtain ⟨y, hy, hpy⟩ := hp
    obtain ⟨x, A, B, hA, hx, rfl, -⟩ := List.exists_of_eraseP hy hpy
    rw [walk_present _ h.seg hA hx (lt_of_le_of_lt (by simp) hk), find?_cut hA hx]
    rfl
  · have hp : ∀ y ∈ L, ¬ p y := fun y hy hpy => hp ⟨y, hy, hpy⟩
    obtain ⟨r, hw⟩ := walk_absent null h.seg hp hk
    rw [hw, List.find?_eq_none.mpr (by simpa using hp)]
    rfl

/-- How the pointers of a queue read: the nodes from the head on, and both ends. -/
structure ReadsAs (null : N) (q : Queue N) (L : List N) : Prop where
  nodes : Seg null q.next q.head L null
  nodup : L.Nodup
  ends : (L = [] ∧ q.head = null ∧ q.tail = null) ∨
    ∃ x t, L.head? = some x ∧ L.getLast? = some t ∧ q.head = x ∧ q.tail = t ∧ q.next t = null

omit [DecidableEq N] in
theorem Rep.readsAs (h : q.Rep null L) : q.ReadsAs null L := by
  refine ⟨h.seg, h.nodup, ?_⟩
  have hhead := h.head_eq
  have htail := h.tail_eq
  rcases List.eq_nil_or_concat' L with rfl | ⟨A, t, rfl⟩
  · exact Or.inl ⟨rfl, hhead, htail⟩
  · rw [List.getLastD_concat] at htail
    refine Or.inr ⟨(A ++ [t]).headD null, t, ?_, List.getLast?_concat, hhead, htail, h.seg.cut.2.2⟩
    cases A <;> rfl

/-! Nodes that stand for something else, say `f x` for the node `x`. -/

section Labels

variable {α : Type*} [DecidableEq α] {f : N → α} {t : α}

omit [DecidableEq N] in
/-- Erasing the first node of `t` erases `t`. -/
theorem map_eraseP (f : N → α) (t : α) (L : List N) :
    (L.eraseP fun x => f x = t).map f = (L.map f).erase t := by
  rw [List.erase_eq_eraseP', List.eraseP_map]
  rfl

theorem Rep.find_absent (h : q.Rep null L) (hk : L.length < k) (ht : t ∉ L.map f) :
    q.find null (fun x => f x = t) k = some null := by
  have hnone : L.find? (fun x => decide (f x = t)) = none := by
    refine List.find?_eq_none.mpr fun x hx hxt => ht ?_
    rw [← of_decide_eq_true hxt]
    exact List.mem_map_of_mem hx
  rw [h.find hk, hnone]
  rfl

/-- The node that is found is the one a removal takes out. -/
theorem Rep.find_present (h : q.Rep null L) (hk : L.length < k) (ht : t ∈ L.map f) :
    ∃ x, q.find null (fun x => f x = t) k = some x ∧ x ≠ null ∧ x ∉ L.eraseP fun x => f x = t := by
  obtain ⟨y, hy, hyt⟩ := List.mem_map.mp ht
  obtain ⟨x, A, B, hA, hx, rfl, herase⟩ :=
    List.exists_of_eraseP (p := fun x => decide (f x = t)) hy (decide_eq_true hyt)
  refine ⟨x, ?_, h.seg.cut.2.1, ?_⟩
  · rw [h.find hk, find?_cut hA hx]
    rfl
  · rw [herase]
    exact (nodup_cut h.nodup).2

end Labels

end Queue

end LinkedQueue
