import Mathlib.Tactic
import Mathlib.Data.List.SplitBy

/-!
# Coalescing runs of a list

`coalesce p join L` replaces every maximal run of consecutive elements satisfying `p` by the join of
the run.  `Coalescing p join` are the two laws under which the order of the joins does not matter.
Results: an equation for a loop that extends its first run from the left (`coalesce_join`,
`coalesce_skip`), no two neighbours of the result satisfy `p` (`separated_coalesce`), a list like
that is left alone (`coalesce_of_separated`), elements outside `p` stay (`mem_coalesce_of_not`).  Parts of a
list may be coalesced before the whole (`coalesce_coalesce_append`, `coalesce_append_coalesce`), and an
element outside `p` cuts the list in two (`coalesce_append_of_not`).  `coalesce_eq_map_runs` says it
without `push`: cut the list into its maximal runs and join each.
-/

namespace Coalesce

variable {α : Type*}

/-- Put `a` before a list whose first run may swallow it. -/
def push (p : α → Bool) (join : α → α → α) (a : α) : List α → List α
  | [] => [a]
  | b :: L => if p a ∧ p b then join a b :: L else a :: b :: L

/-- Every maximal run of `p`-elements becomes one element. -/
def coalesce (p : α → Bool) (join : α → α → α) : List α → List α
  | [] => []
  | a :: L => push p join a (coalesce p join L)

/-- No two consecutive elements satisfy `p`. -/
def Separated (p : α → Bool) (L : List α) : Prop := L.IsChain fun a b => ¬ (p a ∧ p b)

/-- Joining is associative on runs and stays in `p`. -/
structure Coalescing (p : α → Bool) (join : α → α → α) : Prop where
  keep : ∀ a b, p a → p b → p (join a b)
  assoc : ∀ a b c, join (join a b) c = join a (join b c)

variable {p : α → Bool} {join : α → α → α} {a b : α} {L : List α}

theorem push_of_not (h : ¬ p a) (L : List α) : push p join a L = a :: L := by
  cases L with
  | nil => rfl
  | cons b L => exact if_neg fun hab => h hab.1

theorem push_cons_of_not (h : ¬ p b) (L : List α) : push p join a (b :: L) = a :: b :: L :=
  if_neg fun hab => h hab.2

theorem push_cons (ha : p a) (hb : p b) (L : List α) : push p join a (b :: L) = join a b :: L :=
  if_pos ⟨ha, hb⟩

/-- What holds with `a` in front and survives a join there holds after the push. -/
theorem push_keeps {P : List α → Prop} (hjoin : ∀ b L, p a → p b → P (a :: b :: L) → P (join a b :: L))
    (h : P (a :: L)) : P (push p join a L) := by
  rcases L with _ | ⟨b, L⟩
  · exact h
  · by_cases hab : p a ∧ p b
    · rw [push_cons hab.1 hab.2]
      exact hjoin b L hab.1 hab.2 h
    · rw [push, if_neg hab]
      exact h

theorem coalesce_of_not (h : ¬ p a) (L : List α) :
    coalesce p join (a :: L) = a :: coalesce p join L := push_of_not h _

/-- The element after a run is kept, and the rest is coalesced on its own. -/
theorem coalesce_skip (h : ¬ p b) (L : List α) :
    coalesce p join (a :: b :: L) = a :: b :: coalesce p join L := by
  show push p join a (coalesce p join (b :: L)) = _
  rw [coalesce_of_not h, push_cons_of_not h]

/-- Extending a run from the left does not change the result. -/
theorem coalesce_join (hC : Coalescing p join) (ha : p a) (hb : p b) (L : List α) :
    coalesce p join (a :: b :: L) = coalesce p join (join a b :: L) := by
  have hab := hC.keep a b ha hb
  show push p join a (push p join b (coalesce p join L)) = push p join (join a b) (coalesce p join L)
  rcases coalesce p join L with _ | ⟨c, M⟩
  · exact push_cons ha hb []
  · by_cases hc : p c
    · rw [push_cons hb hc, push_cons ha (hC.keep b c hb hc), push_cons hab hc, hC.assoc]
    · rw [push_cons_of_not hc, push_cons_of_not hc, push_cons ha hb]

theorem separated_push (h : Separated p L) : Separated p (push p join a L) := by
  rcases L with _ | ⟨b, L⟩
  · exact List.isChain_singleton a
  · by_cases hab : p a ∧ p b
    · rw [push_cons hab.1 hab.2]
      rcases L with _ | ⟨c, L⟩
      · exact List.isChain_singleton _
      · rw [Separated, List.isChain_cons_cons] at h ⊢
        exact ⟨fun hc => h.1 ⟨hab.2, hc.2⟩, h.2⟩
    · rw [push, if_neg hab]
      exact List.isChain_cons_cons.mpr ⟨hab, h⟩

theorem separated_coalesce (L : List α) : Separated p (coalesce p join L) := by
  induction L with
  | nil => exact List.isChain_nil
  | cons a L ih => exact separated_push ih

theorem coalesce_of_separated (h : Separated p L) : coalesce p join L = L := by
  induction L with
  | nil => rfl
  | cons a L ih =>
    rcases L with _ | ⟨b, L⟩
    · rfl
    · rw [Separated, List.isChain_cons_cons] at h
      show push p join a (coalesce p join (b :: L)) = _
      rw [ih h.2]
      exact if_neg h.1

theorem mem_push_of_not {c : α} (hC : Coalescing p join) (hc : ¬ p c) :
    c ∈ push p join a L ↔ c = a ∨ c ∈ L := by
  rcases L with _ | ⟨b, L⟩
  · simp [push]
  · by_cases hab : p a ∧ p b
    · rw [push_cons hab.1 hab.2, List.mem_cons, List.mem_cons]
      have h1 : c ≠ join a b := fun h => hc (h ▸ hC.keep a b hab.1 hab.2)
      have h2 : c ≠ a := fun h => hc (h ▸ hab.1)
      have h3 : c ≠ b := fun h => hc (h ▸ hab.2)
      simp [h1, h2, h3]
    · rw [push, if_neg hab, List.mem_cons]

/-- Elements outside `p` are neither lost nor invented. -/
theorem mem_coalesce_of_not {c : α} (hC : Coalescing p join) (hc : ¬ p c) :
    c ∈ coalesce p join L ↔ c ∈ L := by
  induction L with
  | nil => rfl
  | cons a L ih =>
    show c ∈ push p join a (coalesce p join L) ↔ _
    rw [mem_push_of_not hC hc, ih, List.mem_cons]

/-- A list inside `p` coalesces to one element. -/
theorem coalesce_of_all (hC : Coalescing p join) (hL : L ≠ []) (h : ∀ a ∈ L, p a) :
    ∃ a, coalesce p join L = [a] ∧ p a := by
  induction L with
  | nil => exact absurd rfl hL
  | cons a L ih =>
    have ha := h a List.mem_cons_self
    rcases L with _ | ⟨b, L⟩
    · exact ⟨a, rfl, ha⟩
    · obtain ⟨c, hc, hpc⟩ := ih (by simp) fun d hd => h d (List.mem_cons_of_mem _ hd)
      refine ⟨join a c, ?_, hC.keep a c ha hpc⟩
      show push p join a (coalesce p join (b :: L)) = _
      rw [hc, push_cons ha hpc]

/-! ### Parts of a list -/

theorem coalesce_append_congr {M N : List α} (h : coalesce p join M = coalesce p join N) (L : List α) :
    coalesce p join (L ++ M) = coalesce p join (L ++ N) := by
  induction L with
  | nil => exact h
  | cons a L ih => exact congrArg (push p join a) ih

/-- Coalescing the second part first changes nothing. -/
theorem coalesce_append_coalesce (L M : List α) :
    coalesce p join (L ++ coalesce p join M) = coalesce p join (L ++ M) :=
  coalesce_append_congr (coalesce_of_separated (separated_coalesce M)) L

theorem coalesce_push_append (hC : Coalescing p join) (a : α) (L M : List α) :
    coalesce p join (push p join a L ++ M) = push p join a (coalesce p join (L ++ M)) := by
  rcases L with _ | ⟨b, L⟩
  · rfl
  · by_cases hab : p a ∧ p b
    · rw [push_cons hab.1 hab.2, List.cons_append, ← coalesce_join hC hab.1 hab.2]
      rfl
    · rw [push, if_neg hab]
      rfl

/-- Coalescing the first part first changes nothing. -/
theorem coalesce_coalesce_append (hC : Coalescing p join) (L M : List α) :
    coalesce p join (coalesce p join L ++ M) = coalesce p join (L ++ M) := by
  induction L with
  | nil => rfl
  | cons a L ih =>
    show coalesce p join (push p join a (coalesce p join L) ++ M) = _
    rw [coalesce_push_append hC, ih]
    rfl

/-- An element outside `p` cuts the list in two. -/
theorem coalesce_append_of_not (h : ¬ p b) (L M : List α) :
    coalesce p join (L ++ b :: M) = coalesce p join L ++ b :: coalesce p join M := by
  induction L with
  | nil => exact coalesce_of_not h M
  | cons a L ih =>
    show push p join a (coalesce p join (L ++ b :: M)) = push p join a (coalesce p join L) ++ _
    rw [ih]
    rcases coalesce p join L with _ | ⟨c, N⟩
    · exact push_cons_of_not h _
    · by_cases hac : p a ∧ p c
      · rw [push_cons hac.1 hac.2, List.cons_append, push_cons hac.1 hac.2, List.cons_append]
      · rw [List.cons_append, push, if_neg hac, push, if_neg hac]
        rfl

/-! ### Runs -/

/-- The list cut into its maximal runs of `p`-elements; an element outside `p` is a run of its own. -/
def runs (p : α → Bool) (L : List α) : List (List α) := L.splitBy fun a b => p a && p b

theorem runs_skip (h : ¬ (p a ∧ p b)) (L : List α) :
    runs p (a :: b :: L) = [a] :: runs p (b :: L) := by
  refine List.splitBy_append_cons (l := [a]) L fun x hx => ?_
  have hxa : x = a := by simpa using hx.symm
  rw [hxa]
  simpa using h

/-- The list behind a `cons` starts a run. -/
theorem runs_cons (b : α) (L : List α) : ∃ R Rs, runs p (b :: L) = (b :: R) :: Rs := by
  rcases h : runs p (b :: L) with _ | ⟨M, Rs⟩
  · exact absurd (List.splitBy_eq_nil.mp h) (by simp)
  · obtain ⟨hf, hn, _, _⟩ := List.splitBy_eq_iff.mp h
    rcases M with _ | ⟨c, R⟩
    · exact absurd List.mem_cons_self hn
    · rw [List.flatten_cons, List.cons_append, List.cons.injEq] at hf
      rw [hf.1]
      exact ⟨R, Rs, rfl⟩

theorem runs_extend (ha : p a) (hb : p b) {R : List α} {Rs : List (List α)}
    (h : runs p (b :: L) = (b :: R) :: Rs) : runs p (a :: b :: L) = (a :: b :: R) :: Rs := by
  obtain ⟨hf, hn, hc, hs⟩ := List.splitBy_eq_iff.mp h
  refine List.splitBy_eq_iff.mpr ⟨?_, ?_, fun M hM => ?_, ?_⟩
  · rw [hf]
    rfl
  · rw [List.mem_cons, not_or] at hn ⊢
    exact ⟨by simp, hn.2⟩
  · rcases List.mem_cons.mp hM with rfl | hM
    · refine List.isChain_cons_cons.mpr ⟨by simp [ha, hb], ?_⟩
      exact hc (b :: R) List.mem_cons_self
    · exact hc M (List.mem_cons_of_mem _ hM)
  · rcases Rs with _ | ⟨M, Rs⟩
    · exact List.isChain_singleton _
    · rw [List.isChain_cons_cons] at hs ⊢
      obtain ⟨⟨hx, hy, hr⟩, hs⟩ := hs
      exact ⟨⟨by simp, hy, by simpa using hr⟩, hs⟩

theorem coalesce_head (hC : Coalescing p join) (hb : p b) (L : List α) :
    ∃ c M, coalesce p join (b :: L) = c :: M ∧ p c := by
  show ∃ c M, push p join b (coalesce p join L) = c :: M ∧ p c
  rcases coalesce p join L with _ | ⟨c, M⟩
  · exact ⟨b, [], rfl, hb⟩
  · by_cases hc : p c
    · exact ⟨join b c, M, push_cons hb hc M, hC.keep b c hb hc⟩
    · exact ⟨b, c :: M, push_cons_of_not hc M, hb⟩

/-- Coalescing puts `f R` for every maximal run `R`, if `f` joins a run from its first element on. -/
theorem coalesce_eq_map_runs {f : List α → α} (hC : Coalescing p join) (hone : ∀ a, f [a] = a)
    (hjoin : ∀ a b R, f (a :: b :: R) = join a (f (b :: R))) (L : List α) :
    coalesce p join L = (runs p L).map f := by
  induction L with
  | nil => rfl
  | cons a L ih =>
    rcases L with _ | ⟨b, L⟩
    · show [a] = [f [a]]
      rw [hone]
    · show push p join a (coalesce p join (b :: L)) = _
      by_cases hab : p a ∧ p b
      · obtain ⟨R, Rs, hR⟩ := runs_cons (p := p) b L
        obtain ⟨c, M, hcM, hc⟩ := coalesce_head hC hab.2 L
        have hfc : c :: M = f (b :: R) :: Rs.map f := by rw [← hcM, ih, hR, List.map_cons]
        rw [List.cons.injEq] at hfc
        rw [runs_extend hab.1 hab.2 hR, hcM, push_cons hab.1 hc, hfc.1, hfc.2, List.map_cons, hjoin]
      · rw [runs_skip hab, List.map_cons, hone, ← ih]
        by_cases ha : p a
        · have hb : ¬ p b := fun hb => hab ⟨ha, hb⟩
          rw [coalesce_of_not hb, push_cons_of_not hb]
        · exact push_of_not ha _

end Coalesce
