import Mathlib.Order.WellFounded
import Mathlib.Data.List.Basic

/-!
# Labelled transition systems with histories

`System σ ℓ` is an initial predicate and a labelled step relation.  `Run S h s` says that `S`
went from some initial state to `s` through the steps of the history `h`, the newest step first;
each entry of the history keeps the states before and after the step, so that a property of
"what happened since" is a property of a list.  The rules:

* `Run.invariant`: what every initial state satisfies and every step preserves holds at the end
  of every run (`Reachable.invariant` for reachable states);
* `Run.pre_eq`, `Run.tail`: the history of a run is itself a chain of runs;
* `Run.restrict`: the runs whose steps all meet a condition are the runs of a smaller system;
* `Run.map`: a function on states that turns steps into steps turns runs into runs;
* `Run.lockstep`: two runs whose histories match step by step stay related;
* `Throughout`: what every entry of a history owes to the entries before it;
* `play`: steps computed one after the other, which `Run.play` makes a run;
* `Run.length_add_le`: a measure that every step decreases bounds the length of every run,
  `not_forever` excludes infinite ones, and `Run.exists_end` goes on to a state without steps.
-/

namespace Transition

/-- A labelled transition system. -/
structure System (σ ℓ : Type*) where
  init : σ → Prop
  step : σ → ℓ → σ → Prop

/-- One step of a history: the state before, the label and the state after. -/
structure Event (σ ℓ : Type*) where
  pre : σ
  label : ℓ
  post : σ

variable {σ ℓ : Type*} {S : System σ ℓ}

/-- `S` runs from an initial state to `s` through the history `h` (newest step first). -/
inductive Run (S : System σ ℓ) : List (Event σ ℓ) → σ → Prop
  | init {s : σ} : S.init s → Run S [] s
  | step {h : List (Event σ ℓ)} {s t : σ} {l : ℓ} :
      Run S h s → S.step s l t → Run S (⟨s, l, t⟩ :: h) t

/-- A state some run ends in. -/
def Reachable (S : System σ ℓ) (s : σ) : Prop := ∃ h, Run S h s

/-- The system whose steps are the steps of `S` that meet `P`. -/
def System.restrict (S : System σ ℓ) (P : σ → ℓ → Prop) : System σ ℓ where
  init := S.init
  step s l t := S.step s l t ∧ P s l

theorem Reachable.init {s : σ} (h : S.init s) : Reachable S s := ⟨[], .init h⟩

theorem Reachable.step {s t : σ} {l : ℓ} (h : Reachable S s) (hs : S.step s l t) :
    Reachable S t := by
  obtain ⟨hist, hr⟩ := h
  exact ⟨_, hr.step hs⟩

theorem Run.reachable {h : List (Event σ ℓ)} {s : σ} (hr : Run S h s) : Reachable S s := ⟨h, hr⟩

/-- A run with a last step: the run before it, and the step. -/
theorem Run.tail {e : Event σ ℓ} {h : List (Event σ ℓ)} {t : σ} (hr : Run S (e :: h) t) :
    Run S h e.pre ∧ S.step e.pre e.label e.post ∧ e.post = t := by
  cases hr with
  | step hr hs => exact ⟨hr, hs, rfl⟩

/-- **Invariant rule with histories**: what holds initially and is kept by every step, possibly
mentioning the history, holds at the end of every run. -/
theorem Run.invariant {I : List (Event σ ℓ) → σ → Prop} (h0 : ∀ s, S.init s → I [] s)
    (hstep : ∀ h s l t, Run S h s → I h s → S.step s l t → I (⟨s, l, t⟩ :: h) t)
    {h : List (Event σ ℓ)} {s : σ} (hr : Run S h s) : I h s := by
  induction hr with
  | init hi => exact h0 _ hi
  | step hr hs ih => exact hstep _ _ _ _ hr ih hs

/-- **Invariant rule** for reachable states. -/
theorem Reachable.invariant {I : σ → Prop} (h0 : ∀ s, S.init s → I s)
    (hstep : ∀ s l t, I s → S.step s l t → I t) {s : σ} (hr : Reachable S s) : I s := by
  obtain ⟨h, hr⟩ := hr
  exact Run.invariant (I := fun _ s => I s) h0 (fun _ s l t _ hi hs => hstep s l t hi hs) hr

/-- Every step of a history was taken from a reachable state. -/
theorem Run.event {h : List (Event σ ℓ)} {s : σ} (hr : Run S h s) {e : Event σ ℓ} (he : e ∈ h) :
    Reachable S e.pre ∧ S.step e.pre e.label e.post := by
  induction hr with
  | init => simp at he
  | step hr hs ih =>
    rcases List.mem_cons.mp he with rfl | he
    · exact ⟨hr.reachable, hs⟩
    · exact ih he

/-- A run whose steps all meet `P` is a run of the restricted system. -/
theorem Run.restrict {P : σ → ℓ → Prop} {h : List (Event σ ℓ)} {s : σ} (hr : Run S h s)
    (hP : ∀ e ∈ h, P e.pre e.label) : Run (S.restrict P) h s := by
  induction hr with
  | init hi => exact .init hi
  | @step h s t l hr hs ih =>
    exact .step (ih fun e he => hP e (List.mem_cons_of_mem _ he))
      ⟨hs, hP ⟨s, l, t⟩ List.mem_cons_self⟩

/-! ### Refinement by a function -/

/-- The same step, its states seen through `f`. -/
def Event.map {τ : Type*} (f : σ → τ) (e : Event σ ℓ) : Event τ ℓ := ⟨f e.pre, e.label, f e.post⟩

/-- **Refinement rule**: if `f` takes initial states to initial states and the steps of `S`, from
states that satisfy the invariant `I`, to steps of `T`, it takes every run of `S` whose labels
meet `P` to a run of `T`. -/
theorem Run.map {τ : Type*} {T : System τ ℓ} {f : σ → τ} {I : σ → Prop} {P : ℓ → Prop}
    (h0 : ∀ s, S.init s → I s ∧ T.init (f s))
    (hstep : ∀ s l t, I s → P l → S.step s l t → I t ∧ T.step (f s) l (f t))
    {h : List (Event σ ℓ)} {s : σ} (hr : Run S h s) (hP : ∀ e ∈ h, P e.label) :
    I s ∧ Run T (h.map (Event.map f)) (f s) := by
  induction hr with
  | init hi =>
    obtain ⟨hI, hT⟩ := h0 _ hi
    exact ⟨hI, .init hT⟩
  | step _ hs ih =>
    obtain ⟨hI, hT⟩ := ih fun e he => hP e (List.mem_cons_of_mem _ he)
    obtain ⟨hI', hs'⟩ := hstep _ _ _ hI (hP _ List.mem_cons_self) hs
    exact ⟨hI', hT.step hs'⟩

/-! ### Two runs -/

/-- **Two-run rule**: a relation that matching steps keep holds at the end of two runs whose
newer parts match step by step, if it holds where these parts begin. -/
theorem Run.lockstep {R : σ → σ → Prop} {P Q : Event σ ℓ → Event σ ℓ → Prop}
    (hstep : ∀ e f, Reachable S e.pre → Reachable S f.pre → S.step e.pre e.label e.post →
      S.step f.pre f.label f.post → R e.pre f.pre → P e f → R e.post f.post ∧ Q e f)
    {newer newer' older older' : List (Event σ ℓ)} (hP : List.Forall₂ P newer newer')
    (hR : ∀ s t, Run S older s → Run S older' t → R s t) {s t : σ}
    (hr : Run S (newer ++ older) s) (hr' : Run S (newer' ++ older') t) :
    R s t ∧ List.Forall₂ Q newer newer' := by
  induction hP generalizing s t with
  | nil => exact ⟨hR s t hr hr', .nil⟩
  | @cons e f newer newer' hef _ ih =>
    obtain ⟨hpre, hs, rfl⟩ := hr.tail
    obtain ⟨hpre', hs', rfl⟩ := hr'.tail
    obtain ⟨hrel, hQ⟩ := ih hpre hpre'
    obtain ⟨hpost, hq⟩ := hstep e f hpre.reachable hpre'.reachable hs hs' hrel hef
    exact ⟨hpost, .cons hq hQ⟩

/-- The older part of a run is a run. -/
theorem Run.older {newer older : List (Event σ ℓ)} {t : σ} (hr : Run S (newer ++ older) t) :
    ∃ s, Run S older s := by
  induction newer generalizing t with
  | nil => exact ⟨t, hr⟩
  | cons e newer ih => exact ih hr.tail.1

/-! ### Histories -/

/-- Every entry of a history, newest first, satisfies `J` of the entries before it. -/
def Throughout {α : Type*} (J : List α → α → Prop) : List α → Prop
  | [] => True
  | a :: h => J h a ∧ Throughout J h

theorem throughout_iff {α : Type*} {J : List α → α → Prop} {h : List α} :
    Throughout J h ↔ ∀ later a earlier, h = later ++ a :: earlier → J earlier a := by
  induction h with
  | nil => simp [Throughout]
  | cons b h ih =>
    refine ⟨fun hh later a earlier he => ?_, fun hh => ⟨hh [] b h rfl, ih.mpr ?_⟩⟩
    · cases later with
      | nil =>
        obtain ⟨rfl, rfl⟩ := List.cons.inj he
        exact hh.1
      | cons c later =>
        exact ih.mp hh.2 later a earlier (List.cons.inj he).2
    · rintro later a earlier rfl
      exact hh (b :: later) a earlier rfl

theorem throughout_forall {α : Type*} {P : α → Prop} {h : List α} :
    Throughout (fun _ a => P a) h ↔ ∀ a ∈ h, P a := by
  induction h with
  | nil => simp [Throughout]
  | cons b h ih => simp [Throughout, ih]

theorem Throughout.mono {α : Type*} {J K : List α → α → Prop} (hJK : ∀ h a, J h a → K h a) {h : List α}
    (hh : Throughout J h) : Throughout K h := by
  induction h with
  | nil => trivial
  | cons a h ih => exact ⟨hJK h a hh.1, ih hh.2⟩

/-- A run that is back where all runs start is followed by any run. -/
theorem Run.append {h h' : List (Event σ ℓ)} {s t : σ} (hs : ∀ u, S.init u → u = s) (hr : Run S h s)
    (hr' : Run S h' t) : Run S (h' ++ h) t := by
  induction hr' with
  | init h0 =>
    obtain rfl := hs _ h0
    exact hr
  | step _ hstep ih => exact ih.step hstep

/-! ### Computed runs -/

/-- The history and the state after the steps that `f` computes, one for each label; `f` sees the
history so far and may refuse. -/
def play (f : List (Event σ ℓ) → σ → ℓ → Option σ) :
    List ℓ → List (Event σ ℓ) → σ → Option (List (Event σ ℓ) × σ)
  | [], h, s => some (h, s)
  | l :: labels, h, s => (f h s l).bind fun t => play f labels (⟨s, l, t⟩ :: h) t

/-- A run goes on through computed steps, and they keep to what `f` has checked. -/
theorem Run.play {f : List (Event σ ℓ) → σ → ℓ → Option σ} {J : List (Event σ ℓ) → Event σ ℓ → Prop}
    (hf : ∀ h s l t, f h s l = some t → S.step s l t ∧ J h ⟨s, l, t⟩) {labels : List ℓ}
    {h h' : List (Event σ ℓ)} {s t : σ} (hr : Run S h s) (hJ : Throughout J h)
    (hp : Transition.play f labels h s = some (h', t)) : Run S h' t ∧ Throughout J h' := by
  induction labels generalizing h s with
  | nil =>
    obtain ⟨rfl, rfl⟩ := Prod.mk.inj (Option.some.inj hp)
    exact ⟨hr, hJ⟩
  | cons l labels ih =>
    obtain ⟨u, hu, hp⟩ := Option.bind_eq_some_iff.mp hp
    obtain ⟨hstep, hnew⟩ := hf h s l u hu
    exact ih (hr.step hstep) ⟨hnew, hJ⟩ hp

/-- The steps carry the labels they were computed for. -/
theorem play_labels {f : List (Event σ ℓ) → σ → ℓ → Option σ} {labels : List ℓ}
    {h h' : List (Event σ ℓ)} {s t : σ} (hp : play f labels h s = some (h', t)) :
    h'.map Event.label = labels.reverse ++ h.map Event.label := by
  induction labels generalizing h s with
  | nil =>
    obtain ⟨rfl, -⟩ := Prod.mk.inj (Option.some.inj hp)
    rfl
  | cons l labels ih =>
    obtain ⟨u, -, hp⟩ := Option.bind_eq_some_iff.mp hp
    rw [ih hp, List.reverse_cons, List.append_assoc]
    rfl

theorem exists_play {f : List (Event σ ℓ) → σ → ℓ → Option σ} {labels : List ℓ}
    {h : List (Event σ ℓ)} {s : σ} (P : List (Event σ ℓ) → σ → Prop) [∀ h t, Decidable (P h t)]
    (hp : ((play f labels h s).any fun r => decide (P r.1 r.2)) = true) :
    ∃ h' t, play f labels h s = some (h', t) ∧ P h' t := by
  obtain ⟨⟨h', t⟩, hplay, hP⟩ := (Option.any_eq_true ..).mp hp
  exact ⟨h', t, hplay, of_decide_eq_true hP⟩

/-! ### Termination -/

/-- **Measure rule**: if every step strictly decreases `μ`, a run is at most as long as the
measure it used up. -/
theorem Run.length_add_le {μ : σ → ℕ} {B : ℕ} (h0 : ∀ s, S.init s → μ s ≤ B)
    (hstep : ∀ s l t, Reachable S s → S.step s l t → μ t < μ s) {h : List (Event σ ℓ)} {s : σ}
    (hr : Run S h s) : h.length + μ s ≤ B := by
  induction hr with
  | init hi => simpa using h0 _ hi
  | step hr hs ih =>
    have := hstep _ _ _ hr.reachable hs
    rw [List.length_cons]
    omega

/-- With such a measure every run goes on to a state where no step is left. -/
theorem Run.exists_end {μ : σ → ℕ} (hstep : ∀ s l t, Reachable S s → S.step s l t → μ t < μ s)
    {h : List (Event σ ℓ)} {s : σ} (hr : Run S h s) :
    ∃ newer t, Run S (newer ++ h) t ∧ ∀ l u, ¬ S.step t l u := by
  induction hn : μ s using Nat.strong_induction_on generalizing h s with
  | _ n ih =>
    by_cases hlast : ∀ l u, ¬ S.step s l u
    · exact ⟨[], s, hr, hlast⟩
    · push Not at hlast
      obtain ⟨l, u, hs⟩ := hlast
      obtain ⟨newer, t, hrun, hend⟩ := ih _ (hn ▸ hstep s l u hr.reachable hs) (hr.step hs) rfl
      refine ⟨newer ++ [⟨s, l, u⟩], t, ?_, hend⟩
      rwa [List.append_assoc]

/-- A system with a decreasing measure has no infinite run. -/
theorem not_forever {μ : σ → ℕ} (hstep : ∀ s l t, Reachable S s → S.step s l t → μ t < μ s)
    (f : ℕ → σ) (h0 : S.init (f 0)) : ¬ ∀ n, ∃ l, S.step (f n) l (f (n + 1)) := by
  intro hf
  have hr : ∀ n, Reachable S (f n) := by
    intro n
    induction n with
    | zero => exact .init h0
    | succ n ih =>
      obtain ⟨l, hl⟩ := hf n
      exact ih.step hl
  have hdec : ∀ n, μ (f n) + n ≤ μ (f 0) := by
    intro n
    induction n with
    | zero => simp
    | succ n ih =>
      obtain ⟨l, hl⟩ := hf n
      have := hstep _ _ _ (hr n) hl
      omega
  have := hdec (μ (f 0) + 1)
  omega

end Transition
