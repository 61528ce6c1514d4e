import Csc453.Malloc.Narration
import Csc453.Malloc.Find
import Csc453.Malloc.Refusal

/-!
# Csc453.Malloc.Reports — what DEBUG_MALLOC shows of a run

Every number in a report is a machine word, so no message is cut at the end of its buffer.  In a run
of requests of bounded size a call without `DEBUG_MALLOC` writes nothing, and the messages written hold
one report for each call made with it, in order, with the arguments, the result and the capacity of the
block returned; the heap is the one of the run without output (`narration_faithful`).
-/

namespace Csc453.Malloc

open Bytes Transition

variable {A : Abi} {d : Bool} {s s' : Session} {h' : Heap}

/-! ### What fits into the buffer -/

theorem repr_length_le {n : ℕ} (hn : n < A.space) : n.repr.length ≤ 20 := by
  have := A.sizes
  exact Nat.repr_length n 20 (by decide) (by omega)

theorem pointerText_length_le {p : ℕ} (hp : p < A.space) : (pointerText p).length ≤ 18 := by
  have := A.sizes
  have hhex := Nat.toDigits_length 16 p 16 (by decide) (by omega)
  have hpre : "0x".length = 2 := by decide
  have hnil : "(nil)".length = 5 := by decide
  unfold pointerText
  split_ifs
  · omega
  · have hlen : (String.ofList (Nat.toDigits 16 p)).length = _ := String.length_ofList
    rw [String.length_append]
    omega

/-- A report of machine words is shorter than the buffer. -/
theorem Report.text_length_le {r : Report} (hr : Message.Fits A (.report r)) : r.text.length ≤ 255 := by
  obtain ⟨h1, h2, h3, h4, h5⟩ := hr
  have h1 := pointerText_length_le h1
  have h2 := pointerText_length_le h2
  have h3 := repr_length_le h3
  have h4 := repr_length_le h4
  have h5 := repr_length_le h5
  have hlit : "MALLOC: malloc(".length = 15 ∧ "MALLOC: free(".length = 13 ∧ "MALLOC: calloc(".length = 15 ∧
      "MALLOC: realloc(".length = 16 ∧ ")\n=> (ptr=".length = 10 ∧ ") => (ptr=".length = 10 ∧
      ", size=".length = 7 ∧ ")\n".length = 2 ∧ ",".length = 1 := by decide
  unfold Report.text
  cases r.id <;> simp only [String.length_append] <;> omega

/-- What fits is written whole. -/
theorem Message.Fits.written {m : Message} (hm : m.Fits A) : m.written = m.text := by
  have hlen : m.text.length ≤ 255 := by
    cases m with
    | report r => exact Report.text_length_le hm
    | custom msg => exact hm
  unfold Message.written
  rw [List.take_of_length_le (by rwa [String.length_toList]), String.ofList_toList]

/-! ### Results are machine words -/

theorem splitblock_lt {h : Heap} {curr r p : ℕ} (hx : splitblock A curr r h = some (p, h')) :
    p < A.space := by
  have hS := A.space_facts
  rw [splitblock_fst hx]
  exact Nat.mod_lt _ (by omega)

theorem malloc_lt {g : Grants} {n p : ℕ} {h : Heap} (hx : malloc A g n h = some (p, h')) : p < A.space := by
  have hS := A.space_facts
  unfold malloc at hx
  by_cases h0 : n = 0
  · rw [if_pos h0] at hx
    obtain ⟨rfl, -⟩ := Prod.mk.inj (Option.some.inj hx)
    omega
  rw [if_neg h0] at hx
  dsimp only at hx
  rcases hff : firstFit A h.mem (A.roundUp16 n) A.space 0 h.heapHead with _ | ⟨prev, curr⟩
  · rw [hff] at hx
    cases hx
  rw [hff] at hx
  dsimp only at hx
  by_cases hc : curr = 0
  · rw [if_pos hc] at hx
    rcases happ : appendBlock A g prev (A.add A.headerSize (A.roundUp16 n)) h with ⟨_ | new, k⟩ <;>
      rw [happ] at hx
    · obtain ⟨rfl, -⟩ := Prod.mk.inj (Option.some.inj hx)
      omega
    · exact splitblock_lt hx
  · rw [if_neg hc] at hx
    exact splitblock_lt hx

theorem calloc_lt {g : Grants} {k n p : ℕ} {h : Heap} (hx : calloc A g k n h = some (p, h')) :
    p < A.space := by
  have hS := A.space_facts
  unfold calloc at hx
  dsimp only at hx
  split_ifs at hx
  · obtain ⟨rfl, -⟩ := Prod.mk.inj (Option.some.inj hx)
    omega
  rcases hm : malloc A g (A.mul k n) h with _ | ⟨q, h₁⟩
  · rw [hm] at hx
    cases hx
  rw [hm] at hx
  dsimp only at hx
  split_ifs at hx
  · obtain ⟨rfl, -⟩ := Prod.mk.inj (Option.some.inj hx)
    omega
  · obtain ⟨rfl, -⟩ := Prod.mk.inj (Option.some.inj hx)
    exact malloc_lt hm

theorem moveBlock_lt {g : Grants} {ptr curr cap n p : ℕ} {h : Heap}
    (hx : moveBlock A g ptr curr cap n h = some (p, h')) : p < A.space := by
  unfold moveBlock at hx
  rcases hm : malloc A g n h with _ | ⟨q, h₁⟩
  · rw [hm] at hx
    cases hx
  rw [hm] at hx
  dsimp only at hx
  have hq := malloc_lt hm
  split_ifs at hx
  · obtain ⟨rfl, -⟩ := Prod.mk.inj (Option.some.inj hx)
    omega
  · obtain ⟨k, -, hpair⟩ := Option.map_eq_some_iff.mp hx
    rw [← (Prod.mk.inj hpair).1]
    exact hq

theorem realloc_lt {g : Grants} {ptr n p : ℕ} {h : Heap} (hx : realloc A g ptr n h = some (p, h')) :
    p < A.space := by
  have hS := A.space_facts
  have hnull : ∀ k : Heap, some (0, k) = some (p, h') → p < A.space := fun k hk => by
    rw [← (Prod.mk.inj (Option.some.inj hk)).1]
    omega
  unfold realloc at hx
  split_ifs at hx
  · exact malloc_lt hx
  · obtain ⟨k, -, hpair⟩ := Option.map_eq_some_iff.mp hx
    rw [← (Prod.mk.inj hpair).1]
    omega
  rcases hfb : findblock A ptr h with _ | curr
  · rw [hfb] at hx
    cases hx
  rw [hfb] at hx
  dsimp only at hx
  split_ifs at hx
  · exact hnull _ hx
  · rw [← (Prod.mk.inj (Option.some.inj hx)).1]
    exact Nat.mod_lt _ (by omega)
  · exact splitblock_lt hx
  · unfold growLast at hx
    dsimp only at hx
    split_ifs at hx
    · exact hnull _ hx
    · exact splitblock_lt hx
    · exact hnull _ hx
    · exact splitblock_lt hx
  · exact splitblock_lt hx
  · exact moveBlock_lt hx

theorem exec_lt {g : Grants} {c : Call} {p : ℕ} {h : Heap} (hx : exec A g c h = some (p, h')) :
    p < A.space := by
  cases c with
  | malloc n => exact malloc_lt hx
  | calloc k n => exact calloc_lt hx
  | realloc q n => exact realloc_lt hx
  | free q =>
    have hS := A.space_facts
    obtain ⟨k, -, hpair⟩ := Option.map_eq_some_iff.mp hx
    rw [← (Prod.mk.inj hpair).1]
    omega

/-! ### Runs -/

namespace NarratedLabel

/-- The label without the output. -/
def silent : NarratedLabel → Label
  | .call _ c g p => .call c g p
  | .write x v => .write x v

/-- A call made with `DEBUG_MALLOC` set. -/
def loud : NarratedLabel → Bool
  | .call d .. => d
  | .write .. => false

end NarratedLabel

def silentEvent (e : Event Session NarratedLabel) : Event Heap Label :=
  ⟨e.pre.heap, e.label.silent, e.post.heap⟩

/-- `r` reports the call `e`: its arguments, its result, and the capacity of the block returned. -/
def Reports (A : Abi) (e : Event Session NarratedLabel) (r : Report) : Prop :=
  match e.label with
  | .call _ c _ p => r.id = c.id ∧ r.ptr = c.arg ∧ r.newPtr = p ∧ r.nmemb = c.nmemb ∧ r.size = c.size ∧
      (p = 0 → r.resultSize = 0) ∧ ∀ L, Chain A e.post.heap.mem e.post.heap.heapHead L →
        ∀ b ∈ L, b.payload A = p → r.resultSize = b.cap
  | .write .. => False

theorem Call.Words.args {c : Call} (hw : c.Words A) :
    c.arg < A.space ∧ c.nmemb < A.space ∧ c.size < A.space := by
  have hS := A.space_facts
  have h0 : 0 < A.space := by omega
  cases c with
  | malloc n => exact ⟨h0, h0, hw⟩
  | free q => exact ⟨hw, h0, h0⟩
  | calloc k n => exact ⟨h0, hw.1, hw.2⟩
  | realloc q n => exact ⟨hw.1, h0, hw.2⟩

/-- On a heap with a layout the search for the result returns, and finds its block. -/
theorem Holds.reportable {h : Heap} {T : Layout A} {c : Call} {p : ℕ} (hh : Holds h T) (hw : c.Words A)
    (hp : p < A.space) : Reportable A d s c.arg p c.nmemb c.size h := by
  intro _
  refine ⟨?_, hw.args.1, hp, hw.args.2⟩
  rcases (hh.findsExactly p).returns with h0 | ⟨b, -, -, hb⟩
  · exact ⟨0, h0⟩
  · exact ⟨b.addr, hb⟩

theorem Holds.foundCapacity {h : Heap} {T : Layout A} {b : Block} (hh : Holds h T) (hb : b ∈ T.blocks) :
    foundCapacity A (b.payload A) h = b.cap := by
  obtain ⟨-, -, -, -, hmin⟩ := T.tiles.bounds hb
  have hx : b.InPayload A (b.payload A) := by
    unfold Block.InPayload Block.fin Block.payload
    omega
  unfold Malloc.foundCapacity
  rw [findblock_inside hh.carries hb hx]
  dsimp only
  rw [if_pos (Chain.addr_ne_zero hh.chain hb)]
  exact (Seg.header_of_mem hh.chain hb).cap

/-- One call of the session, with or without output, from a heap with a layout. -/
theorem narrated_call {g : Grants} {c : Call} {q : ℕ} {T : Layout A} (hs : s.suppressDebug = false)
    (hh : Holds s.heap T) (hc : c.SizeOk A) (hw : c.Words A)
    (hq : Queried A s.heap (.call c g q)) (d : Bool) :
    ∃ p s', ∃ T' : Layout A, Narrated.exec A d g c s = some (p, s') ∧ Holds s'.heap T' ∧
      exec A g c s.heap = some (p, s'.heap) ∧
      Said A d s s' s'.heap (told A d s c.id c.arg p c.nmemb c.size s'.heap) := by
  obtain ⟨p, h', T', hx, hcall⟩ := call_spec hq hh (hc.serviceable s.heap g)
  obtain ⟨s', hs', hsaid⟩ := exec_said (d := d) hs hx (hcall.holds.reportable hw (exec_lt hx))
  have hheap := hsaid.heap
  subst hheap
  exact ⟨p, s', T', hs', hcall.holds, hx, hsaid⟩

/-- The session after a run: its heap is that of a run without output, and what has been written are
the reports of the calls made with `DEBUG_MALLOC` set, in order, among messages that fit; every other
call has written nothing. -/
structure Recorded (A : Abi) (hist : List (Event Session NarratedLabel)) (s : Session) : Prop where
  suppress : s.suppressDebug = false
  silent_run : Run (allocator A) (hist.map silentEvent) s.heap
  layout : ∃ T : Layout A, Holds s.heap T
  reports : List.Forall₂ (Reports A) (hist.filter fun e => e.label.loud)
    (s.out.filterMap Message.report?)
  fits : ∀ m ∈ s.out, m.Fits A
  quiet : ∀ e ∈ hist, e.label.loud = false → e.post.out = e.pre.out
  mute : (∀ e ∈ hist, e.label.loud = false) → s.out = []

/-- The one report a call told, if it was made with `DEBUG_MALLOC` set. -/
theorem Said.reports {hist : List (Event Session NarratedLabel)} {g : Grants} {c : Call} {p : ℕ}
    {T' : Layout A} (hs : s.suppressDebug = false) (hh : Holds s'.heap T')
    (hsaid : Said A d s s' s'.heap (told A d s c.id c.arg p c.nmemb c.size s'.heap))
    (hr : List.Forall₂ (Reports A) (hist.filter fun e => e.label.loud)
      (s.out.filterMap Message.report?)) :
    List.Forall₂ (Reports A)
      ((⟨s, .call d c g p, s'⟩ :: hist).filter fun e => e.label.loud)
      (s'.out.filterMap Message.report?) := by
  obtain ⟨msgs, ho, htold, -⟩ := hsaid.out
  rw [ho, List.filterMap_append, htold]
  unfold told
  cases d with
  | false =>
    rw [if_pos (show Quiet false s from Or.inr rfl), List.filter_cons_of_neg (by simp [NarratedLabel.loud])]
    exact hr
  | true =>
    have hnq : ¬ Quiet true s := by
      unfold Quiet
      rw [hs]
      decide
    rw [if_neg hnq, List.filter_cons_of_pos (by simp [NarratedLabel.loud])]
    refine .cons ⟨rfl, rfl, rfl, rfl, rfl, ?_, fun L hL b hb hbp => ?_⟩ hr
    · rintro rfl
      rfl
    · obtain rfl := Chain.unique hL hh.chain
      rw [← hbp]
      exact hh.foundCapacity hb

theorem Recorded.step {hist : List (Event Session NarratedLabel)} {l : NarratedLabel}
    (hr : Recorded A hist s) (hstep : (narrated A).step s l s') (hsz : SizesOk A l.silent)
    (hq : Queried A s.heap l.silent) : Recorded A (⟨s, l, s'⟩ :: hist) s' := by
  obtain ⟨T, hh⟩ := hr.layout
  cases l with
  | call d c g p =>
    obtain ⟨hw, hx⟩ := hstep
    obtain ⟨p', t, T', hx', hh', hsilent, hsaid⟩ := narrated_call hr.suppress hh hsz hw hq d
    obtain ⟨rfl, rfl⟩ := Prod.mk.inj (Option.some.inj (hx'.symm.trans hx))
    have hquiet : d = false → t.out = s.out := fun hd => hsaid.silent (Or.inr hd)
    refine ⟨hsaid.suppress.trans hr.suppress, ?_, ⟨T', hh'⟩, hsaid.reports hr.suppress hh' hr.reports, ?_,
      List.forall_mem_cons.mpr ⟨hquiet, hr.quiet⟩, fun hall => ?_⟩
    · exact run_call hr.silent_run hsilent hw
    · obtain ⟨msgs, ho, -, hfits⟩ := hsaid.out
      rw [ho]
      exact List.forall_mem_append.mpr ⟨hfits, hr.fits⟩
    · rw [List.forall_mem_cons] at hall
      rw [hquiet hall.1]
      exact hr.mute hall.2
  | write x v =>
    obtain ⟨hx, rfl⟩ := hstep
    refine ⟨hr.suppress, ?_, ⟨T, hh.write hx⟩, ?_, hr.fits,
      List.forall_mem_cons.mpr ⟨fun _ => rfl, hr.quiet⟩, fun hall => ?_⟩
    · have hwrite : (allocator A).step s.heap (.write x v) (s.withMem _).heap := ⟨hx, rfl⟩
      exact .step hr.silent_run hwrite
    · rw [List.filter_cons_of_neg (by simp [NarratedLabel.loud])]
      exact hr.reports
    · rw [List.forall_mem_cons] at hall
      exact hr.mute hall.2

/-- A recorded session in which every message went out whole, and whose next call returns what the call
without output returns, whether `DEBUG_MALLOC` is set or not. -/
structure Faithful (A : Abi) (hist : List (Event Session NarratedLabel)) (s : Session) : Prop
    extends Recorded A hist s where
  whole : ∀ m ∈ s.out, m.written = m.text
  returns : ∀ d c g, c.SizeOk A → c.Words A → g.query = true →
    ∃ p s', Narrated.exec A d g c s = some (p, s') ∧ exec A g c s.heap = some (p, s'.heap)

/-- **The narration is faithful**, in every run of requests of bounded size. -/
theorem narration_faithful {hist : List (Event Session NarratedLabel)} (hr : Run (narrated A) hist s)
    (hs : ∀ e ∈ hist, SizesOk A e.label.silent) (hq : ∀ e ∈ hist, Queried A e.pre.heap e.label.silent) :
    Faithful A hist s := by
  have hrec : Recorded A hist s := by
    induction hr with
    | init hi =>
      obtain ⟨hheap, hsup, hout⟩ := hi
      refine ⟨hsup, .init hheap, ⟨.empty A, hheap.1, Nat.zero_le _, fun h => absurd rfl h, hheap.2.1,
        hheap.2.2⟩, ?_, ?_, nofun, fun _ => hout⟩
      · rw [hout]
        exact .nil
      · rw [hout]
        exact nofun
    | step hr hstep ih =>
      rw [List.forall_mem_cons] at hs hq
      exact (ih hs.2 hq.2).step hstep hs.1 hq.1
  obtain ⟨T, hh⟩ := hrec.layout
  refine ⟨hrec, fun m hm => (hrec.fits m hm).written, fun d c g hc hw hg => ?_⟩
  obtain ⟨p, s', -, hx, -, hx', -⟩ := narrated_call (q := 0) hrec.suppress hh hc hw (fun _ _ _ => hg) d
  exact ⟨p, s', hx, hx'⟩

/-- One step of the session, if its call has the result the label says. -/
def replayNarrated (s : Session) : NarratedLabel → Option Session
  | .call d c g p =>
    if c.Words abi64 ∧ c.SizeOk abi64 ∧ g.query = true then
      (Narrated.exec abi64 d g c s).bind fun r => if r.1 = p then some r.2 else none
    else none
  | .write x v =>
    if liveAt abi64 s.heap x = true then some (s.withMem (Function.update s.heap.mem x v)) else none

theorem replayNarrated_step {l : NarratedLabel} (hl : replayNarrated s l = some s') :
    (narrated abi64).step s l s' ∧ SizesOk abi64 l.silent ∧ Queried abi64 s.heap l.silent := by
  unfold replayNarrated at hl
  cases l with
  | call d c g p =>
    obtain ⟨⟨hw, hsz, hq⟩, hl⟩ := Option.ite_none_right_eq_some.mp hl
    obtain ⟨⟨q, t⟩, hx, hl⟩ := Option.bind_eq_some_iff.mp hl
    obtain ⟨rfl, ht⟩ := Option.ite_none_right_eq_some.mp hl
    obtain rfl := Option.some.inj ht
    exact ⟨⟨hw, hx⟩, hsz, fun _ _ _ => hq⟩
  | write x v =>
    obtain ⟨hx, hl⟩ := Option.ite_none_right_eq_some.mp hl
    exact ⟨⟨live_of_liveAt hx, (Option.some.inj hl).symm⟩, trivial, trivial⟩

/-- Two requests and a `free`, the second request without output. -/
theorem narration_faithful_mixed : ∃ hist s, play (fun _ => replayNarrated)
      [.call true (.malloc 100) allGranted 4128, .call false (.malloc 200) allGranted 4272,
        .write 4128 7, .call true (.free 4272) allGranted 0] [] ⟨freshHeap, false, []⟩ = some (hist, s) ∧
    s.out.filterMap Message.report? = [⟨.FREE_ID, 4272, 0, 0, 0, 0⟩, ⟨.MALLOC_ID, 0, 4128, 0, 100, 112⟩] ∧
    Faithful abi64 hist s := by
  obtain ⟨hist, s, hp, hout⟩ : ∃ hist s, play (fun _ => replayNarrated)
      [.call true (.malloc 100) allGranted 4128, .call false (.malloc 200) allGranted 4272,
        .write 4128 7, .call true (.free 4272) allGranted 0] [] ⟨freshHeap, false, []⟩ = some (hist, s) ∧
      s.out.filterMap Message.report? =
        [⟨.FREE_ID, 4272, 0, 0, 0, 0⟩, ⟨.MALLOC_ID, 0, 4128, 0, 100, 112⟩] :=
    exists_play (fun _ (s : Session) => s.out.filterMap Message.report? =
      [⟨.FREE_ID, 4272, 0, 0, 0, 0⟩, ⟨.MALLOC_ID, 0, 4128, 0, 100, 112⟩]) (by decide +kernel)
  obtain ⟨hr, hJ⟩ := Run.play (S := narrated abi64)
    (J := fun _ e => SizesOk abi64 e.label.silent ∧ Queried abi64 e.pre.heap e.label.silent)
    (fun _ _ _ _ => replayNarrated_step) (.init ⟨⟨rfl, by decide, by decide⟩, rfl, rfl⟩) trivial hp
  have hall := throughout_forall.mp hJ
  exact ⟨hist, s, hp, hout, narration_faithful hr (fun e he => (hall e he).1) fun e he => (hall e he).2⟩

end Csc453.Malloc
