import Csc453.Malloc.Pointers
import Csc453.Malloc.Collapse
import Csc453.Malloc.Laws
import Csc453.Lib.Objects

/-!
# Csc453.Malloc.Objects — the heap implements a store of objects

The callers of the allocator see objects: what `malloc`, `calloc` and `realloc` returned and nobody
has freed since, with the bytes written into them.  `objectsOf` folds a history into that store,
looking at calls, results and writes only.  `Represents` says that the heap implements the store:
the used blocks are the blocks of the objects, one for one, each with room for its object and with
its bytes.  Every call of callers who pass pointers into their own objects keeps it
(`objects_refined`); when all objects have been freed, the heap is one free block again
(`all_freed_one_block`).
-/

namespace Csc453.Malloc

open Bytes Coalesce Transition Objects

variable {A : Abi}

/-! ### The store -/

/-- What a call that returned `p` does to the objects of its callers. -/
def Call.objects (p : ℕ) : Call → Store UInt8 → Store UInt8
  | .malloc n, S => if p = 0 then S else put p (List.replicate n none) S
  | .free x, S => drop x S
  | .calloc k n, S => if p = 0 then S else put p (List.replicate (k * n) (some 0)) S
  | .realloc x n, S =>
    if x = 0 then if p = 0 then S else put p (List.replicate n none) S
    else if n = 0 then drop x S
    else if p = 0 then S
    else match holder S x with
      | none => S
      | some o => put p (resize n o.cells) (drop x S)

def Label.objects : Label → Store UInt8 → Store UInt8
  | .call c _ p, S => c.objects p S
  | .write x v, S => Objects.write x v S

/-- The live objects after a history. -/
def objectsOf (hist : List (Event Heap Label)) : Store UInt8 :=
  hist.foldr (fun e S => e.label.objects S) []

/-- Callers pass pointers into their objects, or away from every payload; a pointer into a block that
is free already only to be freed again. -/
def Honest (A : Abi) (h : Heap) (S : Store UInt8) : Label → Prop
  | .call c _ _ => ∀ L, Chain A h.mem h.heapHead L → ∀ b ∈ L, b.InPayload A c.arg →
      (b.free ∧ c.bytes = 0) ∨ ∃ o ∈ S, o.Has c.arg
  | .write _ _ => True

/-! ### The used blocks -/

/-- The payloads of the used blocks. -/
def pointers (A : Abi) (L : List Block) : List ℕ := (L.filter fun b => !b.free).map (Block.payload A)

theorem mem_pointers {L : List Block} {p : ℕ} :
    p ∈ pointers A L ↔ ∃ b ∈ L, ¬ b.free ∧ b.payload A = p := by
  unfold pointers
  simp only [List.mem_map, List.mem_filter, Bool.not_eq_true', Bool.not_eq_true, and_assoc]

@[simp] theorem pointers_append (L M : List Block) :
    pointers A (L ++ M) = pointers A L ++ pointers A M := by
  unfold pointers
  rw [List.filter_append, List.map_append]

theorem pointers_cons_used {b : Block} (hb : ¬ b.free) (L : List Block) :
    pointers A (b :: L) = b.payload A :: pointers A L := by
  unfold pointers
  rw [List.filter_cons_of_pos (by simpa using hb), List.map_cons]

theorem pointers_cons_free {b : Block} (hb : b.free) (L : List Block) :
    pointers A (b :: L) = pointers A L := by
  unfold pointers
  rw [List.filter_cons_of_neg (by simpa using hb)]

@[simp] theorem pointers_merged (L : List Block) : pointers A (merged A L) = pointers A L := by
  unfold pointers
  rw [used_merged]

/-- What a split leaves behind the block is free. -/
theorem pointers_splitList {b : Block} (hb : ¬ b.free) (r : ℕ) :
    pointers A (splitList A b r) = [b.payload A] := by
  by_cases hmin : A.headerSize + MINIMUM_PAYLOAD_SIZE ≤ b.cap - r
  · rw [splitList_of_le hmin, pointers_cons_used (by exact hb), pointers_cons_free rfl]
    rfl
  · rw [splitList_of_lt (not_le.mp hmin), pointers_cons_used hb]
    rfl

theorem pointers_mid {b : Block} (hb : ¬ b.free) (L M : List Block) :
    (pointers A (L ++ b :: M)).Perm (b.payload A :: (pointers A L ++ pointers A M)) := by
  rw [pointers_append, pointers_cons_used hb]
  exact List.perm_middle

theorem Tiles.nodup_pointers {lo hi : ℕ} {L : List Block} (h : Tiles A lo L hi) :
    (pointers A L).Nodup := by
  unfold pointers
  refine List.Nodup.map_on (fun b hb c hc he => ?_) (h.spaced.nodup.filter _)
  exact h.spaced.eq_of_payload (List.mem_of_mem_filter hb) (List.mem_of_mem_filter hc) he

/-- A block put to use at `f`, split, with the blocks `L` before and `M` behind it. -/
theorem Rewritten.pointers {h h' : Heap} {L M L' : List Block} {c : Block} {r : ℕ}
    (hr : Rewritten A h h' (L ++ (splitList A c r ++ M))) (hc : ¬ c.free)
    (hL' : Chain A h'.mem h'.heapHead L') :
    (Malloc.pointers A L').Perm (c.payload A :: (Malloc.pointers A L ++ Malloc.pointers A M)) := by
  obtain rfl := Chain.unique hL' hr.chain
  rw [pointers_merged, pointers_append, pointers_append, pointers_splitList hc]
  exact List.perm_middle

/-- `malloc` adds its result. -/
theorem MallocOutcome.pointers {n p : ℕ} {h h' : Heap} {L L' : List Block} (hp : p ≠ 0)
    (ho : MallocOutcome A n h L p h') (hL' : Chain A h'.mem h'.heapHead L') :
    (Malloc.pointers A L').Perm (p :: Malloc.pointers A L) := by
  cases ho with
  | refused => exact absurd rfl hp
  | @reused L₁ L₂ f m' _ hL hfit _ hre =>
    rw [hL, pointers_append, pointers_cons_free hfit.1]
    exact hre.pointers (c := { f with free := false }) (by simp) hL'
  | grown _ _ _ _ _ hre =>
    have hperm := hre.pointers (c := { newBlock A n h.brk with free := false }) (by simp) hL'
    rwa [show Malloc.pointers A [] = [] from rfl, List.append_nil] at hperm

/-- `free` removes the payload of the block it frees. -/
theorem Reshaped.pointers_freed {h h' : Heap} {L₁ L₂ L' : List Block} {b : Block} {lo : ℕ}
    (hr : Reshaped A h h' (L₁ ++ { b with free := true } :: L₂) lo) (hb : ¬ b.free)
    (hL' : Chain A h'.mem h'.heapHead L') :
    (pointers A (L₁ ++ b :: L₂)).Perm (b.payload A :: pointers A L') := by
  obtain rfl := Chain.unique hL' hr.chain
  rw [pointers_merged, pointers_append L₁ ({ b with free := true } :: L₂),
    pointers_cons_free (b := { b with free := true }) rfl]
  exact pointers_mid hb L₁ L₂

/-- A move adds the new block and removes the old one. -/
theorem MallocOutcome.moved_pointers {ptr n p : ℕ} {h h₁ h' : Heap} {T : Layout A} {b : Block}
    {L' : List Block} (hh : Holds h T) (hb : b ∈ T.blocks) (hbf : ¬ b.free) (hx : b.InPayload A ptr)
    (h0 : 0 < n) (hn : n + 15 < A.space) (hcap : b.cap < A.roundUp16 n) (hp : p ≠ 0)
    (ho : MallocOutcome A n h T.blocks p h₁)
    (hfr : free A ptr { h₁ with mem := copy h₁.mem p (b.payload A) b.cap } = some h')
    (hL' : Chain A h'.mem h'.heapHead L') {K : List ℕ}
    (hK : (Malloc.pointers A T.blocks).Perm (b.payload A :: K)) :
    (Malloc.pointers A L').Perm (p :: K) := by
  obtain ⟨T₁, hs, hs₂⟩ := ho.copied hh hb h0 hn hcap hp
  have hb₁ := (hs.kept b hb hbf (not_inPayload_zero b)).1
  have hadd := ho.pointers hp hs.holds.chain
  rcases free_spec ptr hs₂.holds with ⟨hall, -⟩ | ⟨K₁, d, K₂, m', hT₁, hdf, hxd, hfr', hre⟩
  · exact absurd (hall b hb₁ hx) hbf
  obtain rfl := Option.some.inj (hfr.symm.trans hfr')
  obtain rfl : d = b := T₁.tiles.spaced.eq_of_inPayload (by rw [hT₁]; simp) hb₁ hxd hx
  have hrem := hre.pointers_freed hdf hL'
  rw [← hT₁] at hrem
  have hswap : (p :: d.payload A :: K).Perm (d.payload A :: p :: K) := List.Perm.swap _ _ _
  exact (List.perm_cons _).mp (hrem.symm.trans (hadd.trans ((hK.cons p).trans hswap)))

/-- `realloc` exchanges the payload of the block around the pointer for its result. -/
theorem ReallocOutcome.pointers {g : Grants} {ptr n p : ℕ} {h h' : Heap} {T : Layout A}
    {L₁ L₂ L' : List Block} {b : Block} (hh : Holds h T) (hL : T.blocks = L₁ ++ b :: L₂) (hbf : ¬ b.free)
    (hx : b.InPayload A ptr) (h0 : 0 < n) (hn : n + 15 < A.space) (hp : p ≠ 0)
    (ho : ReallocOutcome A g ptr n h L₁ b L₂ p h') (hL' : Chain A h'.mem h'.heapHead L') :
    (Malloc.pointers A L').Perm (p :: (Malloc.pointers A L₁ ++ Malloc.pointers A L₂)) := by
  have hmid := pointers_mid (A := A) hbf L₁ L₂
  cases ho with
  | same =>
    obtain rfl := Chain.unique hL' hh.chain
    rw [hL]
    exact hmid
  | shrunk _ hre => exact hre.pointers hbf hL'
  | grown hL₂ _ _ _ _ hre =>
    subst hL₂
    exact hre.pointers (c := grownBlock A b n) hbf hL'
  | growRefused => exact absurd rfl hp
  | @absorbed c L₃ m' hL₂ _ hcf _ hre =>
    subst hL₂
    rw [pointers_cons_free hcf]
    exact hre.pointers (c := b.join A c) hbf hL'
  | moveRefused => exact absurd rfl hp
  | moved _ hcap _ _ _ ho hfr =>
    rw [← hL] at ho hmid
    exact ho.moved_pointers hh (by rw [hL]; simp) hbf hx h0 hn hcap hp hfr hL' hmid

/-! ### Objects and their blocks -/

/-- The object has a block with room for it, and its bytes are in memory. -/
structure Backed (A : Abi) (h : Heap) (L : List Block) (o : Object UInt8) : Prop where
  block : ∃ b ∈ L, ¬ b.free ∧ b.payload A = o.base ∧ o.cells.length ≤ b.cap
  data : ∀ x v, o.Reads x v → h.mem x = v

/-- The used blocks of `L` are the blocks of the objects `S`. -/
structure Represents (A : Abi) (h : Heap) (L : List Block) (S : Store UInt8) : Prop where
  pointers : (Malloc.pointers A L).Perm (S.map Object.base)
  backed : ∀ o ∈ S, Backed A h L o

variable {h h' : Heap} {T T' : Layout A} {S : Store UInt8} {o : Object UInt8} {x n p : ℕ}

/-- An address in an object is in the payload of its block. -/
theorem Backed.around {L : List Block} (hb : Backed A h L o) (hx : o.Has x) :
    ∃ b ∈ L, ¬ b.free ∧ b.payload A = o.base ∧ b.InPayload A x := by
  obtain ⟨b, hbL, hbf, hbase, hlen⟩ := hb.block
  refine ⟨b, hbL, hbf, hbase, ?_⟩
  obtain ⟨hle, hlt⟩ := hx
  unfold Block.InPayload Block.fin
  unfold Block.payload at hbase ⊢
  omega

/-- An object whose block is away from the pointer of a call stays. -/
theorem Backed.kept {arg : ℕ} (hb : Backed A h T.blocks o) (hk : Kept h h' T T' arg)
    (haway : ∀ b ∈ T.blocks, b.payload A = o.base → ¬ b.InPayload A arg) : Backed A h' T'.blocks o := by
  obtain ⟨b, hbT, hbf, hbase, hlen⟩ := hb.block
  have hout := haway b hbT hbase
  obtain ⟨hbT', hsame⟩ := hk b hbT hbf hout
  refine ⟨⟨b, hbT', hbf, hbase, hlen⟩, fun x v hv => ?_⟩
  obtain ⟨c, hc, -, hcbase, hcx⟩ := hb.around hv.has
  obtain rfl := T.tiles.spaced.eq_of_payload hbT hc (hbase.trans hcbase.symm)
  rw [hsame x hcx]
  exact hb.data x v hv

namespace Represents

theorem nodup (hr : Represents A h T.blocks S) : (S.map Object.base).Nodup :=
  hr.pointers.nodup_iff.mp T.tiles.nodup_pointers

/-- The used block around an address of an object is the block of the object. -/
theorem base_eq (hr : Represents A h T.blocks S) (ho : o ∈ S) (hx : o.Has x) {b : Block}
    (hb : b ∈ T.blocks) (hbx : b.InPayload A x) : ¬ b.free ∧ b.payload A = o.base := by
  obtain ⟨c, hc, hcf, hcbase, hcx⟩ := (hr.backed o ho).around hx
  obtain rfl := T.tiles.spaced.eq_of_inPayload hb hc hbx hcx
  exact ⟨hcf, hcbase⟩

/-- Where no used block is, no object is. -/
theorem no_object (hr : Represents A h T.blocks S) (hno : ∀ b ∈ T.blocks, b.InPayload A x → b.free) :
    ∀ o ∈ S, ¬ o.Has x := by
  intro o ho hx
  obtain ⟨b, hb, hbf, -, hbx⟩ := (hr.backed o ho).around hx
  exact hbf (hno b hb hbx)

theorem of_mem_eq {L : List Block} (hr : Represents A h L S) (hm : h'.mem = h.mem) :
    Represents A h' L S :=
  ⟨hr.pointers, fun o ho => ⟨(hr.backed o ho).block, fun x v hv => by
    rw [hm]
    exact (hr.backed o ho).data x v hv⟩⟩

/-- A new object in a block of its own. -/
theorem put {cells : List (Option UInt8)} (hr : Represents A h T.blocks S) (hs : Served h h' T T' p 0 n)
    (hp : p ≠ 0) (hptr : (Malloc.pointers A T'.blocks).Perm (p :: Malloc.pointers A T.blocks))
    (hlen : cells.length ≤ n) (hdata : ∀ i v, cells[i]? = some (some v) → h'.mem (p + i) = v) :
    Represents A h' T'.blocks (Objects.put p cells S) := by
  refine ⟨hptr.trans (hr.pointers.cons p), fun o ho => ?_⟩
  rcases List.mem_cons.mp ho with rfl | ho
  · obtain ⟨u, hu, huf, hpu, hnr, hru⟩ := hs.given hp
    refine ⟨⟨u, hu, huf, hpu.symm, (hlen.trans hnr).trans hru⟩, fun x v hv => ?_⟩
    have hcell := hdata (x - p) v hv.2
    rwa [Nat.add_sub_cancel' hv.1] at hcell
  · exact (hr.backed o ho).kept hs.kept fun b _ _ => not_inPayload_zero b

/-- The objects that are left when the one around `x` goes are away from `x`. -/
theorem drop_kept (hr : Represents A h T.blocks S) (hk : Kept h h' T T' x) {d : Object UInt8}
    (hd : d ∈ S) (hdx : d.Has x) (hperm : S.Perm (d :: Objects.drop x S)) :
    ∀ o ∈ Objects.drop x S, Backed A h' T'.blocks o := by
  intro o ho
  refine (hr.backed o (mem_of_mem_drop ho)).kept hk fun b hb hbase hbx => ?_
  have hnodup := (hperm.map Object.base).nodup_iff.mp hr.nodup
  rw [List.map_cons, List.nodup_cons] at hnodup
  refine hnodup.1 (List.mem_map.mpr ⟨o, ho, ?_⟩)
  rw [← hbase, (hr.base_eq hd hdx hb hbx).2]

/-- The object around `x` goes, with its block `b`. -/
theorem drop {b : Block} (hr : Represents A h T.blocks S) (hk : Kept h h' T T' x) (ho : o ∈ S)
    (hx : o.Has x) (hb : b ∈ T.blocks) (hbx : b.InPayload A x)
    (hptr : (Malloc.pointers A T.blocks).Perm (b.payload A :: Malloc.pointers A T'.blocks)) :
    Represents A h' T'.blocks (Objects.drop x S) := by
  obtain ⟨d, hd, hdx, -, hperm⟩ := drop_spec ho hx
  refine ⟨?_, hr.drop_kept hk hd hdx hperm⟩
  have hbases := hptr.symm.trans (hr.pointers.trans (hperm.map Object.base))
  rw [List.map_cons, (hr.base_eq hd hdx hb hbx).2] at hbases
  exact (List.perm_cons _).mp hbases

/-- The object around `x` gets a new size, in the block `p`. -/
theorem resize {b : Block} {K : List ℕ} (hr : Represents A h T.blocks S) (hs : Served h h' T T' p x n)
    (hp : p ≠ 0) (ho : o ∈ S) (hx : o.Has x) (hb : b ∈ T.blocks) (hbx : b.InPayload A x)
    (hptr : (Malloc.pointers A T.blocks).Perm (b.payload A :: K))
    (hptr' : (Malloc.pointers A T'.blocks).Perm (p :: K))
    (hdata : ∀ i < min b.cap n, h'.mem (p + i) = h.mem (b.payload A + i)) :
    ∃ d, holder S x = some d ∧
      Represents A h' T'.blocks (Objects.put p (Objects.resize n d.cells) (Objects.drop x S)) := by
  obtain ⟨d, hd, hdx, hhold, hperm⟩ := drop_spec ho hx
  obtain ⟨hbf, hbase⟩ := hr.base_eq hd hdx hb hbx
  refine ⟨d, hhold, ?_, fun o ho => ?_⟩
  · have hbases := hptr.symm.trans (hr.pointers.trans (hperm.map Object.base))
    rw [List.map_cons, hbase] at hbases
    exact hptr'.trans (((List.perm_cons _).mp hbases).cons p)
  rcases List.mem_cons.mp ho with rfl | ho
  · obtain ⟨u, hu, huf, hpu, hnr, hru⟩ := hs.given hp
    refine ⟨⟨u, hu, huf, hpu.symm, ?_⟩, fun y v hv => ?_⟩
    · rw [length_resize]
      exact hnr.trans hru
    · obtain ⟨hle, hcell⟩ := hv
      dsimp only at hle hcell
      obtain ⟨hlt, hcell⟩ := resize_cell hcell
      obtain ⟨c, hc, -, hcbase, hclen⟩ := (hr.backed d hd).block
      obtain rfl := T.tiles.spaced.eq_of_payload hb hc (hbase.trans hcbase.symm)
      have hcap := (List.getElem?_eq_some_iff.mp hcell).1
      have hread : d.Reads (d.base + (y - p)) v :=
        ⟨Nat.le_add_right _ _, by rwa [Nat.add_sub_cancel_left]⟩
      have hmove := hdata (y - p) (by omega)
      rw [Nat.add_sub_cancel' hle, hbase] at hmove
      rw [hmove]
      exact (hr.backed d hd).data _ v hread
  · exact hr.drop_kept hs.kept hd hdx hperm o ho

/-- A byte written by a caller. -/
theorem write {L : List Block} {v : UInt8} (hr : Represents A h L S) :
    Represents A { h with mem := Function.update h.mem x v } L (Objects.write x v S) := by
  refine ⟨by rw [bases_write]; exact hr.pointers, fun o ho => ?_⟩
  obtain ⟨o, hoS, rfl⟩ := List.mem_map.mp ho
  obtain ⟨b, hb, hbf, hbase, hlen⟩ := (hr.backed o hoS).block
  refine ⟨⟨b, hb, hbf, by rw [Object.write_base]; exact hbase, by rw [Object.write_length]; exact hlen⟩,
    fun y w hw => ?_⟩
  rcases Object.reads_write hw with ⟨rfl, rfl⟩ | ⟨hne, hy⟩
  · exact Function.update_self ..
  · rw [show ({ h with mem := Function.update h.mem x v } : Heap).mem y = h.mem y from
      Function.update_of_ne hne ..]
    exact (hr.backed o hoS).data y w hy

end Represents

/-! ### One call -/

theorem MallocOutcome.represents (hh : Holds h T) (hr : Represents A h T.blocks S) (h0 : 0 < n)
    (ho : MallocOutcome A n h T.blocks p h') : ∃ T' : Layout A, Holds h' T' ∧
      Represents A h' T'.blocks (if p = 0 then S else Objects.put p (List.replicate n none) S) := by
  obtain ⟨T', hs⟩ := ho.served hh h0
  refine ⟨T', hs.holds, ?_⟩
  by_cases hp : p = 0
  · rw [if_pos hp]
    obtain ⟨href, rfl⟩ := hs.null hp
    exact hr.of_mem_eq href.mem
  · rw [if_neg hp]
    exact hr.put hs hp (ho.pointers hp hs.holds.chain) (List.length_replicate ..).le
      fun i v hcell => absurd hcell replicate_none_cell

theorem malloc_represents {g : Grants} (hg : g.query = true) (hn : Call.SizeOk A (.malloc n))
    (hh : Holds h T) (hr : Represents A h T.blocks S) (hx : malloc A g n h = some (p, h')) :
    ∃ T' : Layout A, Holds h' T' ∧
      Represents A h' T'.blocks (if p = 0 then S else Objects.put p (List.replicate n none) S) := by
  rcases Nat.eq_zero_or_pos n with rfl | h0
  · obtain ⟨rfl, rfl⟩ := Prod.mk.inj (Option.some.inj ((malloc_zero g h).symm.trans hx))
    rw [if_pos rfl]
    exact ⟨T, hh, hr⟩
  · obtain ⟨q, k, hm, ho⟩ := malloc_outcome (Or.inr hg) hh.carries h0 (.of_size hn)
    obtain ⟨rfl, rfl⟩ := Prod.mk.inj (Option.some.inj (hm.symm.trans hx))
    exact ho.represents hh hr h0

theorem calloc_represents {g : Grants} {k : ℕ} (hg : g.query = true) (hn : Call.SizeOk A (.calloc k n))
    (hh : Holds h T) (hr : Represents A h T.blocks S) (hx : calloc A g k n h = some (p, h')) :
    ∃ T' : Layout A, Holds h' T' ∧
      Represents A h' T'.blocks (if p = 0 then S else Objects.put p (List.replicate (k * n) (some 0)) S) := by
  have hlt := hn.lt_space
  rw [calloc_eq g h (show k * n < A.space from (Nat.le_add_right _ 15).trans_lt hlt)] at hx
  rcases Nat.eq_zero_or_pos (k * n) with hz | h0
  · rw [hz, malloc_zero] at hx
    obtain ⟨rfl, rfl⟩ := Prod.mk.inj (Option.some.inj hx)
    rw [if_pos rfl]
    exact ⟨T, hh, hr⟩
  obtain ⟨q, h₁, hm, ho⟩ := malloc_outcome (Or.inr hg) hh.carries h0 (.of_size hn)
  obtain ⟨T', hs⟩ := ho.served hh h0
  rw [hm] at hx
  dsimp only at hx
  by_cases hq : q = 0
  · rw [if_pos hq] at hx
    obtain ⟨rfl, rfl⟩ := Prod.mk.inj (Option.some.inj hx)
    rw [if_pos rfl]
    obtain ⟨href, rfl⟩ := hs.null hq
    exact ⟨T', hs.holds, hr.of_mem_eq href.mem⟩
  · rw [if_neg hq] at hx
    obtain ⟨rfl, rfl⟩ := Prod.mk.inj (Option.some.inj hx)
    have hs₂ := hs.write hq fun y hy => fill_outside (m := h₁.mem) (b := 0) hy
    rw [if_neg hq]
    refine ⟨T', hs₂.holds, hr.put hs₂ hq (ho.pointers hq hs.holds.chain) (List.length_replicate ..).le
      fun i v hcell => ?_⟩
    have hi := (List.getElem?_eq_some_iff.mp hcell).1
    rw [List.length_replicate] at hi
    obtain rfl : v = 0 := Option.some.inj (List.eq_of_mem_replicate (List.mem_of_getElem? hcell))
    exact fill_inside (Nat.le_add_right _ _) (by omega)

theorem free_represents (hh : Holds h T) (hr : Represents A h T.blocks S)
    (hx : ∀ b ∈ T.blocks, b.InPayload A x → b.free ∨ ∃ o ∈ S, o.Has x) :
    ∃ (h' : Heap) (T' : Layout A), free A x h = some h' ∧ Holds h' T' ∧ Represents A h' T'.blocks (Objects.drop x S) := by
  rcases free_spec x hh with ⟨hall, hf⟩ | ⟨L₁, b, L₂, m', hL, hbf, hbx, hf, hre⟩
  · rw [(drop_none (hr.no_object hall)).1]
    exact ⟨h, T, hf, hh, hr⟩
  · have hb : b ∈ T.blocks := by
      rw [hL]
      simp
    obtain ⟨o, ho, hox⟩ := (hx b hb hbx).resolve_left hbf
    have hkept : Kept h { h with mem := m' } T (Layout.ofTiles hre.tiles) x := hre.kept fun c hc _ hcx => by
      rw [hL] at hc
      exact mem_splice hc (fun he => hcx (he ▸ hbx)) [{ b with free := true }]
    refine ⟨_, _, hf, hre.holds, hr.drop hkept ho hox hb hbx ?_⟩
    rw [hL]
    exact hre.pointers_freed hbf hre.chain

/-- `realloc` of a pointer that is not `NULL` to a positive size. -/
theorem realloc_represents {g : Grants} (hg : g.query = true) (hn : Call.SizeOk A (.realloc x n))
    (hh : Holds h T) (hr : Represents A h T.blocks S) (hx0 : x ≠ 0) (h0 : 0 < n)
    (hown : ∀ b ∈ T.blocks, b.InPayload A x → ∃ o ∈ S, o.Has x) (hx : realloc A g x n h = some (p, h')) :
    ∃ T' : Layout A, Holds h' T' ∧ Represents A h' T'.blocks (Call.objects p (.realloc x n) S) := by
  show ∃ T' : Layout A, Holds h' T' ∧ Represents A h' T'.blocks
    (if x = 0 then if p = 0 then S else Objects.put p (List.replicate n none) S
    else if n = 0 then Objects.drop x S
    else if p = 0 then S
    else match holder S x with
      | none => S
      | some o => Objects.put p (Objects.resize n o.cells) (Objects.drop x S))
  rw [if_neg hx0, if_neg (by omega)]
  by_cases hin : ∃ b ∈ T.blocks, b.InPayload A x
  · obtain ⟨b, hb, hbx⟩ := hin
    obtain ⟨o, ho, hox⟩ := hown b hb hbx
    have hbf := (hr.base_eq ho hox hb hbx).1
    obtain ⟨L₁, L₂, hL⟩ := List.append_of_mem hb
    have hcar := hh.carries
    rw [hL] at hcar
    obtain ⟨q, k, hre, hout⟩ := realloc_outcome (Or.inr hg) hcar hbx h0 ((ReallocOk.of_size hn).block hbx)
    obtain ⟨rfl, rfl⟩ := Prod.mk.inj (Option.some.inj (hre.symm.trans hx))
    obtain ⟨T', ha, hserved⟩ := hout.realloced hh hL hbx h0 hn.lt_space
    refine ⟨T', ha.holds, ?_⟩
    by_cases hp : q = 0
    · rw [if_pos hp]
      obtain ⟨href, rfl⟩ := ha.null hp
      exact hr.of_mem_eq href.mem
    · rw [if_neg hp]
      have hs := hserved fun c hc hcx => by
        rw [T.tiles.spaced.eq_of_inPayload hc hb hcx hbx]
        exact hbf
      obtain ⟨L', hk⟩ := hout.dataKept hh hL hbf hbx h0 hn.lt_space hp
      have hptr := pointers_mid (A := A) hbf L₁ L₂
      rw [← hL] at hptr
      obtain ⟨d, hd, hrep⟩ := hr.resize hs hp ho hox hb hbx hptr
        (hout.pointers hh hL hbf hbx h0 hn.lt_space hp hs.holds.chain) hk.data
      rw [hd]
      exact hrep
  · have hx' := realloc_outside (g := g) hh.carries hx0 h0 fun b hb hbx => hin ⟨b, hb, hbx⟩
    obtain ⟨rfl, rfl⟩ := Prod.mk.inj (Option.some.inj (hx'.symm.trans hx))
    rw [if_pos rfl]
    exact ⟨T, hh, hr⟩

/-- Every call does to the objects what it does to the heap. -/
theorem exec_represents {g : Grants} {c : Call} (hg : g.query = true) (hc : c.SizeOk A) (hh : Holds h T)
    (hr : Represents A h T.blocks S) (hd : Honest A h S (.call c g p))
    (hx : exec A g c h = some (p, h')) :
    ∃ T' : Layout A, Holds h' T' ∧ Represents A h' T'.blocks (c.objects p S) := by
  have hd := hd T.blocks hh.chain
  cases c with
  | malloc n => exact malloc_represents hg hc hh hr hx
  | calloc k n => exact calloc_represents hg hc hh hr hx
  | free x =>
    obtain ⟨k, T', hf, hh', hr'⟩ := free_represents hh hr fun b hb hbx => (hd b hb hbx).imp_left And.left
    obtain ⟨-, rfl⟩ := Prod.mk.inj (Option.some.inj ((congrArg (Option.map _) hf).symm.trans hx))
    exact ⟨T', hh', hr'⟩
  | realloc x n =>
    by_cases hx0 : x = 0
    · subst hx0
      exact malloc_represents hg hc hh hr hx
    rcases Nat.eq_zero_or_pos n with rfl | h0
    · obtain ⟨k, T', hf, hh', hr'⟩ := free_represents hh hr fun b hb hbx => (hd b hb hbx).imp_left And.left
      have hf : free A x h = some k := hf
      have hx : realloc A g x 0 h = some (p, h') := hx
      unfold realloc at hx
      rw [if_neg hx0, if_pos rfl, hf] at hx
      obtain ⟨-, rfl⟩ := Prod.mk.inj (Option.some.inj hx)
      refine ⟨T', hh', ?_⟩
      show Represents A k T'.blocks (if x = 0 then _ else if 0 = 0 then Objects.drop x S else _)
      rw [if_neg hx0, if_pos rfl]
      exact hr'
    · refine realloc_represents hg hc hh hr hx0 h0 (fun b hb hbx => (hd b hb hbx).resolve_left ?_) hx
      intro hfree
      have hn : n = 0 := hfree.2
      omega

/-! ### Runs -/

/-- Every call of the history was honest about the objects of its time. -/
def AlwaysHonest (A : Abi) (hist : List (Event Heap Label)) : Prop :=
  Throughout (fun earlier e => Honest A e.pre (objectsOf earlier) e.label) hist

theorem run_represents {hist : List (Event Heap Label)} (hr : Run (allocator A) hist h)
    (hs : ∀ e ∈ hist, SizesOk A e.label) (hq : ∀ e ∈ hist, Queried A e.pre e.label) (hd : AlwaysHonest A hist) :
    ∃ T : Layout A, Holds h T ∧ Represents A h T.blocks (objectsOf hist) := by
  induction hr with
  | init hi =>
    refine ⟨.empty A, ⟨hi.1, Nat.zero_le _, fun h => absurd rfl h, hi.2.1, hi.2.2⟩, .refl [], ?_⟩
    exact fun o ho => absurd ho List.not_mem_nil
  | @step hist h h' l hr hstep ih =>
    rw [List.forall_mem_cons] at hs hq
    obtain ⟨T, hh, hrep⟩ := ih hs.2 hq.2 hd.2
    cases l with
    | call c g p =>
      have hx := (Queried.exec_eq hq.1 hh.carries).symm.trans hstep.2
      exact exec_represents (g := { g with query := true }) rfl hs.1 hh hrep hd.1 hx
    | write x v =>
      obtain ⟨hx, rfl⟩ := hstep
      exact ⟨T, hh.write hx, hrep.write⟩

/-- The heap, tiled by `L`, implements the store `S`. -/
structure Implements (A : Abi) (h : Heap) (L : List Block) (S : Store UInt8) : Prop
    extends Tiling A h L, Represents A h L S where
  aligned_objects : ∀ o ∈ S, o.base % 16 = 0
  apart : S.Pairwise fun o d => ∀ x, ¬ (o.Has x ∧ d.Has x)

theorem Represents.implements (hh : Holds h T) (hr : Represents A h T.blocks S) :
    Implements A h T.blocks S where
  toTiling := hh.tiling
  toRepresents := hr
  aligned_objects o ho := by
    obtain ⟨b, hb, -, hbase, -⟩ := (hr.backed o ho).block
    have hH := A.header_facts
    have h16 := (T.tiles.bounds hb).2.2.1
    unfold Block.payload at hbase
    omega
  apart := by
    refine (List.pairwise_map.mp hr.nodup).imp_of_mem fun {o d} ho hd hne x hx => hne ?_
    obtain ⟨b, hb, -, hbase, hbx⟩ := (hr.backed o ho).around hx.1
    rw [← hbase, (hr.base_eq hd hx.2 hb hbx).2]

/-- **The heap implements the objects of its callers**, in every run of callers who pass pointers into
objects of their own. -/
theorem objects_refined {hist : List (Event Heap Label)} (hr : Run (allocator A) hist h)
    (hs : ∀ e ∈ hist, SizesOk A e.label) (hq : ∀ e ∈ hist, Queried A e.pre e.label) (hd : AlwaysHonest A hist) :
    ∃ L, Implements A h L (objectsOf hist) := by
  obtain ⟨T, hh, hrep⟩ := run_represents hr hs hq hd
  exact ⟨T.blocks, hrep.implements hh⟩

/-- `replay` of calls whose pointers are `NULL` or into an object. -/
def replayHonest (earlier : List (Event Heap Label)) (h : Heap) : Label → Option Heap
  | .call c g p =>
    if c.arg = 0 ∨ ∃ o ∈ objectsOf earlier, o.Has c.arg then replay abi64 h (.call c g p) else none
  | .write x v => replay abi64 h (.write x v)

theorem replayHonest_step {earlier : List (Event Heap Label)} {h h' : Heap} {l : Label}
    (hl : replayHonest earlier h l = some h') :
    (allocator abi64).step h l h' ∧ Orderly abi64 ⟨h, l, h'⟩ ∧ Honest abi64 h (objectsOf earlier) l := by
  cases l with
  | call c g p =>
    obtain ⟨harg, hl⟩ := Option.ite_none_right_eq_some.mp hl
    obtain ⟨hstep, ho⟩ := replay_step hl
    refine ⟨hstep, ho, fun L _ b _ hx => Or.inr (harg.resolve_left fun h0 => ?_)⟩
    exact not_inPayload_zero b (h0 ▸ hx)
  | write x v =>
    have hl : replay abi64 h (.write x v) = some h' := hl
    obtain ⟨hstep, ho⟩ := replay_step hl
    exact ⟨hstep, ho, trivial⟩

theorem replayHonest_run {labels : List Label} {hist : List (Event Heap Label)} {h : Heap}
    (hp : play replayHonest labels [] freshHeap = some (hist, h)) :
    Run (allocator abi64) hist h ∧ (∀ e ∈ hist, Orderly abi64 e) ∧ AlwaysHonest abi64 hist := by
  obtain ⟨hr, hJ⟩ := Run.play (S := allocator abi64)
    (J := fun earlier e => Orderly abi64 e ∧ Honest abi64 e.pre (objectsOf earlier) e.label)
    (fun _ _ _ _ => replayHonest_step) (.init ⟨rfl, by decide, by decide⟩) trivial hp
  exact ⟨hr, throughout_forall.mp (hJ.mono fun _ _ h => h.1), hJ.mono fun _ _ h => h.2⟩

/-- Three objects, a byte written into the first one, and the second one freed. -/
theorem objects_refined_busy : ∃ hist h, play replayHonest busy [] freshHeap = some (hist, h) ∧
    Implements abi64 h busyBlocks
      [⟨4512, List.replicate 300 none⟩, ⟨4128, some 7 :: List.replicate 99 none⟩] := by
  obtain ⟨hist, h, hp, hb, hobj⟩ : ∃ hist h, play replayHonest busy [] freshHeap = some (hist, h) ∧
      h.blocks abi64 = some busyBlocks ∧
      objectsOf hist = [⟨4512, List.replicate 300 none⟩, ⟨4128, some 7 :: List.replicate 99 none⟩] :=
    exists_play (fun hist (h : Heap) => h.blocks abi64 = some busyBlocks ∧
      objectsOf hist = [⟨4512, List.replicate 300 none⟩, ⟨4128, some 7 :: List.replicate 99 none⟩])
      (by decide +kernel)
  obtain ⟨hr, ho, hd⟩ := replayHonest_run hp
  obtain ⟨L, hL⟩ := objects_refined hr (fun e he => (ho e he).sizes) (fun e he => (ho e he).queried) hd
  obtain rfl := Chain.unique hL.chain (h.blocks_chain hb)
  rw [hobj] at hL
  exact ⟨hist, h, hp, hL⟩

/-! ### Nothing is lost -/

/-- The heap is empty, or one free block up to the break, from which any request that fits is served
without asking for more. -/
def Recovered (A : Abi) (h : Heap) : Prop :=
  h.heapHead = 0 ∨
    (Chain A h.mem h.heapHead [⟨h.heapHead, h.brk - h.heapHead - A.headerSize, true⟩] ∧
      ∀ g n, 0 < n → n ≤ h.brk - h.heapHead - A.headerSize →
        ∃ m, malloc A g n h = some (h.heapHead + A.headerSize, { h with mem := m }))

theorem Holds.recovered (hh : Holds h T) (hf : ∀ b ∈ T.blocks, b.free) : Recovered A h := by
  by_cases hT : T.blocks = []
  · left
    have hc := hh.chain
    rw [hT] at hc
    exact hc
  right
  have hone := (hh.tiles hT).merged_of_free hT hf
  rw [merged_of_separated T.separated, ← hh.head hT] at hone
  refine ⟨hone ▸ hh.chain, fun g n h0 hn => ?_⟩
  have hmem : (⟨h.heapHead, h.brk - h.heapHead - A.headerSize, true⟩ : Block) ∈ T.blocks := by
    rw [hone]
    exact List.mem_cons_self
  obtain ⟨-, hfin, -, h16, hmin⟩ := hh.carries.spaced.bounds hmem
  have hH := A.header_facts
  have hlt := hh.brk_lt
  unfold Block.fin at hfin
  dsimp only at hfin h16 hmin
  have hwrap : n + 15 < A.space := by omega
  have hround : A.roundUp16 n ≤ h.brk - h.heapHead - A.headerSize := by
    rw [Abi.roundUp16_eq hwrap]
    omega
  have hfits : ∃ b ∈ T.blocks, Fits (A.roundUp16 n) b := ⟨_, hmem, rfl, hround⟩
  obtain ⟨p, h', hm, ho⟩ := malloc_outcome (g := g) (Or.inl hfits) hh.carries h0 (Or.inl ⟨hwrap, Or.inl hfits⟩)
  rw [hm]
  cases ho with
  | refused hno => exact absurd ⟨rfl, hround⟩ (hno _ hmem)
  | @reused L₁ L₂ f m' _ hL =>
    have hmid : f ∈ T.blocks := by
      rw [hL]
      simp
    rw [hone] at hmid
    rw [List.mem_singleton.mp hmid]
    exact ⟨m', rfl⟩
  | grown _ hno => exact absurd ⟨rfl, hround⟩ (hno _ hmem)

/-- **No leak**: once its callers have freed all their objects, the heap is a single free block again. -/
theorem all_freed_one_block {hist : List (Event Heap Label)} (hr : Run (allocator A) hist h)
    (hs : ∀ e ∈ hist, SizesOk A e.label) (hq : ∀ e ∈ hist, Queried A e.pre e.label) (hd : AlwaysHonest A hist)
    (hall : objectsOf hist = []) : Recovered A h := by
  obtain ⟨T, hh, hrep⟩ := run_represents hr hs hq hd
  refine hh.recovered fun b hb => ?_
  by_contra hbf
  have hmem := hrep.pointers.subset (mem_pointers.mpr ⟨b, hb, hbf, rfl⟩)
  rw [hall] at hmem
  exact absurd hmem List.not_mem_nil

/-- The two objects that are left are freed as well. -/
theorem all_freed_one_block_busy : ∃ hist h,
    play replayHonest (busy ++ [.call (.free 4512) allGranted 0, .call (.free 4128) allGranted 0]) []
      freshHeap = some (hist, h) ∧ h.heapHead = 4096 ∧ Recovered abi64 h := by
  obtain ⟨hist, h, hp, hhead, hnone⟩ : ∃ hist h,
      play replayHonest (busy ++ [.call (.free 4512) allGranted 0, .call (.free 4128) allGranted 0]) []
        freshHeap = some (hist, h) ∧ h.heapHead = 4096 ∧ objectsOf hist = [] :=
    exists_play (fun hist (h : Heap) => h.heapHead = 4096 ∧ objectsOf hist = []) (by decide +kernel)
  obtain ⟨hr, ho, hd⟩ := replayHonest_run hp
  exact ⟨hist, h, hp, hhead, all_freed_one_block hr (fun e he => (ho e he).sizes)
    (fun e he => (ho e he).queried) hd hnone⟩

end Csc453.Malloc
