import Mathlib.Tactic
import Relis.Code.Sched

/-! # `kmalloc` as a bump allocator -/

open Relis.Code

namespace Relis.Slab

theorem toNat_align (x : BitVec 64) : (x &&& ~~~15#64).toNat = x.toNat / 16 * 16 := by
  have hshift : x &&& ~~~15#64 = (x >>> 4) <<< 4 := by
    have hmask : ∀ i < 64, (~~~15#64).getLsbD i = decide (4 ≤ i) := by decide
    apply BitVec.eq_of_getLsbD_eq
    intro i hi
    rw [BitVec.getLsbD_and, hmask i hi, BitVec.getLsbD_shiftLeft, BitVec.getLsbD_ushiftRight]
    rcases Nat.lt_or_ge i 4 with h | h
    · simp [h]
    · simp [h, hi, Nat.not_lt.mpr h, Nat.add_sub_cancel' h]
  rw [hshift]
  simp only [BitVec.toNat_shiftLeft, BitVec.toNat_ushiftRight, Nat.shiftLeft_eq,
    Nat.shiftRight_eq_div_pow]
  omega

theorem kmalloc_of_sum (heap_ptr : BitVec 32) (size : BitVec 64)
    (hsum : heap_ptr.toNat + size.toNat < 2 ^ 64) :
    (kmalloc heap_ptr size = (none, heap_ptr) ∧ 4194304 < heap_ptr.toNat + size.toNat) ∨
    ∃ heap_ptr', kmalloc heap_ptr size = (some heap_ptr.toNat, heap_ptr') ∧
      heap_ptr.toNat + size.toNat ≤ 4194304 ∧
      heap_ptr'.toNat = heap_ptr.toNat + (size.toNat + 15) / 16 * 16 := by
  have hptr := heap_ptr.isLt
  have hadd : (heap_ptr.setWidth 64 + size).toNat = heap_ptr.toNat + size.toNat := by
    simp only [BitVec.toNat_add, BitVec.toNat_setWidth]
    omega
  have hlt : heap_ptr.setWidth 64 + size > kernel_heap_size.setWidth 64 ↔
      4194304 < heap_ptr.toNat + size.toNat := by
    rw [gt_iff_lt, BitVec.lt_def, hadd]
    rfl
  unfold kmalloc
  by_cases h : 4194304 < heap_ptr.toNat + size.toNat
  · exact .inl ⟨if_pos (hlt.mpr h), h⟩
  · refine .inr ⟨_, if_neg (fun h' => h (hlt.mp h')), by omega, ?_⟩
    simp only [BitVec.toNat_setWidth, BitVec.toNat_add, toNat_align, BitVec.toNat_ofNat]
    omega

theorem kmalloc_spec (heap_ptr : BitVec 32) (size : BitVec 64) (hsize : size.toNat < 4294967296) :
    (kmalloc heap_ptr size = (none, heap_ptr) ∧ 4194304 < heap_ptr.toNat + size.toNat) ∨
    ∃ heap_ptr', kmalloc heap_ptr size = (some heap_ptr.toNat, heap_ptr') ∧
      heap_ptr.toNat + size.toNat ≤ 4194304 ∧
      heap_ptr'.toNat = heap_ptr.toNat + (size.toNat + 15) / 16 * 16 :=
  kmalloc_of_sum heap_ptr size (by have := heap_ptr.isLt; omega)

theorem kmalloc_object_room (k : Kernel) (size : BitVec 64) (hsize : size.toNat < 4294967296) :
    (kmalloc_object k size = .error .null_object ∧ 4194304 < k.heap_ptr.toNat + size.toNat) ∨
    ∃ heap_ptr, kmalloc_object k size = .ok (k.heap_ptr.toNat, { k with heap_ptr := heap_ptr }) ∧
      k.heap_ptr.toNat + size.toNat ≤ 4194304 ∧
      heap_ptr.toNat = k.heap_ptr.toNat + (size.toNat + 15) / 16 * 16 := by
  unfold kmalloc_object
  rcases kmalloc_spec k.heap_ptr size hsize with ⟨hk, hlt⟩ | ⟨heap_ptr, hk, hle, hptr⟩
  · rw [hk]
    exact .inl ⟨rfl, hlt⟩
  · rw [hk]
    exact .inr ⟨_, rfl, hle, hptr⟩

theorem kmalloc_object_spec (k : Kernel) (size : BitVec 64) (hsize : size.toNat < 4294967296) :
    kmalloc_object k size = .error .null_object ∨
    ∃ heap_ptr, kmalloc_object k size = .ok (k.heap_ptr.toNat, { k with heap_ptr := heap_ptr }) ∧
      heap_ptr.toNat = k.heap_ptr.toNat + (size.toNat + 15) / 16 * 16 ∧ heap_ptr.toNat ≤ 4194319 := by
  rcases kmalloc_object_room k size hsize with ⟨hk, -⟩ | ⟨heap_ptr, hk, hle, hptr⟩
  · exact .inl hk
  · exact .inr ⟨heap_ptr, hk, hptr, by omega⟩

theorem kmalloc_object_ok {k k' : Kernel} {size : BitVec 64} {p : Nat}
    (hsize : size.toNat < 4294967296) (h : kmalloc_object k size = .ok (p, k')) :
    p = k.heap_ptr.toNat ∧ ∃ heap_ptr,
      k' = { k with heap_ptr := heap_ptr } ∧ heap_ptr.toNat =
        k.heap_ptr.toNat + (size.toNat + 15) / 16 * 16 := by
  rcases kmalloc_object_spec k size hsize with h' | ⟨heap_ptr, h', hptr, -⟩
  · cases h'.symm.trans h
  · cases h'.symm.trans h
    exact ⟨rfl, heap_ptr, rfl, hptr⟩

theorem kmalloc_object_grows {k k' : Kernel} {size : BitVec 64} {p : Nat}
    (hsize : size.toNat < 4294967296 ∧ 0 < size.toNat) (h : kmalloc_object k size = .ok (p, k')) :
    p = k.heap_ptr.toNat ∧ ∃ heap_ptr, k' = { k with heap_ptr := heap_ptr } ∧
      k.heap_ptr.toNat < heap_ptr.toNat := by
  obtain ⟨hp, heap_ptr, hk, hptr⟩ := kmalloc_object_ok hsize.1 h
  exact ⟨hp, heap_ptr, hk, by omega⟩

/-! ## Any run -/

inductive HeapOp
  | kmalloc (size : BitVec 64)
  | kfree (ptr : Option Nat)

structure Request where
  size : BitVec 64
  result : Option Nat

def Request.Covers (q : Request) (x : Nat) : Prop :=
  ∃ p, q.result = some p ∧ p ≤ x ∧ x < p + q.size.toNat

structure Heap where
  heap_ptr : BitVec 32
  requests : List Request

def Heap.step (h : Heap) : HeapOp → Heap
  | .kmalloc size => ⟨(Code.kmalloc h.heap_ptr size).2,
    ⟨size, (Code.kmalloc h.heap_ptr size).1⟩ :: h.requests⟩
  | .kfree ptr => { h with heap_ptr := Code.kfree h.heap_ptr ptr }

def Heap.run (ops : List HeapOp) : Heap := ops.foldl Heap.step ⟨0, []⟩

def used : List Request → Nat
  | [] => 0
  | q :: requests => used requests + if q.result.isSome then (q.size.toNat + 15) / 16 * 16 else 0

structure Blocks (h : Heap) : Prop where
  used : h.heap_ptr.toNat = used h.requests
  null : ∀ q older, q :: older <:+ h.requests →
    (q.result = none ↔ 4194304 < Slab.used older + q.size.toNat)
  inside : ∀ q ∈ h.requests, ∀ p, q.result = some p → p % 16 = 0 ∧ p + q.size.toNat ≤ 4194304
  disjoint : h.requests.Pairwise fun q q' => ∀ x, ¬ (q.Covers x ∧ q'.Covers x)
  aligned : h.heap_ptr.toNat % 16 = 0
  bound : h.heap_ptr.toNat ≤ 4194304
  below : ∀ q ∈ h.requests, ∀ x, q.Covers x → x < h.heap_ptr.toNat

theorem blocks_boot : Blocks ⟨0, []⟩ where
  used := rfl
  null := by simp
  inside := by simp
  disjoint := .nil
  aligned := rfl
  bound := by decide
  below := by simp

theorem used_le (q : Request) (requests : List Request) : used requests ≤ used (q :: requests) := by
  rw [used]
  omega

theorem Blocks.kmalloc {h : Heap} {size : BitVec 64} (hb : Blocks h)
    (hsize : size.toNat < 4294967296) : Blocks (h.step (.kmalloc size)) := by
  have haligned := hb.aligned
  have hbound := hb.bound
  have hused := hb.used
  rcases kmalloc_spec h.heap_ptr size hsize with ⟨hk, hfull⟩ | ⟨heap_ptr, hk, hle, hptr⟩
  · rw [Heap.step, hk]
    have hnone : ∀ x, ¬ (⟨size, none⟩ : Request).Covers x := by rintro x ⟨p, ⟨⟩, -⟩
    refine ⟨by simpa [Slab.used] using hused, ?_, ?_, ?_, haligned, hbound, ?_⟩
    · intro q older hsuffix
      rcases List.suffix_cons_iff.mp hsuffix with heq | hsuffix
      · obtain ⟨rfl, rfl⟩ := List.cons.inj heq
        exact iff_of_true rfl (by rw [← hused]; exact hfull)
      · exact hb.null q older hsuffix
    · rw [List.forall_mem_cons]
      exact ⟨by simp, hb.inside⟩
    · exact List.pairwise_cons.mpr ⟨fun q _ x hx => hnone x hx.1, hb.disjoint⟩
    · rw [List.forall_mem_cons]
      exact ⟨fun x hx => absurd hx (hnone x), hb.below⟩
  · rw [Heap.step, hk]
    refine ⟨?_, ?_, ?_, ?_, by dsimp only; omega, by dsimp only; omega, ?_⟩
    · simp only [Slab.used, Option.isSome_some, if_true, ← hused, hptr]
    · intro q older hsuffix
      rcases List.suffix_cons_iff.mp hsuffix with heq | hsuffix
      · obtain ⟨rfl, rfl⟩ := List.cons.inj heq
        exact iff_of_false (by simp) (by rw [← hused]; dsimp only; omega)
      · exact hb.null q older hsuffix
    · rw [List.forall_mem_cons]
      refine ⟨fun p hp => ?_, hb.inside⟩
      cases hp
      exact ⟨haligned, hle⟩
    · refine List.pairwise_cons.mpr ⟨fun q hq x hx => ?_, hb.disjoint⟩
      obtain ⟨⟨p, hp, hlow, -⟩, hold⟩ := hx
      cases hp
      have := hb.below q hq x hold
      omega
    · rw [List.forall_mem_cons]
      refine ⟨fun x hx => ?_, fun q hq x hx => ?_⟩
      · obtain ⟨p, hp, -, hhigh⟩ := hx
        cases hp
        dsimp only at hhigh ⊢
        omega
      · have := hb.below q hq x hx
        dsimp only
        omega

theorem Blocks.step {h : Heap} (op : HeapOp) (hb : Blocks h)
    (hop : ∀ size, op = .kmalloc size → size.toNat < 4294967296) :
    Blocks (h.step op) ∧ h.heap_ptr.toNat ≤ (h.step op).heap_ptr.toNat := by
  cases op with
  | kmalloc size =>
    have hb' := hb.kmalloc (hop size rfl)
    refine ⟨hb', ?_⟩
    rw [hb.used, hb'.used]
    exact used_le _ _
  | kfree ptr =>
    exact ⟨⟨hb.used, hb.null, hb.inside, hb.disjoint, hb.aligned, hb.bound, hb.below⟩, le_rfl⟩

theorem Blocks.run {h : Heap} (ops : List HeapOp) (hb : Blocks h)
    (hops : ∀ size, .kmalloc size ∈ ops → size.toNat < 4294967296) :
    Blocks (ops.foldl Heap.step h) ∧ h.heap_ptr.toNat ≤ (ops.foldl Heap.step h).heap_ptr.toNat := by
  induction ops generalizing h with
  | nil => exact ⟨hb, le_rfl⟩
  | cons op ops ih =>
    obtain ⟨hb1, hle1⟩ := hb.step op fun size heq => hops size (by simp [heq])
    obtain ⟨hb2, hle2⟩ := ih hb1 fun size hmem => hops size (List.mem_cons_of_mem _ hmem)
    exact ⟨hb2, hle1.trans hle2⟩

/-- In every run of requests below 4 GiB the blocks are those of a heap of 4 MiB, and `heap_ptr`
never decreases. -/
theorem kmalloc_blocks (ops : List HeapOp)
    (hops : ∀ size, .kmalloc size ∈ ops → size.toNat < 2 ^ 32) :
    Blocks (Heap.run ops) ∧
      ∀ before after, ops = before ++ after →
        (Heap.run before).heap_ptr.toNat ≤ (Heap.run ops).heap_ptr.toNat := by
  refine ⟨(blocks_boot.run ops hops).1, ?_⟩
  rintro before after rfl
  have hbefore := (blocks_boot.run before fun size hmem => hops size (List.mem_append_left _ hmem)).1
  have hafter := hbefore.run after fun size hmem => hops size (List.mem_append_right _ hmem)
  rw [Heap.run, Heap.run, List.foldl_append]
  exact hafter.2

/-- The third call asks for more than is left. -/
theorem kmalloc_blocks_small :
    (Heap.run [.kmalloc 100, .kfree (some 0), .kmalloc 8, .kmalloc 0x400000]).heap_ptr.toNat = 128 ∧
    Blocks (Heap.run [.kmalloc 100, .kfree (some 0), .kmalloc 8, .kmalloc 0x400000]) :=
  ⟨by decide, (kmalloc_blocks _ (by simp)).1⟩

end Relis.Slab
