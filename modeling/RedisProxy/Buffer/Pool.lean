/-
  File:      RedisProxy/Buffer/Pool.lean
  Subject:   `BlockPool`, `BufferBlock`, `BufferSlice` and what shares them (src/buffer.cpp).

  Blocks are numbered in the order of their allocation; an `IoBuffer` is a deque of block
  numbers, a slice a block number with a range, a chain a list of slices. This is the level of
  reference counts: a block lies in the free list, or it is held by deques and slices and its
  count says by how many.

  * `BlockPool` -- the blocks and the free list, with `retain`, `release`, `recycle`, `acquire`;
  * `BlockPool.Counted p c` -- the counts of the pool are right when `c b` is how often block `b`
    is held;
  * `BlockPool.Moves` -- a stretch of pool operations that takes right counts to right counts and
    leaves alone the bytes of every block that is held before and after it. The operations of
    buffers, slices and chains are such stretches (section 4).
-/
import RedisProxy.Buffer.IoBuffer
import Mathlib.Data.List.Nodup

namespace RedisProxy.Shared

/-! ## 1. Blocks and the pool -/

/-- `BufferBlock`; `data` is the whole array, `capacity_` its length. -/
structure BufferBlock where
  data : Bytes
  beginPos : Nat
  endPos : Nat
  refcount : Nat

namespace BufferBlock

def capacity (k : BufferBlock) : Nat := k.data.length

def writableBytes (k : BufferBlock) : Nat := k.capacity - k.endPos

def size (k : BufferBlock) : Nat := k.endPos - k.beginPos

/-- `BufferBlock::BufferBlock`; the bytes of a new array are not specified. -/
def create (capacity : Nat) : BufferBlock := ⟨List.replicate capacity 0, 0, 0, 1⟩

/-- Bytes written at `writePtr()`, then `BufferBlock::advanceEnd`. -/
def write (k : BufferBlock) (d : Bytes) : BufferBlock :=
  { k with
    data := k.data.take k.endPos ++ d ++ k.data.drop (k.endPos + d.length)
    endPos := k.endPos + d.length }

/-- `BufferBlock::consume`. -/
def consume (k : BufferBlock) (n : Nat) : BufferBlock :=
  { k with beginPos := min k.endPos (k.beginPos + n) }

/-- `BufferBlock::retain`, on a `uint32_t`. -/
def retain (k : BufferBlock) : BufferBlock := { k with refcount := (k.refcount + 1) % 2 ^ 32 }

/-- `BufferBlock::reset`. -/
def reset (k : BufferBlock) : BufferBlock := { k with beginPos := 0, endPos := 0, refcount := 1 }

end BufferBlock

/-- `BlockPool`, with the blocks it has allocated. -/
structure BlockPool where
  blockSize : Nat
  allocated : Nat
  block : Nat → BufferBlock
  free : List Nat

namespace BlockPool

def init (blockSize : Nat) : BlockPool := ⟨blockSize, 0, fun _ => .create blockSize, []⟩

def set (p : BlockPool) (b : Nat) (k : BufferBlock) : BlockPool :=
  { p with block := fun i => if i = b then k else p.block i }

def retain (p : BlockPool) (b : Nat) : BlockPool := p.set b (p.block b).retain

/-- `BlockPool::recycle`. -/
def recycle (p : BlockPool) (b : Nat) : BlockPool :=
  { p.set b (p.block b).reset with free := p.free ++ [b] }

/-- `BufferBlock::release`. -/
def release (p : BlockPool) (b : Nat) : BlockPool :=
  let r := ((p.block b).refcount + (2 ^ 32 - 1)) % 2 ^ 32
  let p' := p.set b { p.block b with refcount := r }
  if r = 0 then p'.recycle b else p'

/-- `BlockPool::acquire`: the block and the pool. -/
def acquire (p : BlockPool) : Nat × BlockPool :=
  match p.free.getLast? with
  | none =>
      (p.allocated, { p with allocated := p.allocated + 1 }.set p.allocated (.create p.blockSize))
  | some b => (b, { p with free := p.free.dropLast }.set b (p.block b).reset)

@[simp] theorem block_set (p : BlockPool) (b i : Nat) (k : BufferBlock) :
    (p.set b k).block i = if i = b then k else p.block i := rfl

@[simp] theorem free_set (p : BlockPool) (b : Nat) (k : BufferBlock) :
    (p.set b k).free = p.free := rfl

@[simp] theorem allocated_set (p : BlockPool) (b : Nat) (k : BufferBlock) :
    (p.set b k).allocated = p.allocated := rfl

@[simp] theorem blockSize_set (p : BlockPool) (b : Nat) (k : BufferBlock) :
    (p.set b k).blockSize = p.blockSize := rfl

/-! ## 2. Right counts -/

/-- **The counts are right** when block `b` is held `c b` times. -/
structure Counted (p : BlockPool) (c : Nat → Nat) : Prop where
  unborn : ∀ b, p.allocated ≤ b → c b = 0
  held : ∀ b, 0 < c b → (p.block b).refcount = c b
  free : ∀ b, b ∈ p.free ↔ b < p.allocated ∧ c b = 0
  nodup : p.free.Nodup
  idle : ∀ b ∈ p.free, (p.block b).refcount = 1

/-- Every cursor is inside its block, and every block has the pool's size. -/
def Tidy (p : BlockPool) : Prop :=
  ∀ b, (p.block b).beginPos ≤ (p.block b).endPos ∧
    (p.block b).endPos ≤ (p.block b).capacity ∧ (p.block b).capacity = p.blockSize

/-- What was written into block `b` is still there. -/
def Kept (p p' : BlockPool) (b : Nat) : Prop :=
  (p.block b).endPos ≤ (p'.block b).endPos ∧
    (p'.block b).data.take (p.block b).endPos = (p.block b).data.take (p.block b).endPos

theorem Kept.refl (p : BlockPool) (b : Nat) : p.Kept p b := ⟨Nat.le_refl _, rfl⟩

/-- Blocks that are kept twice are kept. -/
theorem Kept.trans {p p' p'' : BlockPool} {b : Nat} (h : p.Kept p' b) (h' : p'.Kept p'' b) :
    p.Kept p'' b := by
  refine ⟨Nat.le_trans h.1 h'.1, ?_⟩
  calc (p''.block b).data.take (p.block b).endPos
      = ((p''.block b).data.take (p'.block b).endPos).take (p.block b).endPos := by
        rw [List.take_take, Nat.min_eq_left h.1]
    _ = ((p'.block b).data.take (p'.block b).endPos).take (p.block b).endPos := by rw [h'.2]
    _ = (p'.block b).data.take (p.block b).endPos := by rw [List.take_take, Nat.min_eq_left h.1]
    _ = (p.block b).data.take (p.block b).endPos := h.2

/-- A stretch of pool operations during which the references went from `c` to `c'`. -/
structure Moves (p : BlockPool) (c : Nat → Nat) (p' : BlockPool) (c' : Nat → Nat) : Prop where
  counted : p'.Counted c'
  tidy : p'.Tidy
  kept : ∀ b, 0 < c b → 0 < c' b → p.Kept p' b
  size : p'.blockSize = p.blockSize

theorem Moves.refl {p : BlockPool} {c : Nat → Nat} (h : p.Counted c) (ht : p.Tidy) :
    p.Moves c p c := ⟨h, ht, fun b _ _ => .refl p b, rfl⟩

/-- Stretches of pool operations compose, if no block that is held at both ends was given up
    between. -/
theorem Moves.trans {p p' p'' : BlockPool} {c c' c'' : Nat → Nat} (h : p.Moves c p' c')
    (h' : p'.Moves c' p'' c'') (hc : ∀ b, 0 < c b → 0 < c'' b → 0 < c' b) :
    p.Moves c p'' c'' :=
  ⟨h'.counted, h'.tidy,
    fun b hb hb'' => (h.kept b hb (hc b hb hb'')).trans (h'.kept b (hc b hb hb'') hb''),
    h'.size.trans h.size⟩

/-- How often the blocks are held matters, not by whom. -/
theorem Moves.congr {p p' : BlockPool} {c c' d d' : Nat → Nat} (h : p.Moves c p' c')
    (hc : ∀ b, d b = c b) (hc' : ∀ b, d' b = c' b) : p.Moves d p' d' := by
  obtain rfl : d = c := funext hc
  obtain rfl : d' = c' := funext hc'
  exact h

/-- One reference to `b`. -/
def one (b x : Nat) : Nat := if x = b then 1 else 0

/-- `retain` counts one holder more and shows the same bytes. -/
theorem moves_retain {p : BlockPool} {c : Nat → Nat} (h : p.Counted c) (ht : p.Tidy) {b : Nat}
    (hb : 0 < c b) (hlimit : c b + 1 < 2 ^ 32) :
    p.Moves c (p.retain b) (fun x => c x + one b x) := by
  have hcount := h.held b hb
  have hborn : b < p.allocated := by
    by_contra hle
    have := h.unborn b (Nat.le_of_not_lt hle)
    omega
  refine ⟨⟨fun x hx => ?_, fun x hx => ?_, fun x => ?_, h.nodup, fun x hx => ?_⟩, fun x => ?_,
    fun x _ _ => ?_, rfl⟩
  · have hx : p.allocated ≤ x := hx
    have hne : x ≠ b := by omega
    simp [one, hne, h.unborn x hx]
  · by_cases hxb : x = b
    · subst hxb
      simp only [retain, block_set, if_true, BufferBlock.retain, hcount, one]
      exact Nat.mod_eq_of_lt hlimit
    · simp only [one, hxb, if_false, Nat.add_zero] at hx ⊢
      simpa [retain, hxb] using h.held x hx
  · show x ∈ p.free ↔ x < p.allocated ∧ _
    rw [h.free x]
    by_cases hxb : x = b
    · subst hxb
      simp only [one, if_true]
      omega
    · simp [one, hxb]
  · have hfree : x ∈ p.free := hx
    have hne : x ≠ b := by
      rintro rfl
      have := ((h.free x).mp hfree).2
      omega
    simpa [retain, hne] using h.idle x hfree
  · by_cases hxb : x = b
    · subst hxb
      simpa [retain, BufferBlock.retain, BufferBlock.capacity] using ht x
    · simpa [retain, hxb] using ht x
  · by_cases hxb : x = b
    · subst hxb
      simp [Kept, retain, BufferBlock.retain]
    · simp [Kept, retain, hxb]

/-- A block that is held is not in the free list. -/
theorem Counted.not_free {p : BlockPool} {c : Nat → Nat} (h : p.Counted c) {b : Nat} (hb : 0 < c b) :
    b < p.allocated ∧ b ∉ p.free := by
  constructor
  · by_contra hle
    have := h.unborn b (Nat.le_of_not_lt hle)
    omega
  · intro hf
    have := ((h.free b).mp hf).2
    omega

/-- The last reference: the block goes back to the pool. -/
theorem moves_recycle {p : BlockPool} {c : Nat → Nat} (h : p.Counted c) (ht : p.Tidy) {b : Nat}
    (hlast : c b = 1) :
    p.Moves c ((p.set b { p.block b with refcount := 0 }).recycle b) (fun x => c x - one b x) := by
  obtain ⟨hborn, hnotfree⟩ := h.not_free (b := b) (by omega)
  refine ⟨⟨fun x hx => ?_, fun x hx => ?_, fun x => ?_, ?_, fun x hx => ?_⟩, fun x => ?_,
    fun x hx hx' => ?_, rfl⟩
  · have := h.unborn x hx
    omega
  · have hne : x ≠ b := by
      rintro rfl
      simp [one, hlast] at hx
    simp only [one, hne, if_false, Nat.sub_zero] at hx ⊢
    simpa [recycle, hne] using h.held x hx
  · show x ∈ p.free ++ [b] ↔ x < p.allocated ∧ _
    rw [List.mem_append, List.mem_singleton, h.free x]
    by_cases hxb : x = b
    · subst hxb
      simp [one, hlast, hborn]
    · simp [one, hxb]
  · show (p.free ++ [b]).Nodup
    refine List.nodup_append.mpr ⟨h.nodup, List.nodup_singleton b, ?_⟩
    rintro x hx y hy rfl
    exact hnotfree (List.mem_singleton.mp hy ▸ hx)
  · rcases List.mem_append.mp hx with hx | hx
    · have hne : x ≠ b := fun heq => hnotfree (heq ▸ hx)
      simpa [recycle, hne] using h.idle x hx
    · rw [List.mem_singleton.mp hx]
      simp [recycle, BufferBlock.reset]
  · by_cases hxb : x = b
    · subst hxb
      have := ht x
      simp only [BufferBlock.capacity] at this
      simp [recycle, BufferBlock.reset, BufferBlock.capacity, this.2.2]
    · simpa [recycle, hxb] using ht x
  · have hne : x ≠ b := by
      rintro rfl
      simp [one, hlast] at hx'
    simp [Kept, recycle, hne]

/-- A reference that is not the last. -/
theorem moves_drop {p : BlockPool} {c : Nat → Nat} (h : p.Counted c) (ht : p.Tidy) {b : Nat}
    (hmore : 1 < c b) :
    p.Moves c (p.set b { p.block b with refcount := c b - 1 }) (fun x => c x - one b x) := by
  obtain ⟨_, hnotfree⟩ := h.not_free (b := b) (by omega)
  refine ⟨⟨fun x hx => ?_, fun x hx => ?_, fun x => ?_, h.nodup, fun x hx => ?_⟩, fun x => ?_,
    fun x _ _ => ?_, rfl⟩
  · have := h.unborn x hx
    omega
  · by_cases hxb : x = b
    · subst hxb
      simp [one]
    · simp only [one, hxb, if_false, Nat.sub_zero] at hx ⊢
      simpa [hxb] using h.held x hx
  · show x ∈ p.free ↔ x < p.allocated ∧ _
    rw [h.free x]
    by_cases hxb : x = b
    · subst hxb
      simp only [one, if_true]
      omega
    · simp [one, hxb]
  · have hfree : x ∈ p.free := hx
    have hne : x ≠ b := fun heq => hnotfree (heq ▸ hfree)
    simpa [hne] using h.idle x hfree
  · by_cases hxb : x = b
    · subst hxb
      simpa [BufferBlock.capacity] using ht x
    · simpa [hxb] using ht x
  · by_cases hxb : x = b
    · subst hxb
      simp [Kept]
    · simp [Kept, hxb]

/-- **`release` gives the block back with the last holder**, and only then. -/
theorem moves_release {p : BlockPool} {c : Nat → Nat} (h : p.Counted c) (ht : p.Tidy) {b : Nat}
    (hb : 0 < c b) (hlimit : c b < 2 ^ 32) :
    p.Moves c (p.release b) (fun x => c x - one b x) := by
  have hr : ((p.block b).refcount + (2 ^ 32 - 1)) % 2 ^ 32 = c b - 1 := by
    rw [h.held b hb, show c b + (2 ^ 32 - 1) = (c b - 1) + 2 ^ 32 by omega, Nat.add_mod_right]
    exact Nat.mod_eq_of_lt (by omega)
  by_cases hlast : c b = 1
  · have hrel : p.release b = (p.set b { p.block b with refcount := 0 }).recycle b := by
      simp only [release, hr, hlast, Nat.sub_self, if_true]
    rw [hrel]
    exact moves_recycle h ht hlast
  · have hrel : p.release b = p.set b { p.block b with refcount := c b - 1 } := by
      simp only [release, hr]
      rw [if_neg (by omega)]
    rw [hrel]
    exact moves_drop h ht (by omega)

/-- A new block, numbered behind all others. -/
theorem moves_create {p : BlockPool} {c : Nat → Nat} (h : p.Counted c) (ht : p.Tidy) :
    p.Moves c ({ p with allocated := p.allocated + 1 }.set p.allocated (.create p.blockSize))
      (fun x => c x + one p.allocated x) := by
  have h0 : c p.allocated = 0 := h.unborn _ (Nat.le_refl _)
  refine ⟨⟨fun x hx => ?_, fun x hx => ?_, fun x => ?_, h.nodup, fun x hx => ?_⟩, fun x => ?_,
    fun x hx _ => ?_, rfl⟩
  · have hx : p.allocated + 1 ≤ x := hx
    have hne : x ≠ p.allocated := by omega
    simp [one, hne, h.unborn x (by omega)]
  · by_cases hxb : x = p.allocated
    · subst hxb
      simp [one, h0, BufferBlock.create]
    · simp only [one, hxb, if_false, Nat.add_zero] at hx ⊢
      simpa [hxb] using h.held x hx
  · show x ∈ p.free ↔ x < p.allocated + 1 ∧ _
    rw [h.free x]
    by_cases hxb : x = p.allocated
    · subst hxb
      simp [one]
    · simp only [one, hxb, if_false]
      omega
  · have hfree : x ∈ p.free := hx
    have hlt := ((h.free x).mp hfree).1
    have hne : x ≠ p.allocated := by omega
    simpa [hne] using h.idle x hfree
  · by_cases hxb : x = p.allocated
    · subst hxb
      simp [BufferBlock.create, BufferBlock.capacity]
    · simpa [hxb] using ht x
  · have hne : x ≠ p.allocated := by
      rintro rfl
      omega
    simp [Kept, hne]

/-- The last block of the free list. -/
theorem moves_reuse {p : BlockPool} {c : Nat → Nat} (h : p.Counted c) (ht : p.Tidy) {b : Nat}
    (hlast : p.free.getLast? = some b) :
    p.Moves c ({ p with free := p.free.dropLast }.set b (p.block b).reset)
      (fun x => c x + one b x) := by
  have hmem : b ∈ p.free := List.mem_of_getLast? hlast
  have hsplit : p.free = p.free.dropLast ++ [b] := (List.dropLast_append_getLast? b hlast).symm
  have hnd := h.nodup
  rw [hsplit] at hnd
  have hgone : b ∉ p.free.dropLast := by
    intro hb
    exact (List.nodup_append.mp hnd).2.2 b hb b (List.mem_singleton.mpr rfl) rfl
  have hstay : ∀ x, x ≠ b → (x ∈ p.free.dropLast ↔ x ∈ p.free) := by
    intro x hne
    conv_rhs => rw [hsplit]
    simp [hne]
  obtain ⟨hborn, h0⟩ := (h.free b).mp hmem
  refine ⟨⟨fun x hx => ?_, fun x hx => ?_, fun x => ?_, (List.nodup_append.mp hnd).1,
    fun x hx => ?_⟩, fun x => ?_, fun x hx _ => ?_, rfl⟩
  · have hx : p.allocated ≤ x := hx
    have hne : x ≠ b := by omega
    simp [one, hne, h.unborn x hx]
  · by_cases hxb : x = b
    · subst hxb
      simp [one, h0, BufferBlock.reset]
    · simp only [one, hxb, if_false, Nat.add_zero] at hx ⊢
      simpa [hxb] using h.held x hx
  · show x ∈ p.free.dropLast ↔ x < p.allocated ∧ _
    by_cases hxb : x = b
    · subst hxb
      simp [one, hgone]
    · rw [hstay x hxb, h.free x]
      simp [one, hxb]
  · have hfree : x ∈ p.free.dropLast := hx
    have hne : x ≠ b := fun heq => hgone (heq ▸ hfree)
    simpa [hne] using h.idle x ((hstay x hne).mp hfree)
  · by_cases hxb : x = b
    · subst hxb
      have := ht x
      simp only [BufferBlock.capacity] at this
      simp [BufferBlock.reset, BufferBlock.capacity, this.2.2]
    · simpa [hxb] using ht x
  · have hne : x ≠ b := by
      rintro rfl
      omega
    simp [Kept, hne]

/-- What is acquired was held by nobody and is empty. -/
theorem moves_acquire {p : BlockPool} {c : Nat → Nat} (h : p.Counted c) (ht : p.Tidy) :
    c p.acquire.1 = 0 ∧ (p.acquire.2.block p.acquire.1).endPos = 0 ∧
      p.Moves c p.acquire.2 (fun x => c x + one p.acquire.1 x) := by
  unfold acquire
  split
  · exact ⟨h.unborn _ (Nat.le_refl _), by simp [BufferBlock.create], moves_create h ht⟩
  · rename_i b hlast
    have hmem : b ∈ p.free := List.mem_of_getLast? hlast
    exact ⟨((h.free b).mp hmem).2, by simp [BufferBlock.reset], moves_reuse h ht hlast⟩

/-- A change inside one block that leaves its count and what was written alone. -/
theorem moves_set {p : BlockPool} {c : Nat → Nat} (h : p.Counted c) (ht : p.Tidy) {b : Nat}
    {k : BufferBlock} (hcount : k.refcount = (p.block b).refcount)
    (htidy : k.beginPos ≤ k.endPos ∧ k.endPos ≤ k.capacity ∧ k.capacity = p.blockSize)
    (hkept : (p.block b).endPos ≤ k.endPos ∧
      k.data.take (p.block b).endPos = (p.block b).data.take (p.block b).endPos) :
    p.Moves c (p.set b k) c := by
  have href : ∀ x, ((p.set b k).block x).refcount = (p.block x).refcount := by
    intro x
    by_cases hxb : x = b
    · subst hxb
      simp [hcount]
    · simp [hxb]
  refine ⟨⟨h.unborn, fun x hx => ?_, h.free, h.nodup, fun x hx => ?_⟩, fun x => ?_, fun x _ _ => ?_,
    rfl⟩
  · rw [href]
    exact h.held x hx
  · rw [href]
    exact h.idle x hx
  · by_cases hxb : x = b
    · subst hxb
      simpa using htidy
    · simpa [hxb] using ht x
  · by_cases hxb : x = b
    · subst hxb
      simpa [Kept] using hkept
    · simp [Kept, hxb]

/-- A write behind the written bytes changes nothing that is shown. -/
theorem moves_write {p : BlockPool} {c : Nat → Nat} (h : p.Counted c) (ht : p.Tidy) (b : Nat)
    {d : Bytes} (hd : d.length ≤ (p.block b).writableBytes) :
    p.Moves c (p.set b ((p.block b).write d)) c := by
  obtain ⟨h1, h2, h3⟩ := ht b
  simp only [BufferBlock.writableBytes, BufferBlock.capacity] at hd h2 h3
  refine moves_set h ht rfl ⟨?_, ?_, ?_⟩ ⟨?_, ?_⟩
  · simp only [BufferBlock.write]
    omega
  · simp only [BufferBlock.write, BufferBlock.capacity, List.length_append, List.length_take,
      List.length_drop]
    omega
  · simp only [BufferBlock.write, BufferBlock.capacity, List.length_append, List.length_take,
      List.length_drop]
    omega
  · simp only [BufferBlock.write]
    omega
  · simp only [BufferBlock.write, List.append_assoc]
    rw [List.take_append_of_le_length (by simp only [List.length_take]; omega), List.take_take,
      Nat.min_self]

/-- Neither does a consumed prefix. -/
theorem moves_consume {p : BlockPool} {c : Nat → Nat} (h : p.Counted c) (ht : p.Tidy) (b n : Nat) :
    p.Moves c (p.set b ((p.block b).consume n)) c := by
  obtain ⟨h1, h2, h3⟩ := ht b
  exact moves_set h ht rfl ⟨Nat.min_le_left _ _, h2, h3⟩ ⟨Nat.le_refl _, rfl⟩

/-! ## 3. Many references at once -/

/-- The blocks of the list are retained, in order. -/
def retainAll (p : BlockPool) (l : List Nat) : BlockPool := l.foldl retain p

/-- The blocks of the list are released, in order. -/
def releaseAll (p : BlockPool) (l : List Nat) : BlockPool := l.foldl release p

theorem retainAll_cons (p : BlockPool) (b : Nat) (l : List Nat) :
    p.retainAll (b :: l) = (p.retain b).retainAll l := by
  rw [retainAll, List.foldl_cons, ← retainAll]

theorem releaseAll_cons (p : BlockPool) (b : Nat) (l : List Nat) :
    p.releaseAll (b :: l) = (p.release b).releaseAll l := by
  rw [releaseAll, List.foldl_cons, ← releaseAll]

theorem one_eq_count (b x : Nat) : one b x = [b].count x := by
  by_cases h : x = b
  · subst h
    simp [one]
  · simp [one, h, Ne.symm h]

/-- `retain` for each block of a list. -/
theorem moves_retainAll {l : List Nat} {p : BlockPool} {c : Nat → Nat} (h : p.Counted c)
    (ht : p.Tidy) (hl : ∀ b ∈ l, 0 < c b) (hlimit : ∀ b, c b + l.count b < 2 ^ 32) :
    p.Moves c (p.retainAll l) (fun x => c x + l.count x) := by
  induction l generalizing p c with
  | nil => exact (Moves.refl h ht).congr (fun _ => rfl) fun x => by simp
  | cons b l ih =>
    have hcons : ∀ x, (b :: l).count x = one b x + l.count x := by
      intro x
      rw [one_eq_count, ← List.count_append]
      rfl
    have hb := hlimit b
    rw [hcons, one, if_pos rfl] at hb
    rw [retainAll_cons]
    have h1 := moves_retain h ht (hl b List.mem_cons_self) (by omega)
    have h2 := ih h1.counted h1.tidy (fun x hx => ?_) (fun x => ?_)
    · refine (h1.trans h2 fun x hx _ => by omega).congr (fun _ => rfl) fun x => ?_
      rw [hcons]
      omega
    · have := hl x (List.mem_cons_of_mem _ hx)
      omega
    · have := hlimit x
      rw [hcons] at this
      omega

/-- `release` for each block of a list, whose holders are all counted. -/
theorem moves_releaseAll {l : List Nat} {p : BlockPool} {c : Nat → Nat} (h : p.Counted c)
    (ht : p.Tidy) (hl : ∀ b, l.count b ≤ c b) (hlimit : ∀ b, c b < 2 ^ 32) :
    p.Moves c (p.releaseAll l) (fun x => c x - l.count x) := by
  induction l generalizing p c with
  | nil => exact (Moves.refl h ht).congr (fun _ => rfl) fun x => by simp
  | cons b l ih =>
    have hcons : ∀ x, (b :: l).count x = one b x + l.count x := by
      intro x
      rw [one_eq_count, ← List.count_append]
      rfl
    have hb := hl b
    rw [hcons, one, if_pos rfl] at hb
    rw [releaseAll_cons]
    have h1 := moves_release h ht (b := b) (by omega) (hlimit b)
    have h2 := ih h1.counted h1.tidy (fun x => ?_) (fun x => ?_)
    · refine (h1.trans h2 fun x _ hx => by omega).congr (fun _ => rfl) fun x => ?_
      rw [hcons]
      omega
    · have := hl x
      rw [hcons] at this
      omega
    · have := hlimit x
      omega

end BlockPool

/-! ## 4. Buffers, slices and chains -/

open BlockPool

/-- `IoBuffer`: the deque and `readable_bytes_`. Its linearization holds copies of bytes, no
    block. -/
structure IoBuffer where
  blocks : List Nat
  readableBytes : Nat

/-- `BufferSlice`. -/
structure BufferSlice where
  block : Option Nat
  offset : Nat
  length : Nat
  deriving DecidableEq

namespace BufferSlice

/-- The block a slice holds. -/
def refs (s : BufferSlice) : List Nat := s.block.toList

/-- What a slice is after it was moved from. -/
def moved (s : BufferSlice) : BufferSlice := { s with block := none, length := 0 }

end BufferSlice

/-- The bytes seen through a slice. -/
def BlockPool.view (p : BlockPool) (s : BufferSlice) : Bytes :=
  match s.block with
  | none => []
  | some b => ((p.block b).data.drop s.offset).take s.length

/-- A slice lies in the written part of its block. -/
def BlockPool.Inside (p : BlockPool) (s : BufferSlice) : Prop :=
  ∀ b, s.block = some b → s.offset + s.length ≤ (p.block b).endPos

theorem BlockPool.Kept.inside {p p' : BlockPool} {s : BufferSlice} (h : p.Inside s)
    (hk : ∀ b, s.block = some b → p.Kept p' b) : p'.Inside s :=
  fun b hb => Nat.le_trans (h b hb) (hk b hb).1

/-- **A slice over a kept block shows the same bytes.** -/
theorem BlockPool.Kept.view {p p' : BlockPool} {s : BufferSlice} (h : p.Inside s)
    (hk : ∀ b, s.block = some b → p.Kept p' b) : p'.view s = p.view s := by
  unfold BlockPool.view
  cases hb : s.block with
  | none => rfl
  | some b =>
    obtain ⟨_, heq⟩ := hk b hb
    have hin := h b hb
    have hcut : ∀ d : Bytes, (d.drop s.offset).take s.length =
        ((d.take (p.block b).endPos).drop s.offset).take s.length := by
      intro d
      rw [List.drop_take, List.take_take, Nat.min_eq_left (by omega)]
    show ((p'.block b).data.drop s.offset).take s.length =
      ((p.block b).data.drop s.offset).take s.length
    rw [hcut (p'.block b).data, heq, ← hcut]

namespace IoBuffer

def create : IoBuffer := ⟨[], 0⟩

/-- The writable bytes of the last block. -/
def writable (p : BlockPool) (x : IoBuffer) : Nat :=
  match x.blocks.getLast? with
  | none => 0
  | some b => (p.block b).writableBytes

/-- `IoBuffer::reserveWritable`. -/
def reserveWritable (p : BlockPool) (x : IoBuffer) : BlockPool × IoBuffer :=
  if x.writable p = 0 then (p.acquire.2, { x with blocks := x.blocks ++ [p.acquire.1] })
  else (p, x)

/-- The bytes `d` written into the reserved space, then `IoBuffer::commitWrite`. -/
def commitWrite (p : BlockPool) (x : IoBuffer) (d : Bytes) : BlockPool × IoBuffer :=
  match x.blocks.getLast? with
  | none => (p, x)
  | some b =>
      (p.set b ((p.block b).write d), { x with readableBytes := x.readableBytes + d.length })

/-- The loop of `IoBuffer::append`; no result: the rounds given did not suffice. -/
def appendLoop : Nat → BlockPool → IoBuffer → Bytes → Option (BlockPool × IoBuffer)
  | _, p, x, [] => some (p, x)
  | 0, _, _, _ :: _ => none
  | fuel + 1, p, x, d :: ds =>
      let (p₁, x₁) := x.reserveWritable p
      let n := min (x₁.writable p₁) (d :: ds).length
      let (p₂, x₂) := x₁.commitWrite p₁ ((d :: ds).take n)
      appendLoop fuel p₂ x₂ ((d :: ds).drop n)

/-- `IoBuffer::append`; every round takes a byte at least, if blocks have room for one. -/
def append (p : BlockPool) (x : IoBuffer) (d : Bytes) : Option (BlockPool × IoBuffer) :=
  appendLoop d.length p x d

/-- The loop of `IoBuffer::consume`. -/
def consumeLoop : BlockPool → List Nat → Nat → BlockPool × List Nat
  | p, [], _ => (p, [])
  | p, b :: bs, 0 => (p, b :: bs)
  | p, b :: bs, n + 1 =>
      let take := min (n + 1) (p.block b).size
      let p' := p.set b ((p.block b).consume take)
      -- a block with bytes left took all of `n`, so the loop ends there
      if (p'.block b).size = 0 then consumeLoop (p'.release b) bs (n + 1 - take)
      else (p', b :: bs)

/-- `IoBuffer::consume`. -/
def consume (p : BlockPool) (x : IoBuffer) (n : Nat) : BlockPool × IoBuffer :=
  let n := min n x.readableBytes
  ((consumeLoop p x.blocks n).1, ⟨(consumeLoop p x.blocks n).2, x.readableBytes - n⟩)

/-- The slices `IoBuffer::slicePrefix` makes. -/
def prefixSlices (p : BlockPool) : List Nat → Nat → List BufferSlice
  | [], _ => []
  | b :: bs, n =>
      let take := min n (p.block b).size
      ⟨some b, (p.block b).beginPos, take⟩ ::
        if n - take = 0 then [] else prefixSlices p bs (n - take)

/-- `IoBuffer::slicePrefix`: every slice retains its block, then the bytes are consumed. -/
def slicePrefix (p : BlockPool) (x : IoBuffer) (n : Nat) :
    List BufferSlice × BlockPool × IoBuffer :=
  if n = 0 then ([], p, x)
  else
    let l := prefixSlices p x.blocks n
    (l, x.consume (p.retainAll (l.flatMap BufferSlice.refs)) n)

/-- `IoBuffer::clear`. -/
def clear (p : BlockPool) (x : IoBuffer) : BlockPool × IoBuffer :=
  (p.releaseAll x.blocks, create)

section Moves

variable {p : BlockPool} {c : Nat → Nat}

/-- In the following a buffer `x` stands beside references `c` of others. -/
def beside (c : Nat → Nat) (l : List Nat) (b : Nat) : Nat := c b + l.count b

/-- A block that is acquired is held by the deque and by nobody else. -/
theorem moves_reserve (x : IoBuffer) (h : p.Counted (beside c x.blocks)) (ht : p.Tidy) :
    p.Moves (beside c x.blocks) (x.reserveWritable p).1
      (beside c (x.reserveWritable p).2.blocks) := by
  unfold reserveWritable
  split
  · refine (moves_acquire h ht).2.2.congr (fun _ => rfl) fun b => ?_
    simp only [beside, List.count_append, one_eq_count]
    omega
  · exact Moves.refl h ht

/-- `commitWrite` writes to the last block of the deque. -/
theorem moves_commit (x : IoBuffer) (h : p.Counted (beside c x.blocks)) (ht : p.Tidy) {d : Bytes}
    (hd : d.length ≤ x.writable p) :
    p.Moves (beside c x.blocks) (x.commitWrite p d).1 (beside c (x.commitWrite p d).2.blocks) := by
  unfold commitWrite
  unfold writable at hd
  split
  · exact Moves.refl h ht
  · rename_i b hb
    rw [hb] at hd
    exact moves_write h ht b hd

theorem count_reserve (x : IoBuffer) (b : Nat) :
    x.blocks.count b ≤ (x.reserveWritable p).2.blocks.count b := by
  unfold reserveWritable
  split
  · simp only [List.count_append]
    omega
  · exact Nat.le_refl _

theorem blocks_commit (x : IoBuffer) (p : BlockPool) (d : Bytes) :
    (x.commitWrite p d).2.blocks = x.blocks := by
  unfold commitWrite
  split <;> rfl

/-- The loop of `append` only adds blocks to the deque. By induction on the rounds. -/
theorem moves_appendLoop (fuel : Nat) (p : BlockPool) (x : IoBuffer) (d : Bytes)
    {y : BlockPool × IoBuffer} (h : p.Counted (beside c x.blocks)) (ht : p.Tidy)
    (hy : appendLoop fuel p x d = some y) :
    p.Moves (beside c x.blocks) y.1 (beside c y.2.blocks) ∧
      ∀ b, x.blocks.count b ≤ y.2.blocks.count b := by
  induction fuel generalizing p x d with
  | zero =>
    cases d with
    | nil =>
      cases hy
      exact ⟨Moves.refl h ht, fun b => Nat.le_refl _⟩
    | cons d ds => cases hy
  | succ fuel ih =>
    cases d with
    | nil =>
      cases hy
      exact ⟨Moves.refl h ht, fun b => Nat.le_refl _⟩
    | cons d ds =>
      -- one round: reserve, write what fits, commit; references are only added
      simp only [appendLoop] at hy
      have hd : ((d :: ds).take (min ((x.reserveWritable p).2.writable (x.reserveWritable p).1)
          (d :: ds).length)).length ≤ (x.reserveWritable p).2.writable (x.reserveWritable p).1 := by
        rw [List.length_take]
        omega
      have h1 := moves_reserve x h ht
      have h2 := moves_commit (x.reserveWritable p).2 h1.counted h1.tidy hd
      have hc1 := count_reserve x (p := p)
      have hc2 := blocks_commit (x.reserveWritable p).2 (x.reserveWritable p).1
        ((d :: ds).take (min ((x.reserveWritable p).2.writable (x.reserveWritable p).1)
          (d :: ds).length))
      obtain ⟨h3, hc3⟩ := ih _ _ _ h2.counted h2.tidy hy
      refine ⟨(h1.trans (h2.trans h3 ?_) ?_), fun b => ?_⟩
      · intro b hb _
        rw [hc2]
        exact hb
      · intro b hb _
        have := hc1 b
        simp only [beside] at hb ⊢
        omega
      · have h1 := hc1 b
        have h3 := hc3 b
        rw [hc2] at h3
        omega

/-- The loop of `consume` gives up the blocks it has emptied. By induction on the deque. -/
theorem moves_consumeLoop (p : BlockPool) (l : List Nat) (n : Nat)
    (h : p.Counted (beside c l)) (ht : p.Tidy) (hlimit : ∀ b, beside c l b < 2 ^ 32) :
    p.Moves (beside c l) (consumeLoop p l n).1 (beside c (consumeLoop p l n).2) ∧
      ∀ b, (consumeLoop p l n).2.count b ≤ l.count b := by
  fun_induction consumeLoop p l n with
  | case1 p n => exact ⟨Moves.refl h ht, fun b => Nat.le_refl _⟩
  | case2 p b bs => exact ⟨Moves.refl h ht, fun b => Nat.le_refl _⟩
  | case3 p b bs n take p' hsize ih =>
    have hcons : ∀ x, beside c (b :: bs) x - one b x = beside c bs x := by
      intro x
      rw [beside, beside, one_eq_count, ← List.singleton_append, List.count_append]
      omega
    have h1 : p.Moves (beside c (b :: bs)) p' (beside c (b :: bs)) := moves_consume h ht b take
    have hb : 0 < beside c (b :: bs) b := by
      rw [beside, List.count_cons_self]
      omega
    have h2 := (moves_release h1.counted h1.tidy hb (hlimit b)).congr (fun _ => rfl)
      fun x => (hcons x).symm
    have hle : ∀ x, beside c bs x ≤ beside c (b :: bs) x := by
      intro x
      rw [← hcons]
      exact Nat.sub_le _ _
    obtain ⟨h3, hc3⟩ := ih h2.counted h2.tidy fun x => Nat.lt_of_le_of_lt (hle x) (hlimit x)
    refine ⟨h1.trans (h2.trans h3 ?_) fun x hx _ => hx, fun x => ?_⟩
    · intro x _ hx
      have := hc3 x
      simp only [beside] at hx ⊢
      omega
    · exact Nat.le_trans (hc3 x) (List.count_le_count_cons)
  | case4 p b bs n take p' hsize =>
    exact ⟨moves_consume h ht b take, fun x => Nat.le_refl _⟩

/-- A slice of the prefix is of a block of the deque and lies in its written part. -/
theorem mem_prefixSlices {l : List Nat} {n : Nat} {s : BufferSlice} (ht : p.Tidy)
    (hs : s ∈ prefixSlices p l n) : (∃ b ∈ l, s.block = some b) ∧ p.Inside s := by
  induction l generalizing n with
  | nil => cases hs
  | cons b bs ih =>
    rw [prefixSlices] at hs
    rcases List.mem_cons.mp hs with rfl | hs
    · refine ⟨⟨b, List.mem_cons_self, rfl⟩, fun b' hb' => ?_⟩
      obtain rfl : b = b' := Option.some.inj hb'
      have h := ht b
      simp only [BufferBlock.size]
      omega
    · split at hs
      · cases hs
      · obtain ⟨⟨b', hb', hsb⟩, hin⟩ := ih hs
        exact ⟨⟨b', List.mem_cons_of_mem _ hb', hsb⟩, hin⟩

/-- **`slicePrefix` counts the blocks it shows once more**; its slices lie over written bytes. -/
theorem moves_slicePrefix (x : IoBuffer) (n : Nat) (h : p.Counted (beside c x.blocks))
    (ht : p.Tidy) (hlimit : ∀ b, beside c x.blocks b +
      ((x.slicePrefix p n).1.flatMap BufferSlice.refs).count b < 2 ^ 32) :
    p.Moves (beside c x.blocks) (x.slicePrefix p n).2.1
        (fun b => beside c (x.slicePrefix p n).2.2.blocks b +
          ((x.slicePrefix p n).1.flatMap BufferSlice.refs).count b) ∧
      ∀ s ∈ (x.slicePrefix p n).1, (x.slicePrefix p n).2.1.Inside s := by
  unfold slicePrefix at hlimit ⊢
  split
  · exact ⟨(Moves.refl h ht).congr (fun _ => rfl) fun b => by simp, nofun⟩
  · rename_i hn
    simp only [if_neg hn] at hlimit
    dsimp only
    generalize hl : prefixSlices p x.blocks n = l at hlimit ⊢
    have hmem : ∀ s ∈ l, (∃ b ∈ x.blocks, s.block = some b) ∧ p.Inside s := by
      intro s hs
      rw [← hl] at hs
      exact mem_prefixSlices ht hs
    have hheld : ∀ b ∈ l.flatMap BufferSlice.refs, 0 < beside c x.blocks b := by
      intro b hb
      obtain ⟨s, hs, hbs⟩ := List.mem_flatMap.mp hb
      obtain ⟨⟨b', hb', hsb⟩, _⟩ := hmem s hs
      rw [BufferSlice.refs, hsb, Option.toList_some, List.mem_singleton] at hbs
      subst hbs
      have := List.count_pos_iff.mpr hb'
      simp only [beside]
      omega
    have h1 := moves_retainAll h ht hheld hlimit
    -- the slices are references of others when the buffer consumes the bytes
    have h1' : p.Moves (beside c x.blocks) (p.retainAll (l.flatMap BufferSlice.refs))
        (beside (fun b => c b + (l.flatMap BufferSlice.refs).count b) x.blocks) :=
      h1.congr (fun _ => rfl) fun b => by
        simp only [beside]
        omega
    obtain ⟨h2, hc⟩ := moves_consumeLoop _ x.blocks (min n x.readableBytes) h1'.counted h1'.tidy
      fun b => by
        have := hlimit b
        simp only [beside] at this ⊢
        omega
    have hall : p.Moves (beside c x.blocks) (x.consume (p.retainAll (l.flatMap BufferSlice.refs)) n).1
        (beside (fun b => c b + (l.flatMap BufferSlice.refs).count b)
          (x.consume (p.retainAll (l.flatMap BufferSlice.refs)) n).2.blocks) :=
      h1'.trans h2 fun b hb _ => by
        simp only [beside] at hb ⊢
        omega
    refine ⟨hall.congr (fun _ => rfl) fun b => ?_, fun s hs => ?_⟩
    · simp only [beside]
      omega
    · refine BlockPool.Kept.inside (hmem s hs).2 fun b hb => hall.kept b ?_ ?_
      · obtain ⟨⟨b', hb', hsb⟩, _⟩ := hmem s hs
        obtain rfl : b = b' := Option.some.inj (hb.symm.trans hsb)
        have := List.count_pos_iff.mpr hb'
        simp only [beside]
        omega
      · have hin : b ∈ l.flatMap BufferSlice.refs :=
          List.mem_flatMap.mpr ⟨s, hs, by rw [BufferSlice.refs, hb]; exact List.mem_singleton.mpr rfl⟩
        have := List.count_pos_iff.mpr hin
        simp only [beside]
        omega

/-- `clear` gives up every block of the deque. -/
theorem moves_clear (x : IoBuffer) (h : p.Counted (beside c x.blocks)) (ht : p.Tidy)
    (hlimit : ∀ b, beside c x.blocks b < 2 ^ 32) :
    p.Moves (beside c x.blocks) (x.clear p).1 (beside c (x.clear p).2.blocks) := by
  refine (moves_releaseAll h ht (fun b => ?_) hlimit).congr (fun _ => rfl) fun b => ?_
  · simp only [beside]
    omega
  · simp only [clear, create, beside, List.count_nil]
    omega

end Moves

end IoBuffer

end RedisProxy.Shared
