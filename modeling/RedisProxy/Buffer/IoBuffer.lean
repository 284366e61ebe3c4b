/-
  File:      RedisProxy/Buffer/IoBuffer.lean
  Subject:   `IoBuffer` and `BufferChain` as their users see them (src/buffer.cpp).

  A block is read here as a value: its capacity, the cursor `begin_` and the bytes written so
  far (`data_[0, end_)`). Which blocks are shared with slices and when they go back to the pool
  is the subject of Buffer/Pool.lean; a user of one buffer cannot tell.

  * `IoBuffer` -- the deque of blocks, the separately kept byte count and the cached
    linearization, with the operations of the source;
  * `IoBuffer.Wf` -- what every operation keeps: cursors inside their block, no empty block
    before the last, the count and the cache agree with the blocks;
  * `Buffer` -- a well-formed `IoBuffer`, so that no other can be stored in a session or a
    channel, and `Buffer.content`, the byte queue it stands for. The lemmas of section 4 say
    what each operation does to the content; nothing after this file looks at the blocks.
-/
import Mathlib.Algebra.GroupWithZero.Nat
import Mathlib.Data.List.Basic
import Mathlib.Tactic.Common

namespace RedisProxy

abbrev Bytes := List UInt8

/-! ## 1. Chains -/

/-- `BufferChain`: the bytes each slice shows, and the separately kept `total_`. -/
structure BufferChain where
  slices : List Bytes
  total : Nat
  total_eq : total = slices.flatten.length

namespace BufferChain

/-- The bytes of the chain (`toStringForTest`). -/
def bytes (c : BufferChain) : Bytes := c.slices.flatten

/-- The chain without slices. -/
def empty : BufferChain := ⟨[], 0, rfl⟩

/-- A chain over the given slices. -/
def ofSlices (l : List Bytes) : BufferChain := ⟨l, l.flatten.length, rfl⟩

/-- `BufferChain::append`. -/
def append (c : BufferChain) (slice : Bytes) : BufferChain where
  slices := c.slices ++ [slice]
  total := c.total + slice.length
  total_eq := by simp [c.total_eq]

/-- `BufferChain::appendChain`. -/
def appendChain (c d : BufferChain) : BufferChain := d.slices.foldl append c

/-- A slice shows its bytes behind those of the chain. -/
@[simp] theorem bytes_append (c : BufferChain) (s : Bytes) : (c.append s).bytes = c.bytes ++ s := by
  simp [append, bytes]

/-- So do the slices of another chain. -/
@[simp] theorem bytes_appendChain (c d : BufferChain) :
    (c.appendChain d).bytes = c.bytes ++ d.bytes := by
  have h : ∀ (l : List Bytes) (c : BufferChain), (l.foldl append c).bytes = c.bytes ++ l.flatten := by
    intro l
    induction l with
    | nil => simp
    | cons s l ih =>
      intro c
      rw [List.foldl_cons, ih, bytes_append, List.flatten_cons, List.append_assoc]
  exact h d.slices c

end BufferChain

/-! ## 2. Blocks and the deque -/

/-- A block as a value: `data` is `data_[0, end_)`. -/
structure Block where
  capacity : Nat
  beginPos : Nat
  data : Bytes

namespace Block

/-- A block as the pool hands it out. -/
def fresh (capacity : Nat) : Block := ⟨capacity, 0, []⟩

/-- `BufferBlock::size`: what is written and not consumed. -/
def size (b : Block) : Nat := b.data.length - b.beginPos

/-- `BufferBlock::writableBytes`. -/
def writableBytes (b : Block) : Nat := b.capacity - b.data.length

/-- The bytes between `begin_` and `end_`. -/
def unread (b : Block) : Bytes := b.data.drop b.beginPos

/-- `BufferBlock::consume`. -/
def consume (b : Block) (n : Nat) : Block :=
  { b with beginPos := min b.data.length (b.beginPos + n) }

/-- Bytes written at `writePtr()`, then `advanceEnd`. -/
def write (b : Block) (d : Bytes) : Block := { b with data := b.data ++ d }

theorem size_eq (b : Block) : b.size = b.unread.length := by simp [size, unread]

/-- `consume` takes from the front, all there is at most. -/
theorem unread_consume (b : Block) (n : Nat) : (b.consume n).unread = b.unread.drop n := by
  simp only [unread, consume, List.drop_drop]
  rcases Nat.le_total b.data.length (b.beginPos + n) with h | h
  · rw [Nat.min_eq_left h, List.drop_length, List.drop_of_length_le h]
  · rw [Nat.min_eq_right h]

/-- What is written comes behind what is unread. -/
theorem unread_write {b : Block} (h : b.beginPos ≤ b.data.length) (d : Bytes) :
    (b.write d).unread = b.unread ++ d := by
  simp only [unread, write]
  rw [List.drop_append_of_le_length h]

end Block

/-- `IoBuffer`, with the block size of its pool. -/
structure IoBuffer where
  blockSize : Nat
  blocks : List Block
  readableBytes : Nat
  linearized : Bytes
  linearizedOffset : Nat

namespace IoBuffer

def init (blockSize : Nat) : IoBuffer := ⟨blockSize, [], 0, [], 0⟩

/-- The byte queue the deque stands for. -/
def content (b : IoBuffer) : Bytes := b.blocks.flatMap Block.unread

/-- `IoBuffer::clear`. -/
def clear (b : IoBuffer) : IoBuffer := init b.blockSize

/-- The writable bytes of the last block (`*writable` of `reserveWritable`). -/
def writable (b : IoBuffer) : Nat :=
  match b.blocks.getLast? with
  | none => 0
  | some k => k.writableBytes

/-- `IoBuffer::reserveWritable`: a fresh block when there is none or the last one is full. -/
def reserveWritable (b : IoBuffer) : IoBuffer :=
  if b.writable = 0 then { b with blocks := b.blocks ++ [Block.fresh b.blockSize] } else b

/-- The bytes `d` written into the reserved space, then `IoBuffer::commitWrite(|d|)`. -/
def commitWrite (b : IoBuffer) (d : Bytes) : IoBuffer where
  blockSize := b.blockSize
  blocks := b.blocks.dropLast ++ (b.blocks.getLast?.map fun k => k.write d).toList
  readableBytes := b.readableBytes + d.length
  linearized := []
  linearizedOffset := 0

/-- The loop of `IoBuffer::consume` over the blocks. -/
def consumeBlocks : List Block → Nat → List Block
  | [], _ => []
  | k :: ks, 0 => k :: ks
  | k :: ks, n + 1 =>
      let k' := k.consume (min (n + 1) k.size)
      -- a block with bytes left took all of `n`, so the loop ends there
      if k'.size = 0 then consumeBlocks ks (n + 1 - min (n + 1) k.size) else k' :: ks

/-- `IoBuffer::consume`. -/
def consume (b : IoBuffer) (n : Nat) : IoBuffer :=
  let n := min n b.readableBytes
  { b with
    blocks := consumeBlocks b.blocks n
    readableBytes := b.readableBytes - n
    linearizedOffset := if b.linearized = [] then b.linearizedOffset else b.linearizedOffset + n }

/-- `IoBuffer::readableView`: the view, and the buffer with its cache filled. -/
def readableView (b : IoBuffer) : Bytes × IoBuffer :=
  if b.readableBytes = 0 then ([], b)
  else match b.blocks with
    | [] => ([], b)
    | k :: _ =>
        if k.size = b.readableBytes then (k.unread, b)
        else if b.linearized = [] then
          let b' := { b with linearized := b.content, linearizedOffset := 0 }
          (b'.linearized.drop b'.linearizedOffset, b')
        else (b.linearized.drop b.linearizedOffset, b)

/-- The slices `IoBuffer::slicePrefix` takes from the blocks. -/
def prefixSlices : List Block → Nat → List Bytes
  | [], _ => []
  | k :: ks, n =>
      let take := min n k.size
      k.unread.take take :: if n - take = 0 then [] else prefixSlices ks (n - take)

/-- `IoBuffer::slicePrefix`. -/
def slicePrefix (b : IoBuffer) (n : Nat) : BufferChain × IoBuffer :=
  if n = 0 then (BufferChain.empty, b)
  else (BufferChain.ofSlices (prefixSlices b.blocks n), b.consume n)

/-! ## 3. What every operation keeps -/

/-- **Well-formed buffers.** A block without unread bytes is a reserved one nobody wrote to. -/
structure Wf (b : IoBuffer) : Prop where
  positive : 0 < b.blockSize
  inside : ∀ k ∈ b.blocks, k.beginPos ≤ k.data.length ∧ k.data.length ≤ k.capacity
  capacity : ∀ k ∈ b.blocks, k.capacity = b.blockSize
  count : b.readableBytes = b.content.length
  nonempty : ∀ k ∈ b.blocks.dropLast, k.unread ≠ []
  reserved : ∀ k ∈ b.blocks, k.unread = [] → k.data = []
  cache : b.linearized ≠ [] → b.linearized.drop b.linearizedOffset = b.content

theorem init_wf {n : Nat} (hn : 0 < n) : (init n).Wf where
  positive := hn
  inside _ h := absurd h List.not_mem_nil
  capacity _ h := absurd h List.not_mem_nil
  count := rfl
  nonempty _ h := absurd h List.not_mem_nil
  reserved _ h := absurd h List.not_mem_nil
  cache h := absurd rfl h

/-- **The loop of `consume` drops bytes from the front**, however they lie in the blocks. -/
theorem content_consumeBlocks (l : List Block) (n : Nat) :
    (consumeBlocks l n).flatMap Block.unread = (l.flatMap Block.unread).drop n := by
  fun_induction consumeBlocks l n with
  | case1 => simp
  | case2 => simp
  | case3 k ks n k' hk ih =>
    rw [ih, List.flatMap_cons, List.drop_append]
    have hsz : k.size ≤ n + 1 := by
      have h0 : k'.unread.length = 0 := by rw [← Block.size_eq, hk]
      rw [Block.unread_consume, List.length_drop, ← Block.size_eq] at h0
      omega
    have hnil : k.unread.drop (n + 1) = [] :=
      List.drop_of_length_le (by rw [← Block.size_eq]; exact hsz)
    rw [Nat.min_eq_right hsz, hnil, Block.size_eq, List.nil_append]
  | case4 k ks n k' hk =>
    rw [List.flatMap_cons, List.flatMap_cons, List.drop_append, Block.unread_consume]
    have hsz : n + 1 < k.size := by
      have h0 : k'.unread.length ≠ 0 := by rw [← Block.size_eq]; exact hk
      rw [Block.unread_consume, List.length_drop, ← Block.size_eq] at h0
      omega
    rw [Nat.min_eq_left (by omega), ← Block.size_eq, Nat.sub_eq_zero_of_le (by omega)]
    simp

/-- A block the loop leaves is one that was there, or a cut one that still has bytes. -/
theorem mem_consumeBlocks {l : List Block} {n : Nat} {k : Block} (h : k ∈ consumeBlocks l n) :
    k ∈ l ∨ ∃ k₀ ∈ l, ∃ m, k = k₀.consume m ∧ k.unread ≠ [] := by
  fun_induction consumeBlocks l n with
  | case1 => exact absurd h List.not_mem_nil
  | case2 k' ks => exact Or.inl h
  | case3 k' ks n _ _ ih =>
    rcases ih h with hk | ⟨k₀, hk₀, hm⟩
    · exact Or.inl (List.mem_cons_of_mem _ hk)
    · exact Or.inr ⟨k₀, List.mem_cons_of_mem _ hk₀, hm⟩
  | case4 k' ks n k'' hk'' =>
    rcases List.mem_cons.mp h with rfl | h
    · refine Or.inr ⟨k', List.mem_cons_self, _, rfl, fun h0 => hk'' ?_⟩
      rw [Block.size_eq, h0]
      rfl
    · exact Or.inl (List.mem_cons_of_mem _ h)

/-- It leaves no empty block before the last. -/
theorem consumeBlocks_dropLast {l : List Block} {n : Nat}
    (hne : ∀ k ∈ l.dropLast, k.unread ≠ []) :
    ∀ k ∈ (consumeBlocks l n).dropLast, k.unread ≠ [] := by
  fun_induction consumeBlocks l n with
  | case1 => exact hne
  | case2 => exact hne
  | case3 k' ks n _ _ ih =>
    refine ih fun k hk => hne k ?_
    cases ks with
    | nil => exact absurd hk List.not_mem_nil
    | cons k₂ ks => exact List.mem_cons_of_mem _ hk
  | case4 k' ks n k'' hk'' =>
    intro k hk
    cases ks with
    | nil => exact absurd hk List.not_mem_nil
    | cons k₂ ks =>
      rcases List.mem_cons.mp hk with rfl | hk
      · intro h0
        exact hk'' (by rw [Block.size_eq, h0]; rfl)
      · exact hne k (List.mem_cons_of_mem _ hk)

/-- `consume` keeps the counts: the loop, the counter and the cache drop the same bytes. -/
theorem consume_wf {b : IoBuffer} (h : b.Wf) (n : Nat) : (b.consume n).Wf where
  positive := h.positive
  inside k hk := by
    rcases mem_consumeBlocks hk with hk | ⟨k₀, hk₀, m, rfl, _⟩
    · exact h.inside k hk
    · exact ⟨Nat.min_le_left _ _, (h.inside k₀ hk₀).2⟩
  capacity k hk := by
    rcases mem_consumeBlocks hk with hk | ⟨k₀, hk₀, m, rfl, _⟩
    · exact h.capacity k hk
    · exact h.capacity k₀ hk₀
  count := by
    simp only [consume, content, content_consumeBlocks, List.length_drop]
    rw [h.count]
    rfl
  nonempty := consumeBlocks_dropLast h.nonempty
  reserved k hk hnil := by
    rcases mem_consumeBlocks hk with hk | ⟨_, _, _, _, hne⟩
    · exact h.reserved k hk hnil
    · exact absurd hnil hne
  cache hc := by
    have hc' : b.linearized ≠ [] := hc
    simp only [consume, content, content_consumeBlocks, if_neg hc']
    rw [← List.drop_drop, h.cache hc']
    rfl

theorem content_consume {b : IoBuffer} (h : b.Wf) (n : Nat) :
    (b.consume n).content = b.content.drop n := by
  simp only [consume, content, content_consumeBlocks]
  rw [h.count]
  rcases Nat.le_total n b.content.length with hn | hn
  · rw [Nat.min_eq_left hn]
  · rw [Nat.min_eq_right hn]
    exact (List.drop_length (l := b.content)).trans (List.drop_of_length_le hn).symm

/-- A block that is added has nothing to read. -/
theorem content_reserve (b : IoBuffer) : b.reserveWritable.content = b.content := by
  unfold reserveWritable
  split
  · simp [content, Block.fresh, Block.unread]
  · rfl

theorem mem_last {b : IoBuffer} {k : Block} (h : k ∈ b.blocks) (hl : k ∉ b.blocks.dropLast) :
    b.blocks.getLast? = some k := by
  rcases List.eq_nil_or_concat b.blocks with he | ⟨l, k₀, he⟩
  · rw [he] at h
    exact absurd h List.not_mem_nil
  · rw [List.concat_eq_append] at he
    rw [he, List.dropLast_concat] at hl
    rw [he] at h ⊢
    rcases List.mem_append.mp h with h | h
    · exact absurd h hl
    · rw [List.mem_singleton.mp h, List.getLast?_concat]

/-- A buffer whose last block is full has no empty block: a full block was written to. -/
theorem unread_of_full {b : IoBuffer} (h : b.Wf) (hw : b.writable = 0) :
    ∀ k ∈ b.blocks, k.unread ≠ [] := by
  intro k hk hnil
  by_cases hl : k ∈ b.blocks.dropLast
  · exact h.nonempty k hl hnil
  · have hlast := mem_last hk hl
    simp only [writable, hlast, Block.writableBytes] at hw
    rw [h.reserved k hk hnil, h.capacity k hk] at hw
    have := h.positive
    simp at hw
    omega

/-- `reserveWritable` adds a block only where there is no room. -/
theorem reserve_wf {b : IoBuffer} (h : b.Wf) : b.reserveWritable.Wf := by
  by_cases hw : b.writable = 0
  · have hr : b.reserveWritable = { b with blocks := b.blocks ++ [Block.fresh b.blockSize] } := by
      simp [reserveWritable, hw]
    have hcont := content_reserve b
    rw [hr] at hcont ⊢
    refine ⟨h.positive, fun k hk => ?_, fun k hk => ?_, ?_, fun k hk => ?_, fun k hk hnil => ?_,
      fun hc => ?_⟩
    · rcases List.mem_append.mp hk with hk | hk
      · exact h.inside k hk
      · rw [List.mem_singleton.mp hk]
        exact ⟨Nat.le_refl 0, Nat.zero_le _⟩
    · rcases List.mem_append.mp hk with hk | hk
      · exact h.capacity k hk
      · rw [List.mem_singleton.mp hk]
        rfl
    · rw [hcont]
      exact h.count
    · simp only [List.dropLast_concat] at hk
      exact unread_of_full h hw k hk
    · rcases List.mem_append.mp hk with hk | hk
      · exact h.reserved k hk hnil
      · rw [List.mem_singleton.mp hk]
        rfl
    · rw [hcont]
      exact h.cache hc
  · have hr : b.reserveWritable = b := by simp [reserveWritable, hw]
    rw [hr]
    exact h

/-- After `reserveWritable` there is a last block with room. -/
theorem writable_reserve_pos {b : IoBuffer} (h : b.Wf) : 0 < b.reserveWritable.writable := by
  unfold reserveWritable
  split
  · simp only [writable, List.getLast?_concat, Block.writableBytes, Block.fresh]
    exact h.positive
  · omega

/-- No more can be written at once than a block holds. -/
theorem writable_le {b : IoBuffer} (h : b.Wf) : b.writable ≤ b.blockSize := by
  unfold writable
  split
  · exact Nat.zero_le _
  · rename_i k hk
    rw [← h.capacity k (List.mem_of_getLast? hk)]
    exact Nat.sub_le _ _

/-- A last block with room, split off. -/
theorem blocks_of_writable {b : IoBuffer} (hw : 0 < b.writable) :
    ∃ l k, b.blocks = l ++ [k] ∧ b.writable = k.writableBytes := by
  rcases List.eq_nil_or_concat b.blocks with he | ⟨l, k, he⟩
  · simp [writable, he] at hw
  · rw [List.concat_eq_append] at he
    exact ⟨l, k, he, by simp [writable, he]⟩

/-- **`commitWrite` puts the bytes behind the content.** -/
theorem content_commit {b : IoBuffer} (h : b.Wf) (hw : 0 < b.writable) (d : Bytes) :
    (b.commitWrite d).content = b.content ++ d := by
  obtain ⟨l, k, he, _⟩ := blocks_of_writable hw
  have hk : k.beginPos ≤ k.data.length := (h.inside k (by simp [he])).1
  simp [commitWrite, content, he, Block.unread_write hk]

/-- It keeps the counts as long as the bytes fit the last block. -/
theorem commit_wf {b : IoBuffer} (h : b.Wf) (hw : 0 < b.writable) {d : Bytes}
    (hd : d.length ≤ b.writable) : (b.commitWrite d).Wf := by
  have hcont := content_commit h hw d
  obtain ⟨l, k, he, hwk⟩ := blocks_of_writable hw
  have hk : k ∈ b.blocks := by simp [he]
  have hb : (b.commitWrite d).blocks = l ++ [k.write d] := by simp [commitWrite, he]
  have hl : ∀ k' ∈ l, k' ∈ b.blocks := fun k' hk' => by simp [he, hk']
  refine ⟨h.positive, fun k' hk' => ?_, fun k' hk' => ?_, ?_, fun k' hk' => ?_,
    fun k' hk' hnil => ?_, fun hc => absurd rfl hc⟩
  · rw [hb] at hk'
    rcases List.mem_append.mp hk' with hk' | hk'
    · exact h.inside k' (hl k' hk')
    · rw [List.mem_singleton.mp hk']
      obtain ⟨h1, h2⟩ := h.inside k hk
      rw [hwk, Block.writableBytes] at hd
      simp only [Block.write, List.length_append]
      omega
  · rw [hb] at hk'
    rcases List.mem_append.mp hk' with hk' | hk'
    · exact h.capacity k' (hl k' hk')
    · rw [List.mem_singleton.mp hk']
      exact h.capacity k hk
  · rw [hcont, List.length_append, ← h.count]
    rfl
  · rw [hb, List.dropLast_concat] at hk'
    refine h.nonempty k' ?_
    rw [he, List.dropLast_concat]
    exact hk'
  · rw [hb] at hk'
    rcases List.mem_append.mp hk' with hk' | hk'
    · exact h.reserved k' (hl k' hk') hnil
    · rw [List.mem_singleton.mp hk'] at hnil ⊢
      rw [Block.unread_write (h.inside k hk).1] at hnil
      obtain ⟨h1, h2⟩ := List.append_eq_nil_iff.mp hnil
      simp [Block.write, h.reserved k hk h1, h2]

/-- The blocks after a front block that holds all the readable bytes are empty. -/
theorem content_of_front {b : IoBuffer} (h : b.Wf) {k : Block} {ks : List Block}
    (hb : b.blocks = k :: ks) (hs : k.size = b.readableBytes) : b.content = k.unread := by
  have hc := h.count
  have hcont : b.content = k.unread ++ ks.flatMap Block.unread := by simp [content, hb]
  rw [hcont, ← hs, Block.size_eq, List.length_append] at hc
  have hnil : ks.flatMap Block.unread = [] := List.eq_nil_of_length_eq_zero (by omega)
  rw [hcont, hnil, List.append_nil]

/-- **The view is the whole content**, whichever of its three sources it comes from. -/
theorem readableView_fst {b : IoBuffer} (h : b.Wf) : b.readableView.1 = b.content := by
  unfold readableView
  split
  · rename_i h0
    exact (List.eq_nil_of_length_eq_zero (h.count ▸ h0)).symm
  · rename_i h0
    split
    · rename_i hb
      simp [content, hb]
    · rename_i k ks hb
      split
      · rename_i hs
        exact (content_of_front h hb hs).symm
      · split
        · simp
        · rename_i hl
          exact h.cache hl

theorem content_readableView (b : IoBuffer) : b.readableView.2.content = b.content := by
  unfold readableView
  repeat' split
  all_goals rfl

theorem blockSize_readableView (b : IoBuffer) : b.readableView.2.blockSize = b.blockSize := by
  unfold readableView
  repeat' split
  all_goals rfl

/-- The view caches what the blocks hold. -/
theorem readableView_wf {b : IoBuffer} (h : b.Wf) : b.readableView.2.Wf := by
  unfold readableView
  repeat' split
  all_goals first
    | exact h
    | exact ⟨h.positive, h.inside, h.capacity, h.count, h.nonempty, h.reserved, fun _ => rfl⟩

/-- **The slices of a prefix show its bytes**, however they are spread over the blocks. -/
theorem flatten_prefixSlices (l : List Block) (n : Nat) :
    (prefixSlices l n).flatten = (l.flatMap Block.unread).take n := by
  induction l generalizing n with
  | nil => simp [prefixSlices]
  | cons k ks ih =>
    rw [prefixSlices, List.flatten_cons, List.flatMap_cons, List.take_append, ← Block.size_eq]
    rcases Nat.le_total n k.size with hn | hn
    · rw [Nat.min_eq_left hn, Nat.sub_self, if_pos rfl, Nat.sub_eq_zero_of_le hn]
      simp
    · have hall : k.unread.take n = k.unread :=
        List.take_of_length_le (by rw [← Block.size_eq]; exact hn)
      have hsize : k.unread.take k.size = k.unread :=
        List.take_of_length_le (Nat.le_of_eq (Block.size_eq k).symm)
      rw [Nat.min_eq_right hn, hall, hsize]
      by_cases hz : n - k.size = 0
      · rw [if_pos hz, hz]
        simp
      · rw [if_neg hz, ih]

end IoBuffer

/-! ## 4. Well-formed buffers and their content -/

/-- A well-formed `IoBuffer`: the only kind the rest of the model stores. -/
structure Buffer where
  io : IoBuffer
  wf : io.Wf

namespace Buffer

/-- The byte queue the buffer stands for. -/
def content (b : Buffer) : Bytes := b.io.content

/-- The block size of the buffer's pool. -/
def blockSize (b : Buffer) : Nat := b.io.blockSize

def init (blockSize : Nat) (h : 0 < blockSize) : Buffer := ⟨.init blockSize, IoBuffer.init_wf h⟩

/-- `IoBuffer::readableBytes`. -/
def readableBytes (b : Buffer) : Nat := b.io.readableBytes

/-- `IoBuffer::clear`. -/
def clear (b : Buffer) : Buffer := ⟨b.io.clear, IoBuffer.init_wf b.wf.positive⟩

/-- `IoBuffer::reserveWritable`. -/
def reserveWritable (b : Buffer) : Buffer := ⟨b.io.reserveWritable, IoBuffer.reserve_wf b.wf⟩

/-- `*writable` of a `reserveWritable` call. -/
def writable (b : Buffer) : Nat := b.io.reserveWritable.writable

/-- `reserveWritable`, `d` written to the reserved space, `commitWrite(|d|)`. -/
def commit (b : Buffer) (d : Bytes) (h : d.length ≤ b.writable) : Buffer :=
  ⟨b.io.reserveWritable.commitWrite d,
    IoBuffer.commit_wf (IoBuffer.reserve_wf b.wf) (IoBuffer.writable_reserve_pos b.wf) h⟩

/-- The loop of `IoBuffer::append`; every round writes at least one byte, so `|d|` rounds do. -/
def appendLoop : Nat → Buffer → Bytes → Buffer
  | 0, b, _ => b
  | n + 1, b, d =>
      if d = [] then b
      else appendLoop n (b.commit (d.take b.writable) (List.length_take_le _ _)) (d.drop b.writable)

/-- `IoBuffer::append`. -/
def append (b : Buffer) (d : Bytes) : Buffer := appendLoop d.length b d

/-- `IoBuffer::consume`. -/
def consume (b : Buffer) (n : Nat) : Buffer := ⟨b.io.consume n, IoBuffer.consume_wf b.wf n⟩

/-- The view alone; the cache it fills is `Buffer.viewed`. -/
def readableView (b : Buffer) : Bytes := b.io.readableView.1

/-- The buffer after `readableView`. -/
def viewed (b : Buffer) : Buffer := ⟨b.io.readableView.2, IoBuffer.readableView_wf b.wf⟩

/-- The chain of `slicePrefix`. -/
def slicePrefix (b : Buffer) (n : Nat) : BufferChain := (b.io.slicePrefix n).1

/-- The buffer after `slicePrefix`. -/
def sliced (b : Buffer) (n : Nat) : Buffer :=
  ⟨(b.io.slicePrefix n).2, by
    unfold IoBuffer.slicePrefix
    split
    · exact b.wf
    · exact IoBuffer.consume_wf b.wf n⟩

@[simp] theorem content_init (n : Nat) (h : 0 < n) : (init n h).content = [] := rfl

@[simp] theorem content_clear (b : Buffer) : b.clear.content = [] := rfl

@[simp] theorem content_reserveWritable (b : Buffer) : b.reserveWritable.content = b.content :=
  IoBuffer.content_reserve b.io

@[simp] theorem content_commit (b : Buffer) (d : Bytes) (h : d.length ≤ b.writable) :
    (b.commit d h).content = b.content ++ d := by
  have hc := IoBuffer.content_commit (IoBuffer.reserve_wf b.wf) (IoBuffer.writable_reserve_pos b.wf) d
  rw [IoBuffer.content_reserve] at hc
  exact hc

theorem writable_pos (b : Buffer) : 0 < b.writable := IoBuffer.writable_reserve_pos b.wf

/-- The loop of `append` writes block by block until nothing is left. -/
theorem content_appendLoop (n : Nat) (b : Buffer) (d : Bytes) (h : d.length ≤ n) :
    (appendLoop n b d).content = b.content ++ d := by
  induction n generalizing b d with
  | zero =>
    rw [List.eq_nil_of_length_eq_zero (Nat.le_zero.mp h), List.append_nil]
    rfl
  | succ n ih =>
    unfold appendLoop
    split
    · rename_i hd
      rw [hd, List.append_nil]
    · have hw := b.writable_pos
      rw [ih _ _ (by rw [List.length_drop]; omega), content_commit, List.append_assoc,
        List.take_append_drop]

/-- **`append` puts the bytes behind the content.** -/
@[simp] theorem content_append (b : Buffer) (d : Bytes) : (b.append d).content = b.content ++ d :=
  content_appendLoop _ b d (Nat.le_refl _)

@[simp] theorem content_consume (b : Buffer) (n : Nat) :
    (b.consume n).content = b.content.drop n := IoBuffer.content_consume b.wf n

/-- The view is the content. -/
@[simp] theorem readableView_eq (b : Buffer) : b.readableView = b.content :=
  IoBuffer.readableView_fst b.wf

@[simp] theorem content_viewed (b : Buffer) : b.viewed.content = b.content :=
  IoBuffer.content_readableView b.io

/-- **`slicePrefix` shows the first bytes of the content.** -/
@[simp] theorem bytes_slicePrefix (b : Buffer) (n : Nat) :
    (b.slicePrefix n).bytes = b.content.take n := by
  unfold slicePrefix IoBuffer.slicePrefix
  split
  · rename_i h0
    rw [h0]
    rfl
  · exact IoBuffer.flatten_prefixSlices _ _

/-- It takes them from the content. -/
@[simp] theorem content_sliced (b : Buffer) (n : Nat) :
    (b.sliced n).content = b.content.drop n := by
  by_cases h0 : n = 0
  · subst h0
    rfl
  · have e : (b.sliced n).io = b.io.consume n := by simp [sliced, IoBuffer.slicePrefix, h0]
    show (b.sliced n).io.content = _
    rw [e]
    exact IoBuffer.content_consume b.wf n

/-- `readable_bytes_` is the length of the content. -/
theorem readableBytes_eq (b : Buffer) : b.readableBytes = b.content.length := b.wf.count

theorem writable_le (b : Buffer) : b.writable ≤ b.blockSize := by
  have h := IoBuffer.writable_le (IoBuffer.reserve_wf b.wf)
  have e : b.io.reserveWritable.blockSize = b.io.blockSize := by
    unfold IoBuffer.reserveWritable
    split <;> rfl
  rw [e] at h
  exact h

section BlockSize

variable (b : Buffer)

@[simp] theorem blockSize_reserveWritable : b.reserveWritable.blockSize = b.blockSize := by
  show b.io.reserveWritable.blockSize = b.io.blockSize
  unfold IoBuffer.reserveWritable
  split <;> rfl

@[simp] theorem blockSize_commit (d : Bytes) (h : d.length ≤ b.writable) :
    (b.commit d h).blockSize = b.blockSize := b.blockSize_reserveWritable

@[simp] theorem blockSize_consume (n : Nat) : (b.consume n).blockSize = b.blockSize := rfl

@[simp] theorem blockSize_viewed : b.viewed.blockSize = b.blockSize :=
  IoBuffer.blockSize_readableView b.io

@[simp] theorem blockSize_sliced (n : Nat) : (b.sliced n).blockSize = b.blockSize := by
  show (b.io.slicePrefix n).2.blockSize = b.io.blockSize
  unfold IoBuffer.slicePrefix
  split <;> rfl

end BlockSize

end Buffer

/-- `MakeBufferChain`: a buffer of its own, filled and sliced whole. -/
def makeBufferChain (blockSize : Nat) (h : 0 < blockSize) (bytes : Bytes) : BufferChain :=
  ((Buffer.init blockSize h).append bytes).slicePrefix bytes.length

/-- The chain that is made of bytes shows these bytes. -/
@[simp] theorem bytes_makeBufferChain (blockSize : Nat) (h : 0 < blockSize) (bytes : Bytes) :
    (makeBufferChain blockSize h bytes).bytes = bytes := by
  simp [makeBufferChain]

end RedisProxy
