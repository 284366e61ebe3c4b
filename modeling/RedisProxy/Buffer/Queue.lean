/-
  File:      RedisProxy/Buffer/Queue.lean
  Subject:   `IoBuffer` IS A BYTE QUEUE.

  The queue is the abstract side: a list of bytes with the interface of `IoBuffer`, said without
  blocks, counters or caches. The deque of blocks refines it: over any sequence of operations both
  give the same answers, and the content of the blocks is the queue (`buffer_is_queue`).
-/
import RedisProxy.Buffer.IoBuffer
import RedisProxy.Lib.Machine

namespace RedisProxy

/-! ## 1. The interface -/

/-- The operations. `write` is `reserveWritable`, the bytes put into the reserved space and
    `commitWrite` of as many; `reserveWritable` is one without a `commitWrite`, as after a read
    that failed. -/
inductive BufferOp where
  | append (d : Bytes)
  | reserveWritable
  | write (d : Bytes)
  | consume (n : Nat)
  | slicePrefix (n : Nat)
  | readableView
  | readableBytes
  | clear

/-- What an operation answers; a chain by its `size()` and its bytes. -/
inductive BufferAnswer where
  | none
  | count (n : Nat)
  | view (bytes : Bytes)
  | chain (size : Nat) (bytes : Bytes)
  deriving DecidableEq

/-! ## 2. The queue -/

def Queue.step (q : Bytes) : BufferOp → Option (BufferAnswer × Bytes)
  | .append d => some (.none, q ++ d)
  | .reserveWritable => some (.none, q)
  | .write d => some (.none, q ++ d)
  | .consume n => some (.none, q.drop (min n q.length))
  | .slicePrefix n =>
      some (.chain (min n q.length) (q.take (min n q.length)), q.drop (min n q.length))
  | .readableView => some (.view q, q)
  | .readableBytes => some (.count q.length, q)
  | .clear => some (.none, [])

/-- **The byte queue.** -/
def queue : Lib.Object Bytes BufferOp BufferAnswer := ⟨Queue.step⟩

/-! ## 3. The buffer -/

namespace Buffer

def step (b : Buffer) : BufferOp → Option (BufferAnswer × Buffer)
  | .append d => some (.none, b.append d)
  | .reserveWritable => some (.none, b.reserveWritable)
  | .write d => if h : d.length ≤ b.writable then some (.none, b.commit d h) else none
  | .consume n => some (.none, b.consume n)
  | .slicePrefix n => some (.chain (b.slicePrefix n).total (b.slicePrefix n).bytes, b.sliced n)
  | .readableView => some (.view b.readableView, b.viewed)
  | .readableBytes => some (.count b.readableBytes, b)
  | .clear => some (.none, b.clear)

/-- `IoBuffer` over a pool of blocks of one size. -/
def object : Lib.Object Buffer BufferOp BufferAnswer := ⟨step⟩

/-- **One operation**: the answer of the queue, and the content is the queue after it. -/
theorem step_queue {b b' : Buffer} {op : BufferOp} {o : BufferAnswer}
    (h : b.step op = some (o, b')) : Queue.step b.content op = some (o, b'.content) := by
  cases op with
  | append d =>
    cases h
    rw [content_append]
    rfl
  | reserveWritable =>
    cases h
    rw [content_reserveWritable]
    rfl
  | write d =>
    simp only [step] at h
    split at h
    · cases h
      rw [content_commit]
      rfl
    · cases h
  | consume n =>
    cases h
    rw [content_consume, Queue.step, ← List.drop_eq_drop_min]
  | slicePrefix n =>
    cases h
    have htotal : (b.slicePrefix n).total = min n b.content.length := by
      rw [(b.slicePrefix n).total_eq]
      show (b.slicePrefix n).bytes.length = _
      rw [bytes_slicePrefix, List.length_take]
    rw [htotal, bytes_slicePrefix, content_sliced, Queue.step, ← List.take_eq_take_min,
      ← List.drop_eq_drop_min]
  | readableView =>
    cases h
    rw [readableView_eq, content_viewed]
    rfl
  | readableBytes =>
    cases h
    rw [readableBytes_eq]
    rfl
  | clear =>
    cases h
    rfl

/-- **`IoBuffer` refines the byte queue.** Over every sequence of operations from an empty buffer,
    with blocks of any size, the answers are those of the queue: `readableBytes` its length,
    `readableView` its content, `slicePrefix` a chain of its first bytes; the queue is what the
    blocks hold. Every block but the last has unread bytes. -/
theorem buffer_is_queue {blockSize : Nat} (hb : 0 < blockSize) {ops : List BufferOp}
    {answers : List BufferAnswer} {b : Buffer}
    (hrun : object.run (init blockSize hb) ops = some (answers, b)) :
    queue.run [] ops = some (answers, b.content) ∧ b.readableBytes = b.content.length ∧
      b.readableView = b.content ∧ ∀ k ∈ b.io.blocks.dropLast, k.unread ≠ [] := by
  refine ⟨?_, b.readableBytes_eq, b.readableView_eq, b.wf.nonempty⟩
  exact Lib.Object.refines content (fun _ _ _ _ h => step_queue h) hrun

/-- Blocks of two bytes: a view over two blocks, a consume that advances its offset, the view
    again, a chain of more than there is. -/
def twoByteBlocks : List BufferOp :=
  [.append [1, 2, 3], .reserveWritable, .readableView, .consume 1, .readableView, .write [4],
    .readableBytes, .slicePrefix 9, .readableView]

theorem buffer_is_queue_twoByteBlocks :
    ∃ b, object.run (init 2 (by decide)) twoByteBlocks =
        some ([.none, .none, .view [1, 2, 3], .none, .view [2, 3], .none, .count 3,
          .chain 3 [2, 3, 4], .view []], b) ∧
      queue.run [] twoByteBlocks =
        some ([.none, .none, .view [1, 2, 3], .none, .view [2, 3], .none, .count 3,
          .chain 3 [2, 3, 4], .view []], b.content) := by
  have hrun : (object.run (init 2 (by decide)) twoByteBlocks).map Prod.fst =
      some [.none, .none, .view [1, 2, 3], .none, .view [2, 3], .none, .count 3,
        .chain 3 [2, 3, 4], .view []] := by decide +kernel
  obtain ⟨⟨answers, b⟩, hb, rfl⟩ := Option.map_eq_some_iff.mp hrun
  exact ⟨b, hb, (buffer_is_queue (by decide) hb).1⟩

end Buffer

end RedisProxy
