/-
  File:      RedisProxy/Buffer/Store.lean
  Subject:   THE HEAP OF SHARED BLOCKS REFINES A STORE OF BYTE STRINGS.

  A `Store` has the objects of a `Heap` by value: a buffer is the byte queue of
  Buffer/Queue.lean, a slice its bytes, a chain the bytes of its slices. Nothing in it is shared,
  counted or recycled. Through `Heap.contents` every operation on the heap is the same operation
  on the store (`heap_refines_store`): an operation changes the bytes of its operands as said there
  and the bytes of no other object, however their blocks are shared.

  * `Separate` -- no block is in two deques, and the counters are the lengths;
  * `Matches`, `Passes` -- one operation, seen on the store;
  * `pool_peak` -- the pool makes a block only when all are in use.
-/
import RedisProxy.Buffer.Contents
import RedisProxy.Buffer.Heap
import RedisProxy.Buffer.Queue
import Mathlib.Data.List.Induction

namespace RedisProxy.Shared

open BlockPool Lib

/-! ## 1. The store -/

/-- The operations of buffers. -/
def Action.onBuffer : Action → Bool
  | .newBuffer | .reserveWritable _ | .commitWrite _ _ | .append _ _ | .consume _ _
  | .slicePrefix _ _ | .clear _ | .destroyBuffer _ => true
  | _ => false

/-- The objects of a heap by value: queues, the pieces of the chains, and slices. -/
structure Store where
  buffers : List (Option Bytes)
  chains : List (Option (List Bytes))
  slices : List (Option Bytes)
  deriving DecidableEq

namespace Store

/-- Nothing is there. -/
def empty : Store := ⟨[], [], []⟩

/-- The content of buffer `i`, if it is there. -/
def buffer? (st : Store) (i : Nat) : Option Bytes := st.buffers[i]?.join

/-- The pieces of chain `c`, if it is there. -/
def chain? (st : Store) (c : Nat) : Option (List Bytes) := st.chains[c]?.join

/-- The bytes of slice `i`, if it is there. -/
def slice? (st : Store) (i : Nat) : Option Bytes := st.slices[i]?.join

/-- The bytes of the slice an operation copies from, alone or in a chain. -/
def source? (st : Store) : Place → Option Bytes
  | .slice i => st.slice? i
  | .element c k => (st.chain? c).bind (·[k]?)

/-- A buffer after an operation; `none` is a destroyed one. -/
def setBuffer (st : Store) (i : Nat) (q : Option Bytes) : Store :=
  { st with buffers := st.buffers.set i q }

/-- A chain after an operation. -/
def setChain (st : Store) (c : Nat) (l : Option (List Bytes)) : Store :=
  { st with chains := st.chains.set c l }

/-- A slice after an operation. -/
def setSlice (st : Store) (i : Nat) (s : Option Bytes) : Store :=
  { st with slices := st.slices.set i s }

/-- A chain is made, with the next number. -/
def addChain (st : Store) (l : List Bytes) : Store := { st with chains := st.chains ++ [some l] }

/-- A slice is made, with the next number. -/
def addSlice (st : Store) (s : Bytes) : Store := { st with slices := st.slices ++ [some s] }

/-- An operation of queue `i`. -/
def queue (st : Store) (i : Nat) (op : BufferOp) : Option Store :=
  (st.buffer? i).bind fun q => (Queue.step q op).map fun y => st.setBuffer i (some y.2)

/-- One operation on byte strings. Where the bytes of a prefix are cut into slices is left open:
    `pieces` are those of the chain `slicePrefix` returns. -/
def act (pieces : List Bytes) (st : Store) : Action → Option Store
  | .newBuffer => some { st with buffers := st.buffers ++ [some []] }
  | .reserveWritable i => st.queue i .reserveWritable
  | .commitWrite i d => st.queue i (.write d)
  | .append i d => st.queue i (.append d)
  | .consume i n => st.queue i (.consume n)
  | .slicePrefix i n => (st.buffer? i).bind fun q => (Queue.step q (.slicePrefix n)).bind fun y =>
      if y.1 = .chain pieces.flatten.length pieces.flatten then
        some ((st.setBuffer i (some y.2)).addChain pieces)
      else none
  | .clear i => st.queue i .clear
  | .destroyBuffer i => (st.buffer? i).map fun _ => st.setBuffer i none
  | .newSlice => some (st.addSlice [])
  | .copySlice source => (st.source? source).map fun s => st.addSlice s
  | .assignSlice i source => (st.slice? i).bind fun _ => (st.source? source).map fun s =>
      st.setSlice i (some s)
  | .moveSlice i => (st.slice? i).map fun s => (st.setSlice i (some [])).addSlice s
  | .moveAssignSlice i j => (st.slice? i).bind fun _ => (st.slice? j).map fun s =>
      if i = j then st else (st.setSlice i (some s)).setSlice j (some [])
  | .destroySlice i => (st.slice? i).map fun _ => st.setSlice i none
  | .newChain => some (st.addChain [])
  | .copyChain c => (st.chain? c).map fun l => st.addChain l
  | .assignChain c d => (st.chain? c).bind fun _ => (st.chain? d).map fun l =>
      st.setChain c (some l)
  | .moveChain c => (st.chain? c).map fun l => (st.setChain c (some [])).addChain l
  | .moveAssignChain c d => (st.chain? c).bind fun _ => (st.chain? d).map fun l =>
      if c = d then st else (st.setChain c (some l)).setChain d (some [])
  | .appendCopy c source => (st.chain? c).bind fun l => (st.source? source).map fun s =>
      st.setChain c (some (l ++ [s]))
  | .appendMove c i => (st.chain? c).bind fun l => (st.slice? i).map fun s =>
      (st.setChain c (some (l ++ [s]))).setSlice i (some [])
  | .appendChain c d => (st.chain? c).bind fun l => (st.chain? d).bind fun m =>
      if c = d then none else some ((st.setChain c (some (l ++ m))).setChain d (some []))
  | .destroyChain c => (st.chain? c).map fun _ => st.setChain c none

/-- **The store of byte strings.** -/
def machine : Machine Store (List Bytes × Action) := ⟨empty, fun st x => st.act x.1 x.2⟩

end Store

/-! ## 2. What the heap holds -/

namespace Heap

/-- The bytes of the objects, read in the pool `p`. -/
def contentsIn (h : Heap) (p : BlockPool) : Store where
  buffers := h.buffers.map (Option.map (IoBuffer.content p))
  chains := h.chains.map (Option.map (List.map p.view))
  slices := h.slices.map (Option.map p.view)

/-- **What the objects of a heap hold.** -/
def contents (h : Heap) : Store := h.contentsIn h.pool

theorem join_getElem?_map {α β : Type} (f : α → β) (l : List (Option α)) (i : Nat) :
    (l.map (Option.map f))[i]?.join = (l[i]?.join).map f := by
  rw [List.getElem?_map]
  cases l[i]? with
  | none => rfl
  | some x => rfl

section Lookup

variable (h : Heap) (p : BlockPool)

theorem buffer?_contentsIn (i : Nat) :
    (h.contentsIn p).buffer? i = (h.buffer? i).map (IoBuffer.content p) := join_getElem?_map _ _ i

theorem chain?_contentsIn (c : Nat) :
    (h.contentsIn p).chain? c = (h.chain? c).map (List.map p.view) := join_getElem?_map _ _ c

theorem slice?_contentsIn (i : Nat) : (h.contentsIn p).slice? i = (h.slice? i).map p.view :=
  join_getElem?_map _ _ i

/-- A place is read in the store as in the heap. -/
theorem source?_contentsIn (source : Place) :
    (h.contentsIn p).source? source = (h.source? source).map p.view := by
  cases source with
  | slice i => exact slice?_contentsIn h p i
  | element c k =>
    show ((h.contentsIn p).chain? c).bind _ = ((h.chain? c).bind _).map _
    rw [chain?_contentsIn]
    cases h.chain? c with
    | none => rfl
    | some l => exact List.getElem?_map

end Lookup

/-- Chains and slices whose slices show the same in two pools. -/
theorem chains_congr {h : Heap} {p p' : BlockPool} (hv : ∀ s ∈ h.live, p'.view s = p.view s) :
    h.chains.map (Option.map (List.map p'.view)) = h.chains.map (Option.map (List.map p.view)) := by
  refine List.map_congr_left fun y hy => ?_
  cases y with
  | none => rfl
  | some l =>
    refine congrArg some (List.map_congr_left fun s hs => hv s ?_)
    exact List.mem_append_left _ (List.mem_flatMap.mpr ⟨some l, hy, hs⟩)

/-- A pool that shows the same through the slices that are there gives the same store. -/
theorem slices_congr {h : Heap} {p p' : BlockPool} (hv : ∀ s ∈ h.live, p'.view s = p.view s) :
    h.slices.map (Option.map p'.view) = h.slices.map (Option.map p.view) := by
  refine List.map_congr_left fun y hy => ?_
  cases y with
  | none => rfl
  | some s =>
    refine congrArg some (hv s ?_)
    exact List.mem_append_right _ (List.mem_flatMap.mpr ⟨some s, hy, List.mem_singleton.mpr rfl⟩)

/-- The objects after an operation, read in the pool before it. -/
theorem contents_eq {h' : Heap} {p : BlockPool}
    (hb : ∀ b ∈ h'.buffers.flatMap bufferRefs, (h'.pool.block b).body = (p.block b).body)
    (hv : ∀ s ∈ h'.live, h'.pool.view s = p.view s) : h'.contents = h'.contentsIn p := by
  have hbuffers : h'.buffers.map (Option.map (IoBuffer.content h'.pool)) =
      h'.buffers.map (Option.map (IoBuffer.content p)) := by
    refine List.map_congr_left fun y hy => ?_
    cases y with
    | none => rfl
    | some x =>
      refine congrArg some (IoBuffer.content_congr fun b hx => hb b ?_)
      exact List.mem_flatMap.mpr ⟨some x, hy, hx⟩
  rw [contents, contentsIn, contentsIn, hbuffers, chains_congr hv, slices_congr hv]

/-- No block is in two deques, and the counters are the lengths. -/
structure Separate (h : Heap) : Prop where
  apart : ∀ b, (h.buffers.flatMap bufferRefs).count b ≤ 1
  count : ∀ x, some x ∈ h.buffers → x.readableBytes = (x.content h.pool).length

/-- The counter of a buffer agrees with what its blocks hold. -/
theorem Separate.holds {h : Heap} (hsep : h.Separate) {i : Nat} {x : IoBuffer}
    (hx : h.buffer? i = some x) : x.Holds h.pool (x.content h.pool) := by
  have hmem : some x ∈ h.buffers := List.mem_of_getElem? (get_of_buffer? hx)
  refine ⟨rfl, hsep.count x hmem, List.nodup_iff_count_le_one.mpr fun b => ?_⟩
  have hset := count_flatMap_set bufferRefs (get_of_buffer? hx) none b
  have hone := hsep.apart b
  simp only [bufferRefs, List.count_nil] at hset
  omega

/-- A block of another deque. -/
theorem Separate.other {h : Heap} (hsep : h.Separate) {i : Nat} {x : IoBuffer}
    (hx : h.buffer? i = some x) {b : Nat}
    (hb : b ∈ (h.buffers.set i none).flatMap bufferRefs) : b ∉ x.blocks := by
  intro hin
  have hset := count_flatMap_set bufferRefs (get_of_buffer? hx) none b
  have hone := hsep.apart b
  have h1 := List.count_pos_iff.mpr hb
  have h2 := List.count_pos_iff.mpr hin
  simp only [bufferRefs, List.count_nil] at hset
  omega

/-! ## 3. The operations of buffers on the store -/

section Buffers

variable {h : Heap} {i : Nat} {x : IoBuffer} {p' : BlockPool}

/-- What the other buffers hold when the blocks of `x` and new ones changed. -/
theorem buffers_setBuffer (hsep : h.Separate) (hx : h.buffer? i = some x)
    (others : ∀ b, b ∉ x.blocks → 0 < h.refs.count b →
      (p'.block b).body = (h.pool.block b).body) (y : Option IoBuffer) :
    (h.buffers.set i y).map (Option.map (IoBuffer.content p')) =
      h.contents.buffers.set i (y.map (IoBuffer.content p')) := by
  refine List.ext_getElem? fun j => ?_
  rw [List.getElem?_map]
  by_cases hji : j = i
  · subst hji
    have hlt : j < h.buffers.length := (List.getElem?_eq_some_iff.mp (get_of_buffer? hx)).1
    have hlt' : j < h.contents.buffers.length := by
      show j < (h.buffers.map _).length
      rw [List.length_map]
      exact hlt
    rw [List.getElem?_set_self hlt, List.getElem?_set_self hlt', Option.map_some]
  · rw [List.getElem?_set_ne (Ne.symm hji), List.getElem?_set_ne (Ne.symm hji)]
    show _ = (h.buffers.map _)[j]?
    rw [List.getElem?_map]
    cases hj : h.buffers[j]? with
    | none => rfl
    | some z =>
      cases z with
      | none => rfl
      | some z =>
        refine congrArg (some ∘ some) (IoBuffer.content_congr fun b hb => others b ?_ ?_)
        · refine hsep.other hx (List.mem_flatMap.mpr ⟨some z, ?_, hb⟩)
          exact List.mem_of_getElem? ((List.getElem?_set_ne (Ne.symm hji)).trans hj)
        · refine List.count_pos_iff.mpr (List.mem_append_left _ ?_)
          exact List.mem_flatMap.mpr ⟨some z, List.mem_of_getElem? hj, hb⟩

/-- Buffer `i` after an operation is beside the other deques as it was before. -/
theorem Separate.setBuffer (hsep : h.Separate) (hx : h.buffer? i = some x)
    (others : ∀ b, b ∉ x.blocks → 0 < h.refs.count b →
      (p'.block b).body = (h.pool.block b).body) {y : Option IoBuffer}
    (hy : ∀ x', y = some x' → x'.readableBytes = (x'.content p').length ∧ x'.blocks.Nodup ∧
      ∀ b ∈ x'.blocks, b ∈ x.blocks ∨ h.refs.count b = 0) : (h.setBuffer i p' y).Separate where
  apart b := by
    have hone := hsep.apart b
    have hset := count_flatMap_set bufferRefs (get_of_buffer? hx) y b
    show ((h.buffers.set i y).flatMap bufferRefs).count b ≤ 1
    have hle : (h.buffers.flatMap bufferRefs).count b ≤ h.refs.count b := by
      rw [refs, List.count_append]
      exact Nat.le_add_right _ _
    cases y with
    | none =>
      simp only [bufferRefs, List.count_nil] at hset
      omega
    | some x' =>
      obtain ⟨_, hnodup, hown⟩ := hy x' rfl
      simp only [bufferRefs] at hset
      have h1 := List.nodup_iff_count_le_one.mp hnodup b
      by_cases hin : b ∈ x'.blocks
      · rcases hown b hin with hold | hnew
        · have h2 := List.count_pos_iff.mpr hold
          omega
        · omega
      · rw [List.count_eq_zero_of_not_mem hin] at hset
        omega
  count z hz := by
    have hmap := buffers_setBuffer hsep hx others y
    obtain ⟨j, hj⟩ := List.mem_iff_getElem?.mp hz
    have hj' : ((h.buffers.set i y).map (Option.map (IoBuffer.content p')))[j]? =
        some (some (z.content p')) := by
      rw [List.getElem?_map]
      exact congrArg _ hj
    by_cases hji : j = i
    · subst hji
      have hlt : j < h.buffers.length := (List.getElem?_eq_some_iff.mp (get_of_buffer? hx)).1
      have hy' : y = some z := Option.some.inj ((List.getElem?_set_self hlt).symm.trans hj)
      exact (hy z hy').1
    · rw [hmap, List.getElem?_set_ne (Ne.symm hji)] at hj'
      have hold : h.buffers[j]? = some (some z) :=
        (List.getElem?_set_ne (Ne.symm hji)).symm.trans hj
      have hsame : (h.buffers.map (Option.map (IoBuffer.content h.pool)))[j]? =
          some (some (z.content h.pool)) := by
        rw [List.getElem?_map]
        exact congrArg _ hold
      have heq : z.content p' = z.content h.pool :=
        Option.some.inj (Option.some.inj (hj'.symm.trans hsame))
      show z.readableBytes = (z.content p').length
      rw [heq]
      exact hsep.count z (List.mem_of_getElem? hold)

/-- The slices are as they were: what the heap holds after an operation of buffer `i`. -/
theorem contents_setBuffer (hsep : h.Separate) (hx : h.buffer? i = some x)
    (others : ∀ b, b ∉ x.blocks → 0 < h.refs.count b →
      (p'.block b).body = (h.pool.block b).body) {y : Option IoBuffer}
    (hsafe : h.Safe (h.setBuffer i p' y)) :
    (h.setBuffer i p' y).contents =
      h.contents.setBuffer i (y.map (IoBuffer.content p')) := by
  have hview : ∀ s ∈ h.live, p'.view s = h.pool.view s := fun s hs => hsafe.2 s hs hs
  show Store.mk ((h.buffers.set i y).map (Option.map (IoBuffer.content p')))
    (h.chains.map (Option.map (List.map p'.view))) (h.slices.map (Option.map p'.view)) = _
  rw [chains_congr hview, slices_congr hview, buffers_setBuffer hsep hx others]
  rfl

/-- **An operation of a buffer is the operation of its queue.** -/
theorem Separate.turn {q : Bytes} {x' : IoBuffer} (hsep : h.Separate) (hx : h.buffer? i = some x)
    (ht : IoBuffer.Turns h.pool (fun b => h.refs.count b) x q p' x')
    (hsafe : h.Safe (h.setBuffer i p' (some x'))) :
    (h.setBuffer i p' (some x')).Separate ∧
      (h.setBuffer i p' (some x')).contents = h.contents.setBuffer i (some q) := by
  refine ⟨hsep.setBuffer hx ht.others fun z hz => ?_, ?_⟩
  · obtain rfl : x' = z := Option.some.inj hz
    refine ⟨?_, ht.holds.nodup, ht.own⟩
    rw [ht.holds.content]
    exact ht.holds.count
  · rw [contents_setBuffer hsep hx ht.others hsafe, Option.map_some, ht.holds.content]

/-- The references of the heap, seen from one buffer. -/
theorem counted_beside (hs : h.Sound) (hx : h.buffer? i = some x) :
    ∃ c, (fun b => h.refs.count b) = IoBuffer.beside c x.blocks ∧
      h.pool.Counted (IoBuffer.beside c x.blocks) ∧
      ∀ b, IoBuffer.beside c x.blocks b < 2 ^ 32 := by
  have hc : (fun b => h.refs.count b) = _ := funext (beside_none hx h.pool)
  refine ⟨_, hc, hc ▸ hs.counted, fun b => ?_⟩
  rw [← hc]
  exact hs.count_lt b

/-- What the store does to queue `i`, from what the buffer holds. -/
theorem queue_contents (hx : h.buffer? i = some x) {op : BufferOp} {o : BufferAnswer} {q : Bytes}
    (hop : Queue.step (x.content h.pool) op = some (o, q)) :
    h.contents.queue i op = some (h.contents.setBuffer i (some q)) := by
  rw [Store.queue, contents, buffer?_contentsIn, hx, Option.map_some, Option.bind_some, hop]
  rfl

/-- An operation matches the store: what the heap holds after it is what the store has, for some
    cut of the bytes into slices. -/
def Matches (h : Heap) (a : Action) (h' : Heap) : Prop :=
  h'.Separate ∧ ∃ pieces, h.contents.act pieces a = some h'.contents

/-- Objects made and changed in the heap are made and changed in the store. -/
theorem contentsIn_addSlice (h : Heap) (p p' : BlockPool) (s : BufferSlice) :
    (h.addSlice p' s).contentsIn p = (h.contentsIn p).addSlice (p.view s) := by
  simp [contentsIn, addSlice, Store.addSlice]

theorem contentsIn_setSlice (h : Heap) (p p' : BlockPool) (i : Nat) (s : Option BufferSlice) :
    (h.setSlice i p' s).contentsIn p = (h.contentsIn p).setSlice i (s.map p.view) := by
  simp [contentsIn, setSlice, Store.setSlice, List.map_set]

theorem contentsIn_addChain (h : Heap) (p p' : BlockPool) (l : List BufferSlice) :
    (h.addChain p' l).contentsIn p = (h.contentsIn p).addChain (l.map p.view) := by
  simp [contentsIn, addChain, Store.addChain]

theorem contentsIn_setChain (h : Heap) (p p' : BlockPool) (c : Nat)
    (l : Option (List BufferSlice)) :
    (h.setChain c p' l).contentsIn p = (h.contentsIn p).setChain c (l.map (List.map p.view)) := by
  simp [contentsIn, setChain, Store.setChain, List.map_set]

/-- More slices at the end of a chain. -/
theorem contentsIn_extendChain (h : Heap) (p p' : BlockPool) (c : Nat) (l m : List BufferSlice) :
    (h.setChain c p' (some (l ++ m))).contentsIn p =
      (h.contentsIn p).setChain c (some (l.map p.view ++ m.map p.view)) := by
  rw [contentsIn_setChain, Option.map_some, List.map_append]

/-- **`slicePrefix` matches**: the first bytes of the queue are the pieces of the new chain. -/
theorem Separate.slicePrefix {h : Heap} (hs : h.Sound) (hsep : h.Separate) {i n : Nat}
    {x : IoBuffer} (hx : h.buffer? i = some x)
    (hlimit : h.refs.length + ((x.slicePrefix h.pool n).1.flatMap BufferSlice.refs).length < 2 ^ 32)
    (hsafe : h.Safe ((h.setBuffer i (x.slicePrefix h.pool n).2.1
      (some (x.slicePrefix h.pool n).2.2)).addChain (x.slicePrefix h.pool n).2.1
        (x.slicePrefix h.pool n).1)) :
    h.Matches (.slicePrefix i n) ((h.setBuffer i (x.slicePrefix h.pool n).2.1
      (some (x.slicePrefix h.pool n).2.2)).addChain (x.slicePrefix h.pool n).2.1
        (x.slicePrefix h.pool n).1) := by
  obtain ⟨c, hc, hcounted, _⟩ := counted_beside hs hx
  obtain ⟨ht, hbytes⟩ := IoBuffer.turns_slicePrefix (hsep.holds hx) hs.tidy n
    (fun b => h.refs.count b)
  have hnew : ∀ s ∈ (x.slicePrefix h.pool n).1,
      (x.slicePrefix h.pool n).2.1.view s = h.pool.view s := by
    refine fun s hmem => IoBuffer.view_slicePrefix hcounted hs.tidy (fun b => ?_) hmem
    rw [← hc]
    have h1 : h.refs.count b ≤ h.refs.length := List.count_le_length
    have h2 : ((x.slicePrefix h.pool n).1.flatMap BufferSlice.refs).count b ≤
      ((x.slicePrefix h.pool n).1.flatMap BufferSlice.refs).length := List.count_le_length
    dsimp only
    omega
  generalize x.slicePrefix h.pool n = y at ht hbytes hnew hsafe hlimit ⊢
  have hold : ∀ s ∈ h.live, y.2.1.view s = h.pool.view s := by
    refine fun s hmem => hsafe.2 s hmem ?_
    rcases List.mem_append.mp hmem with hmem | hmem
    · refine List.mem_append_left _ ?_
      show s ∈ (h.chains ++ [some y.1]).flatMap _
      rw [List.flatMap_append]
      exact List.mem_append_left _ hmem
    · exact List.mem_append_right _ hmem
  refine ⟨?_, y.1.map h.pool.view, ?_⟩
  · have hsep' : (h.setBuffer i y.2.1 (some y.2.2)).Separate := by
      refine hsep.setBuffer hx ht.others fun z hz => ?_
      obtain rfl : y.2.2 = z := Option.some.inj hz
      refine ⟨?_, ht.holds.nodup, ht.own⟩
      rw [ht.holds.content]
      exact ht.holds.count
    exact ⟨hsep'.apart, hsep'.count⟩
  · have hcontents : ((h.setBuffer i y.2.1 (some y.2.2)).addChain y.2.1 y.1).contents =
        (h.contents.setBuffer i (some ((x.content h.pool).drop
          (min n (x.content h.pool).length)))).addChain (y.1.map h.pool.view) := by
      show Store.mk ((h.buffers.set i (some y.2.2)).map (Option.map (IoBuffer.content y.2.1)))
        ((h.chains ++ [some y.1]).map (Option.map (List.map y.2.1.view)))
        (h.slices.map (Option.map y.2.1.view)) = _
      rw [List.map_append, chains_congr hold, slices_congr hold,
        buffers_setBuffer hsep hx ht.others, Option.map_some, ht.holds.content, List.map_singleton,
        Option.map_some, List.map_congr_left hnew]
      rfl
    have hflat : (y.1.map h.pool.view).flatten =
        (x.content h.pool).take (min n (x.content h.pool).length) := by
      rw [← List.flatMap_def]
      exact hbytes
    rw [hcontents, Store.act, contents, buffer?_contentsIn, hx, Option.map_some, Option.bind_some,
      Queue.step, Option.bind_some, hflat]
    refine if_pos ?_
    rw [List.length_take, Nat.min_assoc, Nat.min_self]

/-- **The operations of buffers match the store.** -/
theorem Separate.buffers {h h' : Heap} (hs : h.Sound) (hsep : h.Separate) {a : Action}
    (hon : a.onBuffer = true) (ha : h.act a = some h') (hsafe : h.Safe h') : h.Matches a h' := by
  cases a with
  | newBuffer =>
    cases ha
    refine ⟨⟨fun b => ?_, fun x hx => ?_⟩, [], ?_⟩
    · show ((h.buffers ++ [some IoBuffer.create]).flatMap bufferRefs).count b ≤ 1
      rw [List.flatMap_append, List.count_append]
      exact hsep.apart b
    · rcases List.mem_append.mp hx with hx | hx
      · exact hsep.count x hx
      · cases Option.some.inj (List.mem_singleton.mp hx)
        rfl
    · simp [Store.act, contents, contentsIn, IoBuffer.content, IoBuffer.create]
  | reserveWritable i =>
    obtain ⟨x, hx, rfl⟩ := Option.map_eq_some_iff.mp ha
    obtain ⟨c, hc, hcounted, _⟩ := counted_beside hs hx
    have ht := IoBuffer.turns_reserve (hsep.holds hx) hcounted hs.tidy
    obtain ⟨hsep', hcontents⟩ := hsep.turn hx (hc ▸ ht) hsafe
    exact ⟨hsep', [], hcontents ▸ queue_contents hx rfl⟩
  | commitWrite i d =>
    obtain ⟨x, hx, ha⟩ := Option.bind_eq_some_iff.mp ha
    by_cases hd : d.length ≤ x.writable h.pool
    · rw [if_pos hd] at ha
      cases ha
      obtain ⟨hsep', hcontents⟩ := hsep.turn hx
        (IoBuffer.turns_commit (hsep.holds hx) hs.tidy hd _) hsafe
      exact ⟨hsep', [], hcontents ▸ queue_contents hx rfl⟩
    · rw [if_neg hd] at ha
      cases ha
  | append i d =>
    obtain ⟨x, hx, ha⟩ := Option.bind_eq_some_iff.mp ha
    obtain ⟨y, hy, rfl⟩ := Option.map_eq_some_iff.mp ha
    obtain ⟨c, hc, hcounted, _⟩ := counted_beside hs hx
    have ht := IoBuffer.turns_appendLoop _ h.pool x d (hsep.holds hx) hcounted hs.tidy hy
    obtain ⟨hsep', hcontents⟩ := hsep.turn hx (hc ▸ ht) hsafe
    exact ⟨hsep', [], hcontents ▸ queue_contents hx rfl⟩
  | consume i n =>
    obtain ⟨x, hx, rfl⟩ := Option.map_eq_some_iff.mp ha
    obtain ⟨hsep', hcontents⟩ := hsep.turn hx
      (IoBuffer.turns_consume (hsep.holds hx) hs.tidy.ordered n _) hsafe
    exact ⟨hsep', [], hcontents ▸ queue_contents hx rfl⟩
  | slicePrefix i n =>
    obtain ⟨x, hx, ha⟩ := Option.bind_eq_some_iff.mp ha
    dsimp only at ha
    split at ha
    · rename_i hlimit
      cases ha
      exact hsep.slicePrefix hs hx hlimit hsafe
    · cases ha
  | clear i =>
    obtain ⟨x, hx, rfl⟩ := Option.map_eq_some_iff.mp ha
    obtain ⟨c, hc, hcounted, hlimit⟩ := counted_beside hs hx
    have ht := IoBuffer.turns_clear hcounted hs.tidy hlimit
    obtain ⟨hsep', hcontents⟩ := hsep.turn hx (hc ▸ ht) hsafe
    exact ⟨hsep', [], hcontents ▸ queue_contents hx rfl⟩
  | destroyBuffer i =>
    obtain ⟨x, hx, rfl⟩ := Option.map_eq_some_iff.mp ha
    obtain ⟨c, hc, hcounted, hlimit⟩ := counted_beside hs hx
    have ht := IoBuffer.turns_clear hcounted hs.tidy hlimit
    have hothers : ∀ b, b ∉ x.blocks → 0 < h.refs.count b →
        ((x.clear h.pool).1.block b).body = (h.pool.block b).body := (hc ▸ ht).others
    refine ⟨hsep.setBuffer hx hothers (fun _ hnone => by cases hnone), [], ?_⟩
    rw [contents_setBuffer hsep hx hothers hsafe, Store.act, contents, buffer?_contentsIn, hx]
    rfl
  | _ => cases hon

end Buffers

/-! ## 4. The operations of slices and chains on the store -/

/-- **An operation of slices and chains**: the deques and their blocks are as they were, the slices
    after it were there before or hold nothing, and the store does the same, read in the pool before
    it. -/
structure Passes (h : Heap) (a : Action) (h' : Heap) : Prop where
  buffers : h'.buffers = h.buffers
  bodies : ∀ b ∈ h.buffers.flatMap bufferRefs, (h'.pool.block b).body = (h.pool.block b).body
  live : ∀ s ∈ h'.live, s ∈ h.live ∨ s.block = none
  store : h.contents.act [] a = some (h'.contentsIn h.pool)

/-- An operation that leaves the blocks in deques alone matches the store. -/
theorem Passes.matches {h h' : Heap} {a : Action} (hp : h.Passes a h') (hsep : h.Separate)
    (hsafe : h.Safe h') : h.Matches a h' := by
  have hview : ∀ s ∈ h'.live, h'.pool.view s = h.pool.view s := by
    intro s hs
    rcases hp.live s hs with hold | hnone
    · exact hsafe.2 s hold hs
    · rw [BlockPool.view, BlockPool.view, hnone]
  have hbodies : ∀ b ∈ h'.buffers.flatMap bufferRefs,
      (h'.pool.block b).body = (h.pool.block b).body := hp.buffers.symm ▸ hp.bodies
  refine ⟨⟨fun b => ?_, fun x hx => ?_⟩, [], ?_⟩
  · rw [hp.buffers]
    exact hsep.apart b
  · have hsame : x.content h'.pool = x.content h.pool := IoBuffer.content_congr fun b hb =>
      hbodies b (List.mem_flatMap.mpr ⟨some x, hx, hb⟩)
    rw [hsame]
    exact hsep.count x (hp.buffers ▸ hx)
  · rw [hp.store, contents_eq hbodies hview]

/-- A slice holds its block beside the deques. -/
theorem beside_deques_slice {h : Heap} {i : Nat} {s : BufferSlice} (hs : h.slice? i = some s) :
    (∀ b, s.refs.count b ≤ h.refs.count b) ∧
      ∀ b ∈ h.buffers.flatMap bufferRefs, s.refs.count b < h.refs.count b := by
  have hset := refs_setSlice (get_of_slice? hs) h.pool none
  simp only [sliceRefs, List.count_nil] at hset
  refine ⟨fun b => ?_, fun b hb => ?_⟩
  · have := hset b
    omega
  · have hpos : 0 < (h.setSlice i h.pool none).refs.count b :=
      List.count_pos_iff.mpr (List.mem_append_left _ hb)
    have := hset b
    omega

/-- A block that is in a deque is held beside the slices of any chain. -/
theorem beside_deques_chain {h : Heap} {c : Nat} {l : List BufferSlice} (hl : h.chain? c = some l) :
    (∀ b, (l.flatMap BufferSlice.refs).count b ≤ h.refs.count b) ∧
      ∀ b ∈ h.buffers.flatMap bufferRefs,
        (l.flatMap BufferSlice.refs).count b < h.refs.count b := by
  have hset := refs_setChain (get_of_chain? hl) h.pool none
  simp only [chainRefs, List.count_nil] at hset
  refine ⟨fun b => ?_, fun b hb => ?_⟩
  · have := hset b
    omega
  · have hpos : 0 < (h.setChain c h.pool none).refs.count b :=
      List.count_pos_iff.mpr (List.mem_append_left _ hb)
    have := hset b
    omega

/-- So releasing those slices does not touch it. -/
theorem Sound.released {h : Heap} (hs : h.Sound) {old : List Nat}
    (hold : (∀ b, old.count b ≤ h.refs.count b) ∧
      ∀ b ∈ h.buffers.flatMap bufferRefs, old.count b < h.refs.count b) :
    ∀ b ∈ h.buffers.flatMap bufferRefs,
      ((h.pool.releaseAll old).block b).body = (h.pool.block b).body := fun b hb =>
  body_releaseAll hs.counted hs.tidy hold.1 hs.count_lt (hold.2 b hb)

/-- Setting what is there. -/
theorem set_of_getElem? {α : Type} {l : List α} {i : Nat} {y : α} (h : l[i]? = some y) :
    l.set i y = l := by
  obtain ⟨hlt, rfl⟩ := List.getElem?_eq_some_iff.mp h
  exact List.set_getElem_self hlt

section Passes

variable {h h' : Heap}

/-- An empty slice. -/
theorem passes_newSlice (ha : h.act .newSlice = some h') : h.Passes .newSlice h' := by
  cases ha
  refine ⟨rfl, fun _ _ => rfl, fun t ht => ?_, ?_⟩
  · rcases live_addSlice ht with ht | rfl
    · exact Or.inl ht
    · exact Or.inr rfl
  · rw [contentsIn_addSlice]
    rfl

/-- A copy of a slice sees what the slice sees, and holds its block once more. -/
theorem passes_copySlice {source : Place} (ha : h.act (.copySlice source) = some h') :
    h.Passes (.copySlice source) h' := by
  obtain ⟨s, hsrc, rfl⟩ := Option.map_eq_some_iff.mp ha
  refine ⟨rfl, fun b _ => body_retainAll _ _ b, fun t ht => ?_, ?_⟩
  · rcases live_addSlice ht with ht | rfl
    · exact Or.inl ht
    · exact Or.inl (mem_live_of_source hsrc)
  · rw [contentsIn_addSlice, Store.act, contents, source?_contentsIn, hsrc]
    rfl

/-- Assigned by a copy, possibly from itself: the old view is given up, then the new one held. -/
theorem passes_assignSlice (hs : h.Sound) {i : Nat} {source : Place}
    (ha : h.act (.assignSlice i source) = some h') : h.Passes (.assignSlice i source) h' := by
  obtain ⟨old, hold, ha⟩ := Option.bind_eq_some_iff.mp ha
  obtain ⟨s, hsrc, rfl⟩ := Option.map_eq_some_iff.mp ha
  have hstore : h.contents.act [] (.assignSlice i source) =
      some (h.contents.setSlice i (some (h.pool.view s))) := by
    rw [Store.act, contents, slice?_contentsIn, hold, source?_contentsIn, hsrc]
    rfl
  by_cases hself : source = .slice i
  · -- the slice assigned to itself
    subst hself
    obtain rfl : s = old := Option.some.inj (hsrc.symm.trans hold)
    rw [if_pos rfl]
    refine ⟨rfl, fun _ _ => rfl, fun _ => Or.inl, hstore.trans ?_⟩
    have hget : h.contents.slices[i]? = some (some (h.pool.view s)) := by
      show (h.slices.map _)[i]? = _
      rw [List.getElem?_map, get_of_slice? hold]
      rfl
    rw [Store.setSlice, set_of_getElem? hget]
    rfl
  · rw [if_neg hself]
    refine ⟨rfl, fun b hb => ?_, fun t ht => ?_, ?_⟩
    · exact (body_retainAll _ _ b).trans (hs.released (beside_deques_slice hold) b hb)
    · rcases live_setSlice ht with ht | ht
      · exact Or.inl ht
      · cases ht
        exact Or.inl (mem_live_of_source hsrc)
    · rw [hstore, contentsIn_setSlice]
      rfl

/-- A moved slice takes the view along and leaves an empty one. -/
theorem passes_moveSlice {i : Nat} (ha : h.act (.moveSlice i) = some h') :
    h.Passes (.moveSlice i) h' := by
  obtain ⟨s, hi, rfl⟩ := Option.map_eq_some_iff.mp ha
  refine ⟨rfl, fun _ _ => rfl, fun t ht => ?_, ?_⟩
  · rcases live_addSlice ht with ht | rfl
    · rcases live_setSlice ht with ht | ht
      · exact Or.inl ht
      · cases ht
        exact Or.inr rfl
    · exact Or.inl (mem_live_of_slice hi)
  · rw [contentsIn_addSlice, contentsIn_setSlice, Store.act, contents, slice?_contentsIn, hi]
    rfl

/-- Assigned by a move: the old view is given up, the source is left empty. -/
theorem passes_moveAssignSlice (hs : h.Sound) {i j : Nat}
    (ha : h.act (.moveAssignSlice i j) = some h') : h.Passes (.moveAssignSlice i j) h' := by
  obtain ⟨old, hold, ha⟩ := Option.bind_eq_some_iff.mp ha
  obtain ⟨s, hj, rfl⟩ := Option.map_eq_some_iff.mp ha
  by_cases hself : i = j
  · rw [if_pos hself]
    refine ⟨rfl, fun _ _ => rfl, fun _ => Or.inl, ?_⟩
    rw [Store.act, contents, slice?_contentsIn, hold, slice?_contentsIn, hj]
    exact congrArg some (if_pos hself)
  · rw [if_neg hself]
    refine ⟨rfl, hs.released (beside_deques_slice hold), fun t ht => ?_, ?_⟩
    · rcases live_setSlice ht with ht | ht
      · rcases live_setSlice ht with ht | ht
        · exact Or.inl ht
        · cases ht
          exact Or.inl (mem_live_of_slice hj)
      · cases ht
        exact Or.inr rfl
    · rw [contentsIn_setSlice, contentsIn_setSlice, Store.act, contents, slice?_contentsIn, hold,
        slice?_contentsIn, hj]
      exact congrArg some (if_neg hself)

/-- A slice goes, and with it its hold on the block. -/
theorem passes_destroySlice (hs : h.Sound) {i : Nat} (ha : h.act (.destroySlice i) = some h') :
    h.Passes (.destroySlice i) h' := by
  obtain ⟨s, hi, rfl⟩ := Option.map_eq_some_iff.mp ha
  refine ⟨rfl, hs.released (beside_deques_slice hi), fun t ht => ?_, ?_⟩
  · rcases live_setSlice ht with ht | ht
    · exact Or.inl ht
    · cases ht
  · rw [contentsIn_setSlice, Store.act, contents, slice?_contentsIn, hi]
    rfl

/-- An empty chain. -/
theorem passes_newChain (ha : h.act .newChain = some h') : h.Passes .newChain h' := by
  cases ha
  refine ⟨rfl, fun _ _ => rfl, fun t ht => ?_, ?_⟩
  · rcases live_addChain ht with ht | ht
    · exact Or.inl ht
    · cases ht
  · rw [contentsIn_addChain]
    rfl

/-- A copy of a chain copies its slices. -/
theorem passes_copyChain {c : Nat} (ha : h.act (.copyChain c) = some h') :
    h.Passes (.copyChain c) h' := by
  obtain ⟨l, hl, rfl⟩ := Option.map_eq_some_iff.mp ha
  refine ⟨rfl, fun b _ => body_retainAll _ _ b, fun t ht => ?_, ?_⟩
  · rcases live_addChain ht with ht | ht
    · exact Or.inl ht
    · exact Or.inl (mem_live_of_chain hl ht)
  · rw [contentsIn_addChain, Store.act, contents, chain?_contentsIn, hl]
    rfl

/-- The same for the slices of a chain. -/
theorem passes_assignChain (hs : h.Sound) {c d : Nat}
    (ha : h.act (.assignChain c d) = some h') : h.Passes (.assignChain c d) h' := by
  obtain ⟨old, hold, ha⟩ := Option.bind_eq_some_iff.mp ha
  obtain ⟨l, hl, rfl⟩ := Option.map_eq_some_iff.mp ha
  have hstore : h.contents.act [] (.assignChain c d) =
      some (h.contents.setChain c (some (l.map h.pool.view))) := by
    rw [Store.act, contents, chain?_contentsIn, hold, chain?_contentsIn, hl]
    rfl
  by_cases hself : c = d
  · subst hself
    obtain rfl : l = old := Option.some.inj (hl.symm.trans hold)
    rw [if_pos rfl]
    refine ⟨rfl, fun _ _ => rfl, fun _ => Or.inl, hstore.trans ?_⟩
    have hget : h.contents.chains[c]? = some (some (l.map h.pool.view)) := by
      show (h.chains.map _)[c]? = _
      rw [List.getElem?_map, get_of_chain? hl]
      rfl
    rw [Store.setChain, set_of_getElem? hget]
    rfl
  · rw [if_neg hself]
    refine ⟨rfl, fun b hb => ?_, fun t ht => ?_, ?_⟩
    · exact (body_retainAll _ _ b).trans (hs.released (beside_deques_chain hold) b hb)
    · rcases live_setChain ht with ht | ht
      · exact Or.inl ht
      · exact Or.inl (mem_live_of_chain hl ht)
    · rw [hstore, contentsIn_setChain]
      rfl

/-- A moved chain takes its slices along. -/
theorem passes_moveChain {c : Nat} (ha : h.act (.moveChain c) = some h') :
    h.Passes (.moveChain c) h' := by
  obtain ⟨l, hl, rfl⟩ := Option.map_eq_some_iff.mp ha
  refine ⟨rfl, fun _ _ => rfl, fun t ht => ?_, ?_⟩
  · rcases live_addChain ht with ht | ht
    · rcases live_setChain ht with ht | ht
      · exact Or.inl ht
      · cases ht
    · exact Or.inl (mem_live_of_chain hl ht)
  · rw [contentsIn_addChain, contentsIn_setChain, Store.act, contents, chain?_contentsIn, hl]
    rfl

/-- Assigned by a move: the old slices are given up, the source is left empty. -/
theorem passes_moveAssignChain (hs : h.Sound) {c d : Nat}
    (ha : h.act (.moveAssignChain c d) = some h') : h.Passes (.moveAssignChain c d) h' := by
  obtain ⟨old, hold, ha⟩ := Option.bind_eq_some_iff.mp ha
  obtain ⟨l, hl, rfl⟩ := Option.map_eq_some_iff.mp ha
  by_cases hself : c = d
  · rw [if_pos hself]
    refine ⟨rfl, fun _ _ => rfl, fun _ => Or.inl, ?_⟩
    rw [Store.act, contents, chain?_contentsIn, hold, chain?_contentsIn, hl]
    exact congrArg some (if_pos hself)
  · rw [if_neg hself]
    refine ⟨rfl, hs.released (beside_deques_chain hold), fun t ht => ?_, ?_⟩
    · rcases live_setChain ht with ht | ht
      · rcases live_setChain ht with ht | ht
        · exact Or.inl ht
        · exact Or.inl (mem_live_of_chain hl ht)
      · cases ht
    · rw [contentsIn_setChain, contentsIn_setChain, Store.act, contents, chain?_contentsIn, hold,
        chain?_contentsIn, hl]
      exact congrArg some (if_neg hself)

/-- A copy of a slice at the end of a chain. -/
theorem passes_appendCopy {c : Nat} {source : Place} (ha : h.act (.appendCopy c source) = some h') :
    h.Passes (.appendCopy c source) h' := by
  obtain ⟨l, hl, ha⟩ := Option.bind_eq_some_iff.mp ha
  obtain ⟨s, hsrc, rfl⟩ := Option.map_eq_some_iff.mp ha
  refine ⟨rfl, fun b _ => body_retainAll _ _ b, fun t ht => ?_, ?_⟩
  · rcases live_setChain ht with ht | ht
    · exact Or.inl ht
    · rcases List.mem_append.mp ht with ht | ht
      · exact Or.inl (mem_live_of_chain hl ht)
      · rw [List.mem_singleton.mp ht]
        exact Or.inl (mem_live_of_source hsrc)
  · rw [contentsIn_extendChain, Store.act, contents, chain?_contentsIn, hl, source?_contentsIn,
      hsrc]
    rfl

/-- A slice moved to the end of a chain. -/
theorem passes_appendMove {c i : Nat} (ha : h.act (.appendMove c i) = some h') :
    h.Passes (.appendMove c i) h' := by
  obtain ⟨l, hl, ha⟩ := Option.bind_eq_some_iff.mp ha
  obtain ⟨s, hi, rfl⟩ := Option.map_eq_some_iff.mp ha
  refine ⟨rfl, fun _ _ => rfl, fun t ht => ?_, ?_⟩
  · rcases live_setSlice ht with ht | ht
    · rcases live_setChain ht with ht | ht
      · exact Or.inl ht
      · rcases List.mem_append.mp ht with ht | ht
        · exact Or.inl (mem_live_of_chain hl ht)
        · rw [List.mem_singleton.mp ht]
          exact Or.inl (mem_live_of_slice hi)
    · cases ht
      exact Or.inr rfl
  · rw [contentsIn_setSlice, contentsIn_extendChain, Store.act, contents, chain?_contentsIn, hl,
      slice?_contentsIn, hi]
    rfl

/-- A chain moved to the end of another one. -/
theorem passes_appendChain {c d : Nat} (ha : h.act (.appendChain c d) = some h') :
    h.Passes (.appendChain c d) h' := by
  obtain ⟨l, hl, ha⟩ := Option.bind_eq_some_iff.mp ha
  obtain ⟨m, hm, ha⟩ := Option.bind_eq_some_iff.mp ha
  by_cases hself : c = d
  · rw [if_pos hself] at ha
    cases ha
  · rw [if_neg hself] at ha
    cases ha
    refine ⟨rfl, fun _ _ => rfl, fun t ht => ?_, ?_⟩
    · rcases live_setChain ht with ht | ht
      · rcases live_setChain ht with ht | ht
        · exact Or.inl ht
        · rcases List.mem_append.mp ht with ht | ht
          · exact Or.inl (mem_live_of_chain hl ht)
          · exact Or.inl (mem_live_of_chain hm ht)
      · cases ht
    · rw [contentsIn_setChain, contentsIn_extendChain, Store.act, contents, chain?_contentsIn, hl,
        chain?_contentsIn, hm]
      exact if_neg hself

/-- A chain goes, and with it its slices. -/
theorem passes_destroyChain (hs : h.Sound) {c : Nat} (ha : h.act (.destroyChain c) = some h') :
    h.Passes (.destroyChain c) h' := by
  obtain ⟨l, hl, rfl⟩ := Option.map_eq_some_iff.mp ha
  refine ⟨rfl, hs.released (beside_deques_chain hl), fun t ht => ?_, ?_⟩
  · rcases live_setChain ht with ht | ht
    · exact Or.inl ht
    · cases ht
  · rw [contentsIn_setChain, Store.act, contents, chain?_contentsIn, hl]
    rfl

/-- **The operations of slices and chains pass.** -/
theorem Sound.passes (hs : h.Sound) {a : Action} (hon : a.onBuffer = false)
    (ha : h.act a = some h') : h.Passes a h' := by
  cases a with
  | newSlice => exact passes_newSlice ha
  | copySlice source => exact passes_copySlice ha
  | assignSlice i source => exact passes_assignSlice hs ha
  | moveSlice i => exact passes_moveSlice ha
  | moveAssignSlice i j => exact passes_moveAssignSlice hs ha
  | destroySlice i => exact passes_destroySlice hs ha
  | newChain => exact passes_newChain ha
  | copyChain c => exact passes_copyChain ha
  | assignChain c d => exact passes_assignChain hs ha
  | moveChain c => exact passes_moveChain ha
  | moveAssignChain c d => exact passes_moveAssignChain hs ha
  | appendCopy c source => exact passes_appendCopy ha
  | appendMove c i => exact passes_appendMove ha
  | appendChain c d => exact passes_appendChain ha
  | destroyChain c => exact passes_destroyChain hs ha
  | _ => cases hon

end Passes

/-- **Every operation matches the store.** -/
theorem Sound.matches {h h' : Heap} (hs : h.Sound) (hsep : h.Separate) {a : Action}
    (hstep : h.step a = some h') : h.Matches a h' := by
  obtain ⟨ha, hsmall⟩ := Option.filter_eq_some_iff.mp hstep
  have hsafe := hs.act ha (of_decide_eq_true hsmall)
  cases hon : a.onBuffer with
  | true => exact hsep.buffers hs hon ha hsafe
  | false => exact (hs.passes hon ha).matches hsep hsafe

theorem init_separate (blockSize : Nat) : (init blockSize).Separate where
  apart _ := Nat.zero_le 1
  count x hx := by cases hx

theorem separate_reachable {blockSize : Nat} {h : Heap} (hr : (machine blockSize).Reachable h) :
    h.Separate :=
  hr.invariant (init_separate blockSize) fun _ _ _ hreach hsep hstep =>
    ((sound_reachable hreach).matches hsep hstep).1

/-! ## 5. How many blocks there are -/

/-- Blocks were taken and none given back: one was made only when none was free. -/
structure Grows (p p' : BlockPool) : Prop where
  size : p'.blockSize = p.blockSize
  made : p'.allocated = p.allocated ∨ p'.free = []
  used : p.free = [] → p'.free = []

theorem Grows.refl (p : BlockPool) : Grows p p := ⟨rfl, Or.inl rfl, id⟩

/-- Stretches of operations compose. -/
theorem Grows.trans {p p' p'' : BlockPool} (h : Grows p p') (h' : Grows p' p'') : Grows p p'' := by
  refine ⟨h'.size.trans h.size, ?_, fun hf => h'.used (h.used hf)⟩
  rcases h'.made with hsame | hnone
  · exact h.made.imp (fun hsame' => hsame.trans hsame') h'.used
  · exact Or.inr hnone

/-- A block is made only when none is free. -/
theorem grows_reserve (p : BlockPool) (x : IoBuffer) : Grows p (x.reserveWritable p).1 := by
  unfold IoBuffer.reserveWritable
  split
  · unfold acquire
    split
    · rename_i hnone
      have hfree : p.free = [] := List.getLast?_eq_none_iff.mp hnone
      exact ⟨rfl, Or.inr hfree, fun _ => hfree⟩
    · rename_i b hlast
      refine ⟨rfl, Or.inl rfl, fun hfree => ?_⟩
      rw [hfree] at hlast
      cases hlast
  · exact .refl p

theorem grows_commit (p : BlockPool) (x : IoBuffer) (d : Bytes) :
    Grows p (x.commitWrite p d).1 := by
  unfold IoBuffer.commitWrite
  split
  · exact .refl p
  · exact ⟨rfl, Or.inl rfl, id⟩

theorem grows_appendLoop (fuel : Nat) (p : BlockPool) (x : IoBuffer) (d : Bytes)
    {y : BlockPool × IoBuffer} (hy : IoBuffer.appendLoop fuel p x d = some y) : Grows p y.1 := by
  induction fuel generalizing p x d with
  | zero =>
    cases d with
    | nil =>
      cases hy
      exact .refl p
    | cons d ds => cases hy
  | succ fuel ih =>
    cases d with
    | nil =>
      cases hy
      exact .refl p
    | cons d ds =>
      simp only [IoBuffer.appendLoop] at hy
      exact ((grows_reserve p x).trans (grows_commit _ _ _)).trans (ih _ _ _ hy)

/-- What was made of blocks, and of which size. -/
def stock (p : BlockPool) := (p.blockSize, p.allocated)

/-- A release puts a block back and makes none. -/
theorem stock_release (p : BlockPool) (b : Nat) : stock (p.release b) = stock p := by
  simp only [BlockPool.release]
  split <;> rfl

theorem stock_retainAll (p : BlockPool) (l : List Nat) : stock (p.retainAll l) = stock p := by
  induction l generalizing p with
  | nil => rfl
  | cons b l ih =>
    rw [retainAll_cons, ih]
    rfl

theorem stock_releaseAll (p : BlockPool) (l : List Nat) : stock (p.releaseAll l) = stock p := by
  induction l generalizing p with
  | nil => rfl
  | cons b l ih => rw [releaseAll_cons, ih, stock_release]

theorem stock_consumeLoop (p : BlockPool) (l : List Nat) (n : Nat) :
    stock (IoBuffer.consumeLoop p l n).1 = stock p := by
  fun_induction IoBuffer.consumeLoop p l n with
  | case1 p n => rfl
  | case2 p b bs => rfl
  | case3 p b bs n take p' hsize ih => rw [ih, stock_release]; rfl
  | case4 p b bs n take p' hsize => rfl

theorem stock_slicePrefix (p : BlockPool) (x : IoBuffer) (n : Nat) :
    stock (x.slicePrefix p n).2.1 = stock p := by
  unfold IoBuffer.slicePrefix
  split
  · rfl
  · exact (stock_consumeLoop _ _ _).trans (stock_retainAll _ _)

/-- What an operation does to the pool. -/
theorem stock_act {h h' : Heap} {a : Action} (ha : h.act a = some h') :
    stock h'.pool = stock h.pool ∨ Grows h.pool h'.pool := by
  cases a with
  | newBuffer => cases ha; exact Or.inl rfl
  | reserveWritable i =>
    obtain ⟨x, _, rfl⟩ := Option.map_eq_some_iff.mp ha
    exact Or.inr (grows_reserve h.pool x)
  | commitWrite i d =>
    obtain ⟨x, _, ha⟩ := Option.bind_eq_some_iff.mp ha
    split at ha
    · cases ha
      exact Or.inr (grows_commit h.pool x d)
    · cases ha
  | append i d =>
    obtain ⟨x, _, ha⟩ := Option.bind_eq_some_iff.mp ha
    obtain ⟨y, hy, rfl⟩ := Option.map_eq_some_iff.mp ha
    exact Or.inr (grows_appendLoop _ h.pool x d hy)
  | consume i n =>
    obtain ⟨x, _, rfl⟩ := Option.map_eq_some_iff.mp ha
    exact Or.inl (stock_consumeLoop _ _ _)
  | slicePrefix i n =>
    obtain ⟨x, _, ha⟩ := Option.bind_eq_some_iff.mp ha
    dsimp only at ha
    split at ha
    · cases ha
      exact Or.inl (stock_slicePrefix _ _ _)
    · cases ha
  | clear i =>
    obtain ⟨x, _, rfl⟩ := Option.map_eq_some_iff.mp ha
    exact Or.inl (stock_releaseAll _ _)
  | destroyBuffer i =>
    obtain ⟨x, _, rfl⟩ := Option.map_eq_some_iff.mp ha
    exact Or.inl (stock_releaseAll _ _)
  | newSlice => cases ha; exact Or.inl rfl
  | copySlice source =>
    obtain ⟨s, _, rfl⟩ := Option.map_eq_some_iff.mp ha
    exact Or.inl (stock_retainAll _ _)
  | assignSlice i source =>
    obtain ⟨old, _, ha⟩ := Option.bind_eq_some_iff.mp ha
    obtain ⟨s, _, rfl⟩ := Option.map_eq_some_iff.mp ha
    split
    · exact Or.inl rfl
    · exact Or.inl ((stock_retainAll _ _).trans (stock_releaseAll _ _))
  | moveSlice i =>
    obtain ⟨s, _, rfl⟩ := Option.map_eq_some_iff.mp ha
    exact Or.inl rfl
  | moveAssignSlice i j =>
    obtain ⟨old, _, ha⟩ := Option.bind_eq_some_iff.mp ha
    obtain ⟨s, _, rfl⟩ := Option.map_eq_some_iff.mp ha
    split
    · exact Or.inl rfl
    · exact Or.inl (stock_releaseAll _ _)
  | destroySlice i =>
    obtain ⟨s, _, rfl⟩ := Option.map_eq_some_iff.mp ha
    exact Or.inl (stock_releaseAll _ _)
  | newChain => cases ha; exact Or.inl rfl
  | copyChain c =>
    obtain ⟨l, _, rfl⟩ := Option.map_eq_some_iff.mp ha
    exact Or.inl (stock_retainAll _ _)
  | assignChain c d =>
    obtain ⟨old, _, ha⟩ := Option.bind_eq_some_iff.mp ha
    obtain ⟨l, _, rfl⟩ := Option.map_eq_some_iff.mp ha
    split
    · exact Or.inl rfl
    · exact Or.inl ((stock_retainAll _ _).trans (stock_releaseAll _ _))
  | moveChain c =>
    obtain ⟨l, _, rfl⟩ := Option.map_eq_some_iff.mp ha
    exact Or.inl rfl
  | moveAssignChain c d =>
    obtain ⟨old, _, ha⟩ := Option.bind_eq_some_iff.mp ha
    obtain ⟨l, _, rfl⟩ := Option.map_eq_some_iff.mp ha
    split
    · exact Or.inl rfl
    · exact Or.inl (stock_releaseAll _ _)
  | appendCopy c source =>
    obtain ⟨l, _, ha⟩ := Option.bind_eq_some_iff.mp ha
    obtain ⟨s, _, rfl⟩ := Option.map_eq_some_iff.mp ha
    exact Or.inl (stock_retainAll _ _)
  | appendMove c i =>
    obtain ⟨l, _, ha⟩ := Option.bind_eq_some_iff.mp ha
    obtain ⟨s, _, rfl⟩ := Option.map_eq_some_iff.mp ha
    exact Or.inl rfl
  | appendChain c d =>
    obtain ⟨l, _, ha⟩ := Option.bind_eq_some_iff.mp ha
    obtain ⟨m, _, ha⟩ := Option.bind_eq_some_iff.mp ha
    split at ha
    · cases ha
    · cases ha
      exact Or.inl rfl
  | destroyChain c =>
    obtain ⟨l, _, rfl⟩ := Option.map_eq_some_iff.mp ha
    exact Or.inl (stock_releaseAll _ _)

theorem blockSize_reachable {blockSize : Nat} {h : Heap} (hr : (machine blockSize).Reachable h) :
    h.pool.blockSize = blockSize := by
  refine hr.invariant (I := fun h => h.pool.blockSize = blockSize) rfl
    fun g a g' _ hsize hstep => ?_
  obtain ⟨ha, _⟩ := Option.filter_eq_some_iff.mp hstep
  rcases stock_act ha with hsame | hgrows
  · exact (congrArg Prod.fst hsame).trans hsize
  · exact hgrows.size.trans hsize

/-! ## 6. The results -/

/-- **The heap refines the store.** Every run of operations on buffers, slices and chains over
    shared and recycled blocks is the same run on byte strings, for some cut of each prefix into
    slices; the objects hold at its end what the store has. No block is in two deques, the counter
    of a buffer is the length of its content, and `append` returns. -/
theorem heap_refines_store {blockSize : Nat} (hb : 0 < blockSize) {as : List Action} {h : Heap}
    (hrun : (machine blockSize).run (init blockSize) as = some h) :
    (∃ bs, bs.map Prod.snd = as ∧ Store.machine.run .empty bs = some h.contents) ∧
    (h.buffers.flatMap bufferRefs).Nodup ∧
    ∀ i x, h.buffer? i = some x →
      x.readableBytes = (x.content h.pool).length ∧
        ∀ d, (x.append h.pool d).isSome = true := by
  have hr := Machine.reachable_of_run hrun
  have hs := sound_reachable hr
  have hsep := separate_reachable hr
  refine ⟨?_, List.nodup_iff_count_le_one.mpr hsep.apart, fun i x hx => ⟨?_, fun d => ?_⟩⟩
  · refine Machine.Reachable.start.simulates (N := Store.machine) contents Prod.snd
      (fun g a g' hreach hstep => ?_) hrun
    obtain ⟨_, pieces, hact⟩ := (sound_reachable hreach).matches (separate_reachable hreach) hstep
    exact ⟨(pieces, a), rfl, hact⟩
  · exact hsep.count x (List.mem_of_getElem? (get_of_buffer? hx))
  · obtain ⟨c, _, hcounted, _⟩ := counted_beside hs hx
    refine IoBuffer.appendLoop_isSome d.length h.pool x d hcounted hs.tidy ?_ (Nat.le_refl _)
    rw [blockSize_reachable hr]
    exact hb

/-- Blocks of two bytes: a prefix of the first buffer is sliced inside a block it goes on to write
    to, the second buffer is written, the first consumes what it has and its block is taken by the
    second while the slice stays. -/
def sharedBlocks : List Action :=
  [.newBuffer, .append 0 [1, 2, 3], .newBuffer, .slicePrefix 0 1, .append 0 [4], .append 1 [7, 8],
    .copySlice (.element 0 0), .consume 0 3, .append 1 [9], .destroyChain 0]

theorem heap_refines_store_sharedBlocks :
    ∃ h bs, (machine 2).run (init 2) sharedBlocks = some h ∧ bs.map Prod.snd = sharedBlocks ∧
      Store.machine.run .empty bs = some ⟨[some [], some [7, 8, 9]], [none], [some [1]]⟩ := by
  have hdecide : ((machine 2).run (init 2) sharedBlocks).map contents =
      some ⟨[some [], some [7, 8, 9]], [none], [some [1]]⟩ := by decide +kernel
  obtain ⟨h, hrun, hval⟩ := Option.map_eq_some_iff.mp hdecide
  obtain ⟨⟨bs, hbs, hstore⟩, _⟩ := heap_refines_store (by decide) hrun
  exact ⟨h, bs, hrun, hbs, hval ▸ hstore⟩

/-- **The pool has as many blocks as were once in use together.** Over any run there is a moment
    after which no block was made and at which every block the pool has was held. -/
theorem pool_peak {blockSize : Nat} {as : List Action} {h : Heap}
    (hrun : (machine blockSize).run (init blockSize) as = some h) :
    ∃ as₁ as₂ g, as = as₁ ++ as₂ ∧ (machine blockSize).run (init blockSize) as₁ = some g ∧
      g.pool.allocated = h.pool.allocated ∧
      ∀ b, b < h.pool.allocated → 0 < g.refs.count b := by
  induction as using List.reverseRecOn generalizing h with
  | nil =>
    cases hrun
    exact ⟨[], [], init blockSize, rfl, rfl, rfl, fun b hb => absurd hb (Nat.not_lt_zero b)⟩
  | append_singleton as a ih =>
    obtain ⟨g₀, hrun₀, hlast⟩ := Machine.run_append.mp hrun
    obtain ⟨h', hstep, hnil⟩ := Machine.run_cons.mp hlast
    cases hnil
    have hstep' : g₀.step a = some h := hstep
    obtain ⟨ha, _⟩ := Option.filter_eq_some_iff.mp hstep'
    have hmade : h.pool.allocated = g₀.pool.allocated ∨ h.pool.free = [] := by
      rcases stock_act ha with hsame | hgrows
      · exact Or.inl (congrArg Prod.snd hsame)
      · exact hgrows.made
    rcases hmade with hsame | hnone
    · -- none was made: the moment is the one before
      obtain ⟨as₁, as₂, g, rfl, hrun₁, halloc, hheld⟩ := ih hrun₀
      refine ⟨as₁, as₂ ++ [a], g, List.append_assoc _ _ _, hrun₁, halloc.trans hsame.symm, ?_⟩
      rw [hsame]
      exact hheld
    · -- none is free: the moment is now
      refine ⟨as ++ [a], [], h, (List.append_nil _).symm, hrun, rfl, fun b hb => ?_⟩
      have hc := (sound_reachable (Machine.reachable_of_run hrun)).counted
      refine Nat.pos_of_ne_zero fun hzero => ?_
      have hfree := (hc.free b).mpr ⟨hb, hzero⟩
      rw [hnone] at hfree
      cases hfree

theorem pool_peak_sharedBlocks :
    ∃ h as₁ as₂ g, (machine 2).run (init 2) sharedBlocks = some h ∧ h.pool.allocated = 3 ∧
      sharedBlocks = as₁ ++ as₂ ∧ (machine 2).run (init 2) as₁ = some g ∧
      ∀ b, b < 3 → 0 < g.refs.count b := by
  have hdecide : ((machine 2).run (init 2) sharedBlocks).map (·.pool.allocated) = some 3 := by
    decide +kernel
  obtain ⟨h, hrun, hthree⟩ := Option.map_eq_some_iff.mp hdecide
  obtain ⟨as₁, as₂, g, hsplit, hrun₁, _, hheld⟩ := pool_peak hrun
  exact ⟨h, as₁, as₂, g, hrun, hthree, hsplit, hrun₁, hthree ▸ hheld⟩

end Heap

end RedisProxy.Shared
