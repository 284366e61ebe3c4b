/-
  File:      RedisProxy/Buffer/Heap.lean
  Subject:   THE OBJECTS ON A POOL: any number of buffers, slices and chains and any sequence of
             their operations.

  A `Heap` is a pool with the objects built on it, numbered in the order in which they were made;
  a destroyed object leaves its number empty. `Heap.refs` lists the references the objects hold,
  `Heap.live` the slices. `Sound` is the invariant: the counts of the pool are right for these
  references and every slice lies in the written part of its block. `Sound.next` reduces an
  operation to the stretch of pool operations it makes (`BlockPool.Moves`) and to which slices it
  makes; from it the counts, the free list and the bytes of the slices follow for every run.
-/
import RedisProxy.Buffer.Pool
import RedisProxy.Lib.Machine
import Mathlib.Data.List.Infix

namespace RedisProxy.Shared

open BlockPool Lib

/-! ## 1. The heap -/

/-- The pool, and the buffers, chains and slices made on it; a place is empty when its object was
    destroyed. -/
structure Heap where
  pool : BlockPool
  buffers : List (Option IoBuffer)
  chains : List (Option (List BufferSlice))
  slices : List (Option BufferSlice)

/-- A slice somewhere: a variable, or an element of a chain. -/
inductive Place where
  | slice (i : Nat)
  | element (c k : Nat)
  deriving DecidableEq

/-- The operations. A variable or object that is made gets the next number. -/
inductive Action where
  | newBuffer
  | reserveWritable (i : Nat)
  | commitWrite (i : Nat) (d : Bytes)
  | append (i : Nat) (d : Bytes)
  | consume (i n : Nat)
  | slicePrefix (i n : Nat)
  | clear (i : Nat)
  | destroyBuffer (i : Nat)
  | newSlice
  | copySlice (source : Place)
  | assignSlice (i : Nat) (source : Place)
  | moveSlice (i : Nat)
  | moveAssignSlice (i j : Nat)
  | destroySlice (i : Nat)
  | newChain
  | copyChain (c : Nat)
  | assignChain (c d : Nat)
  | moveChain (c : Nat)
  | moveAssignChain (c d : Nat)
  | appendCopy (c : Nat) (source : Place)
  | appendMove (c i : Nat)
  | appendChain (c d : Nat)
  | destroyChain (c : Nat)

namespace Heap

/-- A pool and nothing else. -/
def init (blockSize : Nat) : Heap := ⟨.init blockSize, [], [], []⟩

/-- The blocks in the deque of a buffer. -/
def bufferRefs : Option IoBuffer → List Nat
  | none => []
  | some x => x.blocks

/-- The blocks the slices of a chain hold. -/
def chainRefs : Option (List BufferSlice) → List Nat
  | none => []
  | some l => l.flatMap BufferSlice.refs

/-- The block a slice holds. -/
def sliceRefs : Option BufferSlice → List Nat
  | none => []
  | some s => s.refs

/-- The references held by deques and slices. -/
def refs (h : Heap) : List Nat :=
  h.buffers.flatMap bufferRefs ++ (h.chains.flatMap chainRefs ++ h.slices.flatMap sliceRefs)

/-- The slices there are. -/
def live (h : Heap) : List BufferSlice :=
  h.chains.flatMap (fun c => c.getD []) ++ h.slices.flatMap Option.toList

/-- The buffer with number `i`, if it is there. -/
def buffer? (h : Heap) (i : Nat) : Option IoBuffer := h.buffers[i]?.join

/-- The chain with number `c`. -/
def chain? (h : Heap) (c : Nat) : Option (List BufferSlice) := h.chains[c]?.join

/-- The slice with number `i`. -/
def slice? (h : Heap) (i : Nat) : Option BufferSlice := h.slices[i]?.join

/-- The slice an operation copies from, alone or in a chain. -/
def source? (h : Heap) : Place → Option BufferSlice
  | .slice i => h.slice? i
  | .element c k => (h.chain? c).bind (·[k]?)

/-- The pool and one buffer after an operation; `none` is a destroyed one. -/
def setBuffer (h : Heap) (i : Nat) (p : BlockPool) (x : Option IoBuffer) : Heap :=
  { h with pool := p, buffers := h.buffers.set i x }

/-- The pool and one chain after an operation. -/
def setChain (h : Heap) (c : Nat) (p : BlockPool) (l : Option (List BufferSlice)) : Heap :=
  { h with pool := p, chains := h.chains.set c l }

/-- The pool and one slice after an operation. -/
def setSlice (h : Heap) (i : Nat) (p : BlockPool) (s : Option BufferSlice) : Heap :=
  { h with pool := p, slices := h.slices.set i s }

/-- A chain is made, with the next number. -/
def addChain (h : Heap) (p : BlockPool) (l : List BufferSlice) : Heap :=
  { h with pool := p, chains := h.chains ++ [some l] }

/-- A slice is made, with the next number. -/
def addSlice (h : Heap) (p : BlockPool) (s : BufferSlice) : Heap :=
  { h with pool := p, slices := h.slices ++ [some s] }

/-- One operation. -/
def act (h : Heap) : Action → Option Heap
  | .newBuffer => some { h with buffers := h.buffers ++ [some .create] }
  | .reserveWritable i => (h.buffer? i).map fun x =>
      h.setBuffer i (x.reserveWritable h.pool).1 (some (x.reserveWritable h.pool).2)
  | .commitWrite i d => (h.buffer? i).bind fun x =>
      if d.length ≤ x.writable h.pool then
        some (h.setBuffer i (x.commitWrite h.pool d).1 (some (x.commitWrite h.pool d).2))
      else none
  | .append i d => (h.buffer? i).bind fun x =>
      (x.append h.pool d).map fun y => h.setBuffer i y.1 (some y.2)
  | .consume i n => (h.buffer? i).map fun x =>
      h.setBuffer i (x.consume h.pool n).1 (some (x.consume h.pool n).2)
  | .slicePrefix i n => (h.buffer? i).bind fun x =>
      let y := x.slicePrefix h.pool n
      if h.refs.length + (y.1.flatMap BufferSlice.refs).length < 2 ^ 32 then
        some ((h.setBuffer i y.2.1 (some y.2.2)).addChain y.2.1 y.1)
      else none
  | .clear i => (h.buffer? i).map fun x =>
      h.setBuffer i (x.clear h.pool).1 (some (x.clear h.pool).2)
  | .destroyBuffer i => (h.buffer? i).map fun x => h.setBuffer i (x.clear h.pool).1 none
  | .newSlice => some (h.addSlice h.pool ⟨none, 0, 0⟩)
  | .copySlice source => (h.source? source).map fun s =>
      h.addSlice (h.pool.retainAll s.refs) s
  | .assignSlice i source => (h.slice? i).bind fun old => (h.source? source).map fun s =>
      if source = .slice i then h
      else h.setSlice i ((h.pool.releaseAll old.refs).retainAll s.refs) (some s)
  | .moveSlice i => (h.slice? i).map fun s =>
      (h.setSlice i h.pool (some s.moved)).addSlice h.pool s
  | .moveAssignSlice i j => (h.slice? i).bind fun old => (h.slice? j).map fun s =>
      if i = j then h
      else (h.setSlice i h.pool (some s)).setSlice j (h.pool.releaseAll old.refs) (some s.moved)
  | .destroySlice i => (h.slice? i).map fun s => h.setSlice i (h.pool.releaseAll s.refs) none
  | .newChain => some (h.addChain h.pool [])
  | .copyChain c => (h.chain? c).map fun l =>
      h.addChain (h.pool.retainAll (l.flatMap BufferSlice.refs)) l
  -- the order of the element assignments is the vector's; the source keeps its blocks meanwhile
  | .assignChain c d => (h.chain? c).bind fun old => (h.chain? d).map fun l =>
      if c = d then h
      else h.setChain c ((h.pool.releaseAll (old.flatMap BufferSlice.refs)).retainAll
        (l.flatMap BufferSlice.refs)) (some l)
  | .moveChain c => (h.chain? c).map fun l =>
      (h.setChain c h.pool (some [])).addChain h.pool l
  | .moveAssignChain c d => (h.chain? c).bind fun old => (h.chain? d).map fun l =>
      if c = d then h
      else (h.setChain c h.pool (some l)).setChain d
        (h.pool.releaseAll (old.flatMap BufferSlice.refs)) (some [])
  | .appendCopy c source => (h.chain? c).bind fun l => (h.source? source).map fun s =>
      h.setChain c (h.pool.retainAll s.refs) (some (l ++ [s]))
  | .appendMove c i => (h.chain? c).bind fun l => (h.slice? i).map fun s =>
      (h.setChain c h.pool (some (l ++ [s]))).setSlice i h.pool (some s.moved)
  | .appendChain c d => (h.chain? c).bind fun l => (h.chain? d).bind fun m =>
      if c = d then none
      else some ((h.setChain c h.pool (some (l ++ m))).setChain d h.pool (some []))
  | .destroyChain c => (h.chain? c).map fun l =>
      h.setChain c (h.pool.releaseAll (l.flatMap BufferSlice.refs)) none

/-- The operations as long as there are fewer than `2^32` references. -/
def step (h : Heap) (a : Action) : Option Heap :=
  (h.act a).filter fun h' => decide (h'.refs.length < 2 ^ 32)

/-- **The machine of a heap**, over operations whose operands exist and that keep the references
    below `2 ^ 32`. -/
def machine (blockSize : Nat) : Machine Heap Action := ⟨init blockSize, step⟩

/-! ## 2. Counting references -/

/-- What one element holds is exchanged in the sum over all of them. -/
theorem count_flatMap_set {α : Type} (f : α → List Nat) {l : List α} {i : Nat} {x : α}
    (h : l[i]? = some x) (y : α) (b : Nat) :
    ((l.set i y).flatMap f).count b + (f x).count b = (l.flatMap f).count b + (f y).count b := by
  induction l generalizing i with
  | nil => cases h
  | cons z l ih =>
    cases i with
    | zero =>
      obtain rfl : z = x := Option.some.inj h
      simp only [List.set_cons_zero, List.flatMap_cons, List.count_append]
      omega
    | succ i =>
      have := ih (i := i) h
      simp only [List.set_cons_succ, List.flatMap_cons, List.count_append]
      omega

theorem mem_flatMap_set {α β : Type} {f : α → List β} {l : List α} {i : Nat} {y : α} {s : β}
    (h : s ∈ (l.set i y).flatMap f) : s ∈ l.flatMap f ∨ s ∈ f y := by
  obtain ⟨z, hz, hs⟩ := List.mem_flatMap.mp h
  rcases List.mem_or_eq_of_mem_set hz with hz | rfl
  · exact Or.inl (List.mem_flatMap.mpr ⟨z, hz, hs⟩)
  · exact Or.inr hs

/-- The block of a slice that is there is referenced. -/
theorem mem_refs_of_live {h : Heap} {s : BufferSlice} (hs : s ∈ h.live) {b : Nat}
    (hb : s.block = some b) : b ∈ h.refs := by
  have href : b ∈ s.refs := by
    rw [BufferSlice.refs, hb]
    exact List.mem_singleton.mpr rfl
  refine List.mem_append_right _ ?_
  rcases List.mem_append.mp hs with hs | hs
  · obtain ⟨c, hc, hs⟩ := List.mem_flatMap.mp hs
    refine List.mem_append_left _ (List.mem_flatMap.mpr ⟨c, hc, ?_⟩)
    cases c with
    | none => cases hs
    | some l => exact List.mem_flatMap.mpr ⟨s, hs, href⟩
  · obtain ⟨c, hc, hs⟩ := List.mem_flatMap.mp hs
    refine List.mem_append_right _ (List.mem_flatMap.mpr ⟨c, hc, ?_⟩)
    cases c with
    | none => cases hs
    | some t =>
      obtain rfl : s = t := Option.mem_toList.mp hs |> Option.some.inj |> Eq.symm
      exact href

/-! ## 3. The invariant -/

/-- **A sound heap**: right counts, and slices over written bytes. -/
structure Sound (h : Heap) : Prop where
  counted : h.pool.Counted fun b => h.refs.count b
  tidy : h.pool.Tidy
  inside : ∀ s ∈ h.live, h.pool.Inside s
  small : h.refs.length < 2 ^ 32

theorem init_sound (blockSize : Nat) : (init blockSize).Sound where
  counted := ⟨fun _ _ => rfl, nofun, by simp [init, BlockPool.init], List.nodup_nil, nofun⟩
  tidy b := by simp [init, BlockPool.init, BufferBlock.create, BufferBlock.capacity]
  inside := nofun
  small := show 0 < 2 ^ 32 by decide

/-- No count overflows. -/
theorem Sound.count_lt {h : Heap} (hs : h.Sound) (b : Nat) : h.refs.count b < 2 ^ 32 :=
  Nat.lt_of_le_of_lt List.count_le_length hs.small

/-- **An operation as a stretch of pool operations.** The slices it leaves are old ones, or new
    ones over written bytes; then the heap is sound again and the old ones show what they
    showed. -/
theorem Sound.next {h h' : Heap} (hs : h.Sound)
    (hm : h.pool.Moves (fun b => h.refs.count b) h'.pool fun b => h'.refs.count b)
    (hlive : ∀ s ∈ h'.live, s ∈ h.live ∨ h'.pool.Inside s) (hsmall : h'.refs.length < 2 ^ 32) :
    h'.Sound ∧ ∀ s ∈ h.live, s ∈ h'.live → h'.pool.view s = h.pool.view s := by
  have hkept : ∀ s ∈ h.live, s ∈ h'.live → ∀ b, s.block = some b → h.pool.Kept h'.pool b := by
    intro s hold hnew b hb
    exact hm.kept b (List.count_pos_iff.mpr (mem_refs_of_live hold hb))
      (List.count_pos_iff.mpr (mem_refs_of_live hnew hb))
  refine ⟨⟨hm.counted, hm.tidy, fun s hnew => ?_, hsmall⟩, fun s hold hnew => ?_⟩
  · rcases hlive s hnew with hold | hin
    · exact BlockPool.Kept.inside (hs.inside s hold) (hkept s hold hnew)
    · exact hin
  · exact BlockPool.Kept.view (hs.inside s hold) (hkept s hold hnew)

/-- The references after a buffer changed: less what it held, more what it holds. -/
theorem refs_setBuffer {h : Heap} {i : Nat} {y : Option IoBuffer} (hy : h.buffers[i]? = some y)
    (p : BlockPool) (x : Option IoBuffer) (b : Nat) :
    (h.setBuffer i p x).refs.count b + (bufferRefs y).count b =
      h.refs.count b + (bufferRefs x).count b := by
  have := count_flatMap_set bufferRefs hy x b
  simp only [refs, setBuffer, List.count_append]
  omega

theorem refs_setChain {h : Heap} {i : Nat} {y : Option (List BufferSlice)}
    (hy : h.chains[i]? = some y) (p : BlockPool) (x : Option (List BufferSlice)) (b : Nat) :
    (h.setChain i p x).refs.count b + (chainRefs y).count b =
      h.refs.count b + (chainRefs x).count b := by
  have := count_flatMap_set chainRefs hy x b
  simp only [refs, setChain, List.count_append]
  omega

theorem refs_setSlice {h : Heap} {i : Nat} {y : Option BufferSlice} (hy : h.slices[i]? = some y)
    (p : BlockPool) (x : Option BufferSlice) (b : Nat) :
    (h.setSlice i p x).refs.count b + (sliceRefs y).count b =
      h.refs.count b + (sliceRefs x).count b := by
  have := count_flatMap_set sliceRefs hy x b
  simp only [refs, setSlice, List.count_append]
  omega

/-- A new chain adds the references of its slices. -/
theorem refs_addChain (h : Heap) (p : BlockPool) (l : List BufferSlice) (b : Nat) :
    (h.addChain p l).refs.count b =
      h.refs.count b + (l.flatMap BufferSlice.refs).count b := by
  simp only [refs, addChain, List.count_append, List.flatMap_append, List.flatMap_singleton,
    chainRefs]
  omega

theorem refs_addSlice (h : Heap) (p : BlockPool) (s : BufferSlice) (b : Nat) :
    (h.addSlice p s).refs.count b = h.refs.count b + s.refs.count b := by
  simp only [refs, addSlice, List.count_append, List.flatMap_append, List.flatMap_singleton,
    sliceRefs]
  omega

theorem live_addChain {h : Heap} {p : BlockPool} {l : List BufferSlice} {s : BufferSlice}
    (hs : s ∈ (h.addChain p l).live) : s ∈ h.live ∨ s ∈ l := by
  simp only [live, addChain, List.flatMap_append, List.flatMap_singleton, Option.getD_some,
    List.mem_append] at hs ⊢
  tauto

theorem live_addSlice {h : Heap} {p : BlockPool} {t s : BufferSlice}
    (hs : s ∈ (h.addSlice p t).live) : s ∈ h.live ∨ s = t := by
  simp only [live, addSlice, List.flatMap_append, List.flatMap_singleton, Option.toList_some,
    List.mem_append, List.mem_singleton] at hs ⊢
  tauto

theorem live_setChain {h : Heap} {c : Nat} {p : BlockPool} {x : Option (List BufferSlice)}
    {s : BufferSlice} (hs : s ∈ (h.setChain c p x).live) : s ∈ h.live ∨ s ∈ x.getD [] := by
  rcases List.mem_append.mp hs with hs | hs
  · rcases mem_flatMap_set hs with hs | hs
    · exact Or.inl (List.mem_append_left _ hs)
    · exact Or.inr hs
  · exact Or.inl (List.mem_append_right _ hs)

/-- Nothing but the new slice has come. -/
theorem live_setSlice {h : Heap} {i : Nat} {p : BlockPool} {x : Option BufferSlice}
    {s : BufferSlice} (hs : s ∈ (h.setSlice i p x).live) : s ∈ h.live ∨ x = some s := by
  rcases List.mem_append.mp hs with hs | hs
  · exact Or.inl (List.mem_append_left _ hs)
  · rcases mem_flatMap_set hs with hs | hs
    · exact Or.inl (List.mem_append_right _ hs)
    · exact Or.inr (Option.mem_toList.mp hs)

theorem get_of_buffer? {h : Heap} {i : Nat} {x : IoBuffer} (hx : h.buffer? i = some x) :
    h.buffers[i]? = some (some x) := Option.join_eq_some_iff.mp hx

theorem get_of_chain? {h : Heap} {c : Nat} {l : List BufferSlice} (hl : h.chain? c = some l) :
    h.chains[c]? = some (some l) := Option.join_eq_some_iff.mp hl

theorem get_of_slice? {h : Heap} {i : Nat} {s : BufferSlice} (hs : h.slice? i = some s) :
    h.slices[i]? = some (some s) := Option.join_eq_some_iff.mp hs

theorem mem_live_of_chain {h : Heap} {c : Nat} {l : List BufferSlice} (hl : h.chain? c = some l)
    {s : BufferSlice} (hs : s ∈ l) : s ∈ h.live :=
  List.mem_append_left _ (List.mem_flatMap.mpr
    ⟨some l, List.mem_of_getElem? (get_of_chain? hl), hs⟩)

theorem mem_live_of_slice {h : Heap} {i : Nat} {s : BufferSlice} (hs : h.slice? i = some s) :
    s ∈ h.live :=
  List.mem_append_right _ (List.mem_flatMap.mpr
    ⟨some s, List.mem_of_getElem? (get_of_slice? hs), by simp⟩)

theorem mem_live_of_source {h : Heap} {source : Place} {s : BufferSlice}
    (hs : h.source? source = some s) : s ∈ h.live := by
  cases source with
  | slice i => exact mem_live_of_slice hs
  | element c k =>
    obtain ⟨l, hl, hk⟩ := Option.bind_eq_some_iff.mp hs
    exact mem_live_of_chain hl (List.mem_of_getElem? hk)

/-- What a slice shows is held. -/
theorem held_of_live {h : Heap} {s : BufferSlice} (hs : s ∈ h.live) :
    ∀ b ∈ s.refs, 0 < h.refs.count b := by
  intro b hb
  exact List.count_pos_iff.mpr (mem_refs_of_live hs (Option.mem_toList.mp hb))

theorem held_of_chain {h : Heap} {c : Nat} {l : List BufferSlice} (hl : h.chain? c = some l) :
    ∀ b ∈ l.flatMap BufferSlice.refs, 0 < h.refs.count b := by
  intro b hb
  obtain ⟨s, hs, hb⟩ := List.mem_flatMap.mp hb
  exact held_of_live (mem_live_of_chain hl hs) b hb

/-! ## 4. The operations of buffers -/

/-- What an operation has to show: the heap is sound again, and slices show what they showed. -/
def Safe (h h' : Heap) : Prop :=
  h'.Sound ∧ ∀ s ∈ h.live, s ∈ h'.live → h'.pool.view s = h.pool.view s

/-- The references, as those of one buffer beside those of everything else. -/
theorem beside_none {h : Heap} {i : Nat} {x : IoBuffer} (hx : h.buffer? i = some x)
    (p : BlockPool) (b : Nat) : h.refs.count b =
      IoBuffer.beside (fun b => (h.setBuffer i p none).refs.count b) x.blocks b := by
  have := refs_setBuffer (get_of_buffer? hx) p none b
  simp only [bufferRefs, List.count_nil] at this
  simp only [IoBuffer.beside]
  omega

/-- Seen from one buffer, the references are its own and those of the others. -/
theorem beside_some {h : Heap} {i : Nat} {x : IoBuffer} (hx : h.buffer? i = some x)
    (p p' : BlockPool) (x' : Option IoBuffer) (b : Nat) : (h.setBuffer i p' x').refs.count b =
      IoBuffer.beside (fun b => (h.setBuffer i p none).refs.count b) (bufferRefs x') b := by
  have h1 := refs_setBuffer (get_of_buffer? hx) p none b
  have h2 := refs_setBuffer (get_of_buffer? hx) p' x' b
  rw [bufferRefs, List.count_nil] at h1
  simp only [IoBuffer.beside]
  omega

/-- An operation of one buffer, beside the references of everything else. -/
theorem Sound.buffer {h : Heap} (hs : h.Sound) {i : Nat} {x : IoBuffer}
    (hx : h.buffer? i = some x) {p' : BlockPool} {x' : Option IoBuffer}
    (hm : ∀ c, h.pool.Counted (IoBuffer.beside c x.blocks) →
      (∀ b, IoBuffer.beside c x.blocks b < 2 ^ 32) →
      h.pool.Moves (IoBuffer.beside c x.blocks) p' (IoBuffer.beside c (bufferRefs x')))
    (hsmall : (h.setBuffer i p' x').refs.length < 2 ^ 32) : h.Safe (h.setBuffer i p' x') := by
  have hc := beside_none hx p'
  have hcounted := hs.counted
  rw [funext hc] at hcounted
  refine hs.next ?_ (fun s hlive => Or.inl hlive) hsmall
  refine (hm _ hcounted fun b => ?_).congr hc (beside_some hx p' p' x')
  rw [← hc]
  exact hs.count_lt b

/-- `slicePrefix` moves bytes from a deque to a chain; the block it cuts is held by both. -/
theorem Sound.slicePrefix {h : Heap} (hs : h.Sound) {i n : Nat} {x : IoBuffer}
    (hx : h.buffer? i = some x) {y : List BufferSlice × BlockPool × IoBuffer}
    (hy : x.slicePrefix h.pool n = y)
    (hlimit : h.refs.length + (y.1.flatMap BufferSlice.refs).length < 2 ^ 32)
    (hsmall : ((h.setBuffer i y.2.1 (some y.2.2)).addChain y.2.1 y.1).refs.length < 2 ^ 32) :
    h.Safe ((h.setBuffer i y.2.1 (some y.2.2)).addChain y.2.1 y.1) := by
  subst hy
  have hc := beside_none hx h.pool
  have hcounted := hs.counted
  rw [funext hc] at hcounted
  obtain ⟨hm, hin⟩ := IoBuffer.moves_slicePrefix x n hcounted hs.tidy fun b => by
    rw [← hc]
    have h1 : h.refs.count b ≤ h.refs.length := List.count_le_length
    have h2 : ((x.slicePrefix h.pool n).1.flatMap BufferSlice.refs).count b ≤
      ((x.slicePrefix h.pool n).1.flatMap BufferSlice.refs).length := List.count_le_length
    omega
  refine hs.next (hm.congr hc fun b => ?_) (fun s hlive => ?_) hsmall
  · rw [refs_addChain, beside_some hx h.pool]
    rfl
  · rcases live_addChain hlive with hlive | hlive
    · exact Or.inl hlive
    · exact Or.inr (hin s hlive)

/-! ## 5. The operations of slices and chains -/

/-- References change hands: the pool does nothing. -/
theorem Sound.passed {h h' : Heap} (hs : h.Sound) (hpool : h'.pool = h.pool)
    (hcount : ∀ b, h'.refs.count b = h.refs.count b)
    (hlive : ∀ s ∈ h'.live, s ∈ h.live ∨ s.block = none) (hsmall : h'.refs.length < 2 ^ 32) :
    h.Safe h' := by
  refine hs.next ?_ (fun s hl => ?_) hsmall
  · rw [hpool]
    exact (Moves.refl hs.counted hs.tidy).congr (fun _ => rfl) hcount
  · rcases hlive s hl with hl | hl
    · exact Or.inl hl
    · exact Or.inr fun b hb => by cases hl.symm.trans hb

/-- References are copied. -/
theorem Sound.copied {h h' : Heap} (hs : h.Sound) {l : List Nat}
    (hpool : h'.pool = h.pool.retainAll l) (hheld : ∀ b ∈ l, 0 < h.refs.count b)
    (hcount : ∀ b, h'.refs.count b = h.refs.count b + l.count b)
    (hlive : ∀ s ∈ h'.live, s ∈ h.live) (hsmall : h'.refs.length < 2 ^ 32) : h.Safe h' := by
  refine hs.next ?_ (fun s hl => Or.inl (hlive s hl)) hsmall
  rw [hpool]
  refine (moves_retainAll hs.counted hs.tidy hheld fun b => ?_).congr (fun _ => rfl) hcount
  rw [← hcount]
  exact Nat.lt_of_le_of_lt List.count_le_length hsmall

/-- References are given up; the slices left may include one that holds nothing. -/
theorem Sound.dropped {h h' : Heap} (hs : h.Sound) {l : List Nat}
    (hpool : h'.pool = h.pool.releaseAll l)
    (hcount : ∀ b, h'.refs.count b + l.count b = h.refs.count b)
    (hlive : ∀ s ∈ h'.live, s ∈ h.live ∨ s.block = none) (hsmall : h'.refs.length < 2 ^ 32) :
    h.Safe h' := by
  refine hs.next ?_ (fun s hl => ?_) hsmall
  · rw [hpool]
    refine (moves_releaseAll hs.counted hs.tidy (fun b => ?_) hs.count_lt).congr (fun _ => rfl)
      fun b => ?_
    · have := hcount b
      omega
    · have := hcount b
      omega
  · rcases hlive s hl with hl | hl
    · exact Or.inl hl
    · exact Or.inr fun b hb => by cases hl.symm.trans hb

/-- References `old` are given up and those of a source, which stays, are copied. -/
theorem Sound.replaced {h h' : Heap} (hs : h.Sound) {old l : List Nat}
    (hpool : h'.pool = (h.pool.releaseAll old).retainAll l)
    (hheld : ∀ b ∈ l, old.count b < h.refs.count b) (hold : ∀ b, old.count b ≤ h.refs.count b)
    (hcount : ∀ b, h'.refs.count b + old.count b = h.refs.count b + l.count b)
    (hlive : ∀ s ∈ h'.live, s ∈ h.live) (hsmall : h'.refs.length < 2 ^ 32) : h.Safe h' := by
  refine hs.next ?_ (fun s hl => Or.inl (hlive s hl)) hsmall
  rw [hpool]
  have h1 := moves_releaseAll hs.counted hs.tidy hold hs.count_lt
  have h2 := moves_retainAll (l := l) h1.counted h1.tidy (fun b hb => ?_) (fun b => ?_)
  · refine (h1.trans h2 fun b _ hb => ?_).congr (fun _ => rfl) fun b => ?_
    · -- a block that comes back with the source was held by it meanwhile
      by_cases hmem : b ∈ l
      · have := hheld b hmem
        omega
      · rw [List.count_eq_zero_of_not_mem hmem] at hb
        exact hb
    · have h3 := hcount b
      have h4 := hold b
      omega
  · have := hheld b hb
    omega
  · have h3 := hcount b
    have h4 := hold b
    have h5 : h'.refs.count b < 2 ^ 32 := Nat.lt_of_le_of_lt List.count_le_length hsmall
    omega

/-- What is held by a source that is not slice `i` is held beside slice `i`. -/
theorem held_beside_slice {h : Heap} {i : Nat} {old s : BufferSlice} {source : Place}
    (hold : h.slice? i = some old) (hs : h.source? source = some s) (hne : source ≠ .slice i) :
    ∀ b ∈ s.refs, old.refs.count b < h.refs.count b := by
  intro b hb
  have hsource : (h.setSlice i h.pool none).source? source = some s := by
    cases source with
    | slice j =>
      have hij : i ≠ j := fun heq => hne (heq ▸ rfl)
      have hget : (h.slices.set i none)[j]? = h.slices[j]? := List.getElem?_set_ne hij
      show ((h.slices.set i none)[j]?).join = some s
      rw [hget]
      exact hs
    | element c k => exact hs
  have h1 := held_of_live (mem_live_of_source hsource) b hb
  have h2 := refs_setSlice (get_of_slice? hold) h.pool none b
  simp only [sliceRefs, List.count_nil] at h2
  omega

/-- A chain that stays holds its blocks beside the one that goes. -/
theorem held_beside_chain {h : Heap} {c d : Nat} {old l : List BufferSlice}
    (hold : h.chain? c = some old) (hl : h.chain? d = some l) (hne : c ≠ d) :
    ∀ b ∈ l.flatMap BufferSlice.refs,
      (old.flatMap BufferSlice.refs).count b < h.refs.count b := by
  intro b hb
  have hchain : (h.setChain c h.pool none).chain? d = some l := by
    have hget : (h.chains.set c none)[d]? = h.chains[d]? := List.getElem?_set_ne hne
    show ((h.chains.set c none)[d]?).join = some l
    rw [hget]
    exact hl
  have h1 := held_of_chain hchain b hb
  have h2 := refs_setChain (get_of_chain? hold) h.pool none b
  simp only [chainRefs, List.count_nil] at h2
  omega

theorem slices_get_set {h : Heap} {i j : Nat} {s : BufferSlice} (hs : h.slice? j = some s)
    (hne : i ≠ j) (p : BlockPool) (x : Option BufferSlice) :
    (h.setSlice i p x).slices[j]? = some (some s) := by
  show (h.slices.set i x)[j]? = _
  rw [List.getElem?_set_ne hne]
  exact get_of_slice? hs

theorem chains_get_set {h : Heap} {c d : Nat} {l : List BufferSlice} (hl : h.chain? d = some l)
    (hne : c ≠ d) (p : BlockPool) (x : Option (List BufferSlice)) :
    (h.setChain c p x).chains[d]? = some (some l) := by
  show (h.chains.set c x)[d]? = _
  rw [List.getElem?_set_ne hne]
  exact get_of_chain? hl

theorem refs_moved (s : BufferSlice) (b : Nat) : (sliceRefs (some s.moved)).count b = 0 := rfl

/-- **Copy assignment is safe**: the old block is released before the new one is retained, and no
    slice that stays loses its block by it. -/
theorem Sound.assignSlice {h h' : Heap} (hs : h.Sound) {i : Nat} {source : Place}
    (ha : h.act (.assignSlice i source) = some h') (hsmall : h'.refs.length < 2 ^ 32) :
    h.Safe h' := by
  obtain ⟨old, hold, ha⟩ := Option.bind_eq_some_iff.mp ha
  obtain ⟨s, hsrc, rfl⟩ := Option.map_eq_some_iff.mp ha
  by_cases hself : source = .slice i
  · rw [if_pos hself]
    exact ⟨hs, fun _ _ _ => rfl⟩
  · rw [if_neg hself] at hsmall ⊢
    refine hs.replaced rfl (held_beside_slice hold hsrc hself) (fun b => ?_) (fun b => ?_)
      (fun t ht => ?_) hsmall
    · have := refs_setSlice (get_of_slice? hold) h.pool none b
      simp only [sliceRefs, List.count_nil] at this
      omega
    · exact refs_setSlice (get_of_slice? hold) _ (some s) b
    · rcases live_setSlice ht with ht | ht
      · exact ht
      · cases ht
        exact mem_live_of_source hsrc

/-- Move assignment releases the old block and takes over the hold of the source. -/
theorem Sound.moveAssignSlice {h h' : Heap} (hs : h.Sound) {i j : Nat}
    (ha : h.act (.moveAssignSlice i j) = some h') (hsmall : h'.refs.length < 2 ^ 32) :
    h.Safe h' := by
  obtain ⟨old, hold, ha⟩ := Option.bind_eq_some_iff.mp ha
  obtain ⟨s, hj, rfl⟩ := Option.map_eq_some_iff.mp ha
  by_cases hself : i = j
  · rw [if_pos hself]
    exact ⟨hs, fun _ _ _ => rfl⟩
  · rw [if_neg hself] at hsmall ⊢
    refine hs.dropped rfl (fun b => ?_) (fun t ht => ?_) hsmall
    · have h1 := refs_setSlice (get_of_slice? hold) h.pool (some s) b
      have h2 := refs_setSlice (slices_get_set hj hself h.pool (some s))
        (h.pool.releaseAll old.refs) (some s.moved) b
      rw [refs_moved] at h2
      simp only [sliceRefs] at h1 h2
      omega
    · rcases live_setSlice ht with ht | ht
      · rcases live_setSlice ht with ht | ht
        · exact Or.inl ht
        · cases ht
          exact Or.inl (mem_live_of_slice hj)
      · cases ht
        exact Or.inr rfl

/-- Copy assignment of chains: the old slices are given up, then the new ones held. -/
theorem Sound.assignChain {h h' : Heap} (hs : h.Sound) {c d : Nat}
    (ha : h.act (.assignChain c d) = some h') (hsmall : h'.refs.length < 2 ^ 32) : h.Safe h' := by
  obtain ⟨old, hold, ha⟩ := Option.bind_eq_some_iff.mp ha
  obtain ⟨l, hl, rfl⟩ := Option.map_eq_some_iff.mp ha
  by_cases hself : c = d
  · rw [if_pos hself]
    exact ⟨hs, fun _ _ _ => rfl⟩
  · rw [if_neg hself] at hsmall ⊢
    refine hs.replaced rfl (held_beside_chain hold hl hself) (fun b => ?_) (fun b => ?_)
      (fun t ht => ?_) hsmall
    · have := refs_setChain (get_of_chain? hold) h.pool none b
      simp only [chainRefs, List.count_nil] at this
      omega
    · exact refs_setChain (get_of_chain? hold) _ (some l) b
    · rcases live_setChain ht with ht | ht
      · exact ht
      · exact mem_live_of_chain hl ht

/-- The contents of chain `d` go to chain `c`, which gives up `old` and is left with `kept` of its
    own slices before them. -/
theorem Sound.moveChain {h : Heap} (hs : h.Sound) {c d : Nat} {before : List BufferSlice}
    (old kept : List BufferSlice) {l : List BufferSlice}
    (hc : h.chain? c = some before) (hl : h.chain? d = some l) (hne : c ≠ d)
    (hbefore : before = kept ++ old)
    (hsmall : ((h.setChain c h.pool (some (kept ++ l))).setChain d
      (h.pool.releaseAll (old.flatMap BufferSlice.refs)) (some [])).refs.length < 2 ^ 32) :
    h.Safe ((h.setChain c h.pool (some (kept ++ l))).setChain d
      (h.pool.releaseAll (old.flatMap BufferSlice.refs)) (some [])) := by
  refine hs.dropped rfl (fun b => ?_) (fun t ht => ?_) hsmall
  · have h1 := refs_setChain (get_of_chain? hc) h.pool (some (kept ++ l)) b
    have h2 := refs_setChain (chains_get_set hl hne h.pool (some (kept ++ l)))
      (h.pool.releaseAll (old.flatMap BufferSlice.refs)) (some []) b
    simp only [chainRefs, hbefore, List.flatMap_append, List.count_append, List.flatMap_nil,
      List.count_nil] at h1 h2
    omega
  · rcases live_setChain ht with ht | ht
    · rcases live_setChain ht with ht | ht
      · exact Or.inl ht
      · rcases List.mem_append.mp ht with ht | ht
        · exact Or.inl (mem_live_of_chain hc (hbefore ▸ List.mem_append_left _ ht))
        · exact Or.inl (mem_live_of_chain hl ht)
    · cases ht

/-- A move passes the hold on: no count changes. -/
theorem Sound.moveSlice {h h' : Heap} (hs : h.Sound) {i : Nat}
    (ha : h.act (.moveSlice i) = some h') (hsmall : h'.refs.length < 2 ^ 32) : h.Safe h' := by
  obtain ⟨s, hi, rfl⟩ := Option.map_eq_some_iff.mp ha
  refine hs.passed rfl (fun b => ?_) (fun t hl => ?_) hsmall
  · have := refs_setSlice (get_of_slice? hi) h.pool (some s.moved) b
    rw [refs_moved] at this
    simp only [sliceRefs] at this
    rw [refs_addSlice]
    omega
  · rcases live_addSlice hl with hl | rfl
    · rcases live_setSlice hl with hl | hl
      · exact Or.inl hl
      · cases hl
        exact Or.inr rfl
    · exact Or.inl (mem_live_of_slice hi)

theorem Sound.moveOutChain {h h' : Heap} (hs : h.Sound) {c : Nat}
    (ha : h.act (.moveChain c) = some h') (hsmall : h'.refs.length < 2 ^ 32) : h.Safe h' := by
  obtain ⟨l, hl, rfl⟩ := Option.map_eq_some_iff.mp ha
  refine hs.passed rfl (fun b => ?_) (fun t ht => ?_) hsmall
  · have := refs_setChain (get_of_chain? hl) h.pool (some []) b
    simp only [chainRefs, List.flatMap_nil, List.count_nil] at this
    rw [refs_addChain]
    omega
  · rcases live_addChain ht with ht | ht
    · rcases live_setChain ht with ht | ht
      · exact Or.inl ht
      · cases ht
    · exact Or.inl (mem_live_of_chain hl ht)

/-- A slice appended by a copy is held once more. -/
theorem Sound.appendCopy {h h' : Heap} (hs : h.Sound) {c : Nat} {source : Place}
    (ha : h.act (.appendCopy c source) = some h') (hsmall : h'.refs.length < 2 ^ 32) : h.Safe h' := by
  obtain ⟨l, hl, ha⟩ := Option.bind_eq_some_iff.mp ha
  obtain ⟨s, hsrc, rfl⟩ := Option.map_eq_some_iff.mp ha
  refine hs.copied rfl (held_of_live (mem_live_of_source hsrc)) (fun b => ?_) (fun t ht => ?_)
    hsmall
  · have := refs_setChain (get_of_chain? hl) (h.pool.retainAll s.refs) (some (l ++ [s])) b
    simp only [chainRefs, List.flatMap_append, List.flatMap_singleton, List.count_append] at this
    omega
  · rcases live_setChain ht with ht | ht
    · exact ht
    · rcases List.mem_append.mp ht with ht | ht
      · exact mem_live_of_chain hl ht
      · rw [List.mem_singleton.mp ht]
        exact mem_live_of_source hsrc

/-- Appended by a move it is held by the chain instead. -/
theorem Sound.appendMove {h h' : Heap} (hs : h.Sound) {c i : Nat}
    (ha : h.act (.appendMove c i) = some h') (hsmall : h'.refs.length < 2 ^ 32) : h.Safe h' := by
  obtain ⟨l, hl, ha⟩ := Option.bind_eq_some_iff.mp ha
  obtain ⟨s, hi, rfl⟩ := Option.map_eq_some_iff.mp ha
  refine hs.passed rfl (fun b => ?_) (fun t ht => ?_) hsmall
  · have h1 := refs_setChain (get_of_chain? hl) h.pool (some (l ++ [s])) b
    have h2 := refs_setSlice (h := h.setChain c h.pool (some (l ++ [s]))) (get_of_slice? hi)
      h.pool (some s.moved) b
    rw [refs_moved] at h2
    simp only [chainRefs, sliceRefs, List.flatMap_append, List.flatMap_singleton,
      List.count_append] at h1 h2
    omega
  · rcases live_setSlice ht with ht | ht
    · rcases live_setChain ht with ht | ht
      · exact Or.inl ht
      · rcases List.mem_append.mp ht with ht | ht
        · exact Or.inl (mem_live_of_chain hl ht)
        · rw [List.mem_singleton.mp ht]
          exact Or.inl (mem_live_of_slice hi)
    · cases ht
      exact Or.inr rfl

/-- **Every operation is safe**. -/
theorem Sound.act {h h' : Heap} (hs : h.Sound) {a : Action} (ha : h.act a = some h')
    (hsmall : h'.refs.length < 2 ^ 32) : h.Safe h' := by
  cases a with
  | newBuffer =>
    cases ha
    refine hs.passed rfl (fun b => ?_) (fun s hl => Or.inl hl) hsmall
    simp [refs, bufferRefs, IoBuffer.create]
  | reserveWritable i =>
    obtain ⟨x, hx, rfl⟩ := Option.map_eq_some_iff.mp ha
    exact hs.buffer hx (fun c hc _ => IoBuffer.moves_reserve x hc hs.tidy) hsmall
  | commitWrite i d =>
    obtain ⟨x, hx, ha⟩ := Option.bind_eq_some_iff.mp ha
    by_cases hd : d.length ≤ x.writable h.pool
    · rw [if_pos hd] at ha
      cases ha
      exact hs.buffer hx (fun c hc _ => IoBuffer.moves_commit x hc hs.tidy hd) hsmall
    · rw [if_neg hd] at ha
      cases ha
  | append i d =>
    obtain ⟨x, hx, ha⟩ := Option.bind_eq_some_iff.mp ha
    obtain ⟨y, hy, rfl⟩ := Option.map_eq_some_iff.mp ha
    exact hs.buffer hx
      (fun c hc _ => (IoBuffer.moves_appendLoop _ h.pool x d hc hs.tidy hy).1) hsmall
  | consume i n =>
    obtain ⟨x, hx, rfl⟩ := Option.map_eq_some_iff.mp ha
    exact hs.buffer hx
      (fun c hc hlt => (IoBuffer.moves_consumeLoop h.pool x.blocks _ hc hs.tidy hlt).1) hsmall
  | slicePrefix i n =>
    obtain ⟨x, hx, ha⟩ := Option.bind_eq_some_iff.mp ha
    dsimp only at ha
    split at ha
    · rename_i hlimit
      cases ha
      exact hs.slicePrefix hx rfl hlimit hsmall
    · cases ha
  | clear i =>
    obtain ⟨x, hx, rfl⟩ := Option.map_eq_some_iff.mp ha
    exact hs.buffer hx (fun c hc hlt => IoBuffer.moves_clear x hc hs.tidy hlt) hsmall
  | destroyBuffer i =>
    obtain ⟨x, hx, rfl⟩ := Option.map_eq_some_iff.mp ha
    exact hs.buffer hx (fun c hc hlt => IoBuffer.moves_clear x hc hs.tidy hlt) hsmall
  | newSlice =>
    cases ha
    refine hs.passed rfl (fun b => ?_) (fun s hl => ?_) hsmall
    · rw [refs_addSlice]
      rfl
    · rcases live_addSlice hl with hl | rfl
      · exact Or.inl hl
      · exact Or.inr rfl
  | copySlice source =>
    obtain ⟨s, hsrc, rfl⟩ := Option.map_eq_some_iff.mp ha
    refine hs.copied rfl (held_of_live (mem_live_of_source hsrc)) (refs_addSlice h _ s)
      (fun t hl => ?_) hsmall
    rcases live_addSlice hl with hl | rfl
    · exact hl
    · exact mem_live_of_source hsrc
  | assignSlice i source => exact hs.assignSlice ha hsmall
  | moveSlice i => exact hs.moveSlice ha hsmall
  | moveAssignSlice i j => exact hs.moveAssignSlice ha hsmall
  | destroySlice i =>
    obtain ⟨s, hi, rfl⟩ := Option.map_eq_some_iff.mp ha
    refine hs.dropped rfl (refs_setSlice (get_of_slice? hi) _ none) (fun t hl => ?_) hsmall
    rcases live_setSlice hl with hl | hl
    · exact Or.inl hl
    · cases hl
  | newChain =>
    cases ha
    refine hs.passed rfl (refs_addChain h _ []) (fun s hl => ?_) hsmall
    rcases live_addChain hl with hl | hl
    · exact Or.inl hl
    · cases hl
  | copyChain c =>
    obtain ⟨l, hl, rfl⟩ := Option.map_eq_some_iff.mp ha
    refine hs.copied rfl (held_of_chain hl) (refs_addChain h _ l) (fun t ht => ?_) hsmall
    rcases live_addChain ht with ht | ht
    · exact ht
    · exact mem_live_of_chain hl ht
  | assignChain c d => exact hs.assignChain ha hsmall
  | moveChain c => exact hs.moveOutChain ha hsmall
  | moveAssignChain c d =>
    obtain ⟨old, hold, ha⟩ := Option.bind_eq_some_iff.mp ha
    obtain ⟨l, hl, rfl⟩ := Option.map_eq_some_iff.mp ha
    by_cases hself : c = d
    · rw [if_pos hself]
      exact ⟨hs, fun _ _ _ => rfl⟩
    · rw [if_neg hself] at hsmall ⊢
      exact hs.moveChain old [] hold hl hself rfl hsmall
  | appendCopy c source => exact hs.appendCopy ha hsmall
  | appendMove c i => exact hs.appendMove ha hsmall
  | appendChain c d =>
    obtain ⟨l, hl, ha⟩ := Option.bind_eq_some_iff.mp ha
    obtain ⟨m, hm, ha⟩ := Option.bind_eq_some_iff.mp ha
    by_cases hself : c = d
    · rw [if_pos hself] at ha
      cases ha
    · rw [if_neg hself] at ha
      cases ha
      exact hs.moveChain [] l hl hm hself (List.append_nil l).symm hsmall
  | destroyChain c =>
    obtain ⟨l, hl, rfl⟩ := Option.map_eq_some_iff.mp ha
    refine hs.dropped rfl (refs_setChain (get_of_chain? hl) _ none) (fun t ht => ?_) hsmall
    rcases live_setChain ht with ht | ht
    · exact Or.inl ht
    · cases ht

/-! ## 6. Every run -/

/-- **Every step is safe.** -/
theorem Sound.step {h h' : Heap} (hs : h.Sound) {a : Action} (ha : h.step a = some h') :
    h.Safe h' := by
  obtain ⟨hact, hsmall⟩ := Option.filter_eq_some_iff.mp ha
  exact hs.act hact (of_decide_eq_true hsmall)

theorem sound_reachable {blockSize : Nat} {h : Heap} (hr : (machine blockSize).Reachable h) :
    h.Sound :=
  hr.invariant (init_sound blockSize) fun _ _ _ _ hs ha => (hs.step ha).1

/-- A slice is there all along a run. -/
def Lasts (blockSize : Nat) (s : BufferSlice) (h : Heap) (as : List Action) : Prop :=
  ∀ as₁ as₂ g, as = as₁ ++ as₂ → (machine blockSize).run h as₁ = some g → s ∈ g.live

/-- **A slice shows the same bytes along every run that keeps it.** By induction on the run, one
    step at a time. -/
theorem Sound.run {blockSize : Nat} {s : BufferSlice} {as : List Action} {h h' : Heap}
    (hs : h.Sound) (hr : (machine blockSize).run h as = some h') (hl : Lasts blockSize s h as) :
    h'.pool.view s = h.pool.view s := by
  induction as generalizing h with
  | nil =>
    cases hr
    rfl
  | cons a as ih =>
    obtain ⟨g, hstep, hrun⟩ := Machine.run_cons.mp hr
    obtain ⟨hg, hview⟩ := hs.step hstep
    have hrest : Lasts blockSize s g as := by
      intro as₁ as₂ g' hsplit hg'
      exact hl (a :: as₁) as₂ g' (congrArg (a :: ·) hsplit) (Machine.run_cons.mpr ⟨g, hstep, hg'⟩)
    have h0 : s ∈ h.live := hl [] (a :: as) h rfl rfl
    have h1 : s ∈ g.live := hrest [] as g rfl rfl
    rw [ih hg hrun hrest, hview s h0 h1]

/-- **Shared blocks.** In every heap that operations lead to, a block outside the free list counts
    the deque entries and slices that hold it and a block in the free list counts one; a block is
    in the free list, once, exactly when nothing holds it; and as long as a slice is there it
    shows the same bytes. -/
theorem shared_blocks {blockSize : Nat} {h : Heap} (hr : (machine blockSize).Reachable h) :
    (∀ b < h.pool.allocated,
      (b ∉ h.pool.free → (h.pool.block b).refcount = h.refs.count b) ∧
      (b ∈ h.pool.free → (h.pool.block b).refcount = 1) ∧
      h.pool.free.count b = if h.refs.count b = 0 then 1 else 0) ∧
    (∀ b, h.pool.allocated ≤ b → b ∉ h.pool.free ∧ b ∉ h.refs) ∧
    ∀ s as h', (machine blockSize).run h as = some h' → Lasts blockSize s h as →
      h'.pool.view s = h.pool.view s := by
  have hs := sound_reachable hr
  have hc := hs.counted
  refine ⟨fun b hb => ⟨fun hfree => ?_, hc.idle b, ?_⟩, fun b hb => ⟨fun hfree => ?_, ?_⟩,
    fun s as h' hrun hlasts => hs.run hrun hlasts⟩
  · have hpos : h.refs.count b ≠ 0 := fun h0 => hfree ((hc.free b).mpr ⟨hb, h0⟩)
    exact hc.held b (Nat.pos_of_ne_zero hpos)
  · by_cases h0 : h.refs.count b = 0
    · rw [if_pos h0]
      exact List.count_eq_one_of_mem hc.nodup ((hc.free b).mpr ⟨hb, h0⟩)
    · rw [if_neg h0]
      exact List.count_eq_zero_of_not_mem fun hfree => h0 ((hc.free b).mp hfree).2
  · have := ((hc.free b).mp hfree).1
    omega
  · intro hmem
    have h0 := hc.unborn b hb
    have hpos := List.count_pos_iff.mpr hmem
    omega

/-- A buffer is filled, a slice of two bytes is taken from its front. -/
def sliceTaken : List Action := [.newBuffer, .append 0 [1, 2, 3], .slicePrefix 0 2]

/-- Its buffer writes behind the slice and is cleared; another buffer comes, fills blocks and
    goes. -/
def aroundSlice : List Action :=
  [.append 0 [4, 5], .clear 0, .newBuffer, .append 1 [7, 7, 7, 7, 7], .destroyBuffer 1]

/-- The heap with the slice. -/
def withSlice : Heap := ((machine 4).run (init 4) sliceTaken).getD (init 4)

/-- The heap after that, in which only the slice is left of the first buffer's bytes. -/
def sliceLeft : Heap := ((machine 4).run withSlice aroundSlice).getD withSlice

theorem withSlice_reachable : (machine 4).Reachable withSlice := by
  have hrun : (machine 4).run (init 4) sliceTaken = some withSlice := rfl
  exact Machine.reachable_of_run hrun

theorem withSlice_lasts : Lasts 4 ⟨some 0, 0, 2⟩ withSlice aroundSlice := by
  intro as₁ as₂ g hsplit hrun
  have hall : ∀ as₁ ∈ aroundSlice.inits, ((machine 4).run withSlice as₁).all
      fun g => decide ((⟨some 0, 0, 2⟩ : BufferSlice) ∈ g.live) := by decide +kernel
  have hmem : as₁ ∈ aroundSlice.inits := (List.mem_inits as₁ aroundSlice).mpr ⟨as₂, hsplit.symm⟩
  have := hall as₁ hmem
  rw [hrun] at this
  exact of_decide_eq_true this

/-- The block of the slice is counted twice while its buffer holds it too and once when only the
    slice does, and the slice shows `1, 2` before and after. -/
theorem shared_blocks_withSlice :
    withSlice.pool.view ⟨some 0, 0, 2⟩ = [1, 2] ∧
    (withSlice.pool.block 0).refcount = withSlice.refs.count 0 ∧ withSlice.refs.count 0 = 2 ∧
    (machine 4).run withSlice aroundSlice = some sliceLeft ∧
    (sliceLeft.pool.block 0).refcount = 1 ∧ sliceLeft.refs.count 0 = 1 ∧
    sliceLeft.pool.view ⟨some 0, 0, 2⟩ = [1, 2] := by
  have hview : withSlice.pool.view ⟨some 0, 0, 2⟩ = [1, 2] := by decide +kernel
  have hrun : (machine 4).run withSlice aroundSlice = some sliceLeft := rfl
  obtain ⟨hcount, _, hkeep⟩ := shared_blocks withSlice_reachable
  refine ⟨hview, (hcount 0 (by decide +kernel)).1 (by decide +kernel), by decide +kernel, hrun,
    by decide +kernel, by decide +kernel, ?_⟩
  rw [hkeep _ _ sliceLeft hrun withSlice_lasts, hview]

/-- **A free block is counted once though nothing holds it**: `reset` leaves the count at one. -/
theorem free_block_counted :
    ¬ ∀ h, (machine 4).Reachable h →
      ∀ b < h.pool.allocated, (h.pool.block b).refcount = h.refs.count b := by
  intro hall
  have hrun : ((machine 4).run (init 4) [.newBuffer, .append 0 [1], .clear 0]).all
      (fun h => decide ((h.pool.block 0).refcount = 1 ∧ h.refs.count 0 = 0 ∧
        0 < h.pool.allocated)) := by decide +kernel
  have hsome : ((machine 4).run (init 4) [.newBuffer, .append 0 [1], .clear 0]).isSome := by
    decide +kernel
  obtain ⟨h, hh⟩ := Option.isSome_iff_exists.mp hsome
  rw [hh] at hrun
  obtain ⟨h1, h0, hborn⟩ := of_decide_eq_true hrun
  have := hall h (Machine.reachable_of_run hh) 0 hborn
  omega

end Heap

end RedisProxy.Shared
