/-
  File:      RedisProxy/Buffer/Contents.lean
  Subject:   WHAT THE BUFFERS ON A POOL HOLD, read through the shared blocks.

  * `IoBuffer.content` -- the unread bytes of the blocks of a deque;
  * `IoBuffer.Turns` -- what one operation of a buffer does: its own content becomes `q`, in blocks
    it had or nobody held, and the blocks of others stay as they are. One lemma for each operation
    (section 3).
-/
import RedisProxy.Buffer.Pool

namespace RedisProxy.Shared

open BlockPool

/-! ## 1. Blocks that stay as they are -/

namespace BufferBlock

/-- A block without its count. -/
def body (k : BufferBlock) := (k.data, k.beginPos, k.endPos)

/-- The bytes that were written and not consumed. -/
def unread (k : BufferBlock) : Bytes := (k.data.take k.endPos).drop k.beginPos

/-- The cursors are in order and inside the block. -/
def Ordered (k : BufferBlock) : Prop := k.beginPos ≤ k.endPos ∧ k.endPos ≤ k.data.length

theorem unread_of_body {k k' : BufferBlock} (h : k'.body = k.body) : k'.unread = k.unread := by
  simp only [body, Prod.mk.injEq] at h
  obtain ⟨hd, hb, he⟩ := h
  rw [unread, unread, hd, hb, he]

theorem ordered_of_body {k k' : BufferBlock} (h : k'.body = k.body) (ho : k.Ordered) :
    k'.Ordered := by
  simp only [body, Prod.mk.injEq] at h
  obtain ⟨hd, hb, he⟩ := h
  rw [Ordered, hd, hb, he]
  exact ho

theorem length_unread {k : BufferBlock} (h : k.Ordered) : k.unread.length = k.size := by
  rw [unread, size, List.length_drop, List.length_take, Nat.min_eq_left h.2]

/-- What is written comes behind what is unread. -/
theorem unread_write {k : BufferBlock} (h : k.Ordered) (d : Bytes) :
    (k.write d).unread = k.unread ++ d := by
  have hlen : (k.data.take k.endPos).length = k.endPos := by
    rw [List.length_take, Nat.min_eq_left h.2]
  have hlen' : (k.data.take k.endPos ++ d).length = k.endPos + d.length := by
    rw [List.length_append, hlen]
  have htake : (k.data.take k.endPos ++ d ++ k.data.drop (k.endPos + d.length)).take
      (k.endPos + d.length) = k.data.take k.endPos ++ d := by
    rw [List.take_append_of_le_length (Nat.le_of_eq hlen'.symm),
      List.take_of_length_le (Nat.le_of_eq hlen')]
  rw [unread, write, htake, List.drop_append_of_le_length (by rw [hlen]; exact h.1)]
  rfl

/-- `consume` takes from the front. -/
theorem unread_consume (k : BufferBlock) (n : Nat) :
    (k.consume n).unread = k.unread.drop n := by
  rw [unread, unread, consume, List.drop_drop]
  rcases Nat.le_total k.endPos (k.beginPos + n) with hle | hle
  · have hlen : (k.data.take k.endPos).length ≤ k.endPos := List.length_take_le _ _
    rw [Nat.min_eq_left hle, List.drop_of_length_le hlen,
      List.drop_of_length_le (Nat.le_trans hlen hle)]
  · rw [Nat.min_eq_right hle]

end BufferBlock

namespace BlockPool

theorem Tidy.ordered {p : BlockPool} (h : p.Tidy) (b : Nat) : (p.block b).Ordered :=
  ⟨(h b).1, (h b).2.1⟩

/-- Counting changes no bytes. -/
theorem body_retainAll (p : BlockPool) (l : List Nat) (x : Nat) :
    ((p.retainAll l).block x).body = (p.block x).body := by
  induction l generalizing p with
  | nil => rfl
  | cons b l ih =>
    rw [retainAll_cons, ih, retain, block_set]
    split
    · rename_i h
      rw [h]
      rfl
    · rfl

/-- `release` touches one block. -/
theorem block_release_of_ne (p : BlockPool) {b x : Nat} (h : x ≠ b) :
    (p.release b).block x = p.block x := by
  have hset : ∀ k, (p.set b k).block x = p.block x := fun k => by rw [block_set, if_neg h]
  have hrecycle : ∀ k, ((p.set b k).recycle b).block x = p.block x := fun k => by
    rw [recycle]
    show ((p.set b k).set b _).block x = _
    rw [block_set, if_neg h, hset]
  simp only [release]
  split
  · exact hrecycle _
  · exact hset _

/-- A block that stays held is not recycled. -/
theorem body_release {p : BlockPool} {c : Nat → Nat} (h : p.Counted c) {b : Nat} (hb : 1 < c b)
    (hlimit : c b < 2 ^ 32) (x : Nat) : ((p.release b).block x).body = (p.block x).body := by
  have hr : ((p.block b).refcount + (2 ^ 32 - 1)) % 2 ^ 32 = c b - 1 := by
    rw [h.held b (by omega), show c b + (2 ^ 32 - 1) = (c b - 1) + 2 ^ 32 by omega,
      Nat.add_mod_right]
    exact Nat.mod_eq_of_lt (by omega)
  have hrel : p.release b = p.set b { p.block b with refcount := c b - 1 } := by
    simp only [release, hr]
    rw [if_neg (by omega)]
  rw [hrel, block_set]
  split
  · rename_i hx
    rw [hx]
    rfl
  · rfl

/-- What is still held after many releases stays as it is. -/
theorem body_releaseAll {l : List Nat} {p : BlockPool} {c : Nat → Nat} (h : p.Counted c)
    (ht : p.Tidy) (hl : ∀ b, l.count b ≤ c b) (hlimit : ∀ b, c b < 2 ^ 32) {x : Nat}
    (hx : l.count x < c x) : ((p.releaseAll l).block x).body = (p.block x).body := by
  induction l generalizing p c with
  | nil => rfl
  | cons b l ih =>
    have hcons : ∀ x, (b :: l).count x = one b x + l.count x := by
      intro x
      rw [one_eq_count, ← List.count_append]
      rfl
    have hb := hl b
    rw [hcons, one, if_pos rfl] at hb
    have h1 := moves_release h ht (b := b) (by omega) (hlimit b)
    rw [releaseAll_cons]
    refine (ih h1.counted h1.tidy (fun y => ?_) (fun y => ?_) ?_).trans ?_
    · have := hl y
      rw [hcons] at this
      omega
    · exact Nat.lt_of_le_of_lt (Nat.sub_le _ _) (hlimit y)
    · rw [hcons] at hx
      omega
    · by_cases hxb : x = b
      · subst hxb
        rw [hcons, one, if_pos rfl] at hx
        exact body_release h (by omega) (hlimit x) x
      · rw [block_release_of_ne p hxb]

theorem block_acquire_of_ne (p : BlockPool) {x : Nat} (h : x ≠ p.acquire.1) :
    p.acquire.2.block x = p.block x := by
  unfold acquire at h ⊢
  split at h <;> simp only [block_set, if_neg h]

end BlockPool

/-! ## 2. What a buffer holds -/

namespace IoBuffer

/-- The unread bytes of the blocks, in order. -/
def content (p : BlockPool) (x : IoBuffer) : Bytes := x.blocks.flatMap fun b => (p.block b).unread

/-- The content depends on the bytes of the blocks only. -/
theorem content_congr {p p' : BlockPool} {x : IoBuffer}
    (h : ∀ b ∈ x.blocks, (p'.block b).body = (p.block b).body) : x.content p' = x.content p :=
  List.flatMap_congr fun b hb => BufferBlock.unread_of_body (h b hb)

/-- The buffer holds `q`, in blocks that are each in it once. -/
structure Holds (p : BlockPool) (x : IoBuffer) (q : Bytes) : Prop where
  content : x.content p = q
  count : x.readableBytes = q.length
  nodup : x.blocks.Nodup

/-- **An operation of a buffer** on a pool where block `b` is held `c b` times: the buffer holds
    `q` after it, in blocks it had or nobody held, and the blocks of others stay as they are. -/
structure Turns (p : BlockPool) (c : Nat → Nat) (x : IoBuffer) (q : Bytes) (p' : BlockPool)
    (x' : IoBuffer) : Prop where
  holds : x'.Holds p' q
  own : ∀ b ∈ x'.blocks, b ∈ x.blocks ∨ c b = 0
  others : ∀ b, b ∉ x.blocks → 0 < c b → (p'.block b).body = (p.block b).body

theorem Holds.turns {p : BlockPool} {x : IoBuffer} {q : Bytes} (h : x.Holds p q) (c : Nat → Nat) :
    Turns p c x q p x := ⟨h, fun _ hb => Or.inl hb, fun _ _ _ => rfl⟩

/-- Two operations in a row. -/
theorem Turns.trans {p p₁ p₂ : BlockPool} {c c₁ : Nat → Nat} {x x₁ x₂ : IoBuffer} {q q' : Bytes}
    (h : Turns p c x q p₁ x₁) (h' : Turns p₁ c₁ x₁ q' p₂ x₂) (hc : ∀ b, c b ≤ c₁ b) :
    Turns p c x q' p₂ x₂ := by
  refine ⟨h'.holds, fun b hb => ?_, fun b hb hpos => ?_⟩
  · rcases h'.own b hb with hb | hb
    · exact h.own b hb
    · have := hc b
      exact Or.inr (by omega)
  · have hb₁ : b ∉ x₁.blocks := fun hin => (h.own b hin).elim hb (by omega)
    have := hc b
    exact (h'.others b hb₁ (by omega)).trans (h.others b hb hpos)

/-! ## 3. The operations -/

section Turns

variable {p : BlockPool} {c : Nat → Nat} {x : IoBuffer} {q : Bytes}

theorem beside_pos {l : List Nat} {b : Nat} (hb : b ∈ l) : 0 < beside c l b := by
  have := List.count_pos_iff.mpr hb
  simp only [beside]
  omega

/-- `reserveWritable` leaves the content as it is. -/
theorem turns_reserve (hx : x.Holds p q) (h : p.Counted (beside c x.blocks)) (ht : p.Tidy) :
    Turns p (beside c x.blocks) x q (x.reserveWritable p).1 (x.reserveWritable p).2 := by
  unfold reserveWritable
  split
  · obtain ⟨hfree, hempty, _⟩ := moves_acquire h ht
    have hne : ∀ b, 0 < beside c x.blocks b → b ≠ p.acquire.1 := by
      rintro b hb rfl
      omega
    have hnew : (p.acquire.2.block p.acquire.1).unread = [] := by
      rw [BufferBlock.unread, hempty, List.take_zero, List.drop_nil]
    refine ⟨⟨?_, hx.count, ?_⟩, fun b hb => ?_, fun b _ hpos => ?_⟩
    · show (x.blocks ++ [p.acquire.1]).flatMap _ = q
      rw [List.flatMap_append, List.flatMap_singleton, hnew, List.append_nil]
      refine (content_congr fun b hb => ?_).trans hx.content
      rw [block_acquire_of_ne p (hne b (beside_pos hb))]
    · refine List.nodup_append.mpr ⟨hx.nodup, List.nodup_singleton _, ?_⟩
      rintro b hb b' hb' rfl
      exact hne b (beside_pos hb) (List.mem_singleton.mp hb')
    · rcases List.mem_append.mp hb with hb | hb
      · exact Or.inl hb
      · rw [List.mem_singleton.mp hb]
        exact Or.inr hfree
    · rw [block_acquire_of_ne p (hne b hpos)]
  · exact hx.turns _

/-- **`commitWrite` puts the bytes behind the content.** -/
theorem turns_commit (hx : x.Holds p q) (ht : p.Tidy) {d : Bytes} (hd : d.length ≤ x.writable p)
    (c : Nat → Nat) :
    Turns p c x (q ++ d) (x.commitWrite p d).1 (x.commitWrite p d).2 := by
  unfold writable at hd
  unfold commitWrite
  cases hlast : x.blocks.getLast? with
  | none =>
    rw [hlast] at hd
    obtain rfl : d = [] := List.eq_nil_of_length_eq_zero (Nat.le_zero.mp hd)
    rw [List.append_nil]
    exact hx.turns c
  | some b =>
    have hsplit : x.blocks = x.blocks.dropLast ++ [b] :=
      (List.dropLast_append_getLast? b hlast).symm
    have hgone : ∀ y ∈ x.blocks.dropLast, y ≠ b := by
      have hnodup := hx.nodup
      rw [hsplit] at hnodup
      rintro y hy rfl
      exact (List.nodup_append.mp hnodup).2.2 y hy y (List.mem_singleton.mpr rfl) rfl
    refine ⟨⟨?_, ?_, hx.nodup⟩, fun y hy => Or.inl hy, fun y hy _ => ?_⟩
    · have hcontent := hx.content
      unfold content at hcontent ⊢
      show x.blocks.flatMap _ = q ++ d
      rw [hsplit, List.flatMap_append, List.flatMap_singleton] at hcontent ⊢
      rw [← hcontent, List.append_assoc]
      congr 1
      · refine List.flatMap_congr fun y hy => ?_
        rw [block_set, if_neg (hgone y hy)]
      · rw [block_set, if_pos rfl, BufferBlock.unread_write (ht.ordered b)]
    · show x.readableBytes + d.length = (q ++ d).length
      rw [hx.count, List.length_append]
    · have hne : y ≠ b := by
        rintro rfl
        exact hy (hsplit ▸ List.mem_append_right _ (List.mem_singleton.mpr rfl))
      rw [block_set, if_neg hne]

/-- The loop of `append` puts all of them there. By induction on the rounds. -/
theorem turns_appendLoop (fuel : Nat) (p : BlockPool) (x : IoBuffer) {q : Bytes} (d : Bytes)
    {y : BlockPool × IoBuffer} (hx : x.Holds p q) (h : p.Counted (beside c x.blocks)) (ht : p.Tidy)
    (hy : appendLoop fuel p x d = some y) : Turns p (beside c x.blocks) x (q ++ d) y.1 y.2 := by
  induction fuel generalizing p x q d with
  | zero =>
    cases d with
    | nil =>
      cases hy
      rw [List.append_nil]
      exact hx.turns _
    | cons d ds => cases hy
  | succ fuel ih =>
    cases d with
    | nil =>
      cases hy
      rw [List.append_nil]
      exact hx.turns _
    | cons d ds =>
      simp only [appendLoop] at hy
      generalize hn : min ((x.reserveWritable p).2.writable (x.reserveWritable p).1)
        (d :: ds).length = n at hy
      have hd : ((d :: ds).take n).length ≤
          (x.reserveWritable p).2.writable (x.reserveWritable p).1 := by
        rw [List.length_take]
        omega
      have h1 := moves_reserve x h ht
      have h2 := moves_commit (x.reserveWritable p).2 h1.counted h1.tidy hd
      have t1 := turns_reserve hx h ht
      have t2 := turns_commit t1.holds h1.tidy hd (beside c (x.reserveWritable p).2.blocks)
      have t3 := ih _ _ _ t2.holds h2.counted h2.tidy hy
      rw [List.append_assoc, List.take_append_drop] at t3
      -- references are only added, so who was held stays held
      refine (t1.trans t2 fun b => ?_).trans t3 fun b => ?_
      · have := count_reserve x (p := p) b
        simp only [beside]
        omega
      · rw [blocks_commit]
        have := count_reserve x (p := p) b
        simp only [beside]
        omega

/-- A new block has room, so every round of `append` takes a byte. -/
theorem appendLoop_isSome (fuel : Nat) (p : BlockPool) (x : IoBuffer) (d : Bytes)
    (h : p.Counted (beside c x.blocks)) (ht : p.Tidy) (hsize : 0 < p.blockSize)
    (hfuel : d.length ≤ fuel) : (appendLoop fuel p x d).isSome = true := by
  induction fuel generalizing p x d with
  | zero =>
    obtain rfl : d = [] := List.eq_nil_of_length_eq_zero (Nat.le_zero.mp hfuel)
    rfl
  | succ fuel ih =>
    cases d with
    | nil => rfl
    | cons d ds =>
      simp only [appendLoop]
      generalize hn : min ((x.reserveWritable p).2.writable (x.reserveWritable p).1)
        (d :: ds).length = n
      have hpos : 0 < (x.reserveWritable p).2.writable (x.reserveWritable p).1 := by
        unfold reserveWritable
        split
        · obtain ⟨_, hempty, hm⟩ := moves_acquire h ht
          have hcap := (hm.tidy p.acquire.1).2.2
          rw [writable]
          simp only [List.getLast?_concat]
          rw [BufferBlock.writableBytes, hempty, hcap, hm.size]
          exact hsize
        · rename_i hw
          exact Nat.pos_of_ne_zero hw
      have hd : ((d :: ds).take n).length ≤
          (x.reserveWritable p).2.writable (x.reserveWritable p).1 := by
        rw [List.length_take]
        omega
      have h1 := moves_reserve x h ht
      have h2 := moves_commit (x.reserveWritable p).2 h1.counted h1.tidy hd
      refine ih _ _ _ h2.counted h2.tidy (by rw [h2.size, h1.size]; exact hsize) ?_
      rw [List.length_cons] at hfuel hn
      rw [List.length_drop, List.length_cons]
      omega

/-- The loop of `consume`: the first `n` bytes go, with the blocks they emptied, and no other block
    is touched. -/
theorem consumeLoop_spec (p : BlockPool) (l : List Nat) (n : Nat) (hnodup : l.Nodup)
    (ho : ∀ b ∈ l, (p.block b).Ordered) :
    ((consumeLoop p l n).2.flatMap fun b => ((consumeLoop p l n).1.block b).unread) =
        (l.flatMap fun b => (p.block b).unread).drop n ∧
      (consumeLoop p l n).2 <:+ l ∧
      ∀ b, b ∉ l → (consumeLoop p l n).1.block b = p.block b := by
  fun_induction consumeLoop p l n with
  | case1 p n => exact ⟨(List.drop_nil).symm, List.suffix_refl _, fun _ _ => rfl⟩
  | case2 p b bs => exact ⟨rfl, List.suffix_refl _, fun _ _ => rfl⟩
  | case3 p b bs n take p' hsize ih =>
    obtain ⟨hnot, hnodup'⟩ := List.nodup_cons.mp hnodup
    have hb := ho b List.mem_cons_self
    have hsame : ∀ y, y ≠ b → (p'.release b).block y = p.block y := by
      intro y hy
      rw [block_release_of_ne p' hy]
      exact if_neg hy
    have hrest : ∀ y ∈ bs, (p'.release b).block y = p.block y := fun y hy =>
      hsame y fun heq => hnot (heq ▸ hy)
    obtain ⟨hcontent, hsuffix, hframe⟩ := ih hnodup' fun y hy => by
      rw [hrest y hy]
      exact ho y (List.mem_cons_of_mem _ hy)
    refine ⟨?_, hsuffix.trans (List.suffix_cons b bs), fun y hy => ?_⟩
    · -- the block was emptied, so it held no more than what it took
      have hk : (p'.block b).size = (p.block b).size - take := by
        show ((p.set b ((p.block b).consume take)).block b).size = _
        rw [block_set, if_pos rfl]
        simp only [BufferBlock.size, BufferBlock.consume]
        omega
      have htake : (p.block b).unread.length = take := by
        rw [BufferBlock.length_unread hb]
        have : take ≤ (p.block b).size := Nat.min_le_right _ _
        omega
      have hle : (p.block b).unread.length ≤ n + 1 := by
        rw [htake]
        exact Nat.min_le_left _ _
      rw [hcontent, List.flatMap_cons, List.drop_append, List.drop_of_length_le hle,
        List.nil_append, htake]
      refine congrArg (List.drop (n + 1 - take)) (List.flatMap_congr fun y hy => ?_)
      rw [hrest y hy]
    · rw [List.mem_cons, not_or] at hy
      rw [hframe y hy.2, hsame y hy.1]
  | case4 p b bs n take p' hsize =>
    obtain ⟨hnot, _⟩ := List.nodup_cons.mp hnodup
    have hb := ho b List.mem_cons_self
    refine ⟨?_, List.suffix_refl _, fun y hy => ?_⟩
    · -- bytes are left, so the block took all of `n`
      have hk : (p'.block b).size = (p.block b).size - take := by
        show ((p.set b ((p.block b).consume take)).block b).size = _
        rw [block_set, if_pos rfl]
        simp only [BufferBlock.size, BufferBlock.consume]
        omega
      have htake : take = min (n + 1) (p.block b).size := rfl
      have hall : take = n + 1 := by omega
      have hle : n + 1 ≤ (p.block b).unread.length := by
        rw [BufferBlock.length_unread hb]
        omega
      have hfirst : (p'.block b).unread = (p.block b).unread.drop (n + 1) := by
        show ((p.set b ((p.block b).consume take)).block b).unread = _
        rw [block_set, if_pos rfl, BufferBlock.unread_consume, hall]
      rw [List.flatMap_cons, List.flatMap_cons, hfirst, List.drop_append_of_le_length hle]
      refine congrArg (List.drop (n + 1) (p.block b).unread ++ ·)
        (List.flatMap_congr fun y hy => ?_)
      show ((p.set b _).block y).unread = _
      have hne : y ≠ b := fun heq => hnot (heq ▸ hy)
      rw [block_set, if_neg hne]
    · rw [List.mem_cons, not_or] at hy
      exact if_neg hy.1

/-- **`consume` drops them from the front.** -/
theorem turns_consume (hx : x.Holds p q) (ho : ∀ b, (p.block b).Ordered) (n : Nat)
    (c : Nat → Nat) :
    Turns p c x (q.drop (min n q.length)) (x.consume p n).1 (x.consume p n).2 := by
  obtain ⟨hcontent, hsuffix, hframe⟩ := consumeLoop_spec p x.blocks (min n x.readableBytes)
    hx.nodup fun b _ => ho b
  refine ⟨⟨?_, ?_, hx.nodup.sublist hsuffix.sublist⟩, fun b hb => Or.inl (hsuffix.subset hb),
    fun b hb _ => congrArg _ (hframe b hb)⟩
  · refine hcontent.trans ?_
    rw [hx.count]
    exact congrArg (List.drop (min n q.length)) hx.content
  · show x.readableBytes - min n x.readableBytes = _
    rw [hx.count, List.length_drop]

/-- The slices of a prefix show its bytes. -/
theorem view_prefixSlices (ht : p.Tidy) (l : List Nat) (n : Nat) :
    (prefixSlices p l n).flatMap p.view = (l.flatMap fun b => (p.block b).unread).take n := by
  induction l generalizing n with
  | nil => exact List.take_nil.symm
  | cons b bs ih =>
    have hlen := BufferBlock.length_unread (ht.ordered b)
    have hview : p.view ⟨some b, (p.block b).beginPos, min n (p.block b).size⟩ =
        (p.block b).unread.take n := by
      rw [BufferBlock.unread, List.drop_take, List.take_take]
      rfl
    rw [prefixSlices, List.flatMap_cons, List.flatMap_cons, hview, List.take_append, hlen]
    congr 1
    split
    · rename_i hdone
      have : n - (p.block b).size = 0 := by omega
      rw [this]
      rfl
    · rw [ih]
      exact congrArg (fun m => List.take m _) (by omega)

/-- `slicePrefix` without its slices is `consume`. -/
theorem turns_slicePrefix (hx : x.Holds p q) (ht : p.Tidy) (n : Nat) (c : Nat → Nat) :
    Turns p c x (q.drop (min n q.length)) (x.slicePrefix p n).2.1 (x.slicePrefix p n).2.2 ∧
      (x.slicePrefix p n).1.flatMap p.view = q.take (min n q.length) := by
  unfold slicePrefix
  split
  · rename_i hn
    rw [hn, Nat.zero_min]
    exact ⟨hx.turns c, rfl⟩
  · dsimp only
    generalize hl : (prefixSlices p x.blocks n).flatMap BufferSlice.refs = l
    have hbody := body_retainAll p l
    have hx' : x.Holds (p.retainAll l) q :=
      ⟨(content_congr fun b _ => hbody b).trans hx.content, hx.count, hx.nodup⟩
    have ht' : ∀ b, ((p.retainAll l).block b).Ordered := fun b =>
      BufferBlock.ordered_of_body (hbody b) (ht.ordered b)
    have hturns := turns_consume hx' ht' n c
    refine ⟨⟨hturns.holds, hturns.own, fun b hb hpos => ?_⟩, ?_⟩
    · exact (hturns.others b hb hpos).trans (hbody b)
    · rw [view_prefixSlices ht, ← List.take_eq_take_min]
      exact congrArg (List.take n) hx.content

/-- The slices of a prefix still show its bytes after the buffer consumed them. -/
theorem view_slicePrefix {n : Nat} (h : p.Counted (beside c x.blocks)) (ht : p.Tidy)
    (hlimit : ∀ b, beside c x.blocks b +
      ((x.slicePrefix p n).1.flatMap BufferSlice.refs).count b < 2 ^ 32) {s : BufferSlice}
    (hs : s ∈ (x.slicePrefix p n).1) : (x.slicePrefix p n).2.1.view s = p.view s := by
  obtain ⟨hm, _⟩ := moves_slicePrefix x n h ht hlimit
  have hmem : s ∈ prefixSlices p x.blocks n := by
    unfold slicePrefix at hs
    split at hs
    · cases hs
    · exact hs
  obtain ⟨⟨b', hb', hsb⟩, hin⟩ := mem_prefixSlices ht hmem
  refine BlockPool.Kept.view hin fun b hb => hm.kept b ?_ ?_
  · obtain rfl : b = b' := Option.some.inj (hb.symm.trans hsb)
    exact beside_pos hb'
  · have href : b ∈ (x.slicePrefix p n).1.flatMap BufferSlice.refs :=
      List.mem_flatMap.mpr ⟨s, hs, by rw [BufferSlice.refs, hb]; exact List.mem_singleton.mpr rfl⟩
    have := List.count_pos_iff.mpr href
    omega

/-- `clear` leaves nothing. -/
theorem turns_clear (h : p.Counted (beside c x.blocks)) (ht : p.Tidy)
    (hlimit : ∀ b, beside c x.blocks b < 2 ^ 32) :
    Turns p (beside c x.blocks) x [] (x.clear p).1 (x.clear p).2 := by
  refine ⟨⟨rfl, rfl, List.nodup_nil⟩, nofun, fun b hb hpos => ?_⟩
  refine body_releaseAll h ht (fun y => ?_) hlimit ?_
  · simp only [beside]
    omega
  · rw [List.count_eq_zero_of_not_mem hb]
    exact hpos

end Turns

end IoBuffer

end RedisProxy.Shared
