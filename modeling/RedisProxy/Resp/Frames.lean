/-
  File:      RedisProxy/Resp/Frames.lean
  Subject:   THE FRAMES OF A STREAM, and that `RespParser` finds them.

  `firstValue` is what the first value of a stream is, said without the parser's arena: at most
  `maxBytes` long, and read with a slot for every byte. `firstFrame` asks in addition that it is a
  command. Under `UnpackOneSpec` both read piece by piece (section 1), and every answer of
  `RespParser::unpack` and `peekFrame` is theirs, whatever arena earlier calls left (section 2):
  only an error may be found later than it could be, when the arena is still too small to see it.
  `nextReplyFrame_split` says the same of `nextReplyFrame`.
-/
import RedisProxy.Resp.Parser
import RedisProxy.Lib.Incremental

namespace RedisProxy

open Lib

/-! ## 1. The first value of a stream -/

/-- **The first value of a stream.** -/
def firstValue (U : UnpackOne) (limits : RespLimits) (maxBytes : Nat) : Reader UInt8 RespValue :=
  fun i =>
    let r := U (i.take maxBytes) ((i.take maxBytes).length + 1) limits
    match r.status, r.value with
    | .kOk, some v => .done v r.consumed
    | .kOk, none => .bad
    | .kError, _ => .bad
    | _, _ => if maxBytes ≤ i.length then .bad else .more

/-- **The first command of a stream**: its first value, a non-empty array of strings. -/
def firstFrame (U : UnpackOne) (limits : RespLimits) (maxBytes : Nat) :
    Reader UInt8 RespFrameInfo := fun i =>
  match firstValue U limits maxBytes i with
  | .done v k =>
      match RespParser.extractCommandInfo v with
      | some (name, argc) => .done ⟨k, name, argc⟩ k
      | none => .bad
  | .more => .more
  | .bad => .bad

section FirstValue

variable {U : UnpackOne} {limits : RespLimits} {maxBytes : Nat}

/-- A value is there exactly when the decoder, given a slot for every byte, finds one. -/
theorem firstValue_done {i : Bytes} {v : RespValue} {k : Nat} :
    firstValue U limits maxBytes i = .done v k ↔
      U (i.take maxBytes) ((i.take maxBytes).length + 1) limits = ⟨.kOk, k, some v⟩ := by
  unfold firstValue
  dsimp only
  constructor
  · intro h
    split at h
    · rename_i v' hs hv
      obtain ⟨rfl, rfl⟩ := Progress.done.inj h
      generalize U (i.take maxBytes) ((i.take maxBytes).length + 1) limits = r at *
      cases r
      cases hs
      cases hv
      rfl
    · cases h
    · cases h
    · split at h <;> cases h
  · intro h
    rw [h]

/-- **The first value of a stream does not depend on how it is cut**: what was found stays found
    when more bytes come, and what was wrong stays wrong. -/
theorem incremental_firstValue (hU : UnpackOneSpec U) (limits : RespLimits) (maxBytes : Nat) :
    Incremental (firstValue U limits maxBytes) where
  used_le {i v k} h := by
    have hr := firstValue_done.mp h
    have hle := (hU.ok_consumed _ _ _ (by rw [hr])).2
    rw [hr, List.length_take] at hle
    dsimp only at hle
    omega
  done {i v k} h {j} hj := by
    have hr := firstValue_done.mp h
    have hok : (U (i.take maxBytes) ((i.take maxBytes).length + 1) limits).status = .kOk := by
      rw [hr]
    have hle : k ≤ (i.take maxBytes).length := by
      have := (hU.ok_consumed _ _ _ hok).2
      rwa [hr] at this
    rw [List.length_take] at hle
    have hik : (i.take k).length = k := List.length_take_of_le (by omega)
    have hkj : k ≤ j.length := by
      have := hj.length_le
      rwa [hik] at this
    have htake : (j.take maxBytes).take k = (i.take maxBytes).take k := by
      rw [List.take_take, List.take_take, Nat.min_eq_left (by omega)]
      have := List.prefix_iff_eq_take.mp hj
      rw [hik] at this
      exact this.symm
    have hlocal := hU.ok_local _ _ _ hok (j.take maxBytes)
    rw [hr] at hlocal
    have hj' := hlocal (by rw [List.length_take]; dsimp only; omega) htake
    refine firstValue_done.mpr ?_
    rw [hU.slots.enough (s := (i.take maxBytes).length + 1) (by rw [hj']) (by omega), hj']
  bad {i} h x := by
    -- the stream cut to its limit grows by some `y`, and not at all at the limit
    obtain ⟨y, hy⟩ : ∃ y, (i ++ x).take maxBytes = i.take maxBytes ++ y := by
      rw [List.take_append]
      exact ⟨_, rfl⟩
    have hfull : maxBytes ≤ i.length → (i ++ x).take maxBytes = i.take maxBytes := fun hle =>
      List.take_append_of_le_length hle
    unfold firstValue at h ⊢
    dsimp only at h ⊢
    split at h
    · cases h
    · rename_i hs hv
      obtain ⟨v, hv'⟩ := hU.ok_value _ _ _ hs
      rw [hv] at hv'
      cases hv'
    · rename_i hs
      have herr := hU.error_stable _ _ _ hs y
      rw [← hy] at herr
      have hmono := hU.slots_mono _ _ _ (by rw [herr]; decide)
        (((i ++ x).take maxBytes).length + 1) (by rw [hy, List.length_append]; omega)
      rw [hmono, herr]
    · rename_i hok herr
      split at h
      · rename_i hle
        rw [hfull hle]
        split
        · rename_i v hs hv
          exact absurd hv (hok v hs)
        · rfl
        · rfl
        · rw [if_pos (by rw [List.length_append]; omega)]
      · cases h

/-- A value takes at least one byte. -/
theorem advances_firstValue (hU : UnpackOneSpec U) (limits : RespLimits) (maxBytes : Nat) :
    Advances (firstValue U limits maxBytes) := by
  intro i v k h
  have hr := firstValue_done.mp h
  have hpos := (hU.ok_consumed _ _ _ (by rw [hr])).1
  rw [hr] at hpos
  exact hpos

/-- A command is a value with a name and arguments. -/
theorem firstFrame_done {i : Bytes} {info : RespFrameInfo} {k : Nat} :
    firstFrame U limits maxBytes i = .done info k ↔
      ∃ v, firstValue U limits maxBytes i = .done v k ∧
        RespParser.extractCommandInfo v = some (info.commandName, info.argc) ∧
        info.consumed = k := by
  unfold firstFrame
  constructor
  · intro h
    split at h
    · rename_i v k' hv
      split at h
      · rename_i name argc he
        cases h
        exact ⟨v, hv, he, rfl⟩
      · cases h
    · cases h
    · cases h
  · rintro ⟨v, hv, he, rfl⟩
    rw [hv]
    dsimp only
    rw [he]

/-- A stream is broken at its first value, or at one that is no command. -/
theorem firstFrame_bad {i : Bytes} : firstFrame U limits maxBytes i = .bad ↔
    firstValue U limits maxBytes i = .bad ∨
      ∃ v k, firstValue U limits maxBytes i = .done v k ∧ RespParser.extractCommandInfo v = none := by
  unfold firstFrame
  cases hv : firstValue U limits maxBytes i with
  | done v k => cases he : RespParser.extractCommandInfo v <;> simp [he]
  | more => simp
  | bad => simp

/-- The first command does not depend on how the stream is cut either. -/
theorem incremental_firstFrame (hU : UnpackOneSpec U) (limits : RespLimits) (maxBytes : Nat) :
    Incremental (firstFrame U limits maxBytes) where
  used_le {i info k} h := by
    obtain ⟨v, hv, _⟩ := firstFrame_done.mp h
    exact (incremental_firstValue hU limits maxBytes).used_le hv
  done {i info k} h {j} hj := by
    obtain ⟨v, hv, he⟩ := firstFrame_done.mp h
    exact firstFrame_done.mpr ⟨v, (incremental_firstValue hU limits maxBytes).done hv hj, he⟩
  bad {i} h x := by
    rcases firstFrame_bad.mp h with hb | ⟨v, k, hv, he⟩
    · exact firstFrame_bad.mpr (Or.inl ((incremental_firstValue hU limits maxBytes).bad hb x))
    · exact firstFrame_bad.mpr
        (Or.inr ⟨v, k, (incremental_firstValue hU limits maxBytes).done_append hv x, he⟩)

theorem advances_firstFrame (hU : UnpackOneSpec U) (limits : RespLimits) (maxBytes : Nat) :
    Advances (firstFrame U limits maxBytes) := by
  intro i info k h
  obtain ⟨v, hv, _⟩ := firstFrame_done.mp h
  exact advances_firstValue hU limits maxBytes hv

end FirstValue

/-! ## 2. What the parser answers -/

namespace RespParser

variable {U : UnpackOne} {p p' : RespParser} {alloc : Nat → Bool} {input : Bytes} {r : RespResult}

/-- **A value `unpack` returns is the first of the stream**, whatever arena it used. -/
theorem unpack_done (hU : UnpackOneSpec U) (h : p.unpack U alloc input = some (r, p'))
    (hok : r.status = .kOk) :
    ∃ v, r.value = some v ∧ firstValue U p.limits p.maxFrameBytes input = .done v r.consumed := by
  obtain ⟨slots, rfl⟩ := unpack_ok h hok
  obtain ⟨v, hv⟩ := hU.ok_value _ _ _ hok
  refine ⟨v, hv, firstValue_done.mpr ?_⟩
  rw [hU.slots.enough hok (by omega)]
  generalize U (input.take p.maxFrameBytes) slots p.limits = r at *
  cases r
  cases hok
  cases hv
  rfl

/-- A call that found nothing, with all the slots if it lacked some: nothing is to be found. -/
theorem not_found (hU : UnpackOneSpec U) {i : Bytes} {limits : RespLimits} {slots : Nat}
    (hle : slots ≤ i.length / 3 + 1) (hne : (U i slots limits).status ≠ .kOk)
    (hall : (U i slots limits).status = .kNoMemory → slots = i.length / 3 + 1) :
    (U i (i.length + 1) limits).status ≠ .kOk := by
  intro hok
  have hthird := hU.slots.enough hok (Nat.le_refl _)
  by_cases hnm : (U i slots limits).status = .kNoMemory
  · rw [← hall hnm] at hthird
    rw [hthird, hok] at hne
    exact hne rfl
  · rw [← hU.slots_mono _ _ _ hnm _ hle, hthird, hok] at hne
    exact hne rfl

theorem firstValue_not_done {limits : RespLimits} {maxBytes : Nat}
    (h : (U (input.take maxBytes) ((input.take maxBytes).length + 1) limits).status ≠ .kOk)
    (v : RespValue) (k : Nat) : firstValue U limits maxBytes input ≠ .done v k := by
  intro hd
  rw [firstValue_done.mp hd] at h
  exact h rfl

/-- If `unpack` asks for more bytes there is no value yet. -/
theorem unpack_more (hU : UnpackOneSpec U) (h : p.unpack U alloc input = some (r, p'))
    (hmore : r.status = .kNeedMore) :
    (∀ v k, firstValue U p.limits p.maxFrameBytes input ≠ .done v k) ∧
      (input = [] → firstValue U p.limits p.maxFrameBytes input = .more) := by
  obtain ⟨_, _, ⟨rfl, _⟩ | ⟨slots, hle, hr, hall⟩⟩ := unpack_cases h
  · cases hmore
  · rw [hr] at hmore
    obtain ⟨hstatus, hshort⟩ := settle_more hmore
    have hne : (U (input.take p.maxFrameBytes) slots p.limits).status ≠ .kOk := by
      intro hok
      rw [hok] at hstatus
      rcases hstatus with hs | hs <;> cases hs
    have hnot := not_found hU hle hne hall
    refine ⟨firstValue_not_done hnot, fun hnil => ?_⟩
    subst hnil
    rw [List.take_nil] at hle hshort hstatus hall hnot
    -- nothing is read with one slot, by the parser as well
    have herr : (U [] (([] : Bytes).length + 1) p.limits).status ≠ .kError := by
      rcases hstatus with hs | hs
      · rw [hU.slots_mono _ _ _ (by rw [hs]; decide) (([] : Bytes).length + 1) hle, hs]
        decide
      · rw [show ([] : Bytes).length + 1 = slots from (hall hs).symm, hs]
        decide
    unfold firstValue
    dsimp only
    rw [List.take_nil]
    split
    · rename_i hs _
      exact absurd hs hnot
    · rename_i hs _
      exact absurd hs hnot
    · rename_i hs
      exact absurd hs herr
    · exact if_neg (by omega)

/-- On the empty input both use one slot. -/
theorem answer_nil {limits : RespLimits} {maxBytes : Nat}
    (h : firstFrame U limits maxBytes [] = .more) :
    (answer U limits maxBytes []).status = .kNeedMore := by
  have hmore : firstValue U limits maxBytes [] = .more := by
    unfold firstFrame at h
    split at h
    · split at h <;> cases h
    · assumption
    · cases h
  unfold firstValue at hmore
  unfold answer
  rw [List.take_nil] at hmore ⊢
  dsimp only [List.length_nil, Nat.zero_div, Nat.zero_add] at hmore ⊢
  cases hs : (U [] 1 limits).status with
  | kOk => cases hv : (U [] 1 limits).value <;> rw [hs, hv] at hmore <;> cases hmore
  | kError =>
    rw [hs] at hmore
    cases hmore
  | kNeedMore | kNoMemory =>
    rw [hs] at hmore
    dsimp only at hmore
    split at hmore
    · cases hmore
    · rename_i hpos
      simp [settle, hs, hpos]

/-- An error of `unpack` is one of the stream. -/
theorem unpack_bad (hU : UnpackOneSpec U) (h : p.unpack U alloc input = some (r, p'))
    (hbad : r.status = .kError) : firstValue U p.limits p.maxFrameBytes input = .bad := by
  obtain ⟨_, _, ⟨rfl, _⟩ | ⟨slots, hle, hr, hall⟩⟩ := unpack_cases h
  · cases hbad
  · rw [hr] at hbad
    have hne : (U (input.take p.maxFrameBytes) slots p.limits).status ≠ .kOk := by
      intro hok
      rw [settle_of_ok hok, hok] at hbad
      cases hbad
    have hnot := not_found hU hle hne hall
    unfold firstValue
    dsimp only
    rcases settle_error hbad with herr | hfull
    · have hmono := hU.slots_mono _ _ _ (by rw [herr]; decide)
        ((input.take p.maxFrameBytes).length + 1) (by omega)
      rw [hmono, herr]
    · -- only a frame as long as the limit is turned into an error
      rw [List.length_take] at hfull
      split
      · rename_i hs _
        exact absurd hs hnot
      · rfl
      · rfl
      · exact if_pos (by omega)

/-- `kNoMemory` comes from an arena that could not grow. -/
theorem unpack_noMemory (h : p.unpack U alloc input = some (r, p'))
    (hnm : r.status = .kNoMemory) : ∃ size, alloc size = false := by
  obtain ⟨_, _, ⟨_, hsize⟩ | ⟨slots, _, hr, _⟩⟩ := unpack_cases h
  · exact hsize
  · rw [hr] at hnm
    exact absurd hnm settle_ne_noMemory

/-- **What an answer of `peekFrame` says about the stream from the offset on.** -/
inductive Peeked (U : UnpackOne) (p : RespParser) (alloc : Nat → Bool) (i : Bytes) :
    ParseStatus → Option RespFrameInfo → Prop where
  | found (info : RespFrameInfo)
      (frame : firstFrame U p.limits p.maxFrameBytes i = .done info info.consumed) :
      Peeked U p alloc i .kOk (some info)
  | missing (absent : ∀ info k, firstFrame U p.limits p.maxFrameBytes i ≠ .done info k)
      (empty : i = [] → firstFrame U p.limits p.maxFrameBytes i = .more)
      (answered : (answer U p.limits p.maxFrameBytes i).status = .kNeedMore) :
      Peeked U p alloc i .kNeedMore none
  | refused (bad : firstFrame U p.limits p.maxFrameBytes i = .bad) : Peeked U p alloc i .kError none
  | noMemory (size : Nat) (failed : alloc size = false) : Peeked U p alloc i .kNoMemory none

/-- **`peekFrame` looks and takes nothing**: it answers for the first frame of what stands behind
    the offset and leaves the content as it is. -/
theorem peekFrame_spec (hU : UnpackOneSpec U) {b b' : Buffer} {offset : Nat} {ps : ParseStatus}
    {info : Option RespFrameInfo} (hoff : offset ≤ b.content.length)
    (h : p.peekFrame U alloc b offset = some (ps, info, p', b')) :
    Peeked U p alloc (b.content.drop offset) ps info ∧ p'.limits = p.limits ∧
      p'.maxFrameBytes = p.maxFrameBytes ∧ b'.content = b.content ∧ b'.blockSize = b.blockSize := by
  rw [peekFrame_eq] at h
  rw [if_neg (by rw [Buffer.readableBytes_eq]; omega)] at h
  obtain ⟨⟨r, q⟩, hr, he⟩ := Option.map_eq_some_iff.mp h
  rw [Buffer.readableView_eq] at hr
  obtain ⟨hlimits, hmax, _⟩ := unpack_cases hr
  dsimp only at he
  have hrest : q.limits = p.limits ∧ q.maxFrameBytes = p.maxFrameBytes ∧
      b.viewed.content = b.content ∧ b.viewed.blockSize = b.blockSize :=
    ⟨hlimits, hmax, Buffer.content_viewed b, Buffer.blockSize_viewed b⟩
  split at he
  · rename_i hne
    cases he
    refine ⟨?_, hrest⟩
    cases hs : r.status with
    | kOk => exact absurd hs hne
    | kNeedMore =>
      obtain ⟨hnone, hempty⟩ := unpack_more hU hr hs
      refine .missing (fun info k hd => ?_) (fun hnil => ?_) ?_
      · obtain ⟨v, hv, _⟩ := firstFrame_done.mp hd
        exact hnone v k hv
      · unfold firstFrame
        rw [hempty hnil]
      · rcases unpack_answer hU.slots hr with ⟨hout, _⟩ | hanswer
        · rw [hout] at hs
          cases hs
        · rw [← hanswer]
          exact hs
    | kError => exact .refused (firstFrame_bad.mpr (Or.inl (unpack_bad hU hr hs)))
    | kNoMemory =>
      obtain ⟨size, hsize⟩ := unpack_noMemory hr hs
      exact .noMemory size hsize
  · rename_i hok
    obtain ⟨v, hv, hfirst⟩ := unpack_done hU hr (not_not.mp hok)
    rw [hv, Option.bind_some] at he
    split at he
    · rename_i hcommand
      cases he
      exact ⟨.refused (firstFrame_bad.mpr (Or.inr ⟨v, _, hfirst, hcommand⟩)), hrest⟩
    · rename_i name argc hcommand
      cases he
      exact ⟨.found _ (firstFrame_done.mpr ⟨v, hfirst, hcommand, rfl⟩), hrest⟩

/-- **What a call of `nextReplyFrame` finds and leaves.** -/
inductive Split (U : UnpackOne) (p : RespParser) (alloc : Nat → Bool) (b : Buffer) :
    ParseStatus → Option BufferChain → Buffer → Prop where
  | found {b' : Buffer} {v : RespValue} {chain : BufferChain}
      (frame : firstValue U p.limits p.maxFrameBytes b.content = .done v chain.bytes.length)
      (front : b.content = chain.bytes ++ b'.content) : Split U p alloc b .kOk (some chain) b'
  | missing {b' : Buffer} (same : b'.content = b.content)
      (absent : ∀ v k, firstValue U p.limits p.maxFrameBytes b.content ≠ .done v k) :
      Split U p alloc b .kNeedMore none b'
  | refused {b' : Buffer} (same : b'.content = b.content)
      (bad : firstValue U p.limits p.maxFrameBytes b.content = .bad) :
      Split U p alloc b .kError none b'
  | noMemory {b' : Buffer} (same : b'.content = b.content) (size : Nat)
      (failed : alloc size = false) : Split U p alloc b .kNoMemory none b'

/-- **`nextReplyFrame` splits the first reply off**: what it returns are the bytes of that reply,
    what it leaves is the rest. -/
theorem nextReplyFrame_split (hU : UnpackOneSpec U) {b b' : Buffer} {ps : ParseStatus}
    {out : Option BufferChain} (h : p.nextReplyFrame U alloc b = some (ps, out, p', b')) :
    Split U p alloc b ps out b' ∧ p'.limits = p.limits ∧ p'.maxFrameBytes = p.maxFrameBytes := by
  obtain ⟨⟨r, q⟩, hr, he⟩ := Option.map_eq_some_iff.mp (nextReplyFrame_eq.symm.trans h)
  rw [Buffer.readableView_eq] at hr
  obtain ⟨hlimits, hmax, _⟩ := unpack_cases hr
  dsimp only at he
  split at he
  · rename_i hne
    cases he
    refine ⟨?_, hlimits, hmax⟩
    have hsame : b.viewed.content = b.content := Buffer.content_viewed b
    cases hs : r.status with
    | kOk => exact absurd hs hne
    | kNeedMore => exact .missing hsame (unpack_more hU hr hs).1
    | kError => exact .refused hsame (unpack_bad hU hr hs)
    | kNoMemory =>
      obtain ⟨size, hsize⟩ := unpack_noMemory hr hs
      exact .noMemory hsame size hsize
  · rename_i hok
    cases he
    obtain ⟨v, _, hfirst⟩ := unpack_done hU hr (not_not.mp hok)
    have hle := (incremental_firstValue hU p.limits p.maxFrameBytes).used_le hfirst
    have hbytes : (b.viewed.slicePrefix r.consumed).bytes = b.content.take r.consumed := by simp
    have hlen : (b.viewed.slicePrefix r.consumed).bytes.length = r.consumed := by
      rw [hbytes, List.length_take_of_le hle]
    exact ⟨.found (hlen ▸ hfirst) (nextReplyFrame_some h).2, hlimits, hmax⟩

end RespParser

end RedisProxy
