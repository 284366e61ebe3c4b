/-
  File:      RedisProxy/Resp/History.lean
  Subject:   A PARSER AND ITS EARLIER CALLS.

  `RespParser` keeps its scratch arena from one call to the next, so a result could depend on what
  was parsed before. Here a parser is followed through any sequence of `setLimits`, `peekFrame`
  and `nextReplyFrame` calls, on any buffers and with any allocation failures, together with the
  inputs its calls of `unpack` saw (`History.truncated`).

  * `History.scratch_le` -- the arena is never larger than one of those inputs called for;
  * `unpack_regardless` -- what a further call answers does not depend on the history.
-/
import RedisProxy.Resp.Decode
import RedisProxy.Lib.Machine

namespace RedisProxy.RespParser

/-! ## 1. Calls -/

/-- One call of the parser's interface. -/
inductive Call where
  | setLimits (maxBulkBytes maxArrayElements maxDepth maxFrameBytes : Nat)
  | peekFrame (alloc : Nat → Bool) (input : Buffer) (offset : Nat)
  | nextReplyFrame (alloc : Nat → Bool) (input : Buffer)

/-- A parser and the inputs, cut to the limit of their time, that its calls of `unpack` saw. -/
structure History where
  parser : RespParser
  truncated : List Bytes

/-- The input of the `unpack` a call makes, if it makes one. -/
def Call.parsed : Call → Option Bytes
  | .setLimits .. => none
  | .peekFrame _ input offset =>
      if input.readableBytes < offset then none else some (input.readableView.drop offset)
  | .nextReplyFrame _ input => some input.readableView

/-- The parser after a call. -/
def after (U : UnpackOne) (p : RespParser) : Call → Option RespParser
  | .setLimits bulk elements depth frame => some (p.setLimits bulk elements depth frame)
  | .peekFrame alloc input offset =>
      (p.peekFrame U alloc input offset).map fun (_, _, p', _) => p'
  | .nextReplyFrame alloc input => (p.nextReplyFrame U alloc input).map fun (_, _, p', _) => p'

def History.step (U : UnpackOne) (h : History) (c : Call) : Option History :=
  (h.parser.after U c).map fun p =>
    ⟨p, (c.parsed.map (·.take h.parser.maxFrameBytes)).toList ++ h.truncated⟩

/-- A parser from its construction on. -/
def History.machine (U : UnpackOne) : Lib.Machine History Call where
  init := ⟨.init, []⟩
  step := History.step U

/-! ## 2. The arena -/

section Arena

variable {U : UnpackOne} {p p' : RespParser} {alloc : Nat → Bool} {input : Bytes} {r : RespResult}

/-- The loop leaves the arena as it found it, or with at most the slots the input calls for. -/
theorem unpackLoop_scratch {limits : RespLimits} {mfb maxSlots n k s' : Nat}
    (h : unpackLoop U limits mfb alloc input maxSlots n k = some (r, s')) :
    s' = k ∨ s' ≤ maxSlots := by
  induction n generalizing k with
  | zero => cases h
  | succ n ih =>
    unfold unpackLoop at h
    simp only at h
    split at h
    · rename_i hslots
      split at h
      · -- the arena grew to a size below the bound; the rest of the loop keeps it there
        rcases ih h with rfl | hle
        · exact Or.inr (by omega)
        · exact Or.inr hle
      · cases h
        exact Or.inl rfl
    · cases h
      exact Or.inl rfl

theorem unpack_scratch (h : p.unpack U alloc input = some (r, p')) :
    p'.scratch = p.scratch ∨ p'.scratch ≤ (input.take p.maxFrameBytes).length / 3 + 1 := by
  unfold unpack at h
  simp only at h
  split at h
  · cases h
    exact Or.inl rfl
  · obtain ⟨⟨r', k⟩, hloop, he⟩ := Option.map_eq_some_iff.mp h
    cases he
    dsimp only
    rcases unpackLoop_scratch hloop with hk | hk
    · rw [hk, firstSlots]
      split
      · exact Or.inr (Nat.min_le_right _ _)
      · exact Or.inl rfl
    · exact Or.inr hk

/-- A call changes the arena only by its `unpack`. -/
theorem after_scratch {c : Call} (h : p.after U c = some p') :
    p'.scratch = p.scratch ∨
      ∃ i, c.parsed = some i ∧ p'.scratch ≤ (i.take p.maxFrameBytes).length / 3 + 1 := by
  cases c with
  | setLimits bulk elements depth frame =>
    cases h
    exact Or.inl rfl
  | peekFrame alloc input offset =>
    obtain ⟨⟨ps, info, q, b⟩, hpeek, rfl⟩ := Option.map_eq_some_iff.mp h
    rw [peekFrame_eq] at hpeek
    split at hpeek
    · cases hpeek
      exact Or.inl rfl
    · rename_i hoff
      obtain ⟨⟨r, q'⟩, hr, he⟩ := Option.map_eq_some_iff.mp hpeek
      have hq : q = q' := by
        dsimp only at he
        split at he
        · cases he
          rfl
        · split at he <;> cases he <;> rfl
      subst hq
      exact (unpack_scratch hr).imp_right fun hle => ⟨_, if_neg hoff, hle⟩
  | nextReplyFrame alloc input =>
    obtain ⟨⟨ps, out, q, b⟩, hnext, rfl⟩ := Option.map_eq_some_iff.mp h
    rw [nextReplyFrame_eq] at hnext
    obtain ⟨⟨r, q'⟩, hr, he⟩ := Option.map_eq_some_iff.mp hnext
    have hq : q = q' := by
      dsimp only at he
      split at he <;> cases he <;> rfl
    subst hq
    exact (unpack_scratch hr).imp_right fun hle => ⟨_, rfl, hle⟩

end Arena

/-- The arena is empty, or one of the inputs called for as many slots. -/
def History.Bounded (h : History) : Prop :=
  h.parser.scratch = 0 ∨ ∃ t ∈ h.truncated, h.parser.scratch ≤ t.length / 3 + 1

theorem History.scratch_le {U : UnpackOne} {h : History} (hr : (machine U).Reachable h) :
    h.Bounded := by
  refine hr.invariant (I := Bounded) (Or.inl rfl) fun h c h' _ ih hstep => ?_
  obtain ⟨p, hp, rfl⟩ := Option.map_eq_some_iff.mp hstep
  rcases after_scratch hp with hsame | ⟨i, hi, hle⟩
  · rcases ih with h0 | ⟨t, ht, hle⟩
    · exact Or.inl (hsame.trans h0)
    · exact Or.inr ⟨t, List.mem_append_right _ ht, by rw [hsame]; exact hle⟩
  · refine Or.inr ⟨i.take h.parser.maxFrameBytes, List.mem_append_left _ ?_, hle⟩
    rw [hi]
    exact List.mem_singleton_self _

/-! ## 3. A further call -/

/-- A complete frame: bytes which `UnpackOne`, given enough slots, accepts whatever follows. -/
def CompleteFrame (U : UnpackOne) (limits : RespLimits) (frame : Bytes) : Prop :=
  ∃ slots, ∀ x, (U (frame ++ x) slots limits).status = .kOk ∧
    (U (frame ++ x) slots limits).consumed = frame.length

/-- Bytes that are accepted and used up are a complete frame. -/
theorem completeFrame_of_ok {U : UnpackOne} (hU : UnpackOneSpec U) {limits : RespLimits}
    {frame : Bytes} {slots : Nat} (h : (U frame slots limits).status = .kOk)
    (hall : (U frame slots limits).consumed = frame.length) : CompleteFrame U limits frame := by
  refine ⟨slots, fun x => ?_⟩
  have hsame : U (frame ++ x) slots limits = U frame slots limits := by
    refine hU.ok_local _ _ _ h _ ?_ ?_
    · rw [hall, List.length_append]
      exact Nat.le_add_right _ _
    · rw [hall, List.take_append_of_le_length (Nat.le_refl _)]
  rw [hsame]
  exact ⟨h, hall⟩

/-- A complete frame within the limit is in the answer without a history. -/
theorem answer_of_complete {U : UnpackOne} (hU : SlotSpec U) {limits : RespLimits} {mfb : Nat}
    {frame input : Bytes} (hc : CompleteFrame U limits frame) (hpre : frame <+: input)
    (hfits : frame.length ≤ mfb) :
    (answer U limits mfb input).status = .kOk ∧
      (answer U limits mfb input).consumed = frame.length := by
  obtain ⟨slots, hframe⟩ := hc
  obtain ⟨x, hx⟩ := List.prefix_take_iff.mpr ⟨hpre, hfits⟩
  obtain ⟨hok, hused⟩ := hframe x
  rw [hx] at hok hused
  have hthird := hU.enough hok (Nat.le_refl _)
  unfold answer
  rw [hthird, settle_of_ok hok]
  exact ⟨hok, hused⟩

/-- **`unpack` has no history and misses nothing.** Whatever calls came before and whatever arena
    they left, the retry loop ends; with allocation succeeding the result is that of one call of
    `UnpackOne` on the input cut to `max_frame_bytes_`, with a slot for three bytes and one more,
    except that too few slots count as too few bytes, and too few bytes are an error when the input
    was cut to the limit or just reaches it; a complete frame at the front that is not longer than
    the limit is found; and the arena stays within what one of the inputs so far called for. -/
theorem unpack_regardless {U : UnpackOne} (hU : SlotSpec U) {h : History}
    (hr : (History.machine U).Reachable h) (alloc : Nat → Bool) (input : Bytes) :
    ∃ r p', h.parser.unpack U alloc input = some (r, p') ∧
      ((∀ n, alloc n = true) →
        (∀ once, once = U (input.take h.parser.maxFrameBytes)
            ((input.take h.parser.maxFrameBytes).length / 3 + 1) h.parser.limits →
          r.consumed = once.consumed ∧ r.value = once.value ∧
          (once.status = .kNoMemory ∨ once.status = .kNeedMore →
            r.status = if (input.take h.parser.maxFrameBytes).length = h.parser.maxFrameBytes
              then .kError else .kNeedMore) ∧
          (once.status = .kOk ∨ once.status = .kError → r.status = once.status)) ∧
        ∀ frame, CompleteFrame U h.parser.limits frame → frame <+: input →
          frame.length ≤ h.parser.maxFrameBytes →
          r.status = .kOk ∧ r.consumed = frame.length) ∧
      (p'.scratch = 0 ∨ ∃ t ∈ input.take h.parser.maxFrameBytes :: h.truncated,
        p'.scratch ≤ t.length / 3 + 1) := by
  have hsome : (h.parser.unpack U alloc input).isSome = true := unpack_isSome
  obtain ⟨⟨r, p'⟩, hunpack⟩ := Option.isSome_iff_exists.mp hsome
  refine ⟨r, p', hunpack, fun halloc => ?_, ?_⟩
  · have hanswer := unpack_eq hU halloc hunpack
    refine ⟨fun once honce => ?_, fun frame hc hpre hfits => ?_⟩
    · have hfull : h.parser.maxFrameBytes ≤ (input.take h.parser.maxFrameBytes).length ↔
          (input.take h.parser.maxFrameBytes).length = h.parser.maxFrameBytes := by
        have := List.length_take_le h.parser.maxFrameBytes input
        omega
      rw [answer, ← honce, settle_eq] at hanswer
      simp only [hfull] at hanswer
      rw [hanswer]
      refine ⟨rfl, rfl, fun hstatus => if_pos hstatus, fun hstatus => if_neg ?_⟩
      rcases hstatus with hstatus | hstatus <;> rw [hstatus] <;> decide
    · rw [hanswer]
      exact answer_of_complete hU hc hpre hfits
  · rcases unpack_scratch hunpack with hsame | hle
    · rw [hsame]
      exact (History.scratch_le hr).imp_right fun ⟨t, ht, hle⟩ =>
        ⟨t, List.mem_cons_of_mem _ ht, hle⟩
    · exact Or.inr ⟨_, List.mem_cons_self, hle⟩

/-- A parser that has read `+PONG` out of blocks of four bytes, with room for frames of 64. -/
def afterPong : List Call :=
  [.setLimits 16 4 2 64,
    .nextReplyFrame (fun _ => true) ((Buffer.init 4 (by decide)).append (ascii "+PONG\r\n"))]

/-- The first line of an array whose elements have not come yet. -/
def onlyDeclared : Bytes := ascii "*4\r\n"

/-- A line of more bytes than a frame may have. -/
def overlong : Bytes := ascii "+" ++ List.replicate 80 97

theorem unpack_regardless_afterPong :
    (∃ h r p', (History.machine Resp.unpackOne).run ⟨.init, []⟩ afterPong = some h ∧
      h.parser.unpack Resp.unpackOne (fun _ => true) (ascii "+OK\r\n+") = some (r, p') ∧
      r.status = .kOk ∧ r.consumed = 5) ∧
    ∃ h, (History.machine Resp.unpackReserving).run ⟨.init, []⟩ afterPong = some h ∧
      (∃ r p', h.parser.unpack Resp.unpackReserving (fun _ => true) onlyDeclared = some (r, p') ∧
        (Resp.unpackReserving onlyDeclared 2 h.parser.limits).status = .kNoMemory ∧
        r.status = .kNeedMore) ∧
      ∃ r p', h.parser.unpack Resp.unpackReserving (fun _ => true) overlong = some (r, p') ∧
        (Resp.unpackReserving (overlong.take 64) 22 h.parser.limits).status = .kNeedMore ∧
        r.status = .kError := by
  constructor
  · have hrun : ((History.machine Resp.unpackOne).run ⟨.init, []⟩ afterPong).map (·.parser) =
        some ⟨⟨16, 4, 2⟩, 3, 64⟩ := by decide +kernel
    obtain ⟨h, hh, hp⟩ := Option.map_eq_some_iff.mp hrun
    obtain ⟨r, p', hr, hfound, _⟩ := unpack_regardless Resp.unpackOne_spec.slots
      (Lib.Machine.reachable_of_run hh) (fun _ => true) (ascii "+OK\r\n+")
    have hc : CompleteFrame Resp.unpackOne h.parser.limits (ascii "+OK\r\n") := by
      have hok : (Resp.unpackOne (ascii "+OK\r\n") 2 ⟨16, 4, 2⟩).status = .kOk := by
        decide +kernel
      rw [hp]
      exact completeFrame_of_ok Resp.unpackOne_spec hok (by decide +kernel)
    obtain ⟨hok, hused⟩ :=
      (hfound fun _ => rfl).2 _ hc (by decide +kernel) (by rw [hp]; decide +kernel)
    exact ⟨h, r, p', hh, hr, hok, hused⟩
  · have hrun : ((History.machine Resp.unpackReserving).run ⟨.init, []⟩ afterPong).map (·.parser) =
        some ⟨⟨16, 4, 2⟩, 3, 64⟩ := by decide +kernel
    obtain ⟨h, hh, hp⟩ := Option.map_eq_some_iff.mp hrun
    have hcall := unpack_regardless Resp.unpackReserving_slots (Lib.Machine.reachable_of_run hh)
      fun _ => true
    rw [hp] at hcall
    have hslots : (Resp.unpackReserving onlyDeclared 2 ⟨16, 4, 2⟩).status = .kNoMemory := by
      decide +kernel
    have hbytes : (Resp.unpackReserving (overlong.take 64) 22 ⟨16, 4, 2⟩).status = .kNeedMore := by
      decide +kernel
    refine ⟨h, hh, ?_, ?_⟩
    · rw [hp]
      obtain ⟨r, p', hr, hall, _⟩ := hcall onlyDeclared
      have hstatus := ((hall fun _ => rfl).1 _ rfl).2.2.1 (Or.inl hslots)
      exact ⟨r, p', hr, hslots, hstatus⟩
    · rw [hp]
      obtain ⟨r, p', hr, hall, _⟩ := hcall overlong
      have hstatus := ((hall fun _ => rfl).1 _ rfl).2.2.1 (Or.inr hbytes)
      exact ⟨r, p', hr, hbytes, hstatus⟩

end RedisProxy.RespParser
