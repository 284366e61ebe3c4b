/-
  File:      RedisProxy/Resp/Parser.lean
  Subject:   `RespParser` (src/resp_parser.cpp) over an arbitrary `redis::UnpackOne`.

  `redis::UnpackOne` is not part of the repository: it is a parameter here, and what the proxy
  relies on is the structure `UnpackOneSpec`. The parser around it is the source's: the input cut
  to `max_frame_bytes_`, the retry loop that grows the scratch arena up to one slot for three
  bytes, and the two statuses it reads differently at the limits.

  * `RespParser.unpack_isSome` -- the retry loop ends;
  * `RespParser.unpack_ok` -- a frame it accepts is one `UnpackOne` accepts, with some number of
    slots;
  * `RespParser.unpack_eq` -- with allocation succeeding, its result is `RespParser.answer`, that
    of one call with `|input| / 3 + 1` slots, whatever arena earlier calls left.
-/
import RedisProxy.Buffer.IoBuffer

namespace RedisProxy

/-! ## 1. The interface of the RESP library -/

/-- `redis::RespType`; only two of its values are named by the proxy. -/
inductive RespType where
  | kArray
  | kBulkString
  | other (tag : Nat)
  deriving DecidableEq, Repr

/-- `redis::RespValue`: `elements` is null for values without elements. -/
inductive RespValue where
  | mk (type : RespType) (elements : Option (List RespValue)) (text : Bytes)

namespace RespValue

def type : RespValue → RespType
  | .mk t _ _ => t

def elements : RespValue → Option (List RespValue)
  | .mk _ es _ => es

def text : RespValue → Bytes
  | .mk _ _ t => t

mutual

/-- The number of values in a value, itself included. -/
def count : RespValue → Nat
  | .mk _ none _ => 1
  | .mk _ (some es) _ => 1 + countAll es

def countAll : List RespValue → Nat
  | [] => 0
  | v :: vs => count v + countAll vs

end

end RespValue

inductive RespStatus where
  | kOk | kNeedMore | kError | kNoMemory
  deriving DecidableEq, Repr

structure RespLimits where
  maxBulkBytes : Nat
  maxArrayElements : Nat
  maxDepth : Nat
  deriving DecidableEq, Repr

/-- `redis::RespResult`; `value` is null unless the status is `kOk`. -/
structure RespResult where
  status : RespStatus
  consumed : Nat
  value : Option RespValue

/-- The type of `redis::UnpackOne(input, slots, n, limits)`, the arena given by its size. -/
abbrev UnpackOne := Bytes → Nat → RespLimits → RespResult

/-- **What the proxy relies on.** A frame is accepted on its own bytes alone and needs one slot
    more than it has values, each of at least three bytes; an error stays one whatever follows;
    and slots matter only as far as there are too few of them. -/
structure UnpackOneSpec (U : UnpackOne) : Prop where
  ok_value : ∀ i s l, (U i s l).status = .kOk → ∃ v, (U i s l).value = some v
  ok_consumed : ∀ i s l, (U i s l).status = .kOk →
    0 < (U i s l).consumed ∧ (U i s l).consumed ≤ i.length
  ok_local : ∀ i s l, (U i s l).status = .kOk → ∀ j, (U i s l).consumed ≤ j.length →
    j.take (U i s l).consumed = i.take (U i s l).consumed → U j s l = U i s l
  ok_slots : ∀ i s l, (U i s l).status = .kOk → ∀ v, (U i s l).value = some v →
    3 * v.count ≤ (U i s l).consumed ∧ ∀ s', v.count + 1 ≤ s' → U i s' l = U i s l
  error_stable : ∀ i s l, (U i s l).status = .kError → ∀ x, (U (i ++ x) s l).status = .kError
  slots_mono : ∀ i s l, (U i s l).status ≠ .kNoMemory → ∀ s', s ≤ s' → U i s' l = U i s l

/-- The part of it that is about slots: more of them change nothing but a lack of slots, and a
    value needs one slot more than it has values in it, each of at least three bytes. -/
structure SlotSpec (U : UnpackOne) : Prop where
  mono : ∀ i s l, (U i s l).status ≠ .kNoMemory → ∀ s', s ≤ s' → U i s' l = U i s l
  ok_slots : ∀ i s l, (U i s l).status = .kOk → ∃ v, (U i s l).value = some v ∧
    3 * v.count ≤ (U i s l).consumed ∧ (U i s l).consumed ≤ i.length ∧
    ∀ s', v.count + 1 ≤ s' → U i s' l = U i s l

theorem UnpackOneSpec.slots {U : UnpackOne} (hU : UnpackOneSpec U) : SlotSpec U where
  mono := hU.slots_mono
  ok_slots i s l h := by
    obtain ⟨v, hv⟩ := hU.ok_value i s l h
    obtain ⟨hcount, hslots⟩ := hU.ok_slots i s l h v hv
    exact ⟨v, hv, hcount, (hU.ok_consumed i s l h).2, hslots⟩

/-- A value found with some number of slots is found with one for three bytes and one more. -/
theorem SlotSpec.enough {U : UnpackOne} (hU : SlotSpec U) {i : Bytes} {s s' : Nat} {l : RespLimits}
    (h : (U i s l).status = .kOk) (hs : i.length / 3 + 1 ≤ s') : U i s' l = U i s l := by
  obtain ⟨v, _, hcount, hle, hslots⟩ := hU.ok_slots i s l h
  exact hslots s' (by omega)

/-! ## 2. The parser -/

inductive ParseStatus where
  | kOk | kNeedMore | kError | kNoMemory
  deriving DecidableEq, Repr

structure RespFrameInfo where
  consumed : Nat
  commandName : Bytes
  argc : Nat
  deriving DecidableEq, Repr

/-- `RespParser`; of `scratch_` only its size matters. -/
structure RespParser where
  limits : RespLimits
  scratch : Nat
  maxFrameBytes : Nat
  deriving DecidableEq, Repr

namespace RespParser

/-- `std::numeric_limits<std::size_t>::max()`. -/
def sizeMax : Nat := 2 ^ 64 - 1

/-- `RespParser::setLimits`. -/
def setLimits (p : RespParser) (maxBulkBytes maxArrayElements maxDepth maxFrameBytes : Nat) :
    RespParser :=
  { p with limits := ⟨maxBulkBytes, maxArrayElements, maxDepth⟩, maxFrameBytes := maxFrameBytes }

/-- `RespParser::RespParser`. -/
def init : RespParser :=
  (⟨⟨0, 0, 0⟩, 0, sizeMax⟩ : RespParser).setLimits (1024 * 1024) 1024 8 sizeMax

/-- `RespParser::convert`. -/
def convert : RespStatus → ParseStatus
  | .kOk => .kOk
  | .kNeedMore => .kNeedMore
  | .kNoMemory => .kNoMemory
  | .kError => .kError

/-- The reading of the status after the last try: too few slots at the bound means that bytes
    are missing, and missing bytes at the frame limit are an error. -/
def settle (maxFrameBytes : Nat) (input : Bytes) (r : RespResult) : RespResult :=
  let r := if r.status = .kNoMemory then { r with status := .kNeedMore } else r
  if r.status = .kNeedMore ∧ maxFrameBytes ≤ input.length then { r with status := .kError } else r

/-- The answer without a history: that of one call on the input cut to the limit, with one slot
    for three bytes and one more. -/
def answer (U : UnpackOne) (limits : RespLimits) (maxFrameBytes : Nat) (input : Bytes) :
    RespResult :=
  settle maxFrameBytes (input.take maxFrameBytes)
    (U (input.take maxFrameBytes) ((input.take maxFrameBytes).length / 3 + 1) limits)

/-- The result of a `bad_alloc`. -/
def outOfMemory : RespResult := ⟨.kNoMemory, 0, none⟩

/-- The retry loop of `RespParser::unpack`; `alloc n` says whether growing the arena to `n`
    slots succeeds. No result: the rounds given did not suffice. -/
def unpackLoop (U : UnpackOne) (limits : RespLimits) (maxFrameBytes : Nat) (alloc : Nat → Bool)
    (input : Bytes) (maxSlots : Nat) : Nat → Nat → Option (RespResult × Nat)
  | 0, _ => none
  | n + 1, scratch =>
      let slots := min scratch maxSlots
      let result := U input slots limits
      if result.status = .kNoMemory ∧ slots < maxSlots then
        let size := slots + min slots (maxSlots - slots)
        if alloc size then unpackLoop U limits maxFrameBytes alloc input maxSlots n size
        else some (outOfMemory, scratch)
      else some (settle maxFrameBytes input result, scratch)

/-- The arena of the first try: an empty one gets at most 16 slots. -/
def firstSlots (p : RespParser) (maxSlots : Nat) : Nat :=
  if p.scratch = 0 then min 16 maxSlots else p.scratch

/-- `RespParser::unpack`. -/
def unpack (U : UnpackOne) (p : RespParser) (alloc : Nat → Bool) (input : Bytes) :
    Option (RespResult × RespParser) :=
  let input := input.take p.maxFrameBytes
  let maxSlots := input.length / 3 + 1
  if p.scratch = 0 ∧ alloc (p.firstSlots maxSlots) = false then some (outOfMemory, p)
  else (unpackLoop U p.limits p.maxFrameBytes alloc input maxSlots (maxSlots + 1)
    (p.firstSlots maxSlots)).map fun x => (x.1, { p with scratch := x.2 })

/-- `RespParser::extractCommandInfo`: a non-empty array of bulk strings. -/
def extractCommandInfo (v : RespValue) : Option (Bytes × Nat) :=
  match v.type, v.elements with
  | .kArray, some (e :: es) =>
      if (e :: es).all fun x => x.type = .kBulkString then some (e.text, es.length + 1) else none
  | _, _ => none

/-- `RespParser::peekFrame`: the status, `*out`, the parser and the buffer. -/
def peekFrameInto (U : UnpackOne) (p : RespParser) (alloc : Nat → Bool) (input : Buffer)
    (offset : Nat) (out : RespFrameInfo) :
    Option (ParseStatus × RespFrameInfo × RespParser × Buffer) :=
  if input.readableBytes < offset then some (.kError, out, p, input)
  else (p.unpack U alloc (input.readableView.drop offset)).map fun (r, p') =>
    if r.status ≠ .kOk then (convert r.status, out, p', input.viewed)
    else match r.value.bind extractCommandInfo with
      | none => (.kError, out, p', input.viewed)
      | some (name, argc) => (.kOk, ⟨r.consumed, name, argc⟩, p', input.viewed)

/-- `RespParser::nextReplyFrame`: the status, `*out`, `*consumed`, the parser and the buffer. -/
def nextReplyFrameInto (U : UnpackOne) (p : RespParser) (alloc : Nat → Bool) (input : Buffer)
    (out : BufferChain) (consumed : Nat) :
    Option (ParseStatus × BufferChain × Nat × RespParser × Buffer) :=
  (p.unpack U alloc input.readableView).map fun (r, p') =>
    if r.status ≠ .kOk then (convert r.status, out, consumed, p', input.viewed)
    else (.kOk, input.viewed.slicePrefix r.consumed, r.consumed, p', input.viewed.sliced r.consumed)

/-- `peekFrame` as it is called, on an info of its own: what it wrote there on `kOk`. -/
def peekFrame (U : UnpackOne) (p : RespParser) (alloc : Nat → Bool) (input : Buffer)
    (offset : Nat) : Option (ParseStatus × Option RespFrameInfo × RespParser × Buffer) :=
  (p.peekFrameInto U alloc input offset ⟨0, [], 0⟩).map fun (ps, out, p', b) =>
    (ps, if ps = .kOk then some out else none, p', b)

/-- `nextReplyFrame` as it is called, on a chain of its own: what it wrote there on `kOk`. -/
def nextReplyFrame (U : UnpackOne) (p : RespParser) (alloc : Nat → Bool) (input : Buffer) :
    Option (ParseStatus × Option BufferChain × RespParser × Buffer) :=
  (p.nextReplyFrameInto U alloc input .empty 0).map fun (ps, out, _, p', b) =>
    (ps, if ps = .kOk then some out else none, p', b)

/-! ## 3. The retry loop -/

section Loop

variable {U : UnpackOne} {limits : RespLimits} {mfb : Nat} {alloc : Nat → Bool} {input : Bytes}
  {maxSlots : Nat}

/-- One slot at least is added in each round, so `maxSlots - scratch + 1` rounds suffice. -/
theorem unpackLoop_isSome (n scratch : Nat) (hs : 0 < scratch) (hn : maxSlots < n + scratch)
    (hn0 : 0 < n) : (unpackLoop U limits mfb alloc input maxSlots n scratch).isSome = true := by
  induction n generalizing scratch with
  | zero => omega
  | succ n ih =>
    unfold unpackLoop
    simp only
    split
    · rename_i hslots
      split
      · have h : min scratch maxSlots < maxSlots := hslots.2
        exact ih _ (by omega) (by omega) (by omega)
      · rfl
    · rfl

/-- What a result of the loop is: the out-of-memory answer, or the settled result of a call with
    some number of slots, all of them if the call still lacked slots. -/
theorem unpackLoop_cases {n k s' : Nat} {r : RespResult}
    (h : unpackLoop U limits mfb alloc input maxSlots n k = some (r, s')) :
    (r = outOfMemory ∧ ∃ size, alloc size = false) ∨
      ∃ slots, slots ≤ maxSlots ∧ r = settle mfb input (U input slots limits) ∧
        ((U input slots limits).status = .kNoMemory → slots = maxSlots) := by
  induction n generalizing k with
  | zero => cases h
  | succ n ih =>
    unfold unpackLoop at h
    simp only at h
    split at h
    · split at h
      · exact ih h
      · rename_i halloc
        cases h
        exact Or.inl ⟨rfl, _, by simpa using halloc⟩
    · rename_i hlast
      obtain ⟨hr, _⟩ := Prod.mk.inj (Option.some.inj h)
      refine Or.inr ⟨min k maxSlots, Nat.min_le_right _ _, hr.symm, fun hnm => ?_⟩
      have : ¬ min k maxSlots < maxSlots := fun hlt => hlast ⟨hnm, hlt⟩
      omega

end Loop

/-- The two statuses that are read differently, and nothing else. -/
theorem settle_eq (mfb : Nat) (input : Bytes) (r : RespResult) :
    settle mfb input r = { r with
      status := if r.status = .kNoMemory ∨ r.status = .kNeedMore then
          if mfb ≤ input.length then .kError else .kNeedMore
        else r.status } := by
  obtain ⟨status, consumed, value⟩ := r
  unfold settle
  by_cases hle : mfb ≤ input.length <;> cases status <;> simp [hle]

theorem settle_status_ok {mfb : Nat} {input : Bytes} {r : RespResult} :
    (settle mfb input r).status = .kOk ↔ r.status = .kOk := by
  unfold settle
  cases hr : r.status <;> simp [hr] <;> split <;> simp_all

theorem settle_of_ok {mfb : Nat} {input : Bytes} {r : RespResult} (h : r.status = .kOk) :
    settle mfb input r = r := by
  simp [settle, h]

theorem settle_more {mfb : Nat} {input : Bytes} {r : RespResult}
    (h : (settle mfb input r).status = .kNeedMore) :
    (r.status = .kNeedMore ∨ r.status = .kNoMemory) ∧ input.length < mfb := by
  unfold settle at h
  cases hr : r.status <;> simp [hr] at h ⊢ <;> by_cases hle : mfb ≤ input.length <;>
    simp [hle] at h <;> omega

theorem settle_error {mfb : Nat} {input : Bytes} {r : RespResult}
    (h : (settle mfb input r).status = .kError) : r.status = .kError ∨ mfb ≤ input.length := by
  unfold settle at h
  cases hr : r.status <;> simp [hr] at h ⊢ <;> by_contra hlt <;> simp [hlt, hr] at h

theorem settle_ne_noMemory {mfb : Nat} {input : Bytes} {r : RespResult} :
    (settle mfb input r).status ≠ .kNoMemory := by
  unfold settle
  cases hr : r.status <;> simp [hr] <;> split <;> simp_all

section Unpack

variable {U : UnpackOne} {p : RespParser} {alloc : Nat → Bool} {input : Bytes}

/-- **The retry loop ends**, whatever arena earlier calls left. -/
theorem unpack_isSome : (p.unpack U alloc input).isSome = true := by
  unfold unpack
  simp only
  split
  · rfl
  · rw [Option.isSome_map]
    have hf : ∀ m, 0 < m → 0 < p.firstSlots m := by
      intro m hm
      unfold firstSlots
      split <;> omega
    have := hf ((input.take p.maxFrameBytes).length / 3 + 1) (by omega)
    exact unpackLoop_isSome _ _ this (by omega) (by omega)

theorem unpack_cases {r : RespResult} {p' : RespParser} (h : p.unpack U alloc input = some (r, p')) :
    p'.limits = p.limits ∧ p'.maxFrameBytes = p.maxFrameBytes ∧
      ((r = outOfMemory ∧ ∃ size, alloc size = false) ∨
        ∃ slots, slots ≤ (input.take p.maxFrameBytes).length / 3 + 1 ∧
          r = settle p.maxFrameBytes (input.take p.maxFrameBytes)
            (U (input.take p.maxFrameBytes) slots p.limits) ∧
          ((U (input.take p.maxFrameBytes) slots p.limits).status = .kNoMemory →
            slots = (input.take p.maxFrameBytes).length / 3 + 1)) := by
  unfold unpack at h
  simp only at h
  split at h
  · rename_i halloc
    cases h
    exact ⟨rfl, rfl, Or.inl ⟨rfl, _, halloc.2⟩⟩
  · obtain ⟨x, hx, he⟩ := Option.map_eq_some_iff.mp h
    cases he
    exact ⟨rfl, rfl, unpackLoop_cases hx⟩

/-- **A frame the parser accepts is one `UnpackOne` accepts**, with some number of slots. -/
theorem unpack_ok {r : RespResult} {p' : RespParser} (h : p.unpack U alloc input = some (r, p'))
    (hok : r.status = .kOk) : ∃ slots, U (input.take p.maxFrameBytes) slots p.limits = r := by
  obtain ⟨_, _, ⟨rfl, _⟩ | ⟨slots, _, hr, _⟩⟩ := unpack_cases h
  · cases hok
  · have hok' : (U (input.take p.maxFrameBytes) slots p.limits).status = .kOk := by
      rw [← settle_status_ok, ← hr]
      exact hok
    exact ⟨slots, by rw [hr, settle_of_ok hok']⟩

/-- A result is the one of a failed allocation, or the answer without a history. -/
theorem unpack_answer (hU : SlotSpec U) {r : RespResult} {p' : RespParser}
    (h : p.unpack U alloc input = some (r, p')) :
    (r = outOfMemory ∧ ∃ size, alloc size = false) ∨
      r = answer U p.limits p.maxFrameBytes input := by
  obtain ⟨_, _, hfailed | ⟨slots, hle, hr, hnm⟩⟩ := unpack_cases h
  · exact Or.inl hfailed
  · refine Or.inr ?_
    unfold answer
    by_cases hstat : (U (input.take p.maxFrameBytes) slots p.limits).status = .kNoMemory
    · rw [hr, hnm hstat]
    · rw [hr, hU.mono _ _ _ hstat _ hle]

/-- **With allocation succeeding the result has no history.** -/
theorem unpack_eq (hU : SlotSpec U) (halloc : ∀ n, alloc n = true) {r : RespResult}
    {p' : RespParser} (h : p.unpack U alloc input = some (r, p')) :
    r = answer U p.limits p.maxFrameBytes input := by
  rcases unpack_answer hU h with ⟨_, size, hsize⟩ | hr
  · rw [halloc size] at hsize
    cases hsize
  · exact hr

end Unpack

/-! ## 4. Taking a reply off the buffer -/

section NextReply

variable {U : UnpackOne} {p p' : RespParser} {alloc : Nat → Bool} {input b : Buffer}
  {ps : ParseStatus}

theorem convert_eq_ok {s : RespStatus} : convert s = .kOk ↔ s = .kOk := by
  cases s <;> simp [convert]

theorem peekFrame_eq (offset : Nat) :
    p.peekFrame U alloc input offset =
      if input.readableBytes < offset then some (.kError, none, p, input)
      else (p.unpack U alloc (input.readableView.drop offset)).map fun (r, p') =>
        if r.status ≠ .kOk then (convert r.status, none, p', input.viewed)
        else match r.value.bind extractCommandInfo with
          | none => (.kError, none, p', input.viewed)
          | some (name, argc) => (.kOk, some ⟨r.consumed, name, argc⟩, p', input.viewed) := by
  unfold peekFrame peekFrameInto
  split
  · rfl
  · rw [Option.map_map]
    congr 1
    funext ⟨r, q⟩
    dsimp only [Function.comp_apply]
    split
    · rename_i hr
      simp [convert_eq_ok, hr]
    · split <;> rfl

theorem nextReplyFrame_eq :
    p.nextReplyFrame U alloc input =
      (p.unpack U alloc input.readableView).map fun (r, p') =>
        if r.status ≠ .kOk then (convert r.status, none, p', input.viewed)
        else (.kOk, some (input.viewed.slicePrefix r.consumed), p',
          input.viewed.sliced r.consumed) := by
  unfold nextReplyFrame nextReplyFrameInto
  rw [Option.map_map]
  congr 1
  funext ⟨r, q⟩
  dsimp only [Function.comp_apply]
  split
  · rename_i hr
    simp [convert_eq_ok, hr]
  · rfl

/-- A reply is the front of the content; what follows it stays. -/
theorem nextReplyFrame_some {reply : BufferChain}
    (h : p.nextReplyFrame U alloc input = some (ps, some reply, p', b)) :
    ps = .kOk ∧ input.content = reply.bytes ++ b.content := by
  rw [nextReplyFrame_eq] at h
  obtain ⟨⟨r, p''⟩, _, he⟩ := Option.map_eq_some_iff.mp h
  dsimp only at he
  split at he
  · cases he
  · obtain ⟨hps, he⟩ := Prod.mk.inj he
    obtain ⟨hreply, he⟩ := Prod.mk.inj he
    obtain ⟨_, hb⟩ := Prod.mk.inj he
    refine ⟨hps.symm, ?_⟩
    rw [← Option.some.inj hreply, ← hb]
    simp

/-- Without a reply the content is unchanged. -/
theorem nextReplyFrame_none (h : p.nextReplyFrame U alloc input = some (ps, none, p', b)) :
    ps ≠ .kOk ∧ b.content = input.content := by
  rw [nextReplyFrame_eq] at h
  obtain ⟨⟨r, p''⟩, _, he⟩ := Option.map_eq_some_iff.mp h
  dsimp only at he
  split at he
  · rename_i hr
    obtain ⟨hps, he⟩ := Prod.mk.inj he
    obtain ⟨_, he⟩ := Prod.mk.inj he
    obtain ⟨_, hb⟩ := Prod.mk.inj he
    refine ⟨?_, by rw [← hb]; simp⟩
    rw [← hps, Ne, convert_eq_ok]
    exact hr
  · cases he

/-- `peekFrame` leaves the content, and writes its output only on `kOk`. -/
theorem peekFrameInto_out {offset : Nat} {out out' : RespFrameInfo}
    (h : p.peekFrameInto U alloc input offset out = some (ps, out', p', b)) :
    b.content = input.content ∧ (ps ≠ .kOk → out' = out) := by
  unfold peekFrameInto at h
  split at h
  · cases h
    exact ⟨rfl, fun _ => rfl⟩
  · obtain ⟨⟨r, q⟩, _, he⟩ := Option.map_eq_some_iff.mp h
    dsimp only at he
    split at he
    · cases he
      exact ⟨Buffer.content_viewed _, fun _ => rfl⟩
    · split at he
      · cases he
        exact ⟨Buffer.content_viewed _, fun _ => rfl⟩
      · cases he
        exact ⟨Buffer.content_viewed _, fun hne => absurd rfl hne⟩

/-- `nextReplyFrame` leaves the content and its outputs unless it answers `kOk`. -/
theorem nextReplyFrameInto_out {out out' : BufferChain} {consumed consumed' : Nat}
    (h : p.nextReplyFrameInto U alloc input out consumed = some (ps, out', consumed', p', b)) :
    ps ≠ .kOk → b.content = input.content ∧ out' = out ∧ consumed' = consumed := by
  intro hne
  obtain ⟨⟨r, q⟩, _, he⟩ := Option.map_eq_some_iff.mp h
  dsimp only at he
  split at he
  · cases he
    exact ⟨Buffer.content_viewed _, rfl, rfl⟩
  · cases he
    exact absurd rfl hne

end NextReply

end RespParser

end RedisProxy
