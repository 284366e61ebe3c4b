/-
  File:      RedisProxy/Channel/Replies.lean
  Subject:   SPLITTING THE REPLY STREAM of one connection (src/backend_channel.cpp, `readerLoop`).

  `ReplyStream` is `readerLoop` as long as the channel stays healthy, with the chains it passes on
  and the bytes it received: a read, then `nextReplyFrame` until it does not answer `kOk`.
  `Splitting` is its invariant: the chains are the values at the front of the stream and the
  buffer is what follows them (`Lib.Chain`), so neither the reads nor the blocks nor the arena of
  the parser show in the chains.

  * `replies_split` -- lossless, and the same for every cut into reads;
  * `Shows.readerStep` -- the steps of a healthy channel's `readerLoop` are steps of the stream.
-/
import RedisProxy.Resp.Frames
import RedisProxy.Resp.Decode
import RedisProxy.Channel.Ledger

namespace RedisProxy

open Lib

/-! ## 1. The stream -/

/-- Where the loop stands: before a read, in its inner loop, after a failed read, after a reply it
    could not parse. -/
inductive StreamPc where
  | reading | parsing | closed | refused
  deriving DecidableEq

structure ReplyStream where
  redisIn : Buffer
  parser : RespParser
  pc : StreamPc
  chains : List BufferChain
  received : Bytes

inductive StreamAct where
  | read (o : ReadOutcome)
  | parse (alloc : Nat → Bool)

/-- Allocation succeeds. -/
def StreamAct.Granted : StreamAct → Prop
  | .read _ => True
  | .parse alloc => ∀ n, alloc n = true

namespace ReplyStream

/-- A new connection; the parser may have a past. -/
def init (p : RespParser) (blockSize : Nat) (h : 0 < blockSize) : ReplyStream :=
  ⟨.init blockSize h, p, .reading, [], []⟩

def step (U : UnpackOne) (s : ReplyStream) : StreamAct → Option ReplyStream
  | .read o =>
      match s.pc with
      | .reading =>
          (readSome s.redisIn o).map fun
            | (none, b) => { s with redisIn := b }
            | (some st, b) =>
                { s with
                  redisIn := b
                  received := s.received ++ o.bytes
                  pc := if st.ok then .parsing else .closed }
      | _ => none
  | .parse alloc =>
      match s.pc with
      | .parsing =>
          (s.parser.nextReplyFrame U alloc s.redisIn).map fun (ps, chain, parser, b) =>
            let s' : ReplyStream := { s with parser := parser, redisIn := b }
            match ps, chain with
            | .kOk, some reply => { s' with chains := s.chains ++ [reply] }
            | .kNeedMore, _ => { s' with pc := .reading }
            | _, _ => { s' with pc := .refused }
      | _ => none

/-- **The machine of the reply stream.** -/
def machine (U : UnpackOne) (p : RespParser) (blockSize : Nat) (h : 0 < blockSize) :
    Machine ReplyStream StreamAct := ⟨init p blockSize h, step U⟩

end ReplyStream

/-! ## 2. The invariant -/

/-- What a value within the limit is read from is read without the limit. -/
theorem firstValue_whole {U : UnpackOne} (hU : UnpackOneSpec U) {limits : RespLimits}
    {maxBytes : Nat} {i : Bytes} {v : RespValue}
    (h : firstValue U limits maxBytes i = .done v i.length) :
    U i (i.length + 1) limits = ⟨.kOk, i.length, some v⟩ := by
  have hr := firstValue_done.mp h
  have hle := (hU.ok_consumed _ _ _ (by rw [hr])).2
  rw [hr, List.length_take] at hle
  dsimp only at hle
  rw [List.take_of_length_le (by omega)] at hr
  exact hr

namespace ReplyStream

/-- The chains are the values at the front of the stream, the buffer is what follows them; the
    loop reads on only when no value is left in it. -/
structure Splitting (U : UnpackOne) (p : RespParser) (s : ReplyStream) : Prop where
  limits : s.parser.limits = p.limits
  frameBytes : s.parser.maxFrameBytes = p.maxFrameBytes
  chain : ∃ fs, Chain (firstValue U p.limits p.maxFrameBytes) s.received fs s.redisIn.content ∧
    fs.map Prod.snd = s.chains.map (·.bytes)
  drained : s.pc = .reading ∨ s.pc = .closed →
    ∀ v k, firstValue U p.limits p.maxFrameBytes s.redisIn.content ≠ .done v k
  refused : s.pc = .refused → firstValue U p.limits p.maxFrameBytes s.redisIn.content = .bad

variable {U : UnpackOne} {p : RespParser} {s s' : ReplyStream}

theorem init_splitting (hU : UnpackOneSpec U) (blockSize : Nat) (h : 0 < blockSize) :
    (init p blockSize h).Splitting U p where
  limits := rfl
  frameBytes := rfl
  chain := ⟨[], .nil _, rfl⟩
  drained _ v k hdone := by
    have hpos := advances_firstValue hU _ _ hdone
    have hle : k ≤ (Buffer.init blockSize h).content.length :=
      (incremental_firstValue hU _ _).used_le hdone
    rw [Buffer.content_init, List.length_nil] at hle
    omega
  refused h := nomatch h

theorem Splitting.read (hU : UnpackOneSpec U) (h : s.Splitting U p) {o : ReadOutcome}
    (hs : s.step U (.read o) = some s') : s'.Splitting U p := by
  simp only [step] at hs
  split at hs
  · rename_i hpc
    obtain ⟨⟨st, b⟩, hread, he⟩ := Option.map_eq_some_iff.mp hs
    have hcontent := content_readSome hread
    have hdrained := h.drained (Or.inl hpc)
    cases st with
    | none =>
      have hnone := bytes_of_again hread
      rw [hnone, List.append_nil] at hcontent
      cases he
      refine ⟨h.limits, h.frameBytes, ?_, fun _ => ?_, fun hr => ?_⟩
      · rw [hcontent]
        exact h.chain
      · rw [hcontent]
        exact hdrained
      · rw [hpc] at hr
        cases hr
    | some st =>
      cases he
      obtain ⟨fs, hchain, hbytes⟩ := h.chain
      refine ⟨h.limits, h.frameBytes, ⟨fs, ?_, hbytes⟩, fun hr => ?_, fun hr => ?_⟩
      · rw [hcontent]
        exact hchain.append (incremental_firstValue hU _ _) o.bytes
      · -- the loop goes on to a read only if this one brought nothing
        have hbad : st.ok = false := by
          cases hok : st.ok <;> simp [hok] at hr ⊢
        have hnone : o.bytes = [] := by
          by_contra hne
          rw [(status_readSome hread).mpr hne] at hbad
          cases hbad
        rw [hnone, List.append_nil] at hcontent
        rw [hcontent]
        exact hdrained
      · dsimp only at hr
        split at hr <;> cases hr
  · cases hs

theorem Splitting.parse (hU : UnpackOneSpec U) (h : s.Splitting U p) {alloc : Nat → Bool}
    (halloc : ∀ n, alloc n = true) (hs : s.step U (.parse alloc) = some s') :
    s'.Splitting U p := by
  simp only [step] at hs
  split at hs
  · rename_i hpc
    obtain ⟨⟨ps, out, parser, b⟩, hnext, he⟩ := Option.map_eq_some_iff.mp hs
    obtain ⟨hsplit, hlimits, hmax⟩ := RespParser.nextReplyFrame_split hU hnext
    have hlimits' : parser.limits = p.limits := hlimits.trans h.limits
    have hmax' : parser.maxFrameBytes = p.maxFrameBytes := hmax.trans h.frameBytes
    obtain ⟨fs, hchain, hbytes⟩ := h.chain
    cases hsplit with
    | found frame front =>
      rename_i v reply
      cases he
      rw [h.limits, h.frameBytes] at frame
      refine ⟨hlimits', hmax', ⟨fs ++ [(v, reply.bytes)], ?_, ?_⟩, fun hr => ?_, fun hr => ?_⟩
      · have hsnoc := hchain.snoc frame
        rw [front, List.take_left, List.drop_left] at hsnoc
        exact hsnoc
      · rw [List.map_append, List.map_append, hbytes]
        rfl
      · rw [hpc] at hr
        rcases hr with hr | hr <;> cases hr
      · rw [hpc] at hr
        cases hr
    | missing same absent =>
      cases he
      rw [h.limits, h.frameBytes] at absent
      refine ⟨hlimits', hmax', ⟨fs, ?_, hbytes⟩, fun _ => ?_, nofun⟩
      · rw [same]
        exact hchain
      · rw [same]
        exact absent
    | refused same bad =>
      cases he
      rw [h.limits, h.frameBytes] at bad
      refine ⟨hlimits', hmax', ⟨fs, ?_, hbytes⟩, ?_, fun _ => ?_⟩
      · rw [same]
        exact hchain
      · rintro (hr | hr) <;> cases hr
      · rw [same]
        exact bad
    | noMemory same size failed =>
      rw [halloc size] at failed
      cases failed
  · cases hs

theorem splitting_of_run (hU : UnpackOneSpec U) {blockSize : Nat} {hb : 0 < blockSize}
    {acts : List StreamAct} (hgranted : ∀ a ∈ acts, a.Granted)
    (hrun : (machine U p blockSize hb).run (init p blockSize hb) acts = some s) :
    s.Splitting U p := by
  refine Machine.Reachable.restricted (I := Splitting U p) .start (init_splitting hU blockSize hb)
    (fun s a s' _ ha h hs => ?_) hgranted hrun
  cases a with
  | read o => exact h.read hU hs
  | parse alloc => exact h.parse hU ha hs

/-- The chains are the values of every stream that goes on where the received bytes end, as soon
    as the loop has nothing left to parse or has refused a reply. -/
theorem Splitting.chains_eq (hU : UnpackOneSpec U) (h : s.Splitting U p) {R : Bytes}
    (hR : s.received <+: R) (hend : (s.received = R ∧ s.pc ≠ .parsing) ∨ s.pc = .refused) :
    s.chains.map (·.bytes) =
      (cut (firstValue U p.limits p.maxFrameBytes) R).frames.map Prod.snd := by
  have hp := incremental_firstValue hU p.limits p.maxFrameBytes
  have ha : Advances (firstValue U p.limits p.maxFrameBytes) := advances_firstValue hU _ _
  obtain ⟨fs, hchain, hbytes⟩ := h.chain
  obtain ⟨x, rfl⟩ := hR
  -- no value starts in what is left, whatever follows
  have hnone : (cut (firstValue U p.limits p.maxFrameBytes) (s.redisIn.content ++ x)).frames =
      [] := by
    by_cases hrefused : s.pc = .refused
    · rw [cut_bad (hp.bad (h.refused hrefused) x)]
    · obtain ⟨hall, hpc⟩ := hend.resolve_right hrefused
      have hx : x = [] := List.self_eq_append_right.mp hall
      have hdrained := h.drained (by
        cases hs : s.pc with
        | reading => exact Or.inl rfl
        | closed => exact Or.inr rfl
        | parsing => exact absurd hs hpc
        | refused => exact absurd hs hrefused)
      rw [hx, List.append_nil]
      cases hfirst : firstValue U p.limits p.maxFrameBytes s.redisIn.content with
      | done v k => exact absurd hfirst (hdrained v k)
      | more => rw [cut_more hfirst]
      | bad => rw [cut_bad hfirst]
  rw [(hchain.append hp x).cut_eq hp ha, ← hbytes]
  simp only [Cut.after, hnone, List.append_nil]

/-- The inner loop ends: each `kOk` takes a reply off the buffer. -/
theorem parse_ends (hU : UnpackOneSpec U) {blockSize : Nat} {hb : 0 < blockSize}
    {alloc : Nat → Bool} (hpc : s.pc = .parsing) :
    ∃ n s', (machine U p blockSize hb).run s (List.replicate n (.parse alloc)) = some s' ∧
      s'.pc ≠ .parsing ∧ s'.received = s.received := by
  induction hn : s.redisIn.content.length using Nat.strong_induction_on generalizing s with
  | _ n ih =>
    have hsome : (s.parser.unpack U alloc s.redisIn.readableView).isSome = true :=
      RespParser.unpack_isSome
    have hstep : (s.step U (.parse alloc)).isSome = true := by
      simp only [step, hpc, RespParser.nextReplyFrame_eq, Option.isSome_map]
      exact hsome
    obtain ⟨s', hs'⟩ := Option.isSome_iff_exists.mp hstep
    by_cases hdone : s'.pc = .parsing
    · have hshort : s'.redisIn.content.length < n ∧ s'.received = s.received := by
        simp only [step, hpc] at hs'
        obtain ⟨⟨ps, out, parser, b⟩, hnext, he⟩ := Option.map_eq_some_iff.mp hs'
        cases (RespParser.nextReplyFrame_split hU hnext).1 with
        | found frame front =>
          cases he
          have hpos := advances_firstValue hU _ _ frame
          have hlen := congrArg List.length front
          rw [List.length_append] at hlen
          exact ⟨by dsimp only; omega, rfl⟩
        | missing | refused | noMemory =>
          cases he
          cases hdone
      obtain ⟨m, s'', hrun, hpc'', hreceived⟩ := ih _ hshort.1 hdone rfl
      refine ⟨m + 1, s'', ?_, hpc'', hreceived.trans hshort.2⟩
      rw [List.replicate_succ, Machine.run_cons]
      exact ⟨s', hs', hrun⟩
    · refine ⟨1, s', Machine.run_single hs', hdone, ?_⟩
      simp only [step, hpc] at hs'
      obtain ⟨⟨ps, out, parser, b⟩, _, rfl⟩ := Option.map_eq_some_iff.mp hs'
      dsimp only
      split <;> rfl

/-! ## 3. The result -/

/-- **The reply stream is split without loss and the same way for every cut into reads.** At every
    moment the chains passed on and the bytes in `redis_in_` are the bytes received, and each chain
    is read by `UnpackOne` as one value, all of it. The inner loop ends after every read. When all
    of `R` was received, or a reply was refused before that, the chains are the values of `R`: they
    depend on `R` and the limits alone. A call of `nextReplyFrame` that does not answer `kOk`
    leaves the content and its outputs; `peekFrame` leaves the content always. -/
theorem replies_split (hU : UnpackOneSpec U) :
    (∀ blockSize hb acts s, (∀ a ∈ acts, a.Granted) →
      (machine U p blockSize hb).run (init p blockSize hb) acts = some s →
      s.received = (s.chains.map (·.bytes)).flatten ++ s.redisIn.content ∧
      (∀ c ∈ s.chains, ∃ v,
        U c.bytes (c.bytes.length + 1) p.limits = ⟨.kOk, c.bytes.length, some v⟩) ∧
      (s.pc = .parsing → ∃ n s', (machine U p blockSize hb).run s
        (List.replicate n (.parse fun _ => true)) = some s' ∧
        s'.pc ≠ .parsing ∧ s'.received = s.received) ∧
      ∀ R, s.received <+: R → ((s.received = R ∧ s.pc ≠ .parsing) ∨ s.pc = .refused) →
        s.chains.map (·.bytes) =
          (cut (firstValue U p.limits p.maxFrameBytes) R).frames.map Prod.snd) ∧
    (∀ alloc b out consumed ps out' consumed' p' b',
      p.nextReplyFrameInto U alloc b out consumed = some (ps, out', consumed', p', b') →
      ps ≠ .kOk → b'.content = b.content ∧ out' = out ∧ consumed' = consumed) ∧
    (∀ alloc b offset out ps out' p' b',
      p.peekFrameInto U alloc b offset out = some (ps, out', p', b') →
      b'.content = b.content ∧ (ps ≠ .kOk → out' = out)) := by
  refine ⟨fun blockSize hb acts s hgranted hrun => ?_, fun _ _ _ _ _ _ _ _ _ h =>
    RespParser.nextReplyFrameInto_out h, fun _ _ _ _ _ _ _ _ h => RespParser.peekFrameInto_out h⟩
  have h := splitting_of_run hU hgranted hrun
  obtain ⟨fs, hchain, hbytes⟩ := h.chain
  refine ⟨?_, fun c hc => ?_, fun hpc => parse_ends hU hpc, fun R => h.chains_eq hU⟩
  · rw [← hbytes]
    exact hchain.flatten
  · have hmem : c.bytes ∈ fs.map Prod.snd := by
      rw [hbytes]
      exact List.mem_map_of_mem hc
    obtain ⟨f, hf, hfc⟩ := List.mem_map.mp hmem
    have hone := hchain.each (incremental_firstValue hU _ _) f hf
    rw [hfc] at hone
    exact ⟨f.1, firstValue_whole hU hone⟩

/-- `+OK` and `:1` in three reads of at most four bytes. -/
def threeReads : List StreamAct :=
  let parse := StreamAct.parse fun _ => true
  [.read (.data (ascii "+OK\r")), parse, .read (.data (ascii "\n:1\r")), parse, parse,
    .read (.data (ascii "\n")), parse, parse]

theorem replies_split_threeReads :
    ∃ s, (machine Resp.unpackOne .init 4 (by decide)).run (init .init 4 (by decide)) threeReads =
        some s ∧ s.chains.map (·.bytes) = [ascii "+OK\r\n", ascii ":1\r\n"] ∧
      (cut (firstValue Resp.unpackOne RespParser.init.limits RespParser.init.maxFrameBytes)
        (ascii "+OK\r\n:1\r\n")).frames.map Prod.snd = [ascii "+OK\r\n", ascii ":1\r\n"] := by
  have hrun : ((machine Resp.unpackOne .init 4 (by decide)).run (init .init 4 (by decide))
      threeReads).map (fun s => (s.chains.map (·.bytes), s.received, s.pc)) =
        some ([ascii "+OK\r\n", ascii ":1\r\n"], ascii "+OK\r\n:1\r\n", .reading) := by
    decide +kernel
  obtain ⟨s, hs, hval⟩ := Option.map_eq_some_iff.mp hrun
  obtain ⟨hchains, hval⟩ := Prod.mk.inj hval
  obtain ⟨hreceived, hpc⟩ := Prod.mk.inj hval
  have hgranted : ∀ a ∈ threeReads, a.Granted := by
    simp [threeReads, StreamAct.Granted]
  obtain ⟨_, _, _, hall⟩ := (replies_split Resp.unpackOne_spec).1 4 (by decide) threeReads s
    hgranted hs
  refine ⟨s, hs, hchains, ?_⟩
  rw [← hchains, ← hreceived]
  exact (hall s.received List.prefix_rfl (Or.inl ⟨rfl, by rw [hpc]; decide⟩)).symm

/-! ## 4. The stream in the channel -/

/-- The place of `readerLoop` in the stream. -/
def place : ReaderPc → StreamPc
  | .head | .reading => .reading
  | .parsing => .parsing
  | .leaving => .closed

/-- The stream is the one of the channel's current connection. -/
structure Shows (s : ReplyStream) (ch : BackendChannel) (pc : ReaderPc) : Prop where
  redisIn : s.redisIn = ch.redisIn
  parser : s.parser = ch.replyParser
  pc : s.pc = place pc
  chains : s.chains.map (·.bytes) = parsedOn ch.conn ch.trace
  received : s.received = receivedOn ch.conn ch.trace

theorem not_healthy_failConnection (ch : BackendChannel) (st : Status) :
    (ch.failConnection st).isHealthy = false := by
  unfold BackendChannel.failConnection
  split
  · rename_i hne
    simp [BackendChannel.isHealthy, hne]
  · rfl

/-- **A step of `readerLoop` that leaves the channel healthy is a step of the stream**, or does not
    touch it. -/
theorem Shows.readerStep {ch ch' : BackendChannel} {pc pc' : ReaderPc}
    {io : BackendChannel.ReaderIo} (h : s.Shows ch pc)
    (hstep : ch.readerStep U pc io = some (ch', some pc')) (hhealthy : ch'.isHealthy = true) :
    s.Shows ch' pc' ∨ ∃ a s', s.step U a = some s' ∧ s'.Shows ch' pc' := by
  cases pc with
  | head =>
    cases io with
    | none =>
      obtain ⟨rfl, hpc⟩ := Prod.mk.inj (Option.some.inj hstep)
      rw [if_pos hhealthy] at hpc
      cases hpc
      exact Or.inl ⟨h.redisIn, h.parser, h.pc, h.chains, h.received⟩
    | read | parse => cases hstep
  | reading =>
    cases io with
    | read o =>
      refine Or.inr ⟨.read o, ?_⟩
      obtain ⟨⟨st, b⟩, hread, he⟩ := Option.map_eq_some_iff.mp hstep
      have hpc : s.pc = .reading := h.pc
      simp only [step, hpc, h.redisIn, hread, Option.map_some]
      cases st with
      | none =>
        cases he
        exact ⟨_, rfl, rfl, h.parser, rfl, h.chains, h.received⟩
      | some st =>
        dsimp only at he
        split at he
        · rename_i hsick
          cases he
          rw [show ch.isHealthy = true from hhealthy] at hsick
          cases hsick
        · split at he
          · cases he
            rw [not_healthy_failConnection] at hhealthy
            cases hhealthy
          · rename_i hok
            cases he
            refine ⟨_, rfl, rfl, h.parser, ?_, ?_, ?_⟩
            · exact if_pos (by simpa using hok)
            · simpa [Event.parsed] using h.chains
            · simp [Event.inBytes, h.received]
    | none | parse => cases hstep
  | parsing =>
    cases io with
    | parse alloc =>
      refine Or.inr ⟨.parse alloc, ?_⟩
      have hpc : s.pc = .parsing := h.pc
      simp only [BackendChannel.readerStep] at hstep
      split at hstep
      · rename_i hsick
        cases hstep
        rw [hhealthy] at hsick
        cases hsick
      · obtain ⟨⟨ps, out, parser, b⟩, hnext, he⟩ := Option.map_eq_some_iff.mp hstep
        simp only [step, hpc, h.redisIn, h.parser, hnext, Option.map_some]
        dsimp only at he
        split at he
        · cases he
          exact ⟨_, rfl, rfl, rfl, rfl, h.chains, h.received⟩
        · rename_i reply
          cases he
          unfold BackendChannel.dispatchReply at hhealthy ⊢
          dsimp only at hhealthy ⊢
          split at hhealthy
          · rw [not_healthy_failConnection] at hhealthy
            cases hhealthy
          · refine ⟨_, rfl, rfl, rfl, rfl, ?_, ?_⟩
            · simp [Event.parsed, h.chains]
            · simp [Event.inBytes, h.received]
        · cases he
          rw [not_healthy_failConnection] at hhealthy
          cases hhealthy
    | none | read => cases hstep
  | leaving =>
    cases io with
    | none => cases hstep
    | read | parse => cases hstep

end ReplyStream

end RedisProxy
