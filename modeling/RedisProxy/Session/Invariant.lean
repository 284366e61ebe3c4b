/-
  File:      RedisProxy/Session/Invariant.lean
  Subject:   WHAT A SESSION KEEPS BY ITSELF, whatever its clients, channels and neighbours do.

  * `Tallied` -- the reply counter, the current channel and the commands in flight agree;
  * `Orderly` -- the signals, the places of the two loops and the state agree: a loop that is
    suspended with no wake on its way has nothing to do, a loop that left had a reason to, and
    `on_finished_` is called with the end of the second loop.

  Each is proved function by function, in the order of Session/Model.lean.
-/
import RedisProxy.Session.Model

namespace RedisProxy

/-! ## 1. The counters -/

namespace ClientSession

variable {n : Nat}

/-- **The reply counter counts the commands in flight**, which are all on the current channel. -/
structure Tallied (s : ClientSession n) : Prop where
  pending : s.pendingReplies = s.inflight.length
  current : s.currentBackend = none ↔ s.inflight = []
  channels : ∀ x ∈ s.inflight, s.currentBackend = some x.channel
  aborted : s.state = .kAborted → s.inflight = []

theorem init_tallied (E : Env) (uid : Nat) : (init E uid : ClientSession n).Tallied where
  pending := rfl
  current := ⟨fun _ => rfl, fun _ => rfl⟩
  channels := nofun
  aborted := nofun

section Tallied

variable {s : ClientSession n}

/-- The counters of a session and the commands they count. -/
def tally (s : ClientSession n) := (s.pendingReplies, s.currentBackend, s.inflight)

/-- No reply is pending exactly when nothing is in flight. -/
theorem Tallied.pending_eq_zero (h : s.Tallied) : s.pendingReplies = 0 ↔ s.inflight = [] := by
  rw [h.pending, List.length_eq_zero_iff]

/-- A step that leaves the counters alone. -/
theorem Tallied.keep {s' : ClientSession n} (h : s.Tallied) (ht : s'.tally = s.tally)
    (hs : s'.state = .kAborted → s.state = .kAborted) : s'.Tallied := by
  simp only [tally, Prod.mk.injEq] at ht
  obtain ⟨hp, hc, hi⟩ := ht
  refine ⟨?_, ?_, ?_, fun ha => ?_⟩
  · rw [hp, hi]
    exact h.pending
  · rw [hc, hi]
    exact h.current
  · rw [hc, hi]
    exact h.channels
  · rw [hi]
    exact h.aborted (hs ha)

/-- A reply takes the first command off and gives the channel up with the last one. -/
theorem Tallied.onBackendReply (h : s.Tallied) (hpos : 0 < s.pendingReplies) (reply : BufferChain) :
    (s.onBackendReply reply).Tallied := by
  obtain ⟨x, rest, hin⟩ : ∃ x rest, s.inflight = x :: rest :=
    List.exists_cons_of_length_pos (h.pending ▸ hpos)
  have hlen : s.pendingReplies - 1 = rest.length := by
    rw [h.pending, hin, List.length_cons]
    omega
  have hcur : s.currentBackend = some x.channel := h.channels x (hin ▸ List.mem_cons_self)
  have htail : (s.onBackendReply reply).inflight = rest := by
    show s.inflight.tail = rest
    rw [hin]
    rfl
  refine ⟨?_, ?_, fun y hy => ?_, fun ha => ?_⟩
  · rw [htail]
    exact hlen
  · rw [htail]
    show (if s.pendingReplies - 1 = 0 then none else s.currentBackend) = none ↔ rest = []
    rw [hlen, ← List.length_eq_zero_iff, hcur]
    split <;> simp_all
  · rw [htail] at hy
    have hne : s.pendingReplies - 1 ≠ 0 := by
      have := List.length_pos_of_mem hy
      omega
    show (if s.pendingReplies - 1 = 0 then none else s.currentBackend) = some y.channel
    rw [if_neg hne]
    exact h.channels y (hin ▸ List.mem_cons_of_mem _ hy)
  · have := h.aborted ha
    rw [hin] at this
    cases this

/-- An aborted session awaits nothing. -/
theorem Tallied.left (s : ClientSession n) : s.aborted.Tallied where
  pending := rfl
  current := ⟨fun _ => rfl, fun _ => rfl⟩
  channels := nofun
  aborted _ := rfl

theorem Tallied.abort (h : s.Tallied) (a : Owner) (p : BackendPool n) :
    (s.abort a p).1.Tallied := by
  unfold ClientSession.abort
  split
  · exact h
  · exact Tallied.left s

theorem Tallied.drain (h : s.Tallied) (error : String) : (s.drain error).Tallied := by
  unfold ClientSession.drain
  split
  · exact h
  · exact h.keep rfl nofun

theorem length_slotsOf (p : BackendPool n) (c : Fin n) (a : Owner) (count : Nat) :
    (slotsOf p c a count).length = count := by
  simp [slotsOf]

theorem channel_of_slotsOf {p : BackendPool n} {c : Fin n} {a : Owner} {count : Nat} {x : Slot n}
    (h : x ∈ slotsOf p c a count) : x.channel = c := by
  obtain ⟨_, _, rfl⟩ := List.mem_map.mp h
  rfl

/-- What `submitBatch` comes to. -/
theorem submitBatch_cases (s : ClientSession n) (a : Owner) (p : BackendPool n)
    (bytes : BufferChain) (count : Nat) (frames : List Bytes) :
    (count = 0 ∧ s.submitBatch a p bytes count frames =
      (true, { s with verdicts := s.verdicts ++ verdictsOf frames [] }, p)) ∨
    (count ≠ 0 ∧ s.submitBatch a p bytes count frames =
      (false, { s with verdicts := s.verdicts ++ verdictsOf frames [] }.abort a p)) ∨
    ∃ c, count ≠ 0 ∧ p.select s.currentBackend = some c ∧
      s.submitBatch a p bytes count frames =
        (true, { s with
          currentBackend := some c
          pendingReplies := s.pendingReplies + count
          verdicts := s.verdicts ++ verdictsOf frames (slotsOf p c a count)
          batches := s.batches ++ [(bytes.bytes, count)]
          inflight := s.inflight ++ slotsOf p c a count },
        Function.update p c ((p c).submit a bytes count).2) := by
  unfold submitBatch
  by_cases h0 : count = 0
  · rw [if_pos h0]
    exact Or.inl ⟨h0, rfl⟩
  · rw [if_neg h0]
    refine Or.inr ?_
    cases hsel : p.select s.currentBackend with
    | none =>
      rw [BackendPool.submit_of_none hsel]
      exact Or.inl ⟨h0, rfl⟩
    | some c =>
      rw [BackendPool.submit_of_select hsel a bytes h0]
      exact Or.inr ⟨c, h0, rfl, rfl⟩

/-- A batch adds its commands to the count, on the one channel the session uses. -/
theorem Tallied.submitBatch (h : s.Tallied) (hopen : s.state = .kOpen) (a : Owner)
    (p : BackendPool n) (bytes : BufferChain) (count : Nat) (frames : List Bytes) :
    (s.submitBatch a p bytes count frames).2.1.Tallied := by
  rcases s.submitBatch_cases a p bytes count frames with
    ⟨_, he⟩ | ⟨_, he⟩ | ⟨c, h0, hsel, he⟩ <;> rw [he]
  · exact h.keep rfl id
  · have hkeep : { s with verdicts := s.verdicts ++ verdictsOf frames [] }.Tallied :=
      h.keep rfl id
    exact hkeep.abort a p
  · have hslots : slotsOf p c a count ≠ [] := by
      intro hnil
      have := congrArg List.length hnil
      rw [length_slotsOf] at this
      exact h0 this
    refine ⟨?_, ?_, fun x hx => ?_, fun ha => ?_⟩
    · show s.pendingReplies + count = (s.inflight ++ slotsOf p c a count).length
      rw [List.length_append, length_slotsOf, h.pending]
    · show some c = none ↔ s.inflight ++ slotsOf p c a count = []
      simp [hslots]
    · show some c = some x.channel
      rcases List.mem_append.mp hx with hx | hx
      · rcases (BackendPool.select_some hsel).2 with hc | hc
        · rw [h.current.mp hc] at hx
          cases hx
        · rw [← hc]
          exact h.channels x hx
      · rw [channel_of_slotsOf hx]
    · have ha : s.state = .kAborted := ha
      rw [hopen] at ha
      cases ha

theorem Tallied.submitRound (h : s.Tallied) (hopen : s.state = .kOpen) (a : Owner)
    (p : BackendPool n) (r : Round) : (s.submitRound a p r).2.1.Tallied := by
  unfold ClientSession.submitRound
  split
  · have hr : { s with parser := r.parser, clientIn := r.input.sliced r.consumed }.Tallied :=
      h.keep rfl id
    exact hr.submitBatch hopen a p _ _ _
  · exact h.keep rfl id

theorem Tallied.closeRound (h : s.Tallied) (r : Round) : (s.closeRound r).Tallied := by
  unfold ClientSession.closeRound
  repeat' split
  · exact (h.drain r.error).keep rfl id
  · exact h.keep rfl id
  · exact h.keep rfl id
  · exact h.keep rfl id

/-- A round of the reader keeps the tally. -/
theorem Tallied.readerTop (h : s.Tallied) {E : Env} {a : Owner} {p : BackendPool n}
    {alloc : Nat → Nat → Bool} {x : ClientSession n × BackendPool n}
    (hx : s.readerTop E a p alloc = some x) : x.1.Tallied := by
  unfold ClientSession.readerTop at hx
  split at hx
  · cases hx
    exact h.keep rfl id
  · rename_i hopen
    obtain ⟨r, _, rfl⟩ := Option.map_eq_some_iff.mp hx
    have hsub := h.submitRound (Classical.not_not.mp hopen) a p r
    dsimp only
    split
    · exact hsub.closeRound r
    · exact hsub.keep rfl id

theorem Tallied.readerAwait (h : s.Tallied) (E : Env) (error : String) :
    (s.readerAwait E error).Tallied := by
  unfold ClientSession.readerAwait
  repeat' split
  all_goals exact h.keep rfl id

theorem Tallied.readerRead (h : s.Tallied) {a : Owner} {p : BackendPool n} {o : ReadOutcome}
    {x : ClientSession n × BackendPool n} (hx : s.readerRead a p o = some x) : x.1.Tallied := by
  obtain ⟨⟨st, b⟩, _, rfl⟩ := Option.map_eq_some_iff.mp hx
  have hread : { s with clientIn := b, input := s.input ++ o.bytes }.Tallied :=
    h.keep rfl id
  cases st with
  | none => exact h.keep rfl id
  | some st =>
    dsimp only
    repeat' split
    · exact hread.keep rfl id
    · exact hread.keep rfl id
    · exact (hread.drain _).keep rfl id
    · exact (hread.abort a p).keep rfl id

theorem Tallied.finishLoop (h : s.Tallied) (a : Owner) (p : BackendPool n) :
    (s.finishLoop a p).1.Tallied := by
  unfold ClientSession.finishLoop
  split
  · exact h.keep rfl id
  · exact h.keep rfl id

/-- **Every step of the reader keeps the tally.** -/
theorem Tallied.readerStep (h : s.Tallied) {E : Env} {a : Owner} {p : BackendPool n}
    {io : SessionReaderIo} {x : ClientSession n × BackendPool n × Bool}
    (hx : s.readerStep E a p io = some x) : x.1.Tallied := by
  unfold ClientSession.readerStep at hx
  split at hx
  · obtain ⟨y, hy, rfl⟩ := Option.map_eq_some_iff.mp hx
    exact h.readerTop hy
  · cases hx
    exact h.readerAwait E _
  · obtain ⟨sig, _, rfl⟩ := Option.map_eq_some_iff.mp hx
    exact h.keep rfl id
  · cases hx
    exact h.keep rfl id
  · obtain ⟨y, hy, rfl⟩ := Option.map_eq_some_iff.mp hx
    exact h.readerRead hy
  · cases hx
    have hdone : { s with reader := .done }.Tallied := h.keep rfl id
    exact hdone.finishLoop a p
  · cases hx

theorem Tallied.writerTop (h : s.Tallied) (E : Env) : (s.writerTop E).Tallied := by
  unfold ClientSession.writerTop
  repeat' split
  all_goals exact h.keep rfl id

theorem Tallied.writerWrite (h : s.Tallied) {a : Owner} {p : BackendPool n} {c : WriteCursor}
    {o : Option WriteOutcome} {x : ClientSession n × BackendPool n}
    (hx : s.writerWrite a p c o = some x) : x.1.Tallied := by
  obtain ⟨r, _, rfl⟩ := Option.map_eq_some_iff.mp hx
  cases r with
  | running c' => exact h.keep rfl id
  | returned st =>
    dsimp only
    split
    · exact h.keep rfl id
    · exact (h.abort a p).keep rfl id

/-- **Every step of the writer keeps it.** -/
theorem Tallied.writerStep (h : s.Tallied) {E : Env} {a : Owner} {p : BackendPool n}
    {io : SessionWriterIo} {x : ClientSession n × BackendPool n × Bool}
    (hx : s.writerStep E a p io = some x) : x.1.Tallied := by
  unfold ClientSession.writerStep at hx
  split at hx
  · cases hx
    exact h.writerTop E
  · obtain ⟨sig, _, rfl⟩ := Option.map_eq_some_iff.mp hx
    exact h.keep rfl id
  · obtain ⟨y, hy, rfl⟩ := Option.map_eq_some_iff.mp hx
    exact h.writerWrite hy
  · cases hx
    have hdone : { s with writer := .done }.Tallied := h.keep rfl id
    exact hdone.finishLoop a p
  · cases hx

end Tallied

end ClientSession

/-! ## 2. The loops, the signals and the state -/

/-- The reader is suspended in `reply_signal_.wait()`. -/
def SessionReaderPc.suspended : SessionReaderPc → Bool
  | .blocked _ => true
  | _ => false

/-- The reader's loop has ended. -/
def SessionReaderPc.gone : SessionReaderPc → Bool
  | .leaving | .done => true
  | _ => false

def SessionReaderPc.ended : SessionReaderPc → Bool
  | .done => true
  | _ => false

/-- The only place after the end of the loop. -/
theorem SessionReaderPc.eq_done {pc : SessionReaderPc} (h : pc.ended = true) : pc = .done := by
  cases pc with
  | done => rfl
  | _ => cases h

/-- The writer is suspended in `output_signal_.wait()`. -/
def SessionWriterPc.suspended : SessionWriterPc → Bool
  | .blocked => true
  | _ => false

/-- The writer's loop has ended. -/
def SessionWriterPc.gone : SessionWriterPc → Bool
  | .leaving | .done => true
  | _ => false

def SessionWriterPc.ended : SessionWriterPc → Bool
  | .done => true
  | _ => false

theorem SessionWriterPc.eq_done {pc : SessionWriterPc} (h : pc.ended = true) : pc = .done := by
  cases pc with
  | done => rfl
  | _ => cases h

namespace ClientSession

variable {n : Nat}

/-- Everything the session had to write went to the socket's loop. -/
def Drained (s : ClientSession n) : Prop :=
  s.state = .kDraining ∧ s.pendingReplies = 0 ∧ s.clientOut = [] ∧ s.finalError = ""

/-- **The loops, the signals and the state agree.** -/
structure Orderly (s : ClientSession n) : Prop where
  output : s.outputSignal.Waits s.writer.suspended
  reply : s.replySignal.Waits s.reader.suspended
  writerAsleep : s.outputSignal.blocked = 1 →
    s.clientOut = [] ∧ s.state ≠ .kAborted ∧ ¬ (s.state = .kDraining ∧ s.pendingReplies = 0)
  readerAsleep : s.replySignal.blocked = 1 → s.state = .kOpen ∧ s.pendingReplies ≠ 0
  quiet : s.state = .kAborted → s.clientOut = []
  readerGone : s.reader.gone = true → s.state ≠ .kOpen
  draining : s.state = .kDraining → s.reader.gone = true
  writerGone : s.writer.gone = true → s.state = .kAborted ∨ s.Drained
  loops : s.activeLoops = (!s.reader.ended).toNat + (!s.writer.ended).toNat
  finish : s.finishCalls = (s.reader.ended && s.writer.ended).toNat

theorem init_orderly (E : Env) (uid : Nat) : (init E uid : ClientSession n).Orderly where
  output := CoroutineSignal.init_waits
  reply := CoroutineSignal.init_waits
  writerAsleep := nofun
  readerAsleep := nofun
  quiet := nofun
  readerGone := nofun
  draining := nofun
  writerGone := nofun
  loops := rfl
  finish := rfl

section Orderly

variable {s : ClientSession n}

/-- What the two loops of a session go by. -/
def control (s : ClientSession n) :=
  (s.outputSignal, s.replySignal, s.reader, s.writer, s.clientOut, s.state, s.pendingReplies,
    s.finalError, s.activeLoops, s.finishCalls)

/-- A step that the loops do not notice. -/
theorem Orderly.keep {s' : ClientSession n} (h : s.Orderly) (hc : s'.control = s.control) :
    s'.Orderly := by
  simp only [control, Prod.mk.injEq] at hc
  obtain ⟨ho, hr, hrd, hw, hq, hs, hp, hf, hl, hc⟩ := hc
  obtain ⟨h1, h2, h3, h4, h5, h6, h7, h8, h9, h10⟩ := h
  constructor <;> simp only [Drained, ho, hr, hrd, hw, hq, hs, hp, hf, hl, hc] <;> assumption

/-- The reader's loop goes to another place of the same kind. -/
theorem Orderly.readerAt (h : s.Orderly) (pc : SessionReaderPc)
    (hsusp : pc.suspended = s.reader.suspended) (hgone : pc.gone = true → s.state ≠ .kOpen)
    (hdrain : s.state = .kDraining → pc.gone = true) (hend : pc.ended = s.reader.ended) :
    { s with reader := pc }.Orderly where
  output := h.output
  reply := hsusp ▸ h.reply
  writerAsleep := h.writerAsleep
  readerAsleep := h.readerAsleep
  quiet := h.quiet
  readerGone := hgone
  draining := hdrain
  writerGone := h.writerGone
  loops := hend ▸ h.loops
  finish := hend ▸ h.finish

/-- The writer's loop goes to another place of the same kind. -/
theorem Orderly.writerAt (h : s.Orderly) (pc : SessionWriterPc)
    (hsusp : pc.suspended = s.writer.suspended)
    (hgone : pc.gone = true → s.state = .kAborted ∨ s.Drained)
    (hend : pc.ended = s.writer.ended) : { s with writer := pc }.Orderly where
  output := hsusp ▸ h.output
  reply := h.reply
  writerAsleep := h.writerAsleep
  readerAsleep := h.readerAsleep
  quiet := h.quiet
  readerGone := h.readerGone
  draining := h.draining
  writerGone := hgone
  loops := hend ▸ h.loops
  finish := hend ▸ h.finish

/-- A reply wakes the writer, and the reader with the last reply that was pending. -/
theorem Orderly.onBackendReply (h : s.Orderly) (hpos : 0 < s.pendingReplies)
    (hs : s.state ≠ .kAborted) (reply : BufferChain) : (s.onBackendReply reply).Orderly := by
  obtain ⟨hout, hout0⟩ := h.output.notify
  obtain ⟨hrep, hrep0⟩ := h.reply.notify
  refine ⟨hout, ?_, ?_, ?_, fun ha => absurd ha hs, h.readerGone, h.draining, fun hw => ?_, h.loops,
    h.finish⟩
  · show (if s.pendingReplies - 1 = 0 then s.replySignal.notify else s.replySignal).Waits _
    split
    · exact hrep
    · exact h.reply
  · intro h1
    have h1 : s.outputSignal.notify.blocked = 1 := h1
    omega
  · intro h1
    have h1 : (if s.pendingReplies - 1 = 0 then s.replySignal.notify else s.replySignal).blocked = 1 :=
      h1
    split at h1
    · omega
    · rename_i hne
      exact ⟨(h.readerAsleep h1).1, hne⟩
  · rcases h.writerGone hw with ha | hd
    · exact absurd ha hs
    · have := hd.2.1
      omega

/-- `abort()` wakes both loops. -/
theorem Orderly.left (h : s.Orderly) : s.aborted.Orderly := by
  obtain ⟨hout, hout0⟩ := h.output.notify
  obtain ⟨hrep, hrep0⟩ := h.reply.notify
  refine ⟨hout, hrep, fun h1 => ?_, fun h1 => ?_, fun _ => rfl, nofun, nofun, fun _ => Or.inl rfl,
    h.loops, h.finish⟩
  · have h1 : s.outputSignal.notify.blocked = 1 := h1
    omega
  · have h1 : s.replySignal.notify.blocked = 1 := h1
    omega

/-- `abort` wakes both loops and moves neither. -/
theorem Orderly.abort (h : s.Orderly) (a : Owner) (p : BackendPool n) :
    (s.abort a p).1.Orderly ∧ (s.abort a p).1.state = .kAborted ∧
      (s.abort a p).1.reader = s.reader ∧ (s.abort a p).1.writer = s.writer := by
  unfold ClientSession.abort
  split
  · rename_i ha
    exact ⟨h, ha, rfl, rfl⟩
  · exact ⟨h.left, rfl, rfl, rfl⟩

/-- `drain` on an open session. -/
theorem drain_of_open (hopen : s.state = .kOpen) (error : String) : s.drain error = { s with
    state := .kDraining
    finalError := error
    outputSignal := s.outputSignal.notify
    ending := some error } := by
  simp [ClientSession.drain, hopen]

/-- `drain()` is the reader's last call. -/
theorem Orderly.drain (h : s.Orderly) (error : String) (hopen : s.state = .kOpen)
    (hsusp : s.reader.suspended = false) (hend : s.reader.ended = false) :
    { s.drain error with reader := .leaving }.Orderly := by
  obtain ⟨hout, hout0⟩ := h.output.notify
  have hrep := h.reply
  have hloops := h.loops
  have hfinish := h.finish
  rw [hsusp] at hrep
  rw [hend] at hloops hfinish
  have hrep0 := hrep.blocked_of_awake
  rw [drain_of_open hopen]
  refine ⟨hout, hrep, fun h1 => ?_, fun h1 => ?_, nofun, nofun, fun _ => rfl, fun hw => ?_, hloops,
    hfinish⟩
  · have h1 : s.outputSignal.notify.blocked = 1 := h1
    omega
  · have h1 : s.replySignal.blocked = 1 := h1
    omega
  · rcases h.writerGone hw with ha | hd
    · rw [hopen] at ha
      cases ha
    · have := hd.1
      rw [hopen] at this
      cases this

/-- A batch that was taken wakes nobody; one that was not aborts the session. -/
theorem Orderly.submitBatch (h : s.Orderly) (hopen : s.state = .kOpen) (a : Owner)
    (p : BackendPool n) (bytes : BufferChain) (count : Nat) (frames : List Bytes) :
    (s.submitBatch a p bytes count frames).2.1.Orderly := by
  have hkeep : { s with verdicts := s.verdicts ++ verdictsOf frames [] }.Orderly :=
    h.keep rfl
  rcases s.submitBatch_cases a p bytes count frames with
    ⟨_, he⟩ | ⟨_, he⟩ | ⟨c, h0, _, he⟩ <;> rw [he]
  · exact hkeep
  · exact (hkeep.abort a p).1
  · refine ⟨h.output, h.reply, fun h1 => ?_, fun h1 => ?_, h.quiet, h.readerGone, h.draining,
      fun hw => ?_, h.loops, h.finish⟩
    · obtain ⟨hq, hs, _⟩ := h.writerAsleep h1
      refine ⟨hq, hs, fun hd => ?_⟩
      have hd : s.state = .kDraining := hd.1
      rw [hopen] at hd
      cases hd
    · exact ⟨hopen, by show s.pendingReplies + count ≠ 0; omega⟩
    · rcases h.writerGone hw with ha | hd
      · exact Or.inl ha
      · have := hd.1
        rw [hopen] at this
        cases this

/-- What a batch leaves alone; it was refused only if the session is aborted then. -/
theorem submitBatch_fields (s : ClientSession n) (a : Owner) (p : BackendPool n)
    (bytes : BufferChain) (count : Nat) (frames : List Bytes) :
    (s.submitBatch a p bytes count frames).2.1.reader = s.reader ∧
      ((s.submitBatch a p bytes count frames).1 = true →
        (s.submitBatch a p bytes count frames).2.1.state = s.state) ∧
      ((s.submitBatch a p bytes count frames).1 = false →
        (s.submitBatch a p bytes count frames).2.1.state = .kAborted) := by
  rcases s.submitBatch_cases a p bytes count frames with
    ⟨_, he⟩ | ⟨_, he⟩ | ⟨c, _, _, he⟩ <;> rw [he]
  · exact ⟨rfl, fun _ => rfl, nofun⟩
  · refine ⟨?_, nofun, fun _ => ?_⟩
    · unfold ClientSession.abort
      split <;> rfl
    · unfold ClientSession.abort
      split
      · assumption
      · rfl
  · exact ⟨rfl, fun _ => rfl, nofun⟩

/-- A round that was taken leaves the session open, one that was not aborts it. -/
theorem submitRound_fields (s : ClientSession n) (a : Owner) (p : BackendPool n) (r : Round) :
    (s.submitRound a p r).2.1.reader = s.reader ∧
      ((s.submitRound a p r).1 = true → (s.submitRound a p r).2.1.state = s.state) ∧
      ((s.submitRound a p r).1 = false → (s.submitRound a p r).2.1.state = .kAborted) := by
  unfold ClientSession.submitRound
  split
  · exact submitBatch_fields { s with parser := r.parser, clientIn := r.input.sliced r.consumed }
      a p _ _ _
  · exact ⟨rfl, fun _ => rfl, nofun⟩

theorem Orderly.submitRound (h : s.Orderly) (hopen : s.state = .kOpen) (a : Owner)
    (p : BackendPool n) (r : Round) : (s.submitRound a p r).2.1.Orderly := by
  unfold ClientSession.submitRound
  split
  · have hr : { s with parser := r.parser, clientIn := r.input.sliced r.consumed }.Orderly :=
      h.keep rfl
    exact hr.submitBatch hopen a p _ _ _
  · exact h.keep rfl

/-- After the round the reader stands where the round left it. -/
theorem Orderly.closeRound (h : s.Orderly) (hopen : s.state = .kOpen) (htop : s.reader = .top)
    (r : Round) : (s.closeRound r).Orderly := by
  have hdrain : s.state ≠ .kDraining := by
    rw [hopen]
    nofun
  have hmove : ∀ pc : SessionReaderPc, pc.suspended = false → pc.gone = false → pc.ended = false →
      { s with reader := pc }.Orderly := by
    intro pc h1 h2 h3
    refine h.readerAt pc ?_ ?_ (fun hd => absurd hd hdrain) ?_
    · rw [htop, h1]
      rfl
    · rw [h2]
      nofun
    · rw [htop, h3]
      rfl
  unfold ClientSession.closeRound
  repeat' split
  · exact h.drain r.error hopen (by rw [htop]; rfl) (by rw [htop]; rfl)
  · exact (hmove (.awaiting r.error) rfl rfl rfl).keep rfl
  · exact hmove .polling rfl rfl rfl
  · exact hmove .reading rfl rfl rfl

/-- The reader's loop ends once the session is not open any more. -/
theorem Orderly.leave (h : s.Orderly) (hs : s.state ≠ .kOpen) (hsusp : s.reader.suspended = false)
    (hend : s.reader.ended = false) : { s with reader := .leaving }.Orderly :=
  h.readerAt .leaving hsusp.symm (fun _ => hs) (fun _ => rfl) hend.symm

theorem Orderly.readerTop (h : s.Orderly) (htop : s.reader = .top) {E : Env} {a : Owner}
    {p : BackendPool n} {alloc : Nat → Nat → Bool} {x : ClientSession n × BackendPool n}
    (hx : s.readerTop E a p alloc = some x) : x.1.Orderly := by
  unfold ClientSession.readerTop at hx
  split at hx
  · rename_i hs
    cases hx
    exact h.leave hs (by rw [htop]; rfl) (by rw [htop]; rfl)
  · rename_i hopen
    have hopen : s.state = .kOpen := Classical.not_not.mp hopen
    obtain ⟨r, _, rfl⟩ := Option.map_eq_some_iff.mp hx
    have hsub := h.submitRound hopen a p r
    obtain ⟨hrd, htaken, hrefused⟩ := s.submitRound_fields a p r
    rw [htop] at hrd
    dsimp only
    split
    · rename_i hok
      exact hsub.closeRound ((htaken hok).trans hopen) hrd r
    · rename_i hok
      have hs := hrefused (by simpa using hok)
      exact hsub.leave (by rw [hs]; nofun) (by rw [hrd]; rfl) (by rw [hrd]; rfl)

/-- The reader waits for replies only in an open session that has some pending. -/
theorem Orderly.readerAwait (h : s.Orderly) {error : String} (hpc : s.reader = .awaiting error)
    (E : Env) : (s.readerAwait E error).Orderly := by
  have hrep := h.reply
  rw [hpc] at hrep
  have hloops := h.loops
  have hfinish := h.finish
  rw [hpc] at hloops hfinish
  unfold ClientSession.readerAwait
  split
  · rename_i hwait
    have hnd : s.state = .kDraining → False := fun hd => by
      rw [hwait.1] at hd
      cases hd
    split
    · rename_i sig hw
      have hsig := hrep.wait_returned hw
      have h0 := hsig.blocked_of_awake
      exact ⟨h.output, hsig, h.writerAsleep,
        fun h1 => absurd (h0.symm.trans h1) Nat.zero_ne_one, h.quiet, nofun,
        fun hd => (hnd hd).elim, h.writerGone, hloops, hfinish⟩
    · rename_i sig hw
      -- the loop's condition is what the reader goes to sleep with
      exact ⟨h.output, hrep.wait_suspended hw, h.writerAsleep, fun _ => hwait, h.quiet, nofun,
        fun hd => (hnd hd).elim, h.writerGone, hloops, hfinish⟩
  · split
    · rename_i hs
      exact h.leave hs (by rw [hpc]; rfl) (by rw [hpc]; rfl)
    · rename_i hopen
      have hopen : s.state = .kOpen := Classical.not_not.mp hopen
      obtain ⟨hout, hout0⟩ := h.output.notify
      have hrep0 : s.replySignal.blocked = 0 := hrep.blocked_of_awake
      refine ⟨hout, hrep, fun h1 => ?_, fun h1 => ?_, fun ha => ?_, nofun, fun hd => ?_, fun hw => ?_,
        hloops, hfinish⟩
      · have h1 : s.outputSignal.notify.blocked = 1 := h1
        omega
      · have h1 : s.replySignal.blocked = 1 := h1
        omega
      · have ha : s.state = .kAborted := ha
        rw [hopen] at ha
        cases ha
      · have hd : s.state = .kDraining := hd
        rw [hopen] at hd
        cases hd
      · rcases h.writerGone hw with ha | hd
        · exact Or.inl ha
        · have := hd.1
          rw [hopen] at this
          cases this

/-- After a read the reader is at the head of its loop or on its way out. -/
theorem Orderly.readerRead (h : s.Orderly) (hpc : s.reader = .reading) {a : Owner}
    {p : BackendPool n} {o : ReadOutcome} {x : ClientSession n × BackendPool n}
    (hx : s.readerRead a p o = some x) : x.1.Orderly := by
  obtain ⟨⟨st, b⟩, _, rfl⟩ := Option.map_eq_some_iff.mp hx
  have hread : { s with clientIn := b, input := s.input ++ o.bytes }.Orderly :=
    h.keep rfl
  have hsusp : s.reader.suspended = false := by
    rw [hpc]
    rfl
  have hend : s.reader.ended = false := by
    rw [hpc]
    rfl
  cases st with
  | none => exact h.keep rfl
  | some st =>
    dsimp only
    split
    · rename_i hs
      exact hread.leave hs hsusp hend
    · rename_i hopen
      have hopen : s.state = .kOpen := Classical.not_not.mp hopen
      repeat' split
      · refine hread.readerAt .top hsusp.symm nofun (fun hd => ?_) hend.symm
        have hd : s.state = .kDraining := hd
        rw [hopen] at hd
        cases hd
      · exact (hread.drain (endError b) hopen hsusp hend).keep rfl
      · obtain ⟨habort, hs, hrd, _⟩ := hread.abort a p
        refine habort.leave (by rw [hs]; nofun) ?_ ?_
        · rw [hrd]
          exact hsusp
        · rw [hrd]
          exact hend

/-- What `finishLoop` does to the session when `other` says whether the other loop has ended. -/
theorem finishLoop_session (s : ClientSession n) (a : Owner) (p : BackendPool n) {other : Bool}
    (hloops : s.activeLoops = 1 + (!other).toNat) (hcalls : s.finishCalls = 0) :
    (s.finishLoop a p).1 = { s with
      activeLoops := (!other).toNat
      isOpen := s.isOpen && !other
      finishCalls := other.toNat } := by
  cases other <;> simp [ClientSession.finishLoop, hloops, hcalls]

/-- The counters when the reader's task is about to end. -/
theorem Orderly.reader_leaves (h : s.Orderly) (hpc : s.reader = .leaving) :
    s.activeLoops = 1 + (!s.writer.ended).toNat ∧ s.finishCalls = 0 := by
  have hloops := h.loops
  have hfinish := h.finish
  rw [hpc] at hloops hfinish
  exact ⟨hloops, hfinish⟩

/-- The counters when the writer's task is about to end. -/
theorem Orderly.writer_leaves (h : s.Orderly) (hpc : s.writer = .leaving) :
    s.activeLoops = 1 + (!s.reader.ended).toNat ∧ s.finishCalls = 0 := by
  have hloops := h.loops
  have hfinish := h.finish
  rw [hpc] at hloops hfinish
  rw [Bool.and_comm] at hfinish
  exact ⟨hloops.trans (Nat.add_comm _ _), hfinish⟩

/-- Both tasks have ended in a session that called `on_finished_`. -/
theorem Orderly.both_done (h : s.Orderly) (hfin : s.finishCalls = 1) :
    s.reader = .done ∧ s.writer = .done := by
  have hboth : (s.reader.ended && s.writer.ended) = true := by
    rw [← Bool.toNat_eq_one, ← h.finish]
    exact hfin
  obtain ⟨hr, hw⟩ := Bool.and_eq_true_iff.mp hboth
  exact ⟨SessionReaderPc.eq_done hr, SessionWriterPc.eq_done hw⟩

/-- The end of the reader's task, with `on_finished_` if the writer's has ended before. -/
theorem Orderly.readerFinish (h : s.Orderly) (hpc : s.reader = .leaving) (a : Owner)
    (p : BackendPool n) : ({ s with reader := .done }.finishLoop a p).1.Orderly := by
  obtain ⟨hloops, hcalls⟩ := h.reader_leaves hpc
  have hgone := h.readerGone (by rw [hpc]; rfl)
  have hrep := h.reply
  rw [hpc] at hrep
  rw [finishLoop_session { s with reader := .done } a p hloops hcalls]
  exact ⟨h.output, hrep, h.writerAsleep, h.readerAsleep, h.quiet, fun _ => hgone, fun _ => rfl,
    h.writerGone, (Nat.zero_add _).symm, rfl⟩

/-- **Every step of the reader keeps the order of the loops and signals.** -/
theorem Orderly.readerStep (h : s.Orderly) {E : Env} {a : Owner} {p : BackendPool n}
    {io : SessionReaderIo} {x : ClientSession n × BackendPool n × Bool}
    (hx : s.readerStep E a p io = some x) : x.1.Orderly := by
  unfold ClientSession.readerStep at hx
  split at hx
  · rename_i hpc
    obtain ⟨y, hy, rfl⟩ := Option.map_eq_some_iff.mp hx
    exact h.readerTop hpc hy
  · rename_i hpc
    cases hx
    exact h.readerAwait hpc E
  · rename_i hpc
    obtain ⟨sig, hsig, rfl⟩ := Option.map_eq_some_iff.mp hx
    have hrep := h.reply
    have hloops := h.loops
    have hfinish := h.finish
    rw [hpc] at hrep hloops hfinish
    have hwait := hrep.resume hsig
    have h0 := hwait.blocked_of_awake
    refine ⟨h.output, hwait, h.writerAsleep, fun h1 => absurd (h0.symm.trans h1) Nat.zero_ne_one,
      h.quiet, nofun, fun hd => ?_, h.writerGone, hloops, hfinish⟩
    have := h.draining hd
    rw [hpc] at this
    cases this
  · rename_i hpc
    cases hx
    refine h.readerAt .top (by rw [hpc]; rfl) nofun (fun hd => ?_) (by rw [hpc]; rfl)
    have := h.draining hd
    rw [hpc] at this
    cases this
  · rename_i hpc
    obtain ⟨y, hy, rfl⟩ := Option.map_eq_some_iff.mp hx
    exact h.readerRead hpc hy
  · rename_i hpc
    cases hx
    exact h.readerFinish hpc a p
  · cases hx

/-- The writer waits only when it has nothing to write and more may come. -/
theorem Orderly.writerTop (h : s.Orderly) (hpc : s.writer = .top) (E : Env) :
    (s.writerTop E).Orderly := by
  have hout := h.output
  have hloops := h.loops
  have hfinish := h.finish
  rw [hpc] at hout hloops hfinish
  have hmove : ∀ pc : SessionWriterPc, pc.suspended = false → pc.ended = false →
      (pc.gone = true → s.state = .kAborted ∨ s.Drained) → { s with writer := pc }.Orderly := by
    intro pc h1 h2 h3
    refine h.writerAt pc ?_ h3 ?_
    · rw [hpc, h1]
      rfl
    · rw [hpc, h2]
      rfl
  unfold ClientSession.writerTop
  split
  · rename_i ha
    exact hmove .leaving rfl rfl fun _ => Or.inl ha
  · rename_i ha
    split
    · rename_i hq
      split
      · rename_i hd
        split
        · rename_i hf
          exact hmove .leaving rfl rfl fun _ => Or.inr ⟨hd.1, hd.2, hq, hf⟩
        · refine ⟨hout, h.reply, fun h1 => ?_, h.readerAsleep, h.quiet, h.readerGone, h.draining,
            nofun, hloops, hfinish⟩
          exact h.writerAsleep h1
      · rename_i hd
        split
        · rename_i sig hw
          have hsig := hout.wait_returned hw
          have h0 := hsig.blocked_of_awake
          refine ⟨hpc ▸ hsig, h.reply, fun h1 => absurd (h0.symm.trans h1) Nat.zero_ne_one,
            h.readerAsleep, h.quiet, h.readerGone, h.draining, h.writerGone, h.loops, h.finish⟩
        · rename_i sig hw
          -- the branch's condition is what the writer goes to sleep with
          exact ⟨hout.wait_suspended hw, h.reply, fun _ => ⟨hq, ha, hd⟩, h.readerAsleep, h.quiet,
            h.readerGone, h.draining, nofun, hloops, hfinish⟩
    · have h0 := hout.blocked_of_awake
      exact ⟨hout, h.reply, fun h1 => absurd (h0.symm.trans h1) Nat.zero_ne_one, h.readerAsleep,
        fun hs => absurd hs ha, h.readerGone, h.draining, nofun, hloops, hfinish⟩

/-- After a write the writer is at the head of its loop or on its way out. -/
theorem Orderly.writerWrite (h : s.Orderly) {a : Owner} {p : BackendPool n} {c : WriteCursor}
    (hpc : s.writer = .writing c) {o : Option WriteOutcome} {x : ClientSession n × BackendPool n}
    (hx : s.writerWrite a p c o = some x) : x.1.Orderly := by
  have hsusp : s.writer.suspended = false := by
    rw [hpc]
    rfl
  have hend : s.writer.ended = false := by
    rw [hpc]
    rfl
  obtain ⟨r, _, rfl⟩ := Option.map_eq_some_iff.mp hx
  cases r with
  | running c' =>
    exact (h.writerAt (.writing c') hsusp.symm nofun hend.symm).keep rfl
  | returned st =>
    dsimp only
    split
    · exact h.writerAt .top hsusp.symm nofun hend.symm
    · obtain ⟨habort, hs, _, hwr⟩ := h.abort a p
      refine habort.writerAt .leaving ?_ (fun _ => Or.inl hs) ?_
      · rw [hwr]
        exact hsusp.symm
      · rw [hwr]
        exact hend.symm

/-- The end of the writer's task, with `on_finished_` if the reader's has ended before. -/
theorem Orderly.writerFinish (h : s.Orderly) (hpc : s.writer = .leaving) (a : Owner)
    (p : BackendPool n) : ({ s with writer := .done }.finishLoop a p).1.Orderly := by
  obtain ⟨hloops, hcalls⟩ := h.writer_leaves hpc
  have hgone := h.writerGone (by rw [hpc]; rfl)
  have hout := h.output
  rw [hpc] at hout
  rw [finishLoop_session { s with writer := .done } a p hloops hcalls]
  exact ⟨hout, h.reply, h.writerAsleep, h.readerAsleep, h.quiet, h.readerGone, h.draining,
    fun _ => hgone, (Nat.add_zero _).symm, congrArg Bool.toNat (Bool.and_true _).symm⟩

/-- **Every step of the writer keeps it.** -/
theorem Orderly.writerStep (h : s.Orderly) {E : Env} {a : Owner} {p : BackendPool n}
    {io : SessionWriterIo} {x : ClientSession n × BackendPool n × Bool}
    (hx : s.writerStep E a p io = some x) : x.1.Orderly := by
  unfold ClientSession.writerStep at hx
  split at hx
  · rename_i hpc
    cases hx
    exact h.writerTop hpc E
  · rename_i hpc
    obtain ⟨sig, hsig, rfl⟩ := Option.map_eq_some_iff.mp hx
    have hout := h.output
    have hloops := h.loops
    have hfinish := h.finish
    rw [hpc] at hout hloops hfinish
    have hwait := hout.resume hsig
    have h0 := hwait.blocked_of_awake
    exact ⟨hwait, h.reply, fun h1 => absurd (h0.symm.trans h1) Nat.zero_ne_one, h.readerAsleep,
      h.quiet, h.readerGone, h.draining, nofun, hloops, hfinish⟩
  · rename_i hpc
    obtain ⟨y, hy, rfl⟩ := Option.map_eq_some_iff.mp hx
    exact h.writerWrite hpc hy
  · rename_i hpc
    cases hx
    exact h.writerFinish hpc a p
  · cases hx

end Orderly

end ClientSession

end RedisProxy
