/-
  File:      RedisProxy/Channel/Delivery.lean
  Subject:   WHO GETS A REPLY. Matching by position is matching by command.

  `Answers` says what became of every reply frame: it goes to the owner of the command it
  answers by position, unless that owner was detached, and a frame too many goes to nobody and
  fails the connection. It is an invariant of the line (`Step.replies`); `step_calls` ties it to
  the calls of `onBackendReply` the code makes.
-/
import RedisProxy.Channel.Balance

namespace RedisProxy

open Lib

namespace Line

/-! ## 1. The replies of a line -/

/-- What every reply frame came to: a reply goes to the owner of the command it answers by
    position, unless it was detached; a frame nobody waits for is followed by the failure of the
    connection. -/
def Answers : List Event → Prop :=
  Always fun e past =>
    (∀ n f dest, e = .replied n f dest → ∃ c, nextCommand n past = some c ∧
      (fate c past = .outstanding n ∧ dest = some c.owner ∨
        fate c past = .detached ∧ dest = none)) ∧
    (∀ n f, e = .stray n f → nextCommand n past = none) ∧
    (∀ n f old, past = .stray n f :: old → ∃ st, e = .failed n st)

/-- The replies of a line and the bytes they were cut from. -/
structure Replies (l : Line) : Prop where
  answers : Answers l.trace
  settled : ∀ n f old, l.trace ≠ .stray n f :: old
  cut : ∀ n, (parsedOn n l.trace).flatten <+: receivedOn n l.trace
  input : l.ready = true →
    receivedOn l.conn l.trace = (parsedOn l.conn l.trace).flatten ++ l.unparsed

theorem init_replies : init.Replies where
  answers := trivial
  settled := nofun
  cut _ := List.nil_prefix
  input := nofun

/-- A step that notes an event which is no reply frame. -/
theorem Replies.note {l l' : Line} (h : l.Replies) (e : Event) (htrace : l'.trace = e :: l.trace)
    (hconn : l'.conn = l.conn) (hready : l'.ready = true → l.ready = true)
    (hr : ∀ n f dest, e ≠ .replied n f dest) (hst : ∀ n f, e ≠ .stray n f)
    (hin : ∀ n, e.inBytes n = []) (hun : l'.unparsed = l.unparsed) : l'.Replies := by
  have hparsed : ∀ n, e.parsed n = [] := by
    intro n
    cases e with
    | replied m f dest => exact absurd rfl (hr m f dest)
    | stray m f => exact absurd rfl (hst m f)
    | _ => rfl
  constructor
  · rw [htrace]
    refine ⟨⟨fun n f dest he => absurd he (hr n f dest), fun n f he => absurd he (hst n f),
      fun n f old he => absurd he (h.settled n f old)⟩, h.answers⟩
  · intro n f old he
    rw [htrace] at he
    exact hst n f (List.cons.inj he).1
  · intro n
    rw [htrace, parsedOn_cons, receivedOn_cons, hparsed, hin, List.append_nil, List.append_nil]
    exact h.cut n
  · intro hl
    rw [htrace, hconn, parsedOn_cons, receivedOn_cons, hparsed, hin, List.append_nil,
      List.append_nil, hun]
    exact h.input (hready hl)

theorem Replies.keep {l l' : Line} (h : l.Replies) (htrace : l'.trace = l.trace)
    (hinput : l'.ready = true → l.ready = true ∧ l'.conn = l.conn ∧ l'.unparsed = l.unparsed) :
    l'.Replies := by
  refine ⟨htrace ▸ h.answers, htrace ▸ h.settled, htrace ▸ h.cut, fun hl => ?_⟩
  obtain ⟨hr, hc, hu⟩ := hinput hl
  rw [htrace, hc, hu]
  exact h.input hr

/-- Bytes arrive. -/
theorem Replies.receive {l : Line} (h : l.Replies) (bs : Bytes) :
    Replies { l with unparsed := l.unparsed ++ bs, trace := .received l.conn bs :: l.trace } := by
  refine ⟨⟨⟨nofun, nofun, fun n f old he => absurd he (h.settled n f old)⟩, h.answers⟩, nofun,
    fun n => ?_, fun hr => ?_⟩
  · simp only [parsedOn_cons, receivedOn_cons, Event.parsed, List.append_nil]
    exact (h.cut n).trans (List.prefix_append _ _)
  · simp only [parsedOn_cons, receivedOn_cons, Event.parsed, Event.inBytes, List.append_nil,
      if_true, h.input hr, List.append_assoc]

/-- **A reply frame goes to the owner of the command it answers**, unless it was detached. -/
theorem Replies.answer {l : Line} (h : l.Replies) (hb : l.Balanced) {p : PendingBatch}
    {q : List PendingBatch} {r : BufferChain} {rest : Bytes} (ready : l.ready = true)
    (queue : l.pendingQueue = p :: q) (input : l.unparsed = r.bytes ++ rest) :
    (l.answer p q r rest).Replies := by
  have hnext := hb.nextCommand ready queue
  have hp : p ∈ l.pendingQueue := by rw [queue]; exact List.mem_cons_self
  have hc : (⟨p.id, p.answered, p.sender⟩ : Command) ∈ p.commands := by
    rw [commands_answered (hb.positive p hp)]
    exact List.mem_cons_self
  have hin := h.input ready
  rw [input] at hin
  refine ⟨⟨⟨?_, nofun, fun n f old he => absurd he (h.settled n f old)⟩, h.answers⟩, nofun,
    fun n => ?_, fun _ => ?_⟩
  · intro n f dest he
    obtain ⟨rfl, rfl, rfl⟩ := Event.replied.inj he
    refine ⟨_, hnext, ?_⟩
    cases ho : p.owner with
    | none => exact Or.inr ⟨hb.detached p hp ho _ hc, rfl⟩
    | some o =>
      refine Or.inl ⟨(hb.outstanding _ _).mpr ⟨rfl, Or.inr ?_⟩, ?_⟩
      · exact mem_owed.mpr ⟨p, hp, by rw [ho]; rfl, hc⟩
      · rw [hb.senders p hp o ho]
  · by_cases hne : l.conn = n
    · subst hne
      simp [Line.answer, Event.parsed, Event.inBytes, hin]
    · simpa [Line.answer, Event.parsed, Event.inBytes, hne] using h.cut n
  · simp [Line.answer, Event.parsed, Event.inBytes, hin]

/-- **A frame too many goes to nobody** and fails the connection. -/
theorem Replies.stray {l : Line} (h : l.Replies) (hb : l.Balanced) {f rest : Bytes} (st : Status)
    (ready : l.ready = true) (queue : l.pendingQueue = []) (input : l.unparsed = f ++ rest) :
    ({ l with unparsed := rest, trace := .stray l.conn f :: l.trace }.fail st).Replies := by
  have hin := h.input ready
  rw [input] at hin
  refine ⟨⟨⟨nofun, nofun, fun n f' old he => ?_⟩,
    ⟨nofun, fun n f' he => ?_, fun n f' old he => absurd he (h.settled n f' old)⟩, h.answers⟩,
    nofun, fun n => ?_, nofun⟩
  · obtain ⟨he, _⟩ := List.cons.inj he
    obtain ⟨rfl, _⟩ := Event.stray.inj he
    exact ⟨st, rfl⟩
  · obtain ⟨rfl, _⟩ := Event.stray.inj he
    exact hb.nextCommand_none ready queue
  · by_cases hne : l.conn = n
    · subst hne
      simp [Line.fail, Event.parsed, Event.inBytes, hin]
    · simpa [Line.fail, Event.parsed, Event.inBytes, hne] using h.cut n

/-- A connection starts with nothing received and nothing parsed. -/
theorem Replies.connect {l : Line} (h : l.Replies) (hn : l.Numbered) (task : l.task = .dialing)
    (input : l.unparsed = []) :
    Replies { l with ready := true, task := .idle, trace := .connected l.conn :: l.trace } := by
  obtain ⟨_, hparsed, hrecv, _⟩ := on_fresh fun e he => hn.fresh task he
  refine ⟨⟨⟨nofun, nofun, fun n f old he => absurd he (h.settled n f old)⟩, h.answers⟩, nofun,
    fun n => ?_, fun _ => ?_⟩
  · simpa [Event.parsed, Event.inBytes] using h.cut n
  · simp [Event.parsed, Event.inBytes, hparsed, hrecv, input]

theorem Step.replies {may : List Frame → Outside → Prop} {l l' : Line} (hs : Step may l l')
    (hn : l.Numbered) (hb : l.Balanced) (h : l.Replies) : l'.Replies := by
  cases hs with
  | submit o bytes count ready pos call => exact h.note _ rfl rfl id nofun nofun (fun _ => rfl) rfl
  | detach o call => exact h.note _ rfl rfl id nofun nofun (fun _ => rfl) rfl
  | start ready => exact h.note _ rfl rfl id nofun nofun (fun _ => rfl) rfl
  | stop call => exact h.note _ rfl rfl id nofun nofun (fun _ => rfl) rfl
  | fail st ready frames => exact h.note _ rfl rfl nofun nofun nofun (fun _ => rfl) rfl
  | take b q frames ready task queue => exact h.note _ rfl rfl id nofun nofun (fun _ => rfl) rfl
  | wrote bs rest frames task => exact h.note _ rfl rfl id nofun nofun (fun _ => rfl) rfl
  | wroteAll task => exact h.keep rfl fun hr => ⟨hr, rfl, rfl⟩
  | gaveUp ready => exact h.keep rfl fun hr => ⟨hr, rfl, rfl⟩
  | received bs frames task => exact h.receive bs
  | answer p q r rest frames ready queue input => exact h.answer hb ready queue input
  | stray f rest st frames ready queue input => exact h.stray hb st ready queue input
  | dial frames ready input =>
    refine h.keep rfl fun hr => ?_
    rw [show l.ready = true from hr] at ready
    cases ready
  | connect frames task input => exact h.connect hn task input
  | clear frames ready =>
    refine h.keep rfl fun hr => ?_
    rw [show l.ready = true from hr] at ready
    cases ready
  | call st o todo fs frames mem => exact h.note _ rfl rfl id nofun nofun (fun _ => rfl) rfl
  | ret f fs frames idle back => exact h.keep rfl fun hr => ⟨hr, rfl, rfl⟩

end Line

/-! ## 2. The calls of `onBackendReply` -/

namespace BackendChannel

/-- A step that notes no reply and calls no `onBackendReply`. -/
def Silent (ch ch' : BackendChannel) : Prop :=
  (∃ new, ch'.trace = new ++ ch.trace ∧ ∀ n f dest, .replied n f dest ∉ new) ∧
    ∀ o r, ch'.frames ≠ .onReply o r :: ch.frames

/-- A step that notes events of which `P` holds, and calls no `onBackendReply`. -/
def Pushes (P : Event → Prop) (ch ch' : BackendChannel) : Prop :=
  ∃ new fs, ch'.trace = new ++ ch.trace ∧ ch'.frames = fs ++ ch.frames ∧ (∀ e ∈ new, P e) ∧
    ∀ o r, .onReply o r ∉ fs

/-- A step that parses no frame. -/
def Mute : BackendChannel → BackendChannel → Prop := Pushes fun e => ∀ n, e.parsed n = []

theorem Pushes.silent {P : Event → Prop} {ch ch' : BackendChannel} (h : ch.Pushes P ch')
    (hP : ∀ n f dest, ¬ P (.replied n f dest)) : ch.Silent ch' := by
  obtain ⟨new, fs, ht, hf, hnew, hfs⟩ := h
  refine ⟨⟨new, ht, fun n f dest hmem => hP n f dest (hnew _ hmem)⟩, fun o r h => ?_⟩
  rw [hf] at h
  have hx : fs = [.onReply o r] := List.append_cancel_right (h.trans (by simp))
  exact hfs o r (by rw [hx]; exact List.mem_singleton.mpr rfl)

theorem Mute.silent {ch ch' : BackendChannel} (h : ch.Mute ch') : ch.Silent ch' :=
  Pushes.silent h fun n f dest hP => absurd (hP n) (by simp [Event.parsed])

theorem mute_same {ch ch' : BackendChannel} (ht : ch'.trace = ch.trace)
    (hf : ch'.frames = ch.frames) : ch.Mute ch' :=
  ⟨[], [], ht, hf, nofun, nofun⟩

/-- A step that notes one event which is no frame. -/
theorem mute_note {ch ch' : BackendChannel} {e : Event} (ht : ch'.trace = e :: ch.trace)
    (hf : ch'.frames = ch.frames) (he : ∀ n, e.parsed n = []) : ch.Mute ch' :=
  ⟨[e], [], ht, hf, fun e' h => by rw [List.mem_singleton.mp h]; exact he, nofun⟩

theorem failConnection_push (ch : BackendChannel) (st : Status) :
    (ch.failConnection st).trace = ch.trace ∧ (ch.failConnection st).frames = ch.frames ∨
      (ch.failConnection st).trace = [.failed ch.conn st] ++ ch.trace ∧
        (ch.failConnection st).frames = [.failing st ch.owners] ++ ch.frames := by
  unfold failConnection
  split
  · exact Or.inl ⟨rfl, rfl⟩
  · exact Or.inr ⟨rfl, rfl⟩

/-- `failConnection` after other events and calls. -/
theorem Pushes.fail {P : Event → Prop} {ch ch₀ : BackendChannel} (h : ch.Pushes P ch₀)
    (hP : ∀ n st, P (.failed n st)) (st : Status) : ch.Pushes P (ch₀.failConnection st) := by
  obtain ⟨new, fs, ht, hf, hnew, hfs⟩ := h
  rcases failConnection_push ch₀ st with ⟨ht', hf'⟩ | ⟨ht', hf'⟩
  · exact ⟨new, fs, ht'.trans ht, hf'.trans hf, hnew, hfs⟩
  · rw [ht, ← List.append_assoc] at ht'
    rw [hf, ← List.append_assoc] at hf'
    refine ⟨_, _, ht', hf', fun e he => ?_, by simpa using hfs⟩
    rcases List.mem_cons.mp he with rfl | he
    · exact hP _ _
    · exact hnew e he

theorem Mute.fail {ch ch₀ : BackendChannel} (h : ch.Mute ch₀) (st : Status) :
    ch.Mute (ch₀.failConnection st) :=
  Pushes.fail h (fun _ _ _ => rfl) st

theorem mute_apply (ch : BackendChannel) (o : Op) : ch.Mute (ch.apply o) := by
  cases o with
  | submit owner bytes count =>
    simp only [apply, submit]
    split
    · exact mute_same rfl rfl
    · exact mute_note rfl rfl fun _ => rfl
  | detachOwner owner => exact mute_note rfl rfl fun _ => rfl
  | start config =>
    simp only [apply, start]
    split
    · exact mute_same rfl rfl
    · exact mute_note rfl rfl fun _ => rfl
  | stop =>
    refine Mute.fail ⟨[.stopped], [.stopTail], rfl, rfl, fun e he _ => ?_, by simp⟩ _
    rw [List.mem_singleton.mp he]
    rfl

theorem mute_runStep {ch : BackendChannel} {pc : RunPc} {io : RunIo}
    {x : BackendChannel × Option RunPc} (h : ch.runStep pc io = some x) : ch.Mute x.1 := by
  have hsignal : ∀ s pc', x = ({ ch with writerSignal := s }, pc') → ch.Mute x.1 := by
    rintro s pc' rfl
    exact mute_same rfl rfl
  cases pc with
  | loopHead =>
    simp only [runStep] at h
    split at h
    · cases h
      exact mute_same rfl rfl
    · split at h <;> cases h <;> exact mute_same rfl rfl
  | connecting =>
    cases io <;> simp only [runStep] at h <;> try cases h
    split at h <;> cases h
    · exact mute_note rfl rfl fun _ => rfl
    · exact hsignal ch.writerSignal _ rfl
  | writerHead =>
    cases io <;> simp only [runStep] at h <;> try cases h
    split at h
    · cases h
      exact hsignal ch.writerSignal _ rfl
    · split at h
      · obtain ⟨s, pc, he, _⟩ := waitWriter_eq ch .writerHead .writerWait
        exact hsignal s _ ((Option.some.inj h).symm.trans he)
      · cases h
        exact mute_note rfl rfl fun _ => rfl
  | writerWait | joinWait =>
    cases io <;> simp only [runStep] at h <;> try cases h
    obtain ⟨s, _, rfl⟩ := Option.map_eq_some_iff.mp h
    exact hsignal s _ rfl
  | writing c =>
    cases io <;> simp only [runStep] at h <;> try cases h
    obtain ⟨w, _, rfl⟩ := Option.map_eq_some_iff.mp h
    cases w with
    | running c' => exact mute_note rfl rfl fun _ => rfl
    | returned st =>
      dsimp only
      split
      · exact mute_same rfl rfl
      · exact (mute_same rfl rfl : ch.Mute ch).fail st
  | joinHead =>
    cases io <;> simp only [runStep] at h <;> try cases h
    split at h
    · cases h
      exact hsignal ch.writerSignal _ rfl
    · obtain ⟨s, pc, he, _⟩ := waitWriter_eq ch .joinHead .joinWait
      exact hsignal s _ ((Option.some.inj h).symm.trans he)
  | cleanup =>
    cases io <;> simp only [runStep] at h <;> cases h
    exact mute_same rfl rfl
  | backoff =>
    cases io <;> simp only [runStep] at h <;> cases h
    exact hsignal ch.writerSignal _ rfl

/-- A step that notes a reply and, if the answered batch has an owner, calls it with that very
    reply. -/
def Replying (ch ch' : BackendChannel) : Prop :=
  ∃ (dest : Option Owner) (r : BufferChain),
    ch'.trace = .replied ch.conn r.bytes dest :: ch.trace ∧
      ch'.frames = (dest.map fun o => .onReply o r).toList ++ ch.frames

/-- A step of the reader parses no frame, or it dispatches the one it found. -/
theorem readerStep_cases {U : UnpackOne} {ch : BackendChannel} {pc : ReaderPc} {io : ReaderIo}
    {x : BackendChannel × Option ReaderPc} (h : ch.readerStep U pc io = some x) :
    ch.Mute x.1 ∨ ∃ alloc reply parser b, ch.isHealthy = true ∧
      ch.replyParser.nextReplyFrame U alloc ch.redisIn = some (.kOk, some reply, parser, b) ∧
      x.1 = { ch with replyParser := parser, redisIn := b }.dispatchReply reply := by
  cases pc with
  | head | leaving =>
    cases io <;> simp only [readerStep] at h <;> cases h
    exact Or.inl (mute_same rfl rfl)
  | reading =>
    cases io with
    | none | parse _ => cases h
    | read o =>
      obtain ⟨⟨st, b⟩, _, rfl⟩ := Option.map_eq_some_iff.mp h
      refine Or.inl ?_
      cases st with
      | none => exact mute_same rfl rfl
      | some st =>
        have hread : ch.Mute { ch with
            redisIn := b, trace := .received ch.conn o.bytes :: ch.trace } :=
          mute_note rfl rfl fun _ => rfl
        dsimp only
        repeat' split
        · exact hread
        · exact hread.fail st
        · exact hread
  | parsing =>
    cases io with
    | none | read _ => cases h
    | parse alloc =>
      simp only [readerStep] at h
      split at h
      · cases h
        exact Or.inl (mute_same rfl rfl)
      · rename_i hready
        obtain ⟨⟨ps, chain, parser, b⟩, hnext, rfl⟩ := Option.map_eq_some_iff.mp h
        dsimp only
        have hparse : ch.Mute { ch with replyParser := parser, redisIn := b } := mute_same rfl rfl
        split
        · exact Or.inl hparse
        · exact Or.inr ⟨alloc, _, parser, b, by simpa using hready, hnext, rfl⟩
        · exact Or.inl (hparse.fail _)

theorem dispatchReply_calls (ch : BackendChannel) (reply : BufferChain) :
    ch.Silent (ch.dispatchReply reply) ∨ ch.Replying (ch.dispatchReply reply) := by
  unfold dispatchReply
  split
  · have hstray : ch.Pushes (fun e => ∀ n f dest, e ≠ .replied n f dest)
        { ch with trace := .stray ch.conn reply.bytes :: ch.trace } := by
      refine ⟨[.stray ch.conn reply.bytes], [], rfl, rfl, fun e he => ?_, nofun⟩
      rw [List.mem_singleton.mp he]
      nofun
    exact Or.inl ((hstray.fail (by intro n st n' f dest; nofun) _).silent
      fun n f dest hP => hP n f dest rfl)
  · exact Or.inr ⟨_, reply, rfl, rfl⟩

theorem readerStep_calls {U : UnpackOne} {ch : BackendChannel} {pc : ReaderPc} {io : ReaderIo}
    {x : BackendChannel × Option ReaderPc} (h : ch.readerStep U pc io = some x) :
    ch.Silent x.1 ∨ ch.Replying x.1 := by
  rcases readerStep_cases h with hmute | ⟨_, reply, parser, b, _, _, hx⟩
  · exact Or.inl hmute.silent
  · rw [hx]
    exact dispatchReply_calls { ch with replyParser := parser, redisIn := b } reply

/-- **A step calls `onBackendReply` exactly for the reply it notes.** -/
theorem step_calls {U : UnpackOne} {allow : Owner → Op → Bool} {ch ch' : BackendChannel} {a : Act}
    (hs : ch.step U allow a = some ch') : ch.Silent ch' ∨ ch.Replying ch' := by
  cases a with
  | op o =>
    simp only [step] at hs
    split at hs
    · cases hs
      exact Or.inl (mute_apply ch o).silent
    · cases hs
  | ret =>
    simp only [step, ret] at hs
    split at hs <;> cases hs <;> rename_i hfr <;>
      refine Or.inl ⟨⟨[], rfl, fun _ _ _ => List.not_mem_nil⟩, fun o r h => ?_⟩ <;>
      exact absurd (congrArg List.length h) (by simp [hfr, Nat.add_assoc])
  | next o =>
    simp only [step, next] at hs
    split at hs
    · rename_i hfr
      split at hs
      · cases hs
        exact Or.inl ⟨⟨[_], rfl, by simp⟩, fun o r h => by simp at h⟩
      · cases hs
    · cases hs
  | run i io =>
    simp only [step, runTask] at hs
    split at hs
    · obtain ⟨x, hx, rfl⟩ := Option.map_eq_some_iff.mp hs
      exact Or.inl (mute_runStep hx).silent
    · cases hs
  | reader i io =>
    simp only [step, readerTask] at hs
    split at hs
    · obtain ⟨x, hx, rfl⟩ := Option.map_eq_some_iff.mp hs
      exact readerStep_calls hx
    · cases hs

/-! ## 3. Every reachable channel -/

section Reachable

variable {U : UnpackOne} {allow : Owner → Op → Bool} {blockSize : Nat} {hb : 0 < blockSize}
  {ch : BackendChannel}

theorem ledger_reachable (h : (machine U allow blockSize hb).Reachable ch) :
    ch.line.Numbered ∧ ch.line.Balanced ∧ ch.line.Replies :=
  line_invariant (I := fun l => l.Numbered ∧ l.Balanced ∧ l.Replies)
    ⟨Line.init_numbered, Line.init_balanced, Line.init_replies⟩
    (fun _ _ hI hs => ⟨hs.numbered hI.1, hs.balanced hI.1 hI.2.1,
      hs.replies hI.1 hI.2.1 hI.2.2⟩) h

/-- **Replies are matched by position, and that is right.** On every run and every connection,
    the k-th reply frame goes to the owner of the k-th command started there if that owner has
    not been detached since it submitted it, and to nobody otherwise; a reply that is delivered
    answers a command submitted on the same connection; a frame for which no started command is
    left is followed by the failure of the connection. The frames are cut from the bytes
    received, and `onBackendReply` is called exactly for these deliveries, with the frame. The
    submissions and detachments this speaks of are the calls: `submit` notes one exactly when it
    returns true, `detachOwner` always, and no other step does. -/
theorem replies_by_position (h : (machine U allow blockSize hb).Reachable ch) :
    Always (fun e past => ∀ n f dest, e = .replied n f dest →
      ∃ c, (commandsOn n past)[(parsedOn n past).length]? = some c ∧
        dest = (if attached c.id c.owner past then some c.owner else none) ∧
        (dest ≠ none →
          ∃ bytes count, .submitted n c.id c.owner bytes count ∈ past ∧ c.pos < count)) ch.trace ∧
    (∀ n f new past, ch.trace = new ++ .stray n f :: past →
      (commandsOn n past)[(parsedOn n past).length]? = none ∧
        ∃ later st, new = later ++ [.failed n st]) ∧
    (∀ n, (parsedOn n ch.trace).flatten <+: receivedOn n ch.trace) ∧
    (∀ a ch', ch.step U allow a = some ch' → ch.Silent ch' ∨ ch.Replying ch') ∧
    (∀ o bytes count, (ch.submit o bytes count).1 = true → (ch.submit o bytes count).2.trace =
      .submitted ch.conn ch.trace.length o bytes.bytes count :: ch.trace) ∧
    (∀ o, (ch.detachOwner o).trace = .detached o :: ch.trace) ∧
    (∀ a ch', ch.step U allow a = some ch' → ch.Noting a ch') := by
  obtain ⟨hn, _, hr⟩ := ledger_reachable h
  have hids : Submissions ch.trace := hn.ids
  have hans : Line.Answers ch.trace := hr.answers
  refine ⟨?_, ?_, hr.cut, fun a ch' hs => step_calls hs, fun o bytes count => submit_noted,
    fun o => rfl, fun a ch' hs => step_noting (life_reachable h) hs⟩
  · rw [always_iff]
    rintro new e past hsplit n f dest rfl
    obtain ⟨c, hnext, hdest⟩ := (always_iff.mp hans new _ past hsplit).1 n f dest rfl
    have hpast : Submissions past := by
      rw [Submissions, always_iff]
      intro new' e' old hsplit'
      refine always_iff.mp hids (new ++ .replied n f dest :: new') e' old ?_
      rw [hsplit, hsplit']
      simp
    refine ⟨c, hnext, ?_⟩
    rcases hdest with ⟨hf, rfl⟩ | ⟨hf, rfl⟩
    · rw [attached_of_outstanding hf]
      exact ⟨rfl, fun _ => submitted_of_outstanding hf⟩
    · rw [not_attached_of_detached hpast hf]
      exact ⟨rfl, fun hne => absurd rfl hne⟩
  · intro n f new past hsplit
    refine ⟨(always_iff.mp hans new _ past hsplit).2.1 n f rfl, ?_⟩
    rcases List.eq_nil_or_concat new with rfl | ⟨later, e, rfl⟩
    · exact absurd hsplit (hr.settled n f past)
    · have hsplit' : ch.trace = later ++ e :: .stray n f :: past := by simpa using hsplit
      obtain ⟨st, rfl⟩ := (always_iff.mp hans later e _ hsplit').2.2 n f past rfl
      exact ⟨later, st, by simp⟩

end Reachable

/-- Replies of one byte each. -/
def byteReplies : UnpackOne
  | [], _, _ => ⟨.kNeedMore, 0, none⟩
  | _ :: _, _, _ => ⟨.kOk, 1, none⟩

/-- Owner 7 sends two commands, owner 8 one; 8 leaves after its batch was started; three replies
    come in one read. The first two are delivered, the third one has nobody to go to. -/
def twoOwners : List Act :=
  [.op (.start {}), .run 0 .none, .run 0 (.connected true),
    .op (.submit 7 (.ofSlices [[1, 2]]) 2), .op (.submit 8 (.ofSlices [[3]]) 1),
    .run 0 .none, .run 0 (.write (some (.wrote 2))), .run 0 (.write none),
    .run 0 .none, .op (.detachOwner 8),
    .reader 0 .none, .reader 0 (.read (.data [5, 6, 9])),
    .reader 0 (.parse fun _ => true), .ret, .reader 0 (.parse fun _ => true), .ret,
    .reader 0 (.parse fun _ => true)]

theorem replies_by_position_twoOwners :
    ∃ ch, (machine byteReplies (fun _ _ => true) 8 (by decide)).run (init 8 (by decide)) twoOwners
        = some ch ∧
      parsedOn 1 ch.trace = [[5], [6], [9]] ∧ ch.frames.length = 0 ∧
      [5, 6, 9] <+: receivedOn 1 ch.trace := by
  refine ⟨_, rfl, rfl, rfl, ?_⟩
  have hr : (machine byteReplies (fun _ _ => true) 8 (by decide)).run (init 8 (by decide))
      twoOwners = some _ := rfl
  exact (replies_by_position (Machine.reachable_of_run hr)).2.2.1 1

end BackendChannel

end RedisProxy
