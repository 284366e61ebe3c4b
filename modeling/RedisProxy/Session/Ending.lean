/-
  File:      RedisProxy/Session/Ending.lean
  Subject:   A SESSION THAT CLOSES HAS ONLY SO MANY STEPS LEFT.

  A session closes once it was aborted, or once its stream has ended and no reply is awaited any
  more (`Closing`). From then on its reader only finds its way out, and its writer writes what is
  queued and the error the stream ended with. `remaining` counts what is left of this: a step of
  either loop takes something off unless a system call was told to try again
  (`closing_readerStep`, `closing_writerStep`), and until `on_finished_` was called one of the two
  loops can go on (`closing_enabled`).
-/
import RedisProxy.Session.Effect

namespace RedisProxy

/-! ## 1. What a closing session has left -/

/-- The steps a reader has left in a session that is not open. -/
def SessionReaderPc.remaining : SessionReaderPc → Nat
  | .top | .awaiting _ | .reading => 2
  | .blocked _ | .polling => 3
  | .leaving => 1
  | .done => 0

/-- The steps a writer has left besides what is queued. -/
def SessionWriterPc.remaining : SessionWriterPc → Nat
  | .top => 2
  | .blocked => 3
  | .writing c => 3 + c.rest.length
  | .leaving => 1
  | .done => 0

namespace ClientSession

variable {n : Nat}

/-- A step of the reader that is not a read told to try again. -/
def SessionReaderIo.progresses : SessionReaderIo → Bool
  | .read .again => false
  | _ => true

/-- A step of the writer that is not a write told to try again. -/
def SessionWriterIo.progresses : SessionWriterIo → Bool
  | .write (some .again) => false
  | _ => true

/-- The session was aborted, or its stream has ended and no reply is awaited. -/
def Closing (s : ClientSession n) : Prop :=
  s.state = .kAborted ∨ s.state = .kDraining ∧ s.pendingReplies = 0

/-- A byte is a step at most; a chain costs another two, to take it and to come back. -/
def chainSteps (q : List BufferChain) : Nat := (q.map fun c => c.bytes.length + 2).sum

/-- What the writer still has to take up: the queue, and the error the stream ended with. -/
def backlog (E : Env) (s : ClientSession n) : Nat :=
  chainSteps s.clientOut +
    if s.finalError = "" then 0 else (E.packError s.finalError).length + 2

/-- **The steps a closing session can still take.** -/
def remaining (E : Env) (s : ClientSession n) : Nat :=
  s.reader.remaining + s.writer.remaining + s.backlog E

section Closing

variable {E : Env} {s : ClientSession n} {a : Owner} {p : BackendPool n}

theorem Closing.not_open (h : s.Closing) : s.state ≠ .kOpen := by
  rcases h with h | ⟨h, _⟩ <;> rw [h] <;> decide

/-- Gathering outputs into one write costs no step. -/
theorem chainSteps_gather (count : Nat) (reply : BufferChain) (q : List BufferChain) :
    (gather count reply q).1.bytes.length + 2 + chainSteps (gather count reply q).2 ≤
      chainSteps (reply :: q) := by
  induction count generalizing reply q with
  | zero =>
    simp only [gather, chainSteps, List.map_cons, List.sum_cons]
    omega
  | succ count ih =>
    cases q with
    | nil => simp [gather, chainSteps]
    | cons c q =>
      refine Nat.le_trans (ih (reply.appendChain c) q) ?_
      simp only [chainSteps, List.map_cons, List.sum_cons, BufferChain.bytes_appendChain,
        List.length_append]
      omega

/-! ## 2. A step of either loop -/

/-- The fields of a session that `Closing` and `backlog` read. -/
def outstanding (s : ClientSession n) := (s.state, s.pendingReplies, s.clientOut, s.finalError)

/-- The reader goes to another place and the rest stays. -/
theorem Closing.readerMoves {s' : ClientSession n} {d : Nat} (h : s.Closing)
    (hsame : s'.outstanding = s.outstanding) (hw : s'.writer = s.writer)
    (hlt : s'.reader.remaining + d ≤ s.reader.remaining) :
    s'.Closing ∧ s'.remaining E + d ≤ s.remaining E := by
  simp only [outstanding, Prod.mk.injEq] at hsame
  obtain ⟨hst, hp, hq, hf⟩ := hsame
  refine ⟨by rw [Closing, hst, hp]; exact h, ?_⟩
  simp only [remaining, backlog, hq, hf, hw]
  omega

theorem outstanding_finishLoop (s : ClientSession n) (a : Owner) (p : BackendPool n) :
    (s.finishLoop a p).1.outstanding = s.outstanding ∧
      (s.finishLoop a p).1.reader = s.reader ∧ (s.finishLoop a p).1.writer = s.writer := by
  unfold finishLoop
  split <;> exact ⟨rfl, rfl, rfl⟩

/-- **A step of the reader of a closing session.** -/
theorem closing_readerStep (h : s.Closing) {io : SessionReaderIo}
    {x : ClientSession n × BackendPool n × Bool} (hx : s.readerStep E a p io = some x) :
    x.1.Closing ∧ x.1.remaining E + io.progresses.toNat ≤ s.remaining E := by
  have hopen := h.not_open
  unfold readerStep at hx
  split at hx
  · rename_i hpc
    simp only [readerTop, if_pos hopen] at hx
    cases hx
    exact h.readerMoves rfl rfl (by rw [hpc]; exact Nat.le_refl _)
  · rename_i hpc
    cases hx
    rw [readerAwait, if_neg fun hc => hopen hc.1, if_pos hopen]
    exact h.readerMoves rfl rfl (by rw [hpc]; exact Nat.le_refl _)
  · rename_i hpc
    obtain ⟨sig, _, rfl⟩ := Option.map_eq_some_iff.mp hx
    exact h.readerMoves rfl rfl (by rw [hpc]; exact Nat.le_refl _)
  · rename_i hpc
    cases hx
    exact h.readerMoves rfl rfl (by rw [hpc]; exact Nat.le_refl _)
  · rename_i o hpc
    obtain ⟨y, hy, rfl⟩ := Option.map_eq_some_iff.mp hx
    obtain ⟨⟨st, b⟩, hread, rfl⟩ := Option.map_eq_some_iff.mp hy
    cases st with
    | none =>
      have hagain : (SessionReaderIo.read o).progresses = false := by
        cases o with
        | again => rfl
        | data d =>
          simp only [readSome] at hread
          split at hread <;> cases hread
        | closed | timeout | error m => cases hread
      rw [hagain]
      exact h.readerMoves rfl rfl (Nat.le_refl _)
    | some st =>
      have hle := Bool.toNat_le (SessionReaderIo.read o).progresses
      simp only [if_pos hopen]
      refine h.readerMoves rfl rfl ?_
      rw [hpc]
      simp only [SessionReaderPc.remaining]
      omega
  · rename_i hpc
    cases hx
    obtain ⟨hsame, hr, hw⟩ := outstanding_finishLoop { s with reader := .done } a p
    exact h.readerMoves hsame hw (by rw [hr, hpc]; exact Nat.le_refl _)
  · cases hx

/-- The writer of a closing session at the top of its loop: it leaves, or it takes up what is
    queued. -/
theorem closing_writerTop (h : s.Closing) (hpc : s.writer = .top) :
    (s.writerTop E).Closing ∧ (s.writerTop E).remaining E + 1 ≤ s.remaining E := by
  have hleaves : { s with writer := .leaving }.Closing ∧
      { s with writer := .leaving }.remaining E + 1 ≤ s.remaining E := by
    refine ⟨h, ?_⟩
    simp only [remaining, backlog, hpc, SessionWriterPc.remaining]
    omega
  unfold writerTop
  split
  · exact hleaves
  · rename_i hlive
    have hdrain : s.state = .kDraining ∧ s.pendingReplies = 0 := h.resolve_left hlive
    split
    · rename_i hq
      rw [if_pos hdrain]
      split
      · exact hleaves
      · rename_i hf
        refine ⟨h, ?_⟩
        simp only [remaining, backlog, hpc, hq, hf, SessionWriterPc.remaining,
          WriteCursor.rest_start, Env.makeChain, bytes_makeBufferChain, if_true, if_false]
        omega
    · rename_i reply q hq
      refine ⟨h, ?_⟩
      have hgather := chainSteps_gather 63 reply q
      simp only [remaining, backlog, hpc, hq, SessionWriterPc.remaining, WriteCursor.rest_start]
      omega

/-- Aborting a session takes away what was queued. -/
theorem backlog_abort (E : Env) (s : ClientSession n) (a : Owner) (p : BackendPool n) :
    (s.abort a p).1.state = .kAborted ∧ (s.abort a p).1.reader = s.reader ∧
      (s.abort a p).1.backlog E ≤ s.backlog E := by
  unfold ClientSession.abort
  split
  · rename_i ha
    exact ⟨ha, rfl, Nat.le_refl _⟩
  · refine ⟨rfl, rfl, ?_⟩
    exact Nat.add_le_add_right (Nat.zero_le _) _

theorem closing_writerWrite (h : s.Closing) {c : WriteCursor} (hpc : s.writer = .writing c)
    {o : Option WriteOutcome} {y : ClientSession n × BackendPool n}
    (hy : s.writerWrite a p c o = some y) :
    y.1.Closing ∧ y.1.remaining E + (SessionWriterIo.write o).progresses.toNat ≤ s.remaining E := by
  have hle := Bool.toNat_le (SessionWriterIo.write o).progresses
  obtain ⟨r, hround, rfl⟩ := Option.map_eq_some_iff.mp hy
  cases r with
  | running c' =>
    refine ⟨h, ?_⟩
    have hrest := congrArg List.length (writeRound_running hround)
    rw [List.length_append] at hrest
    simp only [remaining, backlog, hpc, SessionWriterPc.remaining]
    rcases o with _ | o
    · simp only [writeRound] at hround
      split at hround <;> cases hround
    · have hahead := (writeRound_ahead hround).2
      rw [reads_offer hround] at hahead
      have hmoves : (SessionWriterIo.write (some o)).progresses = o.moves := by
        cases o <;> rfl
      rw [hmoves]
      omega
  | returned st =>
    dsimp only
    split
    · refine ⟨h, ?_⟩
      simp only [remaining, backlog, hpc, SessionWriterPc.remaining]
      omega
    · obtain ⟨hab, hr, hb⟩ := backlog_abort E s a p
      refine ⟨Or.inl hab, ?_⟩
      have hleft : remaining E { (s.abort a p).1 with writer := .leaving } =
          (s.abort a p).1.reader.remaining + 1 + (s.abort a p).1.backlog E := rfl
      rw [hleft, hr]
      simp only [remaining, hpc, SessionWriterPc.remaining]
      omega

/-- **A step of the writer of a closing session.** -/
theorem closing_writerStep (h : s.Closing) {io : SessionWriterIo}
    {x : ClientSession n × BackendPool n × Bool} (hx : s.writerStep E a p io = some x) :
    x.1.Closing ∧ x.1.remaining E + io.progresses.toNat ≤ s.remaining E := by
  unfold writerStep at hx
  split at hx
  · rename_i hpc
    cases hx
    exact closing_writerTop h hpc
  · rename_i hpc
    obtain ⟨sig, _, rfl⟩ := Option.map_eq_some_iff.mp hx
    refine ⟨h, ?_⟩
    simp only [remaining, backlog, hpc, SessionWriterPc.remaining, SessionWriterIo.progresses,
      Bool.toNat_true]
    omega
  · rename_i c o hpc
    obtain ⟨y, hy, rfl⟩ := Option.map_eq_some_iff.mp hx
    exact closing_writerWrite h hpc hy
  · rename_i hpc
    cases hx
    obtain ⟨hsame, hr, hw⟩ := outstanding_finishLoop { s with writer := .done } a p
    simp only [outstanding, Prod.mk.injEq] at hsame
    obtain ⟨hst, hp, hq, hf⟩ := hsame
    refine ⟨by rw [Closing, hst, hp]; exact h, ?_⟩
    simp only [remaining, backlog, hq, hf, hr, hw, hpc, SessionWriterPc.remaining,
      SessionWriterIo.progresses, Bool.toNat_true]
    omega
  · cases hx

/-! ## 3. One of the loops can go on -/

theorem reader_enabled (h : s.Closing) (ho : s.Orderly) (hr : s.reader ≠ .done) :
    ∃ io, io.progresses = true ∧ (s.readerStep E a p io).isSome := by
  have hopen := h.not_open
  cases hpc : s.reader with
  | top =>
    exact ⟨.parse fun _ _ => true, rfl, by simp [readerStep, hpc, readerTop, hopen]⟩
  | awaiting error | polling | leaving => exact ⟨.none, rfl, by simp [readerStep, hpc]⟩
  | blocked error =>
    have hsig := ho.reply
    rw [hpc] at hsig
    rcases hsig.resume_or_blocked with hres | hb
    · exact ⟨.none, rfl, by simpa [readerStep, hpc] using hres⟩
    · exact absurd (ho.readerAsleep hb).1 hopen
  | reading => exact ⟨.read .closed, rfl, by simp [readerStep, hpc, readerRead, readSome]⟩
  | done => exact absurd hpc hr

theorem writer_enabled (h : s.Closing) (ho : s.Orderly) (hw : s.writer.ended = false) :
    ∃ io, io.progresses = true ∧ (s.writerStep E a p io).isSome := by
  cases hpc : s.writer with
  | top | leaving => exact ⟨.none, rfl, by simp [writerStep, hpc]⟩
  | blocked =>
    have hsig := ho.output
    rw [hpc] at hsig
    rcases hsig.resume_or_blocked with hres | hb
    · exact ⟨.none, rfl, by simpa [writerStep, hpc] using hres⟩
    · obtain ⟨_, hlive, hwait⟩ := ho.writerAsleep hb
      exact absurd h fun hc => hc.elim hlive hwait
  | writing c =>
    by_cases hoff : c.offer = []
    · exact ⟨.write none, rfl, by simp [writerStep, hpc, writerWrite, writeRound, hoff]⟩
    · exact ⟨.write (some (.error "EPIPE")), rfl,
        by simp [writerStep, hpc, writerWrite, writeRound, hoff]⟩
  | done =>
    rw [hpc] at hw
    cases hw

/-- **Until it has reported its end, a closing session can go on.** -/
theorem closing_enabled (h : s.Closing) (ho : s.Orderly) (hfin : s.finishCalls ≠ 1) :
    (∃ io, io.progresses = true ∧ (s.readerStep E a p io).isSome) ∨
      ∃ io, io.progresses = true ∧ (s.writerStep E a p io).isSome := by
  by_cases hr : s.reader = .done
  · refine Or.inr (writer_enabled h ho ?_)
    cases hw : s.writer.ended with
    | false => rfl
    | true =>
      refine absurd ?_ hfin
      rw [ho.finish, hr, hw]
      rfl
  · exact Or.inl (reader_enabled h ho hr)

/-- A session with nothing left has reported its end. -/
theorem finished_of_remaining (ho : s.Orderly) (h : s.remaining E = 0) : s.finishCalls = 1 := by
  have hr : s.reader.remaining = 0 := by
    simp only [remaining] at h
    omega
  have hw : s.writer.remaining = 0 := by
    simp only [remaining] at h
    omega
  have hrd : s.reader.ended = true := by
    cases hpc : s.reader with
    | done => rfl
    | _ => simp [hpc, SessionReaderPc.remaining] at hr
  have hwd : s.writer.ended = true := by
    cases hpc : s.writer with
    | done => rfl
    | _ => simp [hpc, SessionWriterPc.remaining] at hw
  rw [ho.finish, hrd, hwd]
  rfl

end Closing

end ClientSession

end RedisProxy
