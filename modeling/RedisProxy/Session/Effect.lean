/-
  File:      RedisProxy/Session/Effect.lean
  Subject:   WHAT A STEP OF A SESSION DOES, seen from outside.

  To the pool it does one of three things (`Touch`): nothing, it takes its owner off all queues,
  or it gives a batch to a ready channel; and what the session awaits from each channel changes
  accordingly. The session itself only goes forward (`Onward`).
-/
import RedisProxy.Session.Invariant

namespace RedisProxy

namespace ClientSession

variable {n : Nat}

/-! ## 1. What a step does to the pool -/

/-- The commands the session awaits replies for from channel `c`, in order. -/
def due (s : ClientSession n) (c : Fin n) : List Command :=
  if s.currentBackend = some c then s.inflight.map Slot.command else []

/-- **What a step of session `a` does to the pool.** -/
inductive Touch (a : Owner) (s : ClientSession n) (p : BackendPool n) :
    ClientSession n → BackendPool n → Prop where
  | quiet {s' : ClientSession n} (due : ∀ c, s'.due c = s.due c) : Touch a s p s' p
  | left {s' : ClientSession n} (due : ∀ c, s'.due c = []) : Touch a s p s' (p.detachOwner a)
  | sent {s' : ClientSession n} (c : Fin n) (bytes : BufferChain) (count : Nat)
      (ready : (p c).isHealthy = true) (pos : count ≠ 0)
      (due : s'.due c = s.due c ++ commandsOf (p c).trace.length a 0 count)
      (others : ∀ c', c' ≠ c → s'.due c' = s.due c') :
      Touch a s p s' (Function.update p c ((p c).submit a bytes count).2)

section Touch

variable {s : ClientSession n} {a : Owner} {p : BackendPool n}

/-- What a session does to itself afterwards is no matter if it awaits the same. -/
theorem Touch.after {s₁ s₂ : ClientSession n} {p' : BackendPool n} (h : Touch a s p s₁ p')
    (hdue : ∀ c, s₂.due c = s₁.due c) : Touch a s p s₂ p' := by
  cases h with
  | quiet due => exact .quiet fun c => (hdue c).trans (due c)
  | left due => exact .left fun c => (hdue c).trans (due c)
  | sent c bytes count ready pos due others =>
    exact .sent c bytes count ready pos ((hdue c).trans due)
      fun c' hne => (hdue c').trans (others c' hne)

/-- The same for what it did to itself before. -/
theorem Touch.before {s₀ s' : ClientSession n} {p' : BackendPool n} (h : Touch a s₀ p s' p')
    (hdue : ∀ c, s₀.due c = s.due c) : Touch a s p s' p' := by
  cases h with
  | quiet due => exact .quiet fun c => (due c).trans (hdue c)
  | left due => exact .left due
  | sent c bytes count ready pos due others =>
    refine .sent c bytes count ready pos ?_ fun c' hne => (others c' hne).trans (hdue c')
    rw [due, hdue]

theorem due_of_inflight_nil (h : s.inflight = []) (c : Fin n) : s.due c = [] := by
  rw [due, h]
  split <;> rfl

/-- A session that awaits something from a channel has it as its backend. -/
theorem inflight_of_due {c : Fin n} (h : s.due c ≠ []) :
    s.currentBackend = some c ∧ s.inflight ≠ [] := by
  unfold due at h
  split at h
  · rename_i hcur
    refine ⟨hcur, fun hnil => h ?_⟩
    rw [hnil]
    rfl
  · exact absurd rfl h

theorem due_of_other {c c' : Fin n} (h : s.currentBackend = some c) (hne : c' ≠ c) :
    s.due c' = [] := by
  rw [due, h, if_neg]
  exact fun heq => hne (Option.some.inj heq).symm

/-- A reply settles the first of the commands that are awaited. -/
theorem Tallied.due_onBackendReply (h : s.Tallied) (reply : BufferChain) (c : Fin n) :
    (s.onBackendReply reply).due c = (s.due c).tail := by
  have hcur : (s.onBackendReply reply).currentBackend =
      if s.pendingReplies - 1 = 0 then none else s.currentBackend := rfl
  by_cases hlast : s.pendingReplies - 1 = 0
  · have htail : s.inflight.tail = [] := by
      rw [← List.length_eq_zero_iff, List.length_tail, ← h.pending]
      exact hlast
    rw [due_of_inflight_nil htail, due]
    split
    · rw [← List.map_tail, htail]
      rfl
    · rfl
  · rw [if_neg hlast] at hcur
    simp only [due, hcur]
    split
    · exact List.map_tail
    · rfl

/-- `abort` takes the session off all queues, the first time it is called. -/
theorem abort_touch (s : ClientSession n) (a : Owner) (p : BackendPool n) :
    Touch a s p (s.abort a p).1 (s.abort a p).2 := by
  unfold ClientSession.abort
  split
  · exact .quiet fun _ => rfl
  · exact .left fun c => due_of_inflight_nil rfl c

theorem due_drain (s : ClientSession n) (error : String) (c : Fin n) :
    (s.drain error).due c = s.due c := by
  unfold ClientSession.drain
  split <;> rfl

/-- A batch that a channel took is awaited from it from then on; one that no channel took aborts the
    session. -/
theorem submitBatch_touch (h : s.Tallied) (a : Owner) (p : BackendPool n) (bytes : BufferChain)
    (count : Nat) (frames : List Bytes) : Touch a s p
      (s.submitBatch a p bytes count frames).2.1 (s.submitBatch a p bytes count frames).2.2 := by
  rcases s.submitBatch_cases a p bytes count frames with
    ⟨_, he⟩ | ⟨_, he⟩ | ⟨c, h0, hsel, he⟩ <;> rw [he]
  · exact .quiet fun _ => rfl
  · exact (abort_touch { s with verdicts := s.verdicts ++ verdictsOf frames [] } a p).before
      fun _ => rfl
  · obtain ⟨hready, hcur⟩ := BackendPool.select_some hsel
    have hslots : (slotsOf p c a count).map Slot.command =
        commandsOf (p c).trace.length a 0 count := by
      simp [slotsOf, Function.comp_def]
    refine .sent c bytes count hready h0 ?_ fun c' hne => ?_
    · show (if some c = some c then (s.inflight ++ slotsOf p c a count).map Slot.command else []) = _
      rw [if_pos rfl, List.map_append, hslots]
      congr 1
      rcases hcur with hc | hc
      · rw [due_of_inflight_nil (h.current.mp hc), h.current.mp hc]
        rfl
      · rw [due, if_pos hc]
    · show (if some c = some c' then _ else []) = s.due c'
      have hne' : some c ≠ some c' := fun heq => hne (Option.some.inj heq).symm
      rw [if_neg hne']
      rcases hcur with hc | hc
      · rw [due, hc, if_neg (Option.some_ne_none c').symm]
      · rw [due, hc, if_neg hne']

/-- A round submits its batch, if it has one. -/
theorem submitRound_touch (h : s.Tallied) (a : Owner) (p : BackendPool n) (r : Round) :
    Touch a s p (s.submitRound a p r).2.1 (s.submitRound a p r).2.2 := by
  unfold ClientSession.submitRound
  split
  · have hr : { s with parser := r.parser, clientIn := r.input.sliced r.consumed }.Tallied :=
      h.keep rfl id
    exact (submitBatch_touch hr a p _ _ _).before fun _ => rfl
  · exact .quiet fun _ => rfl

theorem due_closeRound (s : ClientSession n) (r : Round) (c : Fin n) :
    (s.closeRound r).due c = s.due c := by
  unfold ClientSession.closeRound
  repeat' split
  · exact due_drain s r.error c
  · rfl
  · rfl
  · rfl

/-- The reader between two suspensions: a round of parsing, which submits one batch at most. -/
theorem readerTop_touch (h : s.Tallied) {E : Env} {alloc : Nat → Nat → Bool}
    {x : ClientSession n × BackendPool n} (hx : s.readerTop E a p alloc = some x) :
    Touch a s p x.1 x.2 := by
  unfold ClientSession.readerTop at hx
  split at hx
  · cases hx
    exact .quiet fun _ => rfl
  · obtain ⟨r, _, rfl⟩ := Option.map_eq_some_iff.mp hx
    have hsub := submitRound_touch h a p r
    dsimp only
    split
    · exact hsub.after (due_closeRound _ r)
    · exact hsub.after fun _ => rfl

theorem due_readerAwait (s : ClientSession n) (E : Env) (error : String) (c : Fin n) :
    (s.readerAwait E error).due c = s.due c := by
  unfold ClientSession.readerAwait
  repeat' split
  all_goals rfl

/-- After a read the session goes on, or it is aborted. -/
theorem readerRead_touch {o : ReadOutcome} {x : ClientSession n × BackendPool n}
    (hx : s.readerRead a p o = some x) : Touch a s p x.1 x.2 := by
  obtain ⟨⟨st, b⟩, _, rfl⟩ := Option.map_eq_some_iff.mp hx
  cases st with
  | none => exact .quiet fun _ => rfl
  | some st =>
    dsimp only
    repeat' split
    · exact .quiet fun _ => rfl
    · exact .quiet fun _ => rfl
    · exact .quiet fun c =>
        due_drain { s with clientIn := b, input := s.input ++ o.bytes } (endError b) c
    · have hread : Touch a s p
          ({ s with clientIn := b, input := s.input ++ o.bytes }.abort a p).1
          ({ s with clientIn := b, input := s.input ++ o.bytes }.abort a p).2 :=
        (abort_touch _ a p).before fun _ => rfl
      exact hread.after fun _ => rfl

/-- A session whose loops have both left has nothing in flight. -/
theorem Orderly.inflight_nil (h : s.Orderly) (ht : s.Tallied) (hw : s.writer.gone = true) :
    s.inflight = [] := by
  rcases h.writerGone hw with ha | hd
  · exact ht.aborted ha
  · exact ht.pending_eq_zero.mp hd.2.1

/-- **Every step of the reader touches the pool in one of the three ways.** -/
theorem readerStep_touch (h : s.Orderly) (ht : s.Tallied) {E : Env} {io : SessionReaderIo}
    {x : ClientSession n × BackendPool n × Bool} (hx : s.readerStep E a p io = some x) :
    Touch a s p x.1 x.2.1 := by
  unfold ClientSession.readerStep at hx
  split at hx
  · obtain ⟨y, hy, rfl⟩ := Option.map_eq_some_iff.mp hx
    exact readerTop_touch ht hy
  · cases hx
    exact .quiet (due_readerAwait s E _)
  · obtain ⟨sig, _, rfl⟩ := Option.map_eq_some_iff.mp hx
    exact .quiet fun _ => rfl
  · cases hx
    exact .quiet fun _ => rfl
  · obtain ⟨y, hy, rfl⟩ := Option.map_eq_some_iff.mp hx
    exact readerRead_touch hy
  · rename_i hpc
    cases hx
    unfold ClientSession.finishLoop
    split
    · exact .quiet fun _ => rfl
    · rename_i hlast
      have hlast : s.activeLoops - 1 = 0 := Classical.not_not.mp hlast
      have hended : s.writer.ended = true := by
        rw [(h.reader_leaves hpc).1, Nat.add_sub_cancel_left, Bool.toNat_eq_zero] at hlast
        simpa using hlast
      have hgone : s.writer.gone = true := by
        rw [SessionWriterPc.eq_done hended]
        rfl
      exact .left fun c => due_of_inflight_nil (h.inflight_nil ht hgone) c
  · cases hx

theorem due_writerTop (s : ClientSession n) (E : Env) (c : Fin n) :
    (s.writerTop E).due c = s.due c := by
  unfold ClientSession.writerTop
  repeat' split
  all_goals rfl

/-- After a write the session goes on, or it is aborted. -/
theorem writerWrite_touch {c : WriteCursor} {o : Option WriteOutcome}
    {x : ClientSession n × BackendPool n} (hx : s.writerWrite a p c o = some x) :
    Touch a s p x.1 x.2 := by
  obtain ⟨r, _, rfl⟩ := Option.map_eq_some_iff.mp hx
  cases r with
  | running c' => exact .quiet fun _ => rfl
  | returned st =>
    dsimp only
    split
    · exact .quiet fun _ => rfl
    · exact (abort_touch s a p).after fun _ => rfl

/-- **So does every step of the writer.** -/
theorem writerStep_touch (h : s.Orderly) (ht : s.Tallied) {E : Env} {io : SessionWriterIo}
    {x : ClientSession n × BackendPool n × Bool} (hx : s.writerStep E a p io = some x) :
    Touch a s p x.1 x.2.1 := by
  unfold ClientSession.writerStep at hx
  split at hx
  · cases hx
    exact .quiet (due_writerTop s E)
  · obtain ⟨sig, _, rfl⟩ := Option.map_eq_some_iff.mp hx
    exact .quiet fun _ => rfl
  · obtain ⟨y, hy, rfl⟩ := Option.map_eq_some_iff.mp hx
    exact writerWrite_touch hy
  · rename_i hpc
    cases hx
    unfold ClientSession.finishLoop
    split
    · exact .quiet fun _ => rfl
    · refine .left fun c => due_of_inflight_nil ?_ c
      exact h.inflight_nil ht (by rw [hpc]; rfl)
  · cases hx

end Touch

end ClientSession

/-! ## 2. How a session goes on -/

/-- The moves of `state_`: `kOpen` to `kDraining` to `kAborted`, or `kOpen` to `kAborted`. -/
inductive SessionState.Goes : SessionState → SessionState → Prop where
  | stay (st : SessionState) : Goes st st
  | drain : Goes .kOpen .kDraining
  | abort (st : SessionState) : Goes st .kAborted

/-- Moves of the state compose: none of them leads back. -/
theorem SessionState.Goes.trans {s t u : SessionState} (h : s.Goes t) (h' : t.Goes u) :
    s.Goes u := by
  cases h with
  | stay => exact h'
  | drain =>
    cases h' with
    | stay => exact .drain
    | abort => exact .abort _
  | abort =>
    cases h' with
    | stay => exact .abort _
    | abort => exact .abort _

namespace ClientSession

variable {n : Nat} {s : ClientSession n} {a : Owner} {p : BackendPool n}

/-- **The session stays the same one, its state moves forward**, and `on_finished_` was called so
    often. -/
structure Onward (s s' : ClientSession n) (calls : Nat) : Prop where
  uid : s'.uid = s.uid
  state : s.state.Goes s'.state
  finish : s'.finishCalls = s.finishCalls + calls

theorem Onward.refl (s : ClientSession n) : Onward s s 0 := ⟨rfl, .stay _, rfl⟩

/-- Steps that finish nothing can stand before any other. -/
theorem Onward.then {s₁ s₂ : ClientSession n} {k : Nat} (h : Onward s s₁ 0) (h' : Onward s₁ s₂ k) :
    Onward s s₂ k :=
  ⟨h'.uid.trans h.uid, h.state.trans h'.state, by rw [h'.finish, h.finish, Nat.add_zero]⟩

theorem onward_onBackendReply (s : ClientSession n) (reply : BufferChain) :
    Onward s (s.onBackendReply reply) 0 := ⟨rfl, .stay _, rfl⟩

theorem onward_aborted (s : ClientSession n) : Onward s s.aborted 0 := ⟨rfl, .abort _, rfl⟩

/-- `abort` leads to `kAborted` from everywhere. -/
theorem onward_abort (s : ClientSession n) (a : Owner) (p : BackendPool n) :
    Onward s (s.abort a p).1 0 := by
  unfold ClientSession.abort
  split
  · exact .refl s
  · exact onward_aborted s

/-- `drain` leads from `kOpen` to `kDraining`, and from nowhere else. -/
theorem onward_drain (s : ClientSession n) (error : String) : Onward s (s.drain error) 0 := by
  unfold ClientSession.drain
  split
  · exact .refl s
  · rename_i hopen
    have hopen : s.state = .kOpen := not_not.mp hopen
    exact ⟨rfl, by rw [hopen]; exact .drain, rfl⟩

/-- A batch that nobody took aborts the session. -/
theorem onward_submitRound (s : ClientSession n) (a : Owner) (p : BackendPool n) (r : Round) :
    Onward s (s.submitRound a p r).2.1 0 := by
  unfold ClientSession.submitRound
  split
  · rcases submitBatch_cases { s with parser := r.parser, clientIn := r.input.sliced r.consumed } a p
      (r.input.slicePrefix r.consumed) (r.parsed % 2 ^ 32) r.frames with
      ⟨_, he⟩ | ⟨_, he⟩ | ⟨c, _, _, he⟩ <;> rw [he]
    · exact ⟨rfl, .stay _, rfl⟩
    · have hv : Onward s { s with
          parser := r.parser
          clientIn := r.input.sliced r.consumed
          verdicts := s.verdicts ++ verdictsOf r.frames [] } 0 := ⟨rfl, .stay _, rfl⟩
      exact hv.then (onward_abort _ a p)
    · exact ⟨rfl, .stay _, rfl⟩
  · exact ⟨rfl, .stay _, rfl⟩

theorem onward_closeRound (s : ClientSession n) (r : Round) : Onward s (s.closeRound r) 0 := by
  unfold ClientSession.closeRound
  repeat' split
  · exact (onward_drain s r.error).then ⟨rfl, .stay _, rfl⟩
  · exact ⟨rfl, .stay _, rfl⟩
  · exact ⟨rfl, .stay _, rfl⟩
  · exact ⟨rfl, .stay _, rfl⟩

theorem onward_readerTop {E : Env} {alloc : Nat → Nat → Bool} {x : ClientSession n × BackendPool n}
    (hx : s.readerTop E a p alloc = some x) : Onward s x.1 0 := by
  unfold ClientSession.readerTop at hx
  split at hx
  · cases hx
    exact ⟨rfl, .stay _, rfl⟩
  · obtain ⟨r, _, rfl⟩ := Option.map_eq_some_iff.mp hx
    have hsub := onward_submitRound s a p r
    dsimp only
    split
    · exact hsub.then (onward_closeRound _ r)
    · exact hsub.then ⟨rfl, .stay _, rfl⟩

theorem onward_readerRead {o : ReadOutcome} {x : ClientSession n × BackendPool n}
    (hx : s.readerRead a p o = some x) : Onward s x.1 0 := by
  obtain ⟨⟨st, b⟩, _, rfl⟩ := Option.map_eq_some_iff.mp hx
  cases st with
  | none => exact ⟨rfl, .stay _, rfl⟩
  | some st =>
    have hread : Onward s { s with clientIn := b, input := s.input ++ o.bytes } 0 :=
      ⟨rfl, .stay _, rfl⟩
    dsimp only
    repeat' split
    · exact ⟨rfl, .stay _, rfl⟩
    · exact ⟨rfl, .stay _, rfl⟩
    · exact (hread.then (onward_drain _ (endError b))).then ⟨rfl, .stay _, rfl⟩
    · exact (hread.then (onward_abort _ a p)).then ⟨rfl, .stay _, rfl⟩

/-- The second of the two loops to end reports the session, once. -/
theorem onward_finishLoop (s : ClientSession n) (a : Owner) (p : BackendPool n) :
    Onward s (s.finishLoop a p).1 (s.finishLoop a p).2.2.toNat := by
  unfold ClientSession.finishLoop
  split <;> exact ⟨rfl, .stay _, rfl⟩

/-- A step of the reader's loop, which has not ended. -/
theorem readerStep_onward {E : Env} {io : SessionReaderIo}
    {x : ClientSession n × BackendPool n × Bool} (hx : s.readerStep E a p io = some x) :
    Onward s x.1 x.2.2.toNat ∧ s.reader.ended = false := by
  unfold ClientSession.readerStep at hx
  split at hx
  · rename_i hpc
    obtain ⟨y, hy, rfl⟩ := Option.map_eq_some_iff.mp hx
    exact ⟨onward_readerTop hy, by rw [hpc]; rfl⟩
  · rename_i hpc
    cases hx
    refine ⟨?_, by rw [hpc]; rfl⟩
    unfold ClientSession.readerAwait
    repeat' split
    all_goals exact ⟨rfl, .stay _, rfl⟩
  · rename_i hpc
    obtain ⟨sig, _, rfl⟩ := Option.map_eq_some_iff.mp hx
    exact ⟨⟨rfl, .stay _, rfl⟩, by rw [hpc]; rfl⟩
  · rename_i hpc
    cases hx
    exact ⟨⟨rfl, .stay _, rfl⟩, by rw [hpc]; rfl⟩
  · rename_i hpc
    obtain ⟨y, hy, rfl⟩ := Option.map_eq_some_iff.mp hx
    exact ⟨onward_readerRead hy, by rw [hpc]; rfl⟩
  · rename_i hpc
    cases hx
    have hpc' : Onward s { s with reader := .done } 0 := ⟨rfl, .stay _, rfl⟩
    exact ⟨hpc'.then (onward_finishLoop _ a p), by rw [hpc]; rfl⟩
  · cases hx

/-- A step of the writer's loop, which has not ended. -/
theorem writerStep_onward {E : Env} {io : SessionWriterIo}
    {x : ClientSession n × BackendPool n × Bool} (hx : s.writerStep E a p io = some x) :
    Onward s x.1 x.2.2.toNat ∧ s.writer.ended = false := by
  unfold ClientSession.writerStep at hx
  split at hx
  · rename_i hpc
    cases hx
    refine ⟨?_, by rw [hpc]; rfl⟩
    unfold ClientSession.writerTop
    repeat' split
    all_goals exact ⟨rfl, .stay _, rfl⟩
  · rename_i hpc
    obtain ⟨sig, _, rfl⟩ := Option.map_eq_some_iff.mp hx
    exact ⟨⟨rfl, .stay _, rfl⟩, by rw [hpc]; rfl⟩
  · rename_i hpc
    obtain ⟨y, hy, rfl⟩ := Option.map_eq_some_iff.mp hx
    refine ⟨?_, by rw [hpc]; rfl⟩
    obtain ⟨r, _, rfl⟩ := Option.map_eq_some_iff.mp hy
    cases r with
    | running c' => exact ⟨rfl, .stay _, rfl⟩
    | returned st =>
      dsimp only
      split
      · exact ⟨rfl, .stay _, rfl⟩
      · exact (onward_abort s a p).then ⟨rfl, .stay _, rfl⟩
  · rename_i hpc
    cases hx
    have hpc' : Onward s { s with writer := .done } 0 := ⟨rfl, .stay _, rfl⟩
    exact ⟨hpc'.then (onward_finishLoop _ a p), by rw [hpc]; rfl⟩
  · cases hx

end ClientSession

end RedisProxy
