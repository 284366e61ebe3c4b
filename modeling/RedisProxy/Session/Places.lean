/-
  File:      RedisProxy/Session/Places.lean
  Subject:   WHERE THE COMMANDS OF A SESSION GO: what it submits are whole commands, and the place
             it notes for each of them is the one it has in its batch.

  `Posting` says what a step of a session comes to for the pool, proved function by function; the
  rest of the module is what follows for the histories of the channels (`Posting.framed`) and for
  the verdicts of the session (`Posting.placed`).
-/
import RedisProxy.Session.Parsing
import RedisProxy.Channel.Requests

namespace RedisProxy

open Lib

/-- The place of a command that was forwarded. -/
def Verdict.slot {n : Nat} : Verdict n → Option (Slot n)
  | .forwarded _ slot => slot
  | .rejected _ _ => none

namespace ClientSession

variable {n : Nat}

/-! ## 1. What a step submits -/

/-- The pool takes no batch. -/
def Unposted (p p' : BackendPool n) : Prop :=
  ∀ c k id o bytes count, .submitted k id o bytes count ∈ (p' c).trace →
    .submitted k id o bytes count ∈ (p c).trace

/-- **What a step of session `a` gives to the pool**: nothing, or a batch of whole commands, whose
    places it notes. -/
inductive Posting (E : Env) (a : Owner) (s : ClientSession n) (p : BackendPool n)
    (s' : ClientSession n) (p' : BackendPool n) : Prop where
  | quiet (pool : Unposted p p') (verdicts : ∀ v ∈ s'.verdicts, v ∈ s.verdicts ∨ v.slot = none)
  | sent (c : Fin n) (bytes : BufferChain) (gs : List (RespFrameInfo × Bytes))
      (chain : Chain E.firstFrame bytes.bytes gs []) (ready : (p c).isHealthy = true)
      (ne : gs ≠ []) (pool : p' = Function.update p c ((p c).submit a bytes gs.length).2)
      (verdicts : ∀ v ∈ s'.verdicts, v ∈ s.verdicts ∨ v.slot = none ∨
        v ∈ verdictsOf (gs.map Prod.snd) (slotsOf p c a gs.length))

theorem unposted_refl (p : BackendPool n) : Unposted p p := fun _ _ _ _ _ _ h => h

/-- A detachment is no submission. -/
theorem unposted_detachOwner (p : BackendPool n) (a : Owner) : Unposted p (p.detachOwner a) := by
  intro c k id o bytes count h
  rcases List.mem_cons.mp h with he | h
  · cases he
  · exact h

section Posting

variable {E : Env} {grants : Prop} {a : Owner} {s s₁ s₂ : ClientSession n} {p p' : BackendPool n}

/-- A step that touches neither the pool nor the verdicts. -/
theorem posting_same (hv : s₁.verdicts = s.verdicts) : Posting E a s p s₁ p :=
  .quiet (unposted_refl p) fun _ hm => Or.inl (hv ▸ hm)

/-- Verdicts added afterwards do not matter if they forward nothing. -/
theorem Posting.after (h : Posting E a s p s₁ p')
    (hv : ∀ v ∈ s₂.verdicts, v ∈ s₁.verdicts ∨ v.slot = none) : Posting E a s p s₂ p' := by
  cases h with
  | quiet pool verdicts =>
    exact .quiet pool fun v hm => (hv v hm).elim (verdicts v) Or.inr
  | sent c bytes gs chain ready ne pool verdicts =>
    exact .sent c bytes gs chain ready ne pool fun v hm =>
      (hv v hm).elim (verdicts v) fun h => Or.inr (Or.inl h)

theorem Posting.same (h : Posting E a s p s₁ p') (hv : s₂.verdicts = s₁.verdicts) :
    Posting E a s p s₂ p' :=
  h.after fun _ hm => Or.inl (hv ▸ hm)

theorem verdicts_abort (s : ClientSession n) (a : Owner) (p : BackendPool n) :
    (s.abort a p).1.verdicts = s.verdicts := by
  unfold ClientSession.abort
  split <;> rfl

theorem verdicts_drain (s : ClientSession n) (error : String) :
    (s.drain error).verdicts = s.verdicts := by
  unfold ClientSession.drain
  split <;> rfl

theorem unposted_abort (s : ClientSession n) (a : Owner) (p : BackendPool n) :
    Unposted p (s.abort a p).2 := by
  unfold ClientSession.abort
  split
  · exact unposted_refl p
  · exact unposted_detachOwner p a

/-- An aborted session submits nothing. -/
theorem posting_abort (hv : s₁.verdicts = s.verdicts) :
    Posting E a s p (s₁.abort a p).1 (s₁.abort a p).2 := by
  refine .quiet (unposted_abort s₁ a p) fun v hm => Or.inl ?_
  rw [verdicts_abort, hv] at hm
  exact hm

/-- Neither does one whose loop has ended. -/
theorem posting_finishLoop (hv : s₁.verdicts = s.verdicts) :
    Posting E a s p (s₁.finishLoop a p).1 (s₁.finishLoop a p).2.1 := by
  unfold ClientSession.finishLoop
  split
  · exact posting_same hv
  · exact .quiet (unposted_detachOwner p a) fun v hm => Or.inl (hv ▸ hm)

/-- The verdicts of a batch that was refused have no places. -/
theorem slot_verdictsOf_nil {frames : List Bytes} {v : Verdict n} (h : v ∈ verdictsOf frames []) :
    v.slot = none := by
  obtain ⟨j, hj, rfl⟩ := List.mem_mapIdx.mp h
  rfl

/-- **A round submits what it has taken**: the frames of its batch stand in the bytes one behind the
    other, and their places are noted in that order. -/
theorem posting_submitRound (hU : UnpackOneSpec E.unpackOne) (hsize : E.blockSize < 2 ^ 32)
    {alloc : Nat → Nat → Bool} {r : Round} {gs : List (RespFrameInfo × Bytes)}
    (ht : Taking E alloc s r gs) (a : Owner) (p : BackendPool n) :
    Posting E a s p (s.submitRound a p r).2.1 (s.submitRound a p r).2.2 := by
  have hframes : r.frames = gs.map Prod.snd := ht.read.frames
  have hcontent : r.input.content = s.clientIn.content := ht.read.content
  have hchain : Chain E.firstFrame s.clientIn.content gs (s.clientIn.content.drop r.consumed) :=
    ht.read.chain
  have hcount := ht.count hsize
  unfold ClientSession.submitRound
  split
  · rcases submitBatch_cases { s with parser := r.parser, clientIn := r.input.sliced r.consumed } a
      p (r.input.slicePrefix r.consumed) (r.parsed % 2 ^ 32) r.frames with
      ⟨_, he⟩ | ⟨_, he⟩ | ⟨c, h0, hsel, he⟩ <;> rw [he]
    · refine .quiet (unposted_refl p) fun v hm => ?_
      exact (List.mem_append.mp hm).imp_right slot_verdictsOf_nil
    · refine .quiet (unposted_abort _ a p) fun v hm => ?_
      rw [verdicts_abort] at hm
      exact (List.mem_append.mp hm).imp_right slot_verdictsOf_nil
    · rw [hcount] at h0
      refine .sent c (r.input.slicePrefix r.consumed) gs ?_ (BackendPool.select_some hsel).1
        (fun hnil => h0 (by rw [hnil]; rfl)) (by rw [hcount]) fun v hm => ?_
      · rw [Buffer.bytes_slicePrefix, hcontent, ht.bytes]
        exact hchain.alone (Env.incremental_firstFrame hU)
      · rw [hframes, hcount] at hm
        exact (List.mem_append.mp hm).imp_right Or.inr
  · exact posting_same rfl

/-- What a round refuses gets no place. -/
theorem verdicts_closeRound (s : ClientSession n) (r : Round) :
    ∀ v ∈ (s.closeRound r).verdicts, v ∈ s.verdicts ∨ v.slot = none := by
  intro v hm
  unfold ClientSession.closeRound at hm
  repeat' split at hm
  · rw [show ({ s.drain r.error with reader := .leaving } : ClientSession n).verdicts = s.verdicts
      from verdicts_drain s r.error] at hm
    exact Or.inl hm
  · refine (List.mem_append.mp hm).imp_right fun hm => ?_
    rw [List.mem_singleton.mp hm]
    rfl
  · exact Or.inl hm
  · exact Or.inl hm

/-- A round of the reader posts what it has parsed. -/
theorem posting_readerTop (hp : s.Parsing E grants) (hU : UnpackOneSpec E.unpackOne)
    (hsize : E.blockSize < 2 ^ 32) {alloc : Nat → Nat → Bool}
    {x : ClientSession n × BackendPool n} (hx : s.readerTop E a p alloc = some x) :
    Posting E a s p x.1 x.2 := by
  unfold ClientSession.readerTop at hx
  split at hx
  · cases hx
    exact posting_same rfl
  · obtain ⟨r, hr, rfl⟩ := Option.map_eq_some_iff.mp hx
    obtain ⟨gs, ht⟩ := hp.round hU hr
    have hsub := posting_submitRound hU hsize ht a p
    dsimp only
    split
    · exact hsub.after (verdicts_closeRound _ r)
    · exact hsub.same rfl

/-- A read posts nothing. -/
theorem posting_readerRead {o : ReadOutcome} {x : ClientSession n × BackendPool n}
    (hx : s.readerRead a p o = some x) : Posting E a s p x.1 x.2 := by
  obtain ⟨⟨st, b⟩, _, rfl⟩ := Option.map_eq_some_iff.mp hx
  cases st with
  | none => exact posting_same rfl
  | some st =>
    dsimp only
    repeat' split
    · exact posting_same rfl
    · exact posting_same rfl
    · exact posting_same (verdicts_drain _ _)
    · have habort : Posting E a s p
          ({ s with clientIn := b, input := s.input ++ o.bytes }.abort a p).1
          ({ s with clientIn := b, input := s.input ++ o.bytes }.abort a p).2 :=
        posting_abort rfl
      exact habort.same rfl

/-- **Every step of the reader is a posting.** -/
theorem posting_readerStep (hp : s.Parsing E grants) (hU : UnpackOneSpec E.unpackOne)
    (hsize : E.blockSize < 2 ^ 32) {io : SessionReaderIo}
    {x : ClientSession n × BackendPool n × Bool} (hx : s.readerStep E a p io = some x) :
    Posting E a s p x.1 x.2.1 := by
  unfold ClientSession.readerStep at hx
  split at hx
  · obtain ⟨y, hy, rfl⟩ := Option.map_eq_some_iff.mp hx
    exact posting_readerTop hp hU hsize hy
  · cases hx
    refine posting_same ?_
    unfold ClientSession.readerAwait
    repeat' split
    all_goals rfl
  · obtain ⟨sig, _, rfl⟩ := Option.map_eq_some_iff.mp hx
    exact posting_same rfl
  · cases hx
    exact posting_same rfl
  · obtain ⟨y, hy, rfl⟩ := Option.map_eq_some_iff.mp hx
    exact posting_readerRead hy
  · cases hx
    exact posting_finishLoop rfl
  · cases hx

/-- The writer never submits. -/
theorem posting_writerStep {io : SessionWriterIo} {x : ClientSession n × BackendPool n × Bool}
    (hx : s.writerStep E a p io = some x) : Posting E a s p x.1 x.2.1 := by
  unfold ClientSession.writerStep at hx
  split at hx
  · cases hx
    refine posting_same ?_
    unfold ClientSession.writerTop
    repeat' split
    all_goals rfl
  · obtain ⟨sig, _, rfl⟩ := Option.map_eq_some_iff.mp hx
    exact posting_same rfl
  · obtain ⟨y, hy, rfl⟩ := Option.map_eq_some_iff.mp hx
    obtain ⟨r, _, rfl⟩ := Option.map_eq_some_iff.mp hy
    cases r with
    | running c' => exact posting_same rfl
    | returned st =>
      dsimp only
      split
      · exact posting_same rfl
      · exact (posting_abort rfl : Posting E a s p (s.abort a p).1 (s.abort a p).2).same rfl
  · cases hx
    exact posting_finishLoop rfl
  · cases hx

/-! ## 2. What follows -/

/-- **What a session submits keeps the histories of the channels framed**: each batch in them is as
    many whole commands as it says. -/
theorem Posting.framed (h : Posting E a s p s₁ p') (hU : UnpackOneSpec E.unpackOne)
    (hf : ∀ c, Framed E.firstFrame (p c).trace) (c : Fin n) : Framed E.firstFrame (p' c).trace := by
  cases h with
  | quiet pool verdicts =>
    exact fun k id o bytes count hm => hf c k id o bytes count (pool c k id o bytes count hm)
  | sent c₁ bytes gs chain ready ne pool verdicts =>
    rw [pool]
    by_cases hc : c = c₁
    · subst hc
      rw [Function.update_self, BackendChannel.trace_submit ready a bytes (by simpa using ne)]
      intro k id o bytes' count hm
      rcases List.mem_cons.mp hm with he | hm
      · cases he
        refine ⟨⟨gs, chain⟩, ?_⟩
        rw [chain.framesOf_eq (Env.incremental_firstFrame hU) (Env.advances_firstFrame hU),
          List.length_map]
      · exact hf c k id o bytes' count hm
    · rw [Function.update_of_ne hc]
      exact hf c

/-- **Every command that was forwarded stands at its place**: in a batch submitted on that channel
    and connection. -/
def Placed (E : Env) (p : BackendPool n) (s : ClientSession n) : Prop :=
  ∀ frame slot, Verdict.forwarded frame (some slot) ∈ s.verdicts →
    ∃ bytes count, .submitted slot.conn slot.command.id slot.command.owner bytes count ∈
        (p slot.channel).trace ∧
      (framesOf E.firstFrame bytes)[slot.command.pos]? = some frame

/-- Places noted in a history are there when it has grown. -/
theorem Placed.grow (h : s.Placed E p) (hg : p.Grows p') : s.Placed E p' := by
  intro frame slot hm
  obtain ⟨bytes, count, hsub, hframe⟩ := h frame slot hm
  exact ⟨bytes, count, (hg slot.channel).subset hsub, hframe⟩

/-- The `j`th command of a batch is noted with place `j`. -/
theorem mem_verdictsOf {frames : List Bytes} {a : Owner} {c : Fin n} {count : Nat} {frame : Bytes}
    {slot : Slot n}
    (h : Verdict.forwarded frame (some slot) ∈ verdictsOf frames (slotsOf p c a count)) :
    ∃ j, frames[j]? = some frame ∧ slot = ⟨c, (p c).conn, ⟨(p c).trace.length, j, a⟩⟩ := by
  obtain ⟨j, hj, he⟩ := List.mem_mapIdx.mp h
  obtain ⟨hframe, hslot⟩ := Verdict.forwarded.inj he
  refine ⟨j, by rw [List.getElem?_eq_getElem hj, hframe], ?_⟩
  simp only [slotsOf, commandsOf, List.getElem?_map, Option.map_map] at hslot
  obtain ⟨k, hk, hslot⟩ := Option.map_eq_some_iff.mp hslot
  obtain ⟨_, hk⟩ := List.getElem?_eq_some_iff.mp hk
  rw [List.getElem_range'] at hk
  rw [← hslot, ← hk]
  simp

/-- **The place noted for a command is the one it has in its batch.** -/
theorem Posting.placed (h : Posting E a s p s₁ p') (hU : UnpackOneSpec E.unpackOne)
    (hg : p.Grows p') (hp : s.Placed E p) : s₁.Placed E p' := by
  have hold := hp.grow hg
  intro frame slot hm
  cases h with
  | quiet pool verdicts =>
    rcases verdicts _ hm with hm | hnone
    · exact hold frame slot hm
    · cases hnone
  | sent c bytes gs chain ready ne pool verdicts =>
    rcases verdicts _ hm with hm | hnone | hm
    · exact hold frame slot hm
    · cases hnone
    · obtain ⟨j, hframe, rfl⟩ := mem_verdictsOf hm
      refine ⟨bytes.bytes, gs.length, ?_, ?_⟩
      · rw [pool, Function.update_self, BackendChannel.trace_submit ready a bytes (by simpa using ne)]
        exact List.mem_cons_self
      · rw [chain.framesOf_eq (Env.incremental_firstFrame hU) (Env.advances_firstFrame hU)]
        exact hframe

end Posting

end ClientSession

end RedisProxy
