/-
  File:      RedisProxy/Session/Answers.lean
  Subject:   EVERY COMMAND IS ANSWERED IN ITS TURN, and what was answered goes to the client.

  * `Answers` -- the outputs of a session answer its verdicts one by one, from the first on; what
    is not answered yet is what the session waits for: the replies of the commands in flight,
    then the error of the command the reader stopped at. The final error comes after all of them.
  * `Outgoing` -- what the socket took, what the writer is at and what is queued are the outputs.

  Each is proved function by function, in the order of Session/Model.lean.
-/
import RedisProxy.Session.Parsing

namespace RedisProxy

/-! ## 1. Verdicts and outputs -/

/-- What the answer to a command is made from. -/
inductive Awaited (n : Nat) where
  | reply (slot : Option (Slot n))
  | error (message : String)

def Verdict.awaited {n : Nat} : Verdict n → Awaited n
  | .forwarded _ slot => .reply slot
  | .rejected _ message => .error message

/-- The answer is what it is made from, where `R` says which replies come from which places. -/
def Awaited.Gives {n : Nat} (E : Env) (R : Slot n → Bytes → Prop) : Awaited n → Bytes → Prop
  | .reply (some slot), out => R slot out
  | .reply none, _ => False
  | .error message, out => out = E.packError message

theorem Awaited.Gives.mono {n : Nat} {E : Env} {R R' : Slot n → Bytes → Prop}
    (hR : ∀ x out, R x out → R' x out) {x : Awaited n} {out : Bytes} (h : x.Gives E R out) :
    x.Gives E R' out := by
  match x with
  | .reply (some slot) => exact hR slot out h
  | .reply none => exact h
  | .error message => exact h

/-- The error the reader has still to put out. -/
def SessionReaderPc.refusal : SessionReaderPc → List String
  | .awaiting error | .blocked error => [error]
  | _ => []

namespace ClientSession

variable {n : Nat}

/-- The answers the session waits for, in order. -/
def awaited (s : ClientSession n) : List (Awaited n) :=
  s.inflight.map (fun x => .reply (some x)) ++ s.reader.refusal.map .error

/-- The final error was put out, after the answers to all commands. -/
def Closed (E : Env) (s : ClientSession n) : Prop :=
  s.state ≠ .kOpen ∧ s.finalError = "" ∧ s.outputs.length = s.verdicts.length + 1 ∧
    ∃ e, s.ending = some e ∧ e ≠ "" ∧ s.outputs[s.verdicts.length]? = some (E.packError e)

/-- **The outputs answer the commands in their order**; `R` says which replies come from which
    places. -/
structure Answers (E : Env) (R : Slot n → Bytes → Prop) (s : ClientSession n) : Prop where
  covered : s.outputs.length ≤ s.verdicts.length ∨ s.Closed E
  given : ∀ {i : Nat} {v : Verdict n} {out : Bytes}, s.verdicts[i]? = some v →
    s.outputs[i]? = some out → v.awaited.Gives E R out
  waiting : s.state ≠ .kAborted →
    (s.verdicts.drop s.outputs.length).map Verdict.awaited = s.awaited
  ending : s.state = .kDraining → s.outputs.length ≤ s.verdicts.length →
    s.ending = some s.finalError

section Answers

variable {E : Env} {R : Slot n → Bytes → Prop} {s s' : ClientSession n}

theorem init_answers (E : Env) (R : Slot n → Bytes → Prop) (uid : Nat) :
    (init E uid).Answers E R where
  covered := Or.inl (Nat.le_refl _)
  given := nofun
  waiting _ := rfl
  ending := nofun

theorem awaited_eq (hi : s'.inflight = s.inflight) (hr : s'.reader.refusal = s.reader.refusal) :
    s'.awaited = s.awaited := by
  rw [awaited, awaited, hi, hr]

/-- What counts as an answer may be taken more loosely. -/
theorem Answers.mono {R' : Slot n → Bytes → Prop} (h : s.Answers E R)
    (hR : ∀ x out, R x out → R' x out) : s.Answers E R' where
  covered := h.covered
  given hv ho := (h.given hv ho).mono hR
  waiting := h.waiting
  ending := h.ending

/-- A step that puts nothing out; a session may become aborted. -/
theorem Answers.keep (h : s.Answers E R) (hv : s'.verdicts = s.verdicts)
    (ho : s'.outputs = s.outputs) (hf : s'.finalError = s.finalError)
    (he : s'.ending = s.ending) (hs : s'.state = s.state ∨ s'.state = .kAborted)
    (hw : s'.state ≠ .kAborted → s'.awaited = s.awaited) : s'.Answers E R where
  covered := by
    rw [ho, hv]
    refine h.covered.imp_right fun hc => ?_
    obtain ⟨hopen, hfinal, hlen, hlast⟩ := hc
    refine ⟨?_, by rw [hf]; exact hfinal, by rw [ho, hv]; exact hlen, by rw [he, ho, hv]; exact hlast⟩
    rcases hs with hs | hs
    · rw [hs]
      exact hopen
    · rw [hs]
      nofun
  given := by
    rw [hv, ho]
    exact h.given
  waiting hne := by
    rcases hs with hs | hs
    · rw [hv, ho, hw hne]
      exact h.waiting (by rw [← hs]; exact hne)
    · exact absurd hs hne
  ending hd := by
    rcases hs with hs | hs
    · rw [hv, ho, hf, he]
      exact h.ending (hs.symm.trans hd)
    · rw [hs] at hd
      cases hd

/-- What the session owes its client, and what it has put out. -/
def account (s : ClientSession n) :=
  (s.verdicts, s.outputs, s.finalError, s.ending, s.state, s.inflight)

/-- The same for a step that leaves the state alone. -/
theorem Answers.same (h : s.Answers E R) (ha : s'.account = s.account)
    (hr : s'.reader.refusal = s.reader.refusal) : s'.Answers E R := by
  simp only [account, Prod.mk.injEq] at ha
  obtain ⟨hv, ho, hf, he, hs, hi⟩ := ha
  exact h.keep hv ho hf he (Or.inl hs) fun _ => awaited_eq hi hr

/-- An aborted session awaits nothing and has given what it has given. -/
theorem Answers.left (h : s.Answers E R) : s.aborted.Answers E R :=
  h.keep rfl rfl rfl rfl (Or.inr rfl) fun hne => absurd rfl hne

theorem Answers.abort (h : s.Answers E R) (a : Owner) (p : BackendPool n) :
    (s.abort a p).1.Answers E R := by
  unfold ClientSession.abort
  split
  · exact h
  · exact h.left

/-- An open session has put out no more than answers. -/
theorem Answers.covered_of_open (h : s.Answers E R) (hopen : s.state = .kOpen) :
    s.outputs.length ≤ s.verdicts.length :=
  h.covered.resolve_right fun hc => hc.1 hopen

/-- **What an output is**: the reply from the place of its command, the error its command was
    refused with, or, as the last one, the error the stream ended with. -/
theorem Answers.output_cases (h : s.Answers E R) {i : Nat} {out : Bytes}
    (hout : s.outputs[i]? = some out) :
    (∃ frame slot, s.verdicts[i]? = some (.forwarded frame (some slot)) ∧ R slot out) ∨
    (∃ frame message, s.verdicts[i]? = some (.rejected frame message) ∧
      out = E.packError message) ∨
    (i = s.verdicts.length ∧ s.outputs.length = i + 1 ∧
      ∃ e, s.ending = some e ∧ e ≠ "" ∧ out = E.packError e) := by
  by_cases hi : i < s.verdicts.length
  · have hv := List.getElem?_eq_getElem hi
    have hgives := h.given hv hout
    generalize s.verdicts[i] = v at hv hgives
    match v with
    | .forwarded frame (some slot) => exact Or.inl ⟨frame, slot, hv, hgives⟩
    | .forwarded frame none => exact hgives.elim
    | .rejected frame message => exact Or.inr (Or.inl ⟨frame, message, hv, hgives⟩)
  · have hlt := (List.getElem?_eq_some_iff.mp hout).1
    rcases h.covered with hle | ⟨_, _, hlen, e, he, hne, hlast⟩
    · omega
    · obtain rfl : i = s.verdicts.length := by omega
      rw [hout] at hlast
      exact Or.inr (Or.inr ⟨rfl, hlen, e, he, hne, Option.some.inj hlast⟩)

/-- **The next answer is put out.** -/
theorem Answers.answer (h : s.Answers E R) (hne : s.state ≠ .kAborted) {x : Awaited n}
    {l : List (Awaited n)} (hx : s.awaited = x :: l) {out : Bytes}
    (hout : x.Gives E R out)
    (hv : s'.verdicts = s.verdicts) (ho : s'.outputs = s.outputs ++ [out])
    (hf : s'.finalError = s.finalError) (he : s'.ending = s.ending) (hs : s'.state = s.state)
    (hw : s'.awaited = l) : s'.Answers E R := by
  have hmap := (h.waiting hne).trans hx
  have hlt : s.outputs.length < s.verdicts.length := by
    have hlen := congrArg List.length hmap
    rw [List.length_map, List.length_drop, List.length_cons] at hlen
    omega
  rw [List.drop_eq_getElem_cons hlt, List.map_cons] at hmap
  obtain ⟨hhead, htail⟩ := List.cons.inj hmap
  have hlen : s'.outputs.length = s.outputs.length + 1 := by
    rw [ho, List.length_append]
    rfl
  refine ⟨Or.inl ?_, ?_, fun _ => ?_, fun hd _ => ?_⟩
  · rw [hlen, hv]
    exact hlt
  · intro i v out' hi hi'
    rw [hv] at hi
    rw [ho] at hi'
    rcases Nat.lt_trichotomy i s.outputs.length with hlt' | rfl | hgt
    · rw [List.getElem?_append_left hlt'] at hi'
      exact h.given hi hi'
    · -- the answer that was just put out
      rw [List.getElem?_concat_length] at hi'
      cases hi'
      rw [List.getElem?_eq_getElem hlt] at hi
      rw [Option.some.inj hi] at hhead
      rw [hhead]
      exact hout
    · rw [List.getElem?_eq_none] at hi'
      · cases hi'
      · rw [List.length_append, List.length_singleton]
        exact hgt
  · rw [hlen, hv, hw]
    exact htail
  · rw [he, hf]
    exact h.ending (hs.symm.trans hd) (Nat.le_of_lt hlt)

/-- **More commands are judged**, and the session waits for their answers. -/
theorem Answers.judge (h : s.Answers E R) (hopen : s.state = .kOpen) {vs : List (Verdict n)}
    (hv : s'.verdicts = s.verdicts ++ vs) (ho : s'.outputs = s.outputs)
    (hs : s'.state ≠ .kDraining)
    (hw : s'.state ≠ .kAborted → s'.awaited = s.awaited ++ vs.map Verdict.awaited) :
    s'.Answers E R := by
  have hle := h.covered_of_open hopen
  refine ⟨Or.inl ?_, ?_, fun hne => ?_, fun hd => absurd hd hs⟩
  · rw [ho, hv, List.length_append]
    exact Nat.le_trans hle (Nat.le_add_right _ _)
  · intro i v out hi hi'
    rw [ho] at hi'
    have hlt : i < s.outputs.length := (List.getElem?_eq_some_iff.mp hi').1
    rw [hv, List.getElem?_append_left (Nat.lt_of_lt_of_le hlt hle)] at hi
    exact h.given hi hi'
  · rw [ho, hv, List.drop_append_of_le_length hle, List.map_append, hw hne,
      h.waiting (by rw [hopen]; nofun)]

/-- A reply from the first of the places that are awaited. -/
theorem Answers.onBackendReply (h : s.Answers E R) (ht : s.Tallied) (hpos : 0 < s.pendingReplies)
    (hne : s.state ≠ .kAborted) {reply : BufferChain}
    (hR : ∀ x rest, s.inflight = x :: rest → R x reply.bytes) :
    (s.onBackendReply reply).Answers E R := by
  obtain ⟨x, rest, hin⟩ : ∃ x rest, s.inflight = x :: rest :=
    List.exists_cons_of_length_pos (ht.pending ▸ hpos)
  refine h.answer hne (x := .reply (some x))
    (l := rest.map (fun x => .reply (some x)) ++ s.reader.refusal.map .error) ?_ (hR x rest hin)
    rfl rfl rfl rfl rfl ?_
  · rw [awaited, hin]
    rfl
  · show s.inflight.tail.map _ ++ _ = _
    rw [hin]
    rfl

/-- `drain` settles the last words: the final error, if there is one. -/
theorem Answers.drain (h : s.Answers E R) (hopen : s.state = .kOpen) (hr : s.reader.refusal = [])
    (error : String) (eof : Bool) :
    { s.drain error with reader := .leaving, eof := eof }.Answers E R := by
  have hne : s.state ≠ .kAborted := by
    rw [hopen]
    nofun
  rw [drain_of_open hopen]
  refine ⟨Or.inl (h.covered_of_open hopen), h.given, fun _ => ?_, fun _ _ => rfl⟩
  refine (h.waiting hne).trans ?_
  rw [awaited, hr]
  rfl

/-! ## 2. The reader -/

/-- The verdicts on a batch that was accepted wait for the replies from its places. -/
theorem awaited_verdictsOf {frames : List Bytes} {slots : List (Slot n)}
    (h : slots.length = frames.length) :
    (verdictsOf frames slots).map Verdict.awaited = slots.map fun x => .reply (some x) := by
  refine List.ext_getElem? fun j => ?_
  simp only [verdictsOf, List.getElem?_map, List.getElem?_mapIdx, Option.map_map]
  by_cases hj : j < slots.length
  · rw [List.getElem?_eq_getElem hj, List.getElem?_eq_getElem (h ▸ hj)]
    rfl
  · rw [List.getElem?_eq_none (Nat.not_lt.mp hj), List.getElem?_eq_none (h ▸ Nat.not_lt.mp hj)]
    rfl

/-- The commands of a batch are awaited in the order they were read. -/
theorem Answers.submitRound (h : s.Answers E R) (hsize : E.blockSize < 2 ^ 32)
    (hopen : s.state = .kOpen) (htop : s.reader = .top) {alloc : Nat → Nat → Bool} {r : Round}
    {gs : List (RespFrameInfo × Bytes)} (ht : Taking E alloc s r gs) (a : Owner)
    (p : BackendPool n) : (s.submitRound a p r).2.1.Answers E R := by
  have hframes : r.frames = gs.map Prod.snd := ht.read.frames
  have hparsed : r.parsed = gs.length := by
    rw [ht.read.parsed]
    exact Nat.zero_add _
  have hnd : s.state ≠ .kDraining := by
    rw [hopen]
    nofun
  have hcount := ht.count hsize
  have hwait : s.awaited = s.inflight.map fun x => .reply (some x) := by
    rw [awaited, htop]
    exact List.append_nil _
  unfold ClientSession.submitRound
  split
  · rename_i hpos
    rcases submitBatch_cases { s with parser := r.parser, clientIn := r.input.sliced r.consumed } a
      p (r.input.slicePrefix r.consumed) (r.parsed % 2 ^ 32) r.frames with
      ⟨h0, _⟩ | ⟨_, he⟩ | ⟨c, _, _, he⟩
    · omega
    · rw [he]
      unfold ClientSession.abort
      rw [if_neg (by rw [hopen]; nofun)]
      exact h.judge hopen rfl rfl nofun fun hne => absurd rfl hne
    · rw [he]
      refine h.judge hopen rfl rfl hnd fun _ => ?_
      rw [awaited_verdictsOf (by rw [length_slotsOf, hcount, hframes, List.length_map]), hwait,
        awaited]
      simp [htop, SessionReaderPc.refusal]
  · exact h.same rfl rfl

/-- A refused command is awaited behind them. -/
theorem Answers.closeRound (h : s.Answers E R) (hopen : s.state = .kOpen) (htop : s.reader = .top)
    (r : Round) : (s.closeRound r).Answers E R := by
  have hr : s.reader.refusal = [] := by
    rw [htop]
    rfl
  unfold ClientSession.closeRound
  repeat' split
  · have hd := h.drain hopen hr r.error s.eof
    rw [drain_of_open hopen] at hd ⊢
    exact hd
  · refine h.judge hopen rfl rfl (by rw [hopen]; nofun) fun _ => ?_
    rw [awaited, awaited, hr]
    simp [SessionReaderPc.refusal, Verdict.awaited]
  · exact h.same rfl hr.symm
  · exact h.same rfl hr.symm

/-- A round of the reader keeps the order of verdicts, answers and what is awaited. -/
theorem Answers.readerTop {grants : Prop} (h : s.Answers E R) (hp : s.Parsing E grants)
    (hU : UnpackOneSpec E.unpackOne) (hsize : E.blockSize < 2 ^ 32) (htop : s.reader = .top)
    {a : Owner} {p : BackendPool n} {alloc : Nat → Nat → Bool}
    {x : ClientSession n × BackendPool n} (hx : s.readerTop E a p alloc = some x) :
    x.1.Answers E R := by
  unfold ClientSession.readerTop at hx
  split at hx
  · cases hx
    exact h.same rfl (by rw [htop]; rfl)
  · rename_i hopen
    have hopen : s.state = .kOpen := not_not.mp hopen
    obtain ⟨r, hr, rfl⟩ := Option.map_eq_some_iff.mp hx
    obtain ⟨gs, ht⟩ := hp.round hU hr
    have hsub := h.submitRound hsize hopen htop ht a p
    obtain ⟨hrd, hstate, _⟩ := s.submitRound_fields a p r
    dsimp only
    split
    · rename_i hok
      exact hsub.closeRound ((hstate hok).trans hopen) (hrd.trans htop) r
    · exact hsub.same rfl (by rw [hrd, htop]; rfl)

/-- **The refusal is given only when every earlier reply has come.** -/
theorem Answers.readerAwait (h : s.Answers E R) (ho : s.Orderly) (ht : s.Tallied) {error : String}
    (hpc : s.reader = .awaiting error) : (s.readerAwait E error).Answers E R := by
  have hr : s.reader.refusal = [error] := by
    rw [hpc]
    rfl
  unfold ClientSession.readerAwait
  split
  · split
    all_goals exact h.same rfl hr.symm
  · rename_i hnowait
    split
    · rename_i hs
      -- the reader of a session that drains has left, so this one was aborted
      have ha : s.state = .kAborted := by
        cases hst : s.state with
        | kOpen => exact absurd hst hs
        | kAborted => rfl
        | kDraining =>
          have hgone := ho.draining hst
          rw [hpc] at hgone
          cases hgone
      exact h.keep rfl rfl rfl rfl (Or.inl rfl) fun hne => absurd ha hne
    · rename_i hopen
      have hopen : s.state = .kOpen := not_not.mp hopen
      have hin : s.inflight = [] := by
        rw [← ht.pending_eq_zero]
        by_contra hpend
        exact hnowait ⟨hopen, hpend⟩
      refine h.answer (by rw [hopen]; nofun) (x := .error error) (l := []) ?_ rfl rfl rfl rfl rfl
        rfl ?_
      · rw [awaited, hin, hr]
        rfl
      · simp [awaited, hin, SessionReaderPc.refusal]

theorem Answers.readerRead (h : s.Answers E R) (hpc : s.reader = .reading) {a : Owner}
    {p : BackendPool n} {o : ReadOutcome} {x : ClientSession n × BackendPool n}
    (hx : s.readerRead a p o = some x) : x.1.Answers E R := by
  have hr : s.reader.refusal = [] := by
    rw [hpc]
    rfl
  obtain ⟨⟨st, b⟩, _, rfl⟩ := Option.map_eq_some_iff.mp hx
  have hread : { s with clientIn := b, input := s.input ++ o.bytes }.Answers E R :=
    h.same rfl rfl
  cases st with
  | none => exact h.same rfl rfl
  | some st =>
    dsimp only
    split
    · exact hread.same rfl hr.symm
    · rename_i hopen
      have hopen : s.state = .kOpen := not_not.mp hopen
      split
      · exact hread.same rfl hr.symm
      · split
        · exact hread.drain hopen hr (endError b) true
        · refine (hread.abort a p).keep rfl rfl rfl rfl (Or.inl rfl) fun hne => absurd ?_ hne
          unfold ClientSession.abort
          split
          · assumption
          · rfl

theorem Answers.finishLoop (h : s.Answers E R) (a : Owner) (p : BackendPool n) :
    (s.finishLoop a p).1.Answers E R := by
  unfold ClientSession.finishLoop
  split
  all_goals exact h.same rfl rfl

/-- **Every step of the reader keeps it.** -/
theorem Answers.readerStep {grants : Prop} (h : s.Answers E R) (hp : s.Parsing E grants)
    (hU : UnpackOneSpec E.unpackOne) (hsize : E.blockSize < 2 ^ 32) (ho : s.Orderly)
    (ht : s.Tallied) {a : Owner} {p : BackendPool n} {io : SessionReaderIo}
    {x : ClientSession n × BackendPool n × Bool} (hx : s.readerStep E a p io = some x) :
    x.1.Answers E R := by
  unfold ClientSession.readerStep at hx
  split at hx
  · rename_i hpc
    obtain ⟨y, hy, rfl⟩ := Option.map_eq_some_iff.mp hx
    exact h.readerTop hp hU hsize hpc hy
  · rename_i hpc
    cases hx
    exact h.readerAwait ho ht hpc
  · rename_i hpc
    obtain ⟨sig, _, rfl⟩ := Option.map_eq_some_iff.mp hx
    exact h.same rfl (by rw [hpc]; rfl)
  · rename_i hpc
    cases hx
    exact h.same rfl (by rw [hpc]; rfl)
  · rename_i hpc
    obtain ⟨y, hy, rfl⟩ := Option.map_eq_some_iff.mp hx
    exact h.readerRead hpc hy
  · rename_i hpc
    cases hx
    have hdone : { s with reader := .done }.Answers E R :=
      h.same rfl (by rw [hpc]; rfl)
    exact hdone.finishLoop a p
  · cases hx

/-! ## 3. The writer -/

/-- A session that drains with nothing in flight has answered every command. -/
theorem Answers.all_answered (h : s.Answers E R) (ho : s.Orderly) (hd : s.state = .kDraining)
    (hin : s.inflight = []) : s.verdicts.length ≤ s.outputs.length := by
  have hr : s.reader.refusal = [] := by
    have hgone := ho.draining hd
    cases hpc : s.reader <;> rw [hpc] at hgone <;> first | rfl | cases hgone
  have hmap := h.waiting (by rw [hd]; nofun)
  rw [awaited, hin, hr] at hmap
  have hlen := congrArg List.length hmap
  rw [List.length_map, List.length_drop] at hlen
  exact Nat.sub_eq_zero_iff_le.mp hlen

/-- The final error comes after the answers to all commands. -/
theorem Answers.close (h : s.Answers E R) (ho : s.Orderly) (hd : s.state = .kDraining)
    (hin : s.inflight = []) (hf : s.finalError ≠ "") (pc : SessionWriterPc) :
    { s with
      finalError := ""
      outputs := s.outputs ++ [E.packError s.finalError]
      writer := pc }.Answers E R := by
  have hle : s.outputs.length ≤ s.verdicts.length :=
    h.covered.resolve_right fun hc => hf hc.2.1
  have hlen : s.outputs.length = s.verdicts.length :=
    Nat.le_antisymm hle (h.all_answered ho hd hin)
  have hnew : (s.outputs ++ [E.packError s.finalError]).length = s.verdicts.length + 1 := by
    rw [List.length_append, hlen]
    rfl
  refine ⟨Or.inr ⟨by rw [hd]; nofun, rfl, hnew, s.finalError, h.ending hd hle, hf, ?_⟩, ?_,
    fun hne => ?_, fun _ hle' => ?_⟩
  · show (s.outputs ++ [E.packError s.finalError])[s.verdicts.length]? = _
    rw [← hlen, List.getElem?_concat_length]
  · intro i v out hi hi'
    have hlt : i < s.outputs.length := by
      rw [hlen]
      exact (List.getElem?_eq_some_iff.mp hi).1
    rw [List.getElem?_append_left hlt] at hi'
    exact h.given hi hi'
  · have hold := h.waiting hne
    rw [hlen, List.drop_length] at hold
    show (s.verdicts.drop (s.outputs ++ [E.packError s.finalError]).length).map _ = _
    rw [hnew, List.drop_eq_nil_of_le (Nat.le_succ _)]
    exact hold
  · have hle' : (s.outputs ++ [E.packError s.finalError]).length ≤ s.verdicts.length := hle'
    omega

/-- The final error is given last, when nothing is awaited any more. -/
theorem Answers.writerTop (h : s.Answers E R) (ho : s.Orderly) (ht : s.Tallied) :
    (s.writerTop E).Answers E R := by
  unfold ClientSession.writerTop
  split
  · exact h.same rfl rfl
  · split
    · split
      · rename_i hd
        split
        · exact h.same rfl rfl
        · rename_i hf
          exact h.close ho hd.1 (ht.pending_eq_zero.mp hd.2) hf _
      · split
        all_goals exact h.same rfl rfl
    · exact h.same rfl rfl

theorem Answers.writerWrite (h : s.Answers E R) {a : Owner} {p : BackendPool n} {c : WriteCursor}
    {o : Option WriteOutcome} {x : ClientSession n × BackendPool n}
    (hx : s.writerWrite a p c o = some x) : x.1.Answers E R := by
  obtain ⟨r, _, rfl⟩ := Option.map_eq_some_iff.mp hx
  cases r with
  | running c' => exact h.same rfl rfl
  | returned st =>
    dsimp only
    split
    · exact h.same rfl rfl
    · exact (h.abort a p).same rfl rfl

/-- **Every step of the writer keeps it.** -/
theorem Answers.writerStep (h : s.Answers E R) (ho : s.Orderly) (ht : s.Tallied) {a : Owner}
    {p : BackendPool n} {io : SessionWriterIo} {x : ClientSession n × BackendPool n × Bool}
    (hx : s.writerStep E a p io = some x) : x.1.Answers E R := by
  unfold ClientSession.writerStep at hx
  split at hx
  · cases hx
    exact h.writerTop ho ht
  · obtain ⟨sig, _, rfl⟩ := Option.map_eq_some_iff.mp hx
    exact h.same rfl rfl
  · obtain ⟨y, hy, rfl⟩ := Option.map_eq_some_iff.mp hx
    exact h.writerWrite hy
  · cases hx
    have hdone : { s with writer := .done }.Answers E R := h.same rfl rfl
    exact hdone.finishLoop a p
  · cases hx

end Answers

end ClientSession

/-! ## 4. What goes to the client -/

/-- What the writer has still to hand over of the chain it is at. -/
def SessionWriterPc.rest : SessionWriterPc → Bytes
  | .writing c => c.rest
  | _ => []

namespace ClientSession

variable {n : Nat}

/-- The bytes that are queued for the client. -/
def queued (s : ClientSession n) : Bytes := (s.clientOut.map BufferChain.bytes).flatten

/-- **The client is given the outputs, in order**: all of them, as long as the session is not
    aborted. -/
structure Outgoing (s : ClientSession n) : Prop where
  front : s.handed ++ s.writer.rest <+: s.outputs.flatten
  whole : s.state ≠ .kAborted → s.handed ++ s.writer.rest ++ s.queued = s.outputs.flatten

theorem init_outgoing (E : Env) (uid : Nat) : (init E uid : ClientSession n).Outgoing where
  front := List.nil_prefix
  whole _ := rfl

section Outgoing

variable {E : Env} {s s' : ClientSession n}

/-- What goes to the client. -/
def outgoing (s : ClientSession n) := (s.handed, s.clientOut, s.outputs, s.state)

/-- A step that puts nothing out and hands nothing over. -/
theorem Outgoing.keep (h : s.Outgoing) (ho : s'.outgoing = s.outgoing)
    (hw : s'.writer.rest = s.writer.rest) : s'.Outgoing := by
  simp only [outgoing, Prod.mk.injEq] at ho
  obtain ⟨hh, hq, ho, hs⟩ := ho
  refine ⟨?_, fun hne => ?_⟩
  · rw [hh, hw, ho]
    exact h.front
  · rw [hh, hw, queued, hq, ho]
    exact h.whole (by rw [← hs]; exact hne)

/-- Something is put out. -/
theorem Outgoing.put (h : s.Outgoing) {c : BufferChain} (hh : s'.handed = s.handed)
    (hw : s'.writer.rest = s.writer.rest) (hq : s'.clientOut = s.clientOut ++ [c])
    (ho : s'.outputs = s.outputs ++ [c.bytes]) (hs : s'.state = s.state) : s'.Outgoing where
  front := by
    rw [hh, hw, ho, List.flatten_append]
    exact h.front.trans (List.prefix_append _ _)
  whole hne := by
    have hold := h.whole (by rw [← hs]; exact hne)
    rw [hh, hw, queued, hq, ho, List.flatten_append, ← hold, queued]
    simp

/-- A reply is queued behind the output. -/
theorem Outgoing.onBackendReply (h : s.Outgoing) (reply : BufferChain) :
    (s.onBackendReply reply).Outgoing :=
  h.put rfl rfl rfl rfl rfl

/-- An aborted session drops its output; what was handed over stays so. -/
theorem Outgoing.left (h : s.Outgoing) : s.aborted.Outgoing where
  front := h.front
  whole hne := absurd rfl hne

theorem Outgoing.abort (h : s.Outgoing) (a : Owner) (p : BackendPool n) :
    (s.abort a p).1.Outgoing := by
  unfold ClientSession.abort
  split
  · exact h
  · exact h.left

theorem Outgoing.drain (h : s.Outgoing) (error : String) : (s.drain error).Outgoing := by
  unfold ClientSession.drain
  split
  · exact h
  · rename_i hopen
    have hopen : s.state = .kOpen := not_not.mp hopen
    exact ⟨h.front, fun _ => h.whole (by rw [hopen]; nofun)⟩

/-- Submitting puts nothing out. -/
theorem Outgoing.submitRound (h : s.Outgoing) (a : Owner) (p : BackendPool n) (r : Round) :
    (s.submitRound a p r).2.1.Outgoing := by
  have hkeep : ∀ vs : List (Verdict n), { s with
      parser := r.parser, clientIn := r.input.sliced r.consumed, verdicts := vs }.Outgoing :=
    fun _ => h.keep rfl rfl
  unfold ClientSession.submitRound
  split
  · rcases submitBatch_cases { s with parser := r.parser, clientIn := r.input.sliced r.consumed } a
      p (r.input.slicePrefix r.consumed) (r.parsed % 2 ^ 32) r.frames with
      ⟨_, he⟩ | ⟨_, he⟩ | ⟨c, _, _, he⟩ <;> rw [he]
    · exact hkeep _
    · exact (hkeep _).abort a p
    · exact h.keep rfl rfl
  · exact h.keep rfl rfl

theorem Outgoing.closeRound (h : s.Outgoing) (r : Round) : (s.closeRound r).Outgoing := by
  unfold ClientSession.closeRound
  repeat' split
  · exact (h.drain r.error).keep rfl rfl
  all_goals exact h.keep rfl rfl

theorem Outgoing.readerTop (h : s.Outgoing) {a : Owner} {p : BackendPool n}
    {alloc : Nat → Nat → Bool} {x : ClientSession n × BackendPool n}
    (hx : s.readerTop E a p alloc = some x) : x.1.Outgoing := by
  unfold ClientSession.readerTop at hx
  split at hx
  · cases hx
    exact h.keep rfl rfl
  · obtain ⟨r, _, rfl⟩ := Option.map_eq_some_iff.mp hx
    have hsub := h.submitRound a p r
    dsimp only
    split
    · exact hsub.closeRound r
    · exact hsub.keep rfl rfl

/-- A refusal is queued behind the output. -/
theorem Outgoing.readerAwait (h : s.Outgoing) (error : String) :
    (s.readerAwait E error).Outgoing := by
  unfold ClientSession.readerAwait
  repeat' split
  · exact h.keep rfl rfl
  · exact h.keep rfl rfl
  · exact h.keep rfl rfl
  · refine h.put (c := E.makeChain (E.packError error)) rfl rfl rfl ?_ rfl
    rw [Env.makeChain, bytes_makeBufferChain]

theorem Outgoing.readerRead (h : s.Outgoing) {a : Owner} {p : BackendPool n} {o : ReadOutcome}
    {x : ClientSession n × BackendPool n} (hx : s.readerRead a p o = some x) : x.1.Outgoing := by
  obtain ⟨⟨st, b⟩, _, rfl⟩ := Option.map_eq_some_iff.mp hx
  have hread : { s with clientIn := b, input := s.input ++ o.bytes }.Outgoing :=
    h.keep rfl rfl
  cases st with
  | none => exact h.keep rfl rfl
  | some st =>
    dsimp only
    repeat' split
    · exact hread.keep rfl rfl
    · exact hread.keep rfl rfl
    · exact (hread.drain _).keep rfl rfl
    · exact (hread.abort a p).keep rfl rfl

theorem Outgoing.finishLoop (h : s.Outgoing) (a : Owner) (p : BackendPool n) :
    (s.finishLoop a p).1.Outgoing := by
  unfold ClientSession.finishLoop
  split
  all_goals exact h.keep rfl rfl

theorem Outgoing.readerStep (h : s.Outgoing) {a : Owner} {p : BackendPool n}
    {io : SessionReaderIo} {x : ClientSession n × BackendPool n × Bool}
    (hx : s.readerStep E a p io = some x) : x.1.Outgoing := by
  unfold ClientSession.readerStep at hx
  split at hx
  · obtain ⟨y, hy, rfl⟩ := Option.map_eq_some_iff.mp hx
    exact h.readerTop hy
  · cases hx
    exact h.readerAwait _
  · obtain ⟨sig, _, rfl⟩ := Option.map_eq_some_iff.mp hx
    exact h.keep rfl rfl
  · cases hx
    exact h.keep rfl rfl
  · obtain ⟨y, hy, rfl⟩ := Option.map_eq_some_iff.mp hx
    exact h.readerRead hy
  · cases hx
    have hdone : { s with reader := .done }.Outgoing := h.keep rfl rfl
    exact hdone.finishLoop a p
  · cases hx

/-- Joining outputs to one chain keeps their bytes. -/
theorem bytes_gather (count : Nat) (reply : BufferChain) (q : List BufferChain) :
    (gather count reply q).1.bytes ++ ((gather count reply q).2.map BufferChain.bytes).flatten =
      reply.bytes ++ (q.map BufferChain.bytes).flatten := by
  induction count generalizing reply q with
  | zero => rfl
  | succ count ih =>
    cases q with
    | nil => rfl
    | cons c q =>
      rw [gather, ih, BufferChain.bytes_appendChain]
      simp

/-- The writer takes chains from the front of the queue, or the final error when it is empty. -/
theorem Outgoing.writerTop (h : s.Outgoing) (hpc : s.writer = .top) : (s.writerTop E).Outgoing := by
  have hrest : s.writer.rest = [] := by
    rw [hpc]
    rfl
  unfold ClientSession.writerTop
  split
  · exact h.keep rfl hrest.symm
  · rename_i hne
    have hwhole := h.whole hne
    rw [hrest, List.append_nil] at hwhole
    split
    · rename_i hq
      split
      · split
        · exact h.keep rfl hrest.symm
        · -- the queue is empty, so the final error is next
          have hall : s.handed ++ (E.makeChain (E.packError s.finalError)).bytes =
              (s.outputs ++ [E.packError s.finalError]).flatten := by
            rw [Env.makeChain, bytes_makeBufferChain, List.flatten_append, ← hwhole, queued, hq]
            simp
          refine ⟨?_, fun _ => ?_⟩
          · exact hall ▸ List.prefix_rfl
          · show s.handed ++ (E.makeChain (E.packError s.finalError)).bytes ++ queued _ = _
            rw [hall, queued, hq]
            exact List.append_nil _
      · split
        · exact h.keep rfl rfl
        · exact h.keep rfl hrest.symm
    · rename_i reply q hq
      have hall : s.handed ++ (gather 63 reply q).1.bytes ++
          ((gather 63 reply q).2.map BufferChain.bytes).flatten = s.outputs.flatten := by
        rw [List.append_assoc, bytes_gather, ← hwhole, queued, hq]
        rfl
      refine ⟨?_, fun _ => hall⟩
      exact ⟨_, hall⟩

/-- What a write accepts is handed over, in order. -/
theorem Outgoing.writerWrite (h : s.Outgoing) {a : Owner} {p : BackendPool n} {c : WriteCursor}
    (hpc : s.writer = .writing c) {o : Option WriteOutcome} {x : ClientSession n × BackendPool n}
    (hx : s.writerWrite a p c o = some x) : x.1.Outgoing := by
  have hrest : s.writer.rest = c.rest := by
    rw [hpc]
    rfl
  obtain ⟨r, hr, rfl⟩ := Option.map_eq_some_iff.mp hx
  cases r with
  | running c' =>
    have hsplit : s.handed ++ c.accepted o ++ c'.rest = s.handed ++ s.writer.rest := by
      rw [hrest, List.append_assoc, writeRound_running hr]
    refine ⟨?_, fun hne => ?_⟩
    · show s.handed ++ c.accepted o ++ c'.rest <+: _
      rw [hsplit]
      exact h.front
    · show s.handed ++ c.accepted o ++ c'.rest ++ s.queued = _
      rw [hsplit]
      exact h.whole hne
  | returned st =>
    have hdone := (writeRound_returned hr).2
    dsimp only
    split
    · rename_i hok
      exact h.keep rfl (by rw [hrest, hdone.mp hok]; rfl)
    · -- what the writer was at is lost with the queue
      have habort := h.abort a p
      have hst : (s.abort a p).1.state = .kAborted := by
        unfold ClientSession.abort
        split
        · assumption
        · rfl
      refine ⟨?_, fun hne => absurd hst hne⟩
      show (s.abort a p).1.handed ++ [] <+: _
      rw [List.append_nil]
      exact (List.prefix_append _ _).trans habort.front

/-- **Every step of the writer keeps the order of what goes out.** -/
theorem Outgoing.writerStep (h : s.Outgoing) {a : Owner} {p : BackendPool n}
    {io : SessionWriterIo} {x : ClientSession n × BackendPool n × Bool}
    (hx : s.writerStep E a p io = some x) : x.1.Outgoing := by
  unfold ClientSession.writerStep at hx
  split at hx
  · rename_i hpc
    cases hx
    exact h.writerTop hpc
  · rename_i hpc
    obtain ⟨sig, _, rfl⟩ := Option.map_eq_some_iff.mp hx
    exact h.keep rfl (by rw [hpc]; rfl)
  · rename_i hpc
    obtain ⟨y, hy, rfl⟩ := Option.map_eq_some_iff.mp hx
    exact h.writerWrite hpc hy
  · rename_i hpc
    cases hx
    have hdone : { s with writer := .done }.Outgoing :=
      h.keep rfl (by rw [hpc]; rfl)
    exact hdone.finishLoop a p
  · cases hx

end Outgoing

/-! ## 5. A session that finished -/

section Finished

variable {E : Env} {R : Slot n → Bytes → Prop} {s : ClientSession n}

/-- A session that finished without an abort has said all it had to say. -/
theorem Orderly.drained (ho : s.Orderly) (hfin : s.finishCalls = 1) (hne : s.state ≠ .kAborted) :
    s.writer = .done ∧ s.Drained := by
  have hpc := (ho.both_done hfin).2
  exact ⟨hpc, (ho.writerGone (by rw [hpc]; rfl)).resolve_left hne⟩

/-- **A session that finished and was not aborted has answered every command**, has put out the
    error it ended with after that, if there was one, and the client has it all. -/
theorem Answers.finished (h : s.Answers E R) (hout : s.Outgoing) (ho : s.Orderly) (ht : s.Tallied)
    (hfin : s.finishCalls = 1) (hne : s.state ≠ .kAborted) :
    s.handed = s.outputs.flatten ∧ s.verdicts.length ≤ s.outputs.length ∧
      ∃ e, s.ending = some e ∧
        s.outputs.drop s.verdicts.length = if e = "" then [] else [E.packError e] := by
  obtain ⟨hpc, hd, hpend, hq, hf⟩ := ho.drained hfin hne
  have hrest : s.writer.rest = [] := by
    rw [hpc]
    rfl
  have hall := h.all_answered ho hd (ht.pending_eq_zero.mp hpend)
  refine ⟨?_, hall, ?_⟩
  · have hwhole := hout.whole hne
    rw [hrest, queued, hq] at hwhole
    simpa using hwhole
  · rcases h.covered with hle | ⟨_, _, hlen, e, he, hne', hlast⟩
    · refine ⟨"", ?_, ?_⟩
      · rw [h.ending hd hle, hf]
      · rw [if_pos rfl]
        exact List.drop_eq_nil_of_le hle
    · refine ⟨e, he, ?_⟩
      obtain ⟨hlt, hget⟩ := List.getElem?_eq_some_iff.mp hlast
      rw [if_neg hne', List.drop_eq_getElem_cons hlt, hget,
        List.drop_eq_nil_of_le (Nat.le_of_eq hlen)]

end Finished

end ClientSession

end RedisProxy
