/-
  File:      RedisProxy/Worker/Peers.lean
  Subject:   A WORKER AND ITS REDIS PEERS: a client is given Redis's replies to its own commands, in
             the order of its commands.

  `Net` is a worker with what Redis did on every connection. Redis takes the commands that arrive
  on a connection one by one and gives one reply to each; what the channels receive is what was
  replied there. All the rest is the worker's: `Exchange` is kept by every step, and everything
  known of a worker holds of the worker in it.

  * `framed_reachable` -- every batch a worker submits is a sequence of whole commands;
  * `reply_of_place` -- the frame that answers the command at a place is Redis's reply to it;
  * `clients_answered` -- the result.
-/
import RedisProxy.Worker.Answers

namespace RedisProxy

open Lib

/-! ## 1. What is sent are whole commands -/

namespace Worker

theorem Move.framed {n : Nat} {E : Env} {w w' : Worker n} {act : WorkerAct n}
    (hm : w.Move E act w') (hU : UnpackOneSpec E.unpackOne) (hsize : E.blockSize < 2 ^ 32)
    (hk : w.Kept E) (hp : ∀ a s, w.sessions a = some s → s.Parsing E False)
    (h : ∀ c, Framed E.firstFrame (w.pool c).trace) (c : Fin n) :
    Framed E.firstFrame (w'.pool c).trace := by
  cases hm with
  | channel c₁ ch' step alone =>
    by_cases hc : c = c₁
    · subst hc
      simp only [setChannel, Function.update_self]
      intro k id o bytes count hmem
      exact h c k id o bytes count ((step.steps (hk.life c)).submitted_old hmem)
    · simp only [setChannel, Function.update_of_ne hc]
      exact h c
  | session b s x idle live step =>
    rcases step with ⟨io, _, hx⟩ | ⟨io, _, hx⟩
    · exact (ClientSession.posting_readerStep (hp b s live) hU hsize hx).framed hU h c
    · exact (ClientSession.posting_writerStep hx).framed hU h c
  | replied c₁ b reply fs s frames live =>
    by_cases hc : c = c₁
    · subst hc
      simp only [setSession, setChannel, Function.update_self]
      exact h c
    · simp only [setSession, setChannel, Function.update_of_ne hc]
      exact h c
  | told c₁ b fs s frames live alone =>
    have hold : Framed E.firstFrame ((s.abort b w.pool).2 c).trace :=
      fun k id o bytes count hmem => h c k id o bytes count
        (ClientSession.unposted_abort s b w.pool c k id o bytes count hmem)
    by_cases hc : c = c₁
    · subst hc
      simp only [setSession, setChannel, Function.update_self]
      exact hold
    · simp only [setSession, setChannel, Function.update_of_ne hc]
      exact hold
  | accept b idle free => exact h c
  | reap idle => exact h c

theorem framed_reachable {E : Env} (hU : UnpackOneSpec E.unpackOne) (hsize : E.blockSize < 2 ^ 32)
    {w : Worker E.config.channels} (h : (machine E).Reachable w) :
    ∀ c, Framed E.firstFrame (w.pool c).trace := by
  refine h.invariant (I := fun w => ∀ c, Framed E.firstFrame (w.pool c).trace) ?_ ?_
  · intro c k id o bytes count hmem
    cases hmem
  · intro w act w' hw hI hs
    have hk := kept_reachable hw
    exact (step_move hk.single hs).framed hU hsize hk
      ((parsing_inherited hU False).reachable (fun _ hf => hf.elim) hw) hI

end Worker

/-! ## 2. The peers -/

/-- A worker and, for every connection of every channel, the commands Redis has answered there,
    each with its reply. -/
structure Net (n : Nat) where
  worker : Worker n
  answered : Fin n → Nat → List (Bytes × Bytes)

/-- A step of the worker, or a reply of Redis on a connection. -/
inductive NetAct (n : Nat) where
  | worker (act : WorkerAct n)
  | reply (c : Fin n) (conn : Nat) (bytes : Bytes)

/-- The step of the worker. -/
def NetAct.worker? {n : Nat} : NetAct n → Option (WorkerAct n)
  | .worker act => some act
  | .reply _ _ _ => none

/-- In this step no growth of the arena of a session's parser fails. -/
def NetAct.Granting {n : Nat} (act : NetAct n) : Prop :=
  ∀ a io, act = .worker (.reader a io) → Worker.Granting io

/-- Redis replies with one value. -/
def NetAct.Proper {n : Nat} (E : Env) (act : NetAct n) : Prop :=
  ∀ c conn bytes, act = .reply c conn bytes → IsReply E.unpackOne bytes

namespace Net

variable {n : Nat}

def init (E : Env) : Net n := ⟨.init E, fun _ _ => []⟩

/-- The commands that have arrived on a connection. -/
def arrived (E : Env) (net : Net n) (c : Fin n) (conn : Nat) : List Bytes :=
  arrivedOn E.firstFrame conn (net.worker.pool c).trace

/-- The replies given on a connection. -/
def replies (net : Net n) (c : Fin n) (conn : Nat) : List Bytes :=
  (net.answered c conn).map Prod.snd

/-- What the channels of `w` have received on their connections was replied there. -/
def Delivers (net : Net n) (w : Worker n) : Prop :=
  ∀ c, ∀ conn ∈ List.range ((w.pool c).conn + 1),
    receivedOn conn (w.pool c).trace <+: (net.replies c conn).flatten

instance (net : Net n) (w : Worker n) : Decidable (net.Delivers w) := by
  unfold Delivers
  infer_instance

def step (E : Env) (net : Net n) : NetAct n → Option (Net n)
  | .worker act =>
      (net.worker.step E act).bind fun w =>
        if net.Delivers w then some { net with worker := w } else none
  | .reply c conn bytes =>
      -- Redis answers the next command that has arrived
      ((net.arrived E c conn)[(net.answered c conn).length]?).map fun command =>
        { net with
          answered := Function.update net.answered c (Function.update (net.answered c) conn
            (net.answered c conn ++ [(command, bytes)])) }

def machine (E : Env) :
    Machine (Net E.config.channels) (NetAct E.config.channels) :=
  ⟨init E, step E⟩

/-- **What Redis and the channels exchange**: the commands answered are the first that arrived, and
    what was received is a front part of the replies. -/
structure Exchange (E : Env) (net : Net n) : Prop where
  commands : ∀ c conn, (net.answered c conn).map Prod.fst <+: net.arrived E c conn
  received : ∀ c conn,
    receivedOn conn (net.worker.pool c).trace <+: (net.replies c conn).flatten
  proper : ∀ c conn, ∀ r ∈ net.replies c conn, IsReply E.unpackOne r

theorem init_exchange (E : Env) : (init E : Net n).Exchange E where
  commands _ _ := List.nil_prefix
  received _ _ := List.nil_prefix
  proper _ _ := nofun

section Exchange

variable {E : Env} {net : Net n}

/-- What Redis has answered on a connection after one more reply there. -/
theorem answered_update {c : Fin n} {conn : Nat} {x : Bytes × Bytes} (c' : Fin n) (conn' : Nat) :
    Function.update net.answered c (Function.update (net.answered c) conn
      (net.answered c conn ++ [x])) c' conn' =
        net.answered c' conn' ++ if c' = c ∧ conn' = conn then [x] else [] := by
  by_cases hc : c' = c
  · subst hc
    rw [Function.update_self]
    by_cases hk : conn' = conn
    · subst hk
      rw [Function.update_self, if_pos ⟨rfl, rfl⟩]
    · rw [Function.update_of_ne hk, if_neg (fun h => hk h.2), List.append_nil]
  · rw [Function.update_of_ne hc, if_neg (fun h => hc h.1), List.append_nil]

theorem Exchange.reply (h : net.Exchange E) {c : Fin n} {conn : Nat} {bytes command : Bytes}
    (hnext : (net.arrived E c conn)[(net.answered c conn).length]? = some command)
    (hb : IsReply E.unpackOne bytes) :
    ({ net with
      answered := Function.update net.answered c (Function.update (net.answered c) conn
        (net.answered c conn ++ [(command, bytes)])) } : Net n).Exchange E where
  commands c' conn' := by
    dsimp only
    rw [answered_update]
    by_cases hx : c' = c ∧ conn' = conn
    · obtain ⟨rfl, rfl⟩ := hx
      rw [if_pos ⟨rfl, rfl⟩, List.map_append]
      obtain ⟨later, hlater⟩ := h.commands c' conn'
      -- the command answered is the first of those left
      have hlater' : net.arrived E c' conn' = (net.answered c' conn').map Prod.fst ++ later :=
        hlater.symm
      rw [hlater', List.getElem?_append_right (by rw [List.length_map]), List.length_map,
        Nat.sub_self] at hnext
      show _ <+: net.arrived E c' conn'
      rw [hlater']
      cases later with
      | nil => cases hnext
      | cons y later =>
        cases hnext
        exact ⟨later, by simp⟩
    · rw [if_neg hx, List.append_nil]
      exact h.commands c' conn'
  received c' conn' := by
    refine (h.received c' conn').trans ?_
    rw [replies, replies]
    dsimp only
    rw [answered_update, List.map_append, List.flatten_append]
    exact List.prefix_append _ _
  proper c' conn' r hr := by
    rw [replies] at hr
    dsimp only at hr
    rw [answered_update, List.map_append] at hr
    rcases List.mem_append.mp hr with hr | hr
    · exact h.proper c' conn' r hr
    · split at hr
      · rw [List.mem_singleton.mp hr]
        exact hb
      · cases hr

theorem Exchange.worker (h : net.Exchange E) (hU : UnpackOneSpec E.unpackOne) {w : Worker n}
    (hk : w.Kept E) (hg : net.worker.pool.Grows w.pool) (hd : net.Delivers w) :
    ({ net with worker := w } : Net n).Exchange E where
  commands c conn := by
    refine (h.commands c conn).trans ?_
    exact framesOf_mono (Env.incremental_firstFrame hU) (Env.advances_firstFrame hU)
      (collect_mono (hg c))
  received c conn := by
    by_cases hlt : conn < (w.pool c).conn + 1
    · exact hd c conn (List.mem_range.mpr hlt)
    · -- a connection that was not made yet
      have hn := (BackendChannel.ledger_reachable (hk.channels c)).1
      have hfresh : ∀ e ∈ (w.pool c).trace, e.conn? ≠ some conn := by
        intro e he heq
        have hstamp := hn.stamps e he conn heq
        have hle := (w.pool c).line.unused_le
        have hconn : (w.pool c).line.conn = (w.pool c).conn := rfl
        omega
      dsimp only
      rw [(on_fresh hfresh).2.2.1]
      exact List.nil_prefix
  proper := h.proper

end Exchange

section Reachable

variable {E : Env} {net : Net E.config.channels}

theorem worker_step {net' : Net E.config.channels} {act : NetAct E.config.channels}
    (hs : net.step E act = some net') :
    (Worker.machine E).run net.worker act.worker?.toList = some net'.worker := by
  cases act with
  | worker act =>
    obtain ⟨w, hw, hif⟩ := Option.bind_eq_some_iff.mp hs
    split at hif
    · cases hif
      exact Machine.run_single hw
    · cases hif
  | reply c conn bytes =>
    obtain ⟨command, _, rfl⟩ := Option.map_eq_some_iff.mp hs
    rfl

/-- The worker of a net is a worker. -/
theorem worker_reachable (h : (machine E).Reachable net) :
    (Worker.machine E).Reachable net.worker :=
  h.project Net.worker rfl fun _ _ _ _ hs => ⟨_, worker_step hs⟩

/-- **What a session keeps of its stream, under the assumption that is true of this run**: that no
    growth of an arena fails in it. -/
theorem answering_of_run (hU : UnpackOneSpec E.unpackOne) (hsize : E.blockSize < 2 ^ 32)
    {acts : List (NetAct E.config.channels)} (hr : (machine E).run (init E) acts = some net)
    {a : Owner} {s : ClientSession E.config.channels} (hs : net.worker.sessions a = some s) :
    Worker.Answering E (∀ act ∈ acts, act.Granting) net.worker.pool s := by
  have hrun : (Worker.machine E).run (.init E) (acts.filterMap NetAct.worker?) = some net.worker :=
    Machine.run_filterMap Net.worker NetAct.worker? (fun _ _ _ h => worker_step h) hr
  refine (Worker.answering_inherited hU hsize _).run (fun act hact b io hb hgrants => ?_) hrun
    a s hs
  obtain ⟨netAct, hmem, heq⟩ := List.mem_filterMap.mp hact
  subst hb
  cases netAct with
  | worker act =>
    cases heq
    exact hgrants _ hmem b io rfl
  | reply c conn bytes => cases heq

theorem exchange_of_run (hU : UnpackOneSpec E.unpackOne)
    {acts : List (NetAct E.config.channels)}
    (hok : ∀ act ∈ acts, NetAct.Proper E act)
    (hr : (machine E).run (init E) acts = some net) : net.Exchange E := by
  refine Machine.Reachable.start.restricted (I := fun net => net.Exchange E) (init_exchange E)
    ?_ hok hr
  intro net act net' hnet hact h hs
  cases act with
  | worker act =>
    obtain ⟨w, hw, hif⟩ := Option.bind_eq_some_iff.mp hs
    have hwr := worker_reachable hnet
    have hk := Worker.kept_reachable hwr
    have hk' := Worker.kept_reachable (hwr.next act hw)
    split at hif
    · rename_i hd
      cases hif
      exact h.worker hU hk' ((Worker.step_move hk.single hw).history hk) hd
    · cases hif
  | reply c conn bytes =>
    obtain ⟨command, hnext, rfl⟩ := Option.map_eq_some_iff.mp hs
    exact h.reply hnext (hact c conn bytes rfl)

/-! ## 3. The replies to a client's commands -/

/-- **The frame that answers the command at a place is Redis's reply to it.** The command stands in
    the stream of the connection at the place the ledger has it at, Redis takes it there, and its
    reply is the frame parsed at that place. -/
theorem reply_of_place (hU : UnpackOneSpec E.unpackOne) (hsize : E.blockSize < 2 ^ 32)
    (hw : (Worker.machine E).Reachable net.worker) (hx : net.Exchange E)
    {s : ClientSession E.config.channels} (hp : s.Placed E net.worker.pool)
    {frame out : Bytes} {slot : Slot E.config.channels}
    (hv : Verdict.forwarded frame (some slot) ∈ s.verdicts)
    (hr : Worker.Relayed net.worker.pool slot out) :
    ∃ j : Nat, (commandsOn slot.conn (net.worker.pool slot.channel).trace)[j]? =
        some slot.command ∧
      (net.answered slot.channel slot.conn)[j]? = some (frame, out) := by
  obtain ⟨conn, j, hcommand, hparsed⟩ := hr
  have hch := (Worker.kept_reachable hw).channels slot.channel
  have hf := Worker.framed_reachable hU hsize hw slot.channel
  have hsrc := BackendChannel.sourced_reachable hch
  have hids : Submissions (net.worker.pool slot.channel).trace :=
    (BackendChannel.ledger_reachable hch).1.ids
  -- the reply at the place
  have hreply : (net.replies slot.channel conn)[j]? = some out :=
    getElem?_mono (BackendChannel.parsed_in_order hU hch (hx.proper slot.channel)
      (hx.received slot.channel) conn) hparsed
  rw [replies, List.getElem?_map] at hreply
  obtain ⟨⟨command, out'⟩, hanswered, rfl⟩ := Option.map_eq_some_iff.mp hreply
  -- the command Redis found there
  have harrived : (net.arrived E slot.channel conn)[j]? = some command := by
    refine getElem?_mono (hx.commands slot.channel conn) ?_
    rw [List.getElem?_map, hanswered]
    rfl
  have hrequest : (requestsOn E.firstFrame conn (net.worker.pool slot.channel).trace)[j]? =
      some command :=
    getElem?_mono (arrived_in_order (Env.incremental_firstFrame hU)
      (Env.advances_firstFrame hU) hsrc (BackendChannel.streaming_reachable hch) hf conn) harrived
  obtain ⟨bytes, count, htaken, hplace⟩ := (request_of_command (p := E.firstFrame)
    fun id o bytes count hm => (hf conn id o bytes count (hsrc.taken hm)).2).2 hcommand
  -- it is the session's: one batch has that number
  obtain ⟨bytes', count', hsub, hframe⟩ := hp frame slot hv
  obtain ⟨rfl, _, _, rfl, _⟩ := Event.submitted.inj
    (submitted_unique hids (hsrc.taken htaken) hsub)
  have hsame : some command = some frame := hrequest.symm.trans (hplace.trans hframe)
  cases hsame
  exact ⟨j, hcommand, hanswered⟩

/-- **A client is given Redis's replies to its own commands, in the order of its commands.** On
    every run of a worker with any number of sessions, channels that fail and reconnect, and peers
    that reply once to every command in the order of arrival, every session keeps this:
    what its socket was given is a front part of its outputs; its verdicts are those of the first
    commands of its input, and its buffer holds what follows them; the i-th output is Redis's reply
    to the i-th command, taken at the very place the command was written to, or the error the
    command was rejected with, or, after the last command, the error the stream ended with. A
    stream that came to its end has no final error if nothing follows its commands, and else, as
    it broke off inside a command, the protocol error; before its end it is the protocol error if
    what follows is no command, and the other error only if in this run an arena could not grow.
    So without such a failure there is no final error exactly when the stream ended behind a
    command, and a protocol error exactly when it ended elsewhere or has no command in front.
    If the session finished and was not aborted, there is an output for every command and for the
    final error, and the client has them all. -/
theorem clients_answered (hU : UnpackOneSpec E.unpackOne) (hsize : E.blockSize < 2 ^ 32)
    {acts : List (NetAct E.config.channels)}
    (hok : ∀ act ∈ acts, NetAct.Proper E act)
    (hr : (machine E).run (init E) acts = some net) {a : Owner}
    {s : ClientSession E.config.channels} (hs : net.worker.sessions a = some s) :
    s.handed <+: s.outputs.flatten ∧
    s.verdicts.map Verdict.judgement <+: (E.reference s.input).judgements ∧
    s.input = ((s.verdicts.map Verdict.judgement).map Judgement.frame).flatten ++
      s.clientIn.content ∧
    (∀ (i : Nat) (out : Bytes), s.outputs[i]? = some out →
      (∃ (frame : Bytes) (slot : Slot E.config.channels) (j : Nat),
        s.verdicts[i]? = some (.forwarded frame (some slot)) ∧
        (commandsOn slot.conn (net.worker.pool slot.channel).trace)[j]? = some slot.command ∧
        (net.answered slot.channel slot.conn)[j]? = some (frame, out)) ∨
      (∃ (frame : Bytes) (message : String),
        s.verdicts[i]? = some (.rejected frame message) ∧ out = E.packError message) ∨
      (i = s.verdicts.length ∧ s.outputs.length = i + 1 ∧
        ∃ e, s.ending = some e ∧ e ≠ "" ∧ out = E.packError e)) ∧
    (∀ e, s.ending = some e →
      (s.eof = true ∧ e = (if s.clientIn.content = [] then "" else protocolError) ∧
        (E.config.maxPipelineCommandsPerRead ≠ 0 →
          ∀ info k, E.firstFrame s.clientIn.content ≠ .done info k)) ∨
      (s.eof = false ∧ e = protocolError ∧ E.firstFrame s.clientIn.content = .bad) ∨
      (s.eof = false ∧ e = outOfMemoryError ∧ ∃ act ∈ acts, ¬ act.Granting)) ∧
    ((∀ act ∈ acts, act.Granting) → ∀ e, s.ending = some e →
      (e = "" ↔ s.eof = true ∧ s.clientIn.content = []) ∧
      (e = protocolError ↔ s.eof = true ∧ s.clientIn.content ≠ [] ∨
        s.eof = false ∧ E.firstFrame s.clientIn.content = .bad)) ∧
    (s.finishCalls = 1 → s.state ≠ .kAborted →
      s.handed = s.outputs.flatten ∧ s.verdicts.length ≤ s.outputs.length ∧
      ∃ e, s.ending = some e ∧
        s.outputs.drop s.verdicts.length = if e = "" then [] else [E.packError e]) := by
  have hw := worker_reachable (Machine.reachable_of_run hr)
  have hx := exchange_of_run hU hok hr
  have hk := Worker.kept_reachable hw
  have h := answering_of_run hU hsize hr hs
  refine ⟨?_, h.parsing.judged, h.parsing.split, fun i out hout => ?_, fun e he => ?_,
    fun hgrants e he => (h.ends e he).2.exactly hgrants, fun hfin hne => ?_⟩
  · exact (List.prefix_append _ _).trans h.outgoing.front
  · refine (h.answers.output_cases hout).imp_left ?_
    rintro ⟨frame, slot, hv, hgives⟩
    obtain ⟨j, hcommand, hanswered⟩ :=
      reply_of_place hU hsize hw hx h.placed (List.mem_of_getElem? hv) hgives
    exact ⟨frame, slot, j, hv, hcommand, hanswered⟩
  · rcases (h.ends e he).2.cases with hend | hbad | ⟨heof, herror, hfailed⟩
    · exact Or.inl hend
    · exact Or.inr (Or.inl hbad)
    · refine Or.inr (Or.inr ⟨heof, herror, ?_⟩)
      by_contra hnone
      exact hfailed fun act hact => Classical.byContradiction fun hg => hnone ⟨act, hact, hg⟩
  · exact h.answers.finished h.outgoing (hk.orderly a s hs) (hk.tallied a s hs) hfin hne

end Reachable

/-- What the decoder takes for one value, with any limits, is one reply. -/
theorem isReply_of_decode {r : Bytes} {v : RespValue}
    (h : ∀ limits depth, Resp.decode limits (depth + 1) r = .done v r.length) :
    IsReply Resp.unpackOne r := by
  intro limits maxBytes x v' k hk
  have hr := firstValue_done.mp hk
  have hpre : (r ++ x).take maxBytes <+: r ++ x := List.take_prefix _ _
  generalize (r ++ x).take maxBytes = i at hr hpre
  unfold Resp.unpackOne at hr
  split at hr
  · rename_i w m hdone
    split at hr
    · obtain ⟨_, rfl, _⟩ := RespResult.mk.inj hr
      have hp := Resp.incremental_decode limits limits.maxDepth
      obtain ⟨y, hy⟩ := hpre
      have hall := hp.done_append hdone y
      rw [hy] at hall
      cases hdepth : limits.maxDepth with
      | zero =>
        rw [hdepth] at hall
        cases hall
      | succ depth =>
        rw [hdepth] at hall hp
        have hself := hp.done_append (h limits depth) x
        rw [hall] at hself
        exact (Progress.done.inj hself).2
    · cases hr
  · cases hr
  · cases hr

def hi : Bytes := ascii "+HI\r\n"

/-- Sessions 7 and 8 send a command each on one connection, 8 a second one that is rejected. -/
def twoRequests : List (WorkerAct 2) :=
  Worker.connecting ++ [.accept 7, .accept 8,
    .reader 7 Worker.parsing, .reader 7 (.read (.data Worker.ping)), .reader 7 Worker.parsing,
    .reader 8 Worker.parsing, .reader 8 (.read (.data (Worker.ping ++ Worker.get))),
    .reader 8 Worker.parsing] ++ Worker.writing 14 ++ Worker.writing 14

/-- The replies are cut by the reads; 8 is given its own reply, and its error after that. -/
def twoReplies : List (WorkerAct 2) :=
  Worker.receiving (Worker.pong ++ hi.take 2) ++ [.callback Worker.channel0,
    .read Worker.channel0 0 (.parse fun _ => true)] ++
  Worker.receiving (hi.drop 2) ++ [.callback Worker.channel0,
    .reader 8 .none, .writer 8 .none, .writer 8 (.write (some (.wrote 9)))]

/-- Client 7 has nothing more to say; client 8 breaks off inside a command. -/
def twoEndings : List (WorkerAct 2) :=
  [.reader 7 (.read .closed), .reader 7 .none, .writer 7 .none,
    .writer 7 (.write (some (.wrote 7))), .writer 7 (.write none), .writer 7 .none,
    .writer 7 .none,
    .reader 8 Worker.parsing, .reader 8 (.read (.data (Worker.ping.take 3))),
    .reader 8 Worker.parsing, .reader 8 (.read .closed), .reader 8 .none,
    .writer 8 (.write (some (.wrote 33))), .writer 8 (.write none), .writer 8 .none,
    .writer 8 (.write (some (.wrote 27))), .writer 8 (.write none), .writer 8 .none,
    .writer 8 .none]

/-- The two exchanges, with what Redis does between them, and the ends of the two streams. -/
def twoClients : List (NetAct 2) :=
  twoRequests.map .worker ++
  [.reply Worker.channel0 1 Worker.pong, .reply Worker.channel0 1 hi] ++
  twoReplies.map .worker ++ twoEndings.map .worker

/-- How a session ended: whether it finished, where in its stream, and with which verdicts. -/
structure Ending where
  finishCalls : Nat
  state : SessionState
  eof : Bool
  rest : Bytes
  verdicts : List Judgement
  deriving DecidableEq

def endingOf (s : ClientSession n) : Ending :=
  ⟨s.finishCalls, s.state, s.eof, s.clientIn.content, s.verdicts.map Verdict.judgement⟩

theorem twoClients_proper : ∀ act ∈ twoClients, NetAct.Proper Worker.pingEnv act := by
  have hpong : IsReply Resp.unpackOne Worker.pong := isReply_of_decode fun _ _ => rfl
  have hhi : IsReply Resp.unpackOne hi := isReply_of_decode fun _ _ => rfl
  intro act hact c conn bytes hreply
  subst hreply
  simp only [twoClients, List.mem_append, List.mem_map, reduceCtorEq, and_false, exists_false,
    false_or, or_false, List.mem_cons, List.not_mem_nil] at hact
  rcases hact with heq | heq <;> cases heq
  · exact hpong
  · exact hhi

/-- Where the run leads: both sessions have finished, one behind its only command, one inside its
    third. -/
theorem twoClients_run : ∃ net s' s,
    (machine Worker.pingEnv).run (init Worker.pingEnv) twoClients = some net ∧
      net.worker.sessions 7 = some s' ∧
      endingOf s' = ⟨1, .kDraining, true, [], [.forwarded Worker.ping]⟩ ∧
      net.worker.sessions 8 = some s ∧
      endingOf s = ⟨1, .kDraining, true, Worker.ping.take 3, [.forwarded Worker.ping,
        .rejected Worker.get "ERR proxy rejected unknown command"]⟩ ∧
      s.outputs[0]? = some hi := by
  have hrun : ((machine Worker.pingEnv).run (init Worker.pingEnv) twoClients).map (fun net =>
      ((net.worker.sessions 7).map endingOf, (net.worker.sessions 8).map endingOf,
        (net.worker.sessions 8).map (·.outputs[0]?))) =
        some (some ⟨1, .kDraining, true, [], [.forwarded Worker.ping]⟩,
          some ⟨1, .kDraining, true, Worker.ping.take 3, [.forwarded Worker.ping,
            .rejected Worker.get "ERR proxy rejected unknown command"]⟩, some (some hi)) := by
    decide +kernel
  obtain ⟨net, hnet, hval⟩ := Option.map_eq_some_iff.mp hrun
  obtain ⟨h7, hval⟩ := Prod.mk.inj hval
  obtain ⟨h8, hout⟩ := Prod.mk.inj hval
  obtain ⟨s', hs', h7⟩ := Option.map_eq_some_iff.mp h7
  obtain ⟨s, hs, h8⟩ := Option.map_eq_some_iff.mp h8
  rw [hs] at hout
  exact ⟨net, s', s, hnet, hs', h7, hs, h8, Option.some.inj hout⟩

theorem clients_answered_twoClients :
    ∃ net s s', (machine Worker.pingEnv).run (init Worker.pingEnv) twoClients = some net ∧
      net.worker.sessions 7 = some s' ∧ s'.outputs.drop 1 = [] ∧
      net.worker.sessions 8 = some s ∧ s.outputs[0]? = some hi ∧
      (∃ (slot : Slot Worker.pingEnv.config.channels) (j : Nat),
        s.verdicts[0]? = some (.forwarded Worker.ping (some slot)) ∧
        (net.answered slot.channel slot.conn)[j]? = some (Worker.ping, hi)) ∧
      s.outputs.drop 2 = [Resp.packError protocolError] ∧ s.handed = s.outputs.flatten := by
  obtain ⟨net, s', s, hnet, hs', h7, hs, h8, hout⟩ := twoClients_run
  simp only [endingOf, Ending.mk.injEq] at h7 h8
  obtain ⟨hfin', hstate', heof', hrest', hverdicts'⟩ := h7
  obtain ⟨hfin, hstate, heof, hrest, hverdicts⟩ := h8
  obtain ⟨_, _, _, hall, hending, _, hdone⟩ :=
    clients_answered (E := Worker.pingEnv) Resp.unpackOne_spec (by decide) twoClients_proper hnet hs
  obtain ⟨_, _, _, _, hending', _, hdone'⟩ :=
    clients_answered (E := Worker.pingEnv) Resp.unpackOne_spec (by decide) twoClients_proper hnet
      hs'
  obtain ⟨hhanded, _, e, he, hdrop⟩ := hdone hfin (by rw [hstate]; decide)
  obtain ⟨_, _, e', he', hdrop'⟩ := hdone' hfin' (by rw [hstate']; decide)
  have hlen : s.verdicts.length = 2 := by
    rw [← List.length_map (f := Verdict.judgement), hverdicts]
    rfl
  have hlen' : s'.verdicts.length = 1 := by
    rw [← List.length_map (f := Verdict.judgement), hverdicts']
    rfl
  have herror : e = protocolError := by
    rcases hending e he with ⟨_, herror, _⟩ | ⟨hno, _⟩ | ⟨hno, _⟩
    · rw [herror, hrest, if_neg (by decide)]
    all_goals
      rw [heof] at hno
      cases hno
  have herror' : e' = "" := by
    rcases hending' e' he' with ⟨_, herror, _⟩ | ⟨hno, _⟩ | ⟨hno, _⟩
    · rw [herror, hrest', if_pos rfl]
    all_goals
      rw [heof'] at hno
      cases hno
  refine ⟨net, s, s', hnet, hs', ?_, hs, hout, ?_, ?_, hhanded⟩
  · rw [← hlen', hdrop', if_pos herror']
  · have hfirst : (s.verdicts[0]?).map Verdict.judgement = some (.forwarded Worker.ping) := by
      rw [← List.getElem?_map, hverdicts]
      rfl
    rcases hall 0 hi hout with ⟨frame, slot, j, hv, _, hanswered⟩ | ⟨frame, m, hv, _⟩ | ⟨h0, _⟩
    · rw [hv] at hfirst
      cases hfirst
      exact ⟨slot, j, hv, hanswered⟩
    · rw [hv] at hfirst
      cases hfirst
    · omega
  · rw [← hlen, hdrop, herror, if_neg (by decide)]
    rfl

end Net

end RedisProxy
