/-
  File:      RedisProxy/Worker/Wire.lean
  Subject:   WHAT GOES OVER THE WIRES OF A WORKER, whatever its clients and Redis send: to Redis
             only commands that `CommandRules` let through, to a client only whole RESP values.

  A batch is checked when a session takes it off its buffer; between that moment and the socket it
  is copied, queued, cut into `writev` calls and perhaps left half written. `Vetted` follows the
  batches from the parsing loop to the connections (section 1), and `redis_sees_accepted` says what
  the other end of a connection can find in what it was sent (section 2).

  The way back has no such check of its own: a reply is forwarded because `nextReplyFrame` took it
  for one value. `Splits` says that of every reply a channel has parsed, with the limits the worker
  starts its channels with (section 3); with the texts of the proxy's own errors this gives
  `clients_read_values` (section 4).
-/
import RedisProxy.Worker.Peers
import RedisProxy.Channel.Shutdown

namespace RedisProxy

open Lib

/-! ## 1. What the sessions submit -/

/-- A sequence of whole commands, all of which the rules let through. -/
def Env.Vetted (E : Env) (bytes : Bytes) : Prop :=
  ∃ gs, Chain E.firstFrame bytes gs [] ∧ ∀ g ∈ gs, E.accepts g.1 = true

theorem BackendChannel.submitted_submit {ch : BackendChannel} {o o' : Owner} {chain : BufferChain}
    {count count' k id : Nat} {bytes : Bytes}
    (h : .submitted k id o' bytes count' ∈ (ch.submit o chain count).2.trace) :
    .submitted k id o' bytes count' ∈ ch.trace ∨ bytes = chain.bytes := by
  unfold BackendChannel.submit at h
  split at h
  · exact Or.inl h
  · rcases List.mem_cons.mp h with he | h
    · cases he
      exact Or.inr rfl
    · exact Or.inl h

namespace ClientSession

variable {n : Nat} {E : Env} {grants : Prop} {a : Owner} {s : ClientSession n}
  {p p' : BackendPool n}

/-- Every batch that `p'` has and `p` has not is vetted. -/
def Vets (E : Env) (p p' : BackendPool n) : Prop :=
  ∀ c k id o bytes count, .submitted k id o bytes count ∈ (p' c).trace →
    .submitted k id o bytes count ∈ (p c).trace ∨ E.Vetted bytes

theorem vets_of_unposted (h : Unposted p p') : Vets E p p' :=
  fun c k id o bytes count hm => Or.inl (h c k id o bytes count hm)

theorem Vets.after {p₁ : BackendPool n} (h : Unposted p p₁) (h' : Vets E p₁ p') : Vets E p p' :=
  fun c k id o bytes count hm =>
    (h' c k id o bytes count hm).imp_left (h c k id o bytes count)

/-- A change of one channel. -/
theorem vets_update {c₁ : Fin n} {ch : BackendChannel}
    (h : ∀ k id o bytes count, .submitted k id o bytes count ∈ ch.trace →
      .submitted k id o bytes count ∈ (p c₁).trace ∨ E.Vetted bytes) :
    Vets E p (Function.update p c₁ ch) := by
  intro c k id o bytes count hm
  by_cases hc : c = c₁
  · subst hc
    rw [Function.update_self] at hm
    exact h k id o bytes count hm
  · rw [Function.update_of_ne hc] at hm
    exact Or.inl hm

theorem vets_finishLoop (s : ClientSession n) : Vets E p (s.finishLoop a p).2.1 := by
  unfold ClientSession.finishLoop
  split
  · exact vets_of_unposted (unposted_refl p)
  · exact vets_of_unposted (unposted_detachOwner p a)

/-- The batch of a round is what the parsing loop accepted. -/
theorem vets_submitRound (hU : UnpackOneSpec E.unpackOne) {alloc : Nat → Nat → Bool} {r : Round}
    {gs : List (RespFrameInfo × Bytes)} (ht : Taking E alloc s r gs) (a : Owner)
    (p : BackendPool n) : Vets E p (s.submitRound a p r).2.2 := by
  have hcontent : r.input.content = s.clientIn.content := ht.read.content
  have hchain : Chain E.firstFrame s.clientIn.content gs (s.clientIn.content.drop r.consumed) :=
    ht.read.chain
  have hvetted : E.Vetted (r.input.slicePrefix r.consumed).bytes := by
    refine ⟨gs, ?_, ht.read.accepted⟩
    rw [Buffer.bytes_slicePrefix, hcontent, ht.bytes]
    exact hchain.alone (Env.incremental_firstFrame hU)
  unfold ClientSession.submitRound
  split
  · rcases submitBatch_cases { s with parser := r.parser, clientIn := r.input.sliced r.consumed } a
      p (r.input.slicePrefix r.consumed) (r.parsed % 2 ^ 32) r.frames with
      ⟨_, he⟩ | ⟨_, he⟩ | ⟨c₁, _, _, he⟩ <;> rw [he]
    · exact vets_of_unposted (unposted_refl p)
    · exact vets_of_unposted (unposted_abort _ a p)
    · refine vets_update fun k id o bytes count hm => ?_
      rcases BackendChannel.submitted_submit hm with hm | rfl
      · exact Or.inl hm
      · exact Or.inr hvetted
  · exact vets_of_unposted (unposted_refl p)

theorem vets_readerRead {o : ReadOutcome} {x : ClientSession n × BackendPool n}
    (hx : s.readerRead a p o = some x) : Vets E p x.2 := by
  obtain ⟨⟨st, b⟩, _, rfl⟩ := Option.map_eq_some_iff.mp hx
  cases st with
  | none => exact vets_of_unposted (unposted_refl p)
  | some st =>
    dsimp only
    repeat' split
    · exact vets_of_unposted (unposted_refl p)
    · exact vets_of_unposted (unposted_refl p)
    · exact vets_of_unposted (unposted_refl p)
    · exact vets_of_unposted (unposted_abort _ a p)

/-- **A step of a session submits nothing, or commands that were let through.** -/
theorem vets_readerStep (hp : s.Parsing E grants) (hU : UnpackOneSpec E.unpackOne)
    {io : SessionReaderIo} {x : ClientSession n × BackendPool n × Bool}
    (hx : s.readerStep E a p io = some x) : Vets E p x.2.1 := by
  unfold ClientSession.readerStep at hx
  split at hx
  · obtain ⟨y, hy, rfl⟩ := Option.map_eq_some_iff.mp hx
    unfold ClientSession.readerTop at hy
    split at hy
    · cases hy
      exact vets_of_unposted (unposted_refl p)
    · obtain ⟨r, hr, rfl⟩ := Option.map_eq_some_iff.mp hy
      obtain ⟨gs, ht⟩ := hp.round hU hr
      have hsub := vets_submitRound hU ht a p
      dsimp only
      split
      · exact hsub
      · exact hsub
  · cases hx
    exact vets_of_unposted (unposted_refl p)
  · obtain ⟨sig, _, rfl⟩ := Option.map_eq_some_iff.mp hx
    exact vets_of_unposted (unposted_refl p)
  · cases hx
    exact vets_of_unposted (unposted_refl p)
  · obtain ⟨y, hy, rfl⟩ := Option.map_eq_some_iff.mp hx
    exact vets_readerRead hy
  · cases hx
    exact vets_finishLoop _
  · cases hx

theorem vets_writerStep {io : SessionWriterIo} {x : ClientSession n × BackendPool n × Bool}
    (hx : s.writerStep E a p io = some x) : Vets E p x.2.1 := by
  unfold ClientSession.writerStep at hx
  split at hx
  · cases hx
    exact vets_of_unposted (unposted_refl p)
  · obtain ⟨sig, _, rfl⟩ := Option.map_eq_some_iff.mp hx
    exact vets_of_unposted (unposted_refl p)
  · obtain ⟨y, hy, rfl⟩ := Option.map_eq_some_iff.mp hx
    obtain ⟨r, _, rfl⟩ := Option.map_eq_some_iff.mp hy
    cases r with
    | running c' => exact vets_of_unposted (unposted_refl p)
    | returned st =>
      dsimp only
      split
      · exact vets_of_unposted (unposted_refl p)
      · exact vets_of_unposted (unposted_abort _ a p)
  · cases hx
    exact vets_finishLoop _
  · cases hx

end ClientSession

/-! ## 2. What arrives at Redis -/

/-- **A command that was let through**: one whole frame, with what the rules say of it. -/
structure Env.Passed (E : Env) (f : Bytes) (info : RespFrameInfo) (rule : CommandRule) : Prop where
  frame : E.firstFrame f = .done info f.length
  known : E.rules.rules (CommandRules.normalize info.commandName) = some rule
  allowed : rule.allowed = true
  harmless : rule.dangerous = false
  enough : rule.minArgc.toNat ≤ info.argc
  most : info.argc ≤ rule.maxArgc.toNat

theorem Env.passed_of_accepts {E : Env} {f : Bytes} {info : RespFrameInfo}
    (hframe : E.firstFrame f = .done info f.length) (h : E.accepts info = true) :
    ∃ rule, E.Passed f info rule := by
  cases hrule : E.rules.rules (CommandRules.normalize info.commandName) with
  | none =>
    simp only [Env.accepts, CommandRules.validate, hrule] at h
    cases h
  | some rule =>
    obtain ⟨hallowed, hharmless, hmin, hmax⟩ := (CommandRules.ok_of_rule hrule info.argc).mp h
    exact ⟨rule, hframe, hrule, hallowed, hharmless, hmin, hmax⟩

/-- What the default table lets through has an entry of its own there, and no spelling of a denied
    name is let through. -/
theorem Env.Passed.of_default {E : Env} {f : Bytes} {info : RespFrameInfo} {rule : CommandRule}
    (h : E.Passed f info rule) (hrules : E.rules = .default) :
    (∃ e ∈ CommandRules.allowedCommands,
      CommandRules.SameName (ascii e.1) info.commandName ∧ e.2.1.toNat ≤ info.argc ∧
        info.argc ≤ e.2.2.1.toNat) ∧
    ∀ d ∈ CommandRules.deniedCommands, ¬ CommandRules.SameName (ascii d) info.commandName := by
  have hknown := h.known
  rw [hrules, CommandRules.default_eq] at hknown
  -- the rule is that of the last registration for the name
  have hlast : ∀ {g}, CommandRules.LastFor CommandRules.defaultRegistrations info.commandName g →
      g.rule = rule := by
    intro g hg
    rw [CommandRules.rules_of_last hg] at hknown
    exact Option.some.inj hknown
  constructor
  · rcases CommandRules.last_or_unregistered CommandRules.defaultRegistrations info.commandName with
      ⟨g, hg⟩ | hnone
    · have hrule := hlast hg
      obtain ⟨_, _, _, hsame, _⟩ := id hg
      rcases List.mem_append.mp hg.mem with hmem | hmem
      · obtain ⟨e, he, rfl⟩ := List.mem_map.mp hmem
        refine ⟨e, he, hsame, ?_, ?_⟩
        · exact (congrArg (fun r => r.minArgc.toNat) hrule).trans_le h.enough
        · exact h.most.trans_eq (congrArg (fun r => r.maxArgc.toNat) hrule).symm
      · obtain ⟨d, _, rfl⟩ := List.mem_map.mp hmem
        have hallowed := h.allowed
        rw [← hrule] at hallowed
        cases hallowed
    · have hempty := CommandRules.rules_of_unregistered hnone CommandRules.empty
      rw [CommandRules.ofRegistrations, hempty] at hknown
      cases hknown
  · intro d hd hsame
    obtain ⟨g, hg, hdenied⟩ := CommandRules.denied_last hd hsame
    rw [hlast hg, h.allowed] at hdenied
    cases hdenied

namespace Worker

section Redis

variable {E : Env}

/-- A step of the worker submits nothing, or commands that were let through. -/
theorem Move.vets {n : Nat} {w w' : Worker n} {act : WorkerAct n} (hm : w.Move E act w')
    (hU : UnpackOneSpec E.unpackOne) (hk : w.Kept E)
    (hp : ∀ a s, w.sessions a = some s → s.Parsing E False) :
    ClientSession.Vets E w.pool w'.pool := by
  cases hm with
  | channel c ch' step alone =>
    exact ClientSession.vets_update fun k id o bytes count h =>
      Or.inl ((step.steps (hk.life c)).submitted_old h)
  | session a s x idle live step =>
    rcases step with ⟨io, _, hx⟩ | ⟨io, _, hx⟩
    · exact ClientSession.vets_readerStep (hp a s live) hU hx
    · exact ClientSession.vets_writerStep hx
  | replied c a reply fs s frames live =>
    exact ClientSession.vets_update fun k id o bytes count h => Or.inl h
  | told c a fs s frames live alone =>
    exact .after (ClientSession.unposted_abort s a w.pool)
      (ClientSession.vets_update fun k id o bytes count h => Or.inl h)
  | accept a idle free => exact ClientSession.vets_of_unposted (ClientSession.unposted_refl _)
  | reap idle => exact ClientSession.vets_of_unposted (ClientSession.unposted_refl _)

variable {w : Worker E.config.channels}

theorem vetted_reachable (hU : UnpackOneSpec E.unpackOne) (h : (machine E).Reachable w)
    {c : Fin E.config.channels} {k id count : Nat} {o : Owner} {bytes : Bytes}
    (hm : .submitted k id o bytes count ∈ (w.pool c).trace) : E.Vetted bytes := by
  have key : ∀ c k id o bytes count,
      .submitted k id o bytes count ∈ (w.pool c).trace → E.Vetted bytes := by
    refine h.invariant (I := fun w => ∀ c k id o bytes count,
      .submitted k id o bytes count ∈ (w.pool c).trace → E.Vetted bytes) ?_ ?_
    · intro c k id o bytes count hmem
      cases hmem
    · intro w act w' hw hI hs c k id o bytes count hmem
      have hk := kept_reachable hw
      have hp := (parsing_inherited hU False).reachable (fun _ hf => hf.elim) hw
      rcases (step_move hk.single hs).vets hU hk hp c k id o bytes count hmem with hold | hnew
      · exact hI c k id o bytes count hold
      · exact hnew
  exact key c k id o bytes count hm

/-- A command of a started batch was let through. -/
theorem passed_of_request (hU : UnpackOneSpec E.unpackOne) (h : (machine E).Reachable w)
    {c : Fin E.config.channels} {conn : Nat} {f : Bytes}
    (hf : f ∈ requestsOn E.firstFrame conn (w.pool c).trace) :
    ∃ info rule, E.Passed f info rule := by
  have hp := Env.incremental_firstFrame hU
  have hsourced := BackendChannel.sourced_reachable ((kept_reachable h).channels c)
  obtain ⟨e, he, hf⟩ := mem_collect.mp hf
  cases e with
  | taken m id o bytes count =>
    simp only [Event.requests] at hf
    split at hf
    · obtain ⟨gs, hchain, hacc⟩ := vetted_reachable hU h (hsourced.taken he)
      rw [hchain.framesOf_eq hp (Env.advances_firstFrame hU)] at hf
      obtain ⟨g, hg, rfl⟩ := List.mem_map.mp hf
      exact ⟨g.1, Env.passed_of_accepts (hchain.each hp g hg) (hacc g hg)⟩
    · cases hf
  | _ => cases hf

/-- **Redis sees only commands that were let through.** Whatever the clients send and however the
    worker's tasks interleave: the commands found in what was written to a connection are whole
    frames that the rules allow, with as many arguments as they allow; what follows them is a
    proper front part of another one. With the default table each of them is one of its allowed
    commands, and none is a denied one in any spelling. -/
theorem redis_sees_accepted (hU : UnpackOneSpec E.unpackOne) (h : (machine E).Reachable w)
    (c : Fin E.config.channels) (conn : Nat) :
    (∀ f ∈ arrivedOn E.firstFrame conn (w.pool c).trace, ∃ info rule, E.Passed f info rule) ∧
    (∃ rest, writtenOn conn (w.pool c).trace =
        (arrivedOn E.firstFrame conn (w.pool c).trace).flatten ++ rest ∧
      (rest = [] ∨ ∃ f info rule, E.Passed f info rule ∧ rest <+: f ∧ rest ≠ f)) ∧
    (E.rules = .default → ∀ f ∈ arrivedOn E.firstFrame conn (w.pool c).trace,
      ∃ info, E.firstFrame f = .done info f.length ∧
        (∃ e ∈ CommandRules.allowedCommands,
          CommandRules.SameName (ascii e.1) info.commandName ∧ e.2.1.toNat ≤ info.argc ∧
            info.argc ≤ e.2.2.1.toNat) ∧
        ∀ d ∈ CommandRules.deniedCommands,
          ¬ CommandRules.SameName (ascii d) info.commandName) := by
  have hp := Env.incremental_firstFrame hU
  have ha : Advances E.firstFrame := Env.advances_firstFrame hU
  have hreach := (kept_reachable h).channels c
  have hsourced := BackendChannel.sourced_reachable hreach
  have hpassed : ∀ f ∈ requestsOn E.firstFrame conn (w.pool c).trace,
      ∃ info rule, E.Passed f info rule := fun f hf => passed_of_request hU h hf
  -- what was started is a sequence of commands, and what was written is a front part of it
  obtain ⟨⟨gs, hchain⟩, hframes⟩ := framesOf_started hp ha (n := conn) (t := (w.pool c).trace)
    fun id o bytes count hm =>
      have ⟨gs, hc, _⟩ := vetted_reachable hU h (hsourced.taken hm)
      ⟨gs, hc⟩
  have hwritten : writtenOn conn (w.pool c).trace <+:
      (requestsOn E.firstFrame conn (w.pool c).trace).flatten := by
    have hw := (BackendChannel.streaming_reachable hreach).written conn
    rw [← hframes, hchain.framesOf_eq hp ha]
    have hall := hchain.flatten
    rw [List.append_nil] at hall
    rw [← hall]
    exact hw
  obtain ⟨k, rest, hfound, hsplit, hrest⟩ := framesOf_front hp ha (fun f hf =>
    have ⟨info, _, hf⟩ := hpassed f hf
    ⟨info, hf.frame⟩) hwritten
  have harrived : ∀ f ∈ arrivedOn E.firstFrame conn (w.pool c).trace,
      ∃ info rule, E.Passed f info rule := by
    intro f hf
    rw [arrivedOn, hfound] at hf
    exact hpassed f (List.mem_of_mem_take hf)
  refine ⟨harrived, ⟨rest, ?_, hrest.imp_right ?_⟩, fun hrules f hf => ?_⟩
  · rw [arrivedOn, hfound]
    exact hsplit
  · rintro ⟨f, hf, hfront, hne⟩
    obtain ⟨info, rule, hf⟩ := hpassed f (List.mem_of_getElem? hf)
    exact ⟨f, info, rule, hf, hfront, hne⟩
  · obtain ⟨info, rule, hf⟩ := harrived f hf
    exact ⟨info, hf.frame, hf.of_default hrules⟩

end Redis

/-- `pingEnv` with the default table. -/
def tableEnv : Env := { pingEnv with rules := .default }

/-- Session 7 sends two commands, of which 20 bytes are written, and then `flushall`. -/
def flushRefused : List (WorkerAct 2) :=
  connecting ++ [.accept 7,
    .reader 7 parsing, .reader 7 (.read (.data (ping ++ ping))), .reader 7 parsing,
    .run channel0 0 .none, .run channel0 0 (.write (some (.wrote 20))),
    .reader 7 (.read (.data (ascii "*1\r\n$8\r\nflushall\r\n"))), .reader 7 parsing]

theorem redis_sees_accepted_flushRefused :
    ∃ w info, (machine tableEnv).run (init tableEnv) flushRefused = some w ∧
      arrivedOn tableEnv.firstFrame 1 (w.pool channel0).trace = [ping] ∧
      writtenOn 1 (w.pool channel0).trace = ping ++ ping.take 6 ∧
      tableEnv.firstFrame ping = .done info ping.length ∧
      ∀ d ∈ CommandRules.deniedCommands,
        ¬ CommandRules.SameName (ascii d) info.commandName := by
  have hrun : ((machine tableEnv).run (init tableEnv) flushRefused).map (fun w =>
      (arrivedOn tableEnv.firstFrame 1 (w.pool channel0).trace,
        writtenOn 1 (w.pool channel0).trace)) = some ([ping], ping ++ ping.take 6) := by
    decide +kernel
  obtain ⟨w, hw, hval⟩ := Option.map_eq_some_iff.mp hrun
  obtain ⟨harrived, hwritten⟩ := Prod.mk.inj hval
  obtain ⟨_, _, hdefault⟩ := redis_sees_accepted (E := tableEnv) Resp.unpackOne_spec
    (Machine.reachable_of_run hw) channel0 1
  obtain ⟨info, hframe, _, hdenied⟩ := hdefault rfl ping (by
    rw [harrived]
    exact List.mem_singleton.mpr rfl)
  exact ⟨w, info, hw, harrived, hwritten, hframe, hdenied⟩

end Worker

/-! ## 3. What a channel makes of what it receives -/

/-- The first value, with the limits a worker gives the parsers of its channels. -/
def Env.firstReply (E : Env) : Reader UInt8 RespValue :=
  firstValue E.unpackOne E.limits RespParser.sizeMax

namespace BackendChannel

/-- **Every reply that was parsed is one value.** The limits are those of the last `start()`. -/
structure Splits (E : Env) (ch : BackendChannel) : Prop where
  limits : ch.state ≠ .kStopped →
    ch.replyParser.limits = E.limits ∧ ch.replyParser.maxFrameBytes = RespParser.sizeMax
  values : ∀ n, ∀ f ∈ parsedOn n ch.trace, ∃ v, E.firstReply f = .done v f.length

section Splits

variable {E : Env} {ch ch' : BackendChannel}

theorem init_splits (E : Env) : (init E.blockSize E.blockSize_pos).Splits E where
  limits h := absurd rfl h
  values n f hf := by cases hf

theorem Splits.start (h : ch.Splits E) : (ch.start E.config).Splits E := by
  unfold BackendChannel.start
  split
  · exact h
  · refine ⟨fun _ => ⟨rfl, rfl⟩, fun n f hf => ?_⟩
    exact h.values n f (by simpa [Event.parsed] using hf)

/-- A step that parses nothing. -/
theorem Splits.mute (h : ch.Splits E) (hm : ch.Mute ch')
    (hp : ch'.replyParser = ch.replyParser) (hs : ch'.state ≠ .kStopped → ch.state ≠ .kStopped) :
    ch'.Splits E where
  limits hne := by
    rw [hp]
    exact h.limits (hs hne)
  values n f hf := by
    rw [hm.parsedOn] at hf
    exact h.values n f hf

theorem replyParser_failConnection (ch : BackendChannel) (st : Status) :
    (ch.failConnection st).replyParser = ch.replyParser ∧
      ((ch.failConnection st).state = .kStopped ↔ ch.state = .kStopped) := by
  unfold failConnection
  split
  · exact ⟨rfl, Iff.rfl⟩
  · rename_i hready
    rw [not_not.mp hready]
    simp

theorem replyParser_dispatchReply (ch : BackendChannel) (reply : BufferChain) :
    (ch.dispatchReply reply).replyParser = ch.replyParser := by
  unfold dispatchReply
  split
  · exact (replyParser_failConnection _ _).1
  · rfl

theorem Splits.apply (h : ch.Splits E) {o : Op} (hstart : (Act.op o).isStart = false) :
    (ch.apply o).Splits E := by
  have hmute := mute_apply ch o
  cases o with
  | submit owner bytes count =>
    have hsame : (ch.submit owner bytes count).2.replyParser = ch.replyParser ∧
        (ch.submit owner bytes count).2.state = ch.state := by
      unfold submit
      split <;> exact ⟨rfl, rfl⟩
    exact h.mute hmute hsame.1 fun hne => hsame.2 ▸ hne
  | detachOwner owner => exact h.mute hmute rfl id
  | start config => cases hstart
  | stop =>
    have hfail := replyParser_failConnection { ch with
      stopRequested := true
      frames := .stopTail :: ch.frames
      trace := .stopped :: ch.trace } (.closed "backend stopped")
    exact h.mute hmute hfail.1 fun hne hs => hne (hfail.2.mpr hs)

theorem replyParser_runStep {pc : RunPc} {io : RunIo} {x : BackendChannel × Option RunPc}
    (h : ch.runStep pc io = some x) : x.1.replyParser = ch.replyParser := by
  have hwait : ∀ head wait, (ch.waitWriter head wait).1.replyParser = ch.replyParser := by
    intro head wait
    obtain ⟨s, pc, he, _⟩ := waitWriter_eq ch head wait
    rw [he]
  cases pc with
  | loopHead =>
    simp only [runStep] at h
    split at h
    · cases h
      rfl
    · split at h <;> cases h <;> rfl
  | connecting =>
    cases io <;> simp only [runStep] at h <;> try cases h
    split at h <;> cases h <;> rfl
  | writerHead =>
    cases io <;> simp only [runStep] at h <;> try cases h
    split at h
    · cases h
      rfl
    · split at h
      · cases h
        exact hwait _ _
      · cases h
        rfl
  | writerWait | joinWait =>
    cases io <;> simp only [runStep] at h <;> try cases h
    obtain ⟨s, _, rfl⟩ := Option.map_eq_some_iff.mp h
    rfl
  | writing c =>
    cases io <;> simp only [runStep] at h <;> try cases h
    obtain ⟨r, _, rfl⟩ := Option.map_eq_some_iff.mp h
    cases r with
    | running c' => rfl
    | returned st =>
      dsimp only
      split
      · rfl
      · exact (replyParser_failConnection ch st).1
  | joinHead =>
    cases io <;> simp only [runStep] at h <;> try cases h
    split at h
    · cases h
      rfl
    · cases h
      exact hwait _ _
  | cleanup =>
    cases io <;> simp only [runStep] at h <;> cases h
    rfl
  | backoff =>
    cases io <;> simp only [runStep] at h <;> cases h
    rfl

theorem readerStep_limits {U : UnpackOne} (hU : UnpackOneSpec U) {pc : ReaderPc} {io : ReaderIo}
    {x : BackendChannel × Option ReaderPc} (h : ch.readerStep U pc io = some x) :
    x.1.replyParser.limits = ch.replyParser.limits ∧
      x.1.replyParser.maxFrameBytes = ch.replyParser.maxFrameBytes := by
  cases pc with
  | head | leaving =>
    cases io <;> simp only [readerStep] at h <;> cases h
    exact ⟨rfl, rfl⟩
  | reading =>
    cases io with
    | none | parse _ => cases h
    | read o =>
      obtain ⟨⟨st, b⟩, _, rfl⟩ := Option.map_eq_some_iff.mp h
      cases st with
      | none => exact ⟨rfl, rfl⟩
      | some st =>
        dsimp only
        repeat' split
        · exact ⟨rfl, rfl⟩
        · simp only [(replyParser_failConnection _ st).1, and_self]
        · exact ⟨rfl, rfl⟩
  | parsing =>
    cases io with
    | none | read _ => cases h
    | parse alloc =>
      simp only [readerStep] at h
      split at h
      · cases h
        exact ⟨rfl, rfl⟩
      · obtain ⟨⟨ps, chain, parser, b⟩, hnext, rfl⟩ := Option.map_eq_some_iff.mp h
        obtain ⟨_, hlimits, hmax⟩ := RespParser.nextReplyFrame_split hU hnext
        dsimp only
        split
        · exact ⟨hlimits, hmax⟩
        · rw [replyParser_dispatchReply]
          exact ⟨hlimits, hmax⟩
        · rw [(replyParser_failConnection _ _).1]
          exact ⟨hlimits, hmax⟩

theorem parsedOn_dispatchReply (ch : BackendChannel) (reply : BufferChain) {n : Nat} {f : Bytes}
    (h : f ∈ parsedOn n (ch.dispatchReply reply).trace) :
    f ∈ parsedOn n ch.trace ∨ f = reply.bytes := by
  have hlast : f ∈ parsedOn n ch.trace ++ (if ch.conn = n then [reply.bytes] else []) := by
    unfold dispatchReply at h
    split at h
    · have hstray : Mute { ch with trace := .stray ch.conn reply.bytes :: ch.trace }
          { ch with trace := .stray ch.conn reply.bytes :: ch.trace } := mute_same rfl rfl
      rw [(hstray.fail _).parsedOn] at h
      exact h
    · exact h
  refine (List.mem_append.mp hlast).imp_right fun hf => ?_
  split at hf
  · exact List.mem_singleton.mp hf
  · cases hf

/-- A frame that a step of the reader dispatches is one value for the limits of the parser. -/
theorem readerStep_values {U : UnpackOne} (hU : UnpackOneSpec U) {pc : ReaderPc} {io : ReaderIo}
    {x : BackendChannel × Option ReaderPc} (h : ch.readerStep U pc io = some x) {n : Nat}
    {f : Bytes} (hf : f ∈ parsedOn n x.1.trace) : f ∈ parsedOn n ch.trace ∨
      ∃ v, firstValue U ch.replyParser.limits ch.replyParser.maxFrameBytes f =
        .done v f.length := by
  rcases readerStep_cases h with hmute | ⟨alloc, reply, parser, b, _, hnext, hx⟩
  · rw [hmute.parsedOn] at hf
    exact Or.inl hf
  · rw [hx] at hf
    refine (parsedOn_dispatchReply _ reply hf).imp_right ?_
    rintro rfl
    obtain ⟨hsplit, _⟩ := RespParser.nextReplyFrame_split hU hnext
    cases hsplit with
    | found frame front =>
      rename_i v
      -- the value is at the front of the input, and its bytes alone give it too
      refine ⟨v, (incremental_firstValue hU _ _).done frame ?_⟩
      rw [front, List.take_left]

theorem Splits.step (hU : UnpackOneSpec E.unpackOne) {allow : Owner → Op → Bool} {a : Act}
    (h : ch.Splits E) (hl : ch.Life) (hstart : a.isStart = false)
    (hs : ch.step E.unpackOne allow a = some ch') : ch'.Splits E := by
  cases a with
  | op o =>
    simp only [BackendChannel.step] at hs
    split at hs
    · cases hs
      exact h.apply hstart
    · cases hs
  | ret =>
    simp only [BackendChannel.step, ret] at hs
    split at hs <;> cases hs <;> exact ⟨h.limits, h.values⟩
  | next o =>
    simp only [BackendChannel.step, next] at hs
    split at hs
    · split at hs
      · cases hs
        exact ⟨h.limits, fun n f hf => h.values n f (by simpa [Event.parsed] using hf)⟩
      · cases hs
    · cases hs
  | run i io =>
    simp only [BackendChannel.step, runTask] at hs
    split at hs
    · rename_i pc _ hpc
      obtain ⟨x, hx, rfl⟩ := Option.map_eq_some_iff.mp hs
      have hne : ch.state ≠ .kStopped := fun hstop => by
        rw [hl.runs_of_stopped hstop] at hpc
        cases hpc
      have hmute : ch.Mute { x.1 with runs := moveTask x.1.runs i x.2 } := mute_runStep hx
      exact h.mute hmute (replyParser_runStep hx) fun _ => hne
    · cases hs
  | reader i io =>
    simp only [BackendChannel.step, readerTask] at hs
    split at hs
    · rename_i pc _ hpc
      obtain ⟨x, hx, rfl⟩ := Option.map_eq_some_iff.mp hs
      have hne : ch.state ≠ .kStopped := by
        rcases hl.task with ⟨_, hr, _⟩ | ⟨_, _, hne, _⟩
        · rw [hr] at hpc
          cases hpc
        · exact hne
      obtain ⟨hlimits, hmax⟩ := h.limits hne
      obtain ⟨hlimits', hmax'⟩ := readerStep_limits hU hx
      refine ⟨fun _ => ⟨hlimits'.trans hlimits, hmax'.trans hmax⟩, fun n f hf => ?_⟩
      rcases readerStep_values hU hx hf with hold | hnew
      · exact h.values n f hold
      · rw [hlimits, hmax] at hnew
        exact hnew
    · cases hs

end Splits

end BackendChannel

namespace Worker

section Channels

variable {E : Env}

/-- A channel that was reached by its own steps and keeps `J`. -/
def Holding (E : Env) (J : BackendChannel → Prop) (ch : BackendChannel) : Prop :=
  (channelMachine E).Reachable ch ∧ J ch

variable {J : BackendChannel → Prop} {n : Nat} {p : BackendPool n}

theorem holding_update (hp : ∀ c, Holding E J (p c)) {c : Fin n} {ch : BackendChannel}
    (hch : Holding E J ch) (c' : Fin n) : Holding E J (Function.update p c ch c') := by
  by_cases hc : c' = c
  · subst hc
    rw [Function.update_self]
    exact hch
  · rw [Function.update_of_ne hc]
    exact hp c'

section Rule

variable (hstep : ∀ ch a ch', ch.Life → J ch → a.isStart = false →
  ch.step E.unpackOne selfCalls a = some ch' → J ch')

include hstep

theorem Holding.step {ch ch' : BackendChannel} {a : BackendChannel.Act} (h : Holding E J ch)
    (hstart : a.isStart = false) (hs : ch.step E.unpackOne selfCalls a = some ch') :
    Holding E J ch' :=
  ⟨h.1.next a hs, hstep ch a ch' (BackendChannel.life_reachable h.1) h.2 hstart hs⟩

theorem Holding.apply {ch : BackendChannel} {o : Op} (h : Holding E J ch)
    (hstart : (BackendChannel.Act.op o).isStart = false)
    (hmay : BackendChannel.mayCall selfCalls ch.frames o = true) : Holding E J (ch.apply o) :=
  h.step hstep hstart (by rw [BackendChannel.step, if_pos hmay])

/-- A step of a session leaves the pool, detaches it, or submits. -/
theorem holding_touch (hp : ∀ c, Holding E J (p c)) (hidle : ∀ c, (p c).frames = []) {a : Owner}
    {s s' : ClientSession n} {p' : BackendPool n} (ht : ClientSession.Touch a s p s' p')
    (c : Fin n) : Holding E J (p' c) := by
  have hmay : ∀ c o, BackendChannel.mayCall selfCalls (p c).frames o = true := by
    intro c o
    rw [hidle c]
    rfl
  cases ht with
  | quiet due => exact hp c
  | left due => exact (hp c).apply hstep (o := .detachOwner a) rfl (hmay c _)
  | sent c₁ bytes count ready pos due others =>
    exact holding_update hp ((hp c₁).apply hstep (o := .submit a bytes count) rfl (hmay c₁ _)) c

/-- The failure callback of session `a` in a call from channel `c`. -/
theorem holding_abort (hp : ∀ c, Holding E J (p c)) {c : Fin n} {a : Owner} {fs : List Frame}
    (hfr : (p c).frames = .onFailure a :: fs) (halone : ∀ c', c' ≠ c → (p c').frames = [])
    (s : ClientSession n) (c' : Fin n) : Holding E J ((s.abort a p).2 c') := by
  unfold ClientSession.abort
  split
  · exact hp c'
  · refine (hp c').apply hstep (o := .detachOwner a) rfl ?_
    by_cases hc : c' = c
    · subst hc
      rw [hfr]
      exact beq_self_eq_true a
    · rw [halone c' hc]
      rfl

/-- **The rule for the channels of a worker**: what `start()` with the worker's configuration and
    every other step of a channel keep, all its channels keep. -/
theorem channel_invariant (hinit : J (.init E.blockSize E.blockSize_pos))
    (hstart : ∀ ch, J ch → J (ch.start E.config))
    {w : Worker E.config.channels} (h : (machine E).Reachable w) : ∀ c, J (w.pool c) := by
  suffices hall : ∀ c, Holding E J (w.pool c) from fun c => (hall c).2
  refine h.invariant (I := fun w => ∀ c, Holding E J (w.pool c)) (fun _ => ⟨.start, hinit⟩) ?_
  intro w act w' hw hI hs
  have hk := kept_reachable hw
  have guarded : ∀ {act}, (if w.idle then w.resume E act else none) = some w' →
      (∀ c, (w.pool c).frames = []) ∧ w.resume E act = some w' := by
    intro act h
    split at h
    · rename_i hidle
      exact ⟨idle_iff.mp hidle, h⟩
    · cases h
  cases act with
  | accept a =>
    obtain ⟨_, hs⟩ := guarded hs
    simp only [resume] at hs
    split at hs <;> cases hs
    exact hI
  | reap =>
    obtain ⟨_, hs⟩ := guarded hs
    cases hs
    exact hI
  | start c =>
    obtain ⟨hidle, hs⟩ := guarded hs
    cases hs
    refine holding_update hI ⟨(hI c).1.next (.op (.start E.config)) ?_, hstart _ (hI c).2⟩
    exact if_pos (by rw [hidle c]; rfl)
  | stop c =>
    obtain ⟨hidle, hs⟩ := guarded hs
    cases hs
    exact holding_update hI ((hI c).apply hstep (o := .stop) rfl (by rw [hidle c]; rfl))
  | run c i io =>
    obtain ⟨_, hs⟩ := guarded hs
    obtain ⟨ch, hch, rfl⟩ := Option.map_eq_some_iff.mp hs
    exact holding_update hI ((hI c).step hstep (a := .run i io) rfl hch)
  | read c i io =>
    obtain ⟨_, hs⟩ := guarded hs
    obtain ⟨ch, hch, rfl⟩ := Option.map_eq_some_iff.mp hs
    exact holding_update hI ((hI c).step hstep (a := .reader i io) rfl hch)
  | reader a io =>
    obtain ⟨hidle, hs⟩ := guarded hs
    obtain ⟨s, hlive, hs⟩ := Option.bind_eq_some_iff.mp hs
    obtain ⟨x, hx, rfl⟩ := Option.map_eq_some_iff.mp hs
    exact holding_touch hstep hI hidle
      (ClientSession.readerStep_touch (hk.orderly a s hlive) (hk.tallied a s hlive) hx)
  | writer a io =>
    obtain ⟨hidle, hs⟩ := guarded hs
    obtain ⟨s, hlive, hs⟩ := Option.bind_eq_some_iff.mp hs
    obtain ⟨x, hx, rfl⟩ := Option.map_eq_some_iff.mp hs
    exact holding_touch hstep hI hidle
      (ClientSession.writerStep_touch (hk.orderly a s hlive) (hk.tallied a s hlive) hx)
  | next c a =>
    obtain ⟨ch, hch, rfl⟩ := Option.map_eq_some_iff.mp hs
    exact holding_update hI ((hI c).step hstep (a := .next a) rfl hch)
  | callback c =>
    have hs : w.callback c = some w' := hs
    unfold callback at hs
    split at hs
    · obtain ⟨s, _, hs⟩ := Option.bind_eq_some_iff.mp hs
      obtain ⟨ch, hret, rfl⟩ := Option.map_eq_some_iff.mp hs
      exact holding_update hI ((hI c).step hstep (a := .ret) rfl hret)
    · rename_i a fs hfr
      obtain ⟨s, _, hs⟩ := Option.bind_eq_some_iff.mp hs
      obtain ⟨ch, hret, rfl⟩ := Option.map_eq_some_iff.mp hs
      have habort := holding_abort hstep hI hfr
        (hk.single c (by rw [hfr]; exact List.cons_ne_nil _ _)) s
      exact holding_update habort ((habort c).step hstep (a := .ret) rfl hret)
    · cases hs
  | ret c =>
    have hs : w.ret c = some w' := hs
    unfold Worker.ret at hs
    split at hs
    · obtain ⟨ch, hret, rfl⟩ := Option.map_eq_some_iff.mp hs
      exact holding_update hI ((hI c).step hstep (a := .ret) rfl hret)
    · obtain ⟨ch, hret, rfl⟩ := Option.map_eq_some_iff.mp hs
      exact holding_update hI ((hI c).step hstep (a := .ret) rfl hret)
    · cases hs

end Rule

theorem splits_reachable (hU : UnpackOneSpec E.unpackOne) {w : Worker E.config.channels}
    (h : (machine E).Reachable w) : ∀ c, (w.pool c).Splits E :=
  channel_invariant (fun _ _ _ hl hJ hstart hs => hJ.step hU hl hstart hs)
    (BackendChannel.init_splits E) (fun _ hJ => hJ.start) h

end Channels

/-! ## 4. What a client can read -/

/-- The texts of the proxy's own errors. -/
def proxyErrors : List String :=
  ["ERR proxy rejected unknown command", "ERR proxy rejected command",
    "ERR wrong number of arguments", protocolError, outOfMemoryError]

section Clients

variable {E : Env}

theorem validate_text (r : CommandRules) (command : Bytes) (argc : Nat) :
    r.validate command argc = .okStatus ∨
      ∃ m ∈ proxyErrors, r.validate command argc = .protocolError m := by
  unfold CommandRules.validate
  repeat' split
  · exact Or.inr ⟨_, by simp [proxyErrors], rfl⟩
  · exact Or.inr ⟨_, by simp [proxyErrors], rfl⟩
  · exact Or.inr ⟨_, by simp [proxyErrors], rfl⟩
  · exact Or.inl rfl

/-- A command is rejected with one of the texts. -/
theorem rejection_text {x : RespFrameInfo × Bytes} {frame : Bytes} {message : String}
    (h : E.judge x = .rejected frame message) : message ∈ proxyErrors := by
  unfold Env.judge at h
  split at h
  · cases h
  · rename_i hrefused
    obtain ⟨_, rfl⟩ := Judgement.rejected.inj h
    rcases validate_text E.rules x.1.commandName x.1.argc with hok | ⟨m, hm, hm'⟩
    · exact absurd (by rw [Env.accepts, hok]; rfl) hrefused
    · rw [hm']
      exact hm

/-- A stream ends with one of the texts. -/
theorem ending_text {rest : Buffer} {eof : Bool} {e : String}
    (h : ClientSession.Ended E False rest eof e) (hne : e ≠ "") : e ∈ proxyErrors := by
  rcases h.cases with ⟨_, rfl, _⟩ | ⟨_, rfl, _⟩ | ⟨_, rfl, _⟩
  · split
    · rename_i hnil
      exact absurd (if_pos hnil) hne
    · simp [proxyErrors]
  · simp [proxyErrors]
  · simp [proxyErrors]

variable {w : Worker E.config.channels}

/-- The errors are values for those who read with these limits. -/
def Readable (E : Env) : Prop :=
  ∀ m ∈ proxyErrors, ∃ v, E.firstReply (E.packError m) = .done v (E.packError m).length

/-- **Whatever a session puts out is one value.** -/
theorem output_is_value (hU : UnpackOneSpec E.unpackOne) (hsize : E.blockSize < 2 ^ 32)
    (hread : Readable E) (h : (machine E).Reachable w) {a : Owner}
    {s : ClientSession E.config.channels} (hs : w.sessions a = some s) {i : Nat} {out : Bytes}
    (hout : s.outputs[i]? = some out) : ∃ v, E.firstReply out = .done v out.length := by
  have hans : Answering E False w.pool s :=
    (answering_inherited hU hsize False).reachable (fun _ hf => hf.elim) h a s hs
  rcases hans.answers.output_cases hout with
    ⟨frame, slot, _, hgives⟩ | ⟨frame, message, hv, rfl⟩ | ⟨_, _, e, he, hne, rfl⟩
  · -- a reply is a frame that the channel of its place has parsed
    obtain ⟨conn, j, _, hframe⟩ := hgives
    exact (splits_reachable hU h slot.channel).values conn out (List.mem_of_getElem? hframe)
  · obtain ⟨fs, _, hjudged⟩ := hans.parsing.taken
    have hmem : Judgement.rejected frame message ∈ fs.map E.judge := by
      rw [← hjudged]
      exact List.mem_map.mpr ⟨_, List.mem_of_getElem? hv, rfl⟩
    obtain ⟨x, _, hx⟩ := List.mem_map.mp hmem
    exact hread message (rejection_text hx)
  · exact hread e (ending_text (hans.ends e he).2 hne)

/-- **A client reads whole values, whatever Redis sends.** The values in what was handed to a
    client's socket are the first outputs of its session, one by one, and what follows them is a
    proper front part of the next output. So a reply that is no RESP value, or the half of one, can
    fail a connection but never stands in a client's stream. -/
theorem clients_read_values (hU : UnpackOneSpec E.unpackOne) (hsize : E.blockSize < 2 ^ 32)
    (hread : Readable E) (h : (machine E).Reachable w) {a : Owner}
    {s : ClientSession E.config.channels} (hs : w.sessions a = some s) :
    (∀ out ∈ s.outputs, ∃ v, E.firstReply out = .done v out.length) ∧
    ∃ k rest, framesOf E.firstReply s.handed = s.outputs.take k ∧
      s.handed = (s.outputs.take k).flatten ++ rest ∧
      (rest = [] ∨ ∃ out, s.outputs[k]? = some out ∧ rest <+: out ∧ rest ≠ out) := by
  have hvalues : ∀ out ∈ s.outputs, ∃ v, E.firstReply out = .done v out.length := by
    intro out hout
    obtain ⟨i, hi⟩ := List.mem_iff_getElem?.mp hout
    exact output_is_value hU hsize hread h hs hi
  have hans : Answering E False w.pool s :=
    (answering_inherited hU hsize False).reachable (fun _ hf => hf.elim) h a s hs
  have hfront : s.handed <+: s.outputs.flatten :=
    (List.prefix_append _ _).trans hans.outgoing.front
  exact ⟨hvalues, framesOf_front (incremental_firstValue hU _ _) (advances_firstValue hU _ _)
    hvalues hfront⟩

end Clients

theorem readable_pingEnv : Readable pingEnv := by
  have hused : ∀ m ∈ proxyErrors, (pingEnv.firstReply (pingEnv.packError m)).used? =
      some (pingEnv.packError m).length := by decide +kernel
  exact fun m hm => used?_eq_some.mp (hused m hm)

/-- Redis answers the first of two commands and goes on with a byte that begins no value; the
    connection fails, and 7 has been handed five bytes of the reply. -/
def garbageFollows : List (WorkerAct 2) :=
  connecting ++ [.accept 7,
    .reader 7 parsing, .reader 7 (.read (.data (ping ++ ping))), .reader 7 parsing] ++
  writing 28 ++ receiving (pong ++ ascii "?") ++ [.callback channel0,
    .writer 7 .none, .writer 7 (.write (some (.wrote 5))),
    .read channel0 0 (.parse fun _ => true), .next channel0 7, .callback channel0, .ret channel0]

theorem clients_read_values_garbageFollows :
    ∃ w s v, (machine pingEnv).run (init pingEnv) garbageFollows = some w ∧
      w.sessions 7 = some s ∧ s.state = .kAborted ∧ s.handed = pong.take 5 ∧
      framesOf pingEnv.firstReply s.handed = [] ∧ pingEnv.firstReply pong = .done v 7 := by
  have hrun : ((machine pingEnv).run (init pingEnv) garbageFollows).bind (fun w =>
      (w.sessions 7).map fun s => (s.state, s.handed, s.outputs,
        framesOf pingEnv.firstReply s.handed)) =
        some (.kAborted, pong.take 5, [pong], []) := by decide +kernel
  obtain ⟨w, hw, hval⟩ := Option.bind_eq_some_iff.mp hrun
  obtain ⟨s, hs, hval⟩ := Option.map_eq_some_iff.mp hval
  simp only [Prod.mk.injEq] at hval
  obtain ⟨hstate, hhanded, houtputs, hframes⟩ := hval
  obtain ⟨hvalues, _⟩ := clients_read_values (E := pingEnv) Resp.unpackOne_spec (by decide)
    readable_pingEnv (Machine.reachable_of_run hw) hs
  obtain ⟨v, hv⟩ := hvalues pong (by
    rw [houtputs]
    exact List.mem_singleton.mpr rfl)
  exact ⟨w, s, v, hw, hs, hstate, hhanded, hframes, hv⟩

end Worker

end RedisProxy
