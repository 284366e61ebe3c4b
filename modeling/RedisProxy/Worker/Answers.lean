/-
  File:      RedisProxy/Worker/Answers.lean
  Subject:   WHAT A CLIENT'S STREAM COMES TO: the commands that were forwarded, the errors that
             were answered and the end of the stream are those of the reference function.
-/
import RedisProxy.Worker.Intake
import RedisProxy.Session.Answers
import RedisProxy.Session.Places

namespace RedisProxy

open Lib

namespace Worker

/-! ## 1. What every session keeps -/

/-- The reply from a place: the frame that answers the command there. -/
def Relayed {n : Nat} (p : BackendPool n) (x : Slot n) (out : Bytes) : Prop :=
  Answered (p x.channel).trace x.command out

/-- What a session keeps of its stream and of its answers. -/
structure Answering {n : Nat} (E : Env) (grants : Prop) (p : BackendPool n)
    (s : ClientSession n) : Prop where
  parsing : s.Parsing E grants
  answers : s.Answers E (Relayed p)
  outgoing : s.Outgoing
  ends : s.Ends E grants
  placed : s.Placed E p

theorem answering_inherited {n : Nat} {E : Env} (hU : UnpackOneSpec E.unpackOne)
    (hsize : E.blockSize < 2 ^ 32) (grants : Prop) :
    Inherited E (fun io => grants → Granting io)
      (fun (p : BackendPool n) (s : ClientSession n) => Answering E grants p s) where
  init p uid :=
    { parsing := ClientSession.init_parsing hU grants uid
      answers := ClientSession.init_answers E (Relayed p) uid
      outgoing := ClientSession.init_outgoing E uid
      ends := ClientSession.init_ends E grants uid
      placed := nofun }
  grow hg h := { h with
    answers := h.answers.mono fun x _ hr => hr.grow (hg x.channel)
    placed := h.placed.grow hg }
  reader ho ht h hok hx hg :=
    have hp := h.parsing.readerStep hU ho hok hx
    have ha := h.answers.readerStep h.parsing hU hsize ho ht hx
    { parsing := hp
      answers := ha.mono fun x _ hr => hr.grow (hg x.channel)
      outgoing := h.outgoing.readerStep hx
      ends := h.ends.readerStep hx hp (ho.readerStep hx)
      placed := (ClientSession.posting_readerStep h.parsing hU hsize hx).placed hU hg h.placed }
  writer ho ht h hx hg :=
    have ha := h.answers.writerStep ho ht hx
    { parsing := h.parsing.writerStep hx
      answers := ha.mono fun x _ hr => hr.grow (hg x.channel)
      outgoing := h.outgoing.writerStep hx
      ends := h.ends.writerStep hx
      placed := (ClientSession.posting_writerStep hx).placed hU hg h.placed }
  reply _ ht hpos hne hR h :=
    { parsing := h.parsing.onBackendReply _
      answers := h.answers.onBackendReply ht hpos hne hR
      outgoing := h.outgoing.onBackendReply _
      ends := h.ends.keep rfl id
      placed := h.placed }
  abort a _ _ h :=
    { parsing := h.parsing.abort a _
      answers := h.answers.abort a _
      outgoing := h.outgoing.abort a _
      ends := h.ends.abort a _
      placed := by
        intro frame slot hm
        rw [ClientSession.verdicts_abort] at hm
        exact h.placed frame slot hm }

/-! ## 2. The stream of a session that finished -/

/-- The session has read enough of the stream `S`: all of it, unless it ended before. -/
structure Serving {n : Nat} (s : ClientSession n) (S : Bytes) : Prop where
  front : s.input <+: S
  whole : s.eof = true → s.input = S

/-- A session that drains was given the reference's verdicts, and ends as the reference does. -/
theorem ended_as_reference {n : Nat} {E : Env} {s : ClientSession n}
    (hU : UnpackOneSpec E.unpackOne) (hmax : E.config.maxPipelineCommandsPerRead ≠ 0)
    (hp : s.Parsing E True) (hd : s.state = .kDraining) {S : Bytes} (hS : Serving s S) :
    s.verdicts.map Verdict.judgement = (E.reference S).judgements ∧
      ∃ e, s.ending = some e ∧ (E.reference S).final = if e = "" then none else some e := by
  have hi := Env.incremental_firstFrame hU
  obtain ⟨fs, htaken, hverdicts⟩ := hp.taken
  obtain ⟨e, he, hended⟩ := hp.ended hd
  rw [hverdicts]
  cases hended with
  | noMemory early failed => exact absurd trivial failed
  | broken early bad =>
    -- whatever comes after a broken command
    obtain ⟨x, rfl⟩ := hS.front
    have hcut := htaken.cut_of_bad hi bad x
    have hfinal : (E.reference (s.input ++ x)).final = some protocolError :=
      if_pos (Or.inl (by rw [hcut]))
    refine ⟨by rw [Env.reference, hcut], _, he, ?_⟩
    rw [hfinal, if_neg (by decide)]
  | closed last exhausted =>
    have hex := exhausted hmax
    rw [← hS.whole last]
    obtain ⟨hframes, hrest, hbroken⟩ := htaken.cut_eq hex.absent
    refine ⟨by rw [Env.reference, hframes], _, he, ?_⟩
    by_cases hnil : s.clientIn.content = []
    · rw [ClientSession.endError_eq, if_pos hnil, if_pos rfl]
      refine if_neg ?_
      rw [hbroken, hrest, hex.empty hnil]
      rintro (h | h)
      · cases h
      · exact h hnil
    · rw [ClientSession.endError_eq, if_neg hnil, if_neg (by decide)]
      exact if_pos (Or.inr (by rw [hrest]; exact hnil))

/-- **A session does with its client's stream what the reference function says.** However the
    stream is cut by the reads, whatever the size of the blocks, the budget of a round and the
    timing of the replies: a session that finished and was not aborted gave every command of the
    stream its verdict; the commands forwarded went out in their order, in batches with their
    number; every rejected command was answered with its error in its place; and there is one
    output for every command, and after them the final error where the reference has one. -/
theorem stream_answered {E : Env} (hU : UnpackOneSpec E.unpackOne)
    (hmax : E.config.maxPipelineCommandsPerRead ≠ 0) (hsize : E.blockSize ≤ 32768)
    {acts : List (WorkerAct E.config.channels)}
    {w : Worker E.config.channels} (hok : ∀ act ∈ acts, Offers Granting act)
    (hr : (machine E).run (Worker.init E) acts = some w) {a : Owner}
    {s : ClientSession E.config.channels} (hs : w.sessions a = some s)
    (hfin : s.finishCalls = 1) (hne : s.state ≠ .kAborted) {S : Bytes} (hS : Serving s S) :
    s.verdicts.map Verdict.judgement = (E.reference S).judgements ∧
    ClientSession.Batched E.config.maxPipelineCommandsPerRead
      ((E.reference S).judgements.filterMap Judgement.sent) s.batches ∧
    (∀ (i : Nat) (frame : Bytes) (message : String),
      (E.reference S).judgements[i]? = some (Judgement.rejected frame message) →
        s.outputs[i]? = some (E.packError message)) ∧
    (E.reference S).judgements.length ≤ s.outputs.length ∧
    s.outputs.drop (E.reference S).judgements.length =
      ((E.reference S).final.map E.packError).toList ∧
    s.handed = s.outputs.flatten := by
  have hsize : E.blockSize < 2 ^ 32 := Nat.lt_of_le_of_lt hsize (by decide)
  have hgrant : ∀ act ∈ acts, Offers (fun io => True → Granting io) act :=
    fun act hact b io hb _ => hok act hact b io hb
  have h : Answering E True w.pool s := (answering_inherited hU hsize True).run hgrant hr a s hs
  have hk := kept_reachable (Machine.reachable_of_run hr)
  have ho := hk.orderly a s hs
  have hd : s.state = .kDraining := (ho.drained hfin hne).2.1
  obtain ⟨hverdicts, e, he, hfinal⟩ := ended_as_reference hU hmax h.parsing hd hS
  obtain ⟨hhanded, hle, e', he', hdrop⟩ :=
    h.answers.finished h.outgoing ho (hk.tallied a s hs) hfin hne
  obtain rfl : e = e' := Option.some.inj (he.symm.trans he')
  have hlen : (E.reference S).judgements.length = s.verdicts.length := by
    rw [← hverdicts, List.length_map]
  refine ⟨hverdicts, ?_, fun i frame message hi => ?_, ?_, ?_, hhanded⟩
  · rw [← hverdicts]
    exact h.parsing.batched hsize hne
  · rw [← hverdicts, List.getElem?_map] at hi
    obtain ⟨v, hv, hj⟩ := Option.map_eq_some_iff.mp hi
    have hlt : i < s.outputs.length :=
      Nat.lt_of_lt_of_le (List.getElem?_eq_some_iff.mp hv).1 hle
    cases v with
    | forwarded f slot => cases hj
    | rejected f m =>
      cases hj
      have hout := List.getElem?_eq_getElem hlt
      rw [hout, h.answers.given hv hout]
  · rw [hlen]
    exact hle
  · rw [hlen, hdrop, hfinal]
    split <;> rfl

def get : Bytes := ascii "*2\r\n$3\r\nGET\r\n$1\r\nk\r\n"

/-- Session 7 sends `PING`, then `GET`, which is not let through, and breaks off in a third
    command; `GET` is cut by the reads and its error waits for the reply to `PING`. -/
def brokenOff : List (WorkerAct 2) :=
  connecting ++ [.accept 7,
    .reader 7 parsing, .reader 7 (.read (.data (ping ++ get.take 5))), .reader 7 parsing,
    .reader 7 (.read (.data (get.drop 5 ++ ping.take 3))), .reader 7 parsing, .reader 7 .none] ++
  writing 14 ++ receiving pong ++ [.callback channel0,
    .reader 7 .none, .reader 7 .none, .reader 7 parsing, .reader 7 (.read .closed), .reader 7 .none,
    .writer 7 .none, .writer 7 (.write (some (.wrote 30))), .writer 7 (.write (some (.wrote 14))),
    .writer 7 (.write none), .writer 7 .none, .writer 7 (.write (some (.wrote 27))),
    .writer 7 (.write none), .writer 7 .none, .writer 7 .none]

theorem stream_answered_brokenOff :
    ∃ w s, (machine pingEnv).run (init pingEnv) brokenOff = some w ∧ w.sessions 7 = some s ∧
      s.verdicts.map Verdict.judgement =
        [.forwarded ping, .rejected get "ERR proxy rejected unknown command"] ∧
      s.outputs[1]? = some (Resp.packError "ERR proxy rejected unknown command") ∧
      s.outputs.drop 2 = [Resp.packError protocolError] := by
  have hrun : ((machine pingEnv).run (init pingEnv) brokenOff).map (fun w =>
      (w.sessions 7).map fun s => (s.finishCalls, s.state, s.input)) =
        some (some (1, .kDraining, ping ++ get ++ ping.take 3)) := by decide +kernel
  have href : pingEnv.reference (ping ++ get ++ ping.take 3) =
      ⟨[.forwarded ping, .rejected get "ERR proxy rejected unknown command"],
        some protocolError⟩ := by decide +kernel
  have hok : ∀ act ∈ brokenOff, Offers Granting act := by
    intro act hact a io hio alloc halloc k size
    subst hio halloc
    simp [brokenOff, connecting, writing, receiving, parsing] at hact
    obtain ⟨_, rfl⟩ := hact
    rfl
  obtain ⟨w, hw, hval⟩ := Option.map_eq_some_iff.mp hrun
  obtain ⟨s, hs, hs'⟩ := Option.map_eq_some_iff.mp hval
  obtain ⟨hfin, hs'⟩ := Prod.mk.inj hs'
  obtain ⟨hstate, hin⟩ := Prod.mk.inj hs'
  have hS : Serving s (ping ++ get ++ ping.take 3) := ⟨hin ▸ List.prefix_rfl, fun _ => hin⟩
  have h := stream_answered (E := pingEnv) Resp.unpackOne_spec (by decide) (by decide) hok hw hs
    hfin (by rw [hstate]; decide) hS
  rw [href] at h
  exact ⟨w, s, hw, hs, h.1, h.2.2.1 1 get _ rfl, h.2.2.2.2.1⟩

end Worker

end RedisProxy
