/-
  File:      RedisProxy/Worker/Intake.lean
  Subject:   HOW MUCH OF ITS CLIENT'S INPUT A SESSION HOLDS, and that it waits for input only when
             it has done all it can with what it holds.

  `Inherited` is the rule by which a property of single sessions goes over to all the sessions of
  a worker: it holds of a new session, and the steps of the two coroutines and the callbacks of
  the channels keep it. The property may speak of the history of the channels, which only grows.
-/
import RedisProxy.Worker.Lifetime
import RedisProxy.Session.Parsing

namespace RedisProxy

open Lib

namespace Worker

/-! ## 1. What every session keeps -/

section Inherited

variable {n : Nat} {E : Env} {ok : ClientSession.SessionReaderIo → Prop}
  {I : BackendPool n → ClientSession n → Prop}

/-- `I` holds of new sessions and is kept, if `ok` holds of what the outside decides in the steps
    of the reader. It may speak of what happened on the channels. -/
structure Inherited (E : Env) (ok : ClientSession.SessionReaderIo → Prop)
    (I : BackendPool n → ClientSession n → Prop) : Prop where
  init : ∀ p uid, I p (.init E uid)
  grow : ∀ {s : ClientSession n} {p p' : BackendPool n}, p.Grows p' → I p s → I p' s
  reader : ∀ {s : ClientSession n} {a p io x}, s.Orderly → s.Tallied → I p s → ok io →
    s.readerStep E a p io = some x → p.Grows x.2.1 → I x.2.1 x.1
  writer : ∀ {s : ClientSession n} {a p io x}, s.Orderly → s.Tallied → I p s →
    s.writerStep E a p io = some x → p.Grows x.2.1 → I x.2.1 x.1
  reply : ∀ {s : ClientSession n} {p : BackendPool n} {reply : BufferChain}, s.Orderly →
    s.Tallied → 0 < s.pendingReplies → s.state ≠ .kAborted →
    (∀ x rest, s.inflight = x :: rest → Answered (p x.channel).trace x.command reply.bytes) →
    I p s → I p (s.onBackendReply reply)
  abort : ∀ {s : ClientSession n} {p : BackendPool n} (a : Owner), s.Orderly → s.Tallied →
    I p s → I p (s.abort a p).1

/-- The readers of the sessions are given only what `ok` holds of. -/
def Offers (ok : ClientSession.SessionReaderIo → Prop) (act : WorkerAct n) : Prop :=
  ∀ a io, act = .reader a io → ok io

/-- The reply that is being delivered answers the first command in flight. -/
theorem Kept.answered {w : Worker n} (h : w.Kept E) {c : Fin n} {a : Owner} {reply : BufferChain}
    {fs : List Frame} {s : ClientSession n} (hfr : (w.pool c).frames = .onReply a reply :: fs)
    (hs : w.sessions a = some s) {x : Slot n} {rest : List (Slot n)}
    (hx : s.inflight = x :: rest) :
    Answered (w.pool x.channel).trace x.command reply.bytes := by
  have htop : Frame.onReply a reply ∈ (w.pool c).frames := by
    rw [hfr]
    exact List.mem_cons_self
  have hcur := (h.called hs ⟨_, htop, rfl⟩).1
  have hchannel : c = x.channel :=
    Option.some.inj (hcur.symm.trans ((h.tallied a s hs).channels x (hx ▸ List.mem_cons_self)))
  subst hchannel
  have hsh := h.shape x.channel
  rw [hfr] at hsh
  cases hsh
  obtain ⟨y, past, later, htrace, hnext, hdue⟩ := (h.serves x.channel a).answering_of hfr
  rw [due_of_live hs, ClientSession.due, if_pos hcur, hx] at hdue
  obtain ⟨rfl, _⟩ := List.cons.inj hdue
  have htrace : (w.pool x.channel).trace = _ := htrace
  rw [htrace]
  exact answered_replied _ _ hnext

/-- What a session keeps through each of its own steps it keeps through every move of the worker. -/
theorem Inherited.move (hi : Inherited E ok I) {w w' : Worker n} {act : WorkerAct n}
    (hm : w.Move E act w') (hk : w.Kept E) (hok : Offers ok act)
    (h : ∀ a s, w.sessions a = some s → I w.pool s) :
    ∀ a s, w'.sessions a = some s → I w'.pool s := by
  have hg := hm.history hk
  intro a s' hs'
  cases hm with
  | channel c ch' step alone => exact hi.grow hg (h a s' hs')
  | session b s x idle live step =>
    rcases update_live hs' with ⟨rfl, rfl⟩ | ⟨_, hold⟩
    · have ho := hk.orderly a s live
      have ht := hk.tallied a s live
      rcases step with ⟨io, hact, hx⟩ | ⟨io, _, hx⟩
      · exact hi.reader ho ht (h a s live) (hok a io hact) hx hg
      · exact hi.writer ho ht (h a s live) hx hg
    · exact hi.grow hg (h a s' hold)
  | replied c b reply fs s frames live =>
    rcases update_live hs' with ⟨rfl, rfl⟩ | ⟨_, hold⟩
    · have htop : Frame.onReply a reply ∈ (w.pool c).frames := by
        rw [frames]
        exact List.mem_cons_self
      obtain ⟨_, hpos, hne⟩ := hk.called live ⟨_, htop, rfl⟩
      exact hi.grow hg (hi.reply (hk.orderly a s live) (hk.tallied a s live) hpos hne
        (fun x rest hx => hk.answered frames live hx) (h a s live))
    · exact hi.grow hg (h a s' hold)
  | told c b fs s frames live alone =>
    rcases update_live hs' with ⟨rfl, rfl⟩ | ⟨_, hold⟩
    · exact hi.grow hg (hi.abort a (hk.orderly a s live) (hk.tallied a s live) (h a s live))
    · exact hi.grow hg (h a s' hold)
  | accept b idle free =>
    rcases update_live hs' with ⟨rfl, rfl⟩ | ⟨_, hold⟩
    · exact hi.init w.pool w.born
    · exact h a s' hold
  | reap idle =>
    simp only at hs'
    split at hs'
    · cases hs'
    · exact h a s' hs'

end Inherited

section Run

variable {E : Env} {ok : ClientSession.SessionReaderIo → Prop}
  {I : BackendPool E.config.channels →
    ClientSession E.config.channels → Prop}

/-- So it holds of every session after a run. -/
theorem Inherited.run (hi : Inherited E ok I) {acts : List (WorkerAct E.config.channels)}
    {w : Worker E.config.channels} (hok : ∀ act ∈ acts, Offers ok act)
    (hr : (machine E).run (Worker.init E) acts = some w) :
    ∀ a s, w.sessions a = some s → I w.pool s := by
  refine Machine.Reachable.start.restricted (I := fun w => ∀ a s, w.sessions a = some s → I w.pool s)
    (fun a s hs => by cases hs) (fun w act w' hw hact h hs => ?_) hok hr
  have hk := kept_reachable hw
  exact hi.move (step_move hk.single hs) hk hact h

theorem Inherited.reachable (hi : Inherited E ok I) (hall : ∀ io, ok io)
    {w : Worker E.config.channels} (h : (machine E).Reachable w) :
    ∀ a s, w.sessions a = some s → I w.pool s := by
  refine h.invariant (I := fun w => ∀ a s, w.sessions a = some s → I w.pool s)
    (fun a s hs => by cases hs) fun w act w' hw hI hs => ?_
  have hk := kept_reachable hw
  exact hi.move (step_move hk.single hs) hk (fun _ io _ => hall io) hI

end Run

/-- In every step of the parser's loop all growths of its arena succeed. -/
def Granting (io : ClientSession.SessionReaderIo) : Prop :=
  ∀ alloc, io = .parse alloc → ∀ k size, alloc k size = true

/-- **Every session reads its stream as `Parsing` says.** -/
theorem parsing_inherited {n : Nat} {E : Env} (hU : UnpackOneSpec E.unpackOne) (grants : Prop) :
    Inherited E (fun io => grants → Granting io)
      (fun (_ : BackendPool n) (s : ClientSession n) => s.Parsing E grants) where
  init _ uid := ClientSession.init_parsing hU grants uid
  grow _ h := h
  reader ho _ h hok hx _ := h.readerStep hU ho hok hx
  writer _ _ h hx _ := h.writerStep hx
  reply _ _ _ _ _ h := h.onBackendReply _
  abort a _ _ h := h.abort a _

/-! ## 2. The bound -/

/-- **What a session holds of its input is bounded, and it waits for input with nothing left to
    do.** It never holds more than an incomplete command and one block. Where its reader stands at
    a read, which is the only place a read starts from, it holds less than `max_request_bytes`; no
    front part of that is a complete frame, with any number of slots, and `peekFrame` asks for
    more. The end of the stream finds the same bytes, so no complete command is taken for a
    truncated one. -/
theorem input_bounded {E : Env} (hU : UnpackOneSpec E.unpackOne)
    (hv : validateConfig E.config = none) {w : Worker E.config.channels}
    (h : (machine E).Reachable w) {a : Owner} {s : ClientSession E.config.channels}
    (hs : w.sessions a = some s) :
    s.clientIn.readableBytes ≤ E.config.maxRequestBytes - 1 + E.blockSize ∧
    (∀ o x, s.readerStep E a w.pool (.read o) = some x → s.reader = .reading) ∧
    (s.reader = .reading →
      s.clientIn.readableBytes < E.config.maxRequestBytes ∧
      (∀ i, i <+: s.clientIn.content → ∀ slots, (E.unpackOne i slots E.limits).status ≠ .kOk) ∧
      (∀ alloc, (∀ size, alloc size = true) →
        (s.parser.peekFrame E.unpackOne alloc s.clientIn 0).map Prod.fst = some .kNeedMore) ∧
      ∀ x, s.readerStep E a w.pool (.read .closed) = some x →
        x.1.clientIn.content = s.clientIn.content) := by
  have hp : s.Parsing E False :=
    (parsing_inherited hU False).reachable (fun _ hf => hf.elim) h a s hs
  have hmax : E.config.maxPipelineCommandsPerRead ≠ 0 := by
    have := (limits_pos_of_valid hv).2
    omega
  rw [Buffer.readableBytes_eq]
  refine ⟨hp.bounded hmax, fun o x hx => (ClientSession.readerStep_read hx).1, fun hpc => ?_⟩
  have hex := hp.reading hpc hmax
  refine ⟨hex.short, fun i hi slots => hex.incomplete hU hi slots,
    fun alloc halloc => hex.peekFrame hU hp.fits halloc, fun x hx => ?_⟩
  obtain ⟨_, y, hy, rfl⟩ := ClientSession.readerStep_read hx
  rw [ClientSession.content_readerRead hy]
  exact List.append_nil _

/-- Session 7 sends a command and half of the next one; its reader waits for the rest. -/
def pingAndHalf : List (WorkerAct 2) :=
  connecting ++ [.accept 7,
    .reader 7 parsing, .reader 7 (.read (.data (ping ++ ping.take 9))), .reader 7 parsing]

theorem input_bounded_pingAndHalf :
    ∃ w s, (machine pingEnv).run (init pingEnv) pingAndHalf = some w ∧ w.sessions 7 = some s ∧
      s.clientIn.readableBytes = 9 ∧
      (s.parser.peekFrame pingEnv.unpackOne (fun _ => true) s.clientIn 0).map Prod.fst =
        some .kNeedMore := by
  have hrun : ((machine pingEnv).run (init pingEnv) pingAndHalf).map (fun w =>
      (w.sessions 7).map fun s => (s.clientIn.readableBytes, s.reader)) =
        some (some (9, .reading)) := by decide +kernel
  obtain ⟨w, hw, hval⟩ := Option.map_eq_some_iff.mp hrun
  obtain ⟨s, hs, hs'⟩ := Option.map_eq_some_iff.mp hval
  obtain ⟨hbytes, hpc⟩ := Prod.mk.inj hs'
  obtain ⟨_, _, hreading⟩ :=
    input_bounded Resp.unpackOne_spec (by decide) (Machine.reachable_of_run hw) hs
  exact ⟨w, s, hw, hs, hbytes, (hreading hpc).2.2.1 (fun _ => true) fun _ => rfl⟩

end Worker

end RedisProxy
