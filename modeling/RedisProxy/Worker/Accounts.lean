/-
  File:      RedisProxy/Worker/Accounts.lean
  Subject:   THE REPLY COUNTER OF A SESSION AGREES WITH THE QUEUES OF THE CHANNELS.

  `pending_replies_` is written by the session, the entries of the queues by the channels. At
  every scheduling point the one counts the others (`pending_accounted`), all of them stand on
  the session's current channel, and that channel is ready.
-/
import RedisProxy.Worker.Invariant
import RedisProxy.Resp.Decode
import Mathlib.Algebra.BigOperators.Fin

namespace RedisProxy

open Lib

/-! ## 1. The entries of an owner -/

namespace BackendChannel

/-- An entry of `write_queue_` or `pending_queue_` names `a` as its owner. -/
def Names (ch : BackendChannel) (a : Owner) : Prop :=
  (∃ b ∈ ch.writeQueue, b.owner = a) ∨ ∃ p ∈ ch.pendingQueue, p.owner = some a

/-- The replies that the entries of `a` stand for: `command_count` of those in `write_queue_` and
    `remaining_replies` of those in `pending_queue_`. -/
def entryReplies (ch : BackendChannel) (a : Owner) : Nat :=
  ((ch.writeQueue.filter (·.owner = a)).map (·.commandCount)).sum +
    ((ch.pendingQueue.filter (·.owner = some a)).map (·.remainingReplies)).sum

theorem length_owedTo (ch : BackendChannel) (a : Owner) :
    (ch.line.owedTo a).length = ch.entryReplies a := by
  have hp : PendingBatch.remainingReplies = fun p => (PendingBatch.commands p).length :=
    funext fun p => (length_commandsOf p.id p.answered p.remainingReplies p.sender).symm
  have hw : RequestBatch.commandCount = fun b => (RequestBatch.commands b).length :=
    funext fun b => (length_commandsOf b.id 0 b.commandCount b.owner).symm
  rw [Line.owedTo, List.length_append, List.length_flatMap, List.length_flatMap, entryReplies, hp, hw,
    Nat.add_comm]
  rfl

theorem names_iff {ch : BackendChannel} (h : ch.line.Balanced) (a : Owner) :
    ch.Names a ↔ ch.line.owedTo a ≠ [] := by
  rw [← Line.mem_owners_iff h a, Line.owners, List.mem_dedup, List.mem_append, List.mem_map,
    List.mem_filterMap]
  rfl

end BackendChannel

/-! ## 2. The accounts -/

namespace Worker

section Kept

variable {n : Nat} {E : Env} {w : Worker n}

/-- An entry names a session that has commands in flight on that channel. -/
theorem Kept.names (h : w.Kept E) {c : Fin n} {a : Owner} (hn : (w.pool c).Names a) :
    ∃ s, w.sessions a = some s ∧ s.currentBackend = some c ∧ s.inflight ≠ [] := by
  obtain ⟨_, hb, _⟩ := BackendChannel.ledger_reachable (h.channels c)
  obtain ⟨x, hx⟩ := List.exists_mem_of_ne_nil _ ((BackendChannel.names_iff hb a).mp hn)
  have hdue : w.due c a ≠ [] := List.ne_nil_of_mem ((h.serves c a).owedTo_subset x hx)
  cases hs : w.sessions a with
  | none => exact absurd (by simp only [due, hs]) hdue
  | some s =>
    rw [due_of_live hs] at hdue
    exact ⟨s, rfl, ClientSession.inflight_of_due hdue⟩

/-- At a scheduling point the entries on a channel are what is due from it. -/
theorem Kept.entries (h : w.Kept E) {a : Owner} {s : ClientSession n} (hs : w.sessions a = some s)
    {c : Fin n} (hidle : (w.pool c).frames = []) :
    (w.pool c).entryReplies a = (s.due c).length ∧
      (s.due c ≠ [] → (w.pool c).state = .kReady) := by
  obtain ⟨hq, hready⟩ := (h.serves c a).idle hidle
  rw [due_of_live hs] at hq hready
  refine ⟨?_, fun hne => BackendChannel.isHealthy_iff.mp (hready hne)⟩
  rw [← BackendChannel.length_owedTo, ← hq]

/-- All that is due is due from the current channel. -/
theorem sum_due {s : ClientSession n} (h : s.Tallied) :
    ∑ c, (s.due c).length = s.pendingReplies := by
  rw [h.pending]
  cases hcur : s.currentBackend with
  | none =>
    have hnil := h.current.mp hcur
    rw [hnil]
    exact Finset.sum_eq_zero fun c _ => by rw [ClientSession.due_of_inflight_nil hnil]; rfl
  | some c₀ =>
    rw [Finset.sum_eq_single c₀]
    · rw [ClientSession.due, if_pos hcur, List.length_map]
    · intro c _ hne
      rw [ClientSession.due_of_other hcur hne]
      rfl
    · exact fun hne => absurd (Finset.mem_univ c₀) hne

end Kept

/-- **The reply counter is the number of replies the queues stand for.** At every scheduling point
    and for every session that is not aborted, `pending_replies_` is the sum of its entries over
    all channels, `current_backend_` is null exactly when it is 0, and otherwise all the entries
    are on that channel, which is ready; an aborted session has none of these. In every state,
    the session in whose `onBackendReply` a channel is has a reply to count, and the entries of
    one owner are on one channel. -/
theorem pending_accounted {E : Env} {w : Worker E.config.channels}
    (h : (machine E).Reachable w) :
    (w.idle = true → ∀ a s, w.sessions a = some s →
      (s.state ≠ .kAborted →
        s.pendingReplies = ∑ c, (w.pool c).entryReplies a ∧
        (s.currentBackend = none ↔ s.pendingReplies = 0) ∧
        (s.pendingReplies ≠ 0 → ∃ c, s.currentBackend = some c ∧ (w.pool c).state = .kReady ∧
          ∀ c', (w.pool c').Names a → c' = c)) ∧
      (s.state = .kAborted →
        s.pendingReplies = 0 ∧ s.currentBackend = none ∧ ∀ c, ¬ (w.pool c).Names a)) ∧
    (∀ c a reply fs, (w.pool c).frames = .onReply a reply :: fs →
      ∃ s, w.sessions a = some s ∧ 0 < s.pendingReplies) ∧
    (∀ a c c', (w.pool c).Names a → (w.pool c').Names a → c' = c) := by
  have hk := kept_reachable h
  refine ⟨fun hidle a s hs => ?_, fun c a reply fs hfr => ?_, fun a c c' hn hn' => ?_⟩
  · have ht := hk.tallied a s hs
    have hentries := fun c => hk.entries hs (idle_iff.mp hidle c)
    constructor
    · intro _
      refine ⟨?_, ?_, fun hpos => ?_⟩
      · rw [← sum_due ht]
        exact Finset.sum_congr rfl fun c _ => (hentries c).1.symm
      · rw [ht.current, ht.pending_eq_zero]
      · have hne : s.inflight ≠ [] := fun hnil => hpos (ht.pending_eq_zero.mpr hnil)
        obtain ⟨c, hcur⟩ := Option.ne_none_iff_exists'.mp fun hnone => hne (ht.current.mp hnone)
        refine ⟨c, hcur, (hentries c).2 ?_, fun c' hn => ?_⟩
        · rw [ClientSession.due, if_pos hcur]
          exact fun hnil => hne (List.map_eq_nil_iff.mp hnil)
        · obtain ⟨s', hs', hcur', _⟩ := hk.names hn
          rw [hs] at hs'
          cases hs'
          rw [hcur] at hcur'
          exact (Option.some.inj hcur').symm
    · intro haborted
      have hnil := ht.aborted haborted
      refine ⟨ht.pending_eq_zero.mpr hnil, ht.current.mpr hnil, fun c hn => ?_⟩
      obtain ⟨s', hs', _, hne⟩ := hk.names hn
      rw [hs] at hs'
      cases hs'
      exact hne hnil
  · have htop : Frame.onReply a reply ∈ (w.pool c).frames := by
      rw [hfr]
      exact List.mem_cons_self
    obtain ⟨s, hs⟩ := hk.callee ⟨_, htop, rfl⟩
    exact ⟨s, hs, (hk.called hs ⟨_, htop, rfl⟩).2.1⟩
  · obtain ⟨s, hs, hcur, _⟩ := hk.names hn
    obtain ⟨s', hs', hcur', _⟩ := hk.names hn'
    rw [hs] at hs'
    cases hs'
    rw [hcur] at hcur'
    exact (Option.some.inj hcur').symm

/-- Two channels, and `PING` is the only command let through. -/
def pingEnv : Env where
  unpackOne := Resp.unpackOne
  packError := Resp.packError
  config :=
    { backendConnsPerWorker := 2
      maxRequestBytes := 64
      maxBulkBytes := 64
      maxArrayElements := 8
      maxPipelineCommandsPerRead := 4 }
  rules := CommandRules.empty.allow (ascii "PING") 1 1 true false
  blockSize := 64
  blockSize_pos := by decide

def channel0 : Fin pingEnv.config.channels := ⟨0, by decide⟩

def ping : Bytes := ascii "*1\r\n$4\r\nPING\r\n"

def pong : Bytes := ascii "+PONG\r\n"

/-- Allocation succeeds. -/
def parsing : ClientSession.SessionReaderIo := .parse fun _ _ => true

/-- Channel 0 connects. -/
def connecting : List (WorkerAct 2) := [.start 0, .run 0 0 .none, .run 0 0 (.connected true)]

/-- Channel 0 writes a batch of `k` bytes. -/
def writing (k : Nat) : List (WorkerAct 2) :=
  [.run 0 0 .none, .run 0 0 (.write (some (.wrote k))), .run 0 0 (.write none)]

/-- Channel 0 reads `bytes` and takes the first reply. -/
def receiving (bytes : Bytes) : List (WorkerAct 2) :=
  [.read 0 0 .none, .read 0 0 (.read (.data bytes)), .read 0 0 (.parse fun _ => true)]

/-- Session 7 sends two commands, session 8 one on the other channel; the batch of 7 is written,
    7 sends a third command, and the first reply arrives. -/
def threePings : List (WorkerAct 2) :=
  [.start 0, .run 0 0 .none, .run 0 0 (.connected true),
    .start 1, .run 1 0 .none, .run 1 0 (.connected true), .accept 7, .accept 8,
    .reader 7 parsing, .reader 7 (.read (.data (ping ++ ping))), .reader 7 parsing,
    .reader 8 parsing, .reader 8 (.read (.data ping)), .reader 8 parsing,
    .run 0 0 .none, .run 0 0 (.write (some (.wrote 28))), .run 0 0 (.write none),
    .reader 7 (.read (.data ping)), .reader 7 parsing,
    .read 0 0 .none, .read 0 0 (.read (.data pong)), .read 0 0 (.parse fun _ => true), .callback 0]

theorem pending_accounted_threePings :
    ∃ w, (machine pingEnv).run (init pingEnv) threePings = some w ∧ ∃ s, w.sessions 7 = some s ∧
      s.pendingReplies = 2 ∧ s.pendingReplies = ∑ c, (w.pool c).entryReplies 7 := by
  have hrun : ((machine pingEnv).run (init pingEnv) threePings).map (fun w =>
      (w.idle, (w.sessions 7).map fun s => (s.pendingReplies, s.state))) =
        some (true, some (2, .kOpen)) := by decide +kernel
  obtain ⟨w, hw, hval⟩ := Option.map_eq_some_iff.mp hrun
  obtain ⟨hidle, hsession⟩ := Prod.mk.inj hval
  obtain ⟨s, hs, hs'⟩ := Option.map_eq_some_iff.mp hsession
  obtain ⟨hpending, hopen⟩ := Prod.mk.inj hs'
  have h := (pending_accounted (Machine.reachable_of_run hw)).1 hidle 7 s hs
  exact ⟨w, hw, s, hs, hpending, (h.1 (by rw [hopen]; decide)).1⟩

end Worker

end RedisProxy
