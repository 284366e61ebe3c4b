/-
  File:      RedisProxy/Worker/Wakeup.lean
  Subject:   NO LOST WAKEUP in a worker.

  A coroutine suspended in `CoroutineSignal::wait` with no wake scheduled waits for something that
  is not there. Each of the three signals has one user, so `woken = 0` says that no wake of it is
  scheduled; what the sessions and the channels keep by themselves gives the rest.
-/
import RedisProxy.Worker.Accounts
import RedisProxy.Channel.Wakeup

namespace RedisProxy

open Lib

/-- The one user of the signal is suspended and its wake is not scheduled. -/
theorem CoroutineSignal.Waits.blocked_of_asleep {s : CoroutineSignal} (h : s.Waits true)
    (h0 : s.woken = 0) : s.blocked = 1 := by
  have hone := h.one
  rw [h0] at hone
  exact hone

namespace Worker

/-- **No lost wakeup.** In every state, when a loop of a session or the `run()` of a channel is
    suspended in `wait()` and its wake is not scheduled, then: the writer's session has nothing to
    write, is not aborted and is not drained; the reader's session is open and awaits replies; the
    channel is ready with nothing to write, or its reader has not set `reader_done_`. -/
theorem no_lost_wakeup {E : Env} {w : Worker E.config.channels}
    (h : (machine E).Reachable w) :
    (∀ a s, w.sessions a = some s →
      (s.writer = .blocked → s.outputSignal.woken = 0 →
        s.clientOut = [] ∧ s.state ≠ .kAborted ∧
          ¬ (s.state = .kDraining ∧ s.pendingReplies = 0)) ∧
      (∀ error, s.reader = .blocked error → s.replySignal.woken = 0 →
        s.state = .kOpen ∧ s.pendingReplies ≠ 0)) ∧
    (∀ c, ∀ pc ∈ (w.pool c).runs, pc.suspended = true → (w.pool c).writerSignal.woken = 0 →
      pc = .writerWait ∧ (w.pool c).state = .kReady ∧ (w.pool c).writeQueue = [] ∨
      pc = .joinWait ∧ (w.pool c).readerDone = false) := by
  have hk := kept_reachable h
  refine ⟨fun a s hs => ⟨fun hpc h0 => ?_, fun error hpc h0 => ?_⟩, fun c pc hpc hsusp h0 => ?_⟩
  · have ho := hk.orderly a s hs
    have hsig := ho.output
    rw [hpc] at hsig
    exact ho.writerAsleep (hsig.blocked_of_asleep h0)
  · have ho := hk.orderly a s hs
    have hsig := ho.reply
    rw [hpc] at hsig
    exact ho.readerAsleep (hsig.blocked_of_asleep h0)
  · have hatt := BackendChannel.attentive_reachable (hk.channels c)
    have hsig := hatt.signal
    rw [List.any_eq_true.mpr ⟨pc, hpc, hsusp⟩] at hsig
    have hwait := hatt.asleep (hsig.blocked_of_asleep h0) pc hpc
    cases pc with
    | writerWait => exact Or.inl ⟨rfl, hwait⟩
    | joinWait => exact Or.inr ⟨rfl, hwait⟩
    | _ => cases hsusp

/-- Session 7 sends a command that goes to the channel and one that is refused. The reader waits
    for the reply before it reports the second, the writer for something to write, and the
    channel, which has sent the first, for another batch. -/
def threeAsleep : List (WorkerAct 2) :=
  connecting ++ [.accept 7, .reader 7 parsing,
    .reader 7 (.read (.data (ping ++ ascii "*1\r\n$3\r\nFOO\r\n"))), .reader 7 parsing,
    .reader 7 .none, .writer 7 .none] ++
  writing 14 ++ [.run channel0 0 .none, .run channel0 0 .none]

theorem no_lost_wakeup_threeAsleep :
    ∃ w s, (machine pingEnv).run (init pingEnv) threeAsleep = some w ∧ w.sessions 7 = some s ∧
      s.outputSignal.blocked = 1 ∧ s.replySignal.blocked = 1 ∧ s.clientOut = [] ∧
      s.state = .kOpen ∧ s.pendingReplies ≠ 0 ∧
      (w.pool channel0).writerSignal.blocked = 1 ∧ (w.pool channel0).writeQueue = [] := by
  have hrun : ((machine pingEnv).run (init pingEnv) threeAsleep).map (fun w =>
      ((w.sessions 7).map fun s =>
        (s.writer.suspended, s.outputSignal, s.reader, s.replySignal),
        (w.pool channel0).runs.any fun pc => match pc with
          | .writerWait => true
          | _ => false, (w.pool channel0).writerSignal)) =
      some (some (true, ⟨false, 1, 0⟩, .blocked "ERR proxy rejected unknown command",
        ⟨false, 1, 0⟩), true, ⟨false, 1, 0⟩) := by decide +kernel
  obtain ⟨w, hw, hval⟩ := Option.map_eq_some_iff.mp hrun
  obtain ⟨hsession, hval⟩ := Prod.mk.inj hval
  obtain ⟨hsusp, hchan⟩ := Prod.mk.inj hval
  obtain ⟨s, hs, hval⟩ := Option.map_eq_some_iff.mp hsession
  obtain ⟨hwriter, hval⟩ := Prod.mk.inj hval
  obtain ⟨hout, hval⟩ := Prod.mk.inj hval
  obtain ⟨hreader, hreply⟩ := Prod.mk.inj hval
  have hblocked : s.writer = .blocked := by
    cases hpc : s.writer with
    | blocked => rfl
    | _ =>
      rw [hpc] at hwriter
      cases hwriter
  obtain ⟨pc, hpc, hpcs⟩ := List.any_eq_true.mp hsusp
  obtain rfl : pc = .writerWait := by
    split at hpcs
    · rfl
    · cases hpcs
  obtain ⟨hsessions, hchannels⟩ := no_lost_wakeup (Machine.reachable_of_run hw)
  obtain ⟨hw7, hr7⟩ := hsessions 7 s hs
  obtain ⟨hempty, _⟩ := hw7 hblocked (by rw [hout])
  obtain ⟨hopen, hpending⟩ := hr7 _ hreader (by rw [hreply])
  refine ⟨w, s, hw, hs, by rw [hout], by rw [hreply], hempty, hopen, hpending, by rw [hchan], ?_⟩
  rcases hchannels channel0 .writerWait hpc rfl (by rw [hchan]) with ⟨_, _, hq⟩ | ⟨hne, _⟩
  · exact hq
  · cases hne

end Worker

end RedisProxy
