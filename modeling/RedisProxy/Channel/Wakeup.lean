/-
  File:      RedisProxy/Channel/Wakeup.lean
  Subject:   NO WAKE OF A CHANNEL'S `run()` IS LOST.

  `run()` waits at two places for the one signal of its channel: in `writerLoop` for a batch or
  for the end of the connection, and after it for the end of the reader. `Attentive` says that a
  `run()` that is suspended with no wake on its way waits for something that is not there yet.
-/
import RedisProxy.Channel.Lifecycle

namespace RedisProxy

/-! ## 1. The invariant -/

/-- The place is inside `writer_signal_.wait()`. -/
def RunPc.suspended : RunPc → Bool
  | .writerWait | .joinWait => true
  | _ => false

namespace BackendChannel

/-- What is waited for at a place has not happened. -/
def Waiting (ch : BackendChannel) : RunPc → Prop
  | .writerWait => ch.state = .kReady ∧ ch.writeQueue = []
  | .joinWait => ch.readerDone = false
  | _ => True

structure Attentive (ch : BackendChannel) : Prop where
  signal : ch.writerSignal.Waits (ch.runs.any RunPc.suspended)
  asleep : ch.writerSignal.blocked = 1 → ∀ pc ∈ ch.runs, ch.Waiting pc

theorem init_attentive (blockSize : Nat) (hb : 0 < blockSize) : (init blockSize hb).Attentive where
  signal := CoroutineSignal.init_waits
  asleep h := by cases h

section Attentive

variable {ch ch' : BackendChannel}

/-- A step that leaves the signal and the task alone and brings nothing that is waited for. -/
theorem Attentive.keep (h : ch.Attentive) (hsig : ch'.writerSignal = ch.writerSignal)
    (hruns : ch'.runs = ch.runs) (hwait : ∀ pc ∈ ch.runs, ch.Waiting pc → ch'.Waiting pc) :
    ch'.Attentive := by
  refine ⟨by rw [hsig, hruns]; exact h.signal, fun hb pc hpc => ?_⟩
  rw [hsig] at hb
  rw [hruns] at hpc
  exact hwait pc hpc (h.asleep hb pc hpc)

/-- A step that notifies, whatever it brings. -/
theorem Attentive.notified (h : ch.Attentive) (hsig : ch'.writerSignal = ch.writerSignal.notify)
    (hruns : ch'.runs = ch.runs) : ch'.Attentive := by
  obtain ⟨hw, h0⟩ := h.signal.notify
  rw [← hsig] at hw h0
  refine ⟨by rw [hruns]; exact hw, fun hb => ?_⟩
  rw [h0] at hb
  cases hb

/-- `run()` at a place with a signal that fits. -/
theorem attentive_at {pc : RunPc} (hruns : ch.runs = [pc])
    (hsig : ch.writerSignal.Waits pc.suspended) (hwait : pc.suspended = true → ch.Waiting pc) :
    ch.Attentive := by
  refine ⟨by rw [hruns]; simpa using hsig, fun hb pc' hpc' => ?_⟩
  rw [hruns] at hpc'
  obtain rfl := List.mem_singleton.mp hpc'
  cases hs : pc'.suspended with
  | true => exact hwait hs
  | false =>
    rw [hs] at hsig
    rw [hsig.blocked_of_awake] at hb
    cases hb

/-- `run()` at a place where it does not wait. -/
theorem attentive_awake {pc : RunPc} (hruns : ch.runs = [pc])
    (hsig : ch.writerSignal.Waits pc.suspended) (hawake : pc.suspended = false) : ch.Attentive :=
  attentive_at hruns hsig fun hs => absurd (hawake.symm.trans hs) Bool.false_ne_true

/-! ## 2. Operations -/

theorem Attentive.failConnection (h : ch.Attentive) (st : Status) :
    (ch.failConnection st).Attentive := by
  unfold BackendChannel.failConnection
  split
  · exact h
  · exact h.notified rfl rfl

theorem Attentive.dispatchReply (h : ch.Attentive) (reply : BufferChain) :
    (ch.dispatchReply reply).Attentive := by
  unfold BackendChannel.dispatchReply
  split
  · have hstray : { ch with trace := .stray ch.conn reply.bytes :: ch.trace }.Attentive :=
      h.keep rfl rfl fun pc _ hw => by cases pc <;> exact hw
    exact hstray.failConnection _
  · exact h.keep rfl rfl fun pc _ hw => by cases pc <;> exact hw

theorem Attentive.apply (h : ch.Attentive) (hl : ch.Life) (o : Op) : (ch.apply o).Attentive := by
  cases o with
  | submit owner bytes count =>
    simp only [BackendChannel.apply, submit]
    split
    · exact h
    · exact h.notified rfl rfl
  | detachOwner owner =>
    refine h.keep rfl rfl fun pc _ hw => ?_
    cases pc with
    | writerWait =>
      have hnil : (ch.detachOwner owner).writeQueue = [] := by
        simp only [detachOwner, hw.2, detachWrites]
      exact ⟨hw.1, hnil⟩
    | _ => exact hw
  | start config =>
    simp only [BackendChannel.apply, start]
    split
    · exact h
    · rename_i hs
      -- a stopped channel has no task, so nobody is suspended
      have hruns : ch.runs = [] := by
        rcases hl.task with ⟨hr, _⟩ | ⟨pc, _, hst, _⟩
        · exact hr
        · exact absurd (by simpa [isStopped] using hs) hst
      have hsig := h.signal
      rw [hruns] at hsig
      have hstarted : ch.runs ++ [.loopHead] = [.loopHead] := by
        rw [hruns]
        rfl
      exact attentive_awake hstarted hsig rfl
  | stop =>
    have hstop : Attentive { ch with
        stopRequested := true
        frames := .stopTail :: ch.frames
        trace := .stopped :: ch.trace } := h.keep rfl rfl fun pc _ hw => by cases pc <;> exact hw
    exact hstop.failConnection _

theorem Attentive.ret (h : ch.Attentive) (hs : ch.ret = some ch') : ch'.Attentive := by
  unfold BackendChannel.ret at hs
  split at hs
  · cases hs
    exact h.keep rfl rfl fun pc _ hw => by cases pc <;> exact hw
  · cases hs
    exact h.keep rfl rfl fun pc _ hw => by cases pc <;> exact hw
  · cases hs
    exact h.keep rfl rfl fun pc _ hw => by cases pc <;> exact hw
  · cases hs
    exact h.notified rfl rfl
  · cases hs

theorem Attentive.next (h : ch.Attentive) {o : Owner} (hs : ch.next o = some ch') :
    ch'.Attentive := by
  unfold BackendChannel.next at hs
  split at hs
  · split at hs
    · cases hs
      exact h.keep rfl rfl fun pc _ hw => by cases pc <;> exact hw
    · cases hs
  · cases hs

/-! ## 3. The tasks -/

/-- `wait()` at a loop head, where nothing waited for is there. -/
theorem attentive_waitWriter {pc : RunPc} (head wait : RunPc) (hr : ch.runs = [pc])
    (hsig : ch.writerSignal.Waits false) (hhead : head.suspended = false)
    (hwait : wait.suspended = true)
    (hnothing : ∀ s, Waiting { ch with writerSignal := s, runs := [wait] } wait)
    {x : BackendChannel × Option RunPc} (hx : ch.waitWriter head wait = x) :
    Attentive { x.1 with runs := moveTask x.1.runs 0 x.2 } := by
  unfold waitWriter at hx
  split at hx
  · rename_i s hs
    subst hx
    refine attentive_at (moveTask_some hr head) ?_ fun h => ?_
    · rw [hhead]
      exact hsig.wait_returned hs
    · rw [hhead] at h
      cases h
  · rename_i s hs
    subst hx
    refine attentive_at (moveTask_some hr wait) ?_ fun _ => ?_
    · rw [hwait]
      exact hsig.wait_suspended hs
    · rw [moveTask_some hr wait]
      exact hnothing s

theorem Attentive.runTask (h : ch.Attentive) (hl : ch.Life) {i : Nat} {io : RunIo}
    (hs : ch.runTask i io = some ch') : ch'.Attentive := by
  unfold BackendChannel.runTask at hs
  split at hs
  on_goal 2 => cases hs
  rename_i pc hfr hi
  obtain ⟨x, hx, rfl⟩ := Option.map_eq_some_iff.mp hs
  obtain ⟨rfl, hr, _, _⟩ := hl.run_of_get hi
  have hsig : ch.writerSignal.Waits pc.suspended := by
    have := h.signal
    rw [hr] at this
    simpa using this
  cases pc with
  | loopHead =>
    simp only [runStep] at hx
    split at hx
    · cases hx
      refine ⟨?_, fun hb => ?_⟩
      · rw [moveTask_none hr]
        exact hsig
      · rw [show ch.writerSignal.blocked = 0 from hsig.blocked_of_awake] at hb
        cases hb
    · split at hx
      · cases hx
        exact attentive_awake (moveTask_some hr .connecting) hsig rfl
      · cases hx
        exact attentive_awake (moveTask_some hr .cleanup) hsig rfl
      · cases hx
  | connecting =>
    cases io <;> simp only [runStep] at hx <;> try cases hx
    split at hx
    · cases hx
      exact attentive_awake (moveTask_some hr .writerHead) hsig rfl
    · cases hx
      exact attentive_awake (moveTask_some hr .cleanup) hsig rfl
  | writerHead =>
    cases io <;> simp only [runStep] at hx <;> try cases hx
    split at hx
    · cases hx
      exact attentive_awake (moveTask_some hr .joinHead) hsig rfl
    · rename_i hh
      have hready : ch.state = .kReady := by simpa [isHealthy] using hh
      split at hx
      · rename_i hq
        exact attentive_waitWriter .writerHead .writerWait hr hsig rfl rfl
          (fun _ => ⟨hready, hq⟩) (Option.some.inj hx)
      · rename_i b q hq
        cases hx
        exact attentive_awake (moveTask_some hr (.writing (.start b.bytes))) hsig rfl
  | writerWait =>
    cases io <;> simp only [runStep] at hx <;> try cases hx
    obtain ⟨s, hres, rfl⟩ := Option.map_eq_some_iff.mp hx
    exact attentive_awake (moveTask_some hr .writerHead) (hsig.resume hres) rfl
  | writing c =>
    cases io <;> simp only [runStep] at hx <;> try cases hx
    obtain ⟨w, _, he⟩ := Option.map_eq_some_iff.mp hx
    cases w with
    | running c' =>
      cases he
      exact attentive_awake (moveTask_some hr (.writing c')) hsig rfl
    | returned st =>
      cases he
      have hafter : (if st.ok then ch else ch.failConnection st).Attentive ∧
          (if st.ok then ch else ch.failConnection st).runs = [.writing c] := by
        split
        · exact ⟨h, hr⟩
        · exact ⟨h.failConnection st, (failConnection_fields ch st).2.1.trans hr⟩
      have hw := hafter.1.signal
      rw [hafter.2] at hw
      exact attentive_awake (moveTask_some hafter.2 .writerHead) hw rfl
  | joinHead =>
    cases io <;> simp only [runStep] at hx <;> try cases hx
    split at hx
    · cases hx
      exact attentive_awake (moveTask_some hr .cleanup) hsig rfl
    · rename_i hd
      have hd : ch.readerDone = false := by simpa using hd
      exact attentive_waitWriter .joinHead .joinWait hr hsig rfl rfl (fun _ => hd)
        (Option.some.inj hx)
  | joinWait =>
    cases io <;> simp only [runStep] at hx <;> try cases hx
    obtain ⟨s, hres, rfl⟩ := Option.map_eq_some_iff.mp hx
    exact attentive_awake (moveTask_some hr .joinHead) (hsig.resume hres) rfl
  | cleanup =>
    cases io <;> simp only [runStep] at hx <;> try cases hx
    cases hstop : ch.stopRequested with
    | true => exact attentive_awake (moveTask_some hr .loopHead) hsig rfl
    | false => exact attentive_awake (moveTask_some hr .backoff) hsig rfl
  | backoff =>
    cases io <;> simp only [runStep] at hx <;> try cases hx
    exact attentive_awake (moveTask_some hr .loopHead) hsig rfl

theorem Attentive.readerStep {U : UnpackOne} (h : ch.Attentive) {pc : ReaderPc} {io : ReaderIo}
    {x : BackendChannel × Option ReaderPc} (hx : ch.readerStep U pc io = some x) :
    x.1.Attentive := by
  cases pc with
  | head =>
    cases io <;> simp only [BackendChannel.readerStep] at hx <;> cases hx
    exact h
  | reading =>
    cases io <;> simp only [BackendChannel.readerStep] at hx <;> try cases hx
    rename_i o
    obtain ⟨⟨st, b⟩, _, rfl⟩ := Option.map_eq_some_iff.mp hx
    cases st with
    | none => exact h.keep rfl rfl fun pc _ hw => by cases pc <;> exact hw
    | some st =>
      have hread : Attentive { ch with
          redisIn := b
          trace := .received ch.conn o.bytes :: ch.trace } :=
        h.keep rfl rfl fun pc _ hw => by cases pc <;> exact hw
      dsimp only
      repeat' split
      · exact hread
      · exact hread.failConnection st
      · exact hread
  | parsing =>
    cases io <;> simp only [BackendChannel.readerStep] at hx <;> try cases hx
    split at hx
    · cases hx
      exact h
    · obtain ⟨⟨ps, chain, parser, b⟩, _, rfl⟩ := Option.map_eq_some_iff.mp hx
      have hparsed : Attentive { ch with replyParser := parser, redisIn := b } :=
        h.keep rfl rfl fun pc _ hw => by cases pc <;> exact hw
      dsimp only
      split
      · exact hparsed
      · exact hparsed.dispatchReply _
      · exact hparsed.failConnection _
  | leaving =>
    cases io <;> simp only [BackendChannel.readerStep] at hx <;> cases hx
    exact h.notified rfl rfl

theorem Attentive.step {U : UnpackOne} {allow : Owner → Op → Bool} (h : ch.Attentive)
    (hl : ch.Life) {a : Act} (hs : ch.step U allow a = some ch') : ch'.Attentive := by
  cases a with
  | op o =>
    simp only [BackendChannel.step] at hs
    split at hs
    · cases hs
      exact h.apply hl o
    · cases hs
  | ret => exact h.ret hs
  | next o => exact h.next hs
  | run i io => exact h.runTask hl hs
  | reader i io =>
    simp only [BackendChannel.step, readerTask] at hs
    split at hs
    · obtain ⟨x, hx, rfl⟩ := Option.map_eq_some_iff.mp hs
      exact (h.readerStep hx).keep rfl rfl fun pc _ hw => by cases pc <;> exact hw
    · cases hs

theorem attentive_reachable {U : UnpackOne} {allow : Owner → Op → Bool} {blockSize : Nat}
    {hb : 0 < blockSize} (h : (machine U allow blockSize hb).Reachable ch) : ch.Attentive :=
  h.invariant (I := Attentive) (init_attentive blockSize hb) fun _ _ _ hr hI hs =>
    hI.step (life_reachable hr) hs

end Attentive

end BackendChannel

end RedisProxy
