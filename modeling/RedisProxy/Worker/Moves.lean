/-
  File:      RedisProxy/Worker/Moves.lean
  Subject:   WHAT A STEP OF THE WORKER IS: a step of one channel without its owners, a step of one
             session, a callback, a session made or sessions destroyed.

  `Move` names these cases, and every later proof about the worker goes through them. A callback
  is in progress on at most one channel (`Single`). Every channel of a worker is a channel by
  itself (`channel_reachable`), so what holds of every run of a channel holds here.
-/
import RedisProxy.Worker.Model
import RedisProxy.Session.Effect
import RedisProxy.Channel.Service

namespace RedisProxy

open Lib

/-! ## 1. Steps of a channel without its owners -/

namespace BackendChannel

/-- A step of a channel that no owner takes part in. -/
inductive OwnStep (U : UnpackOne) (ch : BackendChannel) : BackendChannel → Prop where
  | start (config : Config) (idle : ch.frames = []) : OwnStep U ch (ch.start config)
  | stop (idle : ch.frames = []) : OwnStep U ch ch.stop
  | run {ch' : BackendChannel} (i : Nat) (io : RunIo) (h : ch.runTask i io = some ch') :
      OwnStep U ch ch'
  | reader {ch' : BackendChannel} (i : Nat) (io : ReaderIo) (h : ch.readerTask U i io = some ch') :
      OwnStep U ch ch'
  | next {ch' : BackendChannel} (o : Owner) (h : ch.next o = some ch') : OwnStep U ch ch'
  | ret {ch' : BackendChannel} (f : Frame) (fs : List Frame) (frames : ch.frames = f :: fs)
      (own : f.isCallback = false) (h : ch.ret = some ch') : OwnStep U ch ch'

section OwnStep

variable {U : UnpackOne} {ch ch' : BackendChannel}

/-- The line of the channel makes steps without its owners. -/
theorem OwnStep.steps (h : OwnStep U ch ch') (hl : ch.Life) :
    Line.Steps Line.Own ch.line ch'.line := by
  cases h with
  | start config idle =>
    simp only [BackendChannel.start]
    split
    · exact .refl
    · rename_i hs
      have hs : ch.state = .kStopped := by simpa [isStopped] using hs
      have hready : ch.line.ready = false := by simp [line, isHealthy, hs]
      have hr : ch.runs = [] := hl.runs_of_stopped hs
      refine .single ?_
      convert Line.Step.start hready using 1
      simp only [line, lineTask, hr, List.nil_append, RunPc.lineTask, isHealthy, hs]
      rfl
  | stop idle => exact steps_apply (o := .stop) hl ⟨idle, rfl⟩
  | run i io h => exact steps_runTask hl h
  | reader i io h => exact steps_readerTask hl h
  | next o h => exact steps_next h
  | ret f fs frames own h =>
    refine steps_ret h fun f' fs' hfr hcall => ?_
    obtain ⟨rfl, _⟩ := List.cons.inj (frames.symm.trans hfr)
    rw [own] at hcall
    cases hcall

/-- It is a step of the channel's machine, whatever its owners may do. -/
theorem OwnStep.act (h : OwnStep U ch ch') (allow : Owner → Op → Bool) :
    ∃ a, ch.step U allow a = some ch' := by
  cases h with
  | start config idle => exact ⟨.op (.start config), by simp [step, mayCall, idle, apply]⟩
  | stop idle => exact ⟨.op .stop, by simp [step, mayCall, idle, apply]⟩
  | run i io h => exact ⟨.run i io, h⟩
  | reader i io h => exact ⟨.reader i io, h⟩
  | next o h => exact ⟨.next o, h⟩
  | ret f fs frames own h => exact ⟨.ret, h⟩

end OwnStep

/-- A submission is no callback. -/
theorem frames_submit (ch : BackendChannel) (o : Owner) (bytes : BufferChain) (count : Nat) :
    (ch.submit o bytes count).2.frames = ch.frames := by
  unfold submit
  split <;> rfl

theorem frames_detachOwner (ch : BackendChannel) (o : Owner) :
    (ch.detachOwner o).frames = ch.frames := rfl

end BackendChannel

/-! ## 2. The cases of a step -/

namespace Worker

variable {n : Nat}

/-- **The cases of a step of the worker.** -/
inductive Move (E : Env) (w : Worker n) (act : WorkerAct n) : Worker n → Prop where
  | channel (c : Fin n) (ch' : BackendChannel)
      (step : BackendChannel.OwnStep E.unpackOne (w.pool c) ch')
      (alone : ∀ c', c' ≠ c → (w.pool c').frames = []) :
      Move E w act (w.setChannel c ch')
  | session (a : Owner) (s : ClientSession n) (x : ClientSession n × BackendPool n × Bool)
      (idle : ∀ c, (w.pool c).frames = []) (live : w.sessions a = some s)
      (step : (∃ io, act = .reader a io ∧ s.readerStep E a w.pool io = some x) ∨
        ∃ io, act = .writer a io ∧ s.writerStep E a w.pool io = some x) :
      Move E w act (w.moved a x)
  | replied (c : Fin n) (a : Owner) (reply : BufferChain) (fs : List Frame) (s : ClientSession n)
      (frames : (w.pool c).frames = .onReply a reply :: fs) (live : w.sessions a = some s) :
      Move E w act ((w.setChannel c { w.pool c with frames := fs }).setSession a
        (s.onBackendReply reply))
  | told (c : Fin n) (a : Owner) (fs : List Frame) (s : ClientSession n)
      (frames : (w.pool c).frames = .onFailure a :: fs) (live : w.sessions a = some s)
      (alone : ∀ c', c' ≠ c → (w.pool c').frames = []) :
      Move E w act (({ w with pool := (s.abort a w.pool).2 }.setChannel c
        { (s.abort a w.pool).2 c with frames := fs }).setSession a (s.abort a w.pool).1)
  | accept (a : Owner) (idle : ∀ c, (w.pool c).frames = []) (free : w.sessions a = none)
      (own : act = .accept a) :
      Move E w act { w.setSession a (.init E w.born) with born := w.born + 1 }
  | reap (idle : ∀ c, (w.pool c).frames = []) (own : act = .reap) : Move E w act { w with
      sessions := fun a => if a ∈ w.finished then none else w.sessions a
      finished := [] }

/-- A callback is in progress on one channel at most. -/
def Single (w : Worker n) : Prop :=
  ∀ c, (w.pool c).frames ≠ [] → ∀ c', c' ≠ c → (w.pool c').frames = []

theorem idle_iff {w : Worker n} : w.idle = true ↔ ∀ c, (w.pool c).frames = [] := by
  simp [idle]

/-- Neither is an `abort`. -/
theorem frames_abort (s : ClientSession n) (a : Owner) (p : BackendPool n) (c : Fin n) :
    ((s.abort a p).2 c).frames = (p c).frames := by
  unfold ClientSession.abort
  split <;> rfl

/-- **Every step of a worker is one of the moves.** -/
theorem step_move {E : Env} {w w' : Worker n} {act : WorkerAct n} (hw : w.Single)
    (hs : w.step E act = some w') : w.Move E act w' := by
  have guarded : ∀ {act}, (if w.idle then w.resume E act else none) = some w' →
      (∀ c, (w.pool c).frames = []) ∧ w.resume E act = some w' := by
    intro act h
    split at h
    · rename_i hidle
      exact ⟨idle_iff.mp hidle, h⟩
    · cases h
  cases act with
  | accept a =>
    obtain ⟨hidle, hs⟩ := guarded hs
    simp only [resume] at hs
    split at hs
    · rename_i hfree
      cases hs
      exact .accept a hidle (Option.isNone_iff_eq_none.mp hfree) rfl
    · cases hs
  | reap =>
    obtain ⟨hidle, hs⟩ := guarded hs
    cases hs
    exact .reap hidle rfl
  | start c =>
    obtain ⟨hidle, hs⟩ := guarded hs
    cases hs
    exact .channel c _ (.start E.config (hidle c)) fun c' _ => hidle c'
  | stop c =>
    obtain ⟨hidle, hs⟩ := guarded hs
    cases hs
    exact .channel c _ (.stop (hidle c)) fun c' _ => hidle c'
  | run c i io =>
    obtain ⟨hidle, hs⟩ := guarded hs
    obtain ⟨ch', h, rfl⟩ := Option.map_eq_some_iff.mp hs
    exact .channel c ch' (.run i io h) fun c' _ => hidle c'
  | read c i io =>
    obtain ⟨hidle, hs⟩ := guarded hs
    obtain ⟨ch', h, rfl⟩ := Option.map_eq_some_iff.mp hs
    exact .channel c ch' (.reader i io h) fun c' _ => hidle c'
  | reader a io =>
    obtain ⟨hidle, hs⟩ := guarded hs
    obtain ⟨s, hlive, hs⟩ := Option.bind_eq_some_iff.mp hs
    obtain ⟨x, hx, rfl⟩ := Option.map_eq_some_iff.mp hs
    exact .session a s x hidle hlive (Or.inl ⟨io, rfl, hx⟩)
  | writer a io =>
    obtain ⟨hidle, hs⟩ := guarded hs
    obtain ⟨s, hlive, hs⟩ := Option.bind_eq_some_iff.mp hs
    obtain ⟨x, hx, rfl⟩ := Option.map_eq_some_iff.mp hs
    exact .session a s x hidle hlive (Or.inr ⟨io, rfl, hx⟩)
  | next c a =>
    obtain ⟨ch', h, rfl⟩ := Option.map_eq_some_iff.mp hs
    refine .channel c ch' (.next a h) (hw c fun hnil => ?_)
    simp [BackendChannel.next, hnil] at h
  | callback c =>
    simp only [step, callback] at hs
    split at hs
    · rename_i a reply fs hfr
      obtain ⟨s, hlive, hs⟩ := Option.bind_eq_some_iff.mp hs
      obtain ⟨ch, hret, rfl⟩ := Option.map_eq_some_iff.mp hs
      obtain rfl : { w.pool c with frames := fs } = ch := by simpa [BackendChannel.ret, hfr] using hret
      exact .replied c a reply fs s hfr hlive
    · rename_i a fs hfr
      obtain ⟨s, hlive, hs⟩ := Option.bind_eq_some_iff.mp hs
      obtain ⟨ch, hret, rfl⟩ := Option.map_eq_some_iff.mp hs
      have hfr' := (frames_abort s a w.pool c).trans hfr
      obtain rfl : { (s.abort a w.pool).2 c with frames := fs } = ch := by
        simpa [BackendChannel.ret, hfr'] using hret
      exact .told c a fs s hfr hlive (hw c (by rw [hfr]; exact List.cons_ne_nil _ _))
    · cases hs
  | ret c =>
    simp only [step, ret] at hs
    split at hs
    · rename_i hfr
      obtain ⟨ch', h, rfl⟩ := Option.map_eq_some_iff.mp hs
      exact .channel c ch' (.ret _ _ hfr rfl h) (hw c (by rw [hfr]; exact List.cons_ne_nil _ _))
    · rename_i hfr
      obtain ⟨ch', h, rfl⟩ := Option.map_eq_some_iff.mp hs
      exact .channel c ch' (.ret _ _ hfr rfl h) (hw c (by rw [hfr]; exact List.cons_ne_nil _ _))
    · cases hs

end Worker

end RedisProxy
