/-
  File:      RedisProxy/Worker/Handoff.lean
  Subject:   THE WORKER'S OWN COROUTINE and the hand-off of accepted connections to it
             (src/worker.cpp, `dispatchFd`, `reapFds`, `reapSessions`, `run`).

  `Host` is the worker of Worker/Model.lean with the acceptor thread and the loop that makes and
  destroys its sessions. Every section under the mutex is one step, and so are the load of
  `has_pending_fds_` outside of it, each `notify` and each `drain`; a `dispatchFd` that has put its
  fd on the queue and not yet notified is listed by its number. Coroutines of sessions and channels
  run while the loop is suspended in `co_poll`. Every run of a host is a run of its worker
  (`Handed.worker`), so what holds of every worker holds here.

  * `Handed` -- the invariant: every fd is in the queue, in the loop's own deque, or the fd of the
    session made for it; every session is alive until it is erased, and it is erased when it was
    reported;
  * `fds_handed_over` -- the result, with a bound on the steps of the loop until an fd has its
    session and a reported session is gone.
-/
import RedisProxy.Worker.Lifetime

namespace RedisProxy

open Lib

/-! ## 1. The host of a worker -/

abbrev Fd := Nat

/-- Where the loop stands: before the load of `has_pending_fds_`, before the lock, in the loop
    over its own deque, before `reapSessions`, in `co_poll`, before `drain`. -/
inductive LoopPc where
  | load
  | swap
  | creating (fds : List Fd)
  | sessions
  | polling
  | draining
  deriving DecidableEq

/-- The fds the loop has taken off the queue and made no session for yet. -/
def LoopPc.taken : LoopPc → List Fd
  | .creating fds => fds
  | _ => []

/-- A worker, the queue and the notifier in front of it, and its loop. The last five are history:
    the fds in the order of the `dispatchFd` calls, the numbers of the calls yet to notify, the fds
    in the order sessions were made for them, the numbers of the sessions that called
    `on_finished_` and of those that were erased. -/
structure Host (n : Nat) where
  worker : Worker n
  pendingFds : List Fd
  hasPendingFds : Bool
  readable : Bool
  pc : LoopPc
  dispatched : List Fd
  unnotified : List Nat
  created : List Fd
  reported : List Nat
  erased : List Nat

/-- A step: the two halves of `dispatchFd`, the steps of the loop, or a step of another coroutine
    of the worker. -/
inductive HostAct (n : Nat) where
  | dispatch (fd : Fd)
  | notify (i : Nat)
  | load
  | swap
  | create (a : Owner)
  | created
  | reap
  | polled (positive : Bool)
  | drain
  | coroutine (act : WorkerAct n)

/-- A step of the loop. -/
def HostAct.isLoop {n : Nat} : HostAct n → Bool
  | .load | .swap | .create _ | .created | .reap | .polled _ | .drain => true
  | _ => false

def HostAct.isDispatch {n : Nat} : HostAct n → Bool
  | .dispatch _ => true
  | _ => false

/-- The steps that are the loop's in the worker. -/
def WorkerAct.isLoop {n : Nat} : WorkerAct n → Bool
  | .accept _ | .reap => true
  | _ => false

/-- The numbers of the sessions at these addresses. -/
def Worker.uids {n : Nat} (w : Worker n) (l : List Owner) : List Nat :=
  l.filterMap fun a => (w.sessions a).map (·.uid)

namespace Host

variable {n : Nat}

def init (E : Env) : Host n := ⟨.init E, [], false, false, .load, [], [], [], [], []⟩

def step (E : Env) (h : Host n) : HostAct n → Option (Host n)
  | .dispatch fd => some { h with
      pendingFds := h.pendingFds ++ [fd]
      hasPendingFds := true
      dispatched := h.dispatched ++ [fd]
      unnotified := h.unnotified ++ [h.dispatched.length] }
  | .notify i =>
      if i ∈ h.unnotified then some { h with readable := true, unnotified := h.unnotified.erase i }
      else none
  | .load =>
      if h.pc = .load then some { h with pc := if h.hasPendingFds then .swap else .sessions }
      else none
  | .swap =>
      if h.pc = .swap then
        some { h with pc := .creating h.pendingFds, pendingFds := [], hasPendingFds := false }
      else none
  | .create a =>
      match h.pc with
      | .creating (fd :: fds) =>
          (h.worker.step E (.accept a)).map fun w =>
            { h with worker := w, pc := .creating fds, created := h.created ++ [fd] }
      | _ => none
  | .created => if h.pc = .creating [] then some { h with pc := .sessions } else none
  | .reap =>
      if h.pc = .sessions then
        (h.worker.step E .reap).map fun w =>
          { h with
            worker := w
            pc := .polling
            erased := h.erased ++ h.worker.uids h.worker.finished }
      else none
  | .polled positive =>
      if h.pc = .polling ∧ h.worker.idle = true then
        some { h with pc := if positive then .draining else .load }
      else none
  | .drain => if h.pc = .draining then some { h with readable := false, pc := .load } else none
  | .coroutine act =>
      if h.pc = .polling ∧ act.isLoop = false then
        (h.worker.step E act).map fun w =>
          -- `on_finished_` puts the session on the list and notifies
          { h with
            worker := w
            readable := h.readable || decide (w.finished ≠ h.worker.finished)
            reported := h.reported ++ w.uids (w.finished.drop h.worker.finished.length) }
      else none

/-- **The machine of a worker and its acceptor.** -/
def machine (E : Env) : Machine (Host E.config.channels)
    (HostAct E.config.channels) := ⟨init E, step E⟩

end Host

/-! ## 2. What the other coroutines do to the sessions -/

namespace Worker

variable {n : Nat}

/-- A step of a coroutine of a session or a channel: nobody is made or destroyed, and one session
    at most is put on the list. -/
structure Runs (w w' : Worker n) : Prop where
  born : w'.born = w.born
  uid : ∀ a, (w'.sessions a).map (·.uid) = (w.sessions a).map (·.uid)
  finished : w'.finished = w.finished ∨ ∃ a, w'.finished = w.finished ++ [a]

theorem uid_setSession {w : Worker n} {a : Owner} {s s' : ClientSession n}
    (hs : w.sessions a = some s) (hu : s'.uid = s.uid) (b : Owner) :
    ((w.setSession a s').sessions b).map (·.uid) = (w.sessions b).map (·.uid) := by
  by_cases hb : b = a
  · subst hb
    simp only [setSession, Function.update_self, hs, Option.map_some, hu]
  · simp only [setSession, Function.update_of_ne hb]

/-- A step that is none of the loop changes no census. -/
theorem Move.runs {E : Env} {w w' : Worker n} {act : WorkerAct n} (hm : w.Move E act w')
    (hact : act.isLoop = false) : w.Runs w' := by
  cases hm with
  | channel c ch' step alone => exact ⟨rfl, fun _ => rfl, Or.inl rfl⟩
  | session a s x idle live step =>
    have hu : x.1.uid = s.uid := by
      rcases step with ⟨io, _, hx⟩ | ⟨io, _, hx⟩
      · exact (ClientSession.readerStep_onward hx).1.uid
      · exact (ClientSession.writerStep_onward hx).1.uid
    refine ⟨rfl, uid_setSession live hu, ?_⟩
    simp only [moved]
    split
    · exact Or.inr ⟨a, rfl⟩
    · exact Or.inl rfl
  | replied c a reply fs s frames live => exact ⟨rfl, uid_setSession live rfl, Or.inl rfl⟩
  | told c a fs s frames live alone =>
    exact ⟨rfl, uid_setSession live (ClientSession.onward_abort s a w.pool).uid, Or.inl rfl⟩
  | accept a idle free own =>
    rw [own] at hact
    cases hact
  | reap idle own =>
    rw [own] at hact
    cases hact

/-- The sessions keep their numbers meanwhile. -/
theorem Runs.uids {w w' : Worker n} (h : w.Runs w') (l : List Owner) : w'.uids l = w.uids l := by
  unfold Worker.uids
  simp only [h.uid]

theorem mem_uids {w : Worker n} {l : List Owner} {k : Nat} :
    k ∈ w.uids l ↔ ∃ a ∈ l, ∃ s, w.sessions a = some s ∧ s.uid = k := by
  unfold Worker.uids
  rw [List.mem_filterMap]
  simp only [Option.map_eq_some_iff]

/-- Who lives after such a step lived before, as the same session. -/
theorem Runs.live {w w' : Worker n} (h : w.Runs w') {a : Owner} {s' : ClientSession n}
    (hs : w'.sessions a = some s') : ∃ s, w.sessions a = some s ∧ s.uid = s'.uid := by
  have hu := h.uid a
  rw [hs, Option.map_some, eq_comm, Option.map_eq_some_iff] at hu
  exact hu

theorem Runs.lives {w w' : Worker n} (h : w.Runs w') {a : Owner} {s : ClientSession n}
    (hs : w.sessions a = some s) : ∃ s', w'.sessions a = some s' ∧ s'.uid = s.uid := by
  have hu := h.uid a
  rw [hs, Option.map_some, Option.map_eq_some_iff] at hu
  exact hu

/-! ## 3. The census of the sessions -/

/-- **Who was made, who lives, who was reported and who was erased.** -/
structure Census (w : Worker n) (reported erased : List Nat) : Prop where
  numbered : ∀ a s, w.sessions a = some s → s.uid < w.born ∧ s.uid ∉ erased
  alone : ∀ a b s t, w.sessions a = some s → w.sessions b = some t → s.uid = t.uid → a = b
  alive : ∀ k, k < w.born → k ∉ erased → ∃ a s, w.sessions a = some s ∧ s.uid = k
  known : ∀ k ∈ erased, k < w.born
  reports : reported = erased ++ w.uids w.finished
  once : reported.Nodup
  room : ∃ m, ∀ a, m ≤ a → w.sessions a = none

section Census

variable {w w' : Worker n} {reported erased : List Nat}

theorem init_census (E : Env) : (init E : Worker n).Census [] [] where
  numbered a s hs := by cases hs
  alone a b s t hs := by cases hs
  alive k hk := absurd hk (Nat.not_lt_zero k)
  known k hk := by cases hk
  reports := rfl
  once := List.nodup_nil
  room := ⟨0, fun _ _ => rfl⟩

/-- A new session has the next number. -/
theorem Census.accept (h : w.Census reported erased) (E : Env) {a : Owner}
    (hfree : w.sessions a = none) (hnot : a ∉ w.finished) :
    ({ w.setSession a (.init E w.born) with born := w.born + 1 } : Worker n).Census
      reported erased where
  numbered b s hs := by
    rcases update_live hs with ⟨rfl, rfl⟩ | ⟨_, hb⟩
    · refine ⟨Nat.lt_succ_self w.born, fun hk => ?_⟩
      exact absurd (h.known _ hk) (Nat.lt_irrefl w.born)
    · have := h.numbered b s hb
      exact ⟨Nat.lt_succ_of_lt this.1, this.2⟩
  alone b c s t hs ht hu := by
    rcases update_live hs with ⟨rfl, rfl⟩ | ⟨_, hb⟩
    · rcases update_live ht with ⟨rfl, rfl⟩ | ⟨_, hc⟩
      · rfl
      · have hlt := (h.numbered c t hc).1
        rw [← hu] at hlt
        exact absurd hlt (Nat.lt_irrefl w.born)
    · rcases update_live ht with ⟨rfl, rfl⟩ | ⟨_, hc⟩
      · have hlt := (h.numbered b s hb).1
        rw [hu] at hlt
        exact absurd hlt (Nat.lt_irrefl w.born)
      · exact h.alone b c s t hb hc hu
  alive k hk hne := by
    by_cases hnew : k = w.born
    · exact ⟨a, .init E w.born, Function.update_self .., hnew.symm⟩
    · obtain ⟨b, s, hs, hu⟩ := h.alive k (Nat.lt_of_le_of_ne (Nat.lt_succ_iff.mp hk) hnew) hne
      have hb : b ≠ a := by
        rintro rfl
        rw [hfree] at hs
        cases hs
      exact ⟨b, s, (Function.update_of_ne hb ..).trans hs, hu⟩
  known k hk := Nat.lt_succ_of_lt (h.known k hk)
  reports := by
    refine h.reports.trans (congrArg (erased ++ ·) ?_)
    unfold Worker.uids
    refine List.filterMap_congr fun b hb => ?_
    have hne : b ≠ a := fun heq => hnot (heq ▸ hb)
    simp only [setSession, Function.update_of_ne hne]
  once := h.once
  room := by
    obtain ⟨m, hm⟩ := h.room
    refine ⟨max m (a + 1), fun b hb => ?_⟩
    have hne : b ≠ a := Nat.ne_of_gt (Nat.le_trans (Nat.le_max_right m (a + 1)) hb)
    simp only [setSession, Function.update_of_ne hne]
    exact hm b (Nat.le_trans (Nat.le_max_left m (a + 1)) hb)

/-- What was reported is erased, once. -/
theorem Census.reap (h : w.Census reported erased) :
    ({ w with
      sessions := fun a => if a ∈ w.finished then none else w.sessions a
      finished := [] } : Worker n).Census reported (erased ++ w.uids w.finished) := by
  have live : ∀ {a s}, (if a ∈ w.finished then none else w.sessions a) = some s →
      a ∉ w.finished ∧ w.sessions a = some s := by
    intro a s hs
    split at hs
    · cases hs
    · rename_i hnot
      exact ⟨hnot, hs⟩
  refine ⟨fun a s hs => ?_, fun a b s t hs ht hu => h.alone a b s t (live hs).2 (live ht).2 hu,
    fun k hk hne => ?_, fun k hk => ?_, ?_, h.once, ?_⟩
  · obtain ⟨hnot, hs⟩ := live hs
    obtain ⟨hlt, hold⟩ := h.numbered a s hs
    refine ⟨hlt, fun hmem => ?_⟩
    rcases List.mem_append.mp hmem with hmem | hmem
    · exact hold hmem
    · obtain ⟨b, hb, t, ht, hu⟩ := mem_uids.mp hmem
      rw [h.alone b a t s ht hs hu] at hb
      exact hnot hb
  · rw [List.mem_append, not_or] at hne
    obtain ⟨a, s, hs, hu⟩ := h.alive k hk hne.1
    refine ⟨a, s, ?_, hu⟩
    have hnot : a ∉ w.finished := fun ha => hne.2 (mem_uids.mpr ⟨a, ha, s, hs, hu⟩)
    simp only [hnot, if_false]
    exact hs
  · rcases List.mem_append.mp hk with hk | hk
    · exact h.known k hk
    · obtain ⟨a, _, s, hs, rfl⟩ := mem_uids.mp hk
      exact (h.numbered a s hs).1
  · rw [h.reports, List.append_assoc]
    exact congrArg (erased ++ ·) (List.append_nil _).symm
  · obtain ⟨m, hm⟩ := h.room
    refine ⟨m, fun a ha => ?_⟩
    simp only [hm a ha, ite_self]

/-- Meanwhile sessions report, each once. -/
theorem Census.runs {E : Env} (h : w.Census reported erased) (hr : w.Runs w') (hk : w'.Kept E) :
    w'.Census (reported ++ w'.uids (w'.finished.drop w.finished.length)) erased where
  numbered a s' hs' := by
    obtain ⟨s, hs, hu⟩ := hr.live hs'
    rw [hr.born, ← hu]
    exact h.numbered a s hs
  alone a b s' t' hs' ht' hu' := by
    obtain ⟨s, hs, hu⟩ := hr.live hs'
    obtain ⟨t, ht, hv⟩ := hr.live ht'
    exact h.alone a b s t hs ht (hu.trans (hu'.trans hv.symm))
  alive k hlt hne := by
    rw [hr.born] at hlt
    obtain ⟨a, s, hs, hu⟩ := h.alive k hlt hne
    obtain ⟨s', hs', hu'⟩ := hr.lives hs
    exact ⟨a, s', hs', hu'.trans hu⟩
  known k hk := by
    rw [hr.born]
    exact h.known k hk
  reports := by
    have hsplit : w'.finished =
        w.finished ++ w'.finished.drop w.finished.length := by
      rcases hr.finished with he | ⟨a, he⟩ <;> rw [he] <;> simp
    have huids : w'.uids w'.finished =
        w.uids w.finished ++ w'.uids (w'.finished.drop w.finished.length) := by
      rw [← hr.uids w.finished]
      unfold Worker.uids
      rw [← List.filterMap_append, ← hsplit]
    rw [huids, ← List.append_assoc, ← h.reports]
  once := by
    rcases hr.finished with he | ⟨a, he⟩
    · rw [he, List.drop_length]
      exact (List.append_nil reported).symm ▸ h.once
    · -- one more is on the list, alive and reported for the first time
      have hmem : a ∈ w'.finished := by
        rw [he]
        exact List.mem_append_right _ List.mem_cons_self
      obtain ⟨s', hs', _⟩ := (hk.reported a).mp hmem
      obtain ⟨s, hs, hu⟩ := hr.live hs'
      have hnew : a ∉ w.finished := by
        have hnodup := hk.once
        rw [he] at hnodup
        exact fun ha => (List.nodup_append.mp hnodup).2.2 a ha a List.mem_cons_self rfl
      have hone : w'.uids (w'.finished.drop w.finished.length) = [s'.uid] := by
        rw [he, List.drop_left]
        simp only [Worker.uids, List.filterMap_cons, hs', Option.map_some, List.filterMap_nil]
      rw [hone]
      refine List.nodup_append.mpr ⟨h.once, List.nodup_singleton _, ?_⟩
      rintro k hk' l hl rfl
      rw [List.mem_singleton] at hl
      rw [h.reports, hl, ← hu] at hk'
      rcases List.mem_append.mp hk' with hk' | hk'
      · exact (h.numbered a s hs).2 hk'
      · obtain ⟨b, hb, t, ht, hut⟩ := mem_uids.mp hk'
        rw [h.alone b a t s ht hs hut] at hb
        exact hnew hb
  room := by
    obtain ⟨m, hm⟩ := h.room
    refine ⟨m, fun a ha => ?_⟩
    have hu := hr.uid a
    rw [hm a ha] at hu
    exact Option.map_eq_none_iff.mp hu

end Census

end Worker

/-! ## 4. What every host keeps -/

/-- The loop has looked at the queue and goes on to its sessions and to `co_poll`. -/
def LoopPc.looked : LoopPc → Bool
  | .creating _ | .sessions | .polling => true
  | _ => false

namespace Host

/-- **The cases of a step.** -/
inductive Turn (E : Env) (h : Host E.config.channels) :
    HostAct E.config.channels → Host E.config.channels → Prop where
  | dispatch (fd : Fd) : Turn E h (.dispatch fd) { h with
      pendingFds := h.pendingFds ++ [fd]
      hasPendingFds := true
      dispatched := h.dispatched ++ [fd]
      unnotified := h.unnotified ++ [h.dispatched.length] }
  | notify (i : Nat) (waiting : i ∈ h.unnotified) : Turn E h (.notify i) { h with
      readable := true
      unnotified := h.unnotified.erase i }
  | load (pc : h.pc = .load) :
      Turn E h .load { h with pc := if h.hasPendingFds then .swap else .sessions }
  | swap (pc : h.pc = .swap) : Turn E h .swap { h with
      pc := .creating h.pendingFds
      pendingFds := []
      hasPendingFds := false }
  | create (a : Owner) (fd : Fd) (fds : List Fd) (w : Worker E.config.channels)
      (pc : h.pc = .creating (fd :: fds)) (made : h.worker.step E (.accept a) = some w) :
      Turn E h (.create a) { h with
        worker := w
        pc := .creating fds
        created := h.created ++ [fd] }
  | created (pc : h.pc = .creating []) : Turn E h .created { h with pc := .sessions }
  | reap (w : Worker E.config.channels) (pc : h.pc = .sessions)
      (swept : h.worker.step E .reap = some w) :
      Turn E h .reap { h with
        worker := w
        pc := .polling
        erased := h.erased ++ h.worker.uids h.worker.finished }
  | polled (positive : Bool) (pc : h.pc = .polling) (idle : h.worker.idle = true) :
      Turn E h (.polled positive) { h with pc := if positive then .draining else .load }
  | drain (pc : h.pc = .draining) : Turn E h .drain { h with readable := false, pc := .load }
  | coroutine (act : WorkerAct E.config.channels)
      (w : Worker E.config.channels) (pc : h.pc = .polling)
      (other : act.isLoop = false) (moved : h.worker.step E act = some w) :
      Turn E h (.coroutine act) { h with
        worker := w
        readable := h.readable || decide (w.finished ≠ h.worker.finished)
        reported := h.reported ++ w.uids (w.finished.drop h.worker.finished.length) }

theorem step_turn {E : Env} {h h' : Host E.config.channels}
    {act : HostAct E.config.channels} (hs : h.step E act = some h') :
    h.Turn E act h' := by
  cases act with
  | dispatch fd =>
    cases hs
    exact .dispatch fd
  | notify i =>
    simp only [step] at hs
    split at hs
    · rename_i hi
      cases hs
      exact .notify i hi
    · cases hs
  | load =>
    simp only [step] at hs
    split at hs
    · rename_i hpc
      cases hs
      exact .load hpc
    · cases hs
  | swap =>
    simp only [step] at hs
    split at hs
    · rename_i hpc
      cases hs
      exact .swap hpc
    · cases hs
  | create a =>
    simp only [step] at hs
    split at hs
    · rename_i fd fds hpc
      obtain ⟨w, hw, rfl⟩ := Option.map_eq_some_iff.mp hs
      exact .create a fd fds w hpc hw
    · cases hs
  | created =>
    simp only [step] at hs
    split at hs
    · rename_i hpc
      cases hs
      exact .created hpc
    · cases hs
  | reap =>
    simp only [step] at hs
    split at hs
    · rename_i hpc
      obtain ⟨w, hw, rfl⟩ := Option.map_eq_some_iff.mp hs
      exact .reap w hpc hw
    · cases hs
  | polled positive =>
    simp only [step] at hs
    split at hs
    · rename_i hpc
      cases hs
      exact .polled positive hpc.1 hpc.2
    · cases hs
  | drain =>
    simp only [step] at hs
    split at hs
    · rename_i hpc
      cases hs
      exact .drain hpc
    · cases hs
  | coroutine act =>
    simp only [step] at hs
    split at hs
    · rename_i hpc
      obtain ⟨w, hw, rfl⟩ := Option.map_eq_some_iff.mp hs
      exact .coroutine act w hpc.1 hpc.2 hw
    · cases hs

/-- **What every host keeps.** -/
structure Handed (E : Env) (h : Host E.config.channels) : Prop where
  worker : (Worker.machine E).Reachable h.worker
  census : h.worker.Census h.reported h.erased
  made : h.created.length = h.worker.born
  order : h.created ++ h.pc.taken ++ h.pendingFds = h.dispatched
  idle : h.pc ≠ .polling → h.worker.idle = true
  flag : h.pendingFds ≠ [] → h.hasPendingFds = true
  /-- Who is in the queue behind the loop's back has yet to notify, or has. -/
  woken : h.pc.looked = true → h.readable = false → ∀ i,
    h.created.length + h.pc.taken.length ≤ i → i < h.dispatched.length → i ∈ h.unnotified
  settled : h.pc = .polling → h.readable = false → h.worker.finished = []

theorem init_handed (E : Env) : (init E).Handed E where
  worker := .start
  census := Worker.init_census E
  made := rfl
  order := rfl
  idle _ := Worker.idle_iff.mpr fun _ => rfl
  flag h := absurd rfl h
  woken h := by cases h
  settled h := by cases h

section Handed

variable {E : Env} {h h' : Host E.config.channels}

/-- Every connection that was dispatched is created, taken or pending. -/
theorem Handed.length_dispatched (hh : h.Handed E) :
    h.dispatched.length = h.created.length + h.pc.taken.length + h.pendingFds.length := by
  rw [← hh.order, List.length_append, List.length_append]

/-- A session can be made only at a free address. -/
theorem step_accept {w w' : Worker E.config.channels} {a : Owner}
    (hs : w.step E (.accept a) = some w') :
    w.sessions a = none ∧ w.idle = true ∧
      w' = { w.setSession a (.init E w.born) with born := w.born + 1 } := by
  simp only [Worker.step, Worker.resume] at hs
  split at hs
  · rename_i hidle
    split at hs
    · rename_i hfree
      cases hs
      exact ⟨Option.isNone_iff_eq_none.mp hfree, hidle, rfl⟩
    · cases hs
  · cases hs

/-- `reapSessions` on a worker in which no call is in progress. -/
theorem step_reap {w w' : Worker E.config.channels} (hidle : w.idle = true)
    (hs : w.step E .reap = some w') :
    w' = { w with
      sessions := fun a => if a ∈ w.finished then none else w.sessions a
      finished := [] } := by
  simp only [Worker.step, Worker.resume, hidle, if_true] at hs
  exact (Option.some.inj hs).symm

/-- The flag was not set: nobody is in the queue. -/
theorem Handed.empty (hh : h.Handed E) (hflag : h.hasPendingFds = false) : h.pendingFds = [] := by
  by_contra hne
  rw [hh.flag hne] at hflag
  cases hflag

/-- **A step keeps it.** -/
theorem Turn.handed {act : HostAct E.config.channels} (ht : h.Turn E act h')
    (hh : h.Handed E) : h'.Handed E := by
  have horder := hh.order
  have hwoken := hh.woken
  have hlen := hh.length_dispatched
  cases ht with
  | dispatch fd =>
    refine ⟨hh.worker, hh.census, hh.made, ?_, hh.idle, fun _ => rfl, fun hl hr i hle hlt => ?_,
      hh.settled⟩
    · rw [← List.append_assoc, horder]
    · rw [List.length_append, List.length_singleton] at hlt
      by_cases hi : i = h.dispatched.length
      · exact List.mem_append_right _ (hi ▸ List.mem_cons_self)
      · exact List.mem_append_left _ (hwoken hl hr i hle (by omega))
  | notify i waiting =>
    exact ⟨hh.worker, hh.census, hh.made, horder, hh.idle, hh.flag, nofun, nofun⟩
  | load pc =>
    have hidle : h.worker.idle = true := hh.idle (by rw [pc]; nofun)
    rw [pc] at horder hlen
    cases hflag : h.hasPendingFds with
    | false =>
      -- nobody is in the queue, so nobody is there behind the loop's back
      have hnone := hh.empty hflag
      refine ⟨hh.worker, hh.census, hh.made, horder, fun _ => hidle, fun hne => absurd hnone hne,
        fun _ _ i hle hlt => ?_, nofun⟩
      rw [hnone] at hlen
      exact absurd hlt (Nat.not_lt.mpr (hlen ▸ hle))
    | true =>
      exact ⟨hh.worker, hh.census, hh.made, horder, fun _ => hidle, fun _ => rfl, nofun, nofun⟩
  | swap pc =>
    rw [pc] at horder hlen
    refine ⟨hh.worker, hh.census, hh.made, ?_, fun _ => hh.idle (by rw [pc]; nofun),
      fun hne => absurd rfl hne, fun _ _ i hle hlt => ?_, nofun⟩
    · simpa [LoopPc.taken] using horder
    · have hlt : i < h.dispatched.length := hlt
      simp only [LoopPc.taken, List.length_nil] at hle hlen
      omega
  | create a fd fds w pc made =>
    obtain ⟨hfree, hidle, rfl⟩ := step_accept made
    have hnot : a ∉ h.worker.finished := by
      intro ha
      obtain ⟨s, hlive, _⟩ := ((Worker.kept_reachable hh.worker).reported a).mp ha
      rw [hfree] at hlive
      cases hlive
    rw [pc] at horder hwoken
    refine ⟨hh.worker.next (.accept a) made, hh.census.accept E hfree hnot, ?_, ?_, fun _ => hidle,
      hh.flag, fun _ hr i hle hlt => hwoken rfl hr i ?_ hlt, nofun⟩
    · simp only [List.length_append, List.length_singleton, hh.made]
    · simpa [LoopPc.taken] using horder
    · simp only [LoopPc.taken, List.length_append, List.length_cons, List.length_nil] at hle ⊢
      omega
  | created pc =>
    rw [pc] at horder hwoken
    exact ⟨hh.worker, hh.census, hh.made, horder, fun _ => hh.idle (by rw [pc]; nofun), hh.flag,
      fun _ => hwoken rfl, nofun⟩
  | reap w pc swept =>
    have hreach : (Worker.machine E).Reachable w := hh.worker.next .reap swept
    have hidle : h.worker.idle = true := hh.idle (by rw [pc]; nofun)
    obtain rfl := step_reap hidle swept
    rw [pc] at horder hwoken
    exact ⟨hreach, hh.census.reap, hh.made, horder, fun hne => absurd rfl hne, hh.flag,
      fun _ => hwoken rfl, fun _ _ => rfl⟩
  | polled positive pc idle =>
    rw [pc] at horder
    cases positive with
    | true => exact ⟨hh.worker, hh.census, hh.made, horder, fun _ => idle, hh.flag, nofun, nofun⟩
    | false => exact ⟨hh.worker, hh.census, hh.made, horder, fun _ => idle, hh.flag, nofun, nofun⟩
  | drain pc =>
    rw [pc] at horder
    exact ⟨hh.worker, hh.census, hh.made, horder, fun _ => hh.idle (by rw [pc]; nofun), hh.flag,
      nofun, nofun⟩
  | coroutine act w pc other moved =>
    have hreach := hh.worker.next act moved
    have hk := Worker.kept_reachable hh.worker
    have hruns := (Worker.step_move hk.single moved).runs other
    refine ⟨hreach, hh.census.runs hruns (Worker.kept_reachable hreach),
      hh.made.trans hruns.born.symm, horder, fun hne => absurd pc hne, hh.flag,
      fun hl hr => hwoken hl (Bool.or_eq_false_iff.mp hr).1, fun _ hr => ?_⟩
    -- whoever was put on the list notified
    obtain ⟨hr, hsame⟩ := Bool.or_eq_false_iff.mp hr
    have hsame : w.finished = h.worker.finished := not_not.mp (of_decide_eq_false hsame)
    exact hsame.trans (hh.settled pc hr)

theorem handed_reachable (hr : (machine E).Reachable h) : h.Handed E :=
  hr.invariant (I := Handed E) (init_handed E) fun _ _ _ _ hh hs => (step_turn hs).handed hh

/-! ## 5. How long it takes -/

/-- The steps of the loop until it has made a session for the fd of the `i`th call. -/
def fdRank {n : Nat} (i : Nat) (h : Host n) : Nat :=
  (i - h.created.length) +
    match h.pc with
    | .creating fds => if i < h.created.length + fds.length then 1 else 7
    | .swap => 2
    | .load => 3
    | .draining => 4
    | .polling => 5
    | .sessions => 6

/-- The steps of the loop until it has erased who is on the list now. -/
def listRank {n : Nat} (h : Host n) : Nat :=
  (h.dispatched.length - h.created.length) +
    match h.pc with
    | .sessions => 1
    | .creating _ => 2
    | .swap => 3
    | .load => 4
    | .draining => 5
    | .polling => 6

/-- **One step of the loop brings the fd of the `i`th call nearer to its session.** -/
theorem Turn.fdRank {act : HostAct E.config.channels} (ht : h.Turn E act h')
    (hh : h.Handed E) {i : Nat} (hi : i < h.dispatched.length) :
    i < h'.dispatched.length ∧ (i < h.created.length → i < h'.created.length) ∧
      (i < h'.created.length ∨ fdRank i h' + act.isLoop.toNat ≤ fdRank i h) := by
  have hlen := hh.length_dispatched
  cases ht with
  | dispatch fd =>
    refine ⟨?_, id, Or.inr (Nat.le_refl _)⟩
    rw [List.length_append]
    exact Nat.lt_add_right _ hi
  | notify j waiting => exact ⟨hi, id, Or.inr (Nat.le_refl _)⟩
  | coroutine act w pc other moved => exact ⟨hi, id, Or.inr (Nat.le_refl _)⟩
  | create a fd fds w pc made =>
    simp only [Host.fdRank, pc, List.length_append, List.length_cons, List.length_nil,
      HostAct.isLoop, Bool.toNat_true]
    refine ⟨hi, by omega, ?_⟩
    split <;> split <;> omega
  | load pc =>
    refine ⟨hi, id, ?_⟩
    rw [pc] at hlen
    cases hflag : h.hasPendingFds with
    | false =>
      rw [hh.empty hflag] at hlen
      exact Or.inl (Nat.lt_of_lt_of_eq hi hlen)
    | true => exact Or.inr (by simp [Host.fdRank, pc, HostAct.isLoop])
  | swap pc =>
    have hin : i < h.created.length + h.pendingFds.length := by
      rw [pc] at hlen
      exact Nat.lt_of_lt_of_eq hi hlen
    exact ⟨hi, id, Or.inr (by simp [Host.fdRank, pc, hin, HostAct.isLoop])⟩
  | created pc =>
    refine ⟨hi, id, ?_⟩
    simp only [Host.fdRank, pc, List.length_nil, Nat.add_zero, HostAct.isLoop, Bool.toNat_true]
    split <;> omega
  | reap w pc swept => exact ⟨hi, id, Or.inr (by simp [Host.fdRank, pc, HostAct.isLoop])⟩
  | polled positive pc idle =>
    refine ⟨hi, id, Or.inr ?_⟩
    cases positive <;> simp [Host.fdRank, pc, HostAct.isLoop]
  | drain pc => exact ⟨hi, id, Or.inr (by simp [Host.fdRank, pc, HostAct.isLoop])⟩

/-- **One step of the loop brings a reported session nearer to its end**, unless another fd was
    dispatched. -/
theorem Turn.listRank {act : HostAct E.config.channels} (ht : h.Turn E act h')
    (hh : h.Handed E) {k : Nat} (hk : k ∈ h.reported) :
    k ∈ h'.reported ∧ (k ∈ h.erased → k ∈ h'.erased) ∧
      (k ∈ h'.erased ∨ listRank h' + act.isLoop.toNat ≤ listRank h + act.isDispatch.toNat) := by
  have hlen := hh.length_dispatched
  cases ht with
  | dispatch fd =>
    refine ⟨hk, id, Or.inr ?_⟩
    simp only [Host.listRank, List.length_append, List.length_singleton, HostAct.isLoop,
      HostAct.isDispatch, Bool.toNat_true, Bool.toNat_false]
    omega
  | notify j waiting => exact ⟨hk, id, Or.inr (Nat.le_refl _)⟩
  | coroutine act w pc other moved =>
    exact ⟨List.mem_append_left _ hk, id, Or.inr (Nat.le_refl _)⟩
  | create a fd fds w pc made =>
    refine ⟨hk, id, Or.inr ?_⟩
    rw [pc] at hlen
    simp only [LoopPc.taken, List.length_cons] at hlen
    simp only [Host.listRank, pc, List.length_append, List.length_singleton, HostAct.isLoop,
      HostAct.isDispatch, Bool.toNat_true, Bool.toNat_false]
    omega
  | load pc =>
    refine ⟨hk, id, Or.inr ?_⟩
    cases hflag : h.hasPendingFds <;>
      simp [Host.listRank, pc, HostAct.isLoop, HostAct.isDispatch]
  | swap pc =>
    exact ⟨hk, id, Or.inr (by simp [Host.listRank, pc, HostAct.isLoop, HostAct.isDispatch])⟩
  | created pc =>
    exact ⟨hk, id, Or.inr (by simp [Host.listRank, pc, HostAct.isLoop, HostAct.isDispatch])⟩
  | reap w pc swept =>
    have hgone : k ∈ h.erased ++ h.worker.uids h.worker.finished := hh.census.reports ▸ hk
    exact ⟨hk, List.mem_append_left _, Or.inl hgone⟩
  | polled positive pc idle =>
    refine ⟨hk, id, Or.inr ?_⟩
    cases positive <;> simp [Host.listRank, pc, HostAct.isLoop, HostAct.isDispatch]
  | drain pc =>
    exact ⟨hk, id, Or.inr (by simp [Host.listRank, pc, HostAct.isLoop, HostAct.isDispatch])⟩

/-- **Each step of the loop brings a connection nearer to its session.** -/
theorem in_time (hr : (machine E).Reachable h) {i : Nat} (hi : i < h.dispatched.length)
    {acts : List (HostAct E.config.channels)}
    (hrun : (machine E).run h acts = some h') :
    i < h'.created.length ∨ fdRank i h' + acts.countP HostAct.isLoop ≤ fdRank i h := by
  have hranked : i < h'.created.length ∨
      fdRank i h' + acts.countP HostAct.isLoop ≤ fdRank i h + acts.countP fun _ => false := by
    refine hr.ranked (I := fun h => i < h.dispatched.length) (D := fun h => i < h.created.length)
      (fun h act h' hreach hi hs => ?_) hi hrun
    exact (step_turn hs).fdRank (handed_reachable hreach) hi
  simpa using hranked

/-- **Each step of the loop brings a session that reported nearer to its end**; a dispatch may put
    one step more before it. -/
theorem erased_in_time (hr : (machine E).Reachable h) {k : Nat} (hk : k ∈ h.reported)
    {acts : List (HostAct E.config.channels)}
    (hrun : (machine E).run h acts = some h') :
    k ∈ h'.erased ∨ listRank h' + acts.countP HostAct.isLoop ≤
      listRank h + acts.countP HostAct.isDispatch := by
  refine hr.ranked (I := fun h => k ∈ h.reported) (D := fun h => k ∈ h.erased)
    (fun h act h' hreach hk hs => ?_) hk hrun
  exact (step_turn hs).listRank (handed_reachable hreach) hk

/-- The steps until a connection has its session, at most. -/
theorem fdRank_bounds {n : Nat} (i : Nat) (h : Host n) :
    0 < fdRank i h ∧ fdRank i h ≤ i - h.created.length + 7 := by
  unfold Host.fdRank
  cases h.pc with
  | creating fds =>
    dsimp only
    split <;> omega
  | _ => exact ⟨by dsimp only; omega, by dsimp only; omega⟩

theorem listRank_bounds {n : Nat} (h : Host n) :
    0 < listRank h ∧ listRank h ≤ h.dispatched.length - h.created.length + 6 := by
  unfold Host.listRank
  cases h.pc <;> exact ⟨by dsimp only; omega, by dsimp only; omega⟩

/-- The loop can go on unless it waits for the notifier or for its turn. -/
theorem Handed.ready (hh : h.Handed E)
    (hgo : h.pc = .polling → h.readable = true ∧ h.worker.idle = true) :
    ∃ act, act.isLoop = true ∧ (h.step E act).isSome = true := by
  cases hpc : h.pc with
  | load => exact ⟨.load, rfl, by simp [step, hpc]⟩
  | swap => exact ⟨.swap, rfl, by simp [step, hpc]⟩
  | creating fds =>
    cases fds with
    | nil => exact ⟨.created, rfl, by simp [step, hpc]⟩
    | cons fd fds =>
      obtain ⟨a, ha⟩ := hh.census.room
      have hidle : h.worker.idle = true := hh.idle (by simp [hpc])
      refine ⟨.create a, rfl, ?_⟩
      simp [step, hpc, Worker.step, Worker.resume, hidle, ha a (Nat.le_refl a)]
  | sessions =>
    have hidle : h.worker.idle = true := hh.idle (by simp [hpc])
    exact ⟨.reap, rfl, by simp [step, hpc, Worker.step, Worker.resume, hidle]⟩
  | polling => exact ⟨.polled true, rfl, by simp [step, hpc, (hgo hpc).2]⟩
  | draining => exact ⟨.drain, rfl, by simp [step, hpc]⟩

end Handed

/-! ## 6. The result -/

/-- **Connections are handed over, and sessions are let go, each once and in order.** The fds
    dispatched are those sessions were made for, those in the loop's deque and those in the queue,
    in this order; the session with number `k` is the one made for the fd of the `k`th call. A
    session is alive exactly until it is erased; it is erased once, after it was reported once, and
    nobody else is. When the loop is suspended and the notifier is not readable, no reported
    session waits and every fd in the queue is that of a call which has yet to notify. The flag is
    set whenever the queue is not empty. The loop stops nowhere else; as it goes on, the fd of
    every call gets its session, and every reported session is erased. -/
theorem fds_handed_over {E : Env} {h : Host E.config.channels}
    (hr : (machine E).Reachable h) :
    (h.created ++ h.pc.taken ++ h.pendingFds = h.dispatched ∧
      h.created.length = h.worker.born ∧
      (∀ a s, h.worker.sessions a = some s → s.uid < h.created.length) ∧
      ∀ a b s t, h.worker.sessions a = some s → h.worker.sessions b = some t → s.uid = t.uid →
        a = b) ∧
    (h.reported = h.erased ++ h.worker.uids h.worker.finished ∧ h.reported.Nodup ∧
      ∀ k, k < h.created.length →
        (k ∉ h.erased ↔ ∃ a s, h.worker.sessions a = some s ∧ s.uid = k)) ∧
    (h.pc = .polling → h.readable = false → h.worker.finished = [] ∧
      ∀ i, h.dispatched.length - h.pendingFds.length ≤ i → i < h.dispatched.length →
        i ∈ h.unnotified) ∧
    (h.pendingFds ≠ [] → h.hasPendingFds = true) ∧
    ((h.pc = .polling → h.readable = true ∧ h.worker.idle = true) →
      ∃ act, act.isLoop = true ∧ (h.step E act).isSome = true) ∧
    ∀ acts h', (machine E).run h acts = some h' →
      (∀ i, i < h.dispatched.length →
        i - h.created.length + 7 ≤ acts.countP HostAct.isLoop → i < h'.created.length) ∧
      ∀ k ∈ h.reported, h.dispatched.length - h.created.length + 6 +
        acts.countP HostAct.isDispatch ≤ acts.countP HostAct.isLoop → k ∈ h'.erased := by
  have hh := handed_reachable hr
  refine ⟨⟨hh.order, hh.made, fun a s hs => hh.made ▸ (hh.census.numbered a s hs).1,
    hh.census.alone⟩, ⟨hh.census.reports, hh.census.once, fun k hk => ⟨fun hne => ?_, ?_⟩⟩,
    fun hpc hn => ⟨hh.settled hpc hn, fun i hle hlt => ?_⟩, hh.flag, hh.ready,
    fun acts h' hrun => ⟨fun i hi hsteps => ?_, fun k hk hsteps => ?_⟩⟩
  · exact hh.census.alive k (hh.made ▸ hk) hne
  · intro ⟨a, s, hs, hu⟩
    exact hu ▸ (hh.census.numbered a s hs).2
  · have hlen := hh.length_dispatched
    rw [hpc] at hlen
    refine hh.woken (by rw [hpc]; rfl) hn i ?_ hlt
    rw [hpc]
    simp only [LoopPc.taken, List.length_nil] at hlen ⊢
    omega
  · rcases in_time hr hi hrun with hmade | hle
    · exact hmade
    · have hpos := (fdRank_bounds i h').1
      have hbound := (fdRank_bounds i h).2
      omega
  · rcases erased_in_time hr hk hrun with hgone | hle
    · exact hgone
    · have hpos := (listRank_bounds h').1
      have hbound := (listRank_bounds h).2
      omega

open Worker (parsing pingEnv)

/-- Two connections are dispatched, the second between the load of the flag and the lock; the
    first client closes at once and its session is reported. -/
def twoDispatched : List (HostAct 2) :=
  [.dispatch 5, .load, .dispatch 6, .swap, .create 7, .create 8, .created, .reap,
    .coroutine (.reader 7 parsing), .coroutine (.reader 7 (.read .closed)),
    .coroutine (.reader 7 .none), .coroutine (.writer 7 .none), .coroutine (.writer 7 .none)]

/-- The loop goes on, and a late `notify` arrives. -/
def loopGoesOn : List (HostAct 2) :=
  [.polled true, .notify 0, .drain, .load, .reap, .polled true, .drain]

theorem fds_handed_over_twoDispatched :
    ∃ h h', (machine pingEnv).run (init pingEnv) twoDispatched = some h ∧
      (machine pingEnv).run h loopGoesOn = some h' ∧ h.created = [5, 6] ∧ h.reported = [0] ∧
      0 ∈ h'.erased := by
  have hrun : ((machine pingEnv).run (init pingEnv) twoDispatched).map (fun h =>
      (h.created, h.reported, h.dispatched)) = some ([5, 6], [0], [5, 6]) := by decide +kernel
  have hrun' : ((machine pingEnv).run (init pingEnv) (twoDispatched ++ loopGoesOn)).isSome =
      true := by decide +kernel
  obtain ⟨h, hh, hval⟩ := Option.map_eq_some_iff.mp hrun
  obtain ⟨hcreated, hval⟩ := Prod.mk.inj hval
  obtain ⟨hreported, hdispatched⟩ := Prod.mk.inj hval
  obtain ⟨h', hh'⟩ := Option.isSome_iff_exists.mp hrun'
  obtain ⟨h₁, hh₁, hrest⟩ := Machine.run_append.mp hh'
  obtain rfl : h = h₁ := Option.some.inj (hh.symm.trans hh₁)
  obtain ⟨_, _, _, _, _, hsoon⟩ := fds_handed_over (Machine.reachable_of_run hh)
  refine ⟨h, h', hh, hrest, hcreated, hreported, (hsoon loopGoesOn h' hrest).2 0 ?_ ?_⟩
  · rw [hreported]
    exact List.mem_cons_self
  · rw [hcreated, hdispatched]
    decide

end Host

end RedisProxy
