/-
  File:      RedisProxy/Server.lean
  Subject:   THE PROCESS: `ProxyServer::run`, `ProxyServer::acceptLoop` and `main`
             (src/proxy_server.cpp, src/main.cpp), over the workers of Worker/Handoff.lean.

  `ProxyServer` is the vector of workers, each with a thread of its own, and the acceptor that
  deals the accepted connections to them. The acceptor and the workers take their steps in any
  order, also while `run` is still making workers. Every worker of the process is a host by
  itself (`Dealt.hosts`), so what holds of every host holds of each of them.

  * `Dealt` -- the invariant: worker `i` was given the connections at the positions `i`,
    `i + w`, `i + 2 w`, ... of the `w` workers, in order, and `next_worker` is an index;
  * `connections_spread` -- the result, with the bound until a connection has its session;
  * `main_serves` -- which configurations `main` runs the server with.
-/
import RedisProxy.Lib.Dealing
import RedisProxy.Worker.Handoff
import RedisProxy.Config.Load

namespace RedisProxy

open Lib

/-! ## 1. The acceptor and its workers -/

/-- Where `run` and `acceptLoop` stand: in the loop that makes the workers, in `co_accept`, in the
    `co_poll` after a call that failed, before `dispatchFd`, and before the `notify` of it. -/
inductive ServerPc where
  | starting
  | accepting
  | waiting
  | dispatching (fd : Fd)
  | notifying (call : Nat)
  deriving DecidableEq

/-- The connection the acceptor has in its hands. -/
def ServerPc.hand : ServerPc → List Fd
  | .dispatching fd => [fd]
  | _ => []

/-- The number of the `dispatchFd` call that has yet to notify. -/
def ServerPc.call : ServerPc → List Nat
  | .notifying call => [call]
  | _ => []

/-- The workers, the local `next_worker` of the acceptor and, as history, the connections it has
    put on a queue, in order. -/
structure ProxyServer (n : Nat) where
  workers : List (Host n)
  nextWorker : Nat
  pc : ServerPc
  given : List Fd

/-- A step: of `run`, of the acceptor, or of a worker of its own. `accept none` is a `co_accept`
    that failed. -/
inductive ServerAct (n : Nat) where
  | startWorker
  | createAcceptor
  | accept (fd : Option Fd)
  | polled
  | dispatch
  | notify
  | worker (i : Nat) (act : HostAct n)

/-- The two halves of `dispatchFd`, which only the acceptor calls. -/
def HostAct.isAcceptor {n : Nat} : HostAct n → Bool
  | .dispatch _ | .notify _ => true
  | _ => false

/-- A step of the loop of worker `i`. -/
def ServerAct.isLoopOf {n : Nat} (i : Nat) : ServerAct n → Bool
  | .worker j act => j == i && act.isLoop
  | _ => false

/-- The connection a step accepts. -/
def ServerAct.accepted? {n : Nat} : ServerAct n → Option Fd
  | .accept fd => fd
  | _ => none

/-- A step of `run` or of the acceptor. -/
def ServerAct.isOwn {n : Nat} : ServerAct n → Bool
  | .worker _ _ => false
  | _ => true

/-- What the loop and the coroutines of a worker leave to the acceptor. -/
theorem Host.Turn.untouched {E : Env} {h h' : Host E.config.channels}
    {act : HostAct E.config.channels} (ht : h.Turn E act h') (hown : act.isAcceptor = false) :
    h'.dispatched = h.dispatched ∧ h'.unnotified = h.unnotified := by
  cases ht with
  | dispatch fd => cases hown
  | notify i waiting => cases hown
  | _ => exact ⟨rfl, rfl⟩

namespace ProxyServer

variable {n : Nat}

def init : ProxyServer n := ⟨[], 0, .starting, []⟩

/-- The connections accepted, in order. -/
def accepted (s : ProxyServer n) : List Fd := s.given ++ s.pc.hand

def step (E : Env) (s : ProxyServer n) : ServerAct n → Option (ProxyServer n)
  | .startWorker =>
      if s.pc = .starting ∧ (s.workers.length : Int) < E.config.workers then
        some { s with workers := s.workers ++ [.init E] }
      else none
  | .createAcceptor =>
      if s.pc = .starting ∧ ¬ (s.workers.length : Int) < E.config.workers then
        some { s with nextWorker := 0, pc := .accepting }
      else none
  | .accept fd =>
      if s.pc = .accepting then
        some { s with pc := match fd with | none => .waiting | some fd => .dispatching fd }
      else none
  | .polled => if s.pc = .waiting then some { s with pc := .accepting } else none
  | .dispatch =>
      match s.pc with
      | .dispatching fd =>
          (s.workers[s.nextWorker]?).bind fun h => (h.step E (.dispatch fd)).map fun h' =>
            { s with
              workers := s.workers.set s.nextWorker h'
              pc := .notifying h.dispatched.length
              given := s.given ++ [fd] }
      | _ => none
  | .notify =>
      match s.pc with
      | .notifying call =>
          (s.workers[s.nextWorker]?).bind fun h => (h.step E (.notify call)).map fun h' =>
            { s with
              workers := s.workers.set s.nextWorker h'
              nextWorker := (s.nextWorker + 1) % s.workers.length
              pc := .accepting }
      | _ => none
  | .worker i act =>
      if act.isAcceptor then none
      else (s.workers[i]?).bind fun h => (h.step E act).map fun h' =>
        { s with workers := s.workers.set i h' }

/-- **The machine of the process.** -/
def machine (E : Env) : Machine (ProxyServer E.config.channels) (ServerAct E.config.channels) :=
  ⟨init, step E⟩

/-- **The cases of a step.** -/
inductive Turn (E : Env) (s : ProxyServer n) : ServerAct n → ProxyServer n → Prop where
  | startWorker (pc : s.pc = .starting) (more : (s.workers.length : Int) < E.config.workers) :
      Turn E s .startWorker { s with workers := s.workers ++ [.init E] }
  | createAcceptor (pc : s.pc = .starting) (all : ¬ (s.workers.length : Int) < E.config.workers) :
      Turn E s .createAcceptor { s with nextWorker := 0, pc := .accepting }
  | failed (pc : s.pc = .accepting) : Turn E s (.accept none) { s with pc := .waiting }
  | accepted (fd : Fd) (pc : s.pc = .accepting) :
      Turn E s (.accept (some fd)) { s with pc := .dispatching fd }
  | polled (pc : s.pc = .waiting) : Turn E s .polled { s with pc := .accepting }
  | dispatch (fd : Fd) (h h' : Host n) (pc : s.pc = .dispatching fd)
      (next : s.workers[s.nextWorker]? = some h) (put : h.step E (.dispatch fd) = some h') :
      Turn E s .dispatch { s with
        workers := s.workers.set s.nextWorker h'
        pc := .notifying h.dispatched.length
        given := s.given ++ [fd] }
  | notify (call : Nat) (h h' : Host n) (pc : s.pc = .notifying call)
      (next : s.workers[s.nextWorker]? = some h) (told : h.step E (.notify call) = some h') :
      Turn E s .notify { s with
        workers := s.workers.set s.nextWorker h'
        nextWorker := (s.nextWorker + 1) % s.workers.length
        pc := .accepting }
  | worker (i : Nat) (act : HostAct n) (h h' : Host n) (own : act.isAcceptor = false)
      (at_ : s.workers[i]? = some h) (moved : h.step E act = some h') :
      Turn E s (.worker i act) { s with workers := s.workers.set i h' }

theorem step_turn {E : Env} {s s' : ProxyServer n} {act : ServerAct n}
    (hs : s.step E act = some s') : s.Turn E act s' := by
  cases act with
  | startWorker =>
    simp only [step] at hs
    split at hs
    · rename_i hpc
      cases hs
      exact .startWorker hpc.1 hpc.2
    · cases hs
  | createAcceptor =>
    simp only [step] at hs
    split at hs
    · rename_i hpc
      cases hs
      exact .createAcceptor hpc.1 hpc.2
    · cases hs
  | accept fd =>
    simp only [step] at hs
    split at hs
    · rename_i hpc
      cases fd <;> cases hs
      · exact .failed hpc
      · exact .accepted _ hpc
    · cases hs
  | polled =>
    simp only [step] at hs
    split at hs
    · rename_i hpc
      cases hs
      exact .polled hpc
    · cases hs
  | dispatch =>
    simp only [step] at hs
    split at hs
    · rename_i fd hpc
      obtain ⟨h, hnext, hs⟩ := Option.bind_eq_some_iff.mp hs
      obtain ⟨h', hput, rfl⟩ := Option.map_eq_some_iff.mp hs
      exact .dispatch fd h h' hpc hnext hput
    · cases hs
  | notify =>
    simp only [step] at hs
    split at hs
    · rename_i call hpc
      obtain ⟨h, hnext, hs⟩ := Option.bind_eq_some_iff.mp hs
      obtain ⟨h', htold, rfl⟩ := Option.map_eq_some_iff.mp hs
      exact .notify call h h' hpc hnext htold
    · cases hs
  | worker i act =>
    simp only [step] at hs
    split at hs
    · cases hs
    · rename_i hown
      obtain ⟨h, hat, hs⟩ := Option.bind_eq_some_iff.mp hs
      obtain ⟨h', hmoved, rfl⟩ := Option.map_eq_some_iff.mp hs
      exact .worker i act h h' (Bool.eq_false_iff.mpr hown) hat hmoved

/-! ## 2. What every server keeps -/

/-- Who is at place `j` after the host at place `i` moved. -/
theorem getElem?_set_cases {l : List (Host n)} {i j : Nat} {h h' g : Host n}
    (hi : l[i]? = some h) (hj : (l.set i h')[j]? = some g) :
    j = i ∧ g = h' ∨ j ≠ i ∧ l[j]? = some g := by
  by_cases hji : j = i
  · subst hji
    have hlt : j < l.length := (List.getElem?_eq_some_iff.mp hi).1
    rw [List.getElem?_set_self hlt] at hj
    exact Or.inl ⟨rfl, (Option.some.inj hj).symm⟩
  · rw [List.getElem?_set_ne (Ne.symm hji)] at hj
    exact Or.inr ⟨hji, hj⟩

section Dealt

variable {E : Env} {s s' : ProxyServer E.config.channels}

/-- **What every server keeps.** -/
structure Dealt (E : Env) (s : ProxyServer E.config.channels) : Prop where
  hosts : ∀ (i : Nat) h, s.workers[i]? = some h → (Host.machine E).Reachable h
  made : s.workers.length ≤ E.config.workers.toNat
  all : s.pc ≠ .starting → s.workers.length = E.config.workers.toNat
  fresh : s.pc = .starting → s.given = []
  next : s.pc ≠ .starting →
    s.nextWorker = (s.given.length - s.pc.call.length) % s.workers.length
  begun : s.pc.call.length ≤ s.given.length
  lists : ∀ (i : Nat) h, s.workers[i]? = some h → h.dispatched = deal s.workers.length i s.given
  calls : ∀ (i : Nat) h, s.workers[i]? = some h →
    h.unnotified = if i = s.nextWorker then s.pc.call else []

theorem init_dealt (E : Env) : (init : ProxyServer E.config.channels).Dealt E where
  hosts i h hi := by cases hi
  made := Nat.zero_le _
  all h := absurd rfl h
  fresh _ := rfl
  next h := absurd rfl h
  begun := Nat.le_refl _
  lists i h hi := by cases hi
  calls i h hi := by cases hi

/-- Who is among the workers after another one was made. -/
theorem getElem?_snoc_cases {l : List (Host n)} {g h : Host n} {i : Nat}
    (hi : (l ++ [g])[i]? = some h) : l[i]? = some h ∨ h = g := by
  rcases Nat.lt_or_ge i l.length with hlt | hge
  · rw [List.getElem?_append_left hlt] at hi
    exact Or.inl hi
  · rw [List.getElem?_append_right hge] at hi
    exact Or.inr (List.mem_singleton.mp (List.mem_of_getElem? hi))

/-- `run` makes another worker, which has been given nothing yet, like those before it. -/
theorem Dealt.startWorker (hd : s.Dealt E) (pc : s.pc = .starting)
    (more : (s.workers.length : Int) < E.config.workers) :
    ({ s with workers := s.workers ++ [.init E] } : ProxyServer E.config.channels).Dealt E := by
  have hgiven := hd.fresh pc
  refine ⟨fun i h hi => ?_, ?_, fun hne => absurd pc hne, fun _ => hgiven,
    fun hne => absurd pc hne, hd.begun, fun i h hi => ?_, fun i h hi => ?_⟩
  · rcases getElem?_snoc_cases hi with hold | rfl
    · exact hd.hosts i h hold
    · exact .start
  · rw [List.length_append, List.length_singleton]
    omega
  · rw [show (s.given : List Fd) = [] from hgiven, deal_nil]
    rcases getElem?_snoc_cases hi with hold | rfl
    · rw [hd.lists i h hold, hgiven, deal_nil]
    · rfl
  · rw [show s.pc.call = [] by rw [pc]; rfl, ite_self]
    rcases getElem?_snoc_cases hi with hold | rfl
    · rw [hd.calls i h hold, pc]
      exact ite_self _
    · rfl

/-- The acceptor begins with the first worker. -/
theorem Dealt.createAcceptor (hd : s.Dealt E) (pc : s.pc = .starting)
    (all : ¬ (s.workers.length : Int) < E.config.workers) :
    ({ s with nextWorker := 0, pc := .accepting } : ProxyServer E.config.channels).Dealt E := by
  have hgiven := hd.fresh pc
  refine ⟨hd.hosts, hd.made, fun _ => ?_, nofun, fun _ => ?_, Nat.zero_le _, hd.lists,
    fun i h hi => ?_⟩
  · have := hd.made
    show s.workers.length = _
    omega
  · show 0 = s.given.length % s.workers.length
    rw [hgiven]
    exact (Nat.zero_mod _).symm
  · rw [hd.calls i h hi, pc]
    exact (ite_self _).trans (ite_self _).symm

/-- The acceptor goes from one place to another without touching a worker. -/
theorem Dealt.goes (hd : s.Dealt E) {pc : ServerPc} (hrun : s.pc ≠ .starting)
    (hpc : pc ≠ .starting) (hcall : s.pc.call = pc.call) :
    ({ s with pc := pc } : ProxyServer E.config.channels).Dealt E :=
  ⟨hd.hosts, hd.made, fun _ => hd.all hrun, fun h => absurd h hpc, fun _ => hcall ▸ hd.next hrun,
    hcall ▸ hd.begun, hd.lists, hcall ▸ hd.calls⟩

/-- One host moves: each worker is still a host by itself. -/
theorem Dealt.hosts_set (hd : s.Dealt E) {i : Nat} {h h' : Host E.config.channels}
    {act : HostAct E.config.channels} (hi : s.workers[i]? = some h)
    (hs : h.step E act = some h') (j : Nat) (g : Host E.config.channels)
    (hj : (s.workers.set i h')[j]? = some g) : (Host.machine E).Reachable g := by
  rcases getElem?_set_cases hi hj with ⟨_, rfl⟩ | ⟨_, hold⟩
  · exact (hd.hosts i h hi).next act hs
  · exact hd.hosts j g hold

/-- The first half of `dispatchFd`: the connection goes to the worker whose turn it is. -/
theorem Dealt.dispatch (hd : s.Dealt E) {fd : Fd} {h h' : Host E.config.channels}
    (pc : s.pc = .dispatching fd) (next : s.workers[s.nextWorker]? = some h)
    (put : h.step E (.dispatch fd) = some h') :
    ({ s with
      workers := s.workers.set s.nextWorker h'
      pc := .notifying h.dispatched.length
      given := s.given ++ [fd] } : ProxyServer E.config.channels).Dealt E := by
  have hrun : s.pc ≠ .starting := by rw [pc]; nofun
  have hturn : s.nextWorker = s.given.length % s.workers.length := by
    have hnext := hd.next hrun
    rwa [pc] at hnext
  have hcalls : ∀ (i : Nat) g, s.workers[i]? = some g → g.unnotified = [] := by
    intro i g hi
    rw [hd.calls i g hi, pc]
    exact ite_self _
  have hlen : (s.workers.set s.nextWorker h').length = s.workers.length := List.length_set
  refine ⟨hd.hosts_set next put, hlen ▸ hd.made, fun _ => hlen.trans (hd.all hrun), nofun,
    fun _ => ?_, ?_, fun i g hi => ?_, fun i g hi => ?_⟩
  · simp only [List.length_set, List.length_append, ServerPc.call, List.length_singleton,
      Nat.add_sub_cancel]
    exact hturn
  · simp only [List.length_append, ServerPc.call, List.length_singleton]
    exact Nat.le_add_left 1 _
  · rw [hlen]
    cases put
    rcases getElem?_set_cases next hi with ⟨rfl, rfl⟩ | ⟨hne, hold⟩
    · rw [deal_snoc_self _ _ hturn.symm, ← hd.lists _ h next]
    · rw [deal_snoc_of_ne _ _ (fun heq => hne (heq.symm.trans hturn.symm)), hd.lists i g hold]
  · cases put
    rcases getElem?_set_cases next hi with ⟨rfl, rfl⟩ | ⟨hne, hold⟩
    · rw [if_pos rfl]
      show h.unnotified ++ [h.dispatched.length] = [h.dispatched.length]
      rw [hcalls _ h next, List.nil_append]
    · rw [if_neg hne]
      exact hcalls i g hold

/-- The second half of `dispatchFd`, after which it is the next worker's turn. -/
theorem Dealt.notify (hd : s.Dealt E) {call : Nat} {h h' : Host E.config.channels}
    (pc : s.pc = .notifying call) (next : s.workers[s.nextWorker]? = some h)
    (told : h.step E (.notify call) = some h') :
    ({ s with
      workers := s.workers.set s.nextWorker h'
      nextWorker := (s.nextWorker + 1) % s.workers.length
      pc := .accepting } : ProxyServer E.config.channels).Dealt E := by
  have hrun : s.pc ≠ .starting := by rw [pc]; nofun
  have hlen : (s.workers.set s.nextWorker h').length = s.workers.length := List.length_set
  have hbegun := hd.begun
  have hturn := hd.next hrun
  rw [pc] at hbegun hturn
  have hcall := hd.calls _ h next
  rw [if_pos rfl, pc] at hcall
  refine ⟨hd.hosts_set next told, hlen ▸ hd.made, fun _ => hlen.trans (hd.all hrun), nofun,
    fun _ => ?_, Nat.zero_le _, fun i g hi => ?_, fun i g hi => ?_⟩
  · have hsucc : s.given.length - 1 + 1 = s.given.length := Nat.sub_add_cancel hbegun
    show (s.nextWorker + 1) % s.workers.length = (s.given.length - 0) % _
    rw [hlen, hturn, Nat.mod_add_mod, ServerPc.call, List.length_singleton, hsucc, Nat.sub_zero]
  · rw [hlen]
    cases Host.step_turn told
    rcases getElem?_set_cases next hi with ⟨rfl, rfl⟩ | ⟨_, hold⟩
    · exact hd.lists _ h next
    · exact hd.lists i g hold
  · refine Eq.trans ?_ (ite_self _).symm
    cases Host.step_turn told
    rcases getElem?_set_cases next hi with ⟨_, rfl⟩ | ⟨hne, hold⟩
    · show h.unnotified.erase call = []
      rw [hcall, ServerPc.call, List.erase_cons_head]
    · rw [hd.calls i g hold, if_neg hne]
      rfl

/-- A worker moves by itself. -/
theorem Dealt.worker (hd : s.Dealt E) {i : Nat} {act : HostAct E.config.channels}
    {h h' : Host E.config.channels} (own : act.isAcceptor = false)
    (at_ : s.workers[i]? = some h) (moved : h.step E act = some h') :
    ({ s with workers := s.workers.set i h' } : ProxyServer E.config.channels).Dealt E := by
  have hlen : (s.workers.set i h').length = s.workers.length := List.length_set
  have hsame := (Host.step_turn moved).untouched own
  refine ⟨hd.hosts_set at_ moved, hlen ▸ hd.made, fun hrun => hlen.trans (hd.all hrun), hd.fresh,
    fun hrun => hlen.symm ▸ hd.next hrun, hd.begun, fun j g hj => ?_, fun j g hj => ?_⟩
  · rw [hlen]
    rcases getElem?_set_cases at_ hj with ⟨rfl, rfl⟩ | ⟨_, hold⟩
    · rw [hsame.1, hd.lists _ h at_]
    · exact hd.lists j g hold
  · rcases getElem?_set_cases at_ hj with ⟨rfl, rfl⟩ | ⟨_, hold⟩
    · rw [hsame.2, hd.calls _ h at_]
    · exact hd.calls j g hold

/-- **A step keeps it.** -/
theorem Turn.dealt {act : ServerAct E.config.channels} (ht : s.Turn E act s') (hd : s.Dealt E) :
    s'.Dealt E := by
  cases ht with
  | startWorker pc more => exact hd.startWorker pc more
  | createAcceptor pc all => exact hd.createAcceptor pc all
  | failed pc => exact hd.goes (by rw [pc]; nofun) nofun (by rw [pc]; rfl)
  | accepted fd pc => exact hd.goes (by rw [pc]; nofun) nofun (by rw [pc]; rfl)
  | polled pc => exact hd.goes (by rw [pc]; nofun) nofun (by rw [pc]; rfl)
  | dispatch fd h h' pc next put => exact hd.dispatch pc next put
  | notify call h h' pc next told => exact hd.notify pc next told
  | worker i act h h' own at_ moved => exact hd.worker own at_ moved

theorem dealt_reachable (hr : (machine E).Reachable s) : s.Dealt E :=
  hr.invariant (I := Dealt E) (init_dealt E) fun _ _ _ _ hd hs => (step_turn hs).dealt hd

/-- A connection is accepted by `co_accept`, and nothing else changes what was. -/
theorem Turn.accepts {act : ServerAct E.config.channels} (ht : s.Turn E act s') :
    s'.accepted = s.accepted ++ act.accepted?.toList := by
  cases ht with
  | startWorker | worker => exact (List.append_nil _).symm
  | createAcceptor pc | failed pc | accepted fd pc | polled pc | dispatch fd h h' pc
  | notify call h h' pc =>
    simp [ProxyServer.accepted, pc, ServerPc.hand, ServerAct.accepted?]

theorem accepted_run {acts : List (ServerAct E.config.channels)}
    (hrun : (machine E).run s acts = some s') :
    s'.accepted = s.accepted ++ acts.filterMap ServerAct.accepted? := by
  induction acts generalizing s with
  | nil =>
    cases hrun
    exact (List.append_nil _).symm
  | cons act acts ih =>
    obtain ⟨t, hs, hrest⟩ := Machine.run_cons.mp hrun
    rw [ih hrest, (step_turn hs).accepts, List.append_assoc]
    cases hact : act.accepted? <;> simp [hact]

/-- The accepted connections are dealt in turn; the one in the acceptor's hands is for the worker
    whose turn it is. -/
theorem Dealt.accepted_lists (hd : s.Dealt E) {i : Nat} {h : Host E.config.channels}
    (hi : s.workers[i]? = some h) :
    (h.dispatched ++ if i = s.nextWorker then s.pc.hand else []) =
      deal s.workers.length i s.accepted := by
  rw [hd.lists i h hi, accepted]
  cases hpc : s.pc with
  | dispatching fd =>
    have hturn : s.nextWorker = s.given.length % s.workers.length := by
      have hnext := hd.next (by rw [hpc]; nofun)
      rwa [hpc] at hnext
    by_cases hmine : i = s.nextWorker
    · rw [if_pos hmine, ServerPc.hand, deal_snoc_self _ _ (hturn.symm.trans hmine.symm)]
    · rw [if_neg hmine, ServerPc.hand,
        deal_snoc_of_ne _ _ fun heq => hmine (heq.symm.trans hturn.symm), List.append_nil]
  | starting | accepting | waiting | notifying call =>
    rw [ServerPc.hand, ite_self, List.append_nil, List.append_nil]
    nofun

/-! ## 3. How long it takes -/

/-- **What a step of the process is to one worker**: nothing, or a step of its own machine. -/
theorem Turn.host {act : ServerAct E.config.channels} (ht : s.Turn E act s') {i : Nat}
    {h : Host E.config.channels} (hi : s.workers[i]? = some h) :
    ∃ h', s'.workers[i]? = some h' ∧
      (h' = h ∧ act.isLoopOf i = false ∨
        ∃ a, h.step E a = some h' ∧ act.isLoopOf i = a.isLoop) := by
  have hlt : i < s.workers.length := (List.getElem?_eq_some_iff.mp hi).1
  -- the host at place `j` moved
  have moves : ∀ {j : Nat} {g g' : Host E.config.channels} {a : HostAct E.config.channels},
      s.workers[j]? = some g → g.step E a = some g' → act.isLoopOf i = (j == i && a.isLoop) →
      ∃ h', (s.workers.set j g')[i]? = some h' ∧
        (h' = h ∧ act.isLoopOf i = false ∨
          ∃ a, h.step E a = some h' ∧ act.isLoopOf i = a.isLoop) := by
    intro j g g' a hj hs hloop
    by_cases hji : j = i
    · subst hji
      obtain rfl : h = g := Option.some.inj (hi.symm.trans hj)
      refine ⟨g', List.getElem?_set_self hlt, Or.inr ⟨a, hs, ?_⟩⟩
      rw [hloop, beq_self_eq_true, Bool.true_and]
    · refine ⟨h, (List.getElem?_set_ne hji).trans hi, Or.inl ⟨rfl, ?_⟩⟩
      rw [hloop, beq_false_of_ne hji, Bool.false_and]
  cases ht with
  | startWorker pc more => exact ⟨h, (List.getElem?_append_left hlt).trans hi, Or.inl ⟨rfl, rfl⟩⟩
  | createAcceptor pc all => exact ⟨h, hi, Or.inl ⟨rfl, rfl⟩⟩
  | failed pc => exact ⟨h, hi, Or.inl ⟨rfl, rfl⟩⟩
  | accepted fd pc => exact ⟨h, hi, Or.inl ⟨rfl, rfl⟩⟩
  | polled pc => exact ⟨h, hi, Or.inl ⟨rfl, rfl⟩⟩
  | dispatch fd g g' pc next put => exact moves next put (Bool.and_false _).symm
  | notify call g g' pc next told => exact moves next told (Bool.and_false _).symm
  | worker j a g g' own at_ moved => exact moves at_ moved rfl

/-- A connection that was put on a queue stays where it is in the order. -/
theorem Turn.given {act : ServerAct E.config.channels} (ht : s.Turn E act s') {k : Nat} {fd : Fd}
    (hk : s.given[k]? = some fd) : s'.given[k]? = some fd := by
  cases ht with
  | dispatch fd' h h' pc next put =>
    exact (List.getElem?_append_left (List.getElem?_eq_some_iff.mp hk).1).trans hk
  | _ => exact hk

/-- With a worker at least, `next_worker` is an index. -/
theorem Dealt.next_lt (hd : s.Dealt E) (hW : 0 < E.config.workers) (hrun : s.pc ≠ .starting) :
    s.nextWorker < s.workers.length := by
  rw [hd.next hrun]
  refine Nat.mod_lt _ ?_
  rw [hd.all hrun]
  omega

/-- Connection `k` is the `k / w`th of worker `k % w`. -/
theorem Dealt.place (hd : s.Dealt E) (hW : 0 < E.config.workers) {k : Nat} {fd : Fd}
    (hk : s.given[k]? = some fd) :
    ∃ h, s.workers[k % E.config.workers.toNat]? = some h ∧
      h.dispatched[k / E.config.workers.toNat]? = some fd := by
  have hrun : s.pc ≠ .starting := by
    intro hpc
    rw [hd.fresh hpc] at hk
    cases hk
  rw [← hd.all hrun]
  have hlt : k % s.workers.length < s.workers.length := by
    have := hd.next_lt hW hrun
    exact Nat.mod_lt k (by omega)
  refine ⟨s.workers[k % s.workers.length], List.getElem?_eq_getElem hlt, ?_⟩
  rw [hd.lists _ _ (List.getElem?_eq_getElem hlt), getElem?_deal hlt, Nat.div_add_mod]
  exact hk

/-- The acceptor is never stuck. -/
theorem Dealt.ready (hd : s.Dealt E) (hW : 0 < E.config.workers) :
    ∃ act, act.isOwn = true ∧ (s.step E act).isSome = true := by
  cases hpc : s.pc with
  | starting =>
    by_cases hmore : (s.workers.length : Int) < E.config.workers
    · exact ⟨.startWorker, rfl, by simp [step, hpc, hmore]⟩
    · exact ⟨.createAcceptor, rfl, by simp [step, hpc, hmore]⟩
  | accepting => exact ⟨.accept none, rfl, by simp [step, hpc]⟩
  | waiting => exact ⟨.polled, rfl, by simp [step, hpc]⟩
  | dispatching fd =>
    have hlt := hd.next_lt hW fun h => by rw [hpc] at h; cases h
    exact ⟨.dispatch, rfl, by simp [step, hpc, hlt, Host.step]⟩
  | notifying call =>
    have hlt := hd.next_lt hW fun h => by rw [hpc] at h; cases h
    have hcall := hd.calls _ _ (List.getElem?_eq_getElem hlt)
    rw [if_pos rfl, hpc] at hcall
    exact ⟨.notify, rfl, by simp [step, hpc, hlt, Host.step, hcall, ServerPc.call]⟩

/-- The steps of the loop of worker `i` until it has made its `j`th session. -/
def fdRank (i j : Nat) (s : ProxyServer n) : Nat :=
  match s.workers[i]? with
  | none => 0
  | some h => h.fdRank j

/-- A session was made for the connection `fd`, the `k`th accepted out of `w` workers. -/
def HasSession (w k : Nat) (fd : Fd) (s : ProxyServer n) : Prop :=
  ∃ h, s.workers[k % w]? = some h ∧ h.created[k / w]? = some fd

/-- **One step of the loop of its worker brings a connection nearer to its session.** -/
theorem Turn.fdRank {act : ServerAct E.config.channels} (ht : s.Turn E act s') (hd : s.Dealt E)
    {i j : Nat} {fd : Fd} {h : Host E.config.channels} (hi : s.workers[i]? = some h)
    (hfd : h.dispatched[j]? = some fd) :
    ∃ h', s'.workers[i]? = some h' ∧ (j < h.created.length → j < h'.created.length) ∧
      (j < h'.created.length ∨
        s'.fdRank i j + (act.isLoopOf i).toNat ≤ s.fdRank i j) := by
  obtain ⟨h', hi', hmove⟩ := ht.host hi
  rw [ProxyServer.fdRank, ProxyServer.fdRank, hi, hi']
  refine ⟨h', rfl, ?_⟩
  rcases hmove with ⟨rfl, hloop⟩ | ⟨a, hs, hloop⟩
  · rw [hloop]
    exact ⟨id, Or.inr (Nat.le_refl _)⟩
  · rw [hloop]
    exact ((Host.step_turn hs).fdRank (Host.handed_reachable (hd.hosts i h hi))
      (List.getElem?_eq_some_iff.mp hfd).1).2

/-- The sessions a worker has made are for the first of its connections. -/
theorem Dealt.hasSession_iff (hd : s.Dealt E) (hW : 0 < E.config.workers) {k : Nat} {fd : Fd}
    (hk : s.given[k]? = some fd) :
    s.HasSession E.config.workers.toNat k fd ↔ ∃ h,
      s.workers[k % E.config.workers.toNat]? = some h ∧
        k / E.config.workers.toNat < h.created.length := by
  constructor
  · rintro ⟨h, hi, hmade⟩
    exact ⟨h, hi, (List.getElem?_eq_some_iff.mp hmade).1⟩
  · rintro ⟨h, hi, hlt⟩
    obtain ⟨g, hg, hfd⟩ := hd.place hW hk
    obtain rfl : h = g := Option.some.inj (hi.symm.trans hg)
    refine ⟨h, hi, ?_⟩
    rw [← (Host.handed_reachable (hd.hosts _ h hi)).order, List.append_assoc,
      List.getElem?_append_left hlt] at hfd
    exact hfd

theorem session_in_time (hW : 0 < E.config.workers) (hr : (machine E).Reachable s) {k : Nat}
    {fd : Fd} (hk : s.given[k]? = some fd) {acts : List (ServerAct E.config.channels)}
    (hrun : (machine E).run s acts = some s') :
    s'.HasSession E.config.workers.toNat k fd ∨
      s'.fdRank (k % E.config.workers.toNat) (k / E.config.workers.toNat) +
        acts.countP (ServerAct.isLoopOf (k % E.config.workers.toNat)) ≤
      s.fdRank (k % E.config.workers.toNat) (k / E.config.workers.toNat) := by
  have hranked : s'.HasSession E.config.workers.toNat k fd ∨
      s'.fdRank (k % E.config.workers.toNat) (k / E.config.workers.toNat) +
        acts.countP (ServerAct.isLoopOf (k % E.config.workers.toNat)) ≤
      s.fdRank (k % E.config.workers.toNat) (k / E.config.workers.toNat) +
        acts.countP fun _ => false := by
    refine hr.ranked (I := fun s => s.given[k]? = some fd)
      (D := fun s => s.HasSession E.config.workers.toNat k fd)
      (r := ProxyServer.fdRank (k % E.config.workers.toNat) (k / E.config.workers.toNat))
      (fun s act s' hreach hk hs => ?_) hk hrun
    have hd := dealt_reachable hreach
    have hk' := (step_turn hs).given hk
    obtain ⟨h, hi, hfd⟩ := hd.place hW hk
    obtain ⟨h', hi', hstay, hdown⟩ := (step_turn hs).fdRank hd hi hfd
    have hmade := ((dealt_reachable (hreach.next act hs)).hasSession_iff hW hk').mpr
    refine ⟨hk', fun hold => ?_, hdown.imp_left fun hlt => hmade ⟨h', hi', hlt⟩⟩
    obtain ⟨g, hg, hlt⟩ := (hd.hasSession_iff hW hk).mp hold
    obtain rfl : h = g := Option.some.inj (hi.symm.trans hg)
    exact hmade ⟨h', hi', hstay hlt⟩
  simpa using hranked

end Dealt

/-! ## 4. The result -/

/-- **Connections are dealt to the workers in turn, and each gets its session.** Every worker is a
    host by itself. Once `run` has made its workers, there are as many as configured and
    `next_worker` is the index of one of them; the acceptor is never stuck. The accepted
    connections are those `co_accept` returned, in order. Worker `i` out of `w` was given the
    accepted connections at the positions `w * j + i`, in order and no other (the last one may
    still be in the acceptor's hands, when it is this worker's turn), so no worker is ahead of
    another by more than one, and each of its sessions serves the connection at the position of
    its number. Connection `k`, once it is on the queue, has its session after at most
    `k / w + 7` more steps of the loop of worker `k % w`, whatever the others do meanwhile. -/
theorem connections_spread {E : Env} {s : ProxyServer E.config.channels}
    (hW : 0 < E.config.workers) (hr : (machine E).Reachable s) :
    (∀ (i : Nat) h, s.workers[i]? = some h → (Host.machine E).Reachable h) ∧
    (s.pc ≠ .starting → s.workers.length = E.config.workers.toNat ∧
      s.nextWorker < s.workers.length) ∧
    (∃ act, act.isOwn = true ∧ (s.step E act).isSome = true) ∧
    (∀ acts s', (machine E).run s acts = some s' →
      s'.accepted = s.accepted ++ acts.filterMap ServerAct.accepted?) ∧
    (∀ (i : Nat) h, s.workers[i]? = some h →
      (∀ j, (h.dispatched ++ if i = s.nextWorker then s.pc.hand else [])[j]? =
        s.accepted[s.workers.length * j + i]?) ∧
      (∀ j, h.dispatched[j]? = s.given[s.workers.length * j + i]?) ∧
      (∀ (j : Nat) g, s.workers[j]? = some g →
        h.dispatched.length ≤ g.dispatched.length + 1) ∧
      ∀ a c, h.worker.sessions a = some c →
        ∃ fd, h.created[c.uid]? = some fd ∧
          s.given[s.workers.length * c.uid + i]? = some fd) ∧
    ∀ (k : Nat) fd, s.given[k]? = some fd → ∀ acts s', (machine E).run s acts = some s' →
      k / E.config.workers.toNat + 7 ≤
        acts.countP (ServerAct.isLoopOf (k % E.config.workers.toNat)) →
      s'.HasSession E.config.workers.toNat k fd := by
  have hd := dealt_reachable hr
  refine ⟨hd.hosts, fun hrun => ⟨hd.all hrun, hd.next_lt hW hrun⟩, hd.ready hW,
    fun acts s' => accepted_run, fun i h hi => ?_, fun k fd hk acts s' hrun hsteps => ?_⟩
  · have hlt : i < s.workers.length := (List.getElem?_eq_some_iff.mp hi).1
    have hplace : ∀ j, h.dispatched[j]? = s.given[s.workers.length * j + i]? := by
      intro j
      rw [hd.lists i h hi, getElem?_deal hlt]
    refine ⟨fun j => ?_, hplace, fun j g hj => ?_, fun a c hc => ?_⟩
    · rw [hd.accepted_lists hi, getElem?_deal hlt]
    · rw [hd.lists i h hi, hd.lists j g hj]
      exact length_deal_le hlt (List.getElem?_eq_some_iff.mp hj).1 _
    · have hh := Host.handed_reachable (hd.hosts i h hi)
      have huid : c.uid < h.created.length := hh.made ▸ (hh.census.numbered a c hc).1
      refine ⟨h.created[c.uid], List.getElem?_eq_getElem huid, ?_⟩
      rw [← hplace, ← hh.order, List.append_assoc, List.getElem?_append_left huid,
        List.getElem?_eq_getElem huid]
  · rcases session_in_time hW hr hk hrun with hmade | hle
    · exact hmade
    · -- the rank is positive as long as the worker is there, and it is
      obtain ⟨h, hi, _⟩ := hd.place hW hk
      obtain ⟨h', hi', _⟩ := (dealt_reachable (hr.run hrun)).place hW
        (hr.along (I := fun s => s.given[k]? = some fd) hk
          (fun _ _ _ _ hk hs => (step_turn hs).given hk) hrun)
      rw [fdRank, fdRank, hi, hi'] at hle
      have hpos := (Host.fdRank_bounds (k / E.config.workers.toNat) h').1
      have hbound := (Host.fdRank_bounds (k / E.config.workers.toNat) h).2.trans
        (Nat.add_le_add_right (Nat.sub_le _ _) 7)
      exact absurd ((hle.trans hbound).trans hsteps) (Nat.not_le.mpr (Nat.lt_add_of_pos_left hpos))

/-- Two workers with the rules and limits of the worker's examples. -/
def twoWorkers : Env :=
  { Worker.pingEnv with config := { Worker.pingEnv.config with workers := 2 } }

/-- The acceptor is made after the second worker, deals three connections and meets an error
    between the first and the second. -/
def threeDealt : List (ServerAct 2) :=
  [.startWorker, .worker 0 .load, .startWorker, .createAcceptor, .accept (some 5), .dispatch,
    .worker 0 .reap, .notify, .accept none, .polled, .accept (some 6), .dispatch, .worker 1 .load,
    .notify, .accept (some 7), .dispatch, .notify]

/-- The loop of worker 0 goes on, and another connection comes in. -/
def loopOfFirst : List (ServerAct 2) :=
  [.worker 0 (.polled true), .accept (some 8), .worker 0 .drain, .worker 0 .load, .worker 0 .swap,
    .dispatch, .worker 0 (.create 3), .worker 0 (.create 4), .worker 0 .created, .worker 0 .reap]

theorem connections_spread_threeDealt :
    ∃ s s', (machine twoWorkers).run init threeDealt = some s ∧
      (machine twoWorkers).run s loopOfFirst = some s' ∧ s.given = [5, 6, 7] ∧
      s'.HasSession 2 2 7 ∧ s'.accepted = s.accepted ++ [8] := by
  have hrun : ((machine twoWorkers).run init threeDealt).map (·.given) = some [5, 6, 7] := by
    decide +kernel
  have hrun' : ((machine twoWorkers).run init (threeDealt ++ loopOfFirst)).isSome = true := by
    decide +kernel
  obtain ⟨s, hs, hgiven⟩ := Option.map_eq_some_iff.mp hrun
  obtain ⟨s', hs'⟩ := Option.isSome_iff_exists.mp hrun'
  obtain ⟨s₁, hs₁, hrest⟩ := Machine.run_append.mp hs'
  obtain rfl : s = s₁ := Option.some.inj (hs.symm.trans hs₁)
  obtain ⟨_, _, _, haccepted, _, hsoon⟩ := connections_spread (E := twoWorkers) (by decide)
    (Machine.reachable_of_run hs)
  exact ⟨s, s', hs, hrest, hgiven, hsoon 2 7 (by rw [hgiven]; rfl) loopOfFirst s' hrest (by decide),
    haccepted loopOfFirst s' hrest⟩

end ProxyServer

/-! ## 5. The program -/

/-- How `main` ends before it serves, or the configuration it serves with. -/
inductive Launch where
  | exit (code : Int)
  | serving (config : Config)
  deriving DecidableEq

/-- `ProxyServer::run` up to the loop over the workers; `listens` says on which endpoints
    `CreateTcpListenSocket` succeeds. -/
def ProxyServer.run (listens : Endpoint → Bool) (config : Config) : Launch :=
  if listens config.listen then .serving config else .exit 1

/-- `main`. -/
def main (P : ReadInto Endpoint) (files : Bytes → Option Bytes) (listens : Endpoint → Bool)
    (argv : List Bytes) : Launch :=
  let x := loadConfigFromArgs P files argv {}
  if x.1 then ProxyServer.run listens x.2 else .exit 2

theorem blockBytes_pos : 0 < 32 * 1024 := by decide

/-- What the workers of the process run with: `ProxyServer` has the default rules, and a worker
    makes a pool of blocks of 32 KiB. -/
def processEnv (unpackOne : UnpackOne) (packError : String → Bytes) (config : Config) : Env where
  unpackOne := unpackOne
  packError := packError
  config := config
  rules := .default
  blockSize := 32 * 1024
  blockSize_pos := blockBytes_pos

theorem workers_channels_of_valid {c : Config} (h : validateConfig c = none) :
    0 < c.workers ∧ 1 ≤ c.channels ∧ c.channels ≤ 4 := by
  unfold validateConfig at h
  unfold Config.channels
  split at h
  · cases h
  · split at h
    · cases h
    · omega

/-- **Whatever the command line and the files, a process that serves is in order.** Its
    configuration is the default one with the settings of the arguments and files, in order; it
    passed the check, so each worker has one to four channels and the limits are positive; and in
    every state of the process `next_worker` is an index, the acceptor is not stuck and every
    worker is a host by itself. -/
theorem main_serves {P : ReadInto Endpoint} (hP : Writes P) {files : Bytes → Option Bytes}
    {listens : Endpoint → Bool} {argv : List Bytes} {c : Config}
    (h : main P files listens argv = .serving c) :
    (∃ ss, argSettings P files argv.tail = some ss ∧ c = Config.fields.assign {} ss) ∧
    listens c.listen = true ∧ validateConfig c = none ∧ 1 ≤ c.channels ∧ c.channels ≤ 4 ∧
    0 < c.maxRequestBytes ∧ 0 < c.maxPipelineCommandsPerRead ∧
    ∀ unpackOne packError s,
      (ProxyServer.machine (processEnv unpackOne packError c)).Reachable s →
      (s.pc ≠ .starting → s.workers.length = c.workers.toNat ∧
        s.nextWorker < s.workers.length) ∧
      (∃ act, act.isOwn = true ∧ (s.step (processEnv unpackOne packError c) act).isSome = true) ∧
      ∀ (i : Nat) g, s.workers[i]? = some g →
        (Host.machine (processEnv unpackOne packError c)).Reachable g := by
  unfold main loadConfigFromArgs at h
  dsimp only at h
  cases hload : (loadArgs P files argv.tail {}).1 with
  | false =>
    rw [hload] at h
    cases h
  | true =>
    rw [hload] at h
    obtain ⟨ss, hss, hcfg, hvalid⟩ := loadArgs_true hP argv.tail {} hload
    simp only [if_true, ProxyServer.run, hcfg] at h
    split at h
    · rename_i hlisten
      cases h
      obtain ⟨hworkers, hfirst, hlast⟩ := workers_channels_of_valid hvalid
      obtain ⟨hrequest, hpipeline⟩ := limits_pos_of_valid hvalid
      refine ⟨⟨ss, hss, rfl⟩, hlisten, hvalid, hfirst, hlast, hrequest, hpipeline,
        fun unpackOne packError s hr => ?_⟩
      have hd := ProxyServer.dealt_reachable hr
      exact ⟨fun hrun => ⟨hd.all hrun, hd.next_lt hworkers hrun⟩, hd.ready hworkers, hd.hosts⟩
    · cases h

theorem main_serves_confAndWorkers :
    main hostPort proxyConf (fun _ => true) confAndWorkers =
        .serving { listen := ⟨"0.0.0.0", 7000⟩, workers := 4 } ∧
      validateConfig { listen := ⟨"0.0.0.0", 7000⟩, workers := 4 } = none := by
  have hmain : main hostPort proxyConf (fun _ => true) confAndWorkers =
      .serving { listen := ⟨"0.0.0.0", 7000⟩, workers := 4 } := by decide +kernel
  exact ⟨hmain, (main_serves writes_hostPort hmain).2.2.1⟩

end RedisProxy
