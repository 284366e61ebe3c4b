/-
  File:      RedisProxy/Worker/Invariant.lean
  Subject:   WHAT EVERY WORKER KEEPS: each channel has to settle with each session exactly what
             that session has in flight there.

  `Kept` joins what the sessions keep by themselves with the service of the channels: for every
  channel and every address, the line of the channel serves exactly the commands the session at
  that address awaits from it, and nobody where there is no session. One lemma for each case of
  a step (section 2).
-/
import RedisProxy.Worker.Moves

namespace RedisProxy

open Lib

namespace Worker

variable {n : Nat}

/-! ## 1. The invariant -/

/-- The commands the session at `a` awaits from channel `c`. -/
def due (w : Worker n) (c : Fin n) (a : Owner) : List Command :=
  match w.sessions a with
  | none => []
  | some s => s.due c

/-- The channels by themselves; in their callbacks sessions only detach themselves. -/
def channelMachine (E : Env) : Machine BackendChannel BackendChannel.Act :=
  BackendChannel.machine E.unpackOne selfCalls E.blockSize E.blockSize_pos

/-- **What every worker keeps.** -/
structure Kept (E : Env) (w : Worker n) : Prop where
  single : w.Single
  channels : ∀ c, (channelMachine E).Reachable (w.pool c)
  orderly : ∀ a s, w.sessions a = some s → s.Orderly
  tallied : ∀ a s, w.sessions a = some s → s.Tallied
  serves : ∀ c a, (w.pool c).line.Serves a (w.due c a)
  reported : ∀ a, a ∈ w.finished ↔ ∃ s, w.sessions a = some s ∧ s.finishCalls = 1
  once : w.finished.Nodup

theorem init_kept (E : Env) : (init E : Worker n).Kept E where
  single _ h := absurd rfl h
  channels c := .start
  orderly a s h := by cases h
  tallied a s h := by cases h
  serves c a := Line.init_serves a
  reported a := by
    constructor
    · intro h
      cases h
    · rintro ⟨s, hs, _⟩
      cases hs
  once := List.nodup_nil

section Kept

variable {E : Env} {w : Worker n}

theorem due_of_live {a : Owner} {s : ClientSession n} (h : w.sessions a = some s) (c : Fin n) :
    w.due c a = s.due c := by
  simp only [due, h]

/-- The sessions after one of them was put in its place again. -/
theorem update_live {f : Owner → Option (ClientSession n)} {a b : Owner} {s s' : ClientSession n}
    (h : Function.update f a (some s) b = some s') : b = a ∧ s' = s ∨ b ≠ a ∧ f b = some s' := by
  by_cases hb : b = a
  · subst hb
    rw [Function.update_self] at h
    exact Or.inl ⟨rfl, (Option.some.inj h).symm⟩
  · rw [Function.update_of_ne hb] at h
    exact Or.inr ⟨hb, h⟩

theorem due_setSession (w : Worker n) (a : Owner) (s : ClientSession n) (c : Fin n) (b : Owner) :
    (w.setSession a s).due c b = if b = a then s.due c else w.due c b := by
  by_cases hb : b = a
  · subst hb
    simp [due, setSession]
  · simp [due, setSession, hb]

theorem due_moved (w : Worker n) (a : Owner) (x : ClientSession n × BackendPool n × Bool)
    (c : Fin n) (b : Owner) :
    (w.moved a x).due c b = if b = a then x.1.due c else w.due c b :=
  w.due_setSession a x.1 c b

theorem Kept.shape (h : w.Kept E) (c : Fin n) : Shape (w.pool c).frames :=
  (BackendChannel.courteous_reachable (h.channels c)).shape

theorem Kept.life (h : w.Kept E) (c : Fin n) : (w.pool c).Life :=
  BackendChannel.life_reachable (h.channels c)

/-- A session that was finished is one both of whose tasks have ended. -/
theorem Kept.ended (h : w.Kept E) {a : Owner} (ha : a ∈ w.finished) :
    ∃ s, w.sessions a = some s ∧ s.reader = .done ∧ s.writer = .done := by
  obtain ⟨s, hs, h1⟩ := (h.reported a).mp ha
  exact ⟨s, hs, (h.orderly a s hs).both_done h1⟩

/-- Nothing is due to a session that was finished. -/
theorem Kept.due_finished (h : w.Kept E) {a : Owner} (ha : a ∈ w.finished) (c : Fin n) :
    w.due c a = [] := by
  obtain ⟨s, hs, _, hw⟩ := h.ended ha
  rw [due_of_live hs]
  refine ClientSession.due_of_inflight_nil ?_ c
  exact (h.orderly a s hs).inflight_nil (h.tallied a s hs) (by rw [hw]; rfl)

/-! ## 2. The cases of a step -/

theorem Kept.channel (h : w.Kept E) {c : Fin n} {ch' : BackendChannel}
    (hs : BackendChannel.OwnStep E.unpackOne (w.pool c) ch')
    (alone : ∀ c', c' ≠ c → (w.pool c').frames = []) : (w.setChannel c ch').Kept E where
  single c₁ h₁ c₂ hne := by
    by_cases hc₂ : c₂ = c
    · have hc₁ : c₁ ≠ c := fun heq => hne (hc₂.trans heq.symm)
      simp only [setChannel, Function.update_of_ne hc₁] at h₁
      exact absurd (alone c₁ hc₁) h₁
    · simp only [setChannel, Function.update_of_ne hc₂]
      exact alone c₂ hc₂
  channels c₁ := by
    by_cases hc : c₁ = c
    · subst hc
      obtain ⟨a, ha⟩ := hs.act selfCalls
      simp only [setChannel, Function.update_self]
      exact (h.channels c₁).next a ha
    · simp only [setChannel, Function.update_of_ne hc]
      exact h.channels c₁
  orderly := h.orderly
  tallied := h.tallied
  serves c₁ a := by
    by_cases hc : c₁ = c
    · subst hc
      obtain ⟨hn, hb, _⟩ := BackendChannel.ledger_reachable (h.channels c₁)
      simp only [setChannel, Function.update_self]
      exact Line.Steps.serves (hs.steps (h.life c₁)) hn hb (h.serves c₁ a)
    · simp only [setChannel, Function.update_of_ne hc]
      exact h.serves c₁ a
  reported := h.reported
  once := h.once

theorem Kept.detached (h : w.Kept E) {c : Fin n} (hidle : (w.pool c).frames = []) (a : Owner) :
    (channelMachine E).Reachable ((w.pool c).detachOwner a) := by
  refine (h.channels c).next (.op (.detachOwner a)) ?_
  simp [channelMachine, BackendChannel.machine, BackendChannel.step, BackendChannel.mayCall, hidle,
    BackendChannel.apply]

/-- A step that calls no `on_finished_`. -/
theorem Kept.reported_setSession (h : w.Kept E) {a : Owner} {s s' : ClientSession n}
    (hs : w.sessions a = some s) (hc : s'.finishCalls = s.finishCalls) (b : Owner) :
    b ∈ w.finished ↔ ∃ s₁, (w.setSession a s').sessions b = some s₁ ∧ s₁.finishCalls = 1 := by
  rw [h.reported b]
  by_cases hb : b = a
  · subst hb
    simp [setSession, hs, hc]
  · simp only [setSession, Function.update_of_ne hb]

/-- A step of session `a` as far as the pool and what is due are concerned. -/
theorem Kept.touch (h : w.Kept E) (hidle : ∀ c, (w.pool c).frames = []) {a : Owner}
    {s s' : ClientSession n} (hs : w.sessions a = some s) {p' : BackendPool n}
    (ht : ClientSession.Touch a s w.pool s' p') :
    (∀ c, (p' c).frames = []) ∧ (∀ c, (channelMachine E).Reachable (p' c)) ∧
      ∀ c b, (p' c).line.Serves b (if b = a then s'.due c else w.due c b) := by
  have hdue := due_of_live hs
  have hown : ∀ c b, (if b = a then s.due c else w.due c b) = w.due c b := by
    intro c b
    split
    · rename_i hb
      rw [hb, hdue]
    · rfl
  cases ht with
  | quiet due =>
    refine ⟨hidle, h.channels, fun c b => ?_⟩
    rw [due, hown]
    exact h.serves c b
  | left due =>
    refine ⟨hidle, fun c => ?_, fun c b => ?_⟩
    · exact h.detached (hidle c) a
    · rw [due]
      have := (h.serves c b).detach (hidle c) a
      rwa [← BackendChannel.line_detachOwner] at this
  | sent c₁ bytes count ready pos due others =>
    refine ⟨fun c => ?_, fun c => ?_, fun c b => ?_⟩
    · by_cases hc : c = c₁
      · subst hc
        rw [Function.update_self, BackendChannel.frames_submit]
        exact hidle c
      · rw [Function.update_of_ne hc]
        exact hidle c
    · by_cases hc : c = c₁
      · subst hc
        rw [Function.update_self]
        refine (h.channels c).next (.op (.submit a bytes count)) ?_
        simp [channelMachine, BackendChannel.machine, BackendChannel.step, BackendChannel.mayCall,
          hidle c, BackendChannel.apply]
      · rw [Function.update_of_ne hc]
        exact h.channels c
    · by_cases hc : c = c₁
      · subst hc
        have hsub := (h.serves c b).submit (hidle c) ready a bytes count
        rw [← BackendChannel.line_submit ready a bytes pos] at hsub
        rw [Function.update_self]
        by_cases hb : b = a
        · subst hb
          rw [if_pos rfl] at hsub ⊢
          rw [due, ← hdue]
          exact hsub
        · rw [if_neg hb, List.append_nil] at hsub
          rw [if_neg hb]
          exact hsub
      · rw [Function.update_of_ne hc, others c hc, hown]
        exact h.serves c b

/-- A step of the coroutines of a session. -/
theorem Kept.session (h : w.Kept E) (hidle : ∀ c, (w.pool c).frames = []) {a : Owner}
    {s : ClientSession n} (hs : w.sessions a = some s) {x : ClientSession n × BackendPool n × Bool}
    {act : WorkerAct n} (hstep : (∃ io, act = .reader a io ∧ s.readerStep E a w.pool io = some x) ∨
      ∃ io, act = .writer a io ∧ s.writerStep E a w.pool io = some x) : (w.moved a x).Kept E := by
  have ho := h.orderly a s hs
  have ht := h.tallied a s hs
  have hafter : x.1.Orderly ∧ x.1.Tallied ∧ ClientSession.Touch a s w.pool x.1 x.2.1 := by
    rcases hstep with ⟨io, _, hx⟩ | ⟨io, _, hx⟩
    · exact ⟨ho.readerStep hx, ht.readerStep hx, ClientSession.readerStep_touch ho ht hx⟩
    · exact ⟨ho.writerStep hx, ht.writerStep hx, ClientSession.writerStep_touch ho ht hx⟩
  have hcalls : x.1.finishCalls = s.finishCalls + x.2.2.toNat ∧ s.finishCalls = 0 := by
    rcases hstep with ⟨io, _, hx⟩ | ⟨io, _, hx⟩
    · obtain ⟨hc, he⟩ := ClientSession.readerStep_onward hx
      refine ⟨hc.finish, ?_⟩
      rw [ho.finish, he]
      rfl
    · obtain ⟨hc, he⟩ := ClientSession.writerStep_onward hx
      refine ⟨hc.finish, ?_⟩
      rw [ho.finish, he, Bool.and_false]
      rfl
  obtain ⟨hno, hnt, htouch⟩ := hafter
  obtain ⟨hcount, hzero⟩ := hcalls
  obtain ⟨hframes, hreach, hserves⟩ := h.touch hidle hs htouch
  -- the session was not on the list before
  have hnew : a ∉ w.finished := by
    intro ha
    obtain ⟨s₁, hs₁, h1⟩ := (h.reported a).mp ha
    rw [hs] at hs₁
    cases hs₁
    rw [hzero] at h1
    cases h1
  refine ⟨fun c _ c' _ => hframes c', hreach, fun b s₁ hb => ?_, fun b s₁ hb => ?_,
    fun c b => ?_, fun b => ?_, ?_⟩
  · rcases update_live hb with ⟨rfl, rfl⟩ | ⟨_, hb⟩
    · exact hno
    · exact h.orderly b s₁ hb
  · rcases update_live hb with ⟨rfl, rfl⟩ | ⟨_, hb⟩
    · exact hnt
    · exact h.tallied b s₁ hb
  · have := hserves c b
    rw [due_moved]
    exact this
  · by_cases hb : b = a
    · subst hb
      simp only [moved, setSession, Function.update_self, Option.some.injEq, exists_eq_left', hcount,
        hzero]
      cases x.2.2 <;> simp [hnew]
    · simp only [moved, setSession, Function.update_of_ne hb]
      rw [← h.reported b]
      split <;> simp [hb]
  · simp only [moved]
    split
    · exact h.once.append (List.nodup_singleton a)
        (List.disjoint_singleton.mpr hnew)
    · exact h.once

/-- A session that a channel calls has commands in flight there. -/
theorem Kept.called (h : w.Kept E) {c : Fin n} {a : Owner} {s : ClientSession n}
    (hs : w.sessions a = some s) (hc : ∃ f ∈ (w.pool c).frames, f.calls a) :
    s.currentBackend = some c ∧ 0 < s.pendingReplies ∧ s.state ≠ .kAborted := by
  have hne : s.due c ≠ [] := by
    rw [← due_of_live hs]
    exact (h.serves c a).called hc
  have ht := h.tallied a s hs
  obtain ⟨hcur, hin⟩ := ClientSession.inflight_of_due hne
  refine ⟨hcur, ?_, fun ha => hin (ht.aborted ha)⟩
  exact Nat.pos_of_ne_zero fun h0 => hin (ht.pending_eq_zero.mp h0)

/-- Who is called is there. -/
theorem Kept.callee (h : w.Kept E) {c : Fin n} {a : Owner}
    (hc : ∃ f ∈ (w.pool c).frames, f.calls a) : ∃ s, w.sessions a = some s := by
  have hdue : w.due c a ≠ [] := (h.serves c a).called hc
  cases hs : w.sessions a with
  | none => exact absurd (by simp only [due, hs]) hdue
  | some s => exact ⟨s, rfl⟩

theorem Kept.replied (h : w.Kept E) {c : Fin n} {a : Owner} {reply : BufferChain}
    {fs : List Frame} {s : ClientSession n} (hfr : (w.pool c).frames = .onReply a reply :: fs)
    (hs : w.sessions a = some s) :
    ((w.setChannel c { w.pool c with frames := fs }).setSession a (s.onBackendReply reply)).Kept E
    := by
  have htop : Frame.onReply a reply ∈ (w.pool c).frames := by
    rw [hfr]
    exact List.mem_cons_self
  obtain ⟨hcur, hpos, hstate⟩ := h.called hs ⟨_, htop, rfl⟩
  obtain rfl : fs = [] := by
    have hsh := h.shape c
    rw [hfr] at hsh
    cases hsh
    rfl
  have hothers : ∀ c', c' ≠ c → (w.pool c').frames = [] :=
    h.single c (by rw [hfr]; exact List.cons_ne_nil _ _)
  have hdue : ∀ c', (s.onBackendReply reply).due c' = (s.due c').tail :=
    fun c' => (h.tallied a s hs).due_onBackendReply reply c'
  refine ⟨fun c₁ h₁ => absurd ?_ h₁, fun c₁ => ?_, fun b s₁ hb => ?_, fun b s₁ hb => ?_,
    fun c₁ b => ?_, fun b => ?_, h.once⟩
  · by_cases hc : c₁ = c
    · subst hc
      simp only [setSession, setChannel, Function.update_self]
    · simp only [setSession, setChannel, Function.update_of_ne hc]
      exact hothers c₁ hc
  · by_cases hc : c₁ = c
    · subst hc
      simp only [setSession, setChannel, Function.update_self]
      refine (h.channels c₁).next .ret ?_
      simp [channelMachine, BackendChannel.machine, BackendChannel.step, BackendChannel.ret, hfr]
    · simp only [setSession, setChannel, Function.update_of_ne hc]
      exact h.channels c₁
  · rcases update_live hb with ⟨rfl, rfl⟩ | ⟨_, hb⟩
    · exact (h.orderly b s hs).onBackendReply hpos hstate reply
    · exact h.orderly b s₁ hb
  · rcases update_live hb with ⟨rfl, rfl⟩ | ⟨_, hb⟩
    · exact (h.tallied b s hs).onBackendReply hpos reply
    · exact h.tallied b s₁ hb
  · rw [due_setSession]
    by_cases hc : c₁ = c
    · subst hc
      have hserves := (h.serves c₁ b).replied hfr
      simp only [setSession, setChannel, Function.update_self]
      by_cases hb : b = a
      · subst hb
        rw [if_pos rfl, due_of_live hs] at hserves
        rw [if_pos rfl, hdue]
        exact hserves
      · rw [if_neg hb] at hserves ⊢
        exact hserves
    · have hserves := h.serves c₁ b
      simp only [setSession, setChannel, Function.update_of_ne hc]
      by_cases hb : b = a
      · subst hb
        have hnil : s.due c₁ = [] := ClientSession.due_of_other hcur hc
        rw [due_of_live hs, hnil] at hserves
        rw [if_pos rfl, hdue, hnil]
        exact hserves
      · rw [if_neg hb]
        exact hserves
  · exact h.reported_setSession hs (rfl : (s.onBackendReply reply).finishCalls = s.finishCalls) b

theorem Kept.told (h : w.Kept E) {c : Fin n} {a : Owner} {fs : List Frame} {s : ClientSession n}
    (hfr : (w.pool c).frames = .onFailure a :: fs) (hs : w.sessions a = some s)
    (alone : ∀ c', c' ≠ c → (w.pool c').frames = []) :
    (({ w with pool := (s.abort a w.pool).2 }.setChannel c
      { (s.abort a w.pool).2 c with frames := fs }).setSession a (s.abort a w.pool).1).Kept E := by
  have htop : Frame.onFailure a ∈ (w.pool c).frames := by
    rw [hfr]
    exact List.mem_cons_self
  obtain ⟨_, _, hstate⟩ := h.called hs ⟨_, htop, rfl⟩
  have habort : s.abort a w.pool = (s.aborted, w.pool.detachOwner a) := if_neg hstate
  rw [habort]
  refine ⟨fun c₁ h₁ c₂ hne => ?_, fun c₁ => ?_, fun b s₁ hb => ?_, fun b s₁ hb => ?_,
    fun c₁ b => ?_, fun b => ?_, h.once⟩
  · by_cases hc₂ : c₂ = c
    · have hc₁ : c₁ ≠ c := fun heq => hne (hc₂.trans heq.symm)
      simp only [setSession, setChannel, Function.update_of_ne hc₁] at h₁
      exact absurd (alone c₁ hc₁) h₁
    · simp only [setSession, setChannel, Function.update_of_ne hc₂]
      exact alone c₂ hc₂
  · by_cases hc : c₁ = c
    · subst hc
      simp only [setSession, setChannel, Function.update_self]
      have hdetached : (channelMachine E).Reachable ((w.pool c₁).detachOwner a) := by
        refine (h.channels c₁).next (.op (.detachOwner a)) ?_
        simp [channelMachine, BackendChannel.machine, BackendChannel.step, BackendChannel.mayCall,
          hfr, selfCalls, BackendChannel.apply]
      refine hdetached.next .ret ?_
      have hfr' := (BackendChannel.frames_detachOwner (w.pool c₁) a).trans hfr
      simp [channelMachine, BackendChannel.machine, BackendChannel.step, BackendChannel.ret, hfr',
        BackendPool.detachOwner]
    · simp only [setSession, setChannel, Function.update_of_ne hc]
      exact h.detached (alone c₁ hc) a
  · rcases update_live hb with ⟨rfl, rfl⟩ | ⟨_, hb⟩
    · exact (h.orderly b s hs).left
    · exact h.orderly b s₁ hb
  · rcases update_live hb with ⟨rfl, rfl⟩ | ⟨_, hb⟩
    · exact .left s
    · exact h.tallied b s₁ hb
  · rw [due_setSession, ClientSession.due_of_inflight_nil (rfl : s.aborted.inflight = []) c₁]
    by_cases hc : c₁ = c
    · subst hc
      simp only [setSession, setChannel, Function.update_self]
      have hserves := (h.serves c₁ b).told hfr (h.shape c₁)
      rw [← BackendChannel.line_detachOwner] at hserves
      exact hserves
    · simp only [setSession, setChannel, Function.update_of_ne hc]
      have hserves := (h.serves c₁ b).detach (alone c₁ hc) a
      rw [← BackendChannel.line_detachOwner] at hserves
      exact hserves
  · exact h.reported_setSession hs (rfl : s.aborted.finishCalls = s.finishCalls) b

theorem Kept.accept (h : w.Kept E) (hidle : ∀ c, (w.pool c).frames = []) {a : Owner}
    (hfree : w.sessions a = none) :
    ({ w.setSession a (.init E w.born) with born := w.born + 1 } : Worker n).Kept E := by
  refine ⟨fun c _ c' _ => hidle c', h.channels, fun b s₁ hb => ?_, fun b s₁ hb => ?_,
    fun c b => ?_, fun b => ?_, h.once⟩
  · rcases update_live hb with ⟨rfl, rfl⟩ | ⟨_, hb⟩
    · exact ClientSession.init_orderly E w.born
    · exact h.orderly b s₁ hb
  · rcases update_live hb with ⟨rfl, rfl⟩ | ⟨_, hb⟩
    · exact ClientSession.init_tallied E w.born
    · exact h.tallied b s₁ hb
  · have hdue : ({ w.setSession a (.init E w.born) with born := w.born + 1 } : Worker n).due c b =
        w.due c b := by
      refine (w.due_setSession a (.init E w.born) c b).trans ?_
      split
      · rename_i hb
        subst hb
        rw [ClientSession.due_of_inflight_nil rfl]
        simp only [due, hfree]
      · rfl
    rw [hdue]
    exact h.serves c b
  · by_cases hb : b = a
    · subst hb
      have hnew : b ∉ w.finished := by
        intro ha
        obtain ⟨s₁, hs₁, _⟩ := (h.reported b).mp ha
        rw [hfree] at hs₁
        cases hs₁
      simp [setSession, hnew, ClientSession.init]
    · simp only [setSession, Function.update_of_ne hb]
      exact h.reported b

theorem Kept.reap (h : w.Kept E) (hidle : ∀ c, (w.pool c).frames = []) :
    ({ w with
      sessions := fun a => if a ∈ w.finished then none else w.sessions a
      finished := [] } : Worker n).Kept E := by
  have live : ∀ {b s₁}, (if b ∈ w.finished then none else w.sessions b) = some s₁ →
      b ∉ w.finished ∧ w.sessions b = some s₁ := by
    intro b s₁ hb
    split at hb
    · cases hb
    · rename_i hnew
      exact ⟨hnew, hb⟩
  refine ⟨fun c _ c' _ => hidle c', h.channels, fun b s₁ hb => h.orderly b s₁ (live hb).2,
    fun b s₁ hb => h.tallied b s₁ (live hb).2, fun c b => ?_, fun b => ?_, List.nodup_nil⟩
  · have hserves := h.serves c b
    by_cases hb : b ∈ w.finished
    · rw [h.due_finished hb] at hserves
      simp only [due, hb, if_true]
      exact hserves
    · simp only [due, hb, if_false]
      exact hserves
  · constructor
    · intro hb
      cases hb
    · rintro ⟨s₁, hb, h1⟩
      obtain ⟨hnew, hb⟩ := live hb
      exact absurd ((h.reported b).mpr ⟨s₁, hb, h1⟩) hnew

/-! ## 3. Every run -/

theorem Move.kept {w' : Worker n} {act : WorkerAct n} (hm : w.Move E act w') (h : w.Kept E) :
    w'.Kept E := by
  cases hm with
  | channel c ch' step alone => exact h.channel step alone
  | session a s x idle live step => exact h.session idle live step
  | replied c a reply fs s frames live => exact h.replied frames live
  | told c a fs s frames live alone => exact h.told frames live alone
  | accept a idle free => exact h.accept idle free
  | reap idle => exact h.reap idle

theorem kept_reachable {w : Worker E.config.channels} (h : (machine E).Reachable w) :
    w.Kept E :=
  h.invariant (I := Kept E) (init_kept E) fun _ _ _ _ hI hs => (step_move hI.single hs).kept hI

end Kept

end Worker

end RedisProxy
