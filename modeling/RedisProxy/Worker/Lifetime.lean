/-
  File:      RedisProxy/Worker/Lifetime.lean
  Subject:   A SESSION ENDS ONCE AND LEAVES NOTHING BEHIND.

  Owners are addresses, and addresses are used again. `Gone a` says that no session lives at `a`
  or that it has called `on_finished_`; from then on no channel names `a` or calls it, and
  whatever happens to a session made there later is about batches submitted after that moment
  (`Since`). A batch is numbered by the length of its channel's history when it was submitted.
-/
import RedisProxy.Worker.Accounts

namespace RedisProxy

open Lib

namespace Worker

variable {n : Nat}

/-! ## 1. A step of a session -/

/-- A step leaves the session the same one and moves it forward. -/
theorem Move.onward {E : Env} {w w' : Worker n} {act : WorkerAct n} (hm : w.Move E act w')
    {a : Owner} {s s' : ClientSession n} (hs : w.sessions a = some s) (hs' : w'.sessions a = some s') :
    ∃ k, ClientSession.Onward s s' k := by
  have hold : ∀ {s'}, w.sessions a = some s' → ∃ k, ClientSession.Onward s s' k := by
    intro s' h
    rw [hs] at h
    cases h
    exact ⟨0, .refl s⟩
  cases hm with
  | channel c ch' step alone => exact hold hs'
  | session b t x idle live step =>
    rcases update_live hs' with ⟨rfl, rfl⟩ | ⟨_, h⟩
    · rw [hs] at live
      cases live
      rcases step with ⟨io, _, hx⟩ | ⟨io, _, hx⟩
      · exact ⟨_, (ClientSession.readerStep_onward hx).1⟩
      · exact ⟨_, (ClientSession.writerStep_onward hx).1⟩
    · exact hold h
  | replied c b reply fs t frames live =>
    rcases update_live hs' with ⟨rfl, rfl⟩ | ⟨_, h⟩
    · rw [hs] at live
      cases live
      exact ⟨0, ClientSession.onward_onBackendReply s reply⟩
    · exact hold h
  | told c b fs t frames live alone =>
    rcases update_live hs' with ⟨rfl, rfl⟩ | ⟨_, h⟩
    · rw [hs] at live
      cases live
      exact ⟨0, ClientSession.onward_abort s a w.pool⟩
    · exact hold h
  | accept b idle free =>
    rcases update_live hs' with ⟨rfl, _⟩ | ⟨_, h⟩
    · rw [hs] at free
      cases free
    · exact hold h
  | reap idle =>
    simp only at hs'
    split at hs'
    · cases hs'
    · exact hold hs'

/-! ## 2. Nothing is left behind -/

/-- No session lives at `a`, or it has called `on_finished_`. -/
def Gone (w : Worker n) (a : Owner) : Prop := ∀ s, w.sessions a = some s → s.finishCalls = 1

theorem Kept.due_gone {E : Env} {w : Worker n} (h : w.Kept E) {a : Owner} (hg : w.Gone a)
    (c : Fin n) : w.due c a = [] := by
  cases hs : w.sessions a with
  | none => simp only [due, hs]
  | some s => exact h.due_finished ((h.reported a).mpr ⟨s, hs, hg s hs⟩) c

/-- **What is due to `a` was submitted since `w₀`.** -/
structure Since (w₀ : Worker n) (a : Owner) (w : Worker n) : Prop where
  history : ∀ c, (w₀.pool c).trace <:+ (w.pool c).trace
  fresh : ∀ c, ∀ x ∈ w.due c a, (w₀.pool c).trace.length ≤ x.id

section Since

variable {E : Env} {w₀ w w' : Worker n} {act : WorkerAct n} {a : Owner}

/-- A step of a session: the history of a channel grows by what it does there, and what becomes
    due is numbered by its length. -/
theorem touch_since {s s' : ClientSession n} {p p' : BackendPool n}
    (ht : ClientSession.Touch a s p s' p') (c : Fin n) :
    (p c).trace <:+ (p' c).trace ∧
      ∀ x ∈ s'.due c, x ∈ s.due c ∨ (p c).trace.length ≤ x.id := by
  cases ht with
  | quiet due => exact ⟨List.suffix_refl _, fun x hx => Or.inl (due c ▸ hx)⟩
  | left due =>
    refine ⟨List.suffix_cons _ _, fun x hx => ?_⟩
    rw [due c] at hx
    cases hx
  | sent c₁ bytes count ready pos due others =>
    by_cases hc : c = c₁
    · subst hc
      rw [Function.update_self]
      constructor
      · rw [BackendChannel.trace_submit ready a bytes pos]
        exact List.suffix_cons _ _
      · intro x hx
        rw [due] at hx
        rcases List.mem_append.mp hx with hx | hx
        · exact Or.inl hx
        · exact Or.inr (Nat.le_of_eq (mem_commandsOf.mp hx).1.symm)
    · rw [Function.update_of_ne hc]
      exact ⟨List.suffix_refl _, fun x hx => Or.inl (others c hc ▸ hx)⟩

theorem Move.history (hm : w.Move E act w') (hk : w.Kept E) : w.pool.Grows w'.pool := by
  intro c
  cases hm with
  | channel c₁ ch' step alone =>
    by_cases hc : c = c₁
    · subst hc
      simp only [setChannel, Function.update_self]
      exact Line.Steps.history (step.steps (hk.life c))
    · simp only [setChannel, Function.update_of_ne hc]
      exact List.suffix_refl _
  | session b s x idle live step =>
    have ho := hk.orderly b s live
    have ht := hk.tallied b s live
    rcases step with ⟨io, _, hx⟩ | ⟨io, _, hx⟩
    · exact (touch_since (ClientSession.readerStep_touch ho ht hx) c).1
    · exact (touch_since (ClientSession.writerStep_touch ho ht hx) c).1
  | replied c₁ b reply fs s frames live =>
    by_cases hc : c = c₁
    · subst hc
      simp only [setSession, setChannel, Function.update_self]
      exact List.suffix_refl _
    · simp only [setSession, setChannel, Function.update_of_ne hc]
      exact List.suffix_refl _
  | told c₁ b fs s frames live alone =>
    have htouch := (touch_since (ClientSession.abort_touch s b w.pool) c).1
    by_cases hc : c = c₁
    · subst hc
      simp only [setSession, setChannel, Function.update_self]
      exact htouch
    · simp only [setSession, setChannel, Function.update_of_ne hc]
      exact htouch
  | accept b idle free => exact List.suffix_refl _
  | reap idle => exact List.suffix_refl _

/-- What becomes due in a step is numbered by the length of the history. -/
theorem Move.fresh (hm : w.Move E act w') (hk : w.Kept E) (c : Fin n) {x : Command}
    (hx : x ∈ w'.due c a) : x ∈ w.due c a ∨ (w.pool c).trace.length ≤ x.id := by
  cases hm with
  | channel c₁ ch' step alone => exact Or.inl hx
  | session b s y idle live step =>
    rw [due_moved] at hx
    split at hx
    · rename_i hb
      subst hb
      rw [due_of_live live]
      have ho := hk.orderly a s live
      have ht := hk.tallied a s live
      rcases step with ⟨io, _, hy⟩ | ⟨io, _, hy⟩
      · exact (touch_since (ClientSession.readerStep_touch ho ht hy) c).2 x hx
      · exact (touch_since (ClientSession.writerStep_touch ho ht hy) c).2 x hx
    · exact Or.inl hx
  | replied c₁ b reply fs s frames live =>
    rw [due_setSession] at hx
    split at hx
    · rename_i hb
      subst hb
      rw [(hk.tallied a s live).due_onBackendReply reply c] at hx
      rw [due_of_live live]
      exact Or.inl (List.mem_of_mem_tail hx)
    · exact Or.inl hx
  | told c₁ b fs s frames live alone =>
    rw [due_setSession] at hx
    split at hx
    · rename_i hb
      subst hb
      rw [due_of_live live]
      exact (touch_since (ClientSession.abort_touch s a w.pool) c).2 x hx
    · exact Or.inl hx
  | accept b idle free =>
    have hdue := (w.due_setSession b (.init E w.born) c a).symm ▸ hx
    split at hdue
    · rw [ClientSession.due_of_inflight_nil rfl] at hdue
      cases hdue
    · exact Or.inl hdue
  | reap idle =>
    simp only [due] at hx ⊢
    split at hx
    · cases hx
    · rename_i s hs
      split at hs
      · cases hs
      · rw [hs]
        exact Or.inl hx

theorem Since.move (h : w₀.Since a w) (hm : w.Move E act w') (hk : w.Kept E) : w₀.Since a w' where
  history c := (h.history c).trans (hm.history hk c)
  fresh c x hx := by
    rcases hm.fresh hk c hx with hold | hnew
    · exact h.fresh c x hold
    · exact Nat.le_trans (h.history c).length_le hnew

/-- Entries that name `a` stand for commands due to `a`. -/
theorem Since.entries (h : w₀.Since a w) (hk : w.Kept E) (c : Fin n) :
    (∀ b ∈ (w.pool c).writeQueue, b.owner = a → (w₀.pool c).trace.length ≤ b.id) ∧
      ∀ p ∈ (w.pool c).pendingQueue, p.owner = some a → (w₀.pool c).trace.length ≤ p.id := by
  obtain ⟨_, hb, _⟩ := BackendChannel.ledger_reachable (hk.channels c)
  have hdue : ∀ x ∈ (w.pool c).line.owedTo a, x ∈ w.due c a := (hk.serves c a).owedTo_subset
  constructor
  · rintro b hmem rfl
    have hx : (⟨b.id, 0, b.owner⟩ : Command) ∈ (w.pool c).line.owedTo b.owner :=
      Line.mem_owedTo_of_write hb hmem
    exact h.fresh c _ (hdue _ hx)
  · intro p hmem ho
    have hx : (⟨p.id, p.answered, p.sender⟩ : Command) ∈ (w.pool c).line.owedTo a :=
      Line.mem_owedTo_of_pending hb hmem ho
    exact h.fresh c _ (hdue _ hx)

end Since

/-! ## 3. Every run -/

/-- **A session ends once and leaves nothing behind.** It calls `on_finished_` at most once, when
    both loops have ended and it is no longer open; its state moves forward only, and once it is
    aborted it has nothing to write. When it has called `on_finished_`, and as long as no other
    session lives at its address, no channel names it or calls it. After that all entries that
    name the address, and every command whose reply is delivered there, were submitted since;
    and whoever is called is alive and awaits a reply to a command submitted since. -/
theorem sessions_end {E : Env} {w : Worker E.config.channels}
    (h : (machine E).Reachable w) :
    (∀ a s, w.sessions a = some s →
      s.finishCalls ≤ 1 ∧
      (s.finishCalls = 1 → s.reader = .done ∧ s.writer = .done ∧ s.state ≠ .kOpen) ∧
      (s.state = .kAborted → s.clientOut = [])) ∧
    (∀ act w', w.step E act = some w' → ∀ a s s', w.sessions a = some s →
      w'.sessions a = some s' →
        s'.uid = s.uid ∧ s.finishCalls ≤ s'.finishCalls ∧ s.state.Goes s'.state) ∧
    (∀ a, w.Gone a → ∀ c, ¬ (w.pool c).Names a ∧ ∀ f ∈ (w.pool c).frames, ¬ f.calls a) ∧
    (∀ a, w.Gone a → ∀ acts w', (machine E).run w acts = some w' → ∀ c,
      (∀ b ∈ (w'.pool c).writeQueue, b.owner = a → (w.pool c).trace.length ≤ b.id) ∧
      (∀ p ∈ (w'.pool c).pendingQueue, p.owner = some a → (w.pool c).trace.length ≤ p.id) ∧
      (∀ reply fs, (w'.pool c).frames = .onReply a reply :: fs →
        ∃ x past, (w'.pool c).trace = .replied (w'.pool c).conn reply.bytes (some a) :: past ∧
          nextCommand (w'.pool c).conn past = some x ∧ (w.pool c).trace.length ≤ x.id) ∧
      (∀ f ∈ (w'.pool c).frames, f.calls a → ∃ s x rest, w'.sessions a = some s ∧
        s.finishCalls = 0 ∧ s.currentBackend = some c ∧ s.inflight = x :: rest ∧
        (w.pool c).trace.length ≤ x.command.id)) := by
  have hk := kept_reachable h
  refine ⟨fun a s hs => ?_, fun act w' hstep a s s' hs hs' => ?_, fun a hg c => ?_,
    fun a hg acts w' hrun c => ?_⟩
  · have ho := hk.orderly a s hs
    refine ⟨?_, fun h1 => ?_, ho.quiet⟩
    · rw [ho.finish]
      exact Bool.toNat_le _
    · obtain ⟨hr, hw⟩ := ho.both_done h1
      exact ⟨hr, hw, ho.readerGone (by rw [hr]; rfl)⟩
  · obtain ⟨k, hon⟩ := (step_move hk.single hstep).onward hs hs'
    exact ⟨hon.uid, by rw [hon.finish]; exact Nat.le_add_right _ _, hon.state⟩
  · have hnil := hk.due_gone hg c
    constructor
    · intro hn
      obtain ⟨s, hs, hcur, hne⟩ := hk.names hn
      rw [due_of_live hs, ClientSession.due, if_pos hcur] at hnil
      exact hne (List.map_eq_nil_iff.mp hnil)
    · exact fun f hf hcalls => (hk.serves c a).called ⟨f, hf, hcalls⟩ hnil
  · have hsince : w.Since a w' := by
      refine h.along (I := w.Since a) ⟨fun c => List.suffix_refl _, fun c x hx => ?_⟩
        (fun u act u' hu hI hs => hI.move (step_move (kept_reachable hu).single hs)
          (kept_reachable hu)) hrun
      rw [hk.due_gone hg c] at hx
      cases hx
    have hk' := kept_reachable (h.run hrun)
    obtain ⟨hwrites, hpendings⟩ := hsince.entries hk' c
    refine ⟨hwrites, hpendings, fun reply fs hfr => ?_, fun f hf hcalls => ?_⟩
    · have hsh := hk'.shape c
      rw [hfr] at hsh
      cases hsh
      obtain ⟨x, past, rest, htrace, hnext, hdue⟩ := (hk'.serves c a).answering_of hfr
      have hx : x ∈ w'.due c a := by
        rw [hdue]
        exact List.mem_cons_self
      exact ⟨x, past, htrace, hnext, hsince.fresh c x hx⟩
    · obtain ⟨s, hs⟩ := hk'.callee ⟨f, hf, hcalls⟩
      have hne := (hk'.serves c a).called ⟨f, hf, hcalls⟩
      have hfresh := hsince.fresh c
      rw [due_of_live hs] at hne hfresh
      obtain ⟨hcur, hin⟩ := ClientSession.inflight_of_due hne
      obtain ⟨x, rest, hx⟩ := List.exists_cons_of_ne_nil hin
      refine ⟨s, x, rest, hs, ?_, hcur, hx, ?_⟩
      · have ho := hk'.orderly a s hs
        by_contra hfin
        have h1 : s.finishCalls = 1 := by
          have := Bool.toNat_le (s.reader.ended && s.writer.ended)
          rw [← ho.finish] at this
          omega
        have hnil := hk'.due_finished ((hk'.reported a).mpr ⟨s, hs, h1⟩) c
        rw [due_of_live hs] at hnil
        exact hne hnil
      · refine hfresh x.command ?_
        rw [ClientSession.due, if_pos hcur, hx]
        exact List.mem_cons_self

/-- Session 7 sends a command and closes its side, takes the reply and finishes. -/
def oneSession : List (WorkerAct 2) :=
  connecting ++ [.accept 7,
    .reader 7 parsing, .reader 7 (.read (.data ping)), .reader 7 parsing] ++
  writing 14 ++ [.reader 7 (.read .closed), .reader 7 .none] ++
  receiving pong ++ [.callback channel0,
    .writer 7 .none, .writer 7 (.write (some (.wrote 7))), .writer 7 (.write none),
    .writer 7 .none, .writer 7 .none]

/-- Another session is made at the address and is in the callback of its own reply. -/
def anotherSession : List (WorkerAct 2) :=
  [.reap, .accept 7, .reader 7 parsing, .reader 7 (.read (.data ping)), .reader 7 parsing] ++
  writing 14 ++ [.read channel0 0 (.parse fun _ => true)] ++ receiving pong

theorem sessions_end_anotherSession :
    ∃ w w', (machine pingEnv).run (init pingEnv) oneSession = some w ∧
      (machine pingEnv).run w anotherSession = some w' ∧ w.Gone 7 ∧ ¬ (w.pool channel0).Names 7 ∧
      ∃ s x rest, w'.sessions 7 = some s ∧ s.inflight = x :: rest ∧
        (w.pool channel0).trace.length ≤ x.command.id := by
  have hrun : ((machine pingEnv).run (init pingEnv) oneSession).map (fun w =>
      (w.sessions 7).map fun s => s.finishCalls) = some (some 1) := by decide +kernel
  have hrun' : ((machine pingEnv).run (init pingEnv) (oneSession ++ anotherSession)).map (fun w' =>
      (w'.pool channel0).frames.any fun f => match f with
        | .onReply 7 _ => true
        | _ => false) = some true := by decide +kernel
  obtain ⟨w, hw, hval⟩ := Option.map_eq_some_iff.mp hrun
  obtain ⟨w', hw', hcalled⟩ := Option.map_eq_some_iff.mp hrun'
  obtain ⟨w₁, hw₁, hrest⟩ := Machine.run_append.mp hw'
  obtain rfl : w = w₁ := Option.some.inj (hw.symm.trans hw₁)
  have hgone : w.Gone 7 := by
    intro s hs
    rw [hs] at hval
    exact Option.some.inj hval
  obtain ⟨f, hf, hf7⟩ := List.any_eq_true.mp hcalled
  have hcalls : f.calls 7 := by
    split at hf7
    · rfl
    · cases hf7
  obtain ⟨_, _, hleft, hsince⟩ := sessions_end (Machine.reachable_of_run hw)
  obtain ⟨s, x, rest, hs, _, _, hx, hid⟩ :=
    (hsince 7 hgone anotherSession w' hrest channel0).2.2.2 f hf hcalls
  exact ⟨w, w', hw, hrest, hgone, (hleft 7 hgone channel0).1, s, x, rest, hs, hx, hid⟩

end Worker

end RedisProxy
