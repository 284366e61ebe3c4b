/-
  File:      RedisProxy/Worker/Ending.lean
  Subject:   A CLOSING SESSION ENDS, whatever else the worker does.

  Nothing that happens in a worker gives a closing session more to do: no channel calls it any more,
  and the steps of the others do not touch it. So the steps of its own two loops use up what
  `remaining` counted (`closing_ends`). Addresses are used again, so a session is told from a later
  one at its address by its number; a number is given once (`numbered_reachable`).
-/
import RedisProxy.Worker.Lifetime
import RedisProxy.Session.Ending

namespace RedisProxy

open Lib

/-- A step of the loops of the session at `a` that is not a system call told to try again. -/
def WorkerAct.isOwnOf {n : Nat} (a : Owner) : WorkerAct n → Bool
  | .reader b io => decide (b = a) && io.progresses
  | .writer b io => decide (b = a) && io.progresses
  | _ => false

/-- A step of a call in progress. -/
def WorkerAct.isCall {n : Nat} : WorkerAct n → Bool
  | .next _ _ | .callback _ | .ret _ => true
  | _ => false

namespace Worker

variable {n : Nat} {E : Env} {w w' : Worker n} {act : WorkerAct n}

/-! ## 1. The numbers of the sessions -/

theorem Move.born_le (hm : w.Move E act w') : w.born ≤ w'.born := by
  cases hm with
  | accept a idle free own => exact Nat.le_succ _
  | _ => exact Nat.le_refl _

/-- A session that was not there before was accepted and has a new number. -/
theorem Move.appears (hm : w.Move E act w') {a : Owner} {s' : ClientSession n}
    (hnone : w.sessions a = none) (hs' : w'.sessions a = some s') :
    act = .accept a ∧ s'.uid = w.born ∧ w'.born = w.born + 1 := by
  have hno : ∀ {f : Owner → Option (ClientSession n)} {b : Owner} {t t' : ClientSession n},
      f a = none → f b = some t → Function.update f b (some t') a ≠ some s' := by
    intro f b t t' hfa hfb hupd
    rcases update_live hupd with ⟨rfl, _⟩ | ⟨_, hold⟩
    · rw [hfa] at hfb
      cases hfb
    · rw [hfa] at hold
      cases hold
  cases hm with
  | channel c ch' step alone =>
    have hs' : w.sessions a = some s' := hs'
    rw [hnone] at hs'
    cases hs'
  | session b t x idle live step => exact absurd hs' (hno hnone live)
  | replied c b reply fs t frames live => exact absurd hs' (hno hnone live)
  | told c b fs t frames live alone => exact absurd hs' (hno hnone live)
  | accept b idle free own =>
    rcases update_live hs' with ⟨rfl, rfl⟩ | ⟨_, hold⟩
    · exact ⟨own, rfl, rfl⟩
    · rw [hnone] at hold
      cases hold
  | reap idle own =>
    simp only at hs'
    split at hs'
    · cases hs'
    · rw [hnone] at hs'
      cases hs'

theorem numbered_reachable {w : Worker E.config.channels} (h : (machine E).Reachable w) :
    ∀ a s, w.sessions a = some s → s.uid < w.born := by
  refine h.invariant (I := fun w => ∀ a s, w.sessions a = some s → s.uid < w.born)
    (fun a s hs => by cases hs) fun w act w' hr hI hstep a s' hs' => ?_
  have hm := step_move (kept_reachable hr).single hstep
  cases hs : w.sessions a with
  | none =>
    obtain ⟨_, huid, hborn⟩ := hm.appears hs hs'
    omega
  | some s =>
    obtain ⟨k, hon⟩ := hm.onward hs hs'
    rw [hon.uid]
    exact Nat.lt_of_lt_of_le (hI a s hs) hm.born_le

/-! ## 2. One step -/

/-- A step of another session, or of no session, leaves a closing session as it is or erases it. -/
theorem Move.others (hm : w.Move E act w') (hk : w.Kept E) {a : Owner} {s : ClientSession n}
    (hs : w.sessions a = some s) (hc : s.Closing)
    (hact : ∀ io, act ≠ .reader a io ∧ ∀ io', act ≠ .writer a io') :
    w'.sessions a = some s ∨ w'.sessions a = none := by
  -- a channel calls only sessions that await replies
  have huncalled : ∀ c, ¬ ∃ f ∈ (w.pool c).frames, f.calls a := by
    intro c hcall
    obtain ⟨_, hpos, hlive⟩ := hk.called hs hcall
    rcases hc with hab | ⟨_, hzero⟩
    · exact hlive hab
    · exact Nat.ne_of_gt hpos hzero
  have hother : ∀ {b : Owner} {t : ClientSession n}, b ≠ a →
      Function.update w.sessions b (some t) a = some s := by
    intro b t hb
    rw [Function.update_of_ne (Ne.symm hb)]
    exact hs
  cases hm with
  | channel c ch' step alone => exact Or.inl hs
  | session b t x idle live step =>
    refine Or.inl (hother fun hb => ?_)
    subst hb
    rcases step with ⟨io, rfl, _⟩ | ⟨io, rfl, _⟩
    · exact (hact io).1 rfl
    · exact (hact .none).2 io rfl
  | replied c b reply fs t frames live =>
    refine Or.inl (hother fun hb => huncalled c ⟨.onReply b reply, ?_, hb⟩)
    rw [frames]
    exact List.mem_cons_self
  | told c b fs t frames live alone =>
    refine Or.inl (hother fun hb => huncalled c ⟨.onFailure b, ?_, hb⟩)
    rw [frames]
    exact List.mem_cons_self
  | accept b idle free own =>
    refine Or.inl (hother fun hb => ?_)
    rw [hb, hs] at free
    cases free
  | reap idle own =>
    simp only
    split
    · exact Or.inr rfl
    · exact Or.inl hs

/-- What the loops of a session do in a step of theirs. -/
theorem step_session {a : Owner} {s : ClientSession n} (hs : w.sessions a = some s)
    {f : ClientSession n → Option (ClientSession n × BackendPool n × Bool)}
    (h : (if w.idle then (w.sessions a).bind fun t => (f t).map (w.moved a) else none) = some w') :
    ∃ x, f s = some x ∧ w'.sessions a = some x.1 := by
  split at h
  · rw [hs] at h
    obtain ⟨x, hx, rfl⟩ := Option.map_eq_some_iff.mp h
    exact ⟨x, hx, Function.update_self ..⟩
  · cases h

/-- **A step of the worker brings a closing session nearer to its end, or leaves it alone**; it is
    erased only by `reap`. -/
theorem step_closing (hk : w.Kept E) (hstep : w.step E act = some w') {a : Owner}
    {s : ClientSession n} (hs : w.sessions a = some s) (hc : s.Closing) :
    (∃ s', w'.sessions a = some s' ∧ s'.uid = s.uid ∧ s'.Closing ∧
      s'.remaining E + (act.isOwnOf a).toNat ≤ s.remaining E) ∨ w'.sessions a = none := by
  have hm := step_move hk.single hstep
  have hothers : (∀ io, act ≠ .reader a io ∧ ∀ io', act ≠ .writer a io') →
      act.isOwnOf a = false → (∃ s', w'.sessions a = some s' ∧ s'.uid = s.uid ∧ s'.Closing ∧
        s'.remaining E + (act.isOwnOf a).toNat ≤ s.remaining E) ∨ w'.sessions a = none := by
    intro hact hown
    refine (hm.others hk hs hc hact).imp (fun hs' => ⟨s, hs', rfl, hc, ?_⟩) id
    rw [hown]
    exact Nat.le_refl _
  cases act with
  | reader b io =>
    by_cases hb : b = a
    · subst hb
      obtain ⟨x, hx, hs'⟩ := step_session hs hstep
      obtain ⟨hc', hle⟩ := ClientSession.closing_readerStep hc hx
      refine Or.inl ⟨x.1, hs', (ClientSession.readerStep_onward hx).1.uid, hc', ?_⟩
      simpa [WorkerAct.isOwnOf] using hle
    · refine hothers (fun io' => ⟨fun he => hb ?_, nofun⟩) (by simp [WorkerAct.isOwnOf, hb])
      cases he
      rfl
  | writer b io =>
    by_cases hb : b = a
    · subst hb
      obtain ⟨x, hx, hs'⟩ := step_session hs hstep
      obtain ⟨hc', hle⟩ := ClientSession.closing_writerStep hc hx
      refine Or.inl ⟨x.1, hs', (ClientSession.writerStep_onward hx).1.uid, hc', ?_⟩
      simpa [WorkerAct.isOwnOf] using hle
    · refine hothers (fun io' => ⟨nofun, fun io'' he => hb ?_⟩) (by simp [WorkerAct.isOwnOf, hb])
      cases he
      rfl
  | _ => exact hothers (fun io => ⟨nofun, nofun⟩) rfl

/-- A call in progress can go on. -/
theorem call_enabled (hk : w.Kept E) {c : Fin n} (hfr : (w.pool c).frames ≠ []) :
    ∃ act : WorkerAct n, act.isCall = true ∧ (w.step E act).isSome := by
  obtain ⟨f, fs, hf⟩ := List.exists_cons_of_ne_nil hfr
  have htop : f ∈ (w.pool c).frames := by
    rw [hf]
    exact List.mem_cons_self
  cases f with
  | onReply a reply =>
    obtain ⟨s, hs⟩ := hk.callee ⟨_, htop, rfl⟩
    exact ⟨.callback c, rfl, by simp [step, callback, hf, hs, BackendChannel.ret]⟩
  | onFailure a =>
    obtain ⟨s, hs⟩ := hk.callee ⟨_, htop, rfl⟩
    have hf' := (frames_abort s a w.pool c).trans hf
    exact ⟨.callback c, rfl, by simp [step, callback, hf, hs, BackendChannel.ret, hf']⟩
  | failing status todo =>
    cases todo with
    | nil => exact ⟨.ret c, rfl, by simp [step, ret, hf, BackendChannel.ret]⟩
    | cons a todo => exact ⟨.next c a, rfl, by simp [step, BackendChannel.next, hf]⟩
  | stopTail => exact ⟨.ret c, rfl, by simp [step, ret, hf, BackendChannel.ret]⟩

/-- Until it has reported its end, a closing session can go on, unless a call is in progress. -/
theorem closing_step_enabled (hk : w.Kept E) {a : Owner} {s : ClientSession n}
    (hs : w.sessions a = some s) (hc : s.Closing) (hfin : s.finishCalls ≠ 1) :
    ∃ act : WorkerAct n, (act.isOwnOf a = true ∨ act.isCall = true) ∧ (w.step E act).isSome := by
  by_cases hidle : w.idle = true
  · have ho := hk.orderly a s hs
    rcases ClientSession.closing_enabled (E := E) (a := a) (p := w.pool) hc ho hfin with
      ⟨io, hio, hsome⟩ | ⟨io, hio, hsome⟩
    · exact ⟨.reader a io, Or.inl (by simp [WorkerAct.isOwnOf, hio]),
        by simp [step, resume, hidle, hs, hsome]⟩
    · exact ⟨.writer a io, Or.inl (by simp [WorkerAct.isOwnOf, hio]),
        by simp [step, resume, hidle, hs, hsome]⟩
  · obtain ⟨c, hfr⟩ := Classical.not_forall.mp fun hall => hidle (idle_iff.mpr hall)
    obtain ⟨act, hcall, hsome⟩ := call_enabled hk hfr
    exact ⟨act, Or.inr hcall, hsome⟩

/-! ## 3. Every run -/

/-- The session with number `u` is not at `a` any more, and will not come back. -/
def Left (a : Owner) (u : Nat) (w : Worker n) : Prop :=
  u < w.born ∧ ∀ t, w.sessions a = some t → t.uid ≠ u

/-- If the session with number `u` is at `a`, it closes. -/
def Closes (a : Owner) (u : Nat) (w : Worker n) : Prop :=
  u < w.born ∧ ∀ t, w.sessions a = some t → t.uid = u → t.Closing

theorem Move.left (hm : w.Move E act w') {a : Owner} {u : Nat} (h : Left a u w) : Left a u w' := by
  refine ⟨Nat.lt_of_lt_of_le h.1 hm.born_le, fun t ht => ?_⟩
  cases hs : w.sessions a with
  | none =>
    obtain ⟨_, huid, _⟩ := hm.appears hs ht
    rw [huid]
    exact Nat.ne_of_gt h.1
  | some s =>
    obtain ⟨k, hon⟩ := hm.onward hs ht
    rw [hon.uid]
    exact h.2 s hs

/-- The steps the session at `a` has left. -/
def remainingAt (E : Env) (a : Owner) (w : Worker n) : Nat :=
  (w.sessions a).elim 0 fun s => s.remaining E

/-- One step, for the session with number `u`. -/
theorem step_closes (hk : w.Kept E) (hstep : w.step E act = some w') {a : Owner} {u : Nat}
    (hI : Closes a u w) :
    Closes a u w' ∧ (Left a u w → Left a u w') ∧
      (Left a u w' ∨ w'.remainingAt E a + (act.isOwnOf a).toNat ≤ w.remainingAt E a) := by
  have hm := step_move hk.single hstep
  have hborn := Nat.lt_of_lt_of_le hI.1 hm.born_le
  have hleft : Left a u w' → Closes a u w' ∧ (Left a u w → Left a u w') ∧
      (Left a u w' ∨ w'.remainingAt E a + (act.isOwnOf a).toNat ≤ w.remainingAt E a) :=
    fun hl => ⟨⟨hborn, fun t ht hu => absurd hu (hl.2 t ht)⟩, fun _ => hl, Or.inl hl⟩
  by_cases hu : ∃ s, w.sessions a = some s ∧ s.uid = u
  · obtain ⟨s, hs, hu⟩ := hu
    rcases step_closing hk hstep hs (hI.2 s hs hu) with ⟨s', hs', _, hc', hle⟩ | hnone
    · refine ⟨⟨hborn, fun t ht _ => ?_⟩, fun hl => absurd hu (hl.2 s hs), Or.inr ?_⟩
      · rw [hs'] at ht
        cases ht
        exact hc'
      · simpa only [remainingAt, hs, hs', Option.elim_some] using hle
    · exact hleft ⟨hborn, fun t ht => by rw [hnone] at ht; cases ht⟩
  · exact hleft (hm.left ⟨hI.1, fun t ht hu' => hu ⟨t, ht, hu'⟩⟩)

/-- **A closing session ends.** Once a session was aborted, or its stream has ended and no reply is
    awaited, then in every run of the worker, for as long as the session is there: its loops take
    `remaining` more steps at most, system calls told to try again aside; a session with nothing
    left has called `on_finished_`; and before that one of its loops can go on, unless the worker is
    in a call that can. -/
theorem closing_ends {w w' : Worker E.config.channels} (h : (machine E).Reachable w) {a : Owner}
    {s : ClientSession E.config.channels} (hs : w.sessions a = some s) (hc : s.Closing)
    {acts : List (WorkerAct E.config.channels)} (hr : (machine E).run w acts = some w') :
    ∀ s', w'.sessions a = some s' → s'.uid = s.uid →
      s'.remaining E + acts.countP (WorkerAct.isOwnOf a) ≤ s.remaining E ∧
      (s'.remaining E = 0 → s'.finishCalls = 1) ∧
      (s'.finishCalls = 1 ∨ ∃ act : WorkerAct E.config.channels,
        (act.isOwnOf a = true ∨ act.isCall = true) ∧ (w'.step E act).isSome) := by
  intro s' hs' hu
  have hk' := kept_reachable (h.run hr)
  have hI : Closes a s.uid w := by
    refine ⟨numbered_reachable h a s hs, fun t ht _ => ?_⟩
    rw [hs] at ht
    cases ht
    exact hc
  have hstep : ∀ (v : Worker E.config.channels) act v', (machine E).Reachable v →
      Closes a s.uid v → (machine E).step v act = some v' →
      Closes a s.uid v' ∧ (Left a s.uid v → Left a s.uid v') ∧ (Left a s.uid v' ∨
        v'.remainingAt E a + (act.isOwnOf a).toNat ≤ v.remainingAt E a + false.toNat) :=
    fun v act v' hv hI hst => step_closes (kept_reachable hv) hst hI
  have hc' : s'.Closing := (h.along hI (fun v act v' hv hI hst => (hstep v act v' hv hI hst).1)
    hr).2 s' hs' hu
  have hnot : ¬ Left a s.uid w' := fun hl => hl.2 s' hs' hu
  have hpaid := (h.ranked hstep hI hr).resolve_left hnot
  simp only [remainingAt, hs, hs', Option.elim_some, List.countP_false] at hpaid
  refine ⟨hpaid, ClientSession.finished_of_remaining (hk'.orderly a s' hs'), ?_⟩
  by_cases hfin : s'.finishCalls = 1
  · exact Or.inl hfin
  · exact Or.inr (closing_step_enabled hk' hs' hc' hfin)

/-- The writer of session 7 sleeps when a read of its client fails. -/
def readFails : List (WorkerAct 2) :=
  connecting ++ [.accept 7, .writer 7 .none, .reader 7 parsing, .reader 7 (.read .timeout)]

/-- The loops of session 7 leave, while the worker looks for sessions to erase. -/
def leaves : List (WorkerAct 2) :=
  [.reader 7 .none, .writer 7 .none, .reap, .writer 7 .none, .writer 7 .none]

theorem closing_ends_readFails :
    ∃ w w' s s', (machine pingEnv).run (init pingEnv) readFails = some w ∧
      w.sessions 7 = some s ∧ s.state = .kAborted ∧ s.remaining pingEnv = 4 ∧
      (machine pingEnv).run w leaves = some w' ∧ w'.sessions 7 = some s' ∧ s'.uid = s.uid ∧
      s'.finishCalls = 1 := by
  have hruns : ((machine pingEnv).run (init pingEnv) readFails).bind (fun w =>
      (w.sessions 7).bind fun s => ((machine pingEnv).run w leaves).bind fun w' =>
        (w'.sessions 7).map fun s' => (s.state, s.remaining pingEnv, s.uid, s'.uid)) =
      some (.kAborted, 4, 0, 0) := by decide +kernel
  obtain ⟨w, hw, hrest⟩ := Option.bind_eq_some_iff.mp hruns
  obtain ⟨s, hs, hrest⟩ := Option.bind_eq_some_iff.mp hrest
  obtain ⟨w', hw', hrest⟩ := Option.bind_eq_some_iff.mp hrest
  obtain ⟨s', hs', hval⟩ := Option.map_eq_some_iff.mp hrest
  simp only [Prod.mk.injEq] at hval
  obtain ⟨hab, hleft, hu, hu'⟩ := hval
  have hsame : s'.uid = s.uid := hu'.trans hu.symm
  obtain ⟨hle, hend, _⟩ :=
    closing_ends (Machine.reachable_of_run hw) hs (Or.inl hab) hw' s' hs' hsame
  have hown : leaves.countP (WorkerAct.isOwnOf 7) = 4 := by decide
  refine ⟨w, w', s, s', hw, hs, hab, hleft, hw', hs', hsame, hend ?_⟩
  rw [hleft] at hle
  exact Nat.le_zero.mp (Nat.le_of_add_le_add_right (hown ▸ hle))

end Worker

end RedisProxy
