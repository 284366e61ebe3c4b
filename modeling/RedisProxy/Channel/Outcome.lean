/-
  File:      RedisProxy/Channel/Outcome.lean
  Subject:   EVERY COMMAND HAS ONE OUTCOME, and a failure is told once to everybody it concerns.

  The fate of a command (module Ledger) is settled by one event: its reply, the detachment of
  its owner or the failure of its connection. This module adds the owners' side of a failure.
  `Victim n o` says that connection `n` failed while a command of `o` was outstanding on it;
  `Told` says that the calls of `onBackendFailure` made and still to be made are one for each
  victim and none for anybody else. `Shape` is what the stack can look like when owners submit
  and detach themselves in their callbacks; from it no owner is called that has been detached
  since the failure.
-/
import RedisProxy.Channel.Delivery

namespace RedisProxy

open Lib BackendChannel

/-! ## 1. The calls of `onBackendFailure` -/

namespace Event

def isFailure (n : Nat) (o : Owner) : Event → Bool
  | .failure m o' => m == n && o' == o
  | _ => false

end Event

/-- How often `onBackendFailure` of `o` was called for connection `n`. -/
def failureCalls (n : Nat) (o : Owner) (t : List Event) : Nat := t.countP (Event.isFailure n o)

/-- Connection `n` failed while a command of `o` was outstanding on it. -/
def Victim (n : Nat) (o : Owner) : List Event → Prop :=
  Sometime fun e past => ∃ st, e = .failed n st ∧ ∃ c : Command,
    c.owner = o ∧ fate c past = .outstanding n

theorem failureCalls_cons (n : Nat) (o : Owner) (e : Event) (t : List Event) :
    failureCalls n o (e :: t) = failureCalls n o t + (if e.isFailure n o then 1 else 0) := by
  rw [failureCalls, List.countP_cons]
  rfl

/-- Who was a victim is decided by the failure alone. -/
theorem victim_cons_of_ne {n : Nat} {o : Owner} {e : Event} {t : List Event}
    (h : ∀ st, e ≠ .failed n st) : Victim n o (e :: t) ↔ Victim n o t := by
  rw [Victim, sometime_cons]
  constructor
  · rintro (⟨st, he, _⟩ | hv)
    · exact absurd he (h st)
    · exact hv
  · exact Or.inr

/-- **The owner of a command that failed is a victim.** -/
theorem victim_of_failed {c : Command} {n : Nat} {t : List Event} (h : fate c t = .failed n) :
    Victim n c.owner t := by
  induction t with
  | nil => cases h
  | cons e t ih =>
    by_cases hold : fate c t = .failed n
    · exact Or.inr (ih hold)
    · rw [fate_cons] at h
      unfold Fate.next at h
      split at h <;> try (split at h <;> cases h)
      · rename_i hf heq
        subst heq
        exact Or.inl ⟨_, rfl, c, rfl, hf⟩
      · exact absurd h hold

/-- The owners the calls of `failConnection` on the stack have still to tell. -/
def toTell (fs : List Frame) : List Owner :=
  fs.flatMap fun
    | .failing _ todo => todo
    | _ => []

namespace Line

/-- **A failure is told once to each victim, and to nobody else.** -/
def Told (l : Line) : Prop :=
  ∀ n o, (Victim n o l.trace →
      failureCalls n o l.trace + (if n = l.conn then (toTell l.frames).count o else 0) = 1) ∧
    (¬ Victim n o l.trace →
      failureCalls n o l.trace + (if n = l.conn then (toTell l.frames).count o else 0) = 0)

theorem init_told : init.Told := by
  intro n o
  refine ⟨nofun, fun _ => ?_⟩
  simp [init, failureCalls, toTell]

/-- A step with no failure and no call of one. -/
theorem Told.keep {l l' : Line} (h : l.Told) (e : Option Event)
    (htrace : l'.trace = e.toList ++ l.trace) (hfail : ∀ n st, e ≠ some (.failed n st))
    (hcall : ∀ n o, e ≠ some (.failure n o)) (htell : toTell l'.frames = toTell l.frames)
    (hconn : l'.conn = l.conn ∨ toTell l.frames = []) : l'.Told := by
  have hvictim : ∀ n o, Victim n o l'.trace ↔ Victim n o l.trace := by
    intro n o
    rw [htrace]
    cases e with
    | none => exact Iff.rfl
    | some e => exact victim_cons_of_ne fun st he => hfail n st (congrArg some he)
  have hcalls : ∀ n o, failureCalls n o l'.trace = failureCalls n o l.trace := by
    intro n o
    rw [htrace]
    cases e with
    | none => rfl
    | some e =>
      have hno : e.isFailure n o = false := by
        cases e with
        | failure m o' => exact absurd rfl (hcall m o')
        | _ => rfl
      show failureCalls n o (e :: l.trace) = _
      simp [failureCalls_cons, hno]
  intro n o
  rw [hvictim, hcalls, htell]
  rcases hconn with hc | hnil
  · rw [hc]
    exact h n o
  · have hcount : ∀ m : Nat, (if n = m then (toTell l.frames).count o else 0) = 0 := by
      intro m
      rw [hnil]
      split <;> rfl
    rw [hcount]
    have := h n o
    rw [hcount] at this
    exact this

/-- The owners `failConnection` collects are those with something outstanding. -/
theorem mem_owners {l : Line} (h : l.Balanced) (o : Owner) :
    o ∈ l.owners ↔ ∃ c : Command, c.owner = o ∧ fate c l.trace = .outstanding l.conn := by
  rw [owners, List.mem_dedup, List.mem_append, List.mem_map, List.mem_filterMap]
  constructor
  · rintro (⟨b, hb, rfl⟩ | ⟨p, hp, ho⟩)
    · refine ⟨⟨b.id, 0, b.owner⟩, rfl, (h.outstanding _ _).mpr ⟨rfl, Or.inl ?_⟩⟩
      have hpos := h.counts b hb
      exact mem_unsent.mpr ⟨b, hb, mem_commandsOf.mpr ⟨rfl, rfl, Nat.le_refl 0, by simpa using hpos⟩⟩
    · have hc : (⟨p.id, p.answered, p.sender⟩ : Command) ∈ p.commands := by
        rw [commands_answered (h.positive p hp)]
        exact List.mem_cons_self
      refine ⟨⟨p.id, p.answered, p.sender⟩, (h.senders p hp o ho).symm,
        (h.outstanding _ _).mpr ⟨rfl, Or.inr ?_⟩⟩
      exact mem_owed.mpr ⟨p, hp, by rw [ho]; rfl, hc⟩
  · rintro ⟨c, rfl, hf⟩
    rcases ((h.outstanding c _).mp hf).2 with hc | hc
    · obtain ⟨b, hb, hc⟩ := mem_unsent.mp hc
      exact Or.inl ⟨b, hb, (RequestBatch.owner_of_mem hc).symm⟩
    · obtain ⟨p, hp, hsome, hc⟩ := mem_owed.mp hc
      obtain ⟨o, ho⟩ := Option.isSome_iff_exists.mp hsome
      refine Or.inr ⟨p, hp, ?_⟩
      rw [ho, h.senders p hp o ho, PendingBatch.owner_of_mem hc]

/-- The failure of a connection that had not failed before. -/
theorem Told.fail {l : Line} (h : l.Told) (st : Status)
    (howners : ∀ o, o ∈ l.owners ↔ ∃ c : Command, c.owner = o ∧
      fate c l.trace = .outstanding l.conn)
    (honce : ∀ o, ¬ Victim l.conn o l.trace) : (l.fail st).Told := by
  intro n o
  have hcalls : failureCalls n o (l.fail st).trace = failureCalls n o l.trace := by
    show failureCalls n o (.failed l.conn st :: l.trace) = _
    simp [failureCalls_cons, Event.isFailure]
  rw [hcalls]
  have htell : toTell (l.fail st).frames = l.owners ++ toTell l.frames := rfl
  show (Victim n o (.failed l.conn st :: l.trace) → _ + (if n = l.conn then _ else 0) = 1) ∧
    (¬ Victim n o (.failed l.conn st :: l.trace) → _ + (if n = l.conn then _ else 0) = 0)
  rw [htell]
  by_cases hn : n = l.conn
  · subst hn
    have h0 := (h l.conn o).2 (honce o)
    have hv : Victim l.conn o (.failed l.conn st :: l.trace) ↔ o ∈ l.owners := by
      rw [howners, Victim, sometime_cons]
      constructor
      · rintro (⟨_, _, hc⟩ | hv)
        · exact hc
        · exact absurd hv (honce o)
      · intro hc
        exact Or.inl ⟨st, rfl, hc⟩
    rw [hv]
    simp only [if_true, List.count_append] at h0 ⊢
    constructor
    · intro hmem
      have h1 : l.owners.count o = 1 := List.count_eq_one_of_mem (List.nodup_dedup _) hmem
      omega
    · intro hmem
      have h1 : l.owners.count o = 0 := List.count_eq_zero_of_not_mem hmem
      omega
  · have hv : Victim n o (.failed l.conn st :: l.trace) ↔ Victim n o l.trace :=
      victim_cons_of_ne fun st' he => hn (Event.failed.inj he).1.symm
    rw [hv]
    have := h n o
    simp only [if_neg hn] at this ⊢
    exact this

/-- A ready connection has no victims yet. -/
theorem not_victim {l : Line} (hn : l.Numbered) (hr : l.ready = true) (o : Owner) :
    ¬ Victim l.conn o l.trace := by
  intro hv
  obtain ⟨new, e, old, hsplit, st, rfl, _⟩ := sometime_iff.mp hv
  exact hn.once hr st (by rw [hsplit]; exact List.mem_append_right _ List.mem_cons_self)

/-- **Every line step keeps the account of who was told.** -/
theorem Step.told {may : List Frame → Outside → Prop} {l l' : Line} (hs : Step may l l')
    (hn : l.Numbered) (hb : l.Balanced) (h : l.Told) : l'.Told := by
  cases hs with
  | submit o bytes count ready pos call =>
    exact h.keep (some _) rfl nofun nofun rfl (Or.inl rfl)
  | detach o call => exact h.keep (some _) rfl nofun nofun rfl (Or.inl rfl)
  | start ready => exact h.keep (some _) rfl nofun nofun rfl (Or.inl rfl)
  | stop call => exact h.keep (some _) rfl nofun nofun rfl (Or.inl rfl)
  | fail st ready frames => exact h.fail st (mem_owners hb) (not_victim hn ready)
  | take b q frames ready task queue => exact h.keep (some _) rfl nofun nofun rfl (Or.inl rfl)
  | wrote bs rest frames task => exact h.keep (some _) rfl nofun nofun rfl (Or.inl rfl)
  | wroteAll task => exact h.keep none rfl nofun nofun rfl (Or.inl rfl)
  | gaveUp ready => exact h.keep none rfl nofun nofun rfl (Or.inl rfl)
  | received bs frames task => exact h.keep (some _) rfl nofun nofun rfl (Or.inl rfl)
  | answer p q r rest frames ready queue input =>
    refine h.keep (some _) rfl nofun nofun ?_ (Or.inl rfl)
    rw [frames_answer]
    cases p.owner <;> rfl
  | stray f rest st frames ready queue input =>
    have hstray : Told { l with unparsed := rest, trace := .stray l.conn f :: l.trace } :=
      h.keep (some _) rfl nofun nofun rfl (Or.inl rfl)
    refine hstray.fail st (fun o => ?_) (fun o hv => ?_)
    · show o ∈ l.owners ↔ ∃ c : Command, c.owner = o ∧ fate c (.stray l.conn f :: l.trace) = _
      simp only [fate_of_not_settles (e := .stray l.conn f) rfl]
      exact mem_owners hb o
    · exact not_victim hn ready o ((victim_cons_of_ne (e := .stray l.conn f) nofun).mp hv)
  | dial frames ready input =>
    refine h.keep none rfl nofun nofun rfl (Or.inr ?_)
    rw [frames]
    rfl
  | connect frames task input => exact h.keep (some _) rfl nofun nofun rfl (Or.inl rfl)
  | clear frames ready => exact h.keep none rfl nofun nofun rfl (Or.inl rfl)
  | call st o todo fs frames mem =>
    intro n o'
    have hv : Victim n o' (.failure l.conn o :: l.trace) ↔ Victim n o' l.trace :=
      victim_cons_of_ne nofun
    have hcount : failureCalls n o' (.failure l.conn o :: l.trace) +
        (if n = l.conn then (toTell (.onFailure o :: .failing st (todo.erase o) :: fs)).count o'
          else 0) =
        failureCalls n o' l.trace + (if n = l.conn then (toTell l.frames).count o' else 0) := by
      rw [failureCalls_cons, frames]
      by_cases hc : n = l.conn
      · subst hc
        simp only [toTell, List.flatMap_cons, List.nil_append, List.count_append, if_true,
          Event.isFailure, beq_self_eq_true, Bool.true_and]
        by_cases ho : o = o'
        · subst ho
          have hpos : 0 < todo.count o := List.count_pos_iff.mpr mem
          simp only [beq_self_eq_true, if_true, List.count_erase_self]
          omega
        · rw [List.count_erase_of_ne (Ne.symm ho)]
          simp [ho]
      · simp [Event.isFailure, hc, Ne.symm hc]
    have := h n o'
    rw [← hcount, ← hv] at this
    exact this
  | ret f fs frames idle back =>
    refine h.keep none rfl nofun nofun ?_ (Or.inl rfl)
    rw [frames]
    cases f with
    | failing st todo =>
      cases todo with
      | nil => rfl
      | cons o todo => exact absurd rfl (idle st o todo)
    | _ => rfl

end Line

/-! ## 2. Owners that detach themselves -/

/-- In its callbacks an owner submits, or detaches itself. -/
def selfCalls (o : Owner) : Op → Bool
  | .submit _ _ _ => true
  | .detachOwner o' => o' == o
  | _ => false

/-- The stacks there are then. -/
inductive Shape : List Frame → Prop where
  | idle : Shape []
  | replying (o : Owner) (r : BufferChain) : Shape [.onReply o r]
  | stopping : Shape [.stopTail]
  | failing (st : Status) (todo : List Owner) (fs : List Frame) (below : fs = [] ∨ fs = [.stopTail])
      (nodup : todo.Nodup) : Shape (.failing st todo :: fs)
  | telling (o : Owner) (st : Status) (todo : List Owner) (fs : List Frame)
      (below : fs = [] ∨ fs = [.stopTail]) (nodup : todo.Nodup) (told : o ∉ todo) :
      Shape (.onFailure o :: .failing st todo :: fs)

/-- The owner was detached since connection `n` failed. -/
def detachedSince (n : Nat) (o : Owner) : List Event → Bool
  | [] => false
  | .failed m _ :: t => m ≠ n && detachedSince n o t
  | .detached o' :: t => o' = o || detachedSince n o t
  | _ :: t => detachedSince n o t

theorem toTell_failing {st : Status} {todo : List Owner} {fs : List Frame}
    (below : fs = [] ∨ fs = [.stopTail]) : toTell (.failing st todo :: fs) = todo := by
  rcases below with rfl | rfl <;> simp [toTell]

namespace Line

/-- No owner is told of a failure that was detached since. -/
structure Courteous (l : Line) : Prop where
  shape : Shape l.frames
  waiting : ∀ o ∈ toTell l.frames, detachedSince l.conn o l.trace = false
  history : Always (fun e past => ∀ n o, e = .failure n o → detachedSince n o past = false) l.trace

theorem init_courteous : init.Courteous where
  shape := .idle
  waiting := nofun
  history := trivial

/-- A step that notes an event which neither detaches, fails nor tells. -/
theorem Courteous.note {l l' : Line} (h : l.Courteous) (e : Event)
    (htrace : l'.trace = e :: l.trace) (hshape : Shape l'.frames)
    (htell : ∀ o ∈ toTell l'.frames, o ∈ toTell l.frames ∧ l'.conn = l.conn)
    (he : ∀ n o, detachedSince n o (e :: l.trace) = detachedSince n o l.trace)
    (hno : ∀ n o, e ≠ .failure n o) : l'.Courteous := by
  refine ⟨hshape, fun o ho => ?_, ?_⟩
  · obtain ⟨ho, hc⟩ := htell o ho
    rw [htrace, he, hc]
    exact h.waiting o ho
  · rw [htrace]
    exact ⟨fun n o heq => absurd heq (hno n o), h.history⟩

theorem Courteous.keep {l l' : Line} (h : l.Courteous) (htrace : l'.trace = l.trace)
    (hshape : Shape l'.frames)
    (htell : ∀ o ∈ toTell l'.frames, o ∈ toTell l.frames ∧ l'.conn = l.conn) : l'.Courteous := by
  refine ⟨hshape, fun o ho => ?_, htrace ▸ h.history⟩
  obtain ⟨ho, hc⟩ := htell o ho
  rw [htrace, hc]
  exact h.waiting o ho

/-- An owner that leaves in its own callback was told before and is not on the list any more. -/
theorem Courteous.detach {l : Line} (h : l.Courteous) {o : Owner}
    (hcall : Calls selfCalls l.frames (.call (.detachOwner o))) : (l.detach o).Courteous := by
  refine ⟨h.shape, fun o' ho' => ?_, ⟨nofun, h.history⟩⟩
  have hold := h.waiting o' ho'
  have hne : o ≠ o' := by
    rintro rfl
    have hshape := h.shape
    generalize hfs : l.frames = fs at hcall hshape
    rw [show (l.detach o).frames = l.frames from rfl, hfs] at ho'
    cases hshape with
    | idle | replying | stopping => cases ho'
    | failing st todo fs below nodup => cases hcall
    | telling o₁ st todo fs below nodup told =>
      have heq : o = o₁ := by simpa [Calls, mayCall, selfCalls] using hcall
      have hmem : o ∈ toTell (.failing st todo :: fs) := ho'
      rw [toTell_failing below] at hmem
      exact told (heq ▸ hmem)
  simp [Line.detach, detachedSince, hne, hold]

/-- A failure lists each owner once, and none that has been detached since: it is new. -/
theorem Courteous.fail {l : Line} (h : l.Courteous) (st : Status)
    (hfr : l.frames = [] ∨ ∃ fs, l.frames = .stopTail :: fs) : (l.fail st).Courteous := by
  have hbelow : l.frames = [] ∨ l.frames = [.stopTail] := by
    rcases hfr with h0 | ⟨fs, h1⟩
    · exact Or.inl h0
    · have hshape := h.shape
      rw [h1] at hshape
      cases hshape
      exact Or.inr h1
  refine ⟨.failing st _ _ hbelow (List.nodup_dedup _), fun o _ => ?_, ⟨nofun, h.history⟩⟩
  simp [Line.fail, detachedSince]

/-- **Every line step of owners that detach only themselves keeps it.** -/
theorem Step.courteous {l l' : Line} (hs : Step (Calls selfCalls) l l') (h : l.Courteous) :
    l'.Courteous := by
  have same : ∀ o ∈ toTell l.frames, o ∈ toTell l.frames ∧ l.conn = l.conn := fun o ho => ⟨ho, rfl⟩
  cases hs with
  | submit o bytes count ready pos call =>
    exact h.note _ rfl h.shape same (fun _ _ => rfl) nofun
  | detach o call => exact h.detach call
  | start ready => exact h.note _ rfl h.shape same (fun _ _ => rfl) nofun
  | stop call =>
    have hnil : l.frames = [] := by
      have hshape := h.shape
      generalize l.frames = fs at call hshape
      cases hshape with
      | idle => rfl
      | _ => cases call
    refine h.note _ rfl ?_ same (fun _ _ => rfl) nofun
    rw [hnil]
    exact .stopping
  | fail st ready frames => exact h.fail st frames
  | take b q frames ready task queue => exact h.note _ rfl h.shape same (fun _ _ => rfl) nofun
  | wrote bs rest frames task => exact h.note _ rfl h.shape same (fun _ _ => rfl) nofun
  | wroteAll task => exact h.keep rfl h.shape same
  | gaveUp ready => exact h.keep rfl h.shape same
  | received bs frames task => exact h.note _ rfl h.shape same (fun _ _ => rfl) nofun
  | answer p q r rest frames ready queue input =>
    refine h.note _ rfl ?_ ?_ (fun _ _ => rfl) nofun
    · rw [frames_answer, frames]
      cases p.owner with
      | none => exact .idle
      | some o => exact .replying o r
    · intro o ho
      rw [frames_answer, frames] at ho
      cases hp : p.owner <;> rw [hp] at ho <;> cases ho
  | stray f rest st frames ready queue input =>
    have hstray : Courteous { l with unparsed := rest, trace := .stray l.conn f :: l.trace } :=
      h.note _ rfl h.shape same (fun _ _ => rfl) nofun
    exact hstray.fail st (Or.inl frames)
  | dial frames ready input =>
    refine h.keep rfl h.shape fun o ho => ?_
    rw [show l.frames = [] from frames] at ho
    cases ho
  | connect frames task input => exact h.note _ rfl h.shape same (fun _ _ => rfl) nofun
  | clear frames ready => exact h.keep rfl h.shape same
  | call st o todo fs frames mem =>
    have hshape := h.shape
    have hwait := h.waiting
    rw [frames] at hshape hwait
    cases hshape with
    | failing _ _ _ below nodup =>
      rw [toTell_failing below] at hwait
      refine ⟨.telling o st _ fs below (nodup.erase o) nodup.not_mem_erase, fun o' ho' => ?_,
        fun n o' he => ?_, h.history⟩
      · have hmem : o' ∈ toTell (.failing st (todo.erase o) :: fs) := ho'
        rw [toTell_failing below] at hmem
        exact hwait o' (List.mem_of_mem_erase hmem)
      · obtain ⟨rfl, rfl⟩ := Event.failure.inj he
        exact hwait o mem
  | ret f fs frames idle back =>
    have hshape := h.shape
    rw [frames] at hshape
    have hsub : ∀ o ∈ toTell fs, o ∈ toTell l.frames ∧ l.conn = l.conn := by
      intro o ho
      rw [frames]
      exact ⟨List.mem_append_right _ ho, rfl⟩
    cases hshape with
    | replying o r => exact h.keep rfl .idle nofun
    | stopping => exact h.keep rfl .idle nofun
    | failing st todo fs below nodup =>
      refine h.keep rfl ?_ hsub
      rcases below with rfl | rfl
      · exact .idle
      · exact .stopping
    | telling o st todo fs below nodup told =>
      exact h.keep rfl (.failing st todo fs below nodup) hsub

end Line

/-! ## 3. Every reachable channel -/

namespace BackendChannel

section Reachable

variable {U : UnpackOne} {blockSize : Nat} {hb : 0 < blockSize} {ch : BackendChannel}

theorem told_reachable {allow : Owner → Op → Bool}
    (h : (machine U allow blockSize hb).Reachable ch) : ch.line.Told :=
  (line_invariant (I := fun l => (l.Numbered ∧ l.Balanced) ∧ l.Told)
    ⟨⟨Line.init_numbered, Line.init_balanced⟩, Line.init_told⟩
    (fun _ _ hI hs => ⟨⟨hs.numbered hI.1.1, hs.balanced hI.1.1 hI.1.2⟩,
      hs.told hI.1.1 hI.1.2 hI.2⟩) h).2

theorem courteous_reachable (h : (machine U selfCalls blockSize hb).Reachable ch) :
    ch.line.Courteous :=
  line_invariant Line.init_courteous (fun _ _ hI hs => hs.courteous hI) h

/-- **Every command has one outcome**, on every run with owners that submit or detach themselves
    in their callbacks. An accepted command has a fate, and it is outstanding exactly while it
    stands in one of the two queues, once, with its owner attached. A reply is delivered only for
    an outstanding command and dropped only for a detached one. A failure of a connection is told
    at most once to an owner, only to one that had something outstanding there and was not
    detached since, and by the next scheduling point to each such owner; the owner of a failed
    command is one of them. A refused `submit` changes nothing, an accepted one is noted, and so is
    `detachOwner`; no other step notes a submission or a detachment. -/
theorem commands_settled (h : (machine U selfCalls blockSize hb).Reachable ch) :
    (∀ (c : Command) n bytes count, .submitted n c.id c.owner bytes count ∈ ch.trace →
      c.pos < count → fate c ch.trace ≠ .absent) ∧
    (∀ c : Command, (∃ m, fate c ch.trace = .outstanding m) ↔
      c ∈ ch.line.unsent ∨ c ∈ ch.line.owed) ∧
    (ch.line.unsent ++ ch.line.unanswered).Nodup ∧
    Always (fun e past => ∀ n f dest, e = .replied n f dest →
      ∃ c, nextCommand n past = some c ∧
        (fate c past = .outstanding n ∧ dest = some c.owner ∨
          fate c past = .detached ∧ dest = none)) ch.trace ∧
    (∀ (c : Command) n, fate c ch.trace = .failed n → Victim n c.owner ch.trace) ∧
    (∀ n o, failureCalls n o ch.trace ≤ 1 ∧
      (0 < failureCalls n o ch.trace → Victim n o ch.trace) ∧
      (ch.frames = [] → Victim n o ch.trace → failureCalls n o ch.trace = 1)) ∧
    Always (fun e past => ∀ n o, e = .failure n o → detachedSince n o past = false) ch.trace ∧
    (∀ o bytes count, (ch.submit o bytes count).1 = false → (ch.submit o bytes count).2 = ch) ∧
    (∀ o bytes count, (ch.submit o bytes count).1 = true → (ch.submit o bytes count).2.trace =
      .submitted ch.conn ch.trace.length o bytes.bytes count :: ch.trace) ∧
    (∀ o, (ch.detachOwner o).trace = .detached o :: ch.trace) ∧
    (∀ a ch', ch.step U selfCalls a = some ch' → ch.Noting a ch') := by
  obtain ⟨_, hbal, hr⟩ := ledger_reachable h
  have htold := told_reachable h
  refine ⟨fun c n bytes count => fate_of_submitted, fun c => ?_, hbal.nodup,
    hr.answers.imp fun e past he => he.1, fun c n => victim_of_failed, fun n o => ?_,
    (courteous_reachable h).history, fun o bytes count => submit_refused,
    fun o bytes count => submit_noted, fun o => rfl,
    fun a ch' hs => step_noting (life_reachable h) hs⟩
  · constructor
    · rintro ⟨m, hf⟩
      exact ((hbal.outstanding c m).mp hf).2
    · intro hc
      exact ⟨ch.conn, (hbal.outstanding c ch.conn).mpr ⟨rfl, hc⟩⟩
  · have htrace : ch.line.trace = ch.trace := rfl
    have hv := htold n o
    rw [htrace] at hv
    by_cases hvictim : Victim n o ch.trace
    · have h1 := hv.1 hvictim
      refine ⟨by omega, fun _ => hvictim, fun hfr _ => ?_⟩
      rw [show ch.line.frames = [] from hfr] at h1
      simpa [toTell] using h1
    · have h0 := hv.2 hvictim
      exact ⟨by omega, fun hpos => by omega, fun _ hv => absurd hv hvictim⟩

end Reachable

/-- Owner 9 leaves with one batch started and one queued; the reply to the started one comes
    after that. Owner 7 has a started batch and a queued one, owner 8 a queued one, when the
    connection fails; 7 is told and detaches itself in the callback. -/
def failsWithTwo : List Act :=
  [.op (.start {}), .run 0 .none, .run 0 (.connected true),
    .op (.submit 9 (.ofSlices [[5]]) 1), .run 0 .none, .run 0 (.write (some (.wrote 1))),
    .run 0 (.write none), .op (.submit 7 (.ofSlices [[1, 2]]) 2), .run 0 .none,
    .op (.submit 9 (.ofSlices [[6]]) 1), .op (.submit 7 (.ofSlices [[3]]) 1),
    .op (.submit 8 (.ofSlices [[4]]) 1), .op (.detachOwner 9),
    .reader 0 .none, .reader 0 (.read (.data [0])), .reader 0 (.parse fun _ => true),
    .run 0 (.write (some (.error "reset"))),
    .next 7, .op (.detachOwner 7), .ret, .next 8, .ret, .ret]

theorem commands_settled_failsWithTwo :
    ∃ ch, (machine byteReplies selfCalls 8 (by decide)).run (init 8 (by decide)) failsWithTwo
        = some ch ∧
      ch.frames.length = 0 ∧ fate ⟨5, 1, 7⟩ ch.trace = .failed 1 ∧
      failureCalls 1 7 ch.trace = 1 ∧
      parsedOn 1 ch.trace = [[0]] ∧ fate ⟨2, 0, 9⟩ ch.trace = .detached ∧
      fate ⟨7, 0, 9⟩ ch.trace = .detached ∧ failureCalls 1 9 ch.trace = 0 := by
  refine ⟨_, rfl, rfl, rfl, ?_, rfl, rfl, rfl, rfl⟩
  have hr : (machine byteReplies selfCalls 8 (by decide)).run (init 8 (by decide))
      failsWithTwo = some _ := rfl
  have h := commands_settled (Machine.reachable_of_run hr)
  exact (h.2.2.2.2.2.1 1 7).2.2 rfl (h.2.2.2.2.1 ⟨5, 1, 7⟩ 1 rfl)

end BackendChannel

end RedisProxy
