/-
  File:      RedisProxy/Channel/Service.lean
  Subject:   WHAT A LINE OWES ONE OWNER.

  `owedTo a` lists the commands of `a` in the queues, in the order in which their replies will
  come. `Serves a q` says that the line has exactly the commands `q` to settle with `a`: they
  stand in the queues and the line is ready, or the first of them is being answered in a callback
  on the stack, or the connection failed and `a` has still to be told.

  A step of the line without its owners keeps `Serves` for every owner (`Step.serves`); what an
  owner does changes it for that owner only (section 3).
-/
import RedisProxy.Channel.Outcome

namespace RedisProxy

open BackendChannel

/-- The frame calls the owner, or will. -/
def Frame.calls (a : Owner) : Frame → Prop
  | .onReply o _ => o = a
  | .onFailure o => o = a
  | .failing _ todo => a ∈ todo
  | .stopTail => False

namespace Line

/-! ## 1. The commands of one owner -/

/-- The commands of `o` in the queues, in the order of their replies. -/
def owedTo (l : Line) (o : Owner) : List Command :=
  (l.pendingQueue.filter (·.owner = some o)).flatMap PendingBatch.commands ++
    (l.writeQueue.filter (·.owner = o)).flatMap RequestBatch.commands

theorem owedTo_congr {l l' : Line} (hp : l'.pendingQueue = l.pendingQueue)
    (hw : l'.writeQueue = l.writeQueue) (a : Owner) : l'.owedTo a = l.owedTo a := by
  rw [owedTo, owedTo, hp, hw]

theorem owedTo_submit (l : Line) (o : Owner) (bytes : BufferChain) (count : Nat) (a : Owner) :
    (l.submit o bytes count).owedTo a =
      l.owedTo a ++ (if a = o then commandsOf l.trace.length o 0 count else []) := by
  unfold owedTo submit
  by_cases h : a = o
  · subst h
    simp [RequestBatch.commands]
  · simp [h, Ne.symm h]

theorem owedTo_detach (l : Line) (o a : Owner) :
    (l.detach o).owedTo a = if a = o then [] else l.owedTo a := by
  have hpending : ((l.detach o).pendingQueue.filter (·.owner = some a)).flatMap
      PendingBatch.commands = if a = o then [] else
        (l.pendingQueue.filter (·.owner = some a)).flatMap PendingBatch.commands := by
    unfold detach
    dsimp only
    induction l.pendingQueue with
    | nil => simp
    | cons p q ih =>
      rw [List.map_cons, List.filter_cons, List.filter_cons]
      by_cases hp : p.owner = some o
      · by_cases ha : a = o
        · subst ha
          simpa [hp] using ih
        · have hne : p.owner ≠ some a := by
            rw [hp]
            exact fun h => ha (Option.some.inj h).symm
          simpa [hp, hne, ha, Ne.symm ha] using ih
      · by_cases ha : a = o
        · subst ha
          simpa [hp] using ih
        · by_cases hpa : p.owner = some a
          · simp only [ha, if_false] at ih
            simp [hpa, ha, ih]
          · simpa [hp, hpa, ha] using ih
  have hwrite : ((l.detach o).writeQueue.filter (·.owner = a)).flatMap RequestBatch.commands =
      if a = o then [] else (l.writeQueue.filter (·.owner = a)).flatMap RequestBatch.commands := by
    unfold detach
    dsimp only
    rw [List.filter_filter]
    by_cases ha : a = o
    · subst ha
      simp
    · rw [if_neg ha]
      congr 1
      refine List.filter_congr fun b _ => ?_
      by_cases hb : b.owner = a
      · simp [hb, ha]
      · simp [hb]
  rw [owedTo, hpending, hwrite, owedTo]
  split <;> simp

theorem owedTo_take {l : Line} {b : RequestBatch} {q : List RequestBatch}
    (hq : l.writeQueue = b :: q) (a : Owner) : (l.take b q).owedTo a = l.owedTo a := by
  unfold owedTo take
  by_cases hb : b.owner = a
  · simp [hq, hb, PendingBatch.commands, RequestBatch.commands]
  · simp [hq, hb]

/-- The reply to the first command owed; the owner's other commands stay. -/
theorem owedTo_answer {l : Line} {p : PendingBatch} {q : List PendingBatch}
    (hq : l.pendingQueue = p :: q) (hpos : 0 < p.remainingReplies) (r : BufferChain) (rest : Bytes)
    (a : Owner) : l.owedTo a =
      (if p.owner = some a then [⟨p.id, p.answered, p.sender⟩] else []) ++
        (l.answer p q r rest).owedTo a := by
  have hcmd := commands_answered hpos
  by_cases h0 : p.remainingReplies - 1 = 0
  · by_cases ha : p.owner = some a
    · simp [owedTo, answer, hq, ha, hcmd, h0]
    · simp [owedTo, answer, hq, ha, h0]
  · by_cases ha : p.owner = some a
    · have hrest : ({ p with
          remainingReplies := p.remainingReplies - 1
          answered := p.answered + 1 } : PendingBatch).commands =
            commandsOf p.id p.sender (p.answered + 1) (p.remainingReplies - 1) := rfl
      rw [ha] at hrest
      simp [owedTo, answer, hq, ha, hcmd, h0, hrest]
    · simp [owedTo, answer, hq, ha, h0]

/-- `failConnection` collects the owners with a command in the queues. -/
theorem mem_owedTo_of_write {l : Line} (h : l.Balanced) {b : RequestBatch}
    (hb : b ∈ l.writeQueue) : (⟨b.id, 0, b.owner⟩ : Command) ∈ l.owedTo b.owner := by
  have hpos := h.counts b hb
  refine List.mem_append_right _ (List.mem_flatMap.mpr ⟨b, ?_, ?_⟩)
  · exact List.mem_filter.mpr ⟨hb, by simp⟩
  · exact mem_commandsOf.mpr ⟨rfl, rfl, Nat.le_refl 0, by simpa using hpos⟩

theorem mem_owedTo_of_pending {l : Line} (h : l.Balanced) {p : PendingBatch} {a : Owner}
    (hp : p ∈ l.pendingQueue) (ho : p.owner = some a) :
    (⟨p.id, p.answered, p.sender⟩ : Command) ∈ l.owedTo a := by
  refine List.mem_append_left _ (List.mem_flatMap.mpr ⟨p, ?_, ?_⟩)
  · exact List.mem_filter.mpr ⟨hp, by simp [ho]⟩
  · rw [commands_answered (h.positive p hp)]
    exact List.mem_cons_self

theorem mem_owners_iff {l : Line} (h : l.Balanced) (a : Owner) : a ∈ l.owners ↔ l.owedTo a ≠ [] := by
  rw [owners, List.mem_dedup, List.mem_append, List.mem_map, List.mem_filterMap]
  constructor
  · rintro (⟨b, hb, rfl⟩ | ⟨p, hp, ho⟩) hnil
    · have hc := mem_owedTo_of_write h hb
      rw [hnil] at hc
      cases hc
    · have hc := mem_owedTo_of_pending h hp ho
      rw [hnil] at hc
      cases hc
  · intro hne
    obtain ⟨c, hc⟩ := List.exists_mem_of_ne_nil _ hne
    rcases List.mem_append.mp hc with hc | hc
    · obtain ⟨p, hp, _⟩ := List.mem_flatMap.mp hc
      obtain ⟨hp, ho⟩ := List.mem_filter.mp hp
      exact Or.inr ⟨p, hp, of_decide_eq_true ho⟩
    · obtain ⟨b, hb, _⟩ := List.mem_flatMap.mp hc
      obtain ⟨hb, ho⟩ := List.mem_filter.mp hb
      exact Or.inl ⟨b, hb, of_decide_eq_true ho⟩

/-! ## 2. A step without the owners -/

/-- **The line has exactly the commands `q` to settle with `a`.** -/
inductive Serves (l : Line) (a : Owner) : List Command → Prop where
  | waiting (uncalled : ∀ f ∈ l.frames, ¬ f.calls a) (ready : l.owedTo a ≠ [] → l.ready = true) :
      Serves l a (l.owedTo a)
  | answering (c : Command) (r : BufferChain) (past : List Event) (frames : l.frames = [.onReply a r])
      (trace : l.trace = .replied l.conn r.bytes (some a) :: past)
      (next : nextCommand l.conn past = some c) (ready : l.ready = true) :
      Serves l a (c :: l.owedTo a)
  | failing (q : List Command) (ne : q ≠ []) (called : ∃ f ∈ l.frames, f.calls a)
      (noReply : ∀ r, .onReply a r ∉ l.frames) (none : l.owedTo a = []) (ready : l.ready = false) :
      Serves l a q

theorem init_serves (a : Owner) : init.Serves a [] := .waiting nofun fun h => absurd rfl h

/-- At a scheduling point the commands stand in the queues. -/
theorem Serves.idle {l : Line} {a : Owner} {q : List Command} (h : l.Serves a q)
    (hfr : l.frames = []) : q = l.owedTo a ∧ (q ≠ [] → l.ready = true) := by
  cases h with
  | waiting uncalled ready => exact ⟨rfl, ready⟩
  | answering c r past frames trace next ready =>
    rw [hfr] at frames
    cases frames
  | failing _ ne called noReply none ready =>
    obtain ⟨f, hf, _⟩ := called
    rw [hfr] at hf
    cases hf

theorem uncalled_of_idle {fs : List Frame} (hfr : fs = []) (a : Owner) :
    ∀ f ∈ fs, ¬ f.calls a := by
  rw [hfr]
  nofun

/-- A step at a scheduling point that leaves the commands of `a` alone. -/
theorem Serves.quiet {l l' : Line} {a : Owner} {q : List Command} (h : l.Serves a q)
    (hfr : l.frames = []) (hfr' : ∀ f ∈ l'.frames, ¬ f.calls a) (hq : l'.owedTo a = l.owedTo a)
    (hready : l.ready = true → l'.ready = true) : l'.Serves a q := by
  obtain ⟨rfl, hr⟩ := h.idle hfr
  rw [← hq]
  refine .waiting hfr' fun hne => hready (hr ?_)
  rw [← hq]
  exact hne

/-- A step the queues, the stack and the history do not see. -/
theorem Serves.keep {l l' : Line} {a : Owner} {q : List Command} (h : l.Serves a q)
    (hfr : l'.frames = l.frames) (hconn : l'.conn = l.conn) (htrace : l'.trace = l.trace)
    (hready : l'.ready = l.ready) (hp : l'.pendingQueue = l.pendingQueue)
    (hw : l'.writeQueue = l.writeQueue) : l'.Serves a q := by
  have hq := owedTo_congr hp hw a
  cases h with
  | waiting uncalled ready =>
    rw [← hq]
    refine .waiting (by rw [hfr]; exact uncalled) ?_
    rw [hq, hready]
    exact ready
  | answering c r past frames trace next ready =>
    rw [← hq]
    exact .answering c r past (hfr.trans frames) (by rw [htrace, hconn]; exact trace)
      (by rw [hconn]; exact next) (hready.trans ready)
  | failing _ ne called noReply none ready =>
    exact .failing q ne (by rw [hfr]; exact called) (by rw [hfr]; exact noReply) (hq.trans none)
      (hready.trans ready)

/-- When the connection fails, those with commands in the queues are called. -/
theorem Serves.fail {l : Line} {a : Owner} {q : List Command} (h : l.Serves a q)
    (howners : a ∈ l.owners ↔ l.owedTo a ≠ []) (hready : l.ready = true)
    (hfr : l.frames = [] ∨ ∃ fs, l.frames = .stopTail :: fs) (st : Status) :
    (l.fail st).Serves a q := by
  cases h with
  | waiting uncalled ready =>
    by_cases hne : l.owedTo a = []
    · rw [hne]
      have hnone : (l.fail st).owedTo a = [] := rfl
      rw [← hnone]
      refine .waiting (fun f hf => ?_) fun h => absurd rfl h
      rcases List.mem_cons.mp hf with rfl | hf
      · exact fun hmem => howners.mp hmem hne
      · exact uncalled f hf
    · refine .failing _ hne ⟨_, List.mem_cons_self, howners.mpr hne⟩ (fun r hr => ?_) rfl rfl
      rcases List.mem_cons.mp hr with hr | hr
      · cases hr
      · exact uncalled _ hr rfl
  | answering c r past frames trace next ready =>
    rcases hfr with h0 | ⟨fs, h1⟩
    · rw [h0] at frames
      cases frames
    · rw [h1] at frames
      cases frames
  | failing _ ne called noReply none ready =>
    rw [hready] at ready
    cases ready

/-- **A step of the line without its owners settles nothing with any of them.** -/
theorem Step.serves {l l' : Line} (hs : Step Own l l') (hb : l.Balanced) {a : Owner}
    {q : List Command} (h : l.Serves a q) : l'.Serves a q := by
  cases hs with
  | submit o bytes count ready pos call => cases call.2
  | detach o call => cases call.2
  | start ready =>
    cases h with
    | waiting uncalled hr => exact .waiting (l := { l with trace := _ }) uncalled hr
    | answering c r past frames trace next hr =>
      rw [ready] at hr
      cases hr
    | failing _ ne called noReply none hr => exact .failing q ne called noReply none hr
  | stop call =>
    refine h.quiet call.1 (fun f hf => ?_) rfl id
    rw [call.1] at hf
    rw [List.mem_singleton.mp hf]
    exact id
  | fail st ready frames => exact h.fail (mem_owners_iff hb a) ready frames st
  | take b bs frames ready task queue =>
    exact h.quiet frames (uncalled_of_idle frames a) (owedTo_take queue a) id
  | wrote bs rest frames task =>
    exact h.quiet frames (uncalled_of_idle frames a) rfl id
  | wroteAll task => exact h.keep rfl rfl rfl rfl rfl rfl
  | gaveUp ready => exact h.keep rfl rfl rfl rfl rfl rfl
  | received bs frames task =>
    exact h.quiet frames (uncalled_of_idle frames a) rfl id
  | answer p q r rest frames ready queue input =>
    have hp : p ∈ l.pendingQueue := by rw [queue]; exact List.mem_cons_self
    have howed := owedTo_answer queue (hb.positive p hp) r rest a
    by_cases ha : p.owner = some a
    · obtain ⟨rfl, _⟩ := h.idle frames
      rw [if_pos ha, List.singleton_append] at howed
      rw [howed]
      refine .answering _ r l.trace ?_ ?_ (hb.nextCommand ready queue) ready
      · simp [Line.answer, ha, frames]
      · simp [Line.answer, ha]
    · rw [if_neg ha, List.nil_append] at howed
      refine h.quiet frames (fun f hf => ?_) howed.symm id
      rw [Line.answer, frames, List.append_nil] at hf
      obtain ⟨o, ho, rfl⟩ := Option.map_eq_some_iff.mp (Option.mem_toList.mp hf)
      exact fun hoa => ha (by rw [ho, show o = a from hoa])
  | stray f rest st frames ready queue input =>
    have hstray : Serves { l with unparsed := rest, trace := .stray l.conn f :: l.trace } a q :=
      h.quiet frames (uncalled_of_idle frames a) rfl id
    exact hstray.fail (mem_owners_iff hb a) ready (Or.inl frames) st
  | dial frames ready input =>
    exact h.quiet frames (uncalled_of_idle frames a) rfl id
  | connect frames task input =>
    exact h.quiet frames (uncalled_of_idle frames a) rfl
      fun _ => rfl
  | clear frames ready =>
    exact h.quiet frames (uncalled_of_idle frames a) rfl id
  | call st o todo fs frames mem =>
    cases h with
    | waiting uncalled hr =>
      have hno : a ∉ todo := uncalled (.failing st todo) (by rw [frames]; exact List.mem_cons_self)
      refine .waiting (l := { l with frames := _, trace := _ }) (fun f hf => ?_) hr
      rcases List.mem_cons.mp hf with rfl | hf
      · exact fun hoa => hno (hoa ▸ mem)
      · rcases List.mem_cons.mp hf with rfl | hf
        · exact fun hmem => hno (List.mem_of_mem_erase hmem)
        · exact uncalled f (by rw [frames]; exact List.mem_cons_of_mem _ hf)
    | answering c r past hframes trace next hr =>
      rw [frames] at hframes
      cases hframes
    | failing _ ne called noReply none hr =>
      refine .failing q ne ?_ (fun r hr => ?_) none hr
      · obtain ⟨f, hf, hcalls⟩ := called
        rw [frames] at hf
        rcases List.mem_cons.mp hf with rfl | hf
        · by_cases hoa : o = a
          · exact ⟨_, List.mem_cons_self, hoa⟩
          · exact ⟨_, List.mem_cons_of_mem _ List.mem_cons_self,
              (List.mem_erase_of_ne (Ne.symm hoa)).mpr hcalls⟩
        · exact ⟨f, List.mem_cons_of_mem _ (List.mem_cons_of_mem _ hf), hcalls⟩
      · rcases List.mem_cons.mp hr with hr | hr
        · cases hr
        · rcases List.mem_cons.mp hr with hr | hr
          · cases hr
          · exact noReply r (by rw [frames]; exact List.mem_cons_of_mem _ hr)
  | ret f fs frames idle back =>
    cases h with
    | waiting uncalled hr =>
      exact .waiting (l := { l with frames := fs })
        (fun f' hf' => uncalled f' (by rw [frames]; exact List.mem_cons_of_mem _ hf')) hr
    | answering c r past hframes trace next hr =>
      rw [frames] at hframes
      obtain ⟨rfl, _⟩ := List.cons.inj hframes
      exact (back rfl).elim
    | failing _ ne called noReply none hr =>
      refine .failing q ne ?_
        (fun r hr => noReply r (by rw [frames]; exact List.mem_cons_of_mem _ hr)) none hr
      obtain ⟨f', hf', hcalls⟩ := called
      rw [frames] at hf'
      rcases List.mem_cons.mp hf' with rfl | hf'
      · cases f' with
        | onReply o r => exact (back rfl).elim
        | onFailure o => exact (back rfl).elim
        | failing st todo =>
          cases todo with
          | nil => cases hcalls
          | cons o todo => exact absurd rfl (idle st o todo)
        | stopTail => exact hcalls.elim
      · exact ⟨f', hf', hcalls⟩

theorem Steps.serves {l l' : Line} (hs : Steps Own l l') (hn : l.Numbered) (hb : l.Balanced)
    {a : Owner} {q : List Command} (h : l.Serves a q) : l'.Serves a q := by
  have hall : l'.Numbered ∧ l'.Balanced ∧ l'.Serves a q := by
    induction hs with
    | refl => exact ⟨hn, hb, h⟩
    | tail _ hstep ih =>
      obtain ⟨hn, hb, hq⟩ := ih
      exact ⟨hstep.numbered hn, hstep.balanced hn hb, hstep.serves hb hq⟩
  exact hall.2.2

/-! ## 3. What an owner does -/

theorem Serves.submit {l : Line} {a : Owner} {q : List Command} (h : l.Serves a q)
    (hfr : l.frames = []) (hready : l.ready = true) (o : Owner) (bytes : BufferChain) (count : Nat) :
    (l.submit o bytes count).Serves a
      (q ++ if a = o then commandsOf l.trace.length o 0 count else []) := by
  obtain ⟨rfl, _⟩ := h.idle hfr
  rw [← owedTo_submit l o bytes count a]
  exact .waiting (uncalled_of_idle hfr a) fun _ => hready

theorem Serves.detach {l : Line} {a : Owner} {q : List Command} (h : l.Serves a q)
    (hfr : l.frames = []) (o : Owner) : (l.detach o).Serves a (if a = o then [] else q) := by
  obtain ⟨rfl, hr⟩ := h.idle hfr
  rw [← owedTo_detach l o a]
  refine .waiting (uncalled_of_idle hfr a) fun hne => hr fun hnil => hne ?_
  rw [owedTo_detach, hnil]
  split <;> rfl

/-- A callback is made only to an owner with something to settle. -/
theorem Serves.called {l : Line} {a : Owner} {q : List Command} (h : l.Serves a q)
    (hc : ∃ f ∈ l.frames, f.calls a) : q ≠ [] := by
  cases h with
  | waiting uncalled ready =>
    obtain ⟨f, hf, hcalls⟩ := hc
    exact absurd hcalls (uncalled f hf)
  | answering c r past frames trace next ready => exact List.cons_ne_nil _ _
  | failing _ ne called noReply none ready => exact ne

/-- What stands in the queues is part of it. -/
theorem Serves.owedTo_subset {l : Line} {a : Owner} {q : List Command} (h : l.Serves a q) :
    ∀ x ∈ l.owedTo a, x ∈ q := by
  intro x hx
  cases h with
  | waiting uncalled ready => exact hx
  | answering c r past frames trace next ready => exact List.mem_cons_of_mem _ hx
  | failing _ ne called noReply none ready =>
    rw [none] at hx
    cases hx

/-- A reply that is being delivered answers the first of the commands. -/
theorem Serves.answering_of {l : Line} {a : Owner} {q : List Command} {r : BufferChain}
    (h : l.Serves a q) (hfr : l.frames = [.onReply a r]) :
    ∃ c past rest, l.trace = .replied l.conn r.bytes (some a) :: past ∧
      nextCommand l.conn past = some c ∧ q = c :: rest := by
  have htop : Frame.onReply a r ∈ l.frames := by
    rw [hfr]
    exact List.mem_cons_self
  cases h with
  | waiting uncalled ready => exact absurd rfl (uncalled _ htop)
  | answering c r' past frames trace next ready =>
    rw [hfr] at frames
    obtain ⟨_, rfl⟩ := Frame.onReply.inj (List.cons.inj frames).1
    exact ⟨c, past, _, trace, next, rfl⟩
  | failing _ ne called noReply none ready => exact absurd htop (noReply r)

/-- The return of `onBackendReply`: the first command is settled. -/
theorem Serves.replied {l : Line} {a o : Owner} {q : List Command} {r : BufferChain}
    (h : l.Serves a q) (hfr : l.frames = [.onReply o r]) :
    Serves { l with frames := [] } a (if a = o then q.tail else q) := by
  have hreply : Frame.onReply o r ∈ l.frames := by
    rw [hfr]
    exact List.mem_cons_self
  cases h with
  | waiting uncalled ready =>
    have hne : a ≠ o := fun heq => uncalled _ hreply heq.symm
    rw [if_neg hne]
    exact .waiting (l := { l with frames := [] }) nofun ready
  | answering c r' past frames trace next ready =>
    have ho : a = o := by
      rw [hfr] at frames
      obtain ⟨heq, _⟩ := List.cons.inj frames
      exact (Frame.onReply.inj heq).1.symm
    rw [if_pos ho]
    exact .waiting (l := { l with frames := [] }) nofun fun _ => ready
  | failing _ ne called noReply none ready =>
    obtain ⟨f, hf, hcalls⟩ := called
    rw [hfr] at hf
    rw [List.mem_singleton.mp hf] at hcalls
    have ho : o = a := hcalls
    exact absurd (ho ▸ hreply) (noReply r)

/-- The return of `onBackendFailure`, in which the owner detached itself. -/
theorem Serves.told {l : Line} {a o : Owner} {q : List Command} {fs : List Frame}
    (h : l.Serves a q) (hfr : l.frames = .onFailure o :: fs) (hsh : Shape l.frames) :
    Serves { l.detach o with frames := fs } a (if a = o then [] else q) := by
  have howed : ({ l.detach o with frames := fs } : Line).owedTo a =
      if a = o then [] else l.owedTo a := owedTo_detach l o a
  -- an owner is told once
  have honce : ∀ f ∈ fs, ¬ f.calls o := by
    rw [hfr] at hsh
    cases hsh with
    | telling _ st todo fs below nodup told =>
      intro f hf
      rcases List.mem_cons.mp hf with rfl | hf
      · exact told
      · rcases below with rfl | rfl
        · cases hf
        · rw [List.mem_singleton.mp hf]
          exact id
  cases h with
  | waiting uncalled ready =>
    have hne : a ≠ o := fun heq =>
      uncalled (.onFailure o) (by rw [hfr]; exact List.mem_cons_self) heq.symm
    rw [if_neg hne] at howed ⊢
    rw [← howed]
    refine .waiting (fun f hf => uncalled f (by rw [hfr]; exact List.mem_cons_of_mem _ hf)) ?_
    rw [howed]
    exact ready
  | answering c r past frames trace next ready =>
    rw [hfr] at frames
    cases frames
  | failing _ ne called noReply none ready =>
    by_cases ho : a = o
    · subst ho
      rw [if_pos rfl] at howed ⊢
      rw [← howed]
      exact .waiting honce fun h => absurd howed h
    · rw [if_neg ho] at howed ⊢
      refine .failing q ne ?_ (fun r hr => noReply r (by rw [hfr]; exact List.mem_cons_of_mem _ hr))
        (howed.trans none) ready
      obtain ⟨f, hf, hcalls⟩ := called
      rw [hfr] at hf
      rcases List.mem_cons.mp hf with rfl | hf
      · exact absurd hcalls.symm ho
      · exact ⟨f, hf, hcalls⟩

end Line

end RedisProxy
