/-
  File:      RedisProxy/Channel/Balance.lean
  Subject:   THE QUEUES AND THE LEDGER AGREE.

  `Balanced` ties the queues of a line to the ledger: an attached command is outstanding exactly
  while it stands in one of the queues, what `pending_queue_` owes is what was started on the
  connection and not answered, and a batch without an owner is one whose commands were detached.
  Every line step keeps it (`Step.balanced`), one lemma for each that moves a command.
-/
import RedisProxy.Channel.Ledger
import Mathlib.Data.List.Flatten

namespace RedisProxy

open Lib

/-! ## 1. The commands in the queues -/

def RequestBatch.commands (b : RequestBatch) : List Command :=
  commandsOf b.id b.owner 0 b.commandCount

/-- The commands of a started batch that are still to be answered. -/
def PendingBatch.commands (p : PendingBatch) : List Command :=
  commandsOf p.id p.sender p.answered p.remainingReplies

theorem RequestBatch.owner_of_mem {b : RequestBatch} {c : Command} (h : c ∈ b.commands) :
    c.owner = b.owner := (mem_commandsOf.mp h).2.1

theorem PendingBatch.owner_of_mem {p : PendingBatch} {c : Command} (h : c ∈ p.commands) :
    c.owner = p.sender := (mem_commandsOf.mp h).2.1

namespace Line

/-- The commands not yet started. -/
def unsent (l : Line) : List Command := l.writeQueue.flatMap RequestBatch.commands

/-- The commands started and not yet answered, in the order of their replies. -/
def unanswered (l : Line) : List Command := l.pendingQueue.flatMap PendingBatch.commands

/-- Those of them whose owner still waits. -/
def owed (l : Line) : List Command :=
  (l.pendingQueue.filter (·.owner.isSome)).flatMap PendingBatch.commands

theorem mem_unsent {l : Line} {c : Command} :
    c ∈ l.unsent ↔ ∃ b ∈ l.writeQueue, c ∈ b.commands := List.mem_flatMap

theorem mem_unanswered {l : Line} {c : Command} :
    c ∈ l.unanswered ↔ ∃ p ∈ l.pendingQueue, c ∈ p.commands := List.mem_flatMap

theorem mem_owed {l : Line} {c : Command} :
    c ∈ l.owed ↔ ∃ p ∈ l.pendingQueue, p.owner.isSome = true ∧ c ∈ p.commands := by
  simp only [owed, List.mem_flatMap, List.mem_filter, and_assoc]

theorem owed_subset {l : Line} {c : Command} (h : c ∈ l.owed) : c ∈ l.unanswered := by
  obtain ⟨p, hp, _, hc⟩ := mem_owed.mp h
  exact mem_unanswered.mpr ⟨p, hp, hc⟩

/-- The first command of a started batch, and those after it. -/
theorem commands_answered {p : PendingBatch} (h : 0 < p.remainingReplies) :
    p.commands = ⟨p.id, p.answered, p.sender⟩ ::
      commandsOf p.id p.sender (p.answered + 1) (p.remainingReplies - 1) := by
  obtain ⟨n, hn⟩ : ∃ n, p.remainingReplies = n + 1 := ⟨p.remainingReplies - 1, by omega⟩
  rw [PendingBatch.commands, hn, commandsOf_succ]
  rfl

/-- Whether the answered batch stays in the queue or leaves it, what it owes is the rest. -/
theorem unanswered_answer (l : Line) (p : PendingBatch) (q : List PendingBatch) (r : BufferChain)
    (rest : Bytes) : (l.answer p q r rest).unanswered =
      commandsOf p.id p.sender (p.answered + 1) (p.remainingReplies - 1) ++
        q.flatMap PendingBatch.commands := by
  unfold unanswered answer
  dsimp only
  split
  · rename_i h0
    rw [h0]
    rfl
  · rfl

/-- After a reply the first entry is owed one command less. -/
theorem mem_owed_answer {l : Line} {p : PendingBatch} {q : List PendingBatch} {r : BufferChain}
    {rest : Bytes} {c : Command} : c ∈ (l.answer p q r rest).owed ↔
      p.owner.isSome = true ∧
          c ∈ commandsOf p.id p.sender (p.answered + 1) (p.remainingReplies - 1) ∨
        ∃ p' ∈ q, p'.owner.isSome = true ∧ c ∈ p'.commands := by
  rw [mem_owed]
  unfold answer
  dsimp only
  split
  · rename_i h0
    rw [h0]
    simp
  · simp [PendingBatch.commands]

theorem mem_pending_answer {l : Line} {p p' : PendingBatch} {q : List PendingBatch}
    {r : BufferChain} {rest : Bytes} (h : p' ∈ (l.answer p q r rest).pendingQueue) :
    p' ∈ q ∨ p.remainingReplies - 1 ≠ 0 ∧ p' = { p with
      remainingReplies := p.remainingReplies - 1, answered := p.answered + 1 } := by
  simp only [Line.answer] at h
  split at h
  · exact Or.inl h
  · rename_i hne
    rcases List.mem_cons.mp h with rfl | h
    · exact Or.inr ⟨hne, rfl⟩
    · exact Or.inl h

/-- A batch of the queue after `detachOwner`: only the owner may have gone. -/
theorem mem_pending_detach {l : Line} {o : Owner} {p : PendingBatch}
    (h : p ∈ (l.detach o).pendingQueue) : ∃ p₀ ∈ l.pendingQueue,
      p.commands = p₀.commands ∧ p.sender = p₀.sender ∧
      p.remainingReplies = p₀.remainingReplies ∧
      (p₀.owner = some o ∧ p.owner = none ∨ p₀.owner ≠ some o ∧ p.owner = p₀.owner) := by
  obtain ⟨p₀, hp₀, rfl⟩ := List.mem_map.mp h
  refine ⟨p₀, hp₀, ?_⟩
  split
  · rename_i ho
    exact ⟨rfl, rfl, rfl, Or.inl ⟨ho, rfl⟩⟩
  · rename_i ho
    exact ⟨rfl, rfl, rfl, Or.inr ⟨ho, rfl⟩⟩

/-- A detachment takes the unstarted commands of its owner, and no other. -/
theorem mem_unsent_detach {l : Line} {o : Owner} {c : Command} :
    c ∈ (l.detach o).unsent ↔ c ∈ l.unsent ∧ o ≠ c.owner := by
  rw [mem_unsent, mem_unsent]
  constructor
  · rintro ⟨b, hb, hc⟩
    obtain ⟨hb, hne⟩ := List.mem_filter.mp hb
    refine ⟨⟨b, hb, hc⟩, ?_⟩
    rw [RequestBatch.owner_of_mem hc]
    exact fun heq => of_decide_eq_true hne heq.symm
  · rintro ⟨⟨b, hb, hc⟩, hne⟩
    refine ⟨b, List.mem_filter.mpr ⟨hb, decide_eq_true ?_⟩, hc⟩
    rw [← RequestBatch.owner_of_mem hc]
    exact fun heq => hne heq.symm

/-- It leaves the place of the started ones in the reply stream. -/
theorem unanswered_detach (l : Line) (o : Owner) : (l.detach o).unanswered = l.unanswered := by
  simp only [unanswered, Line.detach, List.flatMap_map]
  congr 1
  funext p
  split <;> rfl

/-! ## 2. The queues and the ledger -/

/-- **The queues and the ledger agree.** -/
structure Balanced (l : Line) : Prop where
  outstanding : ∀ c n, fate c l.trace = .outstanding n ↔
    n = l.conn ∧ (c ∈ l.unsent ∨ c ∈ l.owed)
  senders : ∀ p ∈ l.pendingQueue, ∀ o, p.owner = some o → o = p.sender
  detached : ∀ p ∈ l.pendingQueue, p.owner = none → ∀ c ∈ p.commands, fate c l.trace = .detached
  positive : ∀ p ∈ l.pendingQueue, 0 < p.remainingReplies
  counts : ∀ b ∈ l.writeQueue, 0 < b.commandCount
  enough : l.ready = true →
    (parsedOn l.conn l.trace).length ≤ (commandsOn l.conn l.trace).length
  order : l.ready = true →
    l.unanswered = (commandsOn l.conn l.trace).drop (parsedOn l.conn l.trace).length
  nodup : (l.unsent ++ l.unanswered).Nodup

theorem init_balanced : init.Balanced where
  outstanding c n := ⟨nofun, by rintro ⟨_, h | h⟩ <;> cases h⟩
  senders := nofun
  detached := nofun
  positive := nofun
  counts := nofun
  enough := nofun
  order := nofun
  nodup := List.nodup_nil

/-- Every command in a queue is known to the ledger. -/
theorem Balanced.known {l : Line} (h : l.Balanced) {c : Command}
    (hc : c ∈ l.unsent ++ l.unanswered) : fate c l.trace ≠ .absent := by
  rcases List.mem_append.mp hc with hc | hc
  · rw [(h.outstanding c l.conn).mpr ⟨rfl, Or.inl hc⟩]
    nofun
  · obtain ⟨p, hp, hcp⟩ := mem_unanswered.mp hc
    cases ho : p.owner with
    | none =>
      rw [h.detached p hp ho c hcp]
      nofun
    | some o =>
      have hmem : c ∈ l.owed := mem_owed.mpr ⟨p, hp, by rw [ho]; rfl, hcp⟩
      rw [(h.outstanding c l.conn).mpr ⟨rfl, Or.inr hmem⟩]
      nofun

/-- A step that neither moves a command nor settles one. -/
theorem Balanced.keep {l l' : Line} (h : l.Balanced) (hready : l'.ready = true → l.ready = true)
    (hconn : l'.conn = l.conn) (hw : l'.writeQueue = l.writeQueue)
    (hp : l'.pendingQueue = l.pendingQueue) (hfate : ∀ c, fate c l'.trace = fate c l.trace)
    (hcmd : commandsOn l.conn l'.trace = commandsOn l.conn l.trace)
    (hparsed : parsedOn l.conn l'.trace = parsedOn l.conn l.trace) : l'.Balanced := by
  have hu : l'.unsent = l.unsent := by rw [unsent, unsent, hw]
  have ha : l'.unanswered = l.unanswered := by rw [unanswered, unanswered, hp]
  have ho : l'.owed = l.owed := by rw [owed, owed, hp]
  constructor
  · intro c n
    rw [hfate, hconn, hu, ho]
    exact h.outstanding c n
  · rw [hp]
    exact h.senders
  · simp only [hp, hfate]
    exact h.detached
  · rw [hp]
    exact h.positive
  · rw [hw]
    exact h.counts
  · intro hr
    rw [hconn, hcmd, hparsed]
    exact h.enough (hready hr)
  · intro hr
    rw [ha, hconn, hcmd, hparsed]
    exact h.order (hready hr)
  · rw [hu, ha]
    exact h.nodup

theorem unsent_submit (l : Line) (o : Owner) (bytes : BufferChain) (count : Nat) :
    (l.submit o bytes count).unsent = l.unsent ++ commandsOf l.trace.length o 0 count := by
  simp [unsent, submit, RequestBatch.commands]

/-- The commands of a new batch are outstanding and queued. -/
theorem Balanced.submit {l : Line} (h : l.Balanced) (hn : l.Numbered) (o : Owner)
    (bytes : BufferChain) (count : Nat) (hpos : count ≠ 0) :
    (l.submit o bytes count).Balanced := by
  have hu := unsent_submit l o bytes count
  have ho : (l.submit o bytes count).owed = l.owed := rfl
  have ha : (l.submit o bytes count).unanswered = l.unanswered := rfl
  constructor
  · intro c n
    rw [hu, ho, List.mem_append]
    show fate c (.submitted l.conn l.trace.length o bytes.bytes count :: l.trace) = _ ↔ _
    rw [fate_submitted hn.ids]
    split
    · rename_i hc
      simp only [Fate.outstanding.injEq, hc, or_true, true_or, and_true]
      exact eq_comm
    · rename_i hc
      simp only [hc, or_false]
      exact h.outstanding c n
  · exact h.senders
  · intro p hp hnone c hc
    have hd := h.detached p hp hnone c hc
    show fate c (_ :: l.trace) = _
    rw [fate_settled (by rw [hd]; nofun) (by rw [hd]; nofun), hd]
  · exact h.positive
  · intro b hb
    rcases List.mem_append.mp hb with hb | hb
    · exact h.counts b hb
    · rw [List.mem_singleton.mp hb]
      exact Nat.pos_of_ne_zero hpos
  · intro hr
    simpa [Line.submit, Event.commands, Event.parsed] using h.enough hr
  · intro hr
    rw [ha]
    simpa [Line.submit, Event.commands, Event.parsed] using h.order hr
  · rw [hu, ha]
    have hnd : (commandsOf l.trace.length o 0 count ++ (l.unsent ++ l.unanswered)).Nodup := by
      refine List.nodup_append.mpr ⟨nodup_commandsOf _ _ _ _, h.nodup, ?_⟩
      -- the new commands carry a number none in the queues has
      rintro c hnew _ hold rfl
      have hlt := id_lt_of_fate hn.ids (h.known hold)
      have hid := (mem_commandsOf.mp hnew).1
      omega
    rw [← List.append_assoc] at hnd
    exact (List.perm_append_comm.append_right _).nodup_iff.mp hnd

/-- Nothing is owed to a detached owner any more. -/
theorem Balanced.mem_owed_detach {l : Line} (h : l.Balanced) {o : Owner} {c : Command} :
    c ∈ (l.detach o).owed ↔ c ∈ l.owed ∧ o ≠ c.owner := by
  rw [mem_owed, mem_owed]
  constructor
  · rintro ⟨p, hp, hsome, hc⟩
    obtain ⟨p₀, hp₀, hcmd, _, _, ⟨_, hnone⟩ | ⟨hne, hown⟩⟩ := mem_pending_detach hp
    · rw [hnone] at hsome
      cases hsome
    · rw [hown] at hsome
      rw [hcmd] at hc
      refine ⟨⟨p₀, hp₀, hsome, hc⟩, ?_⟩
      rintro rfl
      obtain ⟨o', ho'⟩ := Option.isSome_iff_exists.mp hsome
      apply hne
      rw [ho', h.senders p₀ hp₀ o' ho', PendingBatch.owner_of_mem hc]
  · rintro ⟨⟨p, hp, hsome, hc⟩, hne⟩
    have hown : p.owner ≠ some o := by
      intro ho
      apply hne
      rw [h.senders p hp o ho, PendingBatch.owner_of_mem hc]
    exact ⟨p, List.mem_map.mpr ⟨p, hp, if_neg hown⟩, hsome, hc⟩

/-- The commands a detachment settles are those it takes from the queues. -/
theorem Balanced.detach {l : Line} (h : l.Balanced) (o : Owner) : (l.detach o).Balanced := by
  constructor
  · intro c n
    rw [mem_unsent_detach, h.mem_owed_detach]
    show fate c (.detached o :: l.trace) = _ ↔ _
    rw [fate_detached, h.outstanding]
    show (n = l.conn ∧ _) ∧ _ ↔ n = l.conn ∧ _
    tauto
  · intro p hp o' ho'
    obtain ⟨p₀, hp₀, _, hsender, _, ⟨_, hnone⟩ | ⟨_, hown⟩⟩ := mem_pending_detach hp
    · rw [hnone] at ho'
      cases ho'
    · rw [hsender]
      exact h.senders p₀ hp₀ o' (hown ▸ ho')
  · intro p hp hnone c hc
    obtain ⟨p₀, hp₀, hcmd, _, _, ⟨hsome, _⟩ | ⟨_, hown⟩⟩ := mem_pending_detach hp
    · -- its owner leaves now
      rw [hcmd] at hc
      have hout : fate c l.trace = .outstanding l.conn :=
        (h.outstanding c l.conn).mpr
          ⟨rfl, Or.inr (mem_owed.mpr ⟨p₀, hp₀, by rw [hsome]; rfl, hc⟩)⟩
      have howner : o = c.owner := by
        rw [PendingBatch.owner_of_mem hc]
        exact h.senders p₀ hp₀ o hsome
      show fate c (.detached o :: l.trace) = _
      rw [fate_cons, hout]
      exact if_pos howner
    · rw [hcmd] at hc
      have hd := h.detached p₀ hp₀ (hown ▸ hnone) c hc
      show fate c (_ :: l.trace) = _
      rw [fate_settled (by rw [hd]; nofun) (by rw [hd]; nofun), hd]
  · intro p hp
    obtain ⟨p₀, hp₀, _, _, hrem, _⟩ := mem_pending_detach hp
    rw [hrem]
    exact h.positive p₀ hp₀
  · intro b hb
    exact h.counts b (List.mem_of_mem_filter hb)
  · intro hr
    simpa [Line.detach, Event.commands, Event.parsed] using h.enough hr
  · intro hr
    rw [unanswered_detach]
    simpa [Line.detach, Event.commands, Event.parsed] using h.order hr
  · rw [unanswered_detach]
    refine List.Nodup.sublist (List.Sublist.append ?_ (List.Sublist.refl _)) h.nodup
    exact List.Sublist.flatMap List.filter_sublist _

/-- A started batch goes from one queue to the other. -/
theorem Balanced.take {l : Line} (h : l.Balanced) {b : RequestBatch} {q : List RequestBatch}
    (hq : l.writeQueue = b :: q) : (l.take b q).Balanced := by
  have hu : l.unsent = b.commands ++ (l.take b q).unsent := by
    rw [unsent, hq]
    rfl
  have ha : (l.take b q).unanswered = l.unanswered ++ b.commands := by
    simp [unanswered, Line.take, PendingBatch.commands, RequestBatch.commands]
  have howed : (l.take b q).owed = l.owed ++ b.commands := by
    simp [owed, Line.take, List.filter_append, PendingBatch.commands, RequestBatch.commands]
  have hfate : ∀ c, fate c (l.take b q).trace = fate c l.trace := fun c => fate_of_not_settles rfl
  have hmem : ∀ p ∈ (l.take b q).pendingQueue, p ∈ l.pendingQueue ∨
      p = ⟨some b.owner, b.commandCount, b.id, b.owner, 0⟩ := by
    intro p hp
    rcases List.mem_append.mp hp with hp | hp
    · exact Or.inl hp
    · exact Or.inr (List.mem_singleton.mp hp)
  constructor
  · intro c n
    rw [hfate, h.outstanding, hu, howed, List.mem_append, List.mem_append]
    show n = l.conn ∧ _ ↔ n = l.conn ∧ _
    tauto
  · intro p hp o ho
    rcases hmem p hp with hp | rfl
    · exact h.senders p hp o ho
    · exact (Option.some.inj ho).symm
  · intro p hp hnone c hc
    rw [hfate]
    rcases hmem p hp with hp | rfl
    · exact h.detached p hp hnone c hc
    · cases hnone
  · intro p hp
    rcases hmem p hp with hp | rfl
    · exact h.positive p hp
    · exact h.counts b (by rw [hq]; exact List.mem_cons_self)
  · intro b' hb'
    exact h.counts b' (by rw [hq]; exact List.mem_cons_of_mem _ hb')
  · intro hr
    have := h.enough hr
    simp only [Line.take, commandsOn_cons, parsedOn_cons, Event.commands, Event.parsed,
      List.append_nil, List.length_append]
    omega
  · intro hr
    rw [ha, h.order hr]
    simp only [Line.take, commandsOn_cons, parsedOn_cons, Event.commands, Event.parsed,
      List.append_nil, if_true, RequestBatch.commands]
    rw [List.drop_append_of_le_length (h.enough hr)]
  · have hnd := h.nodup
    rw [hu, List.append_assoc] at hnd
    rw [ha, ← List.append_assoc]
    exact List.perm_append_comm.nodup_iff.mp hnd

/-- A failure settles all that is outstanding and leaves both queues empty. -/
theorem balanced_fail {l : Line} (h : ∀ c n, fate c l.trace = .outstanding n → n = l.conn)
    (st : Status) : (l.fail st).Balanced := by
  constructor
  · intro c n
    show fate c (.failed l.conn st :: l.trace) = _ ↔ n = l.conn ∧ (c ∈ [] ∨ c ∈ [])
    rw [fate_failed]
    simp only [List.not_mem_nil, or_self, and_false, iff_false]
    rintro ⟨hout, hne⟩
    exact hne (h c n hout).symm
  · nofun
  · nofun
  · nofun
  · nofun
  · nofun
  · nofun
  · exact List.nodup_nil

/-- **The next reply answers the first command owed.** -/
theorem Balanced.nextCommand {l : Line} (h : l.Balanced) (hr : l.ready = true)
    {p : PendingBatch} {q : List PendingBatch} (hq : l.pendingQueue = p :: q) :
    nextCommand l.conn l.trace = some ⟨p.id, p.answered, p.sender⟩ := by
  have hpos := h.positive p (by rw [hq]; exact List.mem_cons_self)
  have hun : l.unanswered = p.commands ++ q.flatMap PendingBatch.commands := by
    rw [unanswered, hq]
    rfl
  rw [RedisProxy.nextCommand, ← List.head?_drop, ← h.order hr, hun, commands_answered hpos]
  rfl

/-- With no entry left, a further reply answers no command. -/
theorem Balanced.nextCommand_none {l : Line} (h : l.Balanced) (hr : l.ready = true)
    (hq : l.pendingQueue = []) : RedisProxy.nextCommand l.conn l.trace = none := by
  have hun : l.unanswered = [] := by
    rw [unanswered, hq]
    rfl
  rw [RedisProxy.nextCommand, ← List.head?_drop, ← h.order hr, hun]
  rfl

/-- What is owed after a reply, when the answered command is in no queue any more. -/
theorem Balanced.mem_owed_answered {l : Line} (h : l.Balanced) {p : PendingBatch}
    {q : List PendingBatch} (hq : l.pendingQueue = p :: q) {r : BufferChain} {rest : Bytes}
    (hgone : ∀ c ∈ (l.answer p q r rest).unsent ++ (l.answer p q r rest).unanswered,
      c ≠ ⟨p.id, p.answered, p.sender⟩) {c : Command} :
    c ∈ (l.answer p q r rest).owed ↔ c ∈ l.owed ∧ c ≠ ⟨p.id, p.answered, p.sender⟩ := by
  have hp : p ∈ l.pendingQueue := by
    rw [hq]
    exact List.mem_cons_self
  have hcmds := commands_answered (h.positive p hp)
  constructor
  · intro hc
    refine ⟨?_, hgone c (List.mem_append_right _ (owed_subset hc))⟩
    rcases mem_owed_answer.mp hc with ⟨hsome, hc⟩ | ⟨p', hp', hsome, hc⟩
    · refine mem_owed.mpr ⟨p, hp, hsome, ?_⟩
      rw [hcmds]
      exact List.mem_cons_of_mem _ hc
    · refine mem_owed.mpr ⟨p', ?_, hsome, hc⟩
      rw [hq]
      exact List.mem_cons_of_mem _ hp'
  · rintro ⟨hc, hne⟩
    obtain ⟨p', hp', hsome, hc⟩ := mem_owed.mp hc
    rw [hq] at hp'
    rw [mem_owed_answer]
    rcases List.mem_cons.mp hp' with rfl | hp'
    · rw [hcmds] at hc
      rcases List.mem_cons.mp hc with rfl | hc
      · exact absurd rfl hne
      · exact Or.inl ⟨hsome, hc⟩
    · exact Or.inr ⟨p', hp', hsome, hc⟩

/-- **A reply settles the first unanswered command**, which is the one its position in the stream
    asks for. -/
theorem Balanced.answer {l : Line} (h : l.Balanced) (hr : l.ready = true) {p : PendingBatch}
    {q : List PendingBatch} (hq : l.pendingQueue = p :: q) (r : BufferChain) (rest : Bytes) :
    (l.answer p q r rest).Balanced := by
  have hp : p ∈ l.pendingQueue := by rw [hq]; exact List.mem_cons_self
  have hqmem : ∀ p' ∈ q, p' ∈ l.pendingQueue := by
    intro p' hp'
    rw [hq]
    exact List.mem_cons_of_mem _ hp'
  have hnext := h.nextCommand hr hq
  have hcmds := commands_answered (h.positive p hp)
  have hun : l.unanswered = ⟨p.id, p.answered, p.sender⟩ :: (l.answer p q r rest).unanswered := by
    rw [unanswered_answer, unanswered, hq, List.flatMap_cons, hcmds]
    rfl
  have hu : (l.answer p q r rest).unsent = l.unsent := rfl
  have hnd := h.nodup
  rw [hun] at hnd
  -- the answered command is in no queue any more
  have hgone : ∀ c ∈ (l.answer p q r rest).unsent ++ (l.answer p q r rest).unanswered,
      c ≠ ⟨p.id, p.answered, p.sender⟩ := by
    rintro c hc rfl
    have hperm := List.perm_middle.nodup_iff.mp hnd
    exact (List.nodup_cons.mp hperm).1 hc
  constructor
  · intro c n
    rw [hu, h.mem_owed_answered hq hgone]
    show fate c (.replied l.conn r.bytes p.owner :: l.trace) = _ ↔ n = l.conn ∧ _
    rw [fate_replied, h.outstanding, hnext]
    have hne : c ∈ l.unsent → c ≠ ⟨p.id, p.answered, p.sender⟩ :=
      fun hc => hgone c (List.mem_append_left _ hc)
    simp only [ne_eq, Option.some.injEq, eq_comm (a := Command.mk p.id p.answered p.sender)]
    tauto
  · intro p' hp' o ho
    rcases mem_pending_answer hp' with hp' | ⟨_, rfl⟩
    · exact h.senders p' (hqmem p' hp') o ho
    · exact h.senders p hp o ho
  · intro p' hp' hnone c hc
    have hd : fate c l.trace = .detached := by
      rcases mem_pending_answer hp' with hp' | ⟨_, rfl⟩
      · exact h.detached p' (hqmem p' hp') hnone c hc
      · refine h.detached p hp hnone c ?_
        rw [hcmds]
        exact List.mem_cons_of_mem _ hc
    show fate c (_ :: l.trace) = _
    rw [fate_settled (by rw [hd]; nofun) (by rw [hd]; nofun), hd]
  · intro p' hp'
    rcases mem_pending_answer hp' with hp' | ⟨hne, rfl⟩
    · exact h.positive p' (hqmem p' hp')
    · exact Nat.pos_of_ne_zero hne
  · exact h.counts
  · intro _
    have hlen : 0 < (l.unanswered).length := by rw [hun]; exact Nat.succ_pos _
    rw [h.order hr, List.length_drop] at hlen
    simp only [Line.answer, commandsOn_cons, parsedOn_cons, Event.commands, Event.parsed,
      List.append_nil, if_true, List.length_append, List.length_singleton]
    omega
  · intro _
    have htail := congrArg List.tail hun
    rw [h.order hr, List.tail_drop] at htail
    simp only [List.tail_cons] at htail
    rw [← htail]
    simp [Line.answer, Event.commands, Event.parsed]
  · exact (List.nodup_cons.mp (List.perm_middle.nodup_iff.mp hnd)).2

theorem Numbered.not_ready {l : Line} (h : l.Numbered) (hd : l.task = .dialing) :
    l.ready = false := by
  by_contra hr
  exact h.dialing (by simpa using hr) hd

/-- A new connection has nothing started and nothing answered. -/
theorem Balanced.connect {l : Line} (h : l.Balanced) (hn : l.Numbered) (hd : l.task = .dialing) :
    Balanced { l with ready := true, task := .idle, trace := .connected l.conn :: l.trace } := by
  obtain ⟨hw, hp, _⟩ := hn.idle (hn.not_ready hd)
  obtain ⟨hcmds, hparsed, _, _⟩ := on_fresh fun e he => hn.fresh hd he
  have hfate : ∀ c, fate c (.connected l.conn :: l.trace) = fate c l.trace :=
    fun c => fate_of_not_settles rfl
  constructor
  · intro c n
    show fate c (.connected l.conn :: l.trace) = _ ↔ _
    rw [hfate]
    exact h.outstanding c n
  · exact h.senders
  · intro p hmem hnone c hc
    show fate c (.connected l.conn :: l.trace) = _
    rw [hfate]
    exact h.detached p hmem hnone c hc
  · exact h.positive
  · exact h.counts
  · intro _
    simp [Event.commands, Event.parsed, hcmds, hparsed]
  · intro _
    simp [Event.commands, Event.parsed, hcmds, hparsed, unanswered, hp]
  · exact h.nodup

theorem Balanced.dial {l : Line} (h : l.Balanced) (hn : l.Numbered) (hr : l.ready = false) :
    Balanced { l with conn := l.conn + 1, task := .dialing } := by
  obtain ⟨hw, hp, _⟩ := hn.idle hr
  have hnone : ∀ c, c ∉ l.unsent ∧ c ∉ l.owed := by
    intro c
    simp [unsent, owed, hw, hp]
  refine ⟨fun c n => ?_, h.senders, h.detached, h.positive, h.counts, fun hr' => ?_,
    fun hr' => ?_, h.nodup⟩
  · show fate c l.trace = _ ↔ n = l.conn + 1 ∧ (c ∈ l.unsent ∨ c ∈ l.owed)
    rw [h.outstanding]
    simp [hnone c]
  · rw [show l.ready = true from hr'] at hr
    cases hr
  · rw [show l.ready = true from hr'] at hr
    cases hr

/-- **Every step keeps the queues and the ledger in agreement.** -/
theorem Step.balanced {may : List Frame → Outside → Prop} {l l' : Line} (hs : Step may l l')
    (hn : l.Numbered) (h : l.Balanced) : l'.Balanced := by
  -- an event that settles nothing and is no part of the reply stream
  have quiet : ∀ (e : Event) (task : LineTask) (unparsed : Bytes) (frames : List Frame),
      e.settles = false → e.commands l.conn = [] → e.parsed l.conn = [] →
      Balanced { l with
        task := task, unparsed := unparsed, frames := frames, trace := e :: l.trace } := by
    intro e task unparsed frames he hc hp
    refine h.keep id rfl rfl rfl (fun c => fate_of_not_settles he) ?_ ?_
    · show commandsOn l.conn (e :: l.trace) = _
      rw [commandsOn_cons, hc, List.append_nil]
    · show parsedOn l.conn (e :: l.trace) = _
      rw [parsedOn_cons, hp, List.append_nil]
  cases hs with
  | submit o bytes count ready pos call => exact h.submit hn o bytes count pos
  | detach o call => exact h.detach o
  | start ready => exact quiet .started l.task l.unparsed l.frames rfl rfl rfl
  | stop call => exact quiet .stopped l.task l.unparsed _ rfl rfl rfl
  | fail st ready frames => exact balanced_fail (fun c n hc => ((h.outstanding c n).mp hc).1) st
  | take b q frames ready task queue => exact h.take queue
  | wrote bs rest frames task => exact quiet (.wrote l.conn bs) _ l.unparsed l.frames rfl rfl rfl
  | wroteAll task => exact h.keep id rfl rfl rfl (fun _ => rfl) rfl rfl
  | gaveUp ready => exact h.keep id rfl rfl rfl (fun _ => rfl) rfl rfl
  | received bs frames task =>
    exact quiet (.received l.conn bs) l.task _ l.frames rfl rfl rfl
  | answer p q r rest frames ready queue input => exact h.answer ready queue r rest
  | stray f rest st frames ready queue input =>
    refine balanced_fail (fun c n hc => ?_) st
    rw [fate_of_not_settles rfl] at hc
    exact ((h.outstanding c n).mp hc).1
  | dial frames ready input => exact h.dial hn ready
  | connect frames task input => exact h.connect hn task
  | clear frames ready => exact h.keep id rfl rfl rfl (fun _ => rfl) rfl rfl
  | call st o todo fs frames mem =>
    exact quiet (.failure l.conn o) l.task l.unparsed _ rfl rfl rfl
  | ret f fs frames idle back => exact h.keep id rfl rfl rfl (fun _ => rfl) rfl rfl

end Line

end RedisProxy
