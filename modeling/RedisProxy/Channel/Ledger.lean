/-
  File:      RedisProxy/Channel/Ledger.lean
  Subject:   THE LEDGER OF A LINE: what the history says about connections and commands.

  The history of a line is read in two ways. Per connection: which commands were started on it,
  which frames were parsed from it, which bytes came in and went out (section 1). Per command:
  its fate, which is decided by the first event that settles it (section 2). `Numbered` is the
  invariant behind the first reading: a connection is used by one stretch of the history only.
-/
import RedisProxy.Channel.Line

namespace RedisProxy

open Lib

/-! ## 1. What happened on a connection -/

/-- One command of a batch: the batch's number, the place in the batch, the owner. -/
structure Command where
  id : Nat
  pos : Nat
  owner : Owner
  deriving DecidableEq

/-- The `count` commands of a batch from the place `pos` on. -/
def commandsOf (id : Nat) (o : Owner) (pos count : Nat) : List Command :=
  (List.range' pos count).map fun j => ⟨id, j, o⟩

/-- The commands of a batch are those with its number and owner and a place in the range. -/
@[simp] theorem mem_commandsOf {id pos count : Nat} {o : Owner} {c : Command} :
    c ∈ commandsOf id o pos count ↔
      c.id = id ∧ c.owner = o ∧ pos ≤ c.pos ∧ c.pos < pos + count := by
  simp only [commandsOf, List.mem_map, List.mem_range'_1]
  constructor
  · rintro ⟨j, hj, rfl⟩
    exact ⟨rfl, rfl, hj⟩
  · rintro ⟨rfl, rfl, hj⟩
    exact ⟨c.pos, hj, rfl⟩

@[simp] theorem commandsOf_zero (id pos : Nat) (o : Owner) : commandsOf id o pos 0 = [] := rfl

theorem commandsOf_succ (id pos n : Nat) (o : Owner) :
    commandsOf id o pos (n + 1) = ⟨id, pos, o⟩ :: commandsOf id o (pos + 1) n := by
  simp [commandsOf, List.range'_succ]

@[simp] theorem length_commandsOf (id pos n : Nat) (o : Owner) :
    (commandsOf id o pos n).length = n := by
  simp [commandsOf]

theorem nodup_commandsOf (id pos n : Nat) (o : Owner) : (commandsOf id o pos n).Nodup := by
  refine List.Nodup.map ?_ List.nodup_range'
  intro i j hij
  exact (Command.mk.inj hij).2.1

namespace Event

/-- The connection an event happened on. -/
def conn? : Event → Option Nat
  | .connected n | .submitted n _ _ _ _ | .taken n _ _ _ _ | .wrote n _ | .received n _
  | .replied n _ _ | .stray n _ | .failed n _ | .failure n _ => some n
  | .started | .stopped | .detached _ => none

def commands (n : Nat) : Event → List Command
  | .taken m id o _ count => if m = n then commandsOf id o 0 count else []
  | _ => []

def parsed (n : Nat) : Event → List Bytes
  | .replied m f _ => if m = n then [f] else []
  | .stray m f => if m = n then [f] else []
  | _ => []

def inBytes (n : Nat) : Event → Bytes
  | .received m bs => if m = n then bs else []
  | _ => []

def outBytes (n : Nat) : Event → Bytes
  | .wrote m bs => if m = n then bs else []
  | _ => []

/-- An event of another connection contributes nothing to this one. -/
theorem other_conn {n : Nat} {e : Event} (h : e.conn? ≠ some n) :
    e.commands n = [] ∧ e.parsed n = [] ∧ e.inBytes n = [] ∧ e.outBytes n = [] := by
  cases e with
  | taken m | replied m | stray m | received m | wrote m =>
    have hne : m ≠ n := fun heq => h (congrArg some heq)
    simp [commands, parsed, inBytes, outBytes, hne]
  | _ => exact ⟨rfl, rfl, rfl, rfl⟩

end Event

/-- The commands of the batches moved to `pending_queue_` on connection `n`, in that order. -/
def commandsOn (n : Nat) : List Event → List Command := collect (Event.commands n)

/-- The reply frames parsed on connection `n`, in order. -/
def parsedOn (n : Nat) : List Event → List Bytes := collect (Event.parsed n)

/-- The bytes received on connection `n`. -/
def receivedOn (n : Nat) : List Event → Bytes := collect (Event.inBytes n)

/-- The bytes written to connection `n`. -/
def writtenOn (n : Nat) : List Event → Bytes := collect (Event.outBytes n)

/-- The command the next reply frame of connection `n` answers, by position. -/
def nextCommand (n : Nat) (t : List Event) : Option Command :=
  (commandsOn n t)[(parsedOn n t).length]?

section Cons

variable (n : Nat) (e : Event) (t : List Event)

@[simp] theorem commandsOn_cons : commandsOn n (e :: t) = commandsOn n t ++ e.commands n := rfl

@[simp] theorem parsedOn_cons : parsedOn n (e :: t) = parsedOn n t ++ e.parsed n := rfl

@[simp] theorem receivedOn_cons : receivedOn n (e :: t) = receivedOn n t ++ e.inBytes n := rfl

@[simp] theorem writtenOn_cons : writtenOn n (e :: t) = writtenOn n t ++ e.outBytes n := rfl

end Cons

/-- A connection without events has no commands, frames or bytes. -/
theorem on_fresh {n : Nat} {t : List Event} (h : ∀ e ∈ t, e.conn? ≠ some n) :
    commandsOn n t = [] ∧ parsedOn n t = [] ∧ receivedOn n t = [] ∧ writtenOn n t = [] :=
  ⟨collect_eq_nil fun e he => (Event.other_conn (h e he)).1,
    collect_eq_nil fun e he => (Event.other_conn (h e he)).2.1,
    collect_eq_nil fun e he => (Event.other_conn (h e he)).2.2.1,
    collect_eq_nil fun e he => (Event.other_conn (h e he)).2.2.2⟩

/-- The frame `f` answers the command `c`: they have the same place on a connection. -/
def Answered (t : List Event) (c : Command) (f : Bytes) : Prop :=
  ∃ n j : Nat, (commandsOn n t)[j]? = some c ∧ (parsedOn n t)[j]? = some f

/-- An answer stays one when more happens. -/
theorem Answered.grow {t t' : List Event} {c : Command} {f : Bytes} (h : Answered t c f)
    (hs : t <:+ t') : Answered t' c f := by
  obtain ⟨n, j, hc, hf⟩ := h
  exact ⟨n, j, getElem?_mono (collect_mono hs) hc, getElem?_mono (collect_mono hs) hf⟩

/-- A reply answers the command it was matched with. -/
theorem answered_replied {n : Nat} {t : List Event} {c : Command} (f : Bytes) (dest : Option Owner)
    (h : nextCommand n t = some c) : Answered (.replied n f dest :: t) c f := by
  refine ⟨n, (parsedOn n t).length, ?_, ?_⟩
  · rw [commandsOn_cons]
    exact getElem?_mono (List.prefix_append _ _) h
  · rw [parsedOn_cons, Event.parsed, if_pos rfl]
    exact List.getElem?_concat_length

/-! ## 2. The fate of a command -/

inductive Fate where
  | absent
  | outstanding (conn : Nat)
  | delivered
  | detached
  | failed (conn : Nat)
  deriving DecidableEq

/-- What an event makes of a command's fate; `t` is the past of the event. The first event that
    settles a command decides. -/
def Fate.next (c : Command) (t : List Event) : Event → Fate → Fate
  | .submitted n id o _ count, .absent =>
      if c ∈ commandsOf id o 0 count then .outstanding n else .absent
  | .detached o, .outstanding n => if o = c.owner then .detached else .outstanding n
  | .failed m _, .outstanding n => if m = n then .failed n else .outstanding n
  | .replied m _ _, .outstanding n =>
      if nextCommand m t = some c then .delivered else .outstanding n
  | _, f => f

def fate (c : Command) : List Event → Fate
  | [] => .absent
  | e :: t => (fate c t).next c t e

section Fate

variable {c : Command} {t : List Event} {n : Nat}

theorem fate_cons (e : Event) : fate c (e :: t) = (fate c t).next c t e := rfl

/-- Events other than these four settle nothing. -/
def Event.settles : Event → Bool
  | .submitted _ _ _ _ _ | .detached _ | .failed _ _ | .replied _ _ _ => true
  | _ => false

/-- An event that settles nothing leaves every fate as it was. -/
theorem fate_of_not_settles {e : Event} (h : e.settles = false) : fate c (e :: t) = fate c t := by
  cases e with
  | submitted | detached | failed | replied => cases h
  | started | stopped | connected | taken | wrote | received | stray | failure =>
    rw [fate_cons]
    cases fate c t <;> rfl

/-- A settled command stays as it is. -/
theorem fate_settled {e : Event} (h : ∀ m, fate c t ≠ .outstanding m) (h' : fate c t ≠ .absent) :
    fate c (e :: t) = fate c t := by
  rw [fate_cons]
  cases hf : fate c t with
  | absent => exact absurd hf h'
  | outstanding m => exact absurd hf (h m)
  | delivered | detached | failed => cases e <;> rfl

/-- No event makes a command unknown again. -/
theorem next_ne_absent {e : Event} {f : Fate} (h : f ≠ .absent) : f.next c t e ≠ .absent := by
  unfold Fate.next
  split
  · exact absurd rfl h
  · split <;> nofun
  · split <;> nofun
  · split <;> nofun
  · exact h

/-- A command that was submitted has a fate. -/
theorem fate_of_submitted {bytes : Bytes} {count : Nat}
    (hmem : .submitted n c.id c.owner bytes count ∈ t) (hpos : c.pos < count) :
    fate c t ≠ .absent := by
  induction t with
  | nil => cases hmem
  | cons e t ih =>
    by_cases habs : fate c t = .absent
    · rcases List.mem_cons.mp hmem with rfl | hmem
      · have hc : c ∈ commandsOf c.id c.owner 0 count :=
          mem_commandsOf.mpr ⟨rfl, rfl, Nat.zero_le _, by omega⟩
        rw [fate_cons, habs]
        simp only [Fate.next, if_pos hc]
        nofun
      · exact absurd habs (ih hmem)
    · exact next_ne_absent habs

/-- Every submission is numbered by how much had happened before it. -/
def Submissions : List Event → Prop :=
  Always fun e past => ∀ n id o bytes count,
    e = .submitted n id o bytes count → id = past.length

/-- A command that is known has an older number. -/
theorem id_lt_of_fate (ht : Submissions t) (hf : fate c t ≠ .absent) : c.id < t.length := by
  induction t with
  | nil => exact absurd rfl hf
  | cons e t ih =>
    rw [List.length_cons]
    by_cases habs : fate c t = .absent
    · -- only a submission ends the absence, and it carries the number of the batch
      rw [fate_cons, habs] at hf
      cases e with
      | submitted m id o bytes count =>
        by_cases hc : c ∈ commandsOf id o 0 count
        · have hid : c.id = id := (mem_commandsOf.mp hc).1
          have hlen := ht.1 m id o bytes count rfl
          omega
        · exact absurd (if_neg hc) hf
      | _ => exact absurd rfl hf
    · have := ih ht.2 habs
      omega

/-- A command is outstanding since its submission only. -/
theorem next_outstanding {e : Event} {f : Fate} (h : f.next c t e = .outstanding n) :
    f = .outstanding n ∨ ∃ id o bytes count, f = .absent ∧
      e = .submitted n id o bytes count ∧ c ∈ commandsOf id o 0 count := by
  unfold Fate.next at h
  split at h
  · rename_i m id o bytes count
    split at h
    · rename_i hc
      cases h
      exact Or.inr ⟨id, o, bytes, count, rfl, rfl, hc⟩
    · cases h
  · split at h
    · cases h
    · exact Or.inl h
  · split at h
    · cases h
    · exact Or.inl h
  · split at h
    · cases h
    · exact Or.inl h
  · exact Or.inl h

/-- An outstanding command was submitted on the connection it is outstanding on. -/
theorem submitted_of_outstanding (hf : fate c t = .outstanding n) :
    ∃ bytes count, .submitted n c.id c.owner bytes count ∈ t ∧ c.pos < count := by
  induction t with
  | nil => cases hf
  | cons e t ih =>
    rcases next_outstanding hf with hold | ⟨id, o, bytes, count, _, rfl, hc⟩
    · obtain ⟨bytes, count, hmem, hpos⟩ := ih hold
      exact ⟨bytes, count, List.mem_cons_of_mem _ hmem, hpos⟩
    · obtain ⟨rfl, rfl, _, hpos⟩ := mem_commandsOf.mp hc
      exact ⟨bytes, count, List.mem_cons_self, by omega⟩

/-- A submission makes its commands outstanding and changes no other. -/
theorem fate_submitted (ht : Submissions t) (o : Owner) (bytes : Bytes) (count : Nat) :
    fate c (.submitted n t.length o bytes count :: t) =
      if c ∈ commandsOf t.length o 0 count then .outstanding n else fate c t := by
  rw [fate_cons]
  split
  · rename_i hc
    have habs : fate c t = .absent := by
      by_contra hf
      have hlt := id_lt_of_fate ht hf
      have hid := (mem_commandsOf.mp hc).1
      omega
    rw [habs]
    exact if_pos hc
  · rename_i hc
    cases fate c t with
    | absent => exact if_neg hc
    | _ => rfl

/-- What is outstanding after a detachment was so before and is of another owner. -/
theorem fate_detached {o : Owner} : fate c (.detached o :: t) = .outstanding n ↔
    fate c t = .outstanding n ∧ o ≠ c.owner := by
  rw [fate_cons]
  cases fate c t with
  | outstanding m =>
    simp only [Fate.next]
    split <;> simp_all
  | _ => simp [Fate.next]

/-- What is outstanding after a failure was so before and is on another connection. -/
theorem fate_failed {m : Nat} {st : Status} : fate c (.failed m st :: t) = .outstanding n ↔
    fate c t = .outstanding n ∧ m ≠ n := by
  rw [fate_cons]
  cases fate c t with
  | outstanding k =>
    simp only [Fate.next]
    split
    · rename_i h
      simp [h]
    · rename_i h
      simp only [Fate.outstanding.injEq, iff_self_and]
      rintro rfl
      exact h
  | _ => simp [Fate.next]

/-- What is outstanding after a reply was so before and was not the next to be answered. -/
theorem fate_replied {m : Nat} {f : Bytes} {dest : Option Owner} :
    fate c (.replied m f dest :: t) = .outstanding n ↔
      fate c t = .outstanding n ∧ nextCommand m t ≠ some c := by
  rw [fate_cons]
  cases fate c t with
  | outstanding k =>
    simp only [Fate.next]
    split <;> simp_all
  | _ => simp [Fate.next]

/-- Since its submission the owner of the batch `id` has not been detached. -/
def attached (id : Nat) (o : Owner) : List Event → Bool
  | [] => false
  | .detached o' :: t => o' ≠ o && attached id o t
  | .submitted _ id' o' _ _ :: t => (id' = id && o' = o) || attached id o t
  | _ :: t => attached id o t

/-- The owner of an outstanding command has not left since it submitted it. -/
theorem attached_of_outstanding (hf : fate c t = .outstanding n) :
    attached c.id c.owner t = true := by
  induction t with
  | nil => cases hf
  | cons e t ih =>
    rcases next_outstanding hf with hold | ⟨id, o, bytes, count, _, rfl, hc⟩
    · have hatt := ih hold
      cases e with
      | detached o => simp [attached, hatt, (fate_detached.mp hf).2]
      | submitted => simp [attached, hatt]
      | _ => exact hatt
    · obtain ⟨rfl, rfl, _⟩ := mem_commandsOf.mp hc
      simp [attached]

/-- The owner of a detached one has. -/
theorem not_attached_of_detached (ht : Submissions t) (hf : fate c t = .detached) :
    attached c.id c.owner t = false := by
  induction t with
  | nil => cases hf
  | cons e t ih =>
    by_cases hold : fate c t = .detached
    · have hatt := ih ht.2 hold
      cases e with
      | detached => simp [attached, hatt]
      | submitted m id o bytes count =>
        have hlt := id_lt_of_fate ht.2 (by rw [hold]; nofun : fate c t ≠ .absent)
        have hne : id ≠ c.id := by
          have := ht.1 m id o bytes count rfl
          omega
        simp [attached, hatt, hne]
      | _ => exact hatt
    · -- the event that detached it
      rw [fate_cons] at hf
      unfold Fate.next at hf
      split at hf <;> try (split at hf <;> cases hf)
      · rename_i heq
        simp [attached, *]
      · exact absurd hf hold

end Fate

/-! ## 3. A connection has one stretch of the history -/

namespace Line

/-- The first connection number no event carries yet. -/
def unused (l : Line) : Nat :=
  match l.task with
  | .dialing => l.conn
  | _ => l.conn + 1

theorem unused_of_ne {l : Line} (h : l.task ≠ .dialing) : l.unused = l.conn + 1 := by
  unfold unused
  split
  · rename_i hd
    exact absurd hd h
  · rfl

theorem unused_le (l : Line) : l.unused ≤ l.conn + 1 := by
  unfold unused
  split <;> omega

/-- **What the connection numbers in the history say.** -/
structure Numbered (l : Line) : Prop where
  stamps : ∀ e ∈ l.trace, ∀ m, e.conn? = some m → m < l.unused
  dialing : l.ready = true → l.task ≠ .dialing
  failing : ∀ st todo, .failing st todo ∈ l.frames → l.ready = false ∧ l.task ≠ .dialing
  idle : l.ready = false → l.writeQueue = [] ∧ l.pendingQueue = [] ∧ l.queued = 0
  once : l.ready = true → ∀ st, .failed l.conn st ∉ l.trace
  ids : Submissions l.trace

theorem init_numbered : init.Numbered where
  stamps := nofun
  dialing := nofun
  failing := nofun
  idle _ := ⟨rfl, rfl, rfl⟩
  once := nofun
  ids := trivial

/-- While it is dialed, a connection has no events. -/
theorem Numbered.fresh {l : Line} (h : l.Numbered) (hd : l.task = .dialing) {e : Event}
    (he : e ∈ l.trace) : e.conn? ≠ some l.conn := by
  intro hc
  have hlt := h.stamps e he l.conn hc
  rw [unused, hd] at hlt
  exact Nat.lt_irrefl _ hlt

/-- An event of the present connection, or of none, keeps the stamps below the unused numbers. -/
theorem Numbered.stamps_cons {l : Line} (h : l.Numbered) {e : Event}
    (he : e.conn? = none ∨ e.conn? = some l.conn ∧ l.task ≠ .dialing) :
    ∀ x ∈ e :: l.trace, ∀ m, x.conn? = some m → m < l.unused := by
  intro x hx m hm
  rcases List.mem_cons.mp hx with rfl | hx
  · rcases he with hn | ⟨hc, hd⟩
    · rw [hn] at hm
      cases hm
    · rw [hc] at hm
      cases hm
      rw [unused_of_ne hd]
      exact Nat.lt_succ_self _
  · exact h.stamps x hx m hm

/-- A step that notes one event and neither ends nor begins a connection. -/
theorem Numbered.note {l l' : Line} (h : l.Numbered) (e : Event) (hready : l'.ready = l.ready)
    (hunused : l'.unused = l.unused) (hconn : l'.conn = l.conn)
    (htask : l'.task = .dialing → l.task = .dialing)
    (hframes : ∀ st todo, .failing st todo ∈ l'.frames → ∃ todo', .failing st todo' ∈ l.frames)
    (hidle : l.ready = false → l'.writeQueue = [] ∧ l'.pendingQueue = [] ∧ l'.queued = 0)
    (htrace : l'.trace = e :: l.trace)
    (he : e.conn? = none ∨ e.conn? = some l.conn ∧ l.task ≠ .dialing)
    (hid : ∀ n id o bytes count, e = .submitted n id o bytes count → id = l.trace.length)
    (hfail : ∀ st, e ≠ .failed l.conn st) : l'.Numbered where
  stamps := by
    rw [htrace, hunused]
    exact h.stamps_cons he
  dialing hr hd := h.dialing (hready ▸ hr) (htask hd)
  failing st todo hmem := by
    obtain ⟨todo', hmem'⟩ := hframes st todo hmem
    obtain ⟨hr, hd⟩ := h.failing st todo' hmem'
    exact ⟨hready ▸ hr, fun hd' => hd (htask hd')⟩
  idle hr := hidle (hready ▸ hr)
  once hr st hmem := by
    rw [htrace, hconn] at hmem
    rcases List.mem_cons.mp hmem with heq | hmem
    · exact hfail st heq.symm
    · exact h.once (hready ▸ hr) st hmem
  ids := by
    rw [htrace]
    exact ⟨hid, h.ids⟩

theorem Numbered.fail {l : Line} (h : l.Numbered) (st : Status) (hr : l.ready = true) :
    (l.fail st).Numbered where
  stamps := h.stamps_cons (Or.inr ⟨rfl, h.dialing hr⟩)
  dialing := nofun
  failing _ _ _ := ⟨rfl, h.dialing hr⟩
  idle _ := ⟨rfl, rfl, rfl⟩
  once := nofun
  ids := ⟨nofun, h.ids⟩

/-- An owner that leaves an empty line leaves it empty. -/
theorem detach_idle {l : Line} (o : Owner) (hw : l.writeQueue = []) (hp : l.pendingQueue = [])
    (hq : l.queued = 0) :
    (l.detach o).writeQueue = [] ∧ (l.detach o).pendingQueue = [] ∧ (l.detach o).queued = 0 := by
  simp [Line.detach, hw, hp, hq]

/-- **Every line step keeps the numbering.** -/
theorem Step.numbered {may : List Frame → Outside → Prop} {l l' : Line} (hs : Step may l l')
    (h : l.Numbered) : l'.Numbered := by
  have same : ∀ st todo, Frame.failing st todo ∈ l.frames → ∃ todo', .failing st todo' ∈ l.frames :=
    fun st todo hm => ⟨todo, hm⟩
  cases hs with
  | submit o bytes count ready pos call =>
    have hd := h.dialing ready
    refine h.note _ rfl rfl rfl id same (fun hr => ?_) rfl (Or.inr ⟨rfl, hd⟩) ?_ nofun
    · rw [ready] at hr
      cases hr
    · intro n id o' bytes' count' he
      cases he
      rfl
  | detach o call =>
    refine h.note _ rfl rfl rfl id same (fun hr => ?_) rfl (Or.inl rfl) nofun nofun
    obtain ⟨hw, hp, hq⟩ := h.idle hr
    exact detach_idle o hw hp hq
  | start ready => exact h.note _ rfl rfl rfl id same h.idle rfl (Or.inl rfl) nofun nofun
  | stop call =>
    refine h.note _ rfl rfl rfl id (fun st todo hm => ?_) h.idle rfl (Or.inl rfl) nofun nofun
    rcases List.mem_cons.mp hm with heq | hm
    · cases heq
    · exact ⟨todo, hm⟩
  | fail st ready frames => exact h.fail st ready
  | take b q frames ready task queue =>
    have hd := h.dialing ready
    refine h.note _ rfl ?_ rfl nofun same (fun hr => ?_) rfl (Or.inr ⟨rfl, hd⟩) nofun nofun
    · rw [unused_of_ne hd]
      rfl
    · rw [ready] at hr
      cases hr
  | wrote bs rest frames task =>
    have hd : l.task ≠ .dialing := by rw [task]; nofun
    refine h.note _ rfl ?_ rfl nofun same h.idle rfl (Or.inr ⟨rfl, hd⟩) nofun nofun
    rw [unused_of_ne hd]
    rfl
  | wroteAll task =>
    have hd : l.task ≠ .dialing := by rw [task]; nofun
    refine ⟨fun e he m hm => ?_, nofun, fun st todo hm => ⟨(h.failing st todo hm).1, nofun⟩,
      h.idle, h.once, h.ids⟩
    have hlt := h.stamps e he m hm
    rw [unused_of_ne hd] at hlt
    exact hlt
  | gaveUp ready =>
    refine ⟨fun e he m hm => ?_, nofun, fun st todo hm => ⟨ready, nofun⟩, h.idle, h.once, h.ids⟩
    exact Nat.lt_of_lt_of_le (h.stamps e he m hm) l.unused_le
  | received bs frames task =>
    exact h.note _ rfl rfl rfl id same h.idle rfl (Or.inr ⟨rfl, task⟩) nofun nofun
  | answer p q r rest frames ready queue input =>
    have hd := h.dialing ready
    refine h.note _ rfl rfl rfl id (fun st todo hm => ?_) (fun hr => ?_) rfl (Or.inr ⟨rfl, hd⟩)
      nofun nofun
    · rcases List.mem_append.mp hm with hm | hm
      · cases ho : p.owner <;> rw [ho] at hm <;> simp at hm
      · exact ⟨todo, hm⟩
    · rw [ready] at hr
      cases hr
  | stray f rest st frames ready queue input =>
    have hd := h.dialing ready
    refine Numbered.fail ?_ st ready
    refine h.note _ rfl rfl rfl id same (fun hr => ?_) rfl (Or.inr ⟨rfl, hd⟩) nofun nofun
    rw [ready] at hr
    cases hr
  | dial frames ready input =>
    refine ⟨fun e he m hm => ?_, fun hr => ?_, fun st todo hm => ?_, h.idle, fun hr => ?_, h.ids⟩
    · exact Nat.lt_of_lt_of_le (h.stamps e he m hm) l.unused_le
    · rw [show l.ready = true from hr] at ready
      cases ready
    · rw [show l.frames = [] from frames] at hm
      cases hm
    · rw [show l.ready = true from hr] at ready
      cases ready
  | connect frames task input =>
    refine ⟨fun e he m hm => ?_, nofun, fun st todo hm => ?_, nofun, fun _ st hm => ?_,
      ⟨nofun, h.ids⟩⟩
    · rcases List.mem_cons.mp he with rfl | he
      · cases hm
        exact Nat.lt_succ_self _
      · exact Nat.lt_of_lt_of_le (h.stamps e he m hm) l.unused_le
    · rw [show l.frames = [] from frames] at hm
      cases hm
    · rcases List.mem_cons.mp hm with heq | hm
      · cases heq
      · exact h.fresh task hm rfl
  | clear frames ready => exact ⟨h.stamps, h.dialing, h.failing, h.idle, h.once, h.ids⟩
  | call st o todo fs frames mem =>
    have hf : Frame.failing st todo ∈ l.frames := by rw [frames]; exact List.mem_cons_self
    refine h.note _ rfl rfl rfl id (fun st' todo' hm => ?_) h.idle rfl
      (Or.inr ⟨rfl, (h.failing st todo hf).2⟩) nofun nofun
    rcases List.mem_cons.mp hm with heq | hm
    · cases heq
    · rcases List.mem_cons.mp hm with heq | hm
      · cases heq
        exact ⟨todo, hf⟩
      · exact ⟨todo', by rw [frames]; exact List.mem_cons_of_mem _ hm⟩
  | ret f fs frames idle back =>
    refine ⟨h.stamps, h.dialing, fun st todo hm => ?_, h.idle, h.once, h.ids⟩
    exact h.failing st todo (by rw [frames]; exact List.mem_cons_of_mem _ hm)

end Line

end RedisProxy
