/-
  File:      RedisProxy/Channel/Requests.lean
  Subject:   THE TWO ENDS OF A CONNECTION: which commands arrive at Redis, in which order, and
             which frames the channel makes of the replies that come back.

  * `arrived_in_order` -- if every batch is a sequence of commands, the commands Redis finds in
    what was written to a connection are those that were started there, in that order;
  * `request_of_command` -- the j-th of them is the one the ledger has at the j-th place;
  * `parsed_in_order` -- the frames parsed on a connection are the replies Redis gave there, one
    by one, as long as each of them is one value.
-/
import RedisProxy.Channel.Delivery
import RedisProxy.Channel.Stream
import RedisProxy.Resp.Frames

namespace RedisProxy

open Lib

/-! ## 1. Submitted and started batches -/

theorem id_lt_of_submitted {t : List Event} (ht : Submissions t) {n id count : Nat} {o : Owner}
    {bytes : Bytes} (h : .submitted n id o bytes count ∈ t) : id < t.length := by
  induction t with
  | nil => cases h
  | cons e t ih =>
    rw [List.length_cons]
    rcases List.mem_cons.mp h with rfl | h
    · exact Nat.lt_succ_of_le (Nat.le_of_eq (ht.1 _ _ _ _ _ rfl))
    · exact Nat.lt_succ_of_lt (ih ht.2 h)

/-- A number belongs to one batch. -/
theorem submitted_unique {t : List Event} (ht : Submissions t) {n n' id count count' : Nat}
    {o o' : Owner} {bytes bytes' : Bytes} (h : .submitted n id o bytes count ∈ t)
    (h' : .submitted n' id o' bytes' count' ∈ t) :
    Event.submitted n id o bytes count = .submitted n' id o' bytes' count' := by
  induction t with
  | nil => cases h
  | cons e t ih =>
    rcases List.mem_cons.mp h with he | h <;> rcases List.mem_cons.mp h' with he' | h'
    · exact he.trans he'.symm
    · have hid := ht.1 _ _ _ _ _ he.symm
      have hlt := id_lt_of_submitted ht.2 h'
      omega
    · have hid := ht.1 _ _ _ _ _ he'.symm
      have hlt := id_lt_of_submitted ht.2 h
      omega
    · exact ih ht.2 h h'

namespace Line

/-- What is queued or was started was submitted so. -/
structure Sourced (l : Line) : Prop where
  queue : ∀ b ∈ l.writeQueue,
    .submitted l.conn b.id b.owner b.bytes.bytes b.commandCount ∈ l.trace
  taken : ∀ {n id o bytes count}, .taken n id o bytes count ∈ l.trace →
    .submitted n id o bytes count ∈ l.trace

theorem init_sourced : init.Sourced where
  queue := nofun
  taken := nofun

/-- A step that queues nothing and starts nothing. -/
theorem Sourced.keep {l l' : Line} (h : l.Sourced) (new : List Event)
    (htrace : l'.trace = new ++ l.trace)
    (hnew : ∀ n id o bytes count, .taken n id o bytes count ∉ new)
    (hqueue : ∀ b ∈ l'.writeQueue, b ∈ l.writeQueue ∧ l'.conn = l.conn) : l'.Sourced where
  queue b hb := by
    obtain ⟨hb, hconn⟩ := hqueue b hb
    rw [htrace, hconn]
    exact List.mem_append_right _ (h.queue b hb)
  taken hmem := by
    rw [htrace] at hmem ⊢
    rcases List.mem_append.mp hmem with hmem | hmem
    · exact absurd hmem (hnew _ _ _ _ _)
    · exact List.mem_append_right _ (h.taken hmem)

theorem Step.sourced {may : List Frame → Outside → Prop} {l l' : Line} (hs : Step may l l')
    (hn : l.Numbered) (h : l.Sourced) : l'.Sourced := by
  have same : ∀ b ∈ l.writeQueue, b ∈ l.writeQueue ∧ l.conn = l.conn := fun b hb => ⟨hb, rfl⟩
  cases hs with
  | submit o bytes count ready pos call =>
    refine ⟨fun b hb => ?_, fun hmem => ?_⟩
    · rcases List.mem_append.mp hb with hb | hb
      · exact List.mem_cons_of_mem _ (h.queue b hb)
      · rw [List.mem_singleton.mp hb]
        exact List.mem_cons_self
    · rcases List.mem_cons.mp hmem with he | hmem
      · cases he
      · exact List.mem_cons_of_mem _ (h.taken hmem)
  | detach o call =>
    refine h.keep [.detached o] rfl (by simp) fun b hb => ⟨?_, rfl⟩
    exact List.mem_of_mem_filter hb
  | start ready => exact h.keep [.started] rfl (by simp) same
  | stop call => exact h.keep [.stopped] rfl (by simp) same
  | fail st ready frames => exact h.keep [.failed l.conn st] rfl (by simp) nofun
  | take b q frames ready task queue =>
    have hsub := h.queue b (by rw [queue]; exact List.mem_cons_self)
    refine ⟨fun b' hb' => ?_, fun hmem => ?_⟩
    · exact List.mem_cons_of_mem _ (h.queue b' (by rw [queue]; exact List.mem_cons_of_mem _ hb'))
    · rcases List.mem_cons.mp hmem with he | hmem
      · cases he
        exact List.mem_cons_of_mem _ hsub
      · exact List.mem_cons_of_mem _ (h.taken hmem)
  | wrote bs rest frames task => exact h.keep [.wrote l.conn bs] rfl (by simp) same
  | wroteAll task => exact h.keep [] rfl (by simp) same
  | gaveUp ready => exact h.keep [] rfl (by simp) same
  | received bs frames task => exact h.keep [.received l.conn bs] rfl (by simp) same
  | answer p q r rest frames ready queue input =>
    exact h.keep [.replied l.conn r.bytes p.owner] rfl (by simp) same
  | stray f rest st frames ready queue input =>
    exact h.keep [.failed l.conn st, .stray l.conn f] rfl (by simp) nofun
  | dial frames ready input =>
    refine h.keep [] rfl (by simp) fun b hb => ?_
    rw [(hn.idle ready).1] at hb
    cases hb
  | connect frames task input => exact h.keep [.connected l.conn] rfl (by simp) same
  | clear frames ready => exact h.keep [] rfl (by simp) same
  | call st o todo fs frames mem => exact h.keep [.failure l.conn o] rfl (by simp) same
  | ret f fs frames idle back => exact h.keep [] rfl (by simp) same

/-- Without its owners, a line gets no batch. -/
theorem Step.submitted_old {l l' : Line} (hs : Step Own l l') {n id count : Nat} {o : Owner}
    {bytes : Bytes} (h : .submitted n id o bytes count ∈ l'.trace) :
    .submitted n id o bytes count ∈ l.trace := by
  cases hs with
  | submit o bytes count ready pos call => cases call.2
  | detach o call => cases call.2
  | wroteAll | gaveUp | dial | clear | ret => exact h
  | stray f rest st frames ready queue input =>
    rcases List.mem_cons.mp h with he | h
    · cases he
    · rcases List.mem_cons.mp h with he | h
      · cases he
      · exact h
  | start | stop | fail | take | wrote | received | answer | connect | call =>
    rcases List.mem_cons.mp h with he | h
    · cases he
    · exact h

theorem Steps.submitted_old {l l' : Line} (hs : Steps Own l l') {n id count : Nat} {o : Owner}
    {bytes : Bytes} (h : .submitted n id o bytes count ∈ l'.trace) :
    .submitted n id o bytes count ∈ l.trace := by
  induction hs with
  | refl => exact h
  | tail _ hstep ih => exact ih (hstep.submitted_old h)

end Line

/-! ## 2. The commands that arrive -/

section Requests

variable {α : Type} {p : Reader UInt8 α}

/-- Every batch is a sequence of as many commands as it says. -/
def Framed (p : Reader UInt8 α) (t : List Event) : Prop :=
  ∀ n id o bytes count, .submitted n id o bytes count ∈ t →
    Whole p bytes ∧ (framesOf p bytes).length = count

def Event.requests (p : Reader UInt8 α) (n : Nat) : Event → List Bytes
  | .taken m _ _ bytes _ => if m = n then framesOf p bytes else []
  | _ => []

/-- The commands of the batches started on connection `n`, in order. -/
def requestsOn (p : Reader UInt8 α) (n : Nat) : List Event → List Bytes :=
  collect (Event.requests p n)

/-- The commands that have arrived at the other end of connection `n`. -/
def arrivedOn (p : Reader UInt8 α) (n : Nat) (t : List Event) : List Bytes :=
  framesOf p (writtenOn n t)

theorem requestsOn_cons (n : Nat) (e : Event) (t : List Event) :
    requestsOn p n (e :: t) = requestsOn p n t ++ e.requests p n := rfl

/-- The stream of the started batches falls into their commands. -/
theorem framesOf_started (hp : Incremental p) (ha : Advances p) {n : Nat} {t : List Event}
    (h : ∀ id o bytes count, .taken n id o bytes count ∈ t → Whole p bytes) :
    Whole p (streamOf (startedOn n t)) ∧
      framesOf p (streamOf (startedOn n t)) = requestsOn p n t := by
  have hnil : framesOf p [] = [] := Chain.framesOf_eq (.nil []) hp ha
  induction t with
  | nil => exact ⟨whole_nil p, hnil⟩
  | cons e t ih =>
    obtain ⟨hwhole, hframes⟩ := ih fun id o bytes count hm =>
      h id o bytes count (List.mem_cons_of_mem _ hm)
    have hlast : Whole p (streamOf (e.start n)) ∧
        framesOf p (streamOf (e.start n)) = e.requests p n := by
      cases e with
      | taken m id o bytes count =>
        by_cases hm : m = n
        · subst hm
          simp only [Event.start, Event.requests, if_true, streamOf, List.flatMap_cons,
            List.flatMap_nil, List.append_nil]
          exact ⟨h id o bytes count List.mem_cons_self, trivial⟩
        · simp only [Event.start, Event.requests, if_neg hm]
          exact ⟨whole_nil p, hnil⟩
      | _ => exact ⟨whole_nil p, hnil⟩
    rw [startedOn_cons, streamOf_append, requestsOn_cons]
    refine ⟨hwhole.append hlast.1 hp, ?_⟩
    rw [hwhole.framesOf_append hp ha, hframes, hlast.2]

/-- **What arrives is what was started, in that order.** -/
theorem arrived_in_order (hp : Incremental p) (ha : Advances p) {l : Line} (hs : l.Sourced)
    (hw : l.Streaming) (hf : Framed p l.trace) (n : Nat) :
    arrivedOn p n l.trace <+: requestsOn p n l.trace := by
  have hwhole : ∀ id o bytes count, .taken n id o bytes count ∈ l.trace → Whole p bytes :=
    fun id o bytes count hm => (hf n id o bytes count (hs.taken hm)).1
  rw [← (framesOf_started hp ha hwhole).2]
  exact framesOf_mono hp ha (hw.written n)

theorem length_requests {n : Nat} {e : Event}
    (h : ∀ id o bytes count, e = .taken n id o bytes count → (framesOf p bytes).length = count) :
    (e.requests p n).length = (e.commands n).length := by
  cases e with
  | taken m id o bytes count =>
    by_cases hm : m = n
    · subst hm
      simp only [Event.requests, Event.commands, if_true, length_commandsOf]
      exact h id o bytes count rfl
    · simp only [Event.requests, Event.commands, if_neg hm, List.length_nil]
  | _ => rfl

/-- **The ledger's j-th command is the j-th one started**: the command at its place in its
    batch. -/
theorem request_of_command {n : Nat} {t : List Event}
    (h : ∀ id o bytes count, .taken n id o bytes count ∈ t → (framesOf p bytes).length = count) :
    (requestsOn p n t).length = (commandsOn n t).length ∧
      ∀ {j : Nat} {c : Command}, (commandsOn n t)[j]? = some c →
        ∃ bytes count, .taken n c.id c.owner bytes count ∈ t ∧
          (requestsOn p n t)[j]? = (framesOf p bytes)[c.pos]? := by
  induction t with
  | nil => exact ⟨rfl, nofun⟩
  | cons e t ih =>
    obtain ⟨hlen, hold⟩ := ih fun id o bytes count hm =>
      h id o bytes count (List.mem_cons_of_mem _ hm)
    have hlast := length_requests (p := p) (n := n) (e := e) fun id o bytes count he =>
      h id o bytes count (he ▸ List.mem_cons_self)
    rw [requestsOn_cons, commandsOn_cons]
    refine ⟨by rw [List.length_append, List.length_append, hlen, hlast], fun {j c} hj => ?_⟩
    by_cases hlt : j < (commandsOn n t).length
    · rw [List.getElem?_append_left hlt] at hj
      obtain ⟨bytes, count, hm, hreq⟩ := hold hj
      refine ⟨bytes, count, List.mem_cons_of_mem _ hm, ?_⟩
      rw [List.getElem?_append_left (hlen ▸ hlt)]
      exact hreq
    · have hge := Nat.not_lt.mp hlt
      rw [List.getElem?_append_right hge] at hj
      rw [List.getElem?_append_right (hlen ▸ hge), hlen]
      cases e with
      | taken m id o bytes count =>
        by_cases hm : m = n
        · subst hm
          simp only [Event.commands, if_true, commandsOf, List.getElem?_map] at hj
          obtain ⟨k, hk, rfl⟩ := Option.map_eq_some_iff.mp hj
          obtain ⟨_, hk⟩ := List.getElem?_eq_some_iff.mp hk
          rw [List.getElem_range'] at hk
          refine ⟨bytes, count, List.mem_cons_self, ?_⟩
          simp only [Event.requests, if_true]
          rw [← hk]
          simp
        · simp only [Event.commands, if_neg hm] at hj
          cases hj
      | _ => cases hj

end Requests

/-! ## 3. The replies that come back -/

/-- One reply of Redis: who finds a value at the front of a stream that begins with it finds just
    this one. -/
def IsReply (U : UnpackOne) (r : Bytes) : Prop :=
  ∀ limits maxBytes x v k, firstValue U limits maxBytes (r ++ x) = .done v k → k = r.length

/-- The first value in a piece of a stream of replies is the first of them. -/
theorem first_reply {U : UnpackOne} (hU : UnpackOneSpec U) {rs : List Bytes}
    (hrs : ∀ r ∈ rs, IsReply U r) {limits : RespLimits} {maxBytes : Nat} {i frame rest : Bytes}
    {v : RespValue} (hi : i <+: rs.flatten) (hsplit : i = frame ++ rest)
    (hv : firstValue U limits maxBytes i = .done v frame.length) : ∃ rs', rs = frame :: rs' := by
  have hp := incremental_firstValue hU limits maxBytes
  have hpos : 0 < frame.length := advances_firstValue hU limits maxBytes hv
  obtain ⟨x, hx⟩ := hi
  have hall := hp.done_append hv x
  rw [hx] at hall
  cases rs with
  | nil =>
    have hle := hp.used_le hall
    simp only [List.flatten_nil, List.length_nil] at hle
    omega
  | cons r rs =>
    have hlen := hrs r List.mem_cons_self limits maxBytes _ v _ hall
    have hfront : frame ++ (rest ++ x) = r ++ rs.flatten := by
      rw [← List.append_assoc, ← hsplit, hx, List.flatten_cons]
    exact ⟨rs, by rw [(List.append_inj hfront hlen).1]⟩

namespace BackendChannel

variable {U : UnpackOne} {allow : Owner → Op → Bool} {ch ch' : BackendChannel}

theorem Mute.parsedOn (h : ch.Mute ch') (n : Nat) :
    parsedOn n ch'.trace = parsedOn n ch.trace := by
  obtain ⟨new, fs, ht, _, hnew, _⟩ := h
  have hnil : collect (Event.parsed n) new = [] := collect_eq_nil fun e he => hnew e he n
  rw [ht, RedisProxy.parsedOn, collect_append, hnil, List.append_nil]

/-- What a step parses: nothing, or the first value of what was received and not parsed. -/
def Parses (U : UnpackOne) (ch ch' : BackendChannel) : Prop :=
  ∃ limits maxBytes v frame rest, ch.isHealthy = true ∧ ch.redisIn.content = frame ++ rest ∧
    firstValue U limits maxBytes ch.redisIn.content = .done v frame.length ∧
    ∀ n, RedisProxy.parsedOn n ch'.trace =
      RedisProxy.parsedOn n ch.trace ++ if ch.conn = n then [frame] else []

theorem readerStep_parses (hU : UnpackOneSpec U) {pc : ReaderPc} {io : ReaderIo}
    {x : BackendChannel × Option ReaderPc} (h : ch.readerStep U pc io = some x) :
    ch.Mute x.1 ∨ ch.Parses U x.1 := by
  refine (readerStep_cases h).imp_right ?_
  rintro ⟨alloc, reply, parser, b, hready, hnext, hx⟩
  obtain ⟨hsplit, _⟩ := RespParser.nextReplyFrame_split hU hnext
  cases hsplit with
  | found frame front =>
    refine ⟨_, _, _, reply.bytes, _, hready, front, frame, fun n => ?_⟩
    rw [hx]
    unfold dispatchReply
    split
    · have hstray : Mute
          { ch with
            replyParser := parser, redisIn := b, trace := .stray ch.conn reply.bytes :: ch.trace }
          { ch with
            replyParser := parser, redisIn := b, trace := .stray ch.conn reply.bytes :: ch.trace } :=
        mute_same rfl rfl
      exact (hstray.fail _).parsedOn n
    · rfl

theorem step_parses (hU : UnpackOneSpec U) {a : Act} (hs : ch.step U allow a = some ch') :
    (∀ n, RedisProxy.parsedOn n ch'.trace = RedisProxy.parsedOn n ch.trace) ∨
      ch.Parses U ch' := by
  cases a with
  | op o =>
    simp only [step] at hs
    split at hs
    · cases hs
      exact Or.inl (mute_apply ch o).parsedOn
    · cases hs
  | ret =>
    simp only [step, ret] at hs
    split at hs <;> cases hs <;> exact Or.inl fun _ => rfl
  | next o =>
    simp only [step, next] at hs
    split at hs
    · split at hs
      · cases hs
        exact Or.inl fun _ => List.append_nil _
      · cases hs
    · cases hs
  | run i io =>
    simp only [step, runTask] at hs
    split at hs
    · obtain ⟨x, hx, rfl⟩ := Option.map_eq_some_iff.mp hs
      exact Or.inl (mute_runStep hx).parsedOn
    · cases hs
  | reader i io =>
    simp only [step, readerTask] at hs
    split at hs
    · obtain ⟨x, hx, rfl⟩ := Option.map_eq_some_iff.mp hs
      exact (readerStep_parses hU hx).imp_left fun hm => hm.parsedOn
    · cases hs

section Reachable

variable {blockSize : Nat} {hb : 0 < blockSize}

theorem sourced_reachable (h : (machine U allow blockSize hb).Reachable ch) : ch.line.Sourced :=
  (line_invariant (I := fun l => l.Numbered ∧ l.Sourced) ⟨Line.init_numbered, Line.init_sourced⟩
    (fun _ _ hI hs => ⟨hs.numbered hI.1, hs.sourced hI.1 hI.2⟩) h).2

/-- A frame more is the next reply. -/
theorem Parses.in_order (hU : UnpackOneSpec U) (h : ch.Parses U ch') (hr : ch.line.Replies)
    {rs : Nat → List Bytes} (hrs : ∀ n, ∀ r ∈ rs n, IsReply U r)
    (hin : ∀ n, receivedOn n ch.trace <+: (rs n).flatten)
    (hold : ∀ n, RedisProxy.parsedOn n ch.trace <+: rs n) (n : Nat) :
    RedisProxy.parsedOn n ch'.trace <+: rs n := by
  obtain ⟨limits, maxBytes, v, frame, rest, hready, hsplit, hv, hparsed⟩ := h
  rw [hparsed]
  by_cases hn : ch.conn = n
  · subst hn
    rw [if_pos rfl]
    have hinput : receivedOn ch.conn ch.trace =
        (RedisProxy.parsedOn ch.conn ch.trace).flatten ++ ch.redisIn.content := hr.input hready
    obtain ⟨later, hlater⟩ := hold ch.conn
    -- the replies parsed before are cut off the stream
    have hfront : ch.redisIn.content <+: later.flatten := by
      have hall := hin ch.conn
      rw [hinput, ← hlater, List.flatten_append] at hall
      exact (List.prefix_append_right_inj _).mp hall
    have hnext : ∀ r ∈ later, IsReply U r := fun r hr =>
      hrs ch.conn r (by rw [← hlater]; exact List.mem_append_right _ hr)
    obtain ⟨rs', rfl⟩ := first_reply hU hnext hfront hsplit hv
    rw [← hlater]
    exact ⟨rs', by simp⟩
  · rw [if_neg hn, List.append_nil]
    exact hold n

/-- **The frames parsed on a connection are the replies given there.** If each reply is one value
    and what was received is a front part of the replies, the frames are the first of them. -/
theorem parsed_in_order (hU : UnpackOneSpec U) (h : (machine U allow blockSize hb).Reachable ch)
    {rs : Nat → List Bytes} (hrs : ∀ n, ∀ r ∈ rs n, IsReply U r)
    (hin : ∀ n, receivedOn n ch.trace <+: (rs n).flatten) (n : Nat) :
    RedisProxy.parsedOn n ch.trace <+: rs n := by
  -- the premise is carried along the run, because it holds earlier if it holds now
  have key : (∀ n, receivedOn n ch.trace <+: (rs n).flatten) →
      ∀ n, RedisProxy.parsedOn n ch.trace <+: rs n := by
    refine h.invariant (I := fun ch => (∀ n, receivedOn n ch.trace <+: (rs n).flatten) →
      ∀ n, RedisProxy.parsedOn n ch.trace <+: rs n) ?_ ?_
    · exact fun _ n => List.nil_prefix
    intro ch a ch' hch hI hs hin'
    have hgrow : ch.trace <:+ ch'.trace := (step_line (life_reachable hch) hs).history
    have hin : ∀ n, receivedOn n ch.trace <+: (rs n).flatten :=
      fun n => (collect_mono hgrow).trans (hin' n)
    rcases step_parses hU hs with hsame | hparses
    · intro n
      rw [hsame]
      exact hI hin n
    · exact hparses.in_order hU (ledger_reachable hch).2.2 hrs hin (hI hin)
  exact key hin n

end Reachable

end BackendChannel

end RedisProxy
