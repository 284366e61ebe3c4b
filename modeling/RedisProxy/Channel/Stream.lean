/-
  File:      RedisProxy/Channel/Stream.lean
  Subject:   WHAT GOES OUT ON A CONNECTION: whole batches, in submit order, none of them cut.

  A batch is kept if it was started or its owner is still attached; `keptOn n` lists the kept
  batches submitted on connection `n` in submit order. `Streaming` is the invariant: the started
  batches are a prefix of the kept ones, what was written is a prefix of the started batches'
  bytes, and when a batch is started all bytes of the earlier ones have gone out.
-/
import RedisProxy.Channel.Balance

namespace RedisProxy

open Lib

/-! ## 1. Submitted, started and kept batches -/

/-- A batch as the history knows it. -/
structure Entry where
  id : Nat
  owner : Owner
  bytes : Bytes
  deriving DecidableEq

def RequestBatch.entry (b : RequestBatch) : Entry := ⟨b.id, b.owner, b.bytes.bytes⟩

def Event.submission (n : Nat) : Event → List Entry
  | .submitted m id o bytes _ => if m = n then [⟨id, o, bytes⟩] else []
  | _ => []

def Event.start (n : Nat) : Event → List Entry
  | .taken m id o bytes _ => if m = n then [⟨id, o, bytes⟩] else []
  | _ => []

/-- The batches submitted on connection `n`, in order. -/
def submittedOn (n : Nat) : List Event → List Entry := collect (Event.submission n)

/-- The batches the writer took on connection `n`, in order. -/
def startedOn (n : Nat) : List Event → List Entry := collect (Event.start n)

/-- The batches submitted on connection `n` whose owner was not detached before the writer took
    them, in submit order. -/
def keptOn (n : Nat) (t : List Event) : List Entry :=
  (submittedOn n t).filter fun x => decide (x ∈ startedOn n t) || attached x.id x.owner t

@[simp] theorem submittedOn_cons (n : Nat) (e : Event) (t : List Event) :
    submittedOn n (e :: t) = submittedOn n t ++ e.submission n := rfl

@[simp] theorem startedOn_cons (n : Nat) (e : Event) (t : List Event) :
    startedOn n (e :: t) = startedOn n t ++ e.start n := rfl

theorem Event.other_conn_batches {n : Nat} {e : Event} (h : e.conn? ≠ some n) :
    e.submission n = [] ∧ e.start n = [] := by
  cases e with
  | submitted m | taken m =>
    have hne : m ≠ n := fun heq => h (congrArg some heq)
    simp [submission, start, hne]
  | _ => exact ⟨rfl, rfl⟩

/-- A batch is numbered by what had happened before it. -/
theorem id_lt_of_submittedOn {t : List Event} (ht : Submissions t) {n : Nat} {x : Entry}
    (hx : x ∈ submittedOn n t) : x.id < t.length := by
  induction t with
  | nil => cases hx
  | cons e t ih =>
    rw [List.length_cons]
    rcases List.mem_append.mp hx with hx | hx
    · have := ih ht.2 hx
      omega
    · cases e with
      | submitted m id o bytes count =>
        have hid := ht.1 m id o bytes count rfl
        simp only [Event.submission] at hx
        split at hx
        · rw [List.mem_singleton.mp hx]
          show id < _
          omega
        · cases hx
      | _ => cases hx

/-- So no two batches are the same entry. -/
theorem nodup_submittedOn {t : List Event} (ht : Submissions t) (n : Nat) :
    (submittedOn n t).Nodup := by
  induction t with
  | nil => exact List.nodup_nil
  | cons e t ih =>
    rw [submittedOn_cons]
    cases e with
    | submitted m id o bytes count =>
      simp only [Event.submission]
      split
      · refine List.nodup_append.mpr ⟨ih ht.2, List.nodup_singleton _, ?_⟩
        rintro x hx y hy rfl
        have hlt := id_lt_of_submittedOn ht.2 hx
        rw [List.mem_singleton.mp hy] at hlt
        have hid := ht.1 m id o bytes count rfl
        simp only at hlt
        omega
      · simpa using ih ht.2
    | _ => simpa [Event.submission] using ih ht.2

/-- An event that neither submits, starts nor detaches a batch keeps the kept ones. -/
theorem keptOn_cons {n : Nat} {e : Event} {t : List Event} (hs : e.submission n = [])
    (hst : e.start n = []) (ha : ∀ id o, attached id o (e :: t) = attached id o t) :
    keptOn n (e :: t) = keptOn n t := by
  simp only [keptOn, submittedOn_cons, startedOn_cons, hs, hst, List.append_nil, ha]

/-- A detachment takes the batches of its owner out of the order, except those that were started. -/
theorem keptOn_detached (n : Nat) (o : Owner) (t : List Event) :
    keptOn n (.detached o :: t) =
      (keptOn n t).filter fun x => decide (x ∈ startedOn n t) || decide (o ≠ x.owner) := by
  simp only [keptOn, submittedOn_cons, startedOn_cons, Event.submission, Event.start,
    List.append_nil, List.filter_filter, attached]
  congr 1
  funext x
  cases decide (x ∈ startedOn n t) <;> simp

/-- A new batch comes last in the order. -/
theorem keptOn_submitted {t : List Event} (ht : Submissions t) (n m : Nat) (o : Owner)
    (bytes : Bytes) (count : Nat) : keptOn n (.submitted m t.length o bytes count :: t) =
      keptOn n t ++ (Event.submitted m t.length o bytes count).submission n := by
  have hold : ∀ x ∈ submittedOn n t,
      attached x.id x.owner (.submitted m t.length o bytes count :: t) =
        attached x.id x.owner t := by
    intro x hx
    have hlt := id_lt_of_submittedOn ht hx
    have hne : t.length ≠ x.id := by omega
    simp [attached, hne]
  have hstart : (Event.submitted m t.length o bytes count).start n = [] := rfl
  simp only [keptOn, submittedOn_cons, startedOn_cons, hstart, List.append_nil,
    List.filter_append]
  congr 1
  · refine List.filter_congr fun x hx => ?_
    rw [hold x hx]
  · simp only [Event.submission]
    split
    · simp [attached]
    · rfl

/-- A batch whose owner is attached is kept before and after it is started. -/
theorem keptOn_taken {t : List Event} {n m id : Nat} {o : Owner} {bytes : Bytes} {count : Nat}
    (ha : attached id o t = true) : keptOn n (.taken m id o bytes count :: t) = keptOn n t := by
  simp only [keptOn, submittedOn_cons, Event.submission, List.append_nil]
  refine List.filter_congr fun x _ => ?_
  have hatt : attached x.id x.owner (.taken m id o bytes count :: t) = attached x.id x.owner t :=
    rfl
  rw [hatt, startedOn_cons]
  by_cases hx : x ∈ (Event.taken m id o bytes count).start n
  · have hxa : attached x.id x.owner t = true := by
      simp only [Event.start] at hx
      split at hx
      · rw [List.mem_singleton.mp hx]
        exact ha
      · cases hx
    simp [hxa]
  · simp [hx]

/-! ## 2. The stream of a line -/

/-- The bytes of the batches, one after the other. -/
def streamOf (l : List Entry) : Bytes := l.flatMap Entry.bytes

@[simp] theorem streamOf_append (l l' : List Entry) :
    streamOf (l ++ l') = streamOf l ++ streamOf l' := List.flatMap_append

/-- When a batch is started, the earlier ones of the connection have gone out whole. -/
def WholeBatches : List Event → Prop :=
  Always fun e past => ∀ n id o bytes count, e = .taken n id o bytes count →
    writtenOn n past = streamOf (startedOn n past)

namespace Line

structure Streaming (l : Line) : Prop where
  kept : ∀ n, startedOn n l.trace <+: keptOn n l.trace
  queue : l.ready = true →
    keptOn l.conn l.trace = startedOn l.conn l.trace ++ l.writeQueue.map RequestBatch.entry
  written : ∀ n, writtenOn n l.trace <+: streamOf (startedOn n l.trace)
  writing : ∀ rest, l.task = .writing rest →
    writtenOn l.conn l.trace ++ rest = streamOf (startedOn l.conn l.trace)
  between : l.ready = true → l.task = .idle →
    writtenOn l.conn l.trace = streamOf (startedOn l.conn l.trace)
  whole : WholeBatches l.trace

theorem init_streaming : init.Streaming where
  kept _ := List.nil_prefix
  queue := nofun
  written _ := List.nil_prefix
  writing := nofun
  between := nofun
  whole := trivial

/-- A step that touches neither the queue nor the stream. -/
theorem Streaming.keep {l l' : Line} (h : l.Streaming) (hconn : l'.conn = l.conn)
    (hready : l'.ready = true → l.ready = true ∧ l'.writeQueue = l.writeQueue)
    (htask : l'.task = l.task) (hkept : ∀ n, keptOn n l'.trace = keptOn n l.trace)
    (hstart : ∀ n, startedOn n l'.trace = startedOn n l.trace)
    (hwritten : ∀ n, writtenOn n l'.trace = writtenOn n l.trace)
    (hwhole : WholeBatches l'.trace) : l'.Streaming := by
  refine ⟨fun n => ?_, fun hr => ?_, fun n => ?_, fun rest ht => ?_, fun hr ht => ?_, hwhole⟩
  · rw [hkept, hstart]
    exact h.kept n
  · obtain ⟨hr, hq⟩ := hready hr
    rw [hconn, hkept, hstart, hq]
    exact h.queue hr
  · rw [hwritten, hstart]
    exact h.written n
  · rw [hconn, hwritten, hstart]
    exact h.writing rest (htask ▸ ht)
  · rw [hconn, hwritten, hstart]
    exact h.between (hready hr).1 (htask ▸ ht)

/-- The same for a step that notes an event. -/
theorem Streaming.note {l l' : Line} (h : l.Streaming) (e : Event)
    (htrace : l'.trace = e :: l.trace) (hconn : l'.conn = l.conn)
    (hready : l'.ready = true → l.ready = true ∧ l'.writeQueue = l.writeQueue)
    (htask : l'.task = l.task) (hsub : ∀ n, e.submission n = []) (hst : ∀ n, e.start n = [])
    (ha : ∀ id o, attached id o (e :: l.trace) = attached id o l.trace)
    (hout : ∀ n, e.outBytes n = []) (hno : ∀ n id o bytes count, e ≠ .taken n id o bytes count) :
    l'.Streaming := by
  refine h.keep hconn hready htask (fun n => ?_) (fun n => ?_) (fun n => ?_) ?_ <;> rw [htrace]
  · exact keptOn_cons (hsub n) (hst n) ha
  · rw [startedOn_cons, hst, List.append_nil]
  · rw [writtenOn_cons, hout, List.append_nil]
  · exact ⟨fun n id o bytes count he => absurd he (hno n id o bytes count), h.whole⟩

/-- The owner of a queued batch has not left. -/
theorem attached_of_queued {l : Line} (hb : l.Balanced) {b : RequestBatch}
    (hmem : b ∈ l.writeQueue) : attached b.id b.owner l.trace = true := by
  have hc : (⟨b.id, 0, b.owner⟩ : Command) ∈ l.unsent := by
    refine mem_unsent.mpr ⟨b, hmem, mem_commandsOf.mpr ⟨rfl, rfl, Nat.le_refl 0, ?_⟩⟩
    have := hb.counts b hmem
    simpa using this
  exact attached_of_outstanding ((hb.outstanding _ _).mpr ⟨rfl, Or.inl hc⟩)

/-- The queued batches were not started. -/
theorem Streaming.not_started {l : Line} (h : l.Streaming) (hn : l.Numbered)
    (hr : l.ready = true) {b : RequestBatch} (hmem : b ∈ l.writeQueue) :
    b.entry ∉ startedOn l.conn l.trace := by
  have hnd : (keptOn l.conn l.trace).Nodup := (nodup_submittedOn hn.ids l.conn).filter _
  rw [h.queue hr] at hnd
  intro hs
  exact (List.nodup_append.mp hnd).2.2 _ hs _ (List.mem_map_of_mem hmem) rfl

/-- What is taken from the queue by a detachment is taken out of the order too. -/
theorem Streaming.detach {l : Line} (h : l.Streaming) (hn : l.Numbered) (o : Owner) :
    (l.detach o).Streaming := by
  have hfilter : ∀ n, (startedOn n l.trace).filter (fun x =>
      decide (x ∈ startedOn n l.trace) || decide (o ≠ x.owner)) = startedOn n l.trace := by
    intro n
    refine List.filter_eq_self.mpr fun x hx => ?_
    simp [hx]
  refine ⟨fun n => ?_, fun hr => ?_, fun n => ?_, fun rest ht => ?_, fun hr ht => ?_,
    ⟨nofun, h.whole⟩⟩
  · show startedOn n (.detached o :: l.trace) <+: keptOn n (.detached o :: l.trace)
    obtain ⟨rest, hrest⟩ := h.kept n
    rw [keptOn_detached, ← hrest, List.filter_append, hfilter]
    simp [Event.start]
  · show keptOn l.conn (.detached o :: l.trace) = startedOn l.conn (.detached o :: l.trace) ++ _
    have hr : l.ready = true := hr
    rw [keptOn_detached, h.queue hr, List.filter_append, hfilter]
    simp only [startedOn_cons, Event.start, List.append_nil, Line.detach, List.filter_map]
    congr 2
    refine List.filter_congr fun b hb => ?_
    have hns := h.not_started hn hr hb
    rw [Function.comp, Bool.eq_iff_iff, Bool.or_eq_true, decide_eq_true_iff, decide_eq_true_iff,
      decide_eq_true_iff]
    exact ⟨fun hx => (hx.resolve_left hns).symm, fun hx => Or.inr hx.symm⟩
  · simpa [Line.detach, Event.start, Event.outBytes] using h.written n
  · simpa [Line.detach, Event.start, Event.outBytes] using h.writing rest ht
  · simpa [Line.detach, Event.start, Event.outBytes] using h.between hr ht

theorem startedOn_submit (l : Line) (o : Owner) (bytes : BufferChain) (count n : Nat) :
    startedOn n (l.submit o bytes count).trace = startedOn n l.trace := by
  simp [Line.submit, Event.start]

theorem writtenOn_submit (l : Line) (o : Owner) (bytes : BufferChain) (count n : Nat) :
    writtenOn n (l.submit o bytes count).trace = writtenOn n l.trace := by
  simp [Line.submit, Event.outBytes]

theorem startedOn_take (l : Line) (b : RequestBatch) (q : List RequestBatch) (n : Nat) :
    startedOn n (l.take b q).trace =
      startedOn n l.trace ++ if n = l.conn then [b.entry] else [] := by
  by_cases hne : n = l.conn
  · simp [Line.take, Event.start, RequestBatch.entry, hne]
  · simp [Line.take, Event.start, hne, Ne.symm hne]

theorem writtenOn_take (l : Line) (b : RequestBatch) (q : List RequestBatch) (n : Nat) :
    writtenOn n (l.take b q).trace = writtenOn n l.trace := by
  simp [Line.take, Event.outBytes]

theorem streamOf_entry (b : RequestBatch) : streamOf [b.entry] = b.bytes.bytes := by
  simp [streamOf, RequestBatch.entry]

/-- A batch is queued last and is last in the order. -/
theorem Streaming.submit {l : Line} (h : l.Streaming) (hn : l.Numbered) (o : Owner)
    (bytes : BufferChain) (count : Nat) : (l.submit o bytes count).Streaming := by
  have hkept : ∀ n, keptOn n (l.submit o bytes count).trace = keptOn n l.trace ++
      (Event.submitted l.conn l.trace.length o bytes.bytes count).submission n :=
    fun n => keptOn_submitted hn.ids n l.conn o bytes.bytes count
  have hstart := startedOn_submit l o bytes count
  have hwritten := writtenOn_submit l o bytes count
  refine ⟨fun n => ?_, fun hr => ?_, fun n => ?_, fun rest ht => ?_, fun hr ht => ?_,
    ⟨nofun, h.whole⟩⟩
  · rw [hkept, hstart]
    exact (h.kept n).trans (List.prefix_append _ _)
  · show keptOn l.conn _ = startedOn l.conn _ ++ _
    rw [hkept, hstart, h.queue hr]
    simp [Line.submit, Event.submission, RequestBatch.entry]
  · rw [hwritten, hstart]
    exact h.written n
  · show writtenOn l.conn _ ++ _ = streamOf (startedOn l.conn _)
    rw [hwritten, hstart]
    exact h.writing rest ht
  · show writtenOn l.conn _ = streamOf (startedOn l.conn _)
    rw [hwritten, hstart]
    exact h.between hr ht

/-- **A batch is started only when the one before it is out**: the task was idle, so nothing of an
    earlier one is left. -/
theorem Streaming.take {l : Line} (h : l.Streaming) (hb : l.Balanced) {b : RequestBatch}
    {q : List RequestBatch} (hr : l.ready = true) (ht : l.task = .idle)
    (hq : l.writeQueue = b :: q) : (l.take b q).Streaming := by
  have hatt := attached_of_queued hb (b := b) (by rw [hq]; exact List.mem_cons_self)
  have hkept : ∀ n, keptOn n (l.take b q).trace = keptOn n l.trace := fun n => keptOn_taken hatt
  have hstart : startedOn l.conn (l.take b q).trace = startedOn l.conn l.trace ++ [b.entry] := by
    rw [startedOn_take, if_pos rfl]
  have hother : ∀ n, n ≠ l.conn → startedOn n (l.take b q).trace = startedOn n l.trace := by
    intro n hne
    rw [startedOn_take, if_neg hne, List.append_nil]
  have hwritten := writtenOn_take l b q
  have hqueue := h.queue hr
  rw [hq] at hqueue
  have hdone := h.between hr ht
  have hstream := streamOf_entry b
  refine ⟨fun n => ?_, fun _ => ?_, fun n => ?_, fun rest hrest => ?_, nofun, ?_, h.whole⟩
  · by_cases hne : n = l.conn
    · subst hne
      rw [hkept, hstart, hqueue]
      exact ⟨q.map RequestBatch.entry, by simp⟩
    · rw [hkept, hother n hne]
      exact h.kept n
  · show keptOn l.conn _ = startedOn l.conn _ ++ q.map RequestBatch.entry
    rw [hkept, hstart, hqueue]
    simp
  · by_cases hne : n = l.conn
    · subst hne
      rw [hwritten, hstart, streamOf_append, hdone]
      exact List.prefix_append _ _
    · rw [hwritten, hother n hne]
      exact h.written n
  · obtain rfl : b.bytes.bytes = rest := LineTask.writing.inj hrest
    show writtenOn l.conn _ ++ _ = streamOf (startedOn l.conn _)
    rw [hwritten, hstart, streamOf_append, hdone, hstream]
  · intro n id o bytes count he
    obtain ⟨rfl, _⟩ := Event.taken.inj he
    exact hdone

/-- What is written are the next bytes of the batch at work. -/
theorem Streaming.wrote {l : Line} (h : l.Streaming) {bs rest : Bytes}
    (ht : l.task = .writing (bs ++ rest)) :
    Streaming { l with task := .writing rest, trace := .wrote l.conn bs :: l.trace } := by
  have hall := h.writing _ ht
  have hkept : ∀ n, keptOn n (.wrote l.conn bs :: l.trace) = keptOn n l.trace :=
    fun n => keptOn_cons rfl rfl fun _ _ => rfl
  have hstart : ∀ n, startedOn n (.wrote l.conn bs :: l.trace) = startedOn n l.trace := by
    intro n
    simp [Event.start]
  refine ⟨fun n => ?_, fun hr => ?_, fun n => ?_, fun rest' hrest => ?_, nofun,
    ⟨nofun, h.whole⟩⟩
  · rw [hkept, hstart]
    exact h.kept n
  · show keptOn l.conn _ = startedOn l.conn _ ++ _
    rw [hkept, hstart]
    exact h.queue hr
  · rw [hstart]
    by_cases hne : n = l.conn
    · subst hne
      refine ⟨rest, ?_⟩
      rw [← hall]
      simp [Event.outBytes]
    · simpa [Event.outBytes, Ne.symm hne] using h.written n
  · obtain rfl : rest = rest' := LineTask.writing.inj hrest
    show writtenOn l.conn _ ++ _ = streamOf (startedOn l.conn _)
    rw [hstart, ← hall]
    simp [Event.outBytes]

/-- A new connection starts with nothing written and nothing submitted. -/
theorem Streaming.connect {l : Line} (h : l.Streaming) (hn : l.Numbered)
    (hd : l.task = .dialing) :
    Streaming { l with ready := true, task := .idle, trace := .connected l.conn :: l.trace } := by
  obtain ⟨hw, _, _⟩ := hn.idle (hn.not_ready hd)
  obtain ⟨_, _, _, hwritten⟩ := on_fresh fun e he => hn.fresh hd he
  have hstart : startedOn l.conn l.trace = [] :=
    collect_eq_nil fun e he => (Event.other_conn_batches (hn.fresh hd he)).2
  have hsub : submittedOn l.conn l.trace = [] :=
    collect_eq_nil fun e he => (Event.other_conn_batches (hn.fresh hd he)).1
  refine ⟨fun n => ?_, fun _ => ?_, fun n => ?_, nofun, fun _ _ => ?_, ⟨nofun, h.whole⟩⟩
  · rw [keptOn_cons rfl rfl fun _ _ => rfl]
    simpa [Event.start] using h.kept n
  · show keptOn l.conn _ = startedOn l.conn _ ++ l.writeQueue.map _
    rw [keptOn_cons rfl rfl fun _ _ => rfl, hw]
    simp [keptOn, hsub, hstart, Event.start]
  · simpa [Event.start, Event.outBytes] using h.written n
  · simp [hstart, hwritten, Event.start, Event.outBytes, streamOf]

/-- **Every line step keeps it.** -/
theorem Step.streaming {may : List Frame → Outside → Prop} {l l' : Line} (hs : Step may l l')
    (hn : l.Numbered) (hb : l.Balanced) (h : l.Streaming) : l'.Streaming := by
  have same : l.ready = true → l.ready = true ∧ l.writeQueue = l.writeQueue := fun hr => ⟨hr, rfl⟩
  have rest : ∀ n, keptOn n l.trace = keptOn n l.trace := fun _ => rfl
  cases hs with
  | submit o bytes count ready pos call => exact h.submit hn o bytes count
  | detach o call => exact h.detach hn o
  | start ready =>
    exact h.note _ rfl rfl same rfl (fun _ => rfl) (fun _ => rfl) (fun _ _ => rfl)
      (fun _ => rfl) nofun
  | stop call =>
    exact h.note _ rfl rfl same rfl (fun _ => rfl) (fun _ => rfl) (fun _ _ => rfl)
      (fun _ => rfl) nofun
  | fail st ready frames =>
    exact h.note _ rfl rfl nofun rfl (fun _ => rfl) (fun _ => rfl) (fun _ _ => rfl)
      (fun _ => rfl) nofun
  | take b q frames ready task queue => exact h.take hb ready task queue
  | wrote bs rest frames task => exact h.wrote task
  | wroteAll task =>
    refine ⟨h.kept, h.queue, h.written, nofun, fun hr _ => ?_, h.whole⟩
    have hall := h.writing [] task
    rwa [List.append_nil] at hall
  | gaveUp ready =>
    refine ⟨h.kept, h.queue, h.written, nofun, fun hr _ => ?_, h.whole⟩
    rw [show l.ready = true from hr] at ready
    cases ready
  | received bs frames task =>
    exact h.note _ rfl rfl same rfl (fun _ => rfl) (fun _ => rfl) (fun _ _ => rfl)
      (fun _ => rfl) nofun
  | answer p q r rest frames ready queue input =>
    exact h.note _ rfl rfl same rfl (fun _ => rfl) (fun _ => rfl) (fun _ _ => rfl)
      (fun _ => rfl) nofun
  | stray f rest st frames ready queue input =>
    have hstray : Streaming { l with unparsed := rest, trace := .stray l.conn f :: l.trace } :=
      h.note _ rfl rfl same rfl (fun _ => rfl) (fun _ => rfl) (fun _ _ => rfl)
        (fun _ => rfl) nofun
    exact hstray.note _ rfl rfl nofun rfl (fun _ => rfl) (fun _ => rfl) (fun _ _ => rfl)
      (fun _ => rfl) nofun
  | dial frames ready input =>
    refine ⟨h.kept, fun hr => ?_, h.written, nofun, nofun, h.whole⟩
    rw [show l.ready = true from hr] at ready
    cases ready
  | connect frames task input => exact h.connect hn task
  | clear frames ready => exact h.keep rfl same rfl rest (fun _ => rfl) (fun _ => rfl) h.whole
  | call st o todo fs frames mem =>
    exact h.note _ rfl rfl same rfl (fun _ => rfl) (fun _ => rfl) (fun _ _ => rfl)
      (fun _ => rfl) nofun
  | ret f fs frames idle back =>
    exact h.keep rfl same rfl rest (fun _ => rfl) (fun _ => rfl) h.whole

end Line

/-! ## 3. Every reachable channel -/

namespace BackendChannel

section Reachable

variable {U : UnpackOne} {allow : Owner → Op → Bool} {blockSize : Nat} {hb : 0 < blockSize}
  {ch : BackendChannel}

theorem streaming_reachable (h : (machine U allow blockSize hb).Reachable ch) :
    ch.line.Streaming :=
  (line_invariant (I := fun l => (l.Numbered ∧ l.Balanced) ∧ l.Streaming)
    ⟨⟨Line.init_numbered, Line.init_balanced⟩, Line.init_streaming⟩
    (fun _ _ hI hs => ⟨⟨hs.numbered hI.1.1, hs.balanced hI.1.1 hI.1.2⟩,
      hs.streaming hI.1.1 hI.1.2 hI.2⟩) h).2

end Reachable

end BackendChannel

end RedisProxy
