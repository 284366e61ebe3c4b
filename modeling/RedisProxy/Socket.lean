/-
  File:      RedisProxy/Socket.lean
  Subject:   `CoSocket::readSome` and `CoSocket::writeAll` (src/co_socket.cpp), one system call
             at a time.

  Both loops may suspend their coroutine after each system call, so the model runs them call by
  call and the outcome of the call is an argument: any outcome the kernel may give, at any time.
  `shutdown` changes which outcomes the kernel will choose and nothing else here.

  * `readSome` -- one `::read` into the reserved space: the call returns, or it found nothing
    (`again`) and the loop will read again;
  * `WriteCursor` -- the position of `writeAll` in its chain, `index` being kept as the slices
    still to come. `WriteCursor.rest` is what it still has to write; `rest_accept` says that a
    call which accepts `n` bytes takes exactly the next `n`;
  * `writeAll` -- the whole call over the outcomes of its system calls. The bytes the kernel read
    are the front of the chain at every moment (`writeAll_tells`), and each outcome but `EAGAIN`
    brings the call nearer to its end;
  * `Possible` -- the outcomes the kernel may give, by the number of bytes accepted alone. They are
    those on which the call goes through (`isSome_writeAll`).
-/
import RedisProxy.Buffer.IoBuffer
import RedisProxy.Status

namespace RedisProxy

/-! ## 1. Reading -/

/-- What one `::read` (and, after `EAGAIN`, the wait for readability) came to. -/
inductive ReadOutcome where
  | data (d : Bytes)
  | closed
  | again
  | timeout
  | error (message : String)

/-- One round of `CoSocket::readSome`: the status it returns (none: it reads again) and the
    buffer. An outcome the kernel cannot give has no result. -/
def readSome (b : Buffer) : ReadOutcome → Option (Option Status × Buffer)
  | .data d =>
      if h : 0 < d.length ∧ d.length ≤ b.writable then some (some .okStatus, b.commit d h.2)
      else none
  | .closed => some (some (.closed "peer closed"), b.reserveWritable)
  | .again => some (none, b.reserveWritable)
  | .timeout => some (some (.ioError "read timeout"), b.reserveWritable)
  | .error m => some (some (.ioError m), b.reserveWritable)

/-- The bytes an outcome brings in. -/
def ReadOutcome.bytes : ReadOutcome → Bytes
  | .data d => d
  | _ => []

/-- **What a round of `readSome` does to the content**: it appends what the kernel gave. -/
theorem content_readSome {b b' : Buffer} {o : ReadOutcome} {st : Option Status}
    (h : readSome b o = some (st, b')) : b'.content = b.content ++ o.bytes := by
  cases o with
  | data d =>
    simp only [readSome] at h
    split at h
    · obtain ⟨_, rfl⟩ := Prod.mk.inj (Option.some.inj h)
      simp [ReadOutcome.bytes]
    · cases h
  | closed | again | timeout | error m =>
    obtain ⟨_, rfl⟩ := Prod.mk.inj (Option.some.inj h)
    simp [ReadOutcome.bytes]

theorem blockSize_readSome {b b' : Buffer} {o : ReadOutcome} {st : Option Status}
    (h : readSome b o = some (st, b')) : b'.blockSize = b.blockSize := by
  cases o with
  | data d =>
    simp only [readSome] at h
    split at h
    · obtain ⟨_, rfl⟩ := Prod.mk.inj (Option.some.inj h)
      simp
    · cases h
  | closed | again | timeout | error m =>
    obtain ⟨_, rfl⟩ := Prod.mk.inj (Option.some.inj h)
    simp

/-- A round brings in at most one block. -/
theorem length_readSome {b b' : Buffer} {o : ReadOutcome} {st : Option Status}
    (h : readSome b o = some (st, b')) : o.bytes.length ≤ b.blockSize := by
  cases o with
  | data d =>
    simp only [readSome] at h
    split at h
    · rename_i hd
      exact Nat.le_trans hd.2 b.writable_le
    · cases h
  | closed | again | timeout | error m => exact Nat.zero_le _

/-- A round that brings bytes in returns `Ok`, and only such a round does. -/
theorem status_readSome {b b' : Buffer} {o : ReadOutcome} {st : Status}
    (h : readSome b o = some (some st, b')) : st.ok = true ↔ o.bytes ≠ [] := by
  cases o with
  | data d =>
    simp only [readSome] at h
    split at h
    · rename_i hd
      obtain ⟨hst, rfl⟩ := Prod.mk.inj (Option.some.inj h)
      cases hst
      have : d ≠ [] := List.ne_nil_of_length_pos hd.1
      simp [Status.ok, Status.okStatus, ReadOutcome.bytes, this]
    · cases h
  | closed | timeout | error m =>
    obtain ⟨hst, rfl⟩ := Prod.mk.inj (Option.some.inj h)
    cases hst
    simp [Status.ok, Status.closed, Status.ioError, ReadOutcome.bytes]
  | again => cases h

/-- A round after which `readSome` reads again brought nothing in. -/
theorem bytes_of_again {b b' : Buffer} {o : ReadOutcome} (h : readSome b o = some (none, b')) :
    o.bytes = [] := by
  cases o with
  | data d =>
    simp only [readSome] at h
    split at h <;> cases h
  | again => rfl
  | closed | timeout | error m => rfl

/-! ## 2. Writing -/

/-- What one `::writev` (and, after `EAGAIN`, the wait for writability) came to. -/
inductive WriteOutcome where
  | wrote (n : Nat)
  | again
  | timeout
  | zero
  | error (message : String)

/-- The `iovec` array of one round: at most `n` non-empty pieces, `off` applying to the first
    slice only. -/
def iov : List Bytes → Nat → Nat → List Bytes
  | [], _, _ => []
  | _ :: _, _, 0 => []
  | s :: ss, off, n + 1 => if s.length ≤ off then iov ss 0 (n + 1) else s.drop off :: iov ss 0 n

/-- The accounting loop of `writeAll` after `written` bytes were accepted. -/
def advance : List Bytes → Nat → Nat → List Bytes × Nat
  | [], off, _ => ([], off)
  | s :: ss, off, 0 => (s :: ss, off)
  | s :: ss, off, w + 1 =>
      let available := s.length - off
      if w + 1 < available then (s :: ss, off + (w + 1)) else advance ss 0 (w + 1 - available)

/-- The position of `writeAll` in its chain: the slices from `index` on and the offset into the
    first of them, which lies inside that slice or is 0. -/
structure WriteCursor where
  todo : List Bytes
  offset : Nat
  valid : offset = 0 ∨ ∃ s ss, todo = s :: ss ∧ offset < s.length

theorem iov_prefix (l : List Bytes) (off n : Nat) :
    (off = 0 ∨ ∃ s ss, l = s :: ss ∧ off < s.length) →
      (iov l off n).flatten <+: l.flatten.drop off := by
  fun_induction iov l off n with
  | case1 => simp
  | case2 => simp
  | case3 s ss off n hle ih =>
    intro hv
    have hs : off = 0 ∧ s = [] := by
      rcases hv with rfl | ⟨s', ss', he, hlt⟩
      · exact ⟨rfl, List.eq_nil_of_length_eq_zero (Nat.le_zero.mp hle)⟩
      · obtain ⟨rfl, rfl⟩ := List.cons.inj he
        omega
    obtain ⟨rfl, rfl⟩ := hs
    simpa using ih (Or.inl rfl)
  | case4 s ss off n hle ih =>
    intro _
    rw [List.flatten_cons, List.flatten_cons, List.drop_append_of_le_length (by omega)]
    have h := ih (Or.inl rfl)
    rw [List.drop_zero] at h
    exact (List.prefix_append_right_inj _).mpr h

theorem iov_eq_nil {l : List Bytes} {off n : Nat} (h : iov l off (n + 1) = [])
    (hv : off = 0 ∨ ∃ s ss, l = s :: ss ∧ off < s.length) : l.flatten.drop off = [] := by
  induction l generalizing off with
  | nil => simp
  | cons s ss ih =>
    unfold iov at h
    split at h
    · rename_i hle
      have hs : off = 0 ∧ s = [] := by
        rcases hv with rfl | ⟨s', ss', he, hlt⟩
        · exact ⟨rfl, List.eq_nil_of_length_eq_zero (Nat.le_zero.mp hle)⟩
        · obtain ⟨rfl, rfl⟩ := List.cons.inj he
          omega
      obtain ⟨rfl, rfl⟩ := hs
      simpa using ih h (Or.inl rfl)
    · cases h

theorem iov_ne_nil {l : List Bytes} {off n : Nat} (h : iov l off n ≠ []) :
    (iov l off n).flatten ≠ [] := by
  fun_induction iov l off n with
  | case1 => exact absurd rfl h
  | case2 => exact absurd rfl h
  | case3 s ss off n hle ih => exact ih h
  | case4 s ss off n hle ih =>
    intro hnil
    have hs : s.drop off = [] := (List.append_eq_nil_iff.mp hnil).1
    rw [List.drop_eq_nil_iff] at hs
    omega

theorem advance_valid (l : List Bytes) (off w : Nat)
    (hv : off = 0 ∨ ∃ s ss, l = s :: ss ∧ off < s.length) :
    (advance l off w).2 = 0 ∨
      ∃ s ss, (advance l off w).1 = s :: ss ∧ (advance l off w).2 < s.length := by
  fun_induction advance l off w with
  | case1 off =>
    rcases hv with rfl | ⟨s, ss, he, _⟩
    · exact Or.inl rfl
    · cases he
  | case2 => exact hv
  | case3 s ss off w available hlt => exact Or.inr ⟨s, ss, rfl, by simp only; omega⟩
  | case4 s ss off w available hlt ih => exact ih (Or.inl rfl)

theorem advance_rest (l : List Bytes) (off w : Nat)
    (hv : off = 0 ∨ ∃ s ss, l = s :: ss ∧ off < s.length) :
    (advance l off w).1.flatten.drop (advance l off w).2 = (l.flatten.drop off).drop w := by
  fun_induction advance l off w with
  | case1 => simp
  | case2 => simp
  | case3 s ss off w available hlt => rw [List.drop_drop]
  | case4 s ss off w available hlt ih =>
    have hoff : off ≤ s.length := by
      rcases hv with rfl | ⟨s', ss', he, hlt'⟩
      · exact Nat.zero_le _
      · obtain ⟨rfl, rfl⟩ := List.cons.inj he
        omega
    have ha : available = s.length - off := rfl
    have e : (s ++ ss.flatten).drop (off + (w + 1)) = ss.flatten.drop (w + 1 - available) := by
      clear_value available
      have hi : off + (w + 1) - s.length = w + 1 - available := by omega
      rw [List.drop_append, List.drop_of_length_le (by omega), List.nil_append, hi]
    rw [ih (Or.inl rfl), List.drop_zero, List.flatten_cons, List.drop_drop, e]

namespace WriteCursor

/-- `writeAll` at its entry. -/
def start (c : BufferChain) : WriteCursor := ⟨c.slices, 0, Or.inl rfl⟩

/-- The bytes still to be written. -/
def rest (c : WriteCursor) : Bytes := c.todo.flatten.drop c.offset

/-- The pieces the next `::writev` offers. -/
def offer (c : WriteCursor) : List Bytes := iov c.todo c.offset 64

/-- The cursor after a call that accepted `n` bytes. -/
def accept (c : WriteCursor) (n : Nat) : WriteCursor :=
  ⟨(advance c.todo c.offset n).1, (advance c.todo c.offset n).2, advance_valid _ _ _ c.valid⟩

@[simp] theorem rest_start (c : BufferChain) : (start c).rest = c.bytes := rfl

/-- **A call that accepts `n` bytes takes exactly the next `n`.** -/
@[simp] theorem rest_accept (c : WriteCursor) (n : Nat) : (c.accept n).rest = c.rest.drop n :=
  advance_rest _ _ _ c.valid

theorem offer_prefix (c : WriteCursor) : c.offer.flatten <+: c.rest := iov_prefix _ _ _ c.valid

/-- Nothing is offered exactly when nothing is left. -/
theorem offer_eq_nil {c : WriteCursor} : c.offer = [] ↔ c.rest = [] := by
  refine ⟨fun h => iov_eq_nil h c.valid, fun h => Classical.byContradiction fun hne => ?_⟩
  have hp := c.offer_prefix
  rw [h, List.prefix_nil] at hp
  exact iov_ne_nil hne hp

end WriteCursor

/-- What one round of `writeAll` comes to. -/
inductive WriteResult where
  | running (c : WriteCursor)
  | returned (st : Status)

/-- One round of `CoSocket::writeAll`, without the call when there is nothing left to offer. -/
def writeRound (c : WriteCursor) : Option WriteOutcome → Option WriteResult
  | none => if c.offer = [] then some (.returned .okStatus) else none
  | some (.wrote n) =>
      if c.offer ≠ [] ∧ 0 < n ∧ n ≤ c.offer.flatten.length then some (.running (c.accept n))
      else none
  | some .again => if c.offer ≠ [] then some (.running c) else none
  | some .timeout => if c.offer ≠ [] then some (.returned (.ioError "write timeout")) else none
  | some .zero => if c.offer ≠ [] then some (.returned (.ioError "zero write")) else none
  | some (.error m) => if c.offer ≠ [] then some (.returned (.ioError m)) else none

/-- The bytes the kernel accepted in a round. -/
def WriteCursor.accepted (c : WriteCursor) : Option WriteOutcome → Bytes
  | some (.wrote n) => c.rest.take n
  | _ => []

/-- **A round of `writeAll` hands the next bytes of the chain to the kernel**, whatever it
    comes to: what it accepted followed by what is left is what was left before. -/
theorem writeRound_running {c c' : WriteCursor} {o : Option WriteOutcome}
    (h : writeRound c o = some (.running c')) : c.accepted o ++ c'.rest = c.rest := by
  rcases o with _ | o
  · simp only [writeRound] at h
    split at h <;> cases h
  · cases o with
    | wrote n =>
      simp only [writeRound] at h
      split at h
      · cases h
        simp [WriteCursor.accepted]
      · cases h
    | again =>
      simp only [writeRound] at h
      split at h
      · cases h
        rfl
      · cases h
    | timeout | zero | error m =>
      simp only [writeRound] at h
      split at h <;> cases h

/-- `writeAll` returns `Ok` only when nothing is left, and an error only when something is. -/
theorem writeRound_returned {c : WriteCursor} {o : Option WriteOutcome} {st : Status}
    (h : writeRound c o = some (.returned st)) :
    c.accepted o = [] ∧ (st.ok = true ↔ c.rest = []) := by
  rcases o with _ | o
  · simp only [writeRound] at h
    split at h
    · rename_i hoff
      cases h
      exact ⟨rfl, fun _ => WriteCursor.offer_eq_nil.mp hoff, fun _ => rfl⟩
    · cases h
  · cases o with
    | wrote n | again =>
      simp only [writeRound] at h
      split at h <;> cases h
    | timeout | zero | error m =>
      simp only [writeRound] at h
      split at h
      · rename_i hoff
        cases h
        rw [Ne, WriteCursor.offer_eq_nil] at hoff
        exact ⟨rfl, by simp [Status.ok, Status.ioError, hoff]⟩
      · cases h

/-! ## 3. The whole call of `writeAll` -/

/-- What the kernel reads out of the pieces it was offered. -/
def WriteOutcome.reads (pieces : List Bytes) : WriteOutcome → Bytes
  | .wrote n => pieces.flatten.take n
  | _ => []

/-- The outcomes after which `writeAll` is not where it was. -/
def WriteOutcome.moves : WriteOutcome → Bool
  | .again => false
  | _ => true

/-- How many bytes the kernel says it accepted. -/
def WriteOutcome.count : WriteOutcome → Nat
  | .wrote n => n
  | _ => 0

/-- The error `writeAll` returns after an outcome. -/
def WriteOutcome.failure : WriteOutcome → Option Status
  | .wrote _ | .again => none
  | .timeout => some (.ioError "write timeout")
  | .zero => some (.ioError "zero write")
  | .error m => some (.ioError m)

/-- `writeAll` after some of its system calls: where it stands, what the kernel has read so far
    and what the call returned (none: it will call `::writev` again). -/
structure WriteCall where
  cursor : WriteCursor
  read : Bytes
  result : Option Status

/-- `CoSocket::writeAll` over the outcomes of its system calls. Outcomes that come after it has
    returned are not asked for; an outcome the kernel cannot give has no result. -/
def writeAll (c : WriteCursor) : List WriteOutcome → Option WriteCall
  | [] => some ⟨c, [], if c.offer = [] then some .okStatus else none⟩
  | o :: os =>
      if c.offer = [] then some ⟨c, [], some .okStatus⟩
      else
        match writeRound c (some o) with
        | none => none
        | some (.returned st) => some ⟨c, [], some st⟩
        | some (.running c') =>
            (writeAll c' os).map fun w => { w with read := o.reads c.offer ++ w.read }

theorem iov_pieces (l : List Bytes) (off n : Nat) :
    (iov l off n).length ≤ n ∧ ∀ p ∈ iov l off n, p ≠ [] ∧ ∃ s ∈ l, p <:+ s := by
  fun_induction iov l off n with
  | case1 => simp
  | case2 => simp
  | case3 s ss off n hle ih =>
    refine ⟨ih.1, fun p hp => ?_⟩
    obtain ⟨hne, s', hs', hsuf⟩ := ih.2 p hp
    exact ⟨hne, s', List.mem_cons_of_mem _ hs', hsuf⟩
  | case4 s ss off n hle ih =>
    refine ⟨by simpa using ih.1, fun p hp => ?_⟩
    rcases List.mem_cons.mp hp with rfl | hp
    · refine ⟨fun hnil => ?_, s, List.mem_cons_self, List.drop_suffix _ _⟩
      rw [List.drop_eq_nil_iff] at hnil
      omega
    · obtain ⟨hne, s', hs', hsuf⟩ := ih.2 p hp
      exact ⟨hne, s', List.mem_cons_of_mem _ hs', hsuf⟩

theorem advance_suffix (l : List Bytes) (off w : Nat) : (advance l off w).1 <:+ l := by
  fun_induction advance l off w with
  | case1 => exact List.suffix_rfl
  | case2 => exact List.suffix_rfl
  | case3 => exact List.suffix_rfl
  | case4 s ss off w available hlt ih => exact ih.trans (List.suffix_cons s ss)

/-- What the kernel reads out of the pieces is the front of what was left to write. -/
theorem reads_offer {c : WriteCursor} {o : WriteOutcome} {r : WriteResult}
    (h : writeRound c (some o) = some r) : o.reads c.offer = c.accepted (some o) := by
  cases o with
  | wrote n =>
    simp only [writeRound] at h
    split at h
    · rename_i hn
      obtain ⟨t, ht⟩ := c.offer_prefix
      rw [WriteOutcome.reads, WriteCursor.accepted, ← ht,
        List.take_append_of_le_length hn.2.2]
    · cases h
  | again | timeout | zero | error m => rfl

/-- A round that does not return leaves `index` where it was or moves it forward; the kernel has
    read as much as it says, which is something unless it was `EAGAIN`. -/
theorem writeRound_ahead {c c' : WriteCursor} {o : WriteOutcome}
    (h : writeRound c (some o) = some (.running c')) :
    c'.todo <:+ c.todo ∧ (o.reads c.offer).length = o.count ∧ o.moves.toNat ≤ o.count := by
  cases o with
  | wrote n =>
    simp only [writeRound] at h
    split at h
    · rename_i hn
      cases h
      refine ⟨advance_suffix _ _ _, ?_, hn.2.1⟩
      rw [WriteOutcome.reads, List.length_take, Nat.min_eq_left hn.2.2]
      rfl
    · cases h
  | again =>
    simp only [writeRound] at h
    split at h
    · cases h
      exact ⟨List.suffix_rfl, rfl, Nat.le_refl _⟩
    · cases h
  | timeout | zero | error m =>
    simp only [writeRound] at h
    split at h <;> cases h

/-- What holds of a call of `writeAll` from cursor `c` after the outcomes `os`. -/
structure WriteCall.Tells (c : WriteCursor) (os : List WriteOutcome) (w : WriteCall) : Prop where
  /-- What the kernel read is the front of what there was to write. -/
  conserved : w.read ++ w.cursor.rest = c.rest
  /-- `index` only moves forward. -/
  ahead : w.cursor.todo <:+ c.todo
  /-- `Ok` is returned with nothing left, an error with something left. -/
  settled : ∀ st, w.result = some st → (st.ok = true ↔ w.cursor.rest = [])
  /-- An error is that of an outcome, and what the kernel accepted came before it. -/
  failed : ∀ st, w.result = some st → st.ok = false → ∃ before o after,
    os = before ++ o :: after ∧ o.failure = some st ∧
      w.read.length = (before.map WriteOutcome.count).sum
  /-- While it runs there is something left, what the kernel accepted is what the outcomes say, and
      each of them but `EAGAIN` has cost a byte. -/
  busy : w.result = none → w.cursor.rest ≠ [] ∧
    w.read.length = (os.map WriteOutcome.count).sum ∧ os.countP WriteOutcome.moves ≤ w.read.length

/-- A round that returns after a system call returns the error of its outcome. -/
theorem failure_of_returned {c : WriteCursor} {o : WriteOutcome} {st : Status}
    (h : writeRound c (some o) = some (.returned st)) : o.failure = some st := by
  cases o with
  | wrote n | again =>
    simp only [writeRound] at h
    split at h <;> cases h
  | timeout | zero | error m =>
    simp only [writeRound] at h
    split at h
    · cases h
      rfl
    · cases h

theorem writeAll_tells {c : WriteCursor} {os : List WriteOutcome} {w : WriteCall}
    (h : writeAll c os = some w) : w.Tells c os := by
  -- along the outcomes, the cursor moving with each round
  induction os generalizing c w with
  | nil =>
    cases h
    by_cases hoff : c.offer = []
    · refine ⟨rfl, List.suffix_rfl, fun st hst => ?_, fun st hst hbad => ?_, fun hst => ?_⟩
      · rw [if_pos hoff] at hst
        cases hst
        exact ⟨fun _ => WriteCursor.offer_eq_nil.mp hoff, fun _ => rfl⟩
      · rw [if_pos hoff] at hst
        cases hst
        cases hbad
      · rw [if_pos hoff] at hst
        cases hst
    · refine ⟨rfl, List.suffix_rfl, fun st hst => ?_, fun st hst => ?_, fun _ =>
        ⟨fun hnil => hoff (WriteCursor.offer_eq_nil.mpr hnil), rfl, Nat.le_refl _⟩⟩
      all_goals
        rw [if_neg hoff] at hst
        cases hst
  | cons o os ih =>
    unfold writeAll at h
    split at h
    · rename_i hoff
      cases h
      refine ⟨rfl, List.suffix_rfl, fun st hst => ?_, fun st hst hbad => ?_, nofun⟩
      · cases hst
        exact ⟨fun _ => WriteCursor.offer_eq_nil.mp hoff, fun _ => rfl⟩
      · cases hst
        cases hbad
    · split at h
      · cases h
      · rename_i st hround
        cases h
        refine ⟨rfl, List.suffix_rfl, fun st' hst => ?_, fun st' hst _ => ?_, nofun⟩
        · cases hst
          exact (writeRound_returned hround).2
        · cases hst
          exact ⟨[], o, os, rfl, failure_of_returned hround, rfl⟩
      · rename_i c' hround
        obtain ⟨w', hw', rfl⟩ := Option.map_eq_some_iff.mp h
        have t := ih hw'
        obtain ⟨hsuf, hread, hmoves⟩ := writeRound_ahead hround
        refine ⟨?_, t.ahead.trans hsuf, t.settled, fun st hst hbad => ?_, fun hst => ?_⟩
        · rw [List.append_assoc, t.conserved, reads_offer hround, writeRound_running hround]
        · obtain ⟨before, o', after, rfl, hfail, hcount⟩ := t.failed st hst hbad
          refine ⟨o :: before, o', after, rfl, hfail, ?_⟩
          rw [List.length_append, hread, hcount, List.map_cons, List.sum_cons]
        · obtain ⟨hrest, hcount, hbusy⟩ := t.busy hst
          refine ⟨hrest, ?_, ?_⟩
          · rw [List.length_append, hread, hcount, List.map_cons, List.sum_cons]
          · rw [List.length_append, List.countP_cons, hread]
            cases hm : o.moves <;> simp only [hm, Bool.toNat_true, Bool.toNat_false] at hmoves ⊢
            · simp only [Bool.false_eq_true, if_false]
              omega
            · simp only [if_true]
              omega

/-- A sequence of outcomes in which no `EAGAIN` is the last thing to happen has any number of
    other outcomes. -/
theorem many_moves {os : Nat → WriteOutcome} (h : ∀ i, ∃ j, i ≤ j ∧ os j ≠ .again) (m : Nat) :
    ∃ k, m ≤ ((List.range k).map os).countP WriteOutcome.moves := by
  induction m with
  | zero => exact ⟨0, Nat.zero_le _⟩
  | succ m ih =>
    obtain ⟨k, hk⟩ := ih
    obtain ⟨j, hkj, hj⟩ := h k
    refine ⟨j + 1, ?_⟩
    have hmove : (os j).moves = true := by
      cases ho : os j with
      | again => exact absurd ho hj
      | wrote n | timeout | zero | error e => rfl
    have hsub : ((List.range k).map os).Sublist ((List.range j).map os) :=
      (List.range_sublist.mpr hkj).map os
    have hle := hsub.countP_le (p := WriteOutcome.moves)
    rw [List.range_succ, List.map_append, List.countP_append]
    simp only [List.map_cons, List.map_nil, List.countP_singleton, hmove, if_true]
    omega

/-! ## 4. What the kernel may answer -/

/-- What is left of the slices after `m` bytes. -/
def unread : List Bytes → Nat → List Bytes
  | [], _ => []
  | s :: ss, m => s.drop m :: unread ss (m - s.length)

/-- How many bytes a `::writev` offers after `m` bytes were accepted: those of the next 64 slices
    that are not empty. -/
def window (slices : List Bytes) (m : Nat) : Nat :=
  (((unread slices m).filter (· ≠ [])).take 64).flatten.length

/-- **Outcomes the kernel may give**, said of the slices and the number `m` of bytes accepted so
    far: a count is positive and at most what was offered. After an error and after the last byte
    nothing is asked for. -/
def Possible (slices : List Bytes) : Nat → List WriteOutcome → Prop
  | _, [] => True
  | m, .wrote n :: os =>
      m < slices.flatten.length → 0 < n ∧ n ≤ window slices m ∧ Possible slices (m + n) os
  | m, .again :: os => Possible slices m os
  | _, .timeout :: _ => True
  | _, .zero :: _ => True
  | _, .error _ :: _ => True

instance decidablePossible (slices : List Bytes) :
    (m : Nat) → (os : List WriteOutcome) → Decidable (Possible slices m os)
  | _, [] => .isTrue trivial
  | m, .wrote n :: os =>
      have := decidablePossible slices (m + n) os
      inferInstanceAs (Decidable (m < slices.flatten.length →
        0 < n ∧ n ≤ window slices m ∧ Possible slices (m + n) os))
  | m, .again :: os => decidablePossible slices m os
  | _, .timeout :: _ => .isTrue trivial
  | _, .zero :: _ => .isTrue trivial
  | _, .error _ :: _ => .isTrue trivial

theorem possible_of_full {slices : List Bytes} {m : Nat} (h : slices.flatten.length ≤ m)
    (os : List WriteOutcome) : Possible slices m os := by
  induction os with
  | nil => trivial
  | cons o os ih =>
    cases o with
    | wrote n => exact fun hlt => absurd hlt (Nat.not_lt.mpr h)
    | again => exact ih
    | timeout | zero | error e => trivial

/-- The pieces of a round are the next slices that are not empty. -/
theorem iov_eq (l : List Bytes) (off n : Nat) :
    (off = 0 ∨ ∃ s ss, l = s :: ss ∧ off < s.length) →
      iov l off n = ((unread l off).filter (· ≠ [])).take n := by
  fun_induction iov l off n with
  | case1 => simp [unread]
  | case2 => simp
  | case3 s ss off n hle ih =>
    intro hv
    have hs : off = 0 ∧ s = [] := by
      rcases hv with rfl | ⟨s', ss', he, hlt⟩
      · exact ⟨rfl, List.eq_nil_of_length_eq_zero (Nat.le_zero.mp hle)⟩
      · obtain ⟨rfl, rfl⟩ := List.cons.inj he
        omega
    obtain ⟨rfl, rfl⟩ := hs
    rw [ih (Or.inl rfl)]
    rfl
  | case4 s ss off n hle ih =>
    intro _
    have hpiece : s.drop off ≠ [] := by
      rw [Ne, List.drop_eq_nil_iff]
      exact hle
    have hnext : off - s.length = 0 := by omega
    rw [ih (Or.inl rfl), unread, hnext, List.filter_cons_of_pos (by simpa using hpiece),
      List.take_succ_cons]

/-- Slices that were accepted as a whole are not offered again. -/
theorem filter_unread_append (past l : List Bytes) (off : Nat) :
    (unread (past ++ l) (past.flatten.length + off)).filter (· ≠ []) =
      (unread l off).filter (· ≠ []) := by
  induction past with
  | nil => rw [List.nil_append, List.flatten_nil, List.length_nil, Nat.zero_add]
  | cons s past ih =>
    have hpast : (s :: past).flatten.length + off - s.length = past.flatten.length + off := by
      rw [List.flatten_cons, List.length_append]
      omega
    have hnil : s.drop ((s :: past).flatten.length + off) = [] := by
      rw [List.drop_eq_nil_iff, List.flatten_cons, List.length_append]
      omega
    rw [List.cons_append, unread, hpast, hnil, List.filter_cons_of_neg (by simp), ih]

namespace WriteCursor

/-- `writeAll` has `m` bytes of the slices behind it. -/
def At (c : WriteCursor) (slices : List Bytes) (m : Nat) : Prop :=
  ∃ past, slices = past ++ c.todo ∧ past.flatten.length + c.offset = m

theorem offset_le (c : WriteCursor) : c.offset ≤ c.todo.flatten.length := by
  rcases c.valid with h | ⟨s, ss, h, hlt⟩
  · omega
  · rw [h, List.flatten_cons, List.length_append]
    omega

variable {c : WriteCursor} {slices : List Bytes} {m : Nat}

theorem start_at (chain : BufferChain) : (start chain).At chain.slices 0 := ⟨[], rfl, rfl⟩

theorem At.length_rest (h : c.At slices m) : m + c.rest.length = slices.flatten.length := by
  obtain ⟨past, rfl, rfl⟩ := h
  have hle := c.offset_le
  rw [rest, List.length_drop, List.flatten_append, List.length_append]
  omega

/-- What the next round offers. -/
theorem At.window (h : c.At slices m) : RedisProxy.window slices m = c.offer.flatten.length := by
  obtain ⟨past, rfl, rfl⟩ := h
  rw [RedisProxy.window, filter_unread_append, offer, iov_eq _ _ _ c.valid]

theorem At.accept (h : c.At slices m) {n : Nat} (hn : n ≤ c.rest.length) :
    (c.accept n).At slices (m + n) := by
  have hrest := congrArg List.length (c.rest_accept n)
  have hle := c.offset_le
  have hle' := (c.accept n).offset_le
  obtain ⟨past, rfl, rfl⟩ := h
  obtain ⟨more, hmore⟩ : (c.accept n).todo <:+ c.todo := advance_suffix _ _ _
  have hlen := congrArg (fun l => (List.flatten l).length) hmore
  simp only [List.flatten_append, List.length_append] at hlen
  simp only [rest, List.length_drop] at hrest hn
  refine ⟨past ++ more, by rw [List.append_assoc, hmore], ?_⟩
  rw [List.flatten_append, List.length_append]
  omega

end WriteCursor

/-- **The call has a result exactly on the outcomes the kernel may give.** -/
theorem isSome_writeAll {slices : List Bytes} {c : WriteCursor} {m : Nat} (h : c.At slices m)
    (os : List WriteOutcome) : (writeAll c os).isSome = true ↔ Possible slices m os := by
  induction os generalizing c m with
  | nil => exact ⟨fun _ => trivial, fun _ => rfl⟩
  | cons o os ih =>
    have hlen := h.length_rest
    unfold writeAll
    by_cases hoff : c.offer = []
    · rw [if_pos hoff]
      rw [WriteCursor.offer_eq_nil.mp hoff, List.length_nil] at hlen
      exact ⟨fun _ => possible_of_full (by omega) _, fun _ => rfl⟩
    · rw [if_neg hoff]
      have hrest : 0 < c.rest.length :=
        List.length_pos_iff.mpr fun hnil => hoff (WriteCursor.offer_eq_nil.mpr hnil)
      cases o with
      | wrote n =>
        have hle := c.offer_prefix.length_le
        simp only [writeRound, Possible, h.window]
        by_cases hn : 0 < n ∧ n ≤ c.offer.flatten.length
        · rw [if_pos ⟨hoff, hn⟩]
          dsimp only
          rw [Option.isSome_map, ih (h.accept (Nat.le_trans hn.2 hle))]
          exact ⟨fun hp _ => ⟨hn.1, hn.2, hp⟩, fun hp => (hp (by omega)).2.2⟩
        · rw [if_neg fun hall => hn hall.2]
          refine ⟨fun hnone => (by cases hnone), fun hp => ?_⟩
          obtain ⟨hpos, hmost, _⟩ := hp (by omega)
          exact absurd ⟨hpos, hmost⟩ hn
      | again =>
        simp only [writeRound, if_pos hoff, Possible, Option.isSome_map]
        exact ih h
      | timeout | zero | error e =>
        simp only [writeRound, if_pos hoff]
        exact ⟨fun _ => trivial, fun _ => rfl⟩

/-- **The whole call of `writeAll`.** On every sequence of outcomes the kernel may give, and on no
    other, the call goes through. Whatever the slices of the chain and whatever the kernel answers,
    at every moment what it has read is the front of the chain's bytes and the rest is still to
    come; `index` and `offset` point into the chain, `offset` inside the current slice unless it
    is 0; the pieces offered next are at most 64, none of them empty, each the tail of a slice;
    `Ok` is returned when all bytes were read, and an error when some were not, and then it is the
    error of an outcome. A call that still runs was given all the bytes the outcomes say and has
    met fewer outcomes other than `EAGAIN` than the chain has bytes, so it returns if no `EAGAIN`
    is the last thing to happen. -/
theorem written_in_order (chain : BufferChain) :
    (∀ os, (∃ w, writeAll (.start chain) os = some w) ↔ Possible chain.slices 0 os) ∧
    (∀ os w, writeAll (.start chain) os = some w →
      w.read ++ w.cursor.rest = chain.bytes ∧
      w.cursor.todo <:+ chain.slices ∧
      (w.cursor.offset = 0 ∨
        ∃ s ss, w.cursor.todo = s :: ss ∧ w.cursor.offset < s.length) ∧
      w.cursor.offer.length ≤ 64 ∧
      (∀ piece ∈ w.cursor.offer, piece ≠ [] ∧ ∃ s ∈ chain.slices, piece <:+ s) ∧
      (∀ st, w.result = some st → (st.ok = true ↔ w.read = chain.bytes)) ∧
      (∀ st, w.result = some st → st.ok = false → ∃ before o after,
        os = before ++ o :: after ∧ o.failure = some st ∧
          w.read.length = (before.map WriteOutcome.count).sum) ∧
      (w.result = none → w.read.length = (os.map WriteOutcome.count).sum ∧
        os.countP WriteOutcome.moves < chain.bytes.length)) ∧
    (∀ os : Nat → WriteOutcome,
      (∀ k, Possible chain.slices 0 ((List.range k).map os)) →
      (∀ i, ∃ j, i ≤ j ∧ os j ≠ .again) →
      ∃ k w st, writeAll (.start chain) ((List.range k).map os) = some w ∧
        w.result = some st) := by
  have hpossible : ∀ os, (∃ w, writeAll (.start chain) os = some w) ↔
      Possible chain.slices 0 os := fun os =>
    Option.isSome_iff_exists.symm.trans (isSome_writeAll (WriteCursor.start_at chain) os)
  have hbusy : ∀ os w, writeAll (.start chain) os = some w → w.result = none →
      os.countP WriteOutcome.moves < chain.bytes.length := by
    intro os w h hst
    have t := writeAll_tells h
    obtain ⟨hrest, _, hle⟩ := t.busy hst
    have hlen := congrArg List.length t.conserved
    rw [List.length_append, WriteCursor.rest_start] at hlen
    have := List.length_pos_iff.mpr hrest
    omega
  refine ⟨hpossible, fun os w h => ?_, fun os hos hmoves => ?_⟩
  · have t := writeAll_tells h
    obtain ⟨hcount, hpieces⟩ := iov_pieces w.cursor.todo w.cursor.offset 64
    refine ⟨t.conserved, t.ahead, w.cursor.valid, hcount, fun piece hp => ?_,
      fun st hst => (t.settled st hst).trans ?_, t.failed,
      fun hst => ⟨(t.busy hst).2.1, hbusy os w h hst⟩⟩
    · obtain ⟨hne, s, hs, hsuf⟩ := hpieces piece hp
      exact ⟨hne, s, t.ahead.subset hs, hsuf⟩
    · rw [← WriteCursor.rest_start chain, ← t.conserved]
      exact List.self_eq_append_right.symm
  · obtain ⟨k, hk⟩ := many_moves hmoves chain.bytes.length
    obtain ⟨w, hw⟩ := (hpossible _).mpr (hos k)
    rcases hst : w.result with _ | st
    · have := hbusy _ w hw hst
      omega
    · exact ⟨k, w, st, hw, hst⟩

/-- More slices than one `::writev` takes, and empty ones among them. -/
def manySlices : BufferChain := .ofSlices ([[]] ++ List.replicate 65 [1] ++ [[], [2, 3, 4], []])

/-- The first window is full, and the next write ends inside a slice. -/
def inPieces : List WriteOutcome := [.wrote 64, .again, .wrote 2]

theorem written_in_order_manySlices :
    64 < manySlices.slices.length ∧ [] ∈ manySlices.slices ∧
    (∃ w, writeAll (.start manySlices) (inPieces ++ [.wrote 2]) = some w ∧
      w.result = some .okStatus ∧ w.read = manySlices.bytes) ∧
    (∃ w, writeAll (.start manySlices) (inPieces ++ [.timeout]) = some w ∧
      w.result = some (.ioError "write timeout") ∧ w.cursor.offset = 1 ∧
      w.read = manySlices.bytes.take 66) := by
  obtain ⟨hpossible, hall, _⟩ := written_in_order manySlices
  have hwhole : (writeAll (.start manySlices) (inPieces ++ [.wrote 2])).map (·.result) =
      some (some .okStatus) := by decide +kernel
  have hpart : (writeAll (.start manySlices) (inPieces ++ [.timeout])).map (fun w =>
      (w.result, w.cursor.offset, w.read.length)) =
        some (some (.ioError "write timeout"), 1, 66) := by decide +kernel
  refine ⟨by decide +kernel, List.mem_cons_self, ?_, ?_⟩
  · obtain ⟨w, hw⟩ := (hpossible (inPieces ++ [.wrote 2])).mpr (by decide +kernel)
    rw [hw] at hwhole
    have hres : w.result = some .okStatus := Option.some.inj hwhole
    exact ⟨w, hw, hres, ((hall _ w hw).2.2.2.2.2.1 _ hres).mp rfl⟩
  · obtain ⟨w, hw⟩ := (hpossible (inPieces ++ [.timeout])).mpr (by decide +kernel)
    rw [hw] at hpart
    obtain ⟨hres, hpart⟩ := Prod.mk.inj (Option.some.inj hpart)
    obtain ⟨hoff, hlen⟩ := Prod.mk.inj hpart
    refine ⟨w, hw, hres, hoff, ?_⟩
    rw [← (hall _ w hw).1, ← hlen, List.take_left]

end RedisProxy
