/-
  File:      RedisProxy/Session/Parsing.lean
  Subject:   THE VERDICTS OF A SESSION ARE THOSE OF THE REFERENCE FUNCTION.

  `Parsing` is kept by every step: of the bytes read so far, the commands with a verdict were
  taken and the buffer holds the rest, at most one block more than an incomplete command; a loop
  that goes to read again has no complete command left; the batches given to the pool are the
  forwarded commands, in order; and a session that drains has a reason in its stream. A round
  never takes more commands than a block has bytes, so their number fits the 32 bits in which it
  is passed on.

  `grants` is what is assumed of the allocator: nothing (`False`), or that no growth of the
  parser's arena fails (`True`).
-/
import RedisProxy.Session.Reference
import RedisProxy.Session.Invariant

namespace RedisProxy

open Lib

/-! ## 1. The invariant -/

/-- The bytes of a command that is forwarded. -/
def Judgement.sent : Judgement → Option Bytes
  | .forwarded frame => some frame
  | .rejected _ _ => none

namespace ClientSession

variable {n : Nat}

/-- The commands `sent` went out in these batches, each of at most `most` of them. -/
def Batched (most : Nat) (sent : List Bytes) (batches : List (Bytes × Nat)) : Prop :=
  ∃ groups : List (List Bytes), sent = groups.flatten ∧
    batches = groups.map (fun g => (g.flatten, g.length)) ∧
    ∀ g ∈ groups, g ≠ [] ∧ g.length ≤ most

theorem batched_nil (most : Nat) : Batched most [] [] := ⟨[], rfl, rfl, nofun⟩

/-- One more batch, not empty and not too large. -/
theorem Batched.snoc {most : Nat} {sent : List Bytes} {batches : List (Bytes × Nat)}
    (h : Batched most sent batches) {g : List Bytes} (hne : g ≠ []) (hle : g.length ≤ most) :
    Batched most (sent ++ g) (batches ++ [(g.flatten, g.length)]) := by
  obtain ⟨groups, rfl, rfl, hall⟩ := h
  refine ⟨groups ++ [g], by simp, by simp, fun g' hg' => ?_⟩
  rcases List.mem_append.mp hg' with hg' | hg'
  · exact hall g' hg'
  · rw [List.mem_singleton.mp hg']
    exact ⟨hne, hle⟩

/-- Why a session drains in front of `rest`, and with which final error; `eof` says that there
    is nothing after it. -/
inductive Ended (E : Env) (grants : Prop) (rest : Buffer) (eof : Bool) : String → Prop where
  | noMemory (early : eof = false) (failed : ¬ grants) : Ended E grants rest eof outOfMemoryError
  | broken (early : eof = false) (bad : E.firstFrame rest.content = .bad) :
      Ended E grants rest eof protocolError
  | closed (last : eof = true)
      (exhausted : E.config.maxPipelineCommandsPerRead ≠ 0 → Exhausted E rest.content) :
      Ended E grants rest eof (endError rest)

/-- The error of a stream that ended: none when nothing was left over. -/
theorem endError_eq (b : Buffer) : endError b = if b.content = [] then "" else protocolError := by
  unfold endError
  rw [Buffer.readableBytes_eq]
  simp only [List.length_eq_zero_iff]
  rfl

/-- **The final error, case by case**: a stream that came to its end is in order if nothing was
    left, and else it broke off inside a command; before its end it is the command in front that is
    bad, or the allocator failed. -/
theorem Ended.cases {E : Env} {grants : Prop} {rest : Buffer} {eof : Bool} {e : String}
    (h : Ended E grants rest eof e) :
    (eof = true ∧ e = (if rest.content = [] then "" else protocolError) ∧
      (E.config.maxPipelineCommandsPerRead ≠ 0 →
        ∀ info k, E.firstFrame rest.content ≠ .done info k)) ∨
    (eof = false ∧ e = protocolError ∧ E.firstFrame rest.content = .bad) ∨
    (eof = false ∧ e = outOfMemoryError ∧ ¬ grants) := by
  cases h with
  | noMemory early failed => exact Or.inr (Or.inr ⟨early, rfl, failed⟩)
  | broken early bad => exact Or.inr (Or.inl ⟨early, rfl, bad⟩)
  | closed last exhausted =>
    exact Or.inl ⟨last, endError_eq rest, fun h0 => (exhausted h0).absent⟩

/-- When no allocation fails, the error says exactly how the stream ended. -/
theorem Ended.exactly {E : Env} {grants : Prop} {rest : Buffer} {eof : Bool} {e : String}
    (h : Ended E grants rest eof e) (hgrants : grants) :
    (e = "" ↔ eof = true ∧ rest.content = []) ∧
    (e = protocolError ↔ eof = true ∧ rest.content ≠ [] ∨
      eof = false ∧ E.firstFrame rest.content = .bad) := by
  have hne : protocolError ≠ "" := by decide
  rcases h.cases with ⟨rfl, rfl, _⟩ | ⟨rfl, rfl, hbad⟩ | ⟨_, _, hfailed⟩
  · by_cases hrest : rest.content = []
    · simp [hrest, hne.symm]
    · simp [hrest, hne]
  · simp [hbad, hne]
  · exact absurd hgrants hfailed

/-- **The session read its stream as the reference function does.** -/
structure Parsing (E : Env) (grants : Prop) (s : ClientSession n) : Prop where
  fits : Fits E s.parser
  blocks : s.clientIn.blockSize = E.blockSize
  taken : ∃ fs, Taken E.firstFrame s.input fs s.clientIn.content ∧
    s.verdicts.map Verdict.judgement = fs.map E.judge
  few : E.config.maxPipelineCommandsPerRead ≠ 0 →
    (cut E.firstFrame s.clientIn.content).frames.length ≤ E.blockSize
  bounded : E.config.maxPipelineCommandsPerRead ≠ 0 →
    s.clientIn.content.length ≤ E.config.maxRequestBytes - 1 + E.blockSize
  reading : s.reader = .reading → E.config.maxPipelineCommandsPerRead ≠ 0 →
    Exhausted E s.clientIn.content
  batched : E.blockSize < 2 ^ 32 → s.state ≠ .kAborted →
    Batched E.config.maxPipelineCommandsPerRead
      ((s.verdicts.map Verdict.judgement).filterMap Judgement.sent) s.batches
  ended : s.state = .kDraining → ∃ e, s.ending = some e ∧ Ended E grants s.clientIn s.eof e
  unended : s.state = .kOpen → s.eof = false

section Parsing

variable {E : Env} {grants : Prop} {s s' : ClientSession n}

theorem init_parsing (hU : UnpackOneSpec E.unpackOne) (grants : Prop) (uid : Nat) :
    (init E uid : ClientSession n).Parsing E grants := by
  have hnil : (init E uid : ClientSession n).clientIn.content = [] :=
    Buffer.content_init E.blockSize E.blockSize_pos
  refine ⟨⟨rfl, rfl⟩, rfl, ⟨[], ?_, rfl⟩, fun _ => ?_, fun _ => ?_, nofun,
    fun _ _ => batched_nil _, nofun, fun _ => rfl⟩
  · rw [hnil]
    exact taken_nil _
  · rw [hnil]
    have hle := length_frames_le (Env.incremental_firstFrame hU) (Env.advances_firstFrame hU) []
    exact Nat.le_trans hle (Nat.zero_le _)
  · rw [hnil]
    exact Nat.zero_le _

/-- A step that concerns none of the fields; a session may become aborted. -/
theorem Parsing.keep (h : s.Parsing E grants) (hp : s'.parser = s.parser)
    (hin : s'.clientIn = s.clientIn) (hi : s'.input = s.input) (hv : s'.verdicts = s.verdicts)
    (hb : s'.batches = s.batches) (hr : s'.reader = .reading → s.reader = .reading)
    (ha : s'.state ≠ .kAborted → s.state ≠ .kAborted)
    (hd : s'.state = .kDraining → s.state = .kDraining ∧ s'.ending = s.ending ∧ s'.eof = s.eof)
    (ho : s'.state = .kOpen → s.state = .kOpen ∧ s'.eof = s.eof) : s'.Parsing E grants where
  fits := by
    rw [hp]
    exact h.fits
  blocks := by
    rw [hin]
    exact h.blocks
  taken := by
    rw [hi, hin, hv]
    exact h.taken
  few := by
    rw [hin]
    exact h.few
  bounded := by
    rw [hin]
    exact h.bounded
  reading hpc := by
    rw [hin]
    exact h.reading (hr hpc)
  batched hsize hst := by
    rw [hv, hb]
    exact h.batched hsize (ha hst)
  ended hst := by
    obtain ⟨hst, hending, heof⟩ := hd hst
    rw [hending, hin, heof]
    exact h.ended hst
  unended hst := (ho hst).2.trans (h.unended (ho hst).1)

/-- What the session knows of its stream. -/
def intake (s : ClientSession n) :=
  (s.parser, s.clientIn, s.input, s.verdicts, s.batches, s.state, s.ending, s.eof)

/-- The same for a step that leaves the state alone. -/
theorem Parsing.same (h : s.Parsing E grants) (hi : s'.intake = s.intake)
    (hr : s'.reader = .reading → s.reader = .reading) : s'.Parsing E grants := by
  simp only [intake, Prod.mk.injEq] at hi
  obtain ⟨hp, hin, hi, hv, hb, hs, he, ho⟩ := hi
  exact h.keep hp hin hi hv hb hr (by rw [hs]; exact id) (by rw [hs]; exact fun hd => ⟨hd, he, ho⟩)
    (by rw [hs]; exact fun hopen => ⟨hopen, ho⟩)

/-- An abort changes nothing that was read. -/
theorem Parsing.left (h : s.Parsing E grants) : s.aborted.Parsing E grants :=
  h.keep rfl rfl rfl rfl rfl id (fun ha => absurd rfl ha) nofun nofun

theorem Parsing.abort (h : s.Parsing E grants) (a : Owner) (p : BackendPool n) :
    (s.abort a p).1.Parsing E grants := by
  unfold ClientSession.abort
  split
  · exact h
  · exact h.left

theorem Parsing.onBackendReply (h : s.Parsing E grants) (reply : BufferChain) :
    (s.onBackendReply reply).Parsing E grants :=
  h.same rfl id

/-- What was read is the commands with a verdict and what the buffer holds. -/
theorem Parsing.split (h : s.Parsing E grants) :
    s.input = ((s.verdicts.map Verdict.judgement).map Judgement.frame).flatten ++
      s.clientIn.content := by
  obtain ⟨fs, htaken, hverdicts⟩ := h.taken
  rw [hverdicts, List.map_map]
  have hframes : fs.map (Judgement.frame ∘ E.judge) = fs.map Prod.snd :=
    List.map_congr_left fun x _ => Env.frame_judge E x
  rw [hframes]
  exact htaken.flatten

/-- The verdicts are the first judgements of the reference function on what was read. -/
theorem Parsing.judged (h : s.Parsing E grants) :
    s.verdicts.map Verdict.judgement <+: (E.reference s.input).judgements := by
  obtain ⟨fs, htaken, hverdicts⟩ := h.taken
  have hcut := htaken []
  rw [List.append_nil, List.append_nil] at hcut
  rw [hverdicts, Env.reference, hcut]
  simp only [Cut.after, List.map_append]
  exact List.prefix_append _ _

/-! ## 2. A round of the reader -/

/-- The verdicts on a batch say that its commands are forwarded. -/
theorem map_verdictsOf (frames : List Bytes) (slots : List (Slot n)) :
    (verdictsOf frames slots).map Verdict.judgement = frames.map Judgement.forwarded := by
  refine List.ext_getElem? fun j => ?_
  simp only [verdictsOf, List.getElem?_map, List.getElem?_mapIdx, Option.map_map]
  rfl

theorem sent_forwarded (frames : List Bytes) :
    (frames.map Judgement.forwarded).filterMap Judgement.sent = frames := by
  induction frames with
  | nil => rfl
  | cons f frames ih =>
    have hf : Judgement.sent (.forwarded f) = some f := rfl
    rw [List.map_cons, List.filterMap_cons_some hf, ih]

/-- **What a round took**: it fits the counter, and the bytes of its batch are its commands. -/
structure Taking (E : Env) (alloc : Nat → Nat → Bool) (s : ClientSession n) (r : Round)
    (gs : List (RespFrameInfo × Bytes)) : Prop where
  read : Read E alloc E.config.maxPipelineCommandsPerRead (.start s.parser s.clientIn) r gs
  count : E.blockSize < 2 ^ 32 → r.parsed % 2 ^ 32 = gs.length
  bytes : s.clientIn.content.take r.consumed = (gs.map Prod.snd).flatten
  none : r.parsed = 0 → r.consumed = 0
  empty : gs ≠ [] → E.firstFrame [] = .more

/-- **A round of parsing takes frames off the front of the stream**, up to its budget. -/
theorem Parsing.round (h : s.Parsing E grants) (hU : UnpackOneSpec E.unpackOne)
    {alloc : Nat → Nat → Bool} {r : Round}
    (hr : parseLoop E alloc E.config.maxPipelineCommandsPerRead
      (.start s.parser s.clientIn) = some r) : ∃ gs, Taking E alloc s r gs := by
  obtain ⟨gs, hread⟩ := parseLoop_spec hU hr h.fits (Nat.zero_le _) rfl rfl (Or.inr rfl)
  have hchain : Chain E.firstFrame s.clientIn.content gs (s.clientIn.content.drop r.consumed) :=
    hread.chain
  have hparsed : r.parsed = gs.length := by
    rw [hread.parsed]
    exact Nat.zero_add _
  have hlt : E.blockSize < 2 ^ 32 → gs.length < 2 ^ 32 := by
    intro hsize
    by_cases h0 : E.config.maxPipelineCommandsPerRead = 0
    · have hfew := hread.few
      rw [h0] at hfew
      omega
    · have hle := hchain.length_le (Env.incremental_firstFrame hU) (Env.advances_firstFrame hU)
      have hfew := h.few h0
      omega
  have hflat := hchain.flatten
  have hlen : r.consumed = (gs.map Prod.snd).flatten.length := by
    have hsum := congrArg List.length hflat
    rw [List.length_append, List.length_drop] at hsum
    have hinside : r.consumed ≤ s.clientIn.content.length := hread.inside
    omega
  refine ⟨gs, hread, fun hsize => ?_, ?_, fun h0 => ?_, fun hne => ?_⟩
  · rw [hparsed]
    exact Nat.mod_eq_of_lt (hlt hsize)
  · rw [hlen]
    conv_lhs => rw [hflat]
    exact List.take_left
  · rw [hlen, List.length_eq_zero_iff.mp (hparsed.symm.trans h0)]
    rfl
  · exact hchain.more_of_nil (Env.incremental_firstFrame hU) (Env.advances_firstFrame hU) hne

/-- The session with the commands of a round taken, whatever became of their batch. -/
theorem Parsing.take (h : s.Parsing E grants) (hU : UnpackOneSpec E.unpackOne)
    (hopen : s.state = .kOpen) (he : s'.eof = s.eof) {alloc : Nat → Nat → Bool} {r : Round}
    {gs : List (RespFrameInfo × Bytes)} (ht : Taking E alloc s r gs) (hfits : Fits E s'.parser)
    (hin : s'.clientIn.content = s.clientIn.content.drop r.consumed)
    (hblock : s'.clientIn.blockSize = s.clientIn.blockSize) (hi : s'.input = s.input)
    (hv : s'.verdicts.map Verdict.judgement =
      s.verdicts.map Verdict.judgement ++ (gs.map Prod.snd).map Judgement.forwarded)
    (hr : s'.reader ≠ .reading)
    (hbatched : E.blockSize < 2 ^ 32 → s'.state ≠ .kAborted → s.state ≠ .kAborted ∧
      s'.batches = s.batches ++
        if gs = [] then [] else [((gs.map Prod.snd).flatten, (gs.map Prod.snd).length)])
    (hd : s'.state ≠ .kDraining) : s'.Parsing E grants := by
  have hp : Incremental E.firstFrame := Env.incremental_firstFrame hU
  have ha : Advances E.firstFrame := Env.advances_firstFrame hU
  have hchain : Chain E.firstFrame s.clientIn.content gs (s.clientIn.content.drop r.consumed) :=
    ht.read.chain
  refine ⟨hfits, hblock.trans h.blocks, ?_, fun h0 => ?_, fun h0 => ?_, fun hpc => absurd hpc hr,
    fun hsize hst => ?_, fun hst => absurd hst hd, fun _ => he.trans (h.unended hopen)⟩
  · obtain ⟨fs, htaken, hverdicts⟩ := h.taken
    refine ⟨fs ++ gs, ?_, ?_⟩
    · rw [hi, hin]
      exact htaken.chain hchain hp ha
    · rw [hv, hverdicts, List.map_append, List.map_map]
      congr 1
      refine List.map_congr_left fun g hg => ?_
      simp only [Function.comp, Env.judge, ht.read.accepted g hg, if_true]
  · rw [hin]
    exact Nat.le_trans (hchain.length_rest hp ha) (h.few h0)
  · have hle := h.bounded h0
    rw [hin, List.length_drop]
    omega
  · obtain ⟨hst, hbatches⟩ := hbatched hsize hst
    rw [hv, List.filterMap_append, sent_forwarded, hbatches]
    have hold := h.batched hsize hst
    by_cases hnil : gs = []
    · rw [if_pos hnil, hnil]
      simpa using hold
    · rw [if_neg hnil]
      refine hold.snoc (by simpa using hnil) ?_
      rw [List.length_map]
      exact ht.read.few

/-- **What a round has taken is forwarded, in one batch**, and its bytes leave the input. -/
theorem Parsing.submitRound (h : s.Parsing E grants) (hU : UnpackOneSpec E.unpackOne)
    (hopen : s.state = .kOpen) (htop : s.reader = .top) {alloc : Nat → Nat → Bool} {r : Round}
    {gs : List (RespFrameInfo × Bytes)} (ht : Taking E alloc s r gs) (a : Owner)
    (p : BackendPool n) :
    (s.submitRound a p r).2.1.Parsing E grants ∧
      (s.submitRound a p r).2.1.clientIn.content = s.clientIn.content.drop r.consumed := by
  have hcontent : r.input.content = s.clientIn.content := ht.read.content
  have hblock : r.input.blockSize = s.clientIn.blockSize := ht.read.blockSize
  have hframes : r.frames = gs.map Prod.snd := ht.read.frames
  have hparsed : r.parsed = gs.length := by
    rw [ht.read.parsed]
    exact Nat.zero_add _
  have hne : s.state ≠ .kAborted := by
    rw [hopen]
    nofun
  have hnd : s.state ≠ .kDraining := by
    rw [hopen]
    nofun
  have hnr : s.reader ≠ .reading := by
    rw [htop]
    nofun
  have hmap : ∀ slots : List (Slot n),
      (s.verdicts ++ verdictsOf r.frames slots).map Verdict.judgement =
        s.verdicts.map Verdict.judgement ++ (gs.map Prod.snd).map Judgement.forwarded := by
    intro slots
    rw [List.map_append, map_verdictsOf, hframes]
  unfold ClientSession.submitRound
  split
  · rename_i hpos
    have hgs : gs ≠ [] := by
      rintro rfl
      rw [hparsed] at hpos
      exact absurd hpos (Nat.lt_irrefl 0)
    have hsliced : (r.input.sliced r.consumed).content = s.clientIn.content.drop r.consumed := by
      rw [Buffer.content_sliced, hcontent]
    have hslicedBlock : (r.input.sliced r.consumed).blockSize = s.clientIn.blockSize := by
      rw [Buffer.blockSize_sliced, hblock]
    have hcount : E.blockSize < 2 ^ 32 → r.parsed % 2 ^ 32 ≠ 0 := by
      intro hsize
      rw [ht.count hsize]
      exact fun h0 => hgs (List.length_eq_zero_iff.mp h0)
    rcases submitBatch_cases { s with parser := r.parser, clientIn := r.input.sliced r.consumed } a p
      (r.input.slicePrefix r.consumed) (r.parsed % 2 ^ 32) r.frames with
      ⟨h0, he⟩ | ⟨_, he⟩ | ⟨c, _, _, he⟩
    · rw [he]
      exact ⟨h.take hU hopen rfl ht ht.read.fits hsliced hslicedBlock rfl (hmap _) hnr
        (fun hsize => absurd h0 (hcount hsize)) hnd, hsliced⟩
    · rw [he]
      unfold ClientSession.abort
      rw [if_neg (by exact hne)]
      exact ⟨h.take hU hopen rfl ht ht.read.fits hsliced hslicedBlock rfl (hmap _) hnr
        (fun _ hst => absurd rfl hst) nofun, hsliced⟩
    · rw [he]
      refine ⟨h.take hU hopen rfl ht ht.read.fits hsliced hslicedBlock rfl (hmap _) hnr
        (fun hsize _ => ⟨hne, ?_⟩) hnd, hsliced⟩
      rw [if_neg hgs, Buffer.bytes_slicePrefix, hcontent, ht.bytes, ht.count hsize, List.length_map]
  · rename_i hpos
    have hgs : gs = [] := List.length_eq_zero_iff.mp (by omega)
    have hzero : r.consumed = 0 := ht.none (by omega)
    have hsame : r.input.content = s.clientIn.content.drop r.consumed := by
      rw [hzero, List.drop_zero, hcontent]
    refine ⟨h.take hU hopen rfl ht ht.read.fits hsame hblock rfl ?_ hnr (fun _ _ => ⟨hne, ?_⟩) hnd,
      hsame⟩
    · rw [hgs]
      simp
    · rw [if_pos hgs]
      exact (List.append_nil _).symm

/-- The command that was rejected is taken as well. -/
theorem Parsing.reject (h : s.Parsing E grants) (hU : UnpackOneSpec E.unpackOne)
    (hopen : s.state = .kOpen) {info : RespFrameInfo}
    (hframe : E.firstFrame s.clientIn.content = .done info info.consumed)
    (hrefused : E.accepts info = false) (pc : SessionReaderPc) (hpc : pc ≠ .reading) :
    { s with
      clientIn := s.clientIn.consume info.consumed
      verdicts := s.verdicts ++ [Verdict.rejected (s.clientIn.content.take info.consumed)
        (E.rules.validate info.commandName info.argc).message]
      reader := pc }.Parsing E grants := by
  have hp : Incremental E.firstFrame := Env.incremental_firstFrame hU
  have ha : Advances E.firstFrame := Env.advances_firstFrame hU
  have hchain : Chain E.firstFrame s.clientIn.content
      [(info, s.clientIn.content.take info.consumed)] (s.clientIn.content.drop info.consumed) :=
    .cons hframe (.nil _)
  have hne : s.state ≠ .kAborted := by
    rw [hopen]
    nofun
  refine ⟨h.fits, ?_, ?_, fun h0 => ?_, fun h0 => ?_, fun h0 => absurd h0 hpc, fun hsize _ => ?_,
    fun hd => ?_, fun _ => h.unended hopen⟩
  · rw [Buffer.blockSize_consume]
    exact h.blocks
  · obtain ⟨fs, htaken, hverdicts⟩ := h.taken
    refine ⟨fs ++ [(info, s.clientIn.content.take info.consumed)], ?_, ?_⟩
    · rw [Buffer.content_consume]
      exact htaken.chain hchain hp ha
    · rw [List.map_append, hverdicts, List.map_append]
      simp [Env.judge, hrefused, Verdict.judgement]
  · rw [Buffer.content_consume]
    exact Nat.le_trans (hchain.length_rest hp ha) (h.few h0)
  · have hle := h.bounded h0
    rw [Buffer.content_consume, List.length_drop]
    omega
  · -- a rejected command is no part of a batch
    have hsame : ((s.verdicts ++ [Verdict.rejected (s.clientIn.content.take info.consumed)
        (E.rules.validate info.commandName info.argc).message]).map Verdict.judgement).filterMap
          Judgement.sent = (s.verdicts.map Verdict.judgement).filterMap Judgement.sent := by
      rw [List.map_append, List.filterMap_append]
      exact List.append_nil _
    show Batched _ (((s.verdicts ++ _).map Verdict.judgement).filterMap Judgement.sent) s.batches
    rw [hsame]
    exact h.batched hsize hne
  · have hd : s.state = .kDraining := hd
    rw [hopen] at hd
    cases hd

/-- A session that drains keeps what it has read. -/
theorem Parsing.drain (h : s.Parsing E grants) (hopen : s.state = .kOpen) {error : String}
    {eof : Bool} (he : Ended E grants s.clientIn eof error) :
    { s.drain error with reader := .leaving, eof := eof }.Parsing E grants := by
  have hne : s.state ≠ .kAborted := by
    rw [hopen]
    nofun
  rw [drain_of_open hopen]
  exact ⟨h.fits, h.blocks, h.taken, h.few, h.bounded, nofun, fun hsize _ => h.batched hsize hne,
    fun _ => ⟨error, rfl, he⟩, nofun⟩

/-- A round ends with a refusal, with the end of what can be read, or with its budget. -/
theorem Parsing.closeRound (h : s.Parsing E grants) (hU : UnpackOneSpec E.unpackOne)
    (hopen : s.state = .kOpen) {alloc : Nat → Nat → Bool}
    (hgrants : grants → ∀ k size, alloc k size = true) {budget : Nat} {r : Round}
    (hstop : Stop E alloc s.clientIn.content budget r)
    (hspent : budget = 0 → E.config.maxPipelineCommandsPerRead ≠ 0 →
      r.parsed ≠ 0 ∧ E.firstFrame [] = .more) : (s.closeRound r).Parsing E grants := by
  have hread : (E.config.maxPipelineCommandsPerRead ≠ 0 → Exhausted E s.clientIn.content) →
      { s with reader := .reading }.Parsing E grants := fun hex =>
    ⟨h.fits, h.blocks, h.taken, h.few, h.bounded, fun _ => hex, h.batched, h.ended,
      h.unended⟩
  have hdrain : ∀ {error : String}, Ended E grants s.clientIn s.eof error →
      { s.drain error with reader := .leaving }.Parsing E grants := by
    intro error he
    have hd := h.drain hopen he
    rw [drain_of_open hopen] at hd ⊢
    exact hd
  unfold ClientSession.closeRound
  cases hstop with
  | spent h0 error bytes status =>
    rw [if_neg (by rw [error]; exact not_not.mpr rfl)]
    split
    · exact h.same rfl nofun
    · rename_i hmore
      refine hread fun hmax => ?_
      obtain ⟨hparsed, hnil⟩ := hspent h0 hmax
      have hempty : s.clientIn.content = [] := by
        have hk : r.ps = .kOk := status.resolve_right hparsed
        rw [← List.length_eq_zero_iff, ← Buffer.readableBytes_eq]
        by_contra hlen
        exact hmore ⟨hk, hlen⟩
      rw [hempty]
      exact exhausted_nil hnil
  | missing error bytes status exhausted =>
    rw [if_neg (by rw [error]; exact not_not.mpr rfl),
      if_neg (fun hk => by rw [status] at hk; cases hk.1)]
    exact hread fun _ => exhausted
  | rejected info frame refused error bytes =>
    have hpos := Env.advances_firstFrame hU frame
    rw [if_pos (by rw [error]; exact CommandRules.validate_message refused), if_neg (by omega),
      error, bytes]
    exact h.reject hU hopen frame refused _ nofun
  | broken bad error bytes =>
    rw [if_pos (by rw [error]; decide), if_pos bytes, error]
    exact hdrain (.broken (h.unended hopen) bad)
  | noMemory k size failed error bytes =>
    rw [if_pos (by rw [error]; decide), if_pos bytes, error]
    refine hdrain (.noMemory (h.unended hopen) fun hg => ?_)
    rw [hgrants hg k size] at failed
    cases failed

/-- A round of the reader keeps what was read and judged in step with the stream. -/
theorem Parsing.readerTop (h : s.Parsing E grants) (hU : UnpackOneSpec E.unpackOne)
    (htop : s.reader = .top) {a : Owner} {p : BackendPool n} {alloc : Nat → Nat → Bool}
    (hgrants : grants → ∀ k size, alloc k size = true)
    {x : ClientSession n × BackendPool n} (hx : s.readerTop E a p alloc = some x) :
    x.1.Parsing E grants := by
  unfold ClientSession.readerTop at hx
  split at hx
  · cases hx
    exact h.same rfl nofun
  · rename_i hopen
    have hopen : s.state = .kOpen := not_not.mp hopen
    obtain ⟨r, hr, rfl⟩ := Option.map_eq_some_iff.mp hx
    obtain ⟨gs, ht⟩ := h.round hU hr
    obtain ⟨hsub, hcontent⟩ := h.submitRound hU hopen htop ht a p
    obtain ⟨hrd, hstate, _⟩ := s.submitRound_fields a p r
    dsimp only
    split
    · rename_i hok
      have hstop : Stop E alloc (s.submitRound a p r).2.1.clientIn.content
          (E.config.maxPipelineCommandsPerRead - gs.length) r := by
        rw [hcontent]
        exact ht.read.stop
      refine hsub.closeRound hU ((hstate hok).trans hopen) hgrants hstop fun h0 hmax => ?_
      have hne : gs ≠ [] := by
        rintro rfl
        exact hmax h0
      refine ⟨fun hzero => hne ?_, ht.empty hne⟩
      have hparsed : r.parsed = 0 + gs.length := ht.read.parsed
      exact List.length_eq_zero_iff.mp (by omega)
    · exact hsub.same rfl nofun

theorem Parsing.readerAwait (h : s.Parsing E grants) (error : String) :
    (s.readerAwait E error).Parsing E grants := by
  unfold ClientSession.readerAwait
  repeat' split
  all_goals exact h.same rfl nofun

/-! ## 3. A read -/

/-- A read starts at one place only. -/
theorem readerStep_read {a : Owner} {p : BackendPool n} {o : ReadOutcome}
    {x : ClientSession n × BackendPool n × Bool} (hx : s.readerStep E a p (.read o) = some x) :
    s.reader = .reading ∧ ∃ y, s.readerRead a p o = some y ∧ x = (y.1, y.2, false) := by
  cases hpc : s.reader with
  | reading =>
    simp only [ClientSession.readerStep, hpc] at hx
    obtain ⟨y, hy, rfl⟩ := Option.map_eq_some_iff.mp hx
    exact ⟨rfl, y, hy, rfl⟩
  | _ =>
    simp only [ClientSession.readerStep, hpc] at hx
    cases hx

/-- Whatever becomes of the session, what was read is put after what it held. -/
theorem content_readerRead {a : Owner} {p : BackendPool n} {o : ReadOutcome}
    {y : ClientSession n × BackendPool n} (hy : s.readerRead a p o = some y) :
    y.1.clientIn.content = s.clientIn.content ++ o.bytes := by
  obtain ⟨⟨st, b⟩, hread, rfl⟩ := Option.map_eq_some_iff.mp hy
  have hin := content_readSome hread
  cases st with
  | none => exact hin
  | some st =>
    have hdrain : ∀ (s : ClientSession n) (e : String), (s.drain e).clientIn = s.clientIn := by
      intro s e
      unfold ClientSession.drain
      split <;> rfl
    have habort : ∀ s : ClientSession n, (s.abort a p).1.clientIn = s.clientIn := by
      intro s
      unfold ClientSession.abort
      split <;> rfl
    dsimp only
    repeat' split
    · exact hin
    · exact hin
    · rw [hdrain]
      exact hin
    · rw [habort]
      exact hin

/-- What a read brings in comes after a rest without a complete command. -/
theorem Parsing.arrive (h : s.Parsing E grants) (hU : UnpackOneSpec E.unpackOne)
    (hpc : s.reader = .reading) (hnd : s.state ≠ .kDraining) {b : Buffer} {x : Bytes}
    (hin : b.content = s.clientIn.content ++ x) (hblock : b.blockSize = s.clientIn.blockSize)
    (hx : x.length ≤ s.clientIn.blockSize) {pc : SessionReaderPc} (hr : pc = .reading → x = []) :
    { s with clientIn := b, input := s.input ++ x, reader := pc }.Parsing E grants where
  fits := h.fits
  blocks := hblock.trans h.blocks
  taken := by
    obtain ⟨fs, htaken, hverdicts⟩ := h.taken
    refine ⟨fs, ?_, hverdicts⟩
    rw [hin]
    exact htaken.arrive x
  few h0 := by
    rw [hin, ← h.blocks]
    exact Nat.le_trans (length_frames_append (Env.incremental_firstFrame hU)
      (Env.advances_firstFrame hU) (h.reading hpc h0).absent x) hx
  bounded h0 := by
    have hshort := (h.reading hpc h0).short
    have hblocks := h.blocks
    rw [hin, List.length_append]
    omega
  reading hr' h0 := by
    rw [hin, hr hr', List.append_nil]
    exact h.reading hpc h0
  batched := h.batched
  ended hd := absurd hd hnd
  unended := h.unended

/-- More bytes come to the end of the stream, or the stream is over. -/
theorem Parsing.readerRead (h : s.Parsing E grants) (hU : UnpackOneSpec E.unpackOne)
    (hpc : s.reader = .reading) (hnd : s.state ≠ .kDraining) {a : Owner} {p : BackendPool n}
    {o : ReadOutcome} {x : ClientSession n × BackendPool n} (hx : s.readerRead a p o = some x) :
    x.1.Parsing E grants := by
  obtain ⟨⟨st, b⟩, hread, rfl⟩ := Option.map_eq_some_iff.mp hx
  have hin := content_readSome hread
  have hblock := blockSize_readSome hread
  have hlen := length_readSome hread
  cases st with
  | none =>
    have hnone := bytes_of_again hread
    have hcame : { s with clientIn := b, input := s.input ++ o.bytes, reader := .reading }.Parsing
        E grants := h.arrive hU hpc hnd hin hblock hlen fun _ => hnone
    refine hcame.same ?_ fun _ => rfl
    rw [hnone, List.append_nil]
    rfl
  | some st =>
    have hcame : ∀ pc : SessionReaderPc, pc ≠ .reading →
        { s with clientIn := b, input := s.input ++ o.bytes, reader := pc }.Parsing E grants :=
      fun pc hne => h.arrive hU hpc hnd hin hblock hlen fun he => absurd he hne
    dsimp only
    split
    · exact hcame .leaving nofun
    · rename_i hopen
      have hopen : s.state = .kOpen := not_not.mp hopen
      split
      · exact hcame .top nofun
      · rename_i hbad
        have hnone : o.bytes = [] := by
          by_contra hne
          exact hbad ((status_readSome hread).mpr hne)
        have hstay : { s with clientIn := b, input := s.input ++ o.bytes }.Parsing E grants :=
          h.arrive hU hpc hnd hin hblock hlen fun _ => hnone
        rw [hnone, List.append_nil] at hin
        split
        · have hended : Ended E grants b true (endError b) := by
            refine .closed rfl fun h0 => ?_
            rw [hin]
            exact h.reading hpc h0
          exact hstay.drain hopen hended
        · exact (hstay.abort a p).same rfl nofun

theorem Parsing.finishLoop (h : s.Parsing E grants) (a : Owner) (p : BackendPool n) :
    (s.finishLoop a p).1.Parsing E grants := by
  unfold ClientSession.finishLoop
  split
  all_goals exact h.same rfl id

/-! ## 4. The two coroutines -/

/-- **Every step of the reader keeps it.** -/
theorem Parsing.readerStep (h : s.Parsing E grants) (hU : UnpackOneSpec E.unpackOne)
    (ho : s.Orderly) {a : Owner} {p : BackendPool n}
    {io : SessionReaderIo}
    (hgrants : grants → ∀ alloc, io = .parse alloc → ∀ k size, alloc k size = true)
    {x : ClientSession n × BackendPool n × Bool} (hx : s.readerStep E a p io = some x) :
    x.1.Parsing E grants := by
  unfold ClientSession.readerStep at hx
  split at hx
  · rename_i hpc
    obtain ⟨y, hy, rfl⟩ := Option.map_eq_some_iff.mp hx
    exact h.readerTop hU hpc (fun hg => hgrants hg _ rfl) hy
  · cases hx
    exact h.readerAwait _
  · obtain ⟨sig, _, rfl⟩ := Option.map_eq_some_iff.mp hx
    exact h.same rfl nofun
  · cases hx
    exact h.same rfl nofun
  · rename_i hpc
    obtain ⟨y, hy, rfl⟩ := Option.map_eq_some_iff.mp hx
    -- the reader of a session that drains has left
    have hnd : s.state ≠ .kDraining := fun hd => by
      have hgone := ho.draining hd
      rw [hpc] at hgone
      cases hgone
    exact h.readerRead hU hpc hnd hy
  · cases hx
    have hdone : { s with reader := .done }.Parsing E grants :=
      h.same rfl nofun
    exact hdone.finishLoop a p
  · cases hx

/-- The writer reads nothing. -/
theorem Parsing.writerStep (h : s.Parsing E grants) {a : Owner} {p : BackendPool n}
    {io : SessionWriterIo} {x : ClientSession n × BackendPool n × Bool}
    (hx : s.writerStep E a p io = some x) : x.1.Parsing E grants := by
  unfold ClientSession.writerStep at hx
  split at hx
  · cases hx
    unfold ClientSession.writerTop
    repeat' split
    all_goals exact h.same rfl id
  · obtain ⟨sig, _, rfl⟩ := Option.map_eq_some_iff.mp hx
    exact h.same rfl id
  · obtain ⟨y, hy, rfl⟩ := Option.map_eq_some_iff.mp hx
    obtain ⟨res, _, rfl⟩ := Option.map_eq_some_iff.mp hy
    cases res with
    | running c' => exact h.same rfl id
    | returned st =>
      dsimp only
      split
      · exact h.same rfl id
      · exact (h.abort a p).same rfl id
  · cases hx
    have hdone : { s with writer := .done }.Parsing E grants :=
      h.same rfl id
    exact hdone.finishLoop a p
  · cases hx

end Parsing

/-! ## 5. Why a session ended -/

/-- The session has a reason in its stream for the error it ended with, also when it was aborted
    after that. -/
def Ends (E : Env) (grants : Prop) (s : ClientSession n) : Prop :=
  ∀ e, s.ending = some e → s.reader.gone = true ∧ Ended E grants s.clientIn s.eof e

section Ends

variable {E : Env} {grants : Prop} {s s' : ClientSession n}

theorem init_ends (E : Env) (grants : Prop) (uid : Nat) :
    (init E uid : ClientSession n).Ends E grants := nofun

/-- The error a session ends with, and where in its stream. -/
def closing (s : ClientSession n) := (s.ending, s.clientIn, s.eof)

/-- A step that leaves the ending alone keeps the reason for it. -/
theorem Ends.keep (h : s.Ends E grants) (hc : s'.closing = s.closing)
    (hr : s.reader.gone = true → s'.reader.gone = true) : s'.Ends E grants := by
  simp only [closing, Prod.mk.injEq] at hc
  obtain ⟨he, hin, ho⟩ := hc
  intro e hending
  rw [he] at hending
  obtain ⟨hgone, hended⟩ := h e hending
  rw [hin, ho]
  exact ⟨hr hgone, hended⟩

theorem Ends.abort (h : s.Ends E grants) (a : Owner) (p : BackendPool n) :
    (s.abort a p).1.Ends E grants := by
  unfold ClientSession.abort
  split
  · exact h
  · exact h.keep rfl id

theorem Ends.finishLoop (h : s.Ends E grants) (a : Owner) (p : BackendPool n) :
    (s.finishLoop a p).1.Ends E grants := by
  unfold ClientSession.finishLoop
  split
  all_goals exact h.keep rfl id

/-- Submitting is no reason to end. -/
theorem ending_submitRound (s : ClientSession n) (a : Owner) (p : BackendPool n) (r : Round) :
    (s.submitRound a p r).2.1.ending = s.ending := by
  unfold ClientSession.submitRound
  split
  · rcases submitBatch_cases { s with parser := r.parser, clientIn := r.input.sliced r.consumed } a
      p (r.input.slicePrefix r.consumed) (r.parsed % 2 ^ 32) r.frames with
      ⟨_, he⟩ | ⟨_, he⟩ | ⟨c, _, _, he⟩ <;> rw [he]
    unfold ClientSession.abort
    split <;> rfl
  · rfl

/-- A step of the reader ends the stream only by `drain()`. -/
theorem ending_readerStep {a : Owner} {p : BackendPool n} {io : SessionReaderIo}
    {x : ClientSession n × BackendPool n × Bool} (hx : s.readerStep E a p io = some x) :
    x.1.ending = s.ending ∨ x.1.state = .kDraining := by
  have hdrain : ∀ (s : ClientSession n) (error : String),
      (s.drain error).ending = s.ending ∨ (s.drain error).state = .kDraining := by
    intro s error
    unfold ClientSession.drain
    split
    · exact Or.inl rfl
    · exact Or.inr rfl
  unfold ClientSession.readerStep at hx
  split at hx
  · obtain ⟨y, hy, rfl⟩ := Option.map_eq_some_iff.mp hx
    unfold ClientSession.readerTop at hy
    split at hy
    · cases hy
      exact Or.inl rfl
    · obtain ⟨r, _, rfl⟩ := Option.map_eq_some_iff.mp hy
      have hsub := s.ending_submitRound a p r
      dsimp only
      split
      · unfold ClientSession.closeRound
        repeat' split
        · exact (hdrain _ r.error).imp_left fun h => h.trans hsub
        all_goals exact Or.inl hsub
      · exact Or.inl hsub
  · cases hx
    refine Or.inl ?_
    unfold ClientSession.readerAwait
    repeat' split
    all_goals rfl
  · obtain ⟨sig, _, rfl⟩ := Option.map_eq_some_iff.mp hx
    exact Or.inl rfl
  · cases hx
    exact Or.inl rfl
  · obtain ⟨y, hy, rfl⟩ := Option.map_eq_some_iff.mp hx
    obtain ⟨⟨st, b⟩, _, rfl⟩ := Option.map_eq_some_iff.mp hy
    cases st with
    | none => exact Or.inl rfl
    | some st =>
      dsimp only
      repeat' split
      · exact Or.inl rfl
      · exact Or.inl rfl
      · exact hdrain { s with clientIn := b, input := s.input ++ _ } _
      · refine Or.inl ?_
        unfold ClientSession.abort
        split <;> rfl
  · cases hx
    refine Or.inl ?_
    unfold ClientSession.finishLoop
    split <;> rfl
  · cases hx

/-- **A session that is draining has a reason that its stream gives.** -/
theorem Ends.readerStep (h : s.Ends E grants) {a : Owner} {p : BackendPool n}
    {io : SessionReaderIo} {x : ClientSession n × BackendPool n × Bool}
    (hx : s.readerStep E a p io = some x) (hp : x.1.Parsing E grants) (ho : x.1.Orderly) :
    x.1.Ends E grants := by
  by_cases hgone : s.reader.gone = true
  · -- a reader that has left only finishes
    have hdone : { s with reader := .done }.Ends E grants := h.keep rfl fun _ => rfl
    cases hpc : s.reader with
    | leaving =>
      cases io <;> simp only [ClientSession.readerStep, hpc] at hx <;> cases hx
      exact hdone.finishLoop a p
    | done => cases io <;> simp only [ClientSession.readerStep, hpc] at hx <;> cases hx
    | top | awaiting | blocked | polling | reading =>
      rw [hpc] at hgone
      cases hgone
  · have hnone : s.ending = none := by
      cases he : s.ending with
      | none => rfl
      | some e => exact absurd (h e he).1 hgone
    intro e he
    rcases ending_readerStep hx with hsame | hd
    · rw [hsame, hnone] at he
      cases he
    · obtain ⟨e', he', hended⟩ := hp.ended hd
      rw [he] at he'
      cases he'
      exact ⟨ho.draining hd, hended⟩

theorem Ends.writerStep (h : s.Ends E grants) {a : Owner} {p : BackendPool n}
    {io : SessionWriterIo} {x : ClientSession n × BackendPool n × Bool}
    (hx : s.writerStep E a p io = some x) : x.1.Ends E grants := by
  unfold ClientSession.writerStep at hx
  split at hx
  · cases hx
    unfold ClientSession.writerTop
    repeat' split
    all_goals exact h.keep rfl id
  · obtain ⟨sig, _, rfl⟩ := Option.map_eq_some_iff.mp hx
    exact h.keep rfl id
  · obtain ⟨y, hy, rfl⟩ := Option.map_eq_some_iff.mp hx
    obtain ⟨r, _, rfl⟩ := Option.map_eq_some_iff.mp hy
    cases r with
    | running c' => exact h.keep rfl id
    | returned st =>
      dsimp only
      split
      · exact h.keep rfl id
      · exact (h.abort a p).keep rfl id
  · cases hx
    have hdone : { s with writer := .done }.Ends E grants := h.keep rfl id
    exact hdone.finishLoop a p
  · cases hx

end Ends

end ClientSession

end RedisProxy
