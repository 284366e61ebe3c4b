/-
  File:      RedisProxy/Session/Reference.lean
  Subject:   WHAT A CLIENT'S BYTE STREAM MEANS, said without the session, and that one round of
             `readerLoop` reads it so.

  `Env.reference` is the reference function: the whole stream is cut into commands, each of which
  is forwarded or rejected, and a stream that breaks off or is no sequence of commands ends with
  an error. `parseLoop_spec` says what a round of the parsing loop takes off the buffer: commands
  that are forwarded, up to the budget, and why it stopped there.
-/
import RedisProxy.Session.Model
import RedisProxy.Resp.Frames

namespace RedisProxy

open Lib

/-! ## 1. The reference function -/

/-- What is to become of a command. -/
inductive Judgement where
  | forwarded (frame : Bytes)
  | rejected (frame : Bytes) (message : String)
  deriving DecidableEq

/-- The bytes of the command. -/
def Judgement.frame : Judgement → Bytes
  | .forwarded frame => frame
  | .rejected frame _ => frame

/-- The reference answer to a stream: a judgement for every command, and the final error. -/
structure Reference where
  judgements : List Judgement
  final : Option String
  deriving DecidableEq

/-- The error of a stream that is no sequence of commands. -/
def protocolError : String := "ERR proxy protocol error"

def outOfMemoryError : String := "ERR proxy out of memory"

namespace Env

/-- The limits a session sets for its parser. -/
def limits (E : Env) : RespLimits := ⟨E.config.maxBulkBytes, E.config.maxArrayElements, 8⟩

def firstFrame (E : Env) : Reader UInt8 RespFrameInfo :=
  RedisProxy.firstFrame E.unpackOne E.limits E.config.maxRequestBytes

theorem incremental_firstFrame {E : Env} (hU : UnpackOneSpec E.unpackOne) :
    Incremental E.firstFrame :=
  RedisProxy.incremental_firstFrame hU E.limits E.config.maxRequestBytes

theorem advances_firstFrame {E : Env} (hU : UnpackOneSpec E.unpackOne) : Advances E.firstFrame :=
  RedisProxy.advances_firstFrame hU E.limits E.config.maxRequestBytes

def accepts (E : Env) (info : RespFrameInfo) : Bool :=
  (E.rules.validate info.commandName info.argc).ok

def judge (E : Env) (x : RespFrameInfo × Bytes) : Judgement :=
  if E.accepts x.1 then .forwarded x.2
  else .rejected x.2 (E.rules.validate x.1.commandName x.1.argc).message

@[simp] theorem frame_judge (E : Env) (x : RespFrameInfo × Bytes) : (E.judge x).frame = x.2 := by
  unfold judge
  split <;> rfl

/-- **The reference function on a whole stream.** -/
def reference (E : Env) (stream : Bytes) : Reference :=
  let c := cut E.firstFrame stream
  ⟨c.frames.map E.judge, if c.broken ∨ c.rest ≠ [] then some protocolError else none⟩

end Env

/-- A verdict without the place of the command. -/
def Verdict.judgement {n : Nat} : Verdict n → Judgement
  | .forwarded frame _ => .forwarded frame
  | .rejected frame message => .rejected frame message

/-! ## 2. A round of the parsing loop -/

namespace ClientSession

/-- The parser has the session's limits. -/
structure Fits (E : Env) (p : RespParser) : Prop where
  limits : p.limits = E.limits
  frameBytes : p.maxFrameBytes = E.config.maxRequestBytes

theorem Fits.firstFrame {E : Env} {p : RespParser} (h : Fits E p) :
    RedisProxy.firstFrame E.unpackOne p.limits p.maxFrameBytes = E.firstFrame := by
  rw [h.limits, h.frameBytes]
  rfl

/-- No command is complete at the front of `i`, which is short of the limit, and the parser asks
    for more. -/
structure Exhausted (E : Env) (i : Bytes) : Prop where
  absent : ∀ info k, E.firstFrame i ≠ .done info k
  empty : i = [] → E.firstFrame i = .more
  answered : (RespParser.answer E.unpackOne E.limits E.config.maxRequestBytes i).status = .kNeedMore

theorem Exhausted.short {E : Env} {i : Bytes} (h : Exhausted E i) :
    i.length < E.config.maxRequestBytes := by
  have hshort := (RespParser.settle_more h.answered).2
  rw [List.length_take] at hshort
  omega

/-- Nothing at the front is complete, with any number of slots. -/
theorem Exhausted.incomplete {E : Env} (hU : UnpackOneSpec E.unpackOne) {i : Bytes}
    (h : Exhausted E i) {j : Bytes} (hj : j <+: i) (slots : Nat) :
    (E.unpackOne j slots E.limits).status ≠ .kOk := by
  intro hok
  obtain ⟨_, hle⟩ := hU.ok_consumed _ _ _ hok
  have hsame : E.unpackOne i slots E.limits = E.unpackOne j slots E.limits := by
    refine hU.ok_local _ _ _ hok i (Nat.le_trans hle hj.length_le) ?_
    obtain ⟨x, rfl⟩ := hj
    exact List.take_append_of_le_length hle
  have hok' : (E.unpackOne i slots E.limits).status = .kOk := by
    rw [hsame]
    exact hok
  have hthird : (E.unpackOne i (i.length / 3 + 1) E.limits).status = .kOk := by
    rw [hU.slots.enough hok' (Nat.le_refl _)]
    exact hok'
  have hanswer := h.answered
  unfold RespParser.answer at hanswer
  rw [List.take_of_length_le (Nat.le_of_lt h.short), RespParser.settle_of_ok hthird,
    hthird] at hanswer
  cases hanswer

/-- The parser asks for more, whatever arena it has. -/
theorem Exhausted.peekFrame {E : Env} (hU : UnpackOneSpec E.unpackOne) {b : Buffer}
    (h : Exhausted E b.content) {p : RespParser} (hp : Fits E p) {alloc : Nat → Bool}
    (halloc : ∀ size, alloc size = true) :
    (p.peekFrame E.unpackOne alloc b 0).map Prod.fst = some .kNeedMore := by
  have hsome : (p.unpack E.unpackOne alloc b.content).isSome = true := RespParser.unpack_isSome
  obtain ⟨⟨r, p'⟩, hr⟩ := Option.isSome_iff_exists.mp hsome
  have hstatus : r.status = .kNeedMore := by
    rw [RespParser.unpack_eq hU.slots halloc hr, hp.limits, hp.frameBytes]
    exact h.answered
  rw [RespParser.peekFrame_eq]
  rw [if_neg (Nat.not_lt_zero _), List.drop_zero, Buffer.readableView_eq, hr]
  simp [hstatus, RespParser.convert]

/-- A command that is complete at the front is found, whatever arena the parser has. -/
theorem Fits.peekFrame_found {E : Env} {p : RespParser} (hp : Fits E p)
    (hU : UnpackOneSpec E.unpackOne) {b : Buffer} {info : RespFrameInfo} {k : Nat}
    (h : E.firstFrame b.content = .done info k) :
    ∃ p' b', p.peekFrame E.unpackOne (fun _ => true) b 0 = some (.kOk, some info, p', b') := by
  have hsome : (p.peekFrame E.unpackOne (fun _ => true) b 0).isSome = true := by
    rw [RespParser.peekFrame_eq, if_neg (Nat.not_lt_zero _), Option.isSome_map]
    exact RespParser.unpack_isSome
  obtain ⟨⟨ps, found, p', b'⟩, hpeek⟩ := Option.isSome_iff_exists.mp hsome
  obtain ⟨hpeeked, _⟩ := RespParser.peekFrame_spec hU (Nat.zero_le _) hpeek
  rw [List.drop_zero] at hpeeked
  cases hpeeked with
  | found info' hframe =>
    rw [hp.firstFrame, h] at hframe
    cases hframe
    exact ⟨p', b', hpeek⟩
  | missing absent =>
    rw [hp.firstFrame] at absent
    exact absurd h (absent info k)
  | refused bad =>
    rw [hp.firstFrame, h] at bad
    cases bad
  | noMemory size failed => cases failed

theorem exhausted_nil {E : Env} (h : E.firstFrame [] = .more) : Exhausted E [] := by
  refine ⟨fun info k hk => ?_, fun _ => h, RespParser.answer_nil h⟩
  rw [h] at hk
  cases hk

/-- Why a round stopped in front of `rest`, with so many commands left in its budget. -/
inductive Stop (E : Env) (alloc : Nat → Nat → Bool) (rest : Bytes) (budget : Nat) (r : Round) : Prop
    where
  | spent (budget : budget = 0) (error : r.error = "") (bytes : r.rejectedBytes = 0)
      (status : r.ps = .kOk ∨ r.parsed = 0)
  | missing (error : r.error = "") (bytes : r.rejectedBytes = 0) (status : r.ps = .kNeedMore)
      (exhausted : Exhausted E rest)
  | rejected (info : RespFrameInfo) (frame : E.firstFrame rest = .done info info.consumed)
      (refused : E.accepts info = false)
      (error : r.error = (E.rules.validate info.commandName info.argc).message)
      (bytes : r.rejectedBytes = info.consumed)
  | broken (bad : E.firstFrame rest = .bad) (error : r.error = protocolError)
      (bytes : r.rejectedBytes = 0)
  | noMemory (k size : Nat) (failed : alloc k size = false) (error : r.error = outOfMemoryError)
      (bytes : r.rejectedBytes = 0)

/-- **What a round takes.** -/
structure Read (E : Env) (alloc : Nat → Nat → Bool) (budget : Nat) (r r' : Round)
    (gs : List (RespFrameInfo × Bytes)) : Prop where
  content : r'.input.content = r.input.content
  blockSize : r'.input.blockSize = r.input.blockSize
  fits : Fits E r'.parser
  chain : Chain E.firstFrame (r.input.content.drop r.consumed) gs
    (r.input.content.drop r'.consumed)
  inside : r'.consumed ≤ r.input.content.length
  parsed : r'.parsed = r.parsed + gs.length
  frames : r'.frames = r.frames ++ gs.map Prod.snd
  accepted : ∀ g ∈ gs, E.accepts g.1 = true
  stop : Stop E alloc (r.input.content.drop r'.consumed) (budget - gs.length) r'
  few : gs.length ≤ budget

section ParseLoop

variable {E : Env} {alloc : Nat → Nat → Bool}

/-- One command more in front of what the rest of the round takes. -/
theorem Read.cons {budget : Nat} {r r₁ r' : Round} {gs : List (RespFrameInfo × Bytes)}
    (h : Read E alloc budget r₁ r' gs) {info : RespFrameInfo}
    (hframe : E.firstFrame (r.input.content.drop r.consumed) = .done info info.consumed)
    (hacc : E.accepts info = true) (hcontent : r₁.input.content = r.input.content)
    (hblock : r₁.input.blockSize = r.input.blockSize)
    (hconsumed : r₁.consumed = r.consumed + info.consumed) (hparsed : r₁.parsed = r.parsed + 1)
    (hframes : r₁.frames = r.frames ++ [(r.input.content.drop r.consumed).take info.consumed]) :
    Read E alloc (budget + 1) r r'
      ((info, (r.input.content.drop r.consumed).take info.consumed) :: gs) where
  content := h.content.trans hcontent
  blockSize := h.blockSize.trans hblock
  fits := h.fits
  chain := by
    refine .cons hframe ?_
    have hchain := h.chain
    rw [hcontent, hconsumed, ← List.drop_drop] at hchain
    exact hchain
  inside := by
    rw [← hcontent]
    exact h.inside
  parsed := by
    rw [h.parsed, hparsed, List.length_cons]
    omega
  frames := by
    rw [h.frames, hframes, List.append_assoc]
    rfl
  accepted g hg := by
    rcases List.mem_cons.mp hg with rfl | hg
    · exact hacc
    · exact h.accepted g hg
  stop := by
    have hstop := h.stop
    rw [hcontent] at hstop
    rw [List.length_cons, Nat.add_sub_add_right]
    exact hstop
  few := by
    rw [List.length_cons]
    exact Nat.succ_le_succ h.few

/-- A round that stops where it is. -/
theorem read_nil {budget : Nat} {r r' : Round} (hcontent : r'.input.content = r.input.content)
    (hblock : r'.input.blockSize = r.input.blockSize) (hfits : Fits E r'.parser)
    (hconsumed : r'.consumed = r.consumed) (hparsed : r'.parsed = r.parsed)
    (hframes : r'.frames = r.frames) (hinside : r.consumed ≤ r.input.content.length)
    (hstop : Stop E alloc (r.input.content.drop r.consumed) budget r') :
    Read E alloc budget r r' [] where
  content := hcontent
  blockSize := hblock
  fits := hfits
  chain := by
    rw [hconsumed]
    exact .nil _
  inside := by
    rw [hconsumed]
    exact hinside
  parsed := hparsed
  frames := by
    rw [hframes]
    exact (List.append_nil _).symm
  accepted _ hg := by cases hg
  stop := by
    rw [hconsumed]
    exact hstop
  few := Nat.zero_le _

/-- **What a round of the parsing loop does.** -/
theorem parseLoop_spec (hU : UnpackOneSpec E.unpackOne) {budget : Nat} {r r' : Round}
    (h : parseLoop E alloc budget r = some r') (hfits : Fits E r.parser)
    (hinside : r.consumed ≤ r.input.content.length) (herror : r.error = "")
    (hbytes : r.rejectedBytes = 0) (hstatus : r.ps = .kOk ∨ r.parsed = 0) :
    ∃ gs, Read E alloc budget r r' gs := by
  induction budget generalizing r with
  | zero =>
    cases h
    exact ⟨[], read_nil rfl rfl hfits rfl rfl rfl hinside (.spent rfl herror hbytes hstatus)⟩
  | succ budget ih =>
    unfold parseLoop at h
    obtain ⟨⟨ps, info, parser, input⟩, hpeek, h⟩ := Option.bind_eq_some_iff.mp h
    obtain ⟨hpeeked, hlimits, hmax, hcontent, hblock⟩ :=
      RespParser.peekFrame_spec hU hinside hpeek
    have hfits' : Fits E parser := ⟨hlimits.trans hfits.limits, hmax.trans hfits.frameBytes⟩
    have hfirst := hfits.firstFrame
    cases hpeeked with
    | missing absent empty answered =>
      rw [hfirst] at absent empty
      rw [hfits.limits, hfits.frameBytes] at answered
      cases h
      exact ⟨[], read_nil hcontent hblock hfits' rfl rfl rfl hinside
        (.missing herror hbytes rfl ⟨absent, empty, answered⟩)⟩
    | refused bad =>
      rw [hfirst] at bad
      cases h
      exact ⟨[], read_nil hcontent hblock hfits' rfl rfl rfl hinside (.broken bad rfl hbytes)⟩
    | noMemory size failed =>
      cases h
      exact ⟨[], read_nil hcontent hblock hfits' rfl rfl rfl hinside
        (.noMemory r.parsed size failed rfl hbytes)⟩
    | found info frame =>
      rw [hfirst] at frame
      dsimp only at h
      split at h
      · rename_i hok
        have hused := (Env.incremental_firstFrame hU).used_le frame
        rw [List.length_drop] at hused
        obtain ⟨gs, hread⟩ := ih h hfits' (by dsimp only; rw [hcontent]; omega) herror hbytes
          (Or.inl rfl)
        exact ⟨_, hread.cons frame hok hcontent hblock rfl rfl (by rw [hcontent])⟩
      · rename_i hbad
        cases h
        have hrefused : E.accepts info = false := by
          unfold Env.accepts
          simpa using hbad
        exact ⟨[], read_nil hcontent hblock hfits' rfl rfl rfl hinside
          (.rejected info frame hrefused rfl rfl)⟩

end ParseLoop

end ClientSession

end RedisProxy
