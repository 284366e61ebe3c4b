/-
  File:      RedisProxy/Session/Arity.lean
  Subject:   THE NUMBER OF ARGUMENTS A REQUEST MAY HAVE: what the parser lets through against
             what the rules let through.

  `RespParser` takes a request of up to `max_array_elements` elements, a `std::size_t`.
  `CommandRules::Default` writes `UINT16_MAX` for a command that takes any number of arguments,
  and `validate` reads it as a bound like any other. `unbounded_arity_iff` says for which of the
  requests that the parser accepts the two agree, and `keys65535` is a request on which they do
  not.
-/
import RedisProxy.Session.Reference
import RedisProxy.Resp.Decode

namespace RedisProxy

open Lib

/-! ## 1. Where the rules and the parser agree -/

/-- What is said to the request at which a round of `readerLoop` stands, one of a command that
    takes any number of arguments but at least so many: it is refused only if it has fewer, by
    the rules and by the session. -/
def ArityAgrees (E : Env) (minArgc : UInt16) (alloc : Nat → Nat → Bool) (r : ClientSession.Round)
    (info : RespFrameInfo) : Prop :=
  ((E.rules.validate info.commandName info.argc).ok = false → info.argc < minArgc.toNat) ∧
  (∀ r', ClientSession.parseLoop E alloc 1 r = some r' →
    r'.error = "ERR wrong number of arguments" → info.argc < minArgc.toNat)

section Round

variable {E : Env} {alloc : Nat → Nat → Bool} {r : ClientSession.Round} {info : RespFrameInfo}
  {p' : RespParser} {b' : Buffer}

/-- The error after one request is that of the rules. -/
theorem parseLoop_one
    (hpeek : r.parser.peekFrame E.unpackOne (alloc r.parsed) r.input r.consumed =
      some (.kOk, some info, p', b')) :
    ∃ r', ClientSession.parseLoop E alloc 1 r = some r' ∧
      r'.error = if (E.rules.validate info.commandName info.argc).ok then r.error
        else (E.rules.validate info.commandName info.argc).message := by
  unfold ClientSession.parseLoop
  rw [hpeek, Option.bind_some]
  dsimp only
  split
  · exact ⟨_, rfl, rfl⟩
  · exact ⟨_, rfl, rfl⟩

/-- They agree exactly up to `UINT16_MAX` arguments. -/
theorem arityAgrees_iff (hrules : E.rules = .default)
    (hpeek : r.parser.peekFrame E.unpackOne (alloc r.parsed) r.input r.consumed =
      some (.kOk, some info, p', b')) (herror : r.error = "")
    {name : String} {minArgc : UInt16} {read write : Bool}
    (hentry : (name, minArgc, uint16Max, read, write) ∈ CommandRules.allowedCommands)
    (hname : CommandRules.SameName (ascii name) info.commandName) :
    ArityAgrees E minArgc alloc r info ↔ info.argc ≤ 65535 := by
  have hmin : minArgc.toNat ≤ 65535 := Nat.le_of_lt_succ minArgc.toNat_lt
  obtain ⟨r₁, hround, hsaid⟩ := parseLoop_one hpeek
  unfold ArityAgrees
  rw [hrules, CommandRules.validate_unbounded hentry hname] at hsaid
  rw [hrules, CommandRules.validate_unbounded hentry hname, hround]
  by_cases hrefused : info.argc < minArgc.toNat ∨ 65535 < info.argc
  · rw [if_pos hrefused]
    refine ⟨fun h => ?_, fun hle => ?_⟩
    · have hbelow := h.1 rfl
      omega
    · have hbelow : info.argc < minArgc.toNat := by omega
      exact ⟨fun _ => hbelow, fun _ _ _ => hbelow⟩
  · rw [if_neg hrefused] at hsaid ⊢
    refine ⟨fun _ => by omega, fun _ => ⟨(fun h => by cases h), fun r' hr' herr => ?_⟩⟩
    -- an accepted request leaves the error empty
    cases hr'
    rw [hsaid, if_pos (show Status.okStatus.ok = true from rfl), herror] at herr
    exact absurd herr (by decide)

end Round

/-- The number of arguments is that of the elements of the array. -/
theorem elements_of_extract {v : RespValue} {name : Bytes} {argc : Nat}
    (h : RespParser.extractCommandInfo v = some (name, argc)) :
    ∃ es, v.elements = some es ∧ es.length = argc := by
  unfold RespParser.extractCommandInfo at h
  split at h
  · rename_i e es _ hes
    split at h
    · cases h
      exact ⟨e :: es, hes, rfl⟩
    · cases h
  · cases h

/-- **The arity rules agree with the parser's limits on requests of up to 65535 elements, and on
    no others.** For every place of a round of `readerLoop`, every request that `peekFrame`
    accepts there and every command that `Default()` registers with `UINT16_MAX` as its upper
    bound, in any spelling: the rules refuse the request, and the session answers that the number
    of arguments is wrong, only for having too few of them, exactly when the array the request is
    has no more than 65535 elements. -/
theorem unbounded_arity_iff {E : Env} (hU : UnpackOneSpec E.unpackOne)
    (hrules : E.rules = .default) {alloc : Nat → Nat → Bool} {r : ClientSession.Round}
    (hfits : ClientSession.Fits E r.parser) (herror : r.error = "") {info : RespFrameInfo}
    {p' : RespParser} {b' : Buffer}
    (hpeek : r.parser.peekFrame E.unpackOne (alloc r.parsed) r.input r.consumed =
      some (.kOk, some info, p', b'))
    {name : String} {minArgc : UInt16} {read write : Bool}
    (hentry : (name, minArgc, uint16Max, read, write) ∈ CommandRules.allowedCommands)
    (hname : CommandRules.SameName (ascii name) info.commandName) :
    ∃ v es, firstValue E.unpackOne E.limits E.config.maxRequestBytes
        (r.input.content.drop r.consumed) = .done v info.consumed ∧ v.elements = some es ∧
      (ArityAgrees E minArgc alloc r info ↔ es.length ≤ 65535) := by
  have hoff : r.consumed ≤ r.input.content.length := by
    by_contra hlt
    rw [RespParser.peekFrame_eq] at hpeek
    rw [if_pos (by rw [Buffer.readableBytes_eq]; omega)] at hpeek
    cases hpeek
  obtain ⟨hpeeked, _⟩ := RespParser.peekFrame_spec hU hoff hpeek
  cases hpeeked with
  | found _ hframe =>
    rw [hfits.firstFrame] at hframe
    obtain ⟨v, hv, hinfo, _⟩ := firstFrame_done.mp hframe
    obtain ⟨es, hes, hlength⟩ := elements_of_extract hinfo
    refine ⟨v, es, hv, hes, ?_⟩
    rw [hlength]
    exact arityAgrees_iff hrules hpeek herror hentry hname

/-! ## 2. Requests of many keys -/

/-- The proxy with the default configuration and the default rules. -/
def defaultEnv : Env where
  unpackOne := Resp.unpackOne
  packError := Resp.packError
  config := {}
  rules := .default
  blockSize := 32 * 1024
  blockSize_pos := by decide

/-- The parser of a new session. -/
def defaultParser : RespParser :=
  RespParser.init.setLimits defaultEnv.config.maxBulkBytes defaultEnv.config.maxArrayElements 8
    defaultEnv.config.maxRequestBytes

theorem fits_defaultParser : ClientSession.Fits defaultEnv defaultParser := ⟨rfl, rfl⟩

/-- The elements of an `MGET` of `n` keys, each with its bytes. -/
def mgetElements (n : Nat) : List (RespValue × Bytes) :=
  (.mk .kBulkString none (ascii "MGET"), ascii "$4\r\nMGET\r\n") ::
    List.replicate n (.mk .kBulkString none (ascii "k"), ascii "$1\r\nk\r\n")

/-- `MGET` of `n` keys; `header` is the line with the number of its elements. -/
def mget (header : Bytes) (n : Nat) : Bytes :=
  42 :: (header ++ ((mgetElements n).map Prod.snd).flatten)

theorem length_mget (header : Bytes) (n : Nat) :
    (mget header n).length = header.length + 7 * n + 11 := by
  have hword : (ascii "$4\r\nMGET\r\n").length = 10 := by decide
  have hkey : (ascii "$1\r\nk\r\n").length = 7 := by decide
  simp only [mget, mgetElements, List.map_cons, List.map_replicate, List.flatten_cons,
    List.length_cons, List.length_append, List.length_flatten, List.sum_replicate_nat, hword, hkey]
  omega

theorem decode_mgetElements (n : Nat) : ∀ g ∈ mgetElements n,
    Resp.decode defaultEnv.limits 7 g.2 = .done g.1 g.2.length := by
  intro g hg
  rcases List.mem_cons.mp hg with rfl | hg
  · rfl
  · rw [List.eq_of_mem_replicate hg]
    rfl

/-- The session reads such a request as one command. -/
theorem firstFrame_mget {header text : Bytes} {n : Nat}
    (hline : Resp.line header = .done text header.length)
    (hlength : Resp.lengthOf text = some (some (n + 1))) (hn : n + 1 ≤ 1024 * 1024)
    (hshort : header.length ≤ 64) :
    defaultEnv.firstFrame (mget header n) =
      .done ⟨(mget header n).length, ascii "MGET", n + 1⟩ (mget header n).length := by
  have hcount : (mgetElements n).length = n + 1 := by
    rw [mgetElements, List.length_cons, List.length_replicate]
  have hdecode : Resp.decode defaultEnv.limits 8 (mget header n) =
      .done (.mk .kArray (some ((mgetElements n).map Prod.fst)) []) (mget header n).length :=
    Resp.decode_elements hline (by rw [hcount]; exact hlength) (by rw [hcount]; exact hn)
      (decode_mgetElements n)
  have hlen : (mget header n).length ≤ defaultEnv.config.maxRequestBytes := by
    rw [length_mget]
    show _ ≤ 512 * 1024 * 1024
    omega
  have hvalue : firstValue defaultEnv.unpackOne defaultEnv.limits
      defaultEnv.config.maxRequestBytes (mget header n) =
        .done (.mk .kArray (some ((mgetElements n).map Prod.fst)) []) (mget header n).length := by
    rw [firstValue_done, List.take_of_length_le hlen]
    exact Resp.unpackOne_of_decode hdecode
  refine firstFrame_done.mpr ⟨_, hvalue, ?_, rfl⟩
  simp [RespParser.extractCommandInfo, RespValue.type, RespValue.elements, RespValue.text,
    mgetElements]

/-- The first round of a session to which these bytes were sent. -/
def firstRound (bytes : Bytes) : ClientSession.Round :=
  .start defaultParser ((Buffer.init defaultEnv.blockSize defaultEnv.blockSize_pos).append bytes)

theorem content_firstRound (bytes : Bytes) : (firstRound bytes).input.content = bytes :=
  Buffer.content_append _ bytes

theorem mget_entry : ("MGET", 2, uint16Max, true, false) ∈ CommandRules.allowedCommands := by
  decide +kernel

theorem mget_name : CommandRules.SameName (ascii "MGET") (ascii "MGET") :=
  CommandRules.normalize_eq_iff.mp rfl

/-- Every growth of the arena succeeds. -/
def granted : Nat → Nat → Bool := fun _ _ => true

/-- `peekFrame` accepts the request in the first round. -/
def Accepted (bytes : Bytes) (argc : Nat) : Prop :=
  ∃ p' b', (firstRound bytes).parser.peekFrame defaultEnv.unpackOne
      (granted (firstRound bytes).parsed) (firstRound bytes).input (firstRound bytes).consumed =
    some (.kOk, some ⟨bytes.length, ascii "MGET", argc⟩, p', b')

/-- Up to 1048576 elements are accepted. -/
theorem accepted_mget {header text : Bytes} {n : Nat}
    (hline : Resp.line header = .done text header.length)
    (hlength : Resp.lengthOf text = some (some (n + 1))) (hn : n + 1 ≤ 1024 * 1024)
    (hshort : header.length ≤ 64) : Accepted (mget header n) (n + 1) := by
  refine fits_defaultParser.peekFrame_found (k := (mget header n).length) Resp.unpackOne_spec ?_
  rw [content_firstRound]
  exact firstFrame_mget hline hlength hn hshort

/-- `MGET` of one key. -/
def keys1 : Bytes := mget (ascii "2\r\n") 1

/-- `MGET` of 65535 keys. -/
def keys65535 : Bytes := mget (ascii "65536\r\n") 65535

theorem accepted_keys1 : Accepted keys1 2 :=
  accepted_mget rfl (by decide) (by decide) (by decide)

theorem accepted_keys65535 : Accepted keys65535 65536 :=
  accepted_mget rfl (by decide) (by decide) (by decide)

theorem unbounded_arity_keys1 :
    ∃ v es, firstValue defaultEnv.unpackOne defaultEnv.limits defaultEnv.config.maxRequestBytes
        ((firstRound keys1).input.content.drop (firstRound keys1).consumed) =
          .done v keys1.length ∧ v.elements = some es ∧
      (ArityAgrees defaultEnv 2 granted (firstRound keys1) ⟨keys1.length, ascii "MGET", 2⟩ ↔
        es.length ≤ 65535) := by
  obtain ⟨p', b', hpeek⟩ := accepted_keys1
  exact unbounded_arity_iff (r := firstRound keys1) Resp.unpackOne_spec rfl fits_defaultParser rfl
    hpeek mget_entry mget_name

/-- The parser accepts 65535 keys under the default configuration, which passes; the rules refuse
    them, and the session answers that the number of arguments is wrong. -/
theorem unbounded_arity_keys65535 :
    validateConfig defaultEnv.config = none ∧ Accepted keys65535 65536 ∧
    defaultEnv.rules.validate (ascii "MGET") 65536 =
      .protocolError "ERR wrong number of arguments" ∧
    (∃ r', ClientSession.parseLoop defaultEnv granted 1 (firstRound keys65535) = some r' ∧
      r'.error = "ERR wrong number of arguments") ∧
    ¬ ArityAgrees defaultEnv 2 granted (firstRound keys65535)
      ⟨keys65535.length, ascii "MGET", 65536⟩ := by
  have hvalidate : defaultEnv.rules.validate (ascii "MGET") 65536 =
      .protocolError "ERR wrong number of arguments" :=
    CommandRules.validate_unbounded mget_entry mget_name 65536
  obtain ⟨p', b', hpeek⟩ := accepted_keys65535
  obtain ⟨r', hround, hsaid⟩ := parseLoop_one (r := firstRound keys65535) hpeek
  rw [hvalidate] at hsaid
  refine ⟨by decide, accepted_keys65535, hvalidate, ⟨r', hround, hsaid⟩, fun hagree => ?_⟩
  have hbelow : 65536 < (2 : UInt16).toNat := hagree.1 (by rw [hvalidate]; rfl)
  exact absurd hbelow (by decide)

end RedisProxy
