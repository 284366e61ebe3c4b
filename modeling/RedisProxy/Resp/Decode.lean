/-
  File:      RedisProxy/Resp/Decode.lean
  Subject:   A RESP DECODER OF WHICH `UnpackOneSpec` HOLDS.

  The proxy links a RESP library that is not part of the repository, and its proofs assume
  `UnpackOneSpec` of it. The decoder here reads the protocol's five kinds of values and keeps to
  the limits; `unpackOne_spec` says that it meets the assumptions, and concrete runs use it.
  `unpackReserving` differs from it in when it runs out of slots: on the first line of an array.
-/
import RedisProxy.Resp.Parser
import RedisProxy.CommandRules
import RedisProxy.Lib.Incremental

namespace RedisProxy.Resp

open Lib Lib.Reader

/-! ## 1. The decoder -/

/-- The text up to the end of a line. -/
def line : Reader UInt8 Bytes := untilPair 13 10

def isDigit (c : UInt8) : Bool := 48 ≤ c && c ≤ 57

def number (text : Bytes) : Option Nat :=
  if text ≠ [] ∧ text.all isDigit = true then
    some (text.foldl (fun n c => 10 * n + (c.toNat - 48)) 0)
  else none

/-- The length that stands at the head of a string or an array; `-1` is that of a null. -/
def lengthOf (text : Bytes) : Option (Option Nat) :=
  if text = [45, 49] then some none else (number text).map some

def null : RespValue := .mk (.other 3) none []

/-- A string of `n` bytes and the end of its line. -/
def bulk (limits : RespLimits) : Option (Option Nat) → Reader UInt8 RespValue
  | none => refuse
  | some none => value null
  | some (some n) =>
      if n ≤ limits.maxBulkBytes then
        (exactly n).andThen fun text => (exactly 2).andThen fun crlf =>
          if crlf = [13, 10] then value (.mk .kBulkString none text) else refuse
      else refuse

/-- An array of so many elements. -/
def array (limits : RespLimits) (element : Reader UInt8 RespValue) :
    Option (Option Nat) → Reader UInt8 RespValue
  | none => refuse
  | some none => value null
  | some (some n) =>
      if n ≤ limits.maxArrayElements then
        (many element n).andThen fun es => value (.mk .kArray (some es) [])
      else refuse

/-- A line of one of the three kinds without a length. -/
def simple (tag : Nat) : Reader UInt8 RespValue :=
  line.andThen fun text => value (.mk (.other tag) none text)

/-- One value, with so many levels of nesting left. -/
def decode (limits : RespLimits) : Nat → Reader UInt8 RespValue
  | 0 => refuse
  | depth + 1 => token.andThen fun kind =>
      match kind with
      | 43 => simple 0
      | 45 => simple 1
      | 58 => simple 2
      | 36 => line.andThen fun text => bulk limits (lengthOf text)
      | 42 => line.andThen fun text => array limits (decode limits depth) (lengthOf text)
      | _ => refuse

/-- A value with its elements is put into the arena, and the arena has a slot to spare. -/
def unpackOne : UnpackOne := fun input slots limits =>
  match decode limits limits.maxDepth input with
  | .done v k => if v.count + 1 ≤ slots then ⟨.kOk, k, some v⟩ else ⟨.kNoMemory, 0, none⟩
  | .more => ⟨.kNeedMore, 0, none⟩
  | .bad => ⟨.kError, 0, none⟩

/-- `redis::PackError`. -/
def packError (message : String) : Bytes := 45 :: ascii message ++ [13, 10]

/-! ## 2. The decoder reads piece by piece -/

/-- A line ends at its first CRLF, however the bytes come. -/
theorem incremental_line : Incremental line := incremental_untilPair 13 10

/-- A bulk string does not depend on how the bytes come. -/
theorem incremental_bulk (limits : RespLimits) (n : Option (Option Nat)) :
    Incremental (bulk limits n) := by
  match n with
  | none => exact incremental_refuse
  | some none => exact incremental_value null
  | some (some n) =>
    simp only [bulk]
    split
    · refine incremental_andThen (incremental_exactly n) fun text =>
        incremental_andThen (incremental_exactly 2) fun crlf => ?_
      split
      · exact incremental_value _
      · exact incremental_refuse
    · exact incremental_refuse

/-- Neither does an array whose elements do not. -/
theorem incremental_array (limits : RespLimits) {element : Reader UInt8 RespValue}
    (h : Incremental element) (n : Option (Option Nat)) : Incremental (array limits element n) := by
  match n with
  | none => exact incremental_refuse
  | some none => exact incremental_value null
  | some (some n) =>
    simp only [array]
    split
    · exact incremental_andThen (incremental_many h n) fun es => incremental_value _
    · exact incremental_refuse

/-- **Neither does a value.** By induction on the depth. -/
theorem incremental_decode (limits : RespLimits) (depth : Nat) :
    Incremental (decode limits depth) := by
  have hsimple : ∀ tag, Incremental (simple tag) := fun tag =>
    incremental_andThen incremental_line fun text => incremental_value _
  induction depth with
  | zero => exact incremental_refuse
  | succ depth ih =>
    refine incremental_andThen incremental_token fun kind => ?_
    split
    · exact hsimple 0
    · exact hsimple 1
    · exact hsimple 2
    · exact incremental_andThen incremental_line fun text => incremental_bulk limits _
    · exact incremental_andThen incremental_line fun text => incremental_array limits ih _
    · exact incremental_refuse

/-! ## 3. Every value takes three bytes -/

theorem line_used {i text : Bytes} {k : Nat} (h : line i = .done text k) : 2 ≤ k := by
  obtain ⟨hk, _⟩ := untilPair_done h
  omega

theorem count_of_elements_none {t : RespType} {text : Bytes} :
    (RespValue.mk t none text).count = 1 := by
  rw [RespValue.count]

theorem countAll_eq (es : List RespValue) :
    RespValue.countAll es = (es.map RespValue.count).sum := by
  induction es with
  | nil => rfl
  | cons e es ih => rw [RespValue.countAll, ih, List.map_cons, List.sum_cons]

theorem count_pos (v : RespValue) : 0 < v.count := by
  obtain ⟨t, es, text⟩ := v
  cases es <;> rw [RespValue.count] <;> omega

theorem token_used {i : Bytes} {t : UInt8} {k : Nat} (h : token i = .done t k) : k = 1 := by
  cases i with
  | nil => cases h
  | cons c i =>
    cases h
    rfl

/-- The values without elements. -/
theorem bulk_count {limits : RespLimits} {n : Option (Option Nat)} {i : Bytes} {v : RespValue}
    {k : Nat} (h : bulk limits n i = .done v k) : v.count = 1 := by
  match n with
  | none => cases h
  | some none =>
    cases h
    exact count_of_elements_none
  | some (some n) =>
    simp only [bulk] at h
    split at h
    · obtain ⟨text, k₁, m, _, h2, rfl⟩ := andThen_done.mp h
      obtain ⟨crlf, k₂, m', _, h3, rfl⟩ := andThen_done.mp h2
      split at h3
      · cases h3
        exact count_of_elements_none
      · cases h3
    · cases h

/-- The values of an array take three bytes each at least, its head the rest. -/
theorem array_count {limits : RespLimits} {element : Reader UInt8 RespValue}
    (he : ∀ {i v k}, element i = .done v k → 3 * v.count ≤ k) {n : Option (Option Nat)} {i : Bytes}
    {v : RespValue} {k : Nat} (h : array limits element n i = .done v k) :
    3 * v.count ≤ 3 + k := by
  match n with
  | none => cases h
  | some none =>
    cases h
    rw [null, count_of_elements_none]
  | some (some n) =>
    simp only [array] at h
    split at h
    · obtain ⟨es, k₁, m, h1, h2, rfl⟩ := andThen_done.mp h
      cases h2
      have hsum := many_used 3 RespValue.count he h1
      rw [RespValue.count, countAll_eq]
      omega
    · cases h

/-- **A value takes three bytes at least for each value in it.** By induction on the depth. -/
theorem decode_used (limits : RespLimits) (depth : Nat) {i : Bytes} {v : RespValue} {k : Nat}
    (h : decode limits depth i = .done v k) : 3 * v.count ≤ k := by
  have hsimple : ∀ {tag i v k}, simple tag i = .done v k → v.count = 1 ∧ 2 ≤ k := by
    intro tag i v k h
    obtain ⟨text, k₁, m, h1, h2, rfl⟩ := andThen_done.mp h
    cases h2
    exact ⟨count_of_elements_none, line_used h1⟩
  induction depth generalizing i v k with
  | zero => cases h
  | succ depth ih =>
    obtain ⟨kind, k₁, m, h1, h2, rfl⟩ := andThen_done.mp h
    have hk := token_used h1
    split at h2
    · obtain ⟨hv, hm⟩ := hsimple h2
      omega
    · obtain ⟨hv, hm⟩ := hsimple h2
      omega
    · obtain ⟨hv, hm⟩ := hsimple h2
      omega
    · obtain ⟨text, k₂, m', h3, h4, rfl⟩ := andThen_done.mp h2
      have hline := line_used h3
      have hv := bulk_count h4
      omega
    · obtain ⟨text, k₂, m', h3, h4, rfl⟩ := andThen_done.mp h2
      have hline := line_used h3
      have hv := array_count ih h4
      omega
    · cases h2

/-! ## 4. The assumptions -/

/-- The decoder returns a value that is complete and for which there were slots enough. -/
theorem unpackOne_ok {i : Bytes} {s : Nat} {l : RespLimits} (h : (unpackOne i s l).status = .kOk) :
    ∃ v k, decode l l.maxDepth i = .done v k ∧ v.count + 1 ≤ s ∧
      unpackOne i s l = ⟨.kOk, k, some v⟩ := by
  unfold unpackOne at h ⊢
  split at h
  · rename_i v k hd
    split at h
    · rename_i hs
      exact ⟨v, k, hd, hs, if_pos hs⟩
    · cases h
  · cases h
  · cases h

/-- **The decoder meets what the proxy relies on.** -/
theorem unpackOne_spec : UnpackOneSpec unpackOne where
  ok_value i s l h := by
    obtain ⟨v, k, _, _, he⟩ := unpackOne_ok h
    exact ⟨v, by rw [he]⟩
  ok_consumed i s l h := by
    obtain ⟨v, k, hd, _, he⟩ := unpackOne_ok h
    have hused := decode_used l l.maxDepth hd
    have hcount := count_pos v
    rw [he]
    exact ⟨Nat.lt_of_lt_of_le (by omega) hused, (incremental_decode l l.maxDepth).used_le hd⟩
  ok_local i s l h j hlen htake := by
    obtain ⟨v, k, hd, hs, he⟩ := unpackOne_ok h
    rw [he] at htake ⊢
    have hj : decode l l.maxDepth j = .done v k := by
      refine (incremental_decode l l.maxDepth).done hd ?_
      rw [← htake]
      exact List.take_prefix _ _
    unfold unpackOne
    rw [hj]
    exact if_pos hs
  ok_slots i s l h v' hv' := by
    obtain ⟨v, k, hd, hs, he⟩ := unpackOne_ok h
    rw [he] at hv' ⊢
    cases hv'
    refine ⟨decode_used l l.maxDepth hd, fun s' hs' => ?_⟩
    unfold unpackOne
    rw [hd]
    exact if_pos hs'
  error_stable i s l h x := by
    unfold unpackOne at h ⊢
    split at h
    · split at h <;> cases h
    · cases h
    · rename_i hd
      rw [(incremental_decode l l.maxDepth).bad hd x]
  slots_mono i s l h s' hle := by
    unfold unpackOne at h ⊢
    split
    · rename_i v k hd
      rw [hd] at h
      by_cases hs : v.count + 1 ≤ s
      · rw [if_pos hs, if_pos (Nat.le_trans hs hle)]
      · simp only [if_neg hs] at h
        exact absurd rfl h
    · rfl
    · rfl

/-! ## 5. Arrays of given elements -/

/-- An array is read off the line with its length and the bytes of its elements. -/
theorem decode_elements {limits : RespLimits} {depth : Nat} {header text : Bytes}
    {gs : List (RespValue × Bytes)} (hline : line header = .done text header.length)
    (hlength : lengthOf text = some (some gs.length))
    (hmax : gs.length ≤ limits.maxArrayElements)
    (hgs : ∀ g ∈ gs, decode limits depth g.2 = .done g.1 g.2.length) :
    decode limits (depth + 1) (42 :: (header ++ (gs.map Prod.snd).flatten)) =
      .done (.mk .kArray (some (gs.map Prod.fst)) [])
        (42 :: (header ++ (gs.map Prod.snd).flatten)).length := by
  have harray : array limits (decode limits depth) (lengthOf text) (gs.map Prod.snd).flatten =
      .done (.mk .kArray (some (gs.map Prod.fst)) []) (gs.map Prod.snd).flatten.length := by
    rw [hlength, array, if_pos hmax]
    exact andThen_done.mpr
      ⟨_, _, 0, many_flatten (incremental_decode limits depth) hgs, rfl, rfl⟩
  refine andThen_done.mpr
    ⟨42, 1, header.length + (gs.map Prod.snd).flatten.length, rfl, ?_, ?_⟩
  · refine andThen_done.mpr
      ⟨text, header.length, _, incremental_line.done_append hline _, ?_, rfl⟩
    rw [List.drop_succ_cons, List.drop_zero, List.drop_left]
    exact harray
  · rw [List.length_cons, List.length_append]
    omega

/-- A decoded value is found with a slot for every byte and one more. -/
theorem unpackOne_of_decode {limits : RespLimits} {i : Bytes} {v : RespValue} {k : Nat}
    (h : decode limits limits.maxDepth i = .done v k) :
    unpackOne i (i.length + 1) limits = ⟨.kOk, k, some v⟩ := by
  have hused := decode_used limits limits.maxDepth h
  have hle := (incremental_decode limits limits.maxDepth).used_le h
  unfold unpackOne
  rw [h]
  exact if_pos (by omega)

/-! ## 6. A decoder that reserves its slots -/

/-- How many elements the first line of an array declares. -/
def declared : Bytes → Nat
  | 42 :: rest =>
      match line rest with
      | .done text _ => ((lengthOf text).getD none).getD 0
      | _ => 0
  | _ => 0

/-- The same decoder, but the slots of an array are taken when its first line is read: without
    them the elements are not looked at. -/
def unpackReserving : UnpackOne := fun input slots limits =>
  if slots < declared input + 2 then ⟨.kNoMemory, 0, none⟩ else unpackOne input slots limits

theorem length_le_countAll (es : List RespValue) : es.length ≤ RespValue.countAll es := by
  induction es with
  | nil => exact Nat.zero_le _
  | cons e es ih =>
    have hpos := count_pos e
    rw [RespValue.countAll, List.length_cons]
    omega

/-- An array has the elements its first line declares. -/
theorem declared_lt {limits : RespLimits} {depth : Nat} {i : Bytes} {v : RespValue} {k : Nat}
    (h : decode limits depth i = .done v k) : declared i < v.count := by
  have hpos := count_pos v
  unfold declared
  split
  · rename_i rest
    cases depth with
    | zero => cases h
    | succ depth =>
      obtain ⟨kind, k₁, m, h1, h2, rfl⟩ := andThen_done.mp h
      cases h1
      obtain ⟨text, k₂, m', h3, h4, rfl⟩ := andThen_done.mp h2
      have hline : line rest = .done text k₂ := h3
      rw [hline]
      dsimp only
      cases hlength : lengthOf text with
      | none => exact hpos
      | some n =>
        cases n with
        | none => exact hpos
        | some n =>
          rw [hlength, array] at h4
          split at h4
          · obtain ⟨es, k₃, m'', h5, h6, rfl⟩ := andThen_done.mp h4
            cases h6
            have hes := length_le_countAll es
            have hn := many_length h5
            rw [RespValue.count, Option.getD_some, Option.getD_some]
            omega
          · cases h4
  · exact hpos

/-- Also of this decoder holds what concerns the slots. -/
theorem unpackReserving_slots : SlotSpec unpackReserving where
  mono i s l h s' hle := by
    unfold unpackReserving at h ⊢
    split at h
    · exact absurd rfl h
    · rename_i hs
      rw [if_neg hs, if_neg (by omega)]
      exact unpackOne_spec.slots_mono i s l h s' hle
  ok_slots i s l h := by
    unfold unpackReserving at h
    split at h
    · cases h
    · rename_i hs
      obtain ⟨v, k, hd, _, he⟩ := unpackOne_ok h
      obtain ⟨v', hv', hcount, hle, hslots⟩ := unpackOne_spec.slots.ok_slots i s l h
      have hsame : v' = v := by
        rw [he] at hv'
        exact (Option.some.inj hv').symm
      subst hsame
      have hdeclared := declared_lt hd
      have hthis : unpackReserving i s l = unpackOne i s l := if_neg hs
      rw [hthis]
      refine ⟨v', hv', hcount, hle, fun s' hs' => ?_⟩
      rw [← hslots s' hs']
      exact if_neg (by omega)

end RedisProxy.Resp
