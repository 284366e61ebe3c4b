/-
  File:      RedisProxy/Lib/Incremental.lean
  Subject:   READERS OF A STREAM THAT ARRIVES PIECE BY PIECE. No program fact.

  A reader looks at the tokens there are and says that it took a value from their front, that it
  needs more of them, or that they are bad. It is `Incremental` if more tokens never change a
  value or a refusal. Readers are composed (section 2), and a stream is cut into the values a
  reader takes from it one after another (section 3). The cut does not depend on how the stream
  arrived:

  * `Taken` -- a program that takes values off the front as they come and keeps the rest gets
    the cut of the whole stream;
  * `length_frames_append` -- a piece completes no more values than it has tokens;
  * `framesOf` -- the values of a stream by their tokens: later tokens add values at the end, and
    what follows whole values is read on its own;
  * `framesOf_front` -- in a front part of a sequence of values one finds the first of them and a
    proper front part of the next.
-/
import Mathlib.Algebra.GroupWithZero.Nat
import Mathlib.Data.List.Basic
import Mathlib.Data.List.Infix

namespace RedisProxy.Lib

/-! ## 1. Readers -/

/-- What a reader says: a value and the number of tokens it took, or nothing yet, or a refusal. -/
inductive Progress (α : Type) where
  | done (a : α) (used : Nat)
  | more
  | bad
  deriving DecidableEq

/-- The same with `n` more tokens in front. -/
def Progress.extend {α β : Type} (n : Nat) (f : α → β) : Progress α → Progress β
  | .done a k => .done (f a) (n + k)
  | .more => .more
  | .bad => .bad

abbrev Reader (τ α : Type) := List τ → Progress α

variable {τ α β : Type}

/-- **More tokens change no value and no refusal.** -/
structure Incremental (p : Reader τ α) : Prop where
  used_le : ∀ {i a k}, p i = .done a k → k ≤ i.length
  done : ∀ {i a k}, p i = .done a k → ∀ {j}, i.take k <+: j → p j = .done a k
  bad : ∀ {i}, p i = .bad → ∀ x, p (i ++ x) = .bad

/-- A value takes a token at least. -/
def Advances (p : Reader τ α) : Prop := ∀ {i a k}, p i = .done a k → 0 < k

/-- How many tokens the value took, if there is one. -/
def Progress.used? : Progress α → Option Nat
  | .done _ k => some k
  | _ => none

theorem used?_eq_some {x : Progress α} {k : Nat} : x.used? = some k ↔ ∃ a, x = .done a k := by
  cases x <;> simp [Progress.used?]

theorem extend_done {n m : Nat} {f : α → β} {x : Progress α} {b : β} :
    x.extend n f = .done b m ↔ ∃ a k, x = .done a k ∧ b = f a ∧ m = n + k := by
  cases x with
  | done a k =>
    simp only [Progress.extend, Progress.done.injEq]
    constructor
    · rintro ⟨rfl, rfl⟩
      exact ⟨a, k, ⟨rfl, rfl⟩, rfl, rfl⟩
    · rintro ⟨a', k', ⟨rfl, rfl⟩, rfl, rfl⟩
      exact ⟨rfl, rfl⟩
  | more => simp [Progress.extend]
  | bad => simp [Progress.extend]

theorem extend_bad {n : Nat} {f : α → β} {x : Progress α} : x.extend n f = .bad ↔ x = .bad := by
  cases x <;> simp [Progress.extend]

section Incremental

variable {p : Reader τ α} {i : List τ} {a : α} {k : Nat}

theorem Incremental.done_append (hp : Incremental p) (h : p i = .done a k) (x : List τ) :
    p (i ++ x) = .done a k :=
  hp.done h ((List.take_prefix k i).trans (List.prefix_append i x))

/-- Where some stream has a value at its front, the empty one is no error. -/
theorem Incremental.more_of_nil (hp : Incremental p) (ha : Advances p) (h : p i = .done a k) :
    p [] = .more := by
  cases hnil : p [] with
  | done b m =>
    have hle := hp.used_le hnil
    have hpos := ha hnil
    rw [List.length_nil] at hle
    omega
  | more => rfl
  | bad =>
    have hbad := hp.bad hnil i
    rw [List.nil_append, h] at hbad
    cases hbad

/-- A value that appears when tokens are added was not complete before. -/
theorem Incremental.used_of_append (hp : Incremental p) {r x : List τ}
    (hr : ∀ a k, p r ≠ .done a k) (h : p (r ++ x) = .done a k) : r.length < k := by
  by_contra hk
  have htake : (r ++ x).take k <+: r := by
    rw [List.take_append_of_le_length (by omega)]
    exact List.take_prefix k r
  exact hr a k (hp.done h htake)

end Incremental

/-! ## 2. Composition -/

namespace Reader

/-- Takes nothing. -/
def value (a : α) : Reader τ α := fun _ => .done a 0

def refuse : Reader τ α := fun _ => .bad

/-- One reader after another. -/
def andThen (p : Reader τ α) (q : α → Reader τ β) : Reader τ β := fun i =>
  match p i with
  | .done a k => (q a (i.drop k)).extend k id
  | .more => .more
  | .bad => .bad

/-- The next token. -/
def token : Reader τ τ
  | [] => .more
  | t :: _ => .done t 1

/-- The next `n` tokens. -/
def exactly (n : Nat) : Reader τ (List τ) := fun i =>
  if n ≤ i.length then .done (i.take n) n else .more

/-- The tokens before the next `s` that `t` follows, which are taken too. -/
def untilPair [DecidableEq τ] (s t : τ) : Reader τ (List τ)
  | [] => .more
  | [_] => .more
  | a :: b :: rest =>
      if a = s ∧ b = t then .done [] 2
      else (untilPair s t (b :: rest)).extend 1 fun text => a :: text

/-- The same reader `n` times. -/
def many (p : Reader τ α) : Nat → Reader τ (List α)
  | 0 => value []
  | n + 1 => andThen p fun a => andThen (many p n) fun as => value (a :: as)

end Reader

section Composition

open Reader

theorem andThen_done {p : Reader τ α} {q : α → Reader τ β} {i : List τ} {b : β} {m : Nat} :
    andThen p q i = .done b m ↔
      ∃ a k l, p i = .done a k ∧ q a (i.drop k) = .done b l ∧ m = k + l := by
  unfold andThen
  constructor
  · intro h
    split at h
    · rename_i a k hp
      obtain ⟨b', l, hq, rfl, rfl⟩ := extend_done.mp h
      exact ⟨a, k, l, hp, hq, rfl⟩
    · cases h
    · cases h
  · rintro ⟨a, k, l, hp, hq, rfl⟩
    rw [hp]
    exact extend_done.mpr ⟨b, l, hq, rfl, rfl⟩

theorem andThen_bad {p : Reader τ α} {q : α → Reader τ β} {i : List τ} :
    andThen p q i = .bad ↔ p i = .bad ∨ ∃ a k, p i = .done a k ∧ q a (i.drop k) = .bad := by
  unfold andThen
  cases hp : p i with
  | done a k => simp [extend_bad]
  | more => simp
  | bad => simp

theorem incremental_value (a : α) : Incremental (value a : Reader τ α) where
  used_le h := by
    cases h
    exact Nat.zero_le _
  done h _ _ := by
    cases h
    rfl
  bad h := by cases h

theorem incremental_refuse : Incremental (refuse : Reader τ α) where
  used_le h := by cases h
  done h := by cases h
  bad _ _ := rfl

theorem incremental_andThen {p : Reader τ α} {q : α → Reader τ β} (hp : Incremental p)
    (hq : ∀ a, Incremental (q a)) : Incremental (andThen p q) where
  used_le {i b m} h := by
    obtain ⟨a, k, l, h1, h2, rfl⟩ := andThen_done.mp h
    have hk := hp.used_le h1
    have hl := (hq a).used_le h2
    rw [List.length_drop] at hl
    omega
  done {i b m} h {j} hj := by
    obtain ⟨a, k, l, h1, h2, rfl⟩ := andThen_done.mp h
    have hk : k ≤ i.length := hp.used_le h1
    rw [List.take_add] at hj
    obtain ⟨x, rfl⟩ := hj
    refine andThen_done.mpr ⟨a, k, l, hp.done h1 ?_, (hq a).done h2 ?_, rfl⟩
    · rw [List.append_assoc]
      exact List.prefix_append _ _
    · have hlen : (i.take k).length = k := List.length_take_of_le hk
      rw [List.append_assoc, List.drop_append_of_le_length (Nat.le_of_eq hlen.symm),
        List.drop_eq_nil_of_le (Nat.le_of_eq hlen), List.nil_append]
      exact List.prefix_append _ _
  bad {i} h x := by
    rcases andThen_bad.mp h with h1 | ⟨a, k, h1, h2⟩
    · exact andThen_bad.mpr (Or.inl (hp.bad h1 x))
    · refine andThen_bad.mpr (Or.inr ⟨a, k, hp.done_append h1 x, ?_⟩)
      rw [List.drop_append_of_le_length (hp.used_le h1)]
      exact (hq a).bad h2 x

theorem incremental_token : Incremental (token : Reader τ τ) where
  used_le {i a k} h := by
    cases i with
    | nil => cases h
    | cons t i =>
      cases h
      exact Nat.le_add_left 1 _
  done {i a k} h {j} hj := by
    cases i with
    | nil => cases h
    | cons t i =>
      cases h
      obtain ⟨x, rfl⟩ := hj
      rfl
  bad {i} h := by cases i <;> cases h

theorem incremental_exactly (n : Nat) : Incremental (exactly n : Reader τ (List τ)) where
  used_le {i a k} h := by
    unfold exactly at h
    split at h
    · cases h
      assumption
    · cases h
  done {i a k} h {j} hj := by
    unfold exactly at h
    split at h
    · rename_i hn
      cases h
      have hle : n ≤ j.length := by
        have := hj.length_le
        rwa [List.length_take_of_le hn] at this
      have heq : i.take n = j.take n := by
        have := List.prefix_iff_eq_take.mp hj
        rwa [List.length_take_of_le hn] at this
      rw [exactly, if_pos hle, heq]
    · cases h
  bad {i} h := by
    unfold exactly at h
    split at h <;> cases h

section UntilPair

variable [DecidableEq τ] {s t : τ}

theorem untilPair_ne_bad (i : List τ) : untilPair s t i ≠ .bad := by
  induction i using untilPair.induct s t with
  | case1 => nofun
  | case2 a => nofun
  | case3 b c rest h =>
    rw [untilPair, if_pos h]
    nofun
  | case4 b c rest h ih =>
    rw [untilPair, if_neg h, Ne, extend_bad]
    exact ih

/-- The text, then the two tokens, are what was taken. -/
theorem untilPair_done {i : List τ} {text : List τ} {k : Nat} (h : untilPair s t i = .done text k) :
    k = text.length + 2 ∧ i.take k = text ++ [s, t] ∧
      ∀ x, untilPair s t (text ++ s :: t :: x) = .done text k := by
  induction i using untilPair.induct s t generalizing text k with
  | case1 => cases h
  | case2 a => cases h
  | case3 b c rest hbc =>
    obtain ⟨rfl, rfl⟩ := hbc
    rw [untilPair, if_pos ⟨rfl, rfl⟩] at h
    cases h
    refine ⟨rfl, rfl, fun x => ?_⟩
    rw [List.nil_append, untilPair, if_pos ⟨rfl, rfl⟩]
  | case4 b c rest hbc ih =>
    rw [untilPair, if_neg hbc] at h
    obtain ⟨text', k', hrest, rfl, rfl⟩ := extend_done.mp h
    obtain ⟨rfl, htake, hall⟩ := ih hrest
    refine ⟨Nat.add_comm _ _, by rw [Nat.add_comm, List.take_succ_cons, htake]; rfl, fun x => ?_⟩
    -- the token after `b` is the same in the shorter stream
    obtain ⟨rest', hrest'⟩ : ∃ rest', text' ++ s :: t :: x = c :: rest' := by
      cases text' with
      | nil =>
        obtain ⟨rfl, _⟩ := List.cons.inj htake
        exact ⟨_, rfl⟩
      | cons c' text' =>
        obtain ⟨rfl, _⟩ := List.cons.inj htake
        exact ⟨_, rfl⟩
    have hx := hall x
    rw [hrest'] at hx
    rw [List.cons_append, hrest', untilPair, if_neg hbc, hx]
    rfl

theorem incremental_untilPair (s t : τ) : Incremental (untilPair s t) where
  used_le {i a k} h := by
    obtain ⟨hk, htake, _⟩ := untilPair_done h
    have hlen := congrArg List.length htake
    rw [List.length_take, List.length_append] at hlen
    simp only [List.length_cons, List.length_nil] at hlen
    omega
  done {i a k} h {j} hj := by
    obtain ⟨_, htake, hall⟩ := untilPair_done h
    rw [htake] at hj
    obtain ⟨x, rfl⟩ := hj
    rw [List.append_assoc]
    exact hall x
  bad {i} h := absurd h (untilPair_ne_bad i)

end UntilPair

theorem incremental_many {p : Reader τ α} (hp : Incremental p) (n : Nat) :
    Incremental (many p n) := by
  induction n with
  | zero => exact incremental_value []
  | succ n ih =>
    exact incremental_andThen hp fun a => incremental_andThen ih fun as => incremental_value (a :: as)

/-- As many values as there are, each on its own tokens, are read off their tokens in a row. -/
theorem many_flatten {p : Reader τ α} (hp : Incremental p) {gs : List (α × List τ)}
    (h : ∀ g ∈ gs, p g.2 = .done g.1 g.2.length) :
    many p gs.length (gs.map Prod.snd).flatten =
      .done (gs.map Prod.fst) (gs.map Prod.snd).flatten.length := by
  induction gs with
  | nil => rfl
  | cons g gs ih =>
    obtain ⟨hg, hgs⟩ := List.forall_mem_cons.mp h
    rw [List.map_cons, List.flatten_cons, List.length_append]
    refine andThen_done.mpr ⟨g.1, g.2.length, _, hp.done_append hg _, ?_, rfl⟩
    rw [List.drop_left]
    exact andThen_done.mpr ⟨gs.map Prod.fst, _, 0, ih hgs, rfl, rfl⟩

theorem many_length {p : Reader τ α} {n : Nat} {i : List τ} {as : List α} {k : Nat}
    (h : many p n i = .done as k) : as.length = n := by
  induction n generalizing i as k with
  | zero =>
    cases h
    rfl
  | succ n ih =>
    obtain ⟨a, k₁, m, _, h2, rfl⟩ := andThen_done.mp h
    obtain ⟨as', k₂, m', h3, h4, rfl⟩ := andThen_done.mp h2
    cases h4
    rw [List.length_cons, ih h3]

/-- A bound on every value is a bound on the tokens of `n` of them. -/
theorem many_used {p : Reader τ α} (c : Nat) (weight : α → Nat)
    (hp : ∀ {i a k}, p i = .done a k → c * weight a ≤ k) {n : Nat} {i : List τ} {as : List α}
    {k : Nat} (h : many p n i = .done as k) : c * (as.map weight).sum ≤ k := by
  induction n generalizing i as k with
  | zero =>
    cases h
    exact Nat.zero_le _
  | succ n ih =>
    obtain ⟨a, k₁, m, h1, h2, rfl⟩ := andThen_done.mp h
    obtain ⟨as', k₂, m', h3, h4, rfl⟩ := andThen_done.mp h2
    cases h4
    have hw := hp h1
    have hs := ih h3
    rw [List.map_cons, List.sum_cons, Nat.mul_add]
    omega

end Composition

/-! ## 3. Cutting a stream -/

/-- The values taken from a stream, each with its tokens, what is left, and whether the reader
    refused it. -/
structure Cut (τ α : Type) where
  frames : List (α × List τ)
  rest : List τ
  broken : Bool
  deriving DecidableEq

/-- The cut of a stream in front of which `fs` were taken. -/
def Cut.after (fs : List (α × List τ)) (c : Cut τ α) : Cut τ α := { c with frames := fs ++ c.frames }

def cutLoop (p : Reader τ α) : Nat → List τ → Cut τ α
  | 0, i => ⟨[], i, false⟩
  | n + 1, i =>
      match p i with
      | .done a k => (cutLoop p n (i.drop k)).after [(a, i.take k)]
      | .more => ⟨[], i, false⟩
      | .bad => ⟨[], i, true⟩

/-- **The stream cut into values.** -/
def cut (p : Reader τ α) (i : List τ) : Cut τ α := cutLoop p (i.length + 1) i

section Cut

variable {p : Reader τ α} {i : List τ} {a : α} {k : Nat}

theorem after_after (fs gs : List (α × List τ)) (c : Cut τ α) :
    (c.after gs).after fs = c.after (fs ++ gs) := by
  simp only [Cut.after, List.append_assoc]

theorem after_nil (c : Cut τ α) : c.after [] = c := rfl

/-- A value takes a token, so a round for each token suffices. -/
theorem cutLoop_enough (hp : Incremental p) (ha : Advances p) {n m : Nat} (hn : i.length < n)
    (hm : i.length < m) : cutLoop p n i = cutLoop p m i := by
  induction n generalizing i m with
  | zero => omega
  | succ n ih =>
    cases m with
    | zero => omega
    | succ m =>
      unfold cutLoop
      split
      · rename_i a k h
        have hk := hp.used_le h
        have h0 := ha h
        rw [ih (i := i.drop k) (m := m) (by rw [List.length_drop]; omega)
          (by rw [List.length_drop]; omega)]
      · rfl
      · rfl

theorem cut_done (hp : Incremental p) (ha : Advances p) (h : p i = .done a k) :
    cut p i = (cut p (i.drop k)).after [(a, i.take k)] := by
  have hk := hp.used_le h
  have h0 := ha h
  rw [cut, cutLoop, h]
  simp only
  rw [cut, cutLoop_enough hp ha (by rw [List.length_drop]; omega) (Nat.lt_succ_self _)]

theorem cut_more (h : p i = .more) : cut p i = ⟨[], i, false⟩ := by
  rw [cut, cutLoop, h]

theorem cut_bad (h : p i = .bad) : cut p i = ⟨[], i, true⟩ := by
  rw [cut, cutLoop, h]

theorem flatten_cutLoop (p : Reader τ α) (n : Nat) (i : List τ) :
    ((cutLoop p n i).frames.map Prod.snd).flatten ++ (cutLoop p n i).rest = i := by
  induction n generalizing i with
  | zero => rfl
  | succ n ih =>
    unfold cutLoop
    split
    · rename_i a k h
      simp only [Cut.after, List.singleton_append, List.map_cons, List.flatten_cons,
        List.append_assoc]
      rw [ih, List.take_append_drop]
    · rfl
    · rfl

/-- **The values and what is left are the stream.** -/
theorem flatten_cut (p : Reader τ α) (i : List τ) :
    ((cut p i).frames.map Prod.snd).flatten ++ (cut p i).rest = i := flatten_cutLoop p _ i

/-- There are no more values than tokens. -/
theorem length_frames_le (hp : Incremental p) (ha : Advances p) (i : List τ) :
    (cut p i).frames.length ≤ i.length := by
  induction hn : i.length using Nat.strong_induction_on generalizing i with
  | _ n ih =>
    cases h : p i with
    | done a k =>
      have hk := hp.used_le h
      have h0 := ha h
      have hrest := ih (i.drop k).length (by rw [List.length_drop]; omega) (i.drop k) rfl
      rw [List.length_drop] at hrest
      rw [cut_done hp ha h]
      simp only [Cut.after, List.length_append, List.length_cons, List.length_nil]
      omega
    | more =>
      rw [cut_more h]
      exact Nat.zero_le _
    | bad =>
      rw [cut_bad h]
      exact Nat.zero_le _

/-- **A piece completes no more values than it has tokens.** -/
theorem length_frames_append (hp : Incremental p) (ha : Advances p) {r : List τ}
    (hr : ∀ a k, p r ≠ .done a k) (x : List τ) : (cut p (r ++ x)).frames.length ≤ x.length := by
  cases h : p (r ++ x) with
  | done a k =>
    have hk := hp.used_of_append hr h
    have hle := hp.used_le h
    have hrest := length_frames_le hp ha ((r ++ x).drop k)
    rw [List.length_drop] at hrest
    rw [List.length_append] at hrest hle
    rw [cut_done hp ha h]
    simp only [Cut.after, List.length_append, List.length_cons, List.length_nil]
    omega
  | more =>
    rw [cut_more h]
    exact Nat.zero_le _
  | bad =>
    rw [cut_bad h]
    exact Nat.zero_le _

/-! ## 4. A stream that arrives -/

/-- **Of the stream `i` the values `fs` were taken and `r` is kept**: whatever follows, the cut
    of the whole is `fs` and the cut of what is kept. -/
def Taken (p : Reader τ α) (i : List τ) (fs : List (α × List τ)) (r : List τ) : Prop :=
  ∀ x, cut p (i ++ x) = (cut p (r ++ x)).after fs

theorem taken_nil (p : Reader τ α) : Taken p [] [] [] := fun x => (after_nil (cut p ([] ++ x))).symm

theorem Taken.arrive {fs : List (α × List τ)} {r : List τ} (h : Taken p i fs r) (x : List τ) :
    Taken p (i ++ x) fs (r ++ x) := by
  intro y
  rw [List.append_assoc, List.append_assoc]
  exact h (x ++ y)

/-- The values `gs` are at the front of the stream, and `r` follows them. -/
inductive Chain (p : Reader τ α) : List τ → List (α × List τ) → List τ → Prop where
  | nil (i : List τ) : Chain p i [] i
  | cons {i r : List τ} {a : α} {k : Nat} {gs : List (α × List τ)} (h : p i = .done a k)
      (rest : Chain p (i.drop k) gs r) : Chain p i ((a, i.take k) :: gs) r

theorem Chain.snoc {i r : List τ} {gs : List (α × List τ)} (h : Chain p i gs r)
    (hr : p r = .done a k) : Chain p i (gs ++ [(a, r.take k)]) (r.drop k) := by
  induction h with
  | nil i => exact .cons hr (.nil _)
  | cons h rest ih => exact .cons h (ih hr)

theorem Chain.cut_eq {i r : List τ} {gs : List (α × List τ)} (h : Chain p i gs r)
    (hp : Incremental p) (ha : Advances p) : cut p i = (cut p r).after gs := by
  induction h with
  | nil i => rfl
  | cons h rest ih => rw [cut_done hp ha h, ih, after_after, List.singleton_append]

/-- What follows the stream follows the rest. -/
theorem Chain.append {i r : List τ} {gs : List (α × List τ)} (h : Chain p i gs r)
    (hp : Incremental p) (x : List τ) : Chain p (i ++ x) gs (r ++ x) := by
  induction h with
  | nil i => exact .nil _
  | cons h rest ih =>
    rename_i i r a k gs
    have hk := hp.used_le h
    have htake : (i ++ x).take k = i.take k := List.take_append_of_le_length hk
    rw [← htake]
    refine .cons (hp.done_append h x) ?_
    rw [List.drop_append_of_le_length hk]
    exact ih

/-- The tokens of the values are those that were taken. -/
theorem Chain.flatten {i r : List τ} {gs : List (α × List τ)} (h : Chain p i gs r) :
    i = (gs.map Prod.snd).flatten ++ r := by
  induction h with
  | nil i => rfl
  | cons h rest ih =>
    rename_i i r a k gs
    rw [List.map_cons, List.flatten_cons, List.append_assoc, ← ih, List.take_append_drop]

/-- Every value of a chain is read from its own tokens, all of them. -/
theorem Chain.each {i r : List τ} {gs : List (α × List τ)} (h : Chain p i gs r)
    (hp : Incremental p) : ∀ f ∈ gs, p f.2 = .done f.1 f.2.length := by
  induction h with
  | nil i => nofun
  | cons h rest ih =>
    rename_i i r a k gs
    intro f hf
    rcases List.mem_cons.mp hf with rfl | hf
    · rw [List.length_take_of_le (hp.used_le h)]
      exact hp.done h List.prefix_rfl
    · exact ih f hf

theorem Chain.length_le {i r : List τ} {gs : List (α × List τ)} (h : Chain p i gs r)
    (hp : Incremental p) (ha : Advances p) : gs.length ≤ (cut p i).frames.length := by
  rw [h.cut_eq hp ha]
  simp only [Cut.after, List.length_append]
  omega

/-- Fewer values are left after some were taken. -/
theorem Chain.length_rest {i r : List τ} {gs : List (α × List τ)} (h : Chain p i gs r)
    (hp : Incremental p) (ha : Advances p) :
    (cut p r).frames.length ≤ (cut p i).frames.length := by
  rw [h.cut_eq hp ha]
  simp only [Cut.after, List.length_append]
  omega

/-- Who can read a value somewhere needs more of the empty input. -/
theorem Chain.more_of_nil {i r : List τ} {gs : List (α × List τ)} (h : Chain p i gs r)
    (hp : Incremental p) (ha : Advances p) (hne : gs ≠ []) : p [] = .more := by
  cases h with
  | nil => exact absurd rfl hne
  | cons hdone _ => exact hp.more_of_nil ha hdone

theorem Taken.chain {fs gs : List (α × List τ)} {r r' : List τ} (h : Taken p i fs r)
    (hc : Chain p r gs r') (hp : Incremental p) (ha : Advances p) : Taken p i (fs ++ gs) r' := by
  intro x
  rw [h x, (hc.append hp x).cut_eq hp ha, after_after]

/-- What was taken and what is kept are what has arrived. -/
theorem Taken.flatten {fs : List (α × List τ)} {r : List τ} (h : Taken p i fs r) :
    i = (fs.map Prod.snd).flatten ++ r := by
  have hx := h []
  rw [List.append_nil, List.append_nil] at hx
  rw [← flatten_cut p i, hx, Cut.after, List.map_append, List.flatten_append, List.append_assoc,
    flatten_cut]

/-- The cut of the stream when no value is at the front of what is kept. -/
theorem Taken.cut_eq {fs : List (α × List τ)} {r : List τ} (h : Taken p i fs r)
    (hr : ∀ a k, p r ≠ .done a k) :
    (cut p i).frames = fs ∧ (cut p i).rest = r ∧ ((cut p i).broken = true ↔ p r = .bad) := by
  have hx := h []
  rw [List.append_nil, List.append_nil] at hx
  rw [hx]
  cases hp : p r with
  | done a k => exact absurd hp (hr a k)
  | more =>
    rw [cut_more hp]
    simp [Cut.after]
  | bad =>
    rw [cut_bad hp]
    simp [Cut.after]

theorem Taken.cut_of_bad {fs : List (α × List τ)} {r : List τ} (h : Taken p i fs r)
    (hp : Incremental p) (hr : p r = .bad) (x : List τ) : cut p (i ++ x) = ⟨fs, r ++ x, true⟩ := by
  rw [h x, cut_bad (hp.bad hr x)]
  simp [Cut.after]

/-! ## 5. The frames of a stream -/

/-- The tokens of the values of a stream, value by value. -/
def framesOf (p : Reader τ α) (i : List τ) : List (List τ) := (cut p i).frames.map Prod.snd

/-- **What arrives later adds frames at the end.** -/
theorem framesOf_append (hp : Incremental p) (ha : Advances p) (i x : List τ) :
    framesOf p i <+: framesOf p (i ++ x) := by
  induction hn : i.length using Nat.strong_induction_on generalizing i with
  | _ n ih =>
    cases h : p i with
    | done a k =>
      have hk := hp.used_le h
      have h0 := ha h
      have hrest := ih (i.drop k).length (by rw [List.length_drop]; omega) (i.drop k) rfl
      rw [framesOf, framesOf, cut_done hp ha h, cut_done hp ha (hp.done_append h x),
        List.take_append_of_le_length hk, List.drop_append_of_le_length hk]
      simp only [Cut.after, List.map_append]
      exact (List.prefix_append_right_inj _).mpr hrest
    | more =>
      rw [framesOf, cut_more h]
      exact List.nil_prefix
    | bad =>
      rw [framesOf, cut_bad h]
      exact List.nil_prefix

theorem framesOf_mono (hp : Incremental p) (ha : Advances p) {i j : List τ} (h : i <+: j) :
    framesOf p i <+: framesOf p j := by
  obtain ⟨x, rfl⟩ := h
  exact framesOf_append hp ha i x

/-- The stream is a sequence of values, with nothing after them. -/
def Whole (p : Reader τ α) (i : List τ) : Prop := ∃ gs, Chain p i gs []

theorem whole_nil (p : Reader τ α) : Whole p [] := ⟨[], .nil _⟩

/-- The values of a chain stand alone. -/
theorem Chain.alone {i r : List τ} {gs : List (α × List τ)} (h : Chain p i gs r)
    (hp : Incremental p) : Chain p (gs.map Prod.snd).flatten gs [] := by
  induction h with
  | nil i => exact .nil _
  | cons h rest ih =>
    rename_i i r a k gs
    have hlen : (i.take k).length = k := List.length_take_of_le (hp.used_le h)
    have hfirst : p (i.take k ++ (gs.map Prod.snd).flatten) = .done a k :=
      hp.done h (List.prefix_append _ _)
    have hrest : Chain p ((i.take k ++ (gs.map Prod.snd).flatten).drop k) gs [] := by
      rw [List.drop_left' hlen]
      exact ih
    have hchain := Chain.cons hfirst hrest
    rw [List.take_left' hlen] at hchain
    exact hchain

/-- The frames of a chain that nothing follows. -/
theorem Chain.framesOf_eq {i : List τ} {gs : List (α × List τ)} (h : Chain p i gs [])
    (hp : Incremental p) (ha : Advances p) : framesOf p i = gs.map Prod.snd := by
  have hnil : (cut p []).frames = [] :=
    List.length_eq_zero_iff.mp (Nat.le_zero.mp (length_frames_le hp ha []))
  rw [framesOf, h.cut_eq hp ha]
  simp [Cut.after, hnil]

/-- What follows whole values is read on its own. -/
theorem Whole.framesOf_append {i : List τ} (h : Whole p i) (hp : Incremental p) (ha : Advances p)
    (x : List τ) : framesOf p (i ++ x) = framesOf p i ++ framesOf p x := by
  obtain ⟨gs, hc⟩ := h
  have hx := (hc.append hp x).cut_eq hp ha
  rw [hc.framesOf_eq hp ha, framesOf, framesOf, hx]
  simp [Cut.after]

theorem Whole.append {i j : List τ} (h : Whole p i) (h' : Whole p j) (hp : Incremental p) :
    Whole p (i ++ j) := by
  obtain ⟨gs, hc⟩ := h
  obtain ⟨gs', hc'⟩ := h'
  refine ⟨gs ++ gs', ?_⟩
  have hx := hc.append hp j
  rw [List.nil_append] at hx
  clear hc
  generalize i ++ j = s at hx
  induction hx with
  | nil i => exact hc'
  | cons h rest ih => exact .cons h (ih hc')

/-- A proper front part of a value has no value at its front. -/
theorem framesOf_short (hp : Incremental p) {f : List τ} (hf : p f = .done a f.length)
    (hi : i <+: f) (hne : i ≠ f) : framesOf p i = [] := by
  have hnone : ∀ b k, p i ≠ .done b k := by
    intro b k h
    have hk := hp.used_le h
    have hsame := hp.done h ((List.take_prefix k i).trans hi)
    rw [hf] at hsame
    cases hsame
    exact hne (hi.eq_of_length_le hk)
  rw [framesOf]
  cases h : p i with
  | done b k => exact absurd h (hnone b k)
  | more => rw [cut_more h]; rfl
  | bad => rw [cut_bad h]; rfl

/-- **Who has received a front part of a sequence of values finds the first of them**, and after
    them a proper front part of the next one. -/
theorem framesOf_front (hp : Incremental p) (ha : Advances p) {fs : List (List τ)}
    (hfs : ∀ f ∈ fs, ∃ a, p f = .done a f.length) {i : List τ} (hi : i <+: fs.flatten) :
    ∃ k rest, framesOf p i = fs.take k ∧ i = (fs.take k).flatten ++ rest ∧
      (rest = [] ∨ ∃ f, fs[k]? = some f ∧ rest <+: f ∧ rest ≠ f) := by
  induction fs generalizing i with
  | nil =>
    obtain rfl := List.prefix_nil.mp hi
    exact ⟨0, [], Chain.framesOf_eq (.nil []) hp ha, rfl, Or.inl rfl⟩
  | cons f fs ih =>
    obtain ⟨a, hf⟩ := hfs f List.mem_cons_self
    rw [List.flatten_cons] at hi
    by_cases hall : f <+: i
    · -- the first value is there: it is taken off, and the rest follows
      obtain ⟨j, rfl⟩ := hall
      obtain ⟨k, rest, hframes, hsplit, hrest⟩ :=
        ih (fun g hg => hfs g (List.mem_cons_of_mem _ hg)) ((List.prefix_append_right_inj f).mp hi)
      refine ⟨k + 1, rest, ?_, ?_, hrest⟩
      · rw [List.take_succ_cons, ← hframes, framesOf, framesOf,
          cut_done hp ha (hp.done_append hf j), List.take_left, List.drop_left]
        rfl
      · rw [List.take_succ_cons, List.flatten_cons, List.append_assoc, ← hsplit]
    · have hshort : i <+: f :=
        (List.prefix_or_prefix_of_prefix hi (List.prefix_append f fs.flatten)).resolve_right hall
      have hne : i ≠ f := fun heq => hall (heq ▸ List.prefix_rfl)
      exact ⟨0, i, framesOf_short hp hf hshort hne, rfl, Or.inr ⟨f, rfl, hshort, hne⟩⟩

end Cut

end RedisProxy.Lib
