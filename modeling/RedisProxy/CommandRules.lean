/-
  File:      RedisProxy/CommandRules.lean
  Subject:   `CommandRules` (src/command_rules.cpp): which commands the proxy forwards.

  The table is a partial function on command names in upper case. A name is a byte string here,
  as the parser gives it; the names of the default table are ASCII.

  A table is made by calls of `allow`, `deny` and `setRuleForTest`, and a later call overrides an
  earlier one (section 3). `validate_by_last` says that of all of them only the last one for a
  name counts, where names are compared up to the case of their letters.
-/
import RedisProxy.Buffer.IoBuffer
import RedisProxy.Status
import Mathlib.Data.List.Forall2

namespace RedisProxy

/-! ## 1. Rules -/

/-- `CommandRule`. -/
structure CommandRule where
  allowed : Bool := false
  minArgc : UInt16 := 0
  maxArgc : UInt16 := 0
  read : Bool := false
  write : Bool := false
  dangerous : Bool := false
  deriving DecidableEq, Repr

structure CommandRules where
  rules : Bytes → Option CommandRule

/-- The bytes of an ASCII string. -/
def ascii (s : String) : Bytes := s.toList.map fun c => UInt8.ofNat c.toNat

/-- `std::toupper` in the C locale. -/
def toUpper (c : UInt8) : UInt8 := if 97 ≤ c ∧ c ≤ 122 then c - 32 else c

def uint16Max : UInt16 := 65535

namespace CommandRules

/-- `CommandRules::normalize`. -/
def normalize (command : Bytes) : Bytes := command.map toUpper

def empty : CommandRules := ⟨fun _ => none⟩

/-- `rules_[normalize(command)] = rule` (`CommandRules::setRuleForTest`). -/
def setRule (r : CommandRules) (command : Bytes) (rule : CommandRule) : CommandRules :=
  ⟨fun name => if name = normalize command then some rule else r.rules name⟩

/-- `CommandRules::allow`. -/
def allow (r : CommandRules) (command : Bytes) (minArgc maxArgc : UInt16) (read write : Bool) :
    CommandRules :=
  r.setRule command ⟨true, minArgc, maxArgc, read, write, false⟩

/-- `CommandRules::deny`. -/
def deny (r : CommandRules) (command : Bytes) : CommandRules :=
  r.setRule command ⟨false, 0, 0, false, false, true⟩

/-- `CommandRules::validate`. -/
def validate (r : CommandRules) (command : Bytes) (argc : Nat) : Status :=
  match r.rules (normalize command) with
  | none => .protocolError "ERR proxy rejected unknown command"
  | some rule =>
      if !rule.allowed || rule.dangerous then .protocolError "ERR proxy rejected command"
      else if argc < rule.minArgc.toNat ∨ rule.maxArgc.toNat < argc then
        .protocolError "ERR wrong number of arguments"
      else .okStatus

/-- A command is let through, or refused with a text. -/
theorem validate_cases (r : CommandRules) (command : Bytes) (argc : Nat) :
    r.validate command argc = .okStatus ∨
      ∃ m, m ≠ "" ∧ r.validate command argc = .protocolError m := by
  unfold validate
  repeat' split
  · exact Or.inr ⟨_, by decide, rfl⟩
  · exact Or.inr ⟨_, by decide, rfl⟩
  · exact Or.inr ⟨_, by decide, rfl⟩
  · exact Or.inl rfl

theorem validate_message {r : CommandRules} {command : Bytes} {argc : Nat}
    (h : (r.validate command argc).ok = false) : (r.validate command argc).message ≠ "" := by
  rcases r.validate_cases command argc with hok | ⟨m, hm, heq⟩
  · rw [hok] at h
    cases h
  · rw [heq]
    exact hm

/-! ## 2. The default table -/

/-- The calls of `allow` in `Default()`, in order. -/
def allowedCommands : List (String × UInt16 × UInt16 × Bool × Bool) := [
  -- String commands
  ("PING", 1, 2, true, false),
  ("GET", 2, 2, true, false),
  ("MGET", 2, uint16Max, true, false),
  ("SET", 3, uint16Max, false, true),
  ("MSET", 3, uint16Max, false, true),
  ("MSETNX", 3, uint16Max, false, true),
  ("GETSET", 3, 3, false, true),
  ("SETNX", 3, 3, false, true),
  ("SETEX", 4, 4, false, true),
  ("PSETEX", 4, 4, false, true),
  ("GETEX", 2, uint16Max, true, false),
  ("GETDEL", 2, 2, false, true),
  ("APPEND", 3, 3, false, true),
  ("STRLEN", 2, 2, true, false),
  ("GETRANGE", 4, 4, true, false),
  ("SETRANGE", 4, 4, false, true),
  ("INCR", 2, 2, false, true),
  ("DECR", 2, 2, false, true),
  ("INCRBY", 3, 3, false, true),
  ("DECRBY", 3, 3, false, true),
  ("INCRBYFLOAT", 3, 3, false, true),
  -- Set commands
  ("SADD", 3, uint16Max, false, true),
  ("SREM", 3, uint16Max, false, true),
  ("SMEMBERS", 2, 2, true, false),
  ("SISMEMBER", 3, 3, true, false),
  ("SMISMEMBER", 3, uint16Max, true, false),
  ("SCARD", 2, 2, true, false),
  ("SPOP", 2, 3, false, true),
  ("SRANDMEMBER", 2, 3, true, false),
  ("SMOVE", 4, 4, false, true),
  ("SINTER", 2, uint16Max, true, false),
  ("SINTERSTORE", 3, uint16Max, false, true),
  ("SUNION", 2, uint16Max, true, false),
  ("SUNIONSTORE", 3, uint16Max, false, true),
  ("SDIFF", 2, uint16Max, true, false),
  ("SDIFFSTORE", 3, uint16Max, false, true),
  -- List commands
  ("LPUSH", 3, uint16Max, false, true),
  ("RPUSH", 3, uint16Max, false, true),
  ("LPUSHX", 3, uint16Max, false, true),
  ("RPUSHX", 3, uint16Max, false, true),
  ("LPOP", 2, 3, false, true),
  ("RPOP", 2, 3, false, true),
  ("LLEN", 2, 2, true, false),
  ("LRANGE", 4, 4, true, false),
  ("LINDEX", 3, 3, true, false),
  ("LSET", 4, 4, false, true),
  ("LINSERT", 5, 5, false, true),
  ("LREM", 4, 4, false, true),
  ("LTRIM", 4, 4, false, true),
  ("LPOS", 3, uint16Max, true, false),
  ("LMOVE", 5, 5, false, true),
  ("RPOPLPUSH", 3, 3, false, true),
  -- Hash commands
  ("HSET", 4, uint16Max, false, true),
  ("HGET", 3, 3, true, false),
  ("HMSET", 4, uint16Max, false, true),
  ("HMGET", 3, uint16Max, true, false),
  ("HGETALL", 2, 2, true, false),
  ("HDEL", 3, uint16Max, false, true),
  ("HEXISTS", 3, 3, true, false),
  ("HKEYS", 2, 2, true, false),
  ("HVALS", 2, 2, true, false),
  ("HLEN", 2, 2, true, false),
  ("HINCRBY", 4, 4, false, true),
  ("HINCRBYFLOAT", 4, 4, false, true),
  ("HSETNX", 4, 4, false, true),
  ("HSTRLEN", 3, 3, true, false),
  ("HRANDFIELD", 2, 3, true, false),
  -- Sorted Set commands
  ("ZADD", 4, uint16Max, false, true),
  ("ZREM", 3, uint16Max, false, true),
  ("ZSCORE", 3, 3, true, false),
  ("ZMSCORE", 3, uint16Max, true, false),
  ("ZINCRBY", 4, 4, false, true),
  ("ZCARD", 2, 2, true, false),
  ("ZCOUNT", 4, 4, true, false),
  ("ZLEXCOUNT", 4, 4, true, false),
  ("ZRANGE", 4, uint16Max, true, false),
  ("ZREVRANGE", 4, uint16Max, true, false),
  ("ZRANGEBYSCORE", 4, uint16Max, true, false),
  ("ZREVRANGEBYSCORE", 4, uint16Max, true, false),
  ("ZRANGEBYLEX", 4, uint16Max, true, false),
  ("ZREVRANGEBYLEX", 4, uint16Max, true, false),
  ("ZRANGESTORE", 5, uint16Max, false, true),
  ("ZRANK", 3, 3, true, false),
  ("ZREVRANK", 3, 3, true, false),
  ("ZREMRANGEBYRANK", 4, 4, false, true),
  ("ZREMRANGEBYSCORE", 4, 4, false, true),
  ("ZREMRANGEBYLEX", 4, 4, false, true),
  ("ZPOPMIN", 2, 3, false, true),
  ("ZPOPMAX", 2, 3, false, true),
  ("ZINTER", 3, uint16Max, true, false),
  ("ZINTERSTORE", 3, uint16Max, false, true),
  ("ZUNION", 3, uint16Max, true, false),
  ("ZUNIONSTORE", 3, uint16Max, false, true),
  ("ZDIFF", 3, uint16Max, true, false),
  ("ZDIFFSTORE", 3, uint16Max, false, true),
  ("ZRANDMEMBER", 2, 3, true, false),
  -- Generic commands
  ("EXPIREAT", 3, 4, false, true),
  ("PTTL", 2, 2, true, false),
  ("PERSIST", 2, 2, false, true),
  ("TYPE", 2, 2, true, false),
  ("RENAME", 3, 3, false, true),
  ("RENAMENX", 3, 3, false, true),
  ("UNLINK", 2, uint16Max, false, true),
  ("TOUCH", 2, uint16Max, false, true),
  ("DEL", 2, uint16Max, false, true),
  ("EXISTS", 2, uint16Max, true, false),
  ("EXPIRE", 3, 4, false, true),
  ("TTL", 2, 2, true, false)]

/-- The calls of `deny` in `Default()`, in order. -/
def deniedCommands : List String := [
  -- Auth/Session
  "AUTH", "SELECT", "CLIENT", "HELLO",
  -- Transaction
  "MULTI", "EXEC", "DISCARD", "WATCH", "UNWATCH",
  -- Pub/Sub
  "SUBSCRIBE", "PSUBSCRIBE", "SSUBSCRIBE", "UNSUBSCRIBE", "PUNSUBSCRIBE", "SUNSUBSCRIBE",
  "PUBLISH", "PUBSUB", "SPUBLISH",
  -- Blocking operations
  "BLPOP", "BRPOP", "BLMOVE", "BLMPOP", "BZPOPMIN", "BZPOPMAX", "BZMPOP", "BRPOPLPUSH",
  "XREAD", "XREADGROUP",
  -- Admin/Dangerous
  "DEBUG", "MODULE", "CONFIG", "SHUTDOWN", "SAVE", "BGSAVE", "BGREWRITEAOF", "FLUSHDB",
  "FLUSHALL", "KEYS", "SCAN",
  -- Script
  "SCRIPT", "EVAL", "EVALSHA", "FUNCTION",
  -- Cluster/Replication
  "ACL", "MONITOR", "SYNC", "PSYNC"]

/-- `CommandRules::Default`. -/
def default : CommandRules :=
  deniedCommands.foldl (fun r command => r.deny (ascii command))
    (allowedCommands.foldl
      (fun r (command, minArgc, maxArgc, read, write) =>
        r.allow (ascii command) minArgc maxArgc read write) empty)

/-! ## 3. Registrations -/

/-- A call that enters a rule. -/
inductive Registration where
  | allow (command : Bytes) (minArgc maxArgc : UInt16) (read write : Bool)
  | deny (command : Bytes)
  | setRuleForTest (command : Bytes) (rule : CommandRule)

namespace Registration

def command : Registration → Bytes
  | .allow command _ _ _ _ => command
  | .deny command => command
  | .setRuleForTest command _ => command

/-- The rule it enters. -/
def rule : Registration → CommandRule
  | .allow _ minArgc maxArgc read write => ⟨true, minArgc, maxArgc, read, write, false⟩
  | .deny _ => ⟨false, 0, 0, false, false, true⟩
  | .setRuleForTest _ rule => rule

end Registration

def register (r : CommandRules) : Registration → CommandRules
  | .allow command minArgc maxArgc read write => r.allow command minArgc maxArgc read write
  | .deny command => r.deny command
  | .setRuleForTest command rule => r.setRule command rule

/-- The table after a sequence of registrations. -/
def ofRegistrations (gs : List Registration) : CommandRules := gs.foldl register empty

/-- The registrations of `Default()`. -/
def defaultRegistrations : List Registration :=
  allowedCommands.map (fun (command, minArgc, maxArgc, read, write) =>
    .allow (ascii command) minArgc maxArgc read write) ++
  deniedCommands.map fun command => .deny (ascii command)

theorem default_eq : default = ofRegistrations defaultRegistrations := by
  rw [ofRegistrations, defaultRegistrations, List.foldl_append, List.foldl_map, List.foldl_map]
  rfl

/-- The same byte, or the two cases of one ASCII letter. -/
def SameLetter (x y : UInt8) : Prop :=
  x = y ∨ (97 ≤ x ∧ x ≤ 122 ∧ y = x - 32) ∨ (97 ≤ y ∧ y ≤ 122 ∧ x = y - 32)

/-- The same name up to the case of its letters. -/
def SameName (a b : Bytes) : Prop := List.Forall₂ SameLetter a b

theorem toUpper_eq_iff (x y : UInt8) : toUpper x = toUpper y ↔ SameLetter x y := by
  have h97 : (97 : UInt8).toNat = 97 := rfl
  have h122 : (122 : UInt8).toNat = 122 := rfl
  have hsub : ∀ z : UInt8, 97 ≤ z.toNat → (z - 32).toNat = z.toNat - 32 := by
    intro z hz
    refine UInt8.toNat_sub_of_le z 32 ?_
    rw [UInt8.le_iff_toNat_le]
    show 32 ≤ z.toNat
    omega
  unfold SameLetter toUpper
  simp only [UInt8.le_iff_toNat_le, h97, h122]
  split <;> split <;> simp only [← UInt8.toNat_inj] <;> grind

/-- **Two names are normalized alike exactly when they differ in case only.** -/
theorem normalize_eq_iff {a b : Bytes} : normalize a = normalize b ↔ SameName a b := by
  unfold normalize SameName
  rw [← List.forall₂_eq_eq_eq, List.forall₂_map_left_iff, List.forall₂_map_right_iff]
  simp only [toUpper_eq_iff]

theorem rules_register (r : CommandRules) (g : Registration) (name : Bytes) :
    (r.register g).rules name = if name = normalize g.command then some g.rule else r.rules name := by
  cases g <;> rfl

/-- The last registration for a name. -/
def LastFor (gs : List Registration) (c : Bytes) (g : Registration) : Prop :=
  ∃ before after, gs = before ++ g :: after ∧ SameName g.command c ∧
    ∀ g' ∈ after, ¬ SameName g'.command c

theorem LastFor.append_left {gs : List Registration} {c : Bytes} {g : Registration}
    (h : LastFor gs c g) (earlier : List Registration) : LastFor (earlier ++ gs) c g := by
  obtain ⟨before, after, rfl, hsame, hafter⟩ := h
  exact ⟨earlier ++ before, after, (List.append_assoc _ _ _).symm, hsame, hafter⟩

theorem LastFor.mem {gs : List Registration} {c : Bytes} {g : Registration} (h : LastFor gs c g) :
    g ∈ gs := by
  obtain ⟨before, after, rfl, _⟩ := h
  exact List.mem_append_right _ List.mem_cons_self

/-- No registration is for the name. -/
def Unregistered (gs : List Registration) (c : Bytes) : Prop := ∀ g ∈ gs, ¬ SameName g.command c

theorem last_or_unregistered (gs : List Registration) (c : Bytes) :
    (∃ g, LastFor gs c g) ∨ Unregistered gs c := by
  induction gs with
  | nil => exact Or.inr nofun
  | cons g gs ih =>
    rcases ih with ⟨g', before, after, rfl, hsame, hafter⟩ | hnone
    · exact Or.inl ⟨g', g :: before, after, rfl, hsame, hafter⟩
    · by_cases hg : SameName g.command c
      · exact Or.inl ⟨g, [], gs, rfl, hg, hnone⟩
      · exact Or.inr (List.forall_mem_cons.mpr ⟨hg, hnone⟩)

theorem rules_of_unregistered {gs : List Registration} {c : Bytes} (h : Unregistered gs c)
    (r : CommandRules) : (gs.foldl register r).rules (normalize c) = r.rules (normalize c) := by
  induction gs generalizing r with
  | nil => rfl
  | cons g gs ih =>
    obtain ⟨hg, hgs⟩ := List.forall_mem_cons.mp h
    rw [List.foldl_cons, ih hgs, rules_register, if_neg]
    exact fun heq => hg (normalize_eq_iff.mp heq.symm)

/-- **The table holds the rule of the last registration.** -/
theorem rules_of_last {gs : List Registration} {c : Bytes} {g : Registration}
    (h : LastFor gs c g) : (ofRegistrations gs).rules (normalize c) = some g.rule := by
  obtain ⟨before, after, rfl, hsame, hafter⟩ := h
  rw [ofRegistrations, List.foldl_append, List.foldl_cons, rules_of_unregistered hafter,
    rules_register, if_pos (normalize_eq_iff.mpr hsame).symm]

theorem validate_of_same (r : CommandRules) {c c' : Bytes} (h : SameName c c') (n : Nat) :
    r.validate c n = r.validate c' n := by
  unfold validate
  rw [normalize_eq_iff.mpr h]

/-- What a rule lets through. -/
theorem ok_of_rule {r : CommandRules} {c : Bytes} {rule : CommandRule}
    (h : r.rules (normalize c) = some rule) (n : Nat) : (r.validate c n).ok = true ↔
      rule.allowed = true ∧ rule.dangerous = false ∧ rule.minArgc.toNat ≤ n ∧
        n ≤ rule.maxArgc.toNat := by
  unfold validate
  rw [h]
  dsimp only
  split
  · rename_i hbad
    simp only [Status.ok, Status.protocolError]
    cases ha : rule.allowed <;> simp [ha] at hbad ⊢
    simp [hbad]
  · rename_i hgood
    simp only [Bool.or_eq_true, Bool.not_eq_true', not_or, Bool.not_eq_false, Bool.not_eq_true]
      at hgood
    split
    · rename_i hargc
      simp only [Status.ok, Status.protocolError]
      constructor
      · intro h0
        cases h0
      · rintro ⟨_, _, h1, h2⟩
        omega
    · rename_i hargc
      simp only [Status.ok, Status.okStatus]
      exact ⟨fun _ => ⟨hgood.1, hgood.2, by omega, by omega⟩, fun _ => rfl⟩

/-- A name nobody registered is refused. -/
theorem refused_of_unregistered {gs : List Registration} {c : Bytes} (h : Unregistered gs c)
    (n : Nat) : (ofRegistrations gs).validate c n =
      .protocolError "ERR proxy rejected unknown command" := by
  have hnone : (ofRegistrations gs).rules (normalize c) = none := rules_of_unregistered h empty
  unfold validate
  rw [hnone]

/-- A denied name is denied by its last registration: all the calls of `deny` come last. -/
theorem denied_last {c : Bytes} {d : String} (hd : d ∈ deniedCommands) (h : SameName (ascii d) c) :
    ∃ g, LastFor defaultRegistrations c g ∧ g.rule.allowed = false := by
  rcases last_or_unregistered (deniedCommands.map fun command => .deny (ascii command)) c with
    ⟨g, hg⟩ | hnone
  · refine ⟨g, hg.append_left _, ?_⟩
    obtain ⟨command, _, rfl⟩ := List.mem_map.mp hg.mem
    rfl
  · exact absurd h (hnone _ (List.mem_map_of_mem hd))

/-- **Only the last registration for a name counts**, names compared up to the case of their
    letters. For every sequence of registrations and every command, `validate` says yes exactly
    when there is a last one, it allows, it is not marked dangerous, and the number of arguments
    lies within its bounds; and two sequences with the same last registration, or both with none,
    give the same status. For `Default()`: no spelling of a denied name and no name outside the
    table is let through. No spelling of a command is treated differently from another. -/
theorem validate_by_last (gs : List Registration) (c : Bytes) (n : Nat) :
    (((ofRegistrations gs).validate c n).ok = true ↔
      ∃ g, LastFor gs c g ∧ g.rule.allowed = true ∧ g.rule.dangerous = false ∧
        g.rule.minArgc.toNat ≤ n ∧ n ≤ g.rule.maxArgc.toNat) ∧
    (∀ gs' g g', LastFor gs c g → LastFor gs' c g' → g.rule = g'.rule →
      (ofRegistrations gs).validate c n = (ofRegistrations gs').validate c n) ∧
    (∀ gs', Unregistered gs c → Unregistered gs' c →
      (ofRegistrations gs).validate c n = (ofRegistrations gs').validate c n) ∧
    (∀ c', SameName c c' →
      (ofRegistrations gs).validate c n = (ofRegistrations gs).validate c' n) ∧
    (∀ d ∈ deniedCommands, SameName (ascii d) c → (default.validate c n).ok = false) ∧
    ((∀ name ∈ allowedCommands.map Prod.fst ++ deniedCommands, ¬ SameName (ascii name) c) →
      (default.validate c n).ok = false) ∧
    (∀ c', SameName c c' → default.validate c n = default.validate c' n) := by
  refine ⟨⟨fun hok => ?_, ?_⟩, fun gs' g g' hg hg' hrule => ?_, fun gs' h h' => ?_,
    fun c' h => validate_of_same _ h n, fun d hd h => ?_, fun h => ?_,
    fun c' h => validate_of_same _ h n⟩
  · rcases last_or_unregistered gs c with ⟨g, hg⟩ | hnone
    · exact ⟨g, hg, (ok_of_rule (rules_of_last hg) n).mp hok⟩
    · rw [refused_of_unregistered hnone] at hok
      cases hok
  · rintro ⟨g, hg, hrule⟩
    exact (ok_of_rule (rules_of_last hg) n).mpr hrule
  · unfold validate
    rw [rules_of_last hg, rules_of_last hg', hrule]
  · rw [refused_of_unregistered h, refused_of_unregistered h']
  · obtain ⟨g, hg, hdenied⟩ := denied_last hd h
    rw [default_eq, Bool.eq_false_iff]
    intro hok
    have hallowed := ((ok_of_rule (rules_of_last hg) n).mp hok).1
    rw [hdenied] at hallowed
    cases hallowed
  · have hnone : Unregistered defaultRegistrations c := by
      intro g hg
      rcases List.mem_append.mp hg with hg | hg
      · obtain ⟨entry, hentry, rfl⟩ := List.mem_map.mp hg
        exact h entry.1 (List.mem_append_left _ (List.mem_map_of_mem hentry))
      · obtain ⟨command, hcommand, rfl⟩ := List.mem_map.mp hg
        exact h command (List.mem_append_right _ hcommand)
    rw [default_eq, refused_of_unregistered hnone]
    rfl

example : (default.validate (ascii "get") 2).ok = true := by decide +kernel

/-! ## 4. Commands without an upper bound -/

/-- The entries with `UINT16_MAX` are the rules that the table holds for their names. -/
theorem rules_of_unbounded : ∀ e ∈ allowedCommands, e.2.2.1 = uint16Max →
    default.rules (normalize (ascii e.1)) =
      some ⟨true, e.2.1, uint16Max, e.2.2.2.1, e.2.2.2.2, false⟩ := by
  decide +kernel

/-- What `validate` says to a command without an upper bound, in any spelling. -/
theorem validate_unbounded {name : String} {minArgc : UInt16} {read write : Bool}
    (h : (name, minArgc, uint16Max, read, write) ∈ allowedCommands) {c : Bytes}
    (hc : SameName (ascii name) c) (n : Nat) :
    default.validate c n =
      if n < minArgc.toNat ∨ 65535 < n then .protocolError "ERR wrong number of arguments"
      else .okStatus := by
  have hrule := rules_of_unbounded _ h rfl
  rw [normalize_eq_iff.mpr hc] at hrule
  rw [validate, hrule]
  rfl

end CommandRules

end RedisProxy
