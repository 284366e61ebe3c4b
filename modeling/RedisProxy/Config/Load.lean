/-
  File:      RedisProxy/Config/Load.lean
  Subject:   `LoadConfigFile` and `LoadConfigFromArgs` (src/config.cpp), and what they leave in
             `*out`.

  A configuration file is a list of lines, each of which says nothing, sets a field or is
  malformed; an argument vector is a list of options, one of which names a file. Over the model
  of the two functions stands the list of settings that a file or an argument vector holds, and
  the last setting of each field wins.

  `LoadConfigFromArgs` works on a configuration of its own and assigns `*out` at the end.
  `LoadConfigFile` works on `*out`, and its answer comes after it has written there:
  `loadConfig_allOrNothing_iff` says which files show this.

  * `apply`, `loadConfigFile`, `loadConfigFromArgs` -- the functions of the source;
  * `Setting`, `FileEntry`, `fileSettings`, `argSettings` -- what a file or an argument vector says;
  * `FileAllOrNothing`, `ArgsAllOrNothing` -- nothing is written, or everything.
-/
import RedisProxy.Config
import RedisProxy.Config.Numbers
import RedisProxy.CommandRules
import RedisProxy.Lib.Overrides
import Mathlib.Data.List.DropRight

namespace RedisProxy

open Lib

/-! ## 1. Reading a text into a place -/

/-- A function that reads a text into `*out`: its answer, and what `*out` holds then. -/
abbrev ReadInto (α : Type) := Bytes → α → Bool × α

section ReadInto

variable {α : Type} {R : ReadInto α}

/-- Whether a text is read, and as what, is a matter of the text alone; a text that is not read
    leaves `*out` as it was. This is what the proxy relies on in `Endpoint::parse`, which is not
    part of the repository. -/
def Writes (R : ReadInto α) : Prop :=
  ∀ v, (∃ a, ∀ out, R v out = (true, a)) ∨ ∀ out, R v out = (false, out)

/-- What a text is read as. -/
def reading [Inhabited α] (R : ReadInto α) (v : Bytes) : Option α :=
  if (R v default).1 then some (R v default).2 else none

/-- A reader that writes all or nothing writes what it has read. -/
theorem Writes.of_reading [Inhabited α] (h : Writes R) {v : Bytes} {a : α}
    (hv : reading R v = some a) (out : α) : R v out = (true, a) := by
  rcases h v with ⟨b, hb⟩ | hfail
  · obtain rfl : b = a := by simpa [reading, hb] using hv
    exact hb out
  · simp [reading, hfail] at hv

theorem Writes.of_reading_none [Inhabited α] (h : Writes R) {v : Bytes}
    (hv : reading R v = none) (out : α) : R v out = (false, out) := by
  rcases h v with ⟨b, hb⟩ | hfail
  · simp [reading, hb] at hv
  · exact hfail out

/-- A reader that checks first and writes then writes all or nothing. -/
theorem writes_ite {fails : Bytes → Prop} [DecidablePred fails] {result : Bytes → α} :
    Writes fun v out => if fails v then (false, out) else (true, result v) := by
  intro v
  by_cases h : fails v
  · exact Or.inr fun out => if_pos h
  · exact Or.inl ⟨result v, fun out => if_neg h⟩

theorem writes_parseSize : Writes parseSize := writes_ite

theorem writes_parseInt : Writes parseInt := writes_ite

end ReadInto

/-! ## 2. The fields of a configuration -/

/-- The fields of `Config`. -/
inductive Field where
  | listen | redis | workers | backendConnsPerWorker | maxRequestBytes | maxBulkBytes
  | maxArrayElements | maxPipelineCommandsPerRead | connectTimeoutMs | readTimeoutMs
  | writeTimeoutMs
  deriving DecidableEq, Repr

/-- The type of a field. -/
abbrev Field.Value : Field → Type
  | .listen | .redis => Endpoint
  | .maxRequestBytes | .maxBulkBytes | .maxArrayElements | .maxPipelineCommandsPerRead => Nat
  | .workers | .backendConnsPerWorker | .connectTimeoutMs | .readTimeoutMs | .writeTimeoutMs => Int

/-- A field and a value for it. -/
abbrev Setting := Sigma Field.Value

namespace Config

def value (c : Config) : (f : Field) → f.Value
  | .listen => c.listen
  | .redis => c.redis
  | .workers => c.workers
  | .backendConnsPerWorker => c.backendConnsPerWorker
  | .maxRequestBytes => c.maxRequestBytes
  | .maxBulkBytes => c.maxBulkBytes
  | .maxArrayElements => c.maxArrayElements
  | .maxPipelineCommandsPerRead => c.maxPipelineCommandsPerRead
  | .connectTimeoutMs => c.connectTimeoutMs
  | .readTimeoutMs => c.readTimeoutMs
  | .writeTimeoutMs => c.writeTimeoutMs

def set (c : Config) : Setting → Config
  | ⟨.listen, x⟩ => { c with listen := x }
  | ⟨.redis, x⟩ => { c with redis := x }
  | ⟨.workers, x⟩ => { c with workers := x }
  | ⟨.backendConnsPerWorker, x⟩ => { c with backendConnsPerWorker := x }
  | ⟨.maxRequestBytes, x⟩ => { c with maxRequestBytes := x }
  | ⟨.maxBulkBytes, x⟩ => { c with maxBulkBytes := x }
  | ⟨.maxArrayElements, x⟩ => { c with maxArrayElements := x }
  | ⟨.maxPipelineCommandsPerRead, x⟩ => { c with maxPipelineCommandsPerRead := x }
  | ⟨.connectTimeoutMs, x⟩ => { c with connectTimeoutMs := x }
  | ⟨.readTimeoutMs, x⟩ => { c with readTimeoutMs := x }
  | ⟨.writeTimeoutMs, x⟩ => { c with writeTimeoutMs := x }

/-- A setting changes its field and no other. -/
theorem value_set (c : Config) (s : Setting) :
    (c.set s).value = Function.update c.value s.1 s.2 := by
  obtain ⟨f, x⟩ := s
  funext g
  cases f <;> cases g <;> rfl

/-- A configuration is its fields. -/
theorem ext_value {c c' : Config} (h : c.value = c'.value) : c = c' := by
  have hf := congrFun h
  cases c
  cases c'
  rw [Config.mk.injEq]
  exact ⟨hf .listen, hf .redis, hf .workers, hf .backendConnsPerWorker, hf .maxRequestBytes,
    hf .maxBulkBytes, hf .maxArrayElements, hf .maxPipelineCommandsPerRead, hf .connectTimeoutMs,
    hf .readTimeoutMs, hf .writeTimeoutMs⟩

/-- A configuration is the values of its fields. -/
def fields : Fields Config Field.Value := ⟨value, set, value_set, ext_value⟩

end Config

/-! ## 3. The functions of the source -/

/-- The characters `Trim` takes off: blank, tab, carriage return and line feed. -/
def isBlank (c : UInt8) : Bool := c == 32 || c == 9 || c == 13 || c == 10

/-- `Trim`. -/
def trim (s : Bytes) : Bytes := (s.dropWhile isBlank).rdropWhile isBlank

/-- `std::getline`: the line and what is left of the stream, unless it has come to its end. -/
def getline (s : Bytes) : Option (Bytes × Bytes) :=
  if s = [] then none else some (s.takeWhile (· ≠ 10), (s.dropWhile (· ≠ 10)).drop 1)

/-- The lines that `while (std::getline(in, line))` goes through. -/
def lines : Bytes → List Bytes
  | [] => []
  | c :: s =>
      if c = 10 then [] :: lines s
      else match lines s with
        | [] => [[c]]
        | line :: rest => (c :: line) :: rest

/-- The text before the first `=` and the text after it. -/
def keyValue (s : Bytes) : Option (Bytes × Bytes) :=
  if 61 ∈ s then some (s.takeWhile (· ≠ 61), (s.dropWhile (· ≠ 61)).drop 1) else none

/-- The answer of a reading function, and the configuration with what it left in its place. -/
def stored {α : Type} (x : Bool × α) (put : α → Config) : Bool × Config := (x.1, put x.2)

section Load

variable (P : ReadInto Endpoint) (files : Bytes → Option Bytes)

/-- The call that reads `value` into a field: `P` is `Endpoint::parse`. -/
def readField (cfg : Config) (value : Bytes) : Field → Bool × Config
  | .listen => stored (P value cfg.listen) fun x => { cfg with listen := x }
  | .redis => stored (P value cfg.redis) fun x => { cfg with redis := x }
  | .workers => stored (parseInt value cfg.workers) fun x => { cfg with workers := x }
  | .backendConnsPerWorker => stored (parseInt value cfg.backendConnsPerWorker) fun x =>
      { cfg with backendConnsPerWorker := x }
  | .maxRequestBytes => stored (parseSize value cfg.maxRequestBytes) fun x =>
      { cfg with maxRequestBytes := x }
  | .maxBulkBytes => stored (parseSize value cfg.maxBulkBytes) fun x =>
      { cfg with maxBulkBytes := x }
  | .maxArrayElements => stored (parseSize value cfg.maxArrayElements) fun x =>
      { cfg with maxArrayElements := x }
  | .maxPipelineCommandsPerRead => stored (parseSize value cfg.maxPipelineCommandsPerRead) fun x =>
      { cfg with maxPipelineCommandsPerRead := x }
  | .connectTimeoutMs => stored (parseInt value cfg.connectTimeoutMs) fun x =>
      { cfg with connectTimeoutMs := x }
  | .readTimeoutMs => stored (parseInt value cfg.readTimeoutMs) fun x =>
      { cfg with readTimeoutMs := x }
  | .writeTimeoutMs => stored (parseInt value cfg.writeTimeoutMs) fun x =>
      { cfg with writeTimeoutMs := x }

/-- The comparisons of `Apply`: the field of a key. -/
def fieldOfKey (key : Bytes) : Option Field :=
  if key = ascii "listen" then some .listen
  else if key = ascii "redis" then some .redis
  else if key = ascii "workers" then some .workers
  else if key = ascii "backend_conns_per_worker" then some .backendConnsPerWorker
  else if key = ascii "max_request_bytes" then some .maxRequestBytes
  else if key = ascii "max_bulk_bytes" then some .maxBulkBytes
  else if key = ascii "max_array_elements" then some .maxArrayElements
  else if key = ascii "max_pipeline_commands_per_read" then some .maxPipelineCommandsPerRead
  else if key = ascii "connect_timeout_ms" then some .connectTimeoutMs
  else if key = ascii "read_timeout_ms" then some .readTimeoutMs
  else if key = ascii "write_timeout_ms" then some .writeTimeoutMs
  else none

/-- `Apply`. -/
def apply (cfg : Config) (key value : Bytes) : Bool × Config :=
  match fieldOfKey key with
  | some f => readField P cfg value f
  | none => (false, cfg)

/-- One round of the loop of `LoadConfigFile`: whether it goes on, and `*out`. -/
def loadLine (out : Config) (line : Bytes) : Bool × Config :=
  let trimmed := trim line
  -- an empty line or a comment
  if trimmed = [] ∨ trimmed.head? = some 35 then (true, out)
  else match keyValue trimmed with
    | none => (false, out)
    | some (key, value) => apply P out (trim key) (trim value)

/-- The loop of `LoadConfigFile` and the check after it. -/
def loadLines : List Bytes → Config → Bool × Config
  | [], out => ((validateConfig out).isNone, out)
  | line :: rest, out =>
      let x := loadLine P out line
      if x.1 then loadLines rest x.2 else (false, x.2)

/-- `LoadConfigFile`: the answer and `*out`. `files` is the content of the files that can be
    opened. -/
def loadConfigFile (path : Bytes) (out : Config) : Bool × Config :=
  match files path with
  | none => (false, out)
  | some content => loadLines P (lines content) out

/-- The comparisons of `LoadConfigFromArgs` for the options that set a field. -/
def fieldOfOption (arg : Bytes) : Option Field :=
  if arg = ascii "--listen" then some .listen
  else if arg = ascii "--redis" then some .redis
  else if arg = ascii "--workers" then some .workers
  else if arg = ascii "--backend-conns" then some .backendConnsPerWorker
  else none

/-- One round of the loop of `LoadConfigFromArgs`, for an argument that is followed by another. -/
def loadOption (arg value : Bytes) (cfg : Config) : Bool × Config :=
  if arg = ascii "--config" then loadConfigFile P files value cfg
  else match fieldOfOption arg with
    | some f => readField P cfg value f
    | none => (false, cfg)

/-- The loop of `LoadConfigFromArgs` and the check after it, on its own `cfg`. -/
def loadArgs : List Bytes → Config → Bool × Config
  | [], cfg => ((validateConfig cfg).isNone, cfg)
  -- no option, or one that lacks its value
  | [_], cfg => (false, cfg)
  | arg :: value :: rest, cfg =>
      let x := loadOption P files arg value cfg
      if x.1 then loadArgs rest x.2 else (false, x.2)

/-- `LoadConfigFromArgs`: the answer and `*out`. `argv[0]` is not looked at. -/
def loadConfigFromArgs (argv : List Bytes) (out : Config) : Bool × Config :=
  let x := loadArgs P files argv.tail {}
  if x.1 then (true, x.2) else (false, out)

end Load

/-- The lines are those that `getline` gives, one after the other. -/
theorem lines_getline (s : Bytes) : lines s =
    match getline s with
    | none => []
    | some (line, rest) => line :: lines rest := by
  induction s with
  | nil => rfl
  | cons c s ih =>
    by_cases hc : c = 10
    · simp [lines, getline, hc]
    · have hcons : getline (c :: s) =
          some (c :: s.takeWhile (· ≠ 10), (s.dropWhile (· ≠ 10)).drop 1) := by
        simp [getline, hc]
      rw [hcons, lines, if_neg hc, ih]
      by_cases hs : s = []
      · subst hs
        rfl
      · simp only [getline, if_neg hs]

/-! ## 4. What a file or an argument vector says -/

section Settings

variable (P : ReadInto Endpoint) (files : Bytes → Option Bytes)

/-- What a text is as a value of a field. -/
def Field.read (value : Bytes) : (f : Field) → Option f.Value
  | .listen | .redis => reading P value
  | .maxRequestBytes | .maxBulkBytes | .maxArrayElements | .maxPipelineCommandsPerRead =>
      reading parseSize value
  | .workers | .backendConnsPerWorker | .connectTimeoutMs | .readTimeoutMs | .writeTimeoutMs =>
      reading parseInt value

/-- The setting of a field to what a text says. -/
def settingOf (value : Bytes) (f : Field) : Option Setting :=
  (f.read P value).map (Sigma.mk f)

/-- What a line of a file says. -/
inductive FileEntry where
  | nothing
  | setting (s : Setting)
  | malformed

/-- A comment or an empty line says nothing; any other must be `key=value` with a known key and a
    value for it. -/
def FileEntry.ofLine (line : Bytes) : FileEntry :=
  let trimmed := trim line
  if trimmed = [] ∨ trimmed.head? = some 35 then .nothing
  else
    let setting := (keyValue trimmed).bind fun (key, value) =>
      (fieldOfKey (trim key)).bind (settingOf P (trim value))
    match setting with
    | some s => .setting s
    | none => .malformed

def FileEntry.isMalformed : FileEntry → Bool
  | .malformed => true
  | _ => false

/-- The settings that stand before the first malformed line. -/
def settingsBefore : List FileEntry → List Setting
  | [] => []
  | .nothing :: es => settingsBefore es
  | .setting s :: es => s :: settingsBefore es
  | .malformed :: _ => []

/-- What a file says, line by line. -/
def entries (content : Bytes) : List FileEntry := (lines content).map (FileEntry.ofLine P)

/-- The settings of a file without a malformed line. -/
def fileSettings (content : Bytes) : Option (List Setting) :=
  if (entries P content).any FileEntry.isMalformed then none
  else some (settingsBefore (entries P content))

/-- The settings of an option with its value; those of `--config` are the settings of the file. -/
def optionSettings (arg value : Bytes) : Option (List Setting) :=
  if arg = ascii "--config" then (files value).bind (fileSettings P)
  else ((fieldOfOption arg).bind (settingOf P value)).map fun s => [s]

/-- The settings of the arguments in order. -/
def argSettings : List Bytes → Option (List Setting)
  | [] => some []
  | [_] => none
  | arg :: value :: rest =>
      (optionSettings P files arg value).bind fun ss => (argSettings rest).map fun ss' => ss ++ ss'

end Settings

/-! ## 5. The functions follow the settings -/

section Follow

variable {P : ReadInto Endpoint} {files : Bytes → Option Bytes}

/-- A setting that is there is made, and the answer says whether it was. -/
def attempt (cfg : Config) : Option Setting → Bool × Config
  | some s => (true, cfg.set s)
  | none => (false, cfg)

theorem stored_eq {α : Type} [Inhabited α] {R : ReadInto α} (hR : Writes R) {value : Bytes}
    {old : α} {put : α → Config} {cfg : Config} {mk : α → Setting} (hold : put old = cfg)
    (hput : ∀ a, cfg.set (mk a) = put a) :
    stored (R value old) put = attempt cfg ((reading R value).map mk) := by
  cases hv : reading R value with
  | none =>
    rw [hR.of_reading_none hv, ← hold]
    rfl
  | some a =>
    rw [hR.of_reading hv, Option.map_some, attempt, hput]
    rfl

/-- Reading into a field sets it or leaves the configuration alone. -/
theorem readField_eq (hP : Writes P) (cfg : Config) (value : Bytes) (f : Field) :
    readField P cfg value f = attempt cfg (settingOf P value f) := by
  unfold readField settingOf Field.read
  cases f with
  | listen | redis => refine stored_eq hP ?_ fun _ => ?_ <;> rfl
  | maxRequestBytes | maxBulkBytes | maxArrayElements | maxPipelineCommandsPerRead =>
    refine stored_eq writes_parseSize ?_ fun _ => ?_ <;> rfl
  | workers | backendConnsPerWorker | connectTimeoutMs | readTimeoutMs | writeTimeoutMs =>
    refine stored_eq writes_parseInt ?_ fun _ => ?_ <;> rfl

/-- **`Apply` makes the setting of its key and value, or leaves the configuration alone.** -/
theorem apply_eq (hP : Writes P) (cfg : Config) (key value : Bytes) :
    apply P cfg key value = attempt cfg ((fieldOfKey key).bind (settingOf P value)) := by
  unfold apply
  cases fieldOfKey key with
  | none => rfl
  | some f => exact readField_eq hP cfg value f

/-- A round of the loop over the lines. -/
theorem loadLine_eq (hP : Writes P) (out : Config) (line : Bytes) :
    loadLine P out line =
      match FileEntry.ofLine P line with
      | .nothing => (true, out)
      | .setting s => (true, out.set s)
      | .malformed => (false, out) := by
  unfold loadLine FileEntry.ofLine
  dsimp only
  split
  · rfl
  · cases keyValue (trim line) with
    | none => rfl
    | some kv =>
      dsimp only [Option.bind_some]
      rw [apply_eq hP]
      cases (fieldOfKey (trim kv.1)).bind (settingOf P (trim kv.2)) <;> rfl

/-- **What `LoadConfigFile` does with the lines**: it makes the settings up to the first malformed
    line, and says yes if there is none and the result passes. -/
theorem loadLines_eq (hP : Writes P) (ls : List Bytes) (out : Config) :
    loadLines P ls out =
      (!(ls.map (FileEntry.ofLine P)).any FileEntry.isMalformed &&
          (validateConfig
            (Config.fields.assign out (settingsBefore (ls.map (FileEntry.ofLine P))))).isNone,
        Config.fields.assign out (settingsBefore (ls.map (FileEntry.ofLine P)))) := by
  induction ls generalizing out with
  | nil => rfl
  | cons line ls ih =>
    rw [loadLines, loadLine_eq hP, List.map_cons]
    cases FileEntry.ofLine P line with
    | nothing => exact ih out
    | setting s => exact ih (out.set s)
    | malformed => rfl

/-- **`LoadConfigFile` makes the settings before the first malformed line**, and succeeds if there
    is no such line and the result passes. -/
theorem loadConfigFile_eq (hP : Writes P) {path content : Bytes} (hfile : files path = some content)
    (out : Config) : loadConfigFile P files path out =
      (!(entries P content).any FileEntry.isMalformed &&
          (validateConfig (Config.fields.assign out (settingsBefore (entries P content)))).isNone,
        Config.fields.assign out (settingsBefore (entries P content))) := by
  unfold loadConfigFile
  rw [hfile]
  exact loadLines_eq hP (lines content) out

/-- A file that is loaded has no malformed line, all its settings are made, and the result
    passes. -/
theorem loadConfigFile_true (hP : Writes P) {path : Bytes} {out : Config}
    (h : (loadConfigFile P files path out).1 = true) :
    ∃ content ss, files path = some content ∧ fileSettings P content = some ss ∧
      (loadConfigFile P files path out).2 = Config.fields.assign out ss ∧
      validateConfig (Config.fields.assign out ss) = none := by
  cases hfile : files path with
  | none =>
    rw [loadConfigFile, hfile] at h
    cases h
  | some content =>
    rw [loadConfigFile_eq hP hfile] at h ⊢
    rw [Bool.and_eq_true, Bool.not_eq_true', Option.isNone_iff_eq_none] at h
    refine ⟨content, settingsBefore (entries P content), rfl, ?_, rfl, h.2⟩
    rw [fileSettings, h.1, if_neg Bool.false_ne_true]

theorem attempt_true {cfg : Config} {x : Option Setting} (h : (attempt cfg x).1 = true) :
    ∃ s, x = some s ∧ (attempt cfg x).2 = Config.fields.assign cfg [s] := by
  cases x with
  | none => cases h
  | some s => exact ⟨s, rfl, rfl⟩

/-- An option that is accepted makes its settings. -/
theorem loadOption_true (hP : Writes P) {arg value : Bytes} {cfg : Config}
    (h : (loadOption P files arg value cfg).1 = true) :
    ∃ ss, optionSettings P files arg value = some ss ∧
      (loadOption P files arg value cfg).2 = Config.fields.assign cfg ss := by
  unfold loadOption optionSettings at *
  split at h
  · rename_i harg
    obtain ⟨content, ss, hfile, hss, hout, _⟩ := loadConfigFile_true hP h
    refine ⟨ss, ?_, ?_⟩
    · rw [if_pos harg, hfile]
      exact hss
    · rw [if_pos harg]
      exact hout
  · rename_i harg
    rw [if_neg harg, if_neg harg]
    cases hf : fieldOfOption arg with
    | none =>
      rw [hf] at h
      cases h
    | some f =>
      rw [hf] at h
      dsimp only at h ⊢
      rw [readField_eq hP] at h ⊢
      obtain ⟨s, hs, hcfg⟩ := attempt_true h
      exact ⟨[s], by rw [Option.bind_some, hs]; rfl, hcfg⟩

/-- **What `LoadConfigFromArgs` has in its own configuration at the end.** -/
theorem loadArgs_true (hP : Writes P) (args : List Bytes) (cfg : Config)
    (h : (loadArgs P files args cfg).1 = true) :
    ∃ ss, argSettings P files args = some ss ∧
      (loadArgs P files args cfg).2 = Config.fields.assign cfg ss ∧
      validateConfig (Config.fields.assign cfg ss) = none := by
  induction args, cfg using loadArgs.induct P files with
  | case1 cfg => exact ⟨[], rfl, rfl, Option.isNone_iff_eq_none.mp h⟩
  | case2 arg cfg => cases h
  | case3 arg value rest cfg x hx ih =>
    obtain ⟨ss, hss, hout⟩ := loadOption_true hP hx
    have hstep : loadArgs P files (arg :: value :: rest) cfg = loadArgs P files rest x.2 := by
      rw [loadArgs, if_pos hx]
    rw [hstep] at h ⊢
    obtain ⟨ss', hss', hout', hvalid⟩ := ih h
    refine ⟨ss ++ ss', ?_, ?_, ?_⟩
    · rw [argSettings, hss, hss']
      rfl
    · rw [hout', hout, Config.fields.assign_append]
    · rw [Config.fields.assign_append, ← hout]
      exact hvalid
  | case4 arg value rest cfg x hx =>
    rw [loadArgs, if_neg hx] at h
    cases h

end Follow

/-! ## 6. All or nothing -/

/-- The configuration passes, and every field has the value its last setting gives it, or the one
    it had at the start. -/
structure Updated (start : Config) (ss : List Setting) (c : Config) : Prop where
  valid : validateConfig c = none
  last : ∀ f, c.value f = (lastFor f ss).getD (start.value f)

theorem updated_assign {start : Config} {ss : List Setting}
    (h : validateConfig (Config.fields.assign start ss) = none) :
    Updated start ss (Config.fields.assign start ss) :=
  ⟨h, Config.fields.value_assign start ss⟩

section AllOrNothing

variable (P : ReadInto Endpoint) (files : Bytes → Option Bytes)

/-- `LoadConfigFile` says no and leaves `*out` as it was, or says yes and `*out` is what it was
    with the settings of the file. -/
def FileAllOrNothing (path : Bytes) (out : Config) : Prop :=
  let x := loadConfigFile P files path out
  (x.1 = false → x.2 = out) ∧
  (x.1 = true → ∃ content ss, files path = some content ∧ fileSettings P content = some ss ∧
    Updated out ss x.2)

/-- `LoadConfigFromArgs` says no and leaves `*out` as it was, or says yes and `*out` is the
    default configuration with the settings of the arguments. -/
def ArgsAllOrNothing (argv : List Bytes) (out : Config) : Prop :=
  let x := loadConfigFromArgs P files argv out
  (x.1 = false → x.2 = out) ∧
  (x.1 = true → ∃ ss, argSettings P files argv.tail = some ss ∧ Updated {} ss x.2)

/-- If the file can be opened, then it has no malformed line and `*out` with its settings passes;
    or else the settings before its first malformed line give no field another value than it has
    in `*out`, the last one of each field counted. -/
def LoadsOrLeaves (path : Bytes) (out : Config) : Prop :=
  ∀ content, files path = some content →
    (∃ ss, fileSettings P content = some ss ∧
      validateConfig (Config.fields.assign out ss) = none) ∨
    ∀ f v, lastFor f (settingsBefore (entries P content)) = some v → v = out.value f

end AllOrNothing

/-- **`LoadConfigFromArgs` writes its result at the end, or nothing.** -/
theorem argsAllOrNothing {P : ReadInto Endpoint} (hP : Writes P) (files : Bytes → Option Bytes)
    (argv : List Bytes) (out : Config) : ArgsAllOrNothing P files argv out := by
  unfold ArgsAllOrNothing loadConfigFromArgs
  dsimp only
  split
  · rename_i hyes
    obtain ⟨ss, hss, hout, hvalid⟩ := loadArgs_true hP argv.tail {} hyes
    refine ⟨(fun h => by cases h), fun _ => ⟨ss, hss, ?_⟩⟩
    rw [hout]
    exact updated_assign hvalid
  · exact ⟨fun _ => rfl, fun h => by cases h⟩

/-- **Loading a configuration is all or nothing, but for files that are given up halfway.** For
    every `*out` and every argument vector, `LoadConfigFromArgs` leaves `*out` alone or makes it
    the defaults with all the settings of the arguments and their files. `LoadConfigFile` leaves
    `*out` alone or makes all the settings of the file, unless a setting stands before a malformed
    line, or before the end of a file whose result does not pass, and gives a field another value
    than it has: that one stays in `*out` although the answer is no. -/
theorem loadConfig_allOrNothing_iff {P : ReadInto Endpoint} (hP : Writes P)
    (files : Bytes → Option Bytes) (path : Bytes) (argv : List Bytes) (out : Config) :
    (FileAllOrNothing P files path out ↔ LoadsOrLeaves P files path out) ∧
      ArgsAllOrNothing P files argv out := by
  refine ⟨⟨fun h content hfile => ?_, fun h => ⟨fun hno => ?_, fun hyes => ?_⟩⟩,
    argsAllOrNothing hP files argv out⟩
  · cases hans : (loadConfigFile P files path out).1 with
    | true =>
      obtain ⟨content', ss, hfile', hss, _, hvalid⟩ := loadConfigFile_true hP hans
      cases hfile.symm.trans hfile'
      exact Or.inl ⟨ss, hss, hvalid⟩
    | false =>
      have hsame := h.1 hans
      rw [loadConfigFile_eq hP hfile] at hsame
      exact Or.inr ((Config.fields.assign_eq_self_iff _ _).mp hsame)
  · cases hfile : files path with
    | none => rw [loadConfigFile, hfile]
    | some content =>
      rw [loadConfigFile_eq hP hfile] at hno ⊢
      rcases h content hfile with ⟨ss, hss, hvalid⟩ | hsame
      · -- such a file is loaded, so the answer was not no
        unfold fileSettings at hss
        split at hss
        · cases hss
        · rename_i hgood
          cases hss
          rw [hvalid, Bool.eq_false_iff.mpr hgood] at hno
          cases hno
      · exact (Config.fields.assign_eq_self_iff _ _).mpr hsame
  · obtain ⟨content, ss, hfile, hss, hout, hvalid⟩ := loadConfigFile_true hP hyes
    refine ⟨content, ss, hfile, hss, ?_⟩
    rw [hout]
    exact updated_assign hvalid

/-- A reader of `host:port` that does what tests/endpoint_test.cpp and tests/config_test.cpp ask
    of `Endpoint::parse`. -/
def hostPort : ReadInto Endpoint := fun v out =>
  let host := v.takeWhile (· ≠ 58)
  let port := (v.dropWhile (· ≠ 58)).drop 1
  if host = [] ∨ ¬ Decimal port ∨ decimal port = 0 ∨ 65536 ≤ decimal port then (false, out)
  else (true, ⟨String.ofList (host.map fun c => Char.ofNat c.toNat), decimal port⟩)

theorem writes_hostPort : Writes hostPort := writes_ite

-- what the tests refuse, and the endpoint they accept
example : (["127.0.0.1", "127.0.0.1:0", "127.0.0.1:70000", "invalid", ":6379", "host:"].map
      fun v => (hostPort (ascii v) default).1) = List.replicate 6 false ∧
    hostPort (ascii "127.0.0.1:6380") default = (true, ⟨"127.0.0.1", 6380⟩) := by
  decide +kernel

/-- A file whose last line asks for more connections than there may be. -/
def tooMany : Bytes :=
  ascii "# eight workers\nworkers = 8\n\nbackend_conns_per_worker = 9\n"

/-- `LoadConfigFile` refuses the file and leaves its settings behind. -/
theorem loadConfigFile_tooMany :
    loadConfigFile hostPort (fun _ => some tooMany) (ascii "proxy.conf") {} =
        (false, { workers := 8, backendConnsPerWorker := 9 }) ∧
      ¬ FileAllOrNothing hostPort (fun _ => some tooMany) (ascii "proxy.conf") {} := by
  have hload : loadConfigFile hostPort (fun _ => some tooMany) (ascii "proxy.conf") {} =
      (false, { workers := 8, backendConnsPerWorker := 9 }) := by decide +kernel
  refine ⟨hload, fun h => ?_⟩
  have hsame := h.1 (congrArg Prod.fst hload)
  rw [hload] at hsame
  exact absurd hsame (by decide)

/-- The files of a host that has one, with settings that pass. -/
def proxyConf (path : Bytes) : Option Bytes :=
  if path = ascii "proxy.conf" then some (ascii "listen = 0.0.0.0:7000\nworkers = 2\n") else none

/-- An argument vector with a file and an option that overrides it. -/
def confAndWorkers : List Bytes :=
  [ascii "redis_proxy", ascii "--config", ascii "proxy.conf", ascii "--workers", ascii "4"]

theorem loadConfig_allOrNothing_iff_confAndWorkers :
    (FileAllOrNothing hostPort proxyConf (ascii "proxy.conf") {} ↔
      LoadsOrLeaves hostPort proxyConf (ascii "proxy.conf") {}) ∧
    ArgsAllOrNothing hostPort proxyConf confAndWorkers {} ∧
    loadConfigFromArgs hostPort proxyConf confAndWorkers {} =
      (true, { listen := ⟨"0.0.0.0", 7000⟩, workers := 4 }) := by
  obtain ⟨hfile, hargs⟩ := loadConfig_allOrNothing_iff writes_hostPort proxyConf
    (ascii "proxy.conf") confAndWorkers {}
  exact ⟨hfile, hargs, by decide +kernel⟩

end RedisProxy
