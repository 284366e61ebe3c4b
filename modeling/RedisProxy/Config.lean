/-
  File:      RedisProxy/Config.lean
  Subject:   `Config` and `ValidateConfig` (include/redis_proxy/config.h, src/config.cpp).

  `Endpoint` is the class of the connection library; the proxy only stores it. The fields of
  type `int` are integers here, because a configuration may hold negative ones until it is
  checked.
-/
import Mathlib.Logic.Basic

namespace RedisProxy

/-- `conn_util::Endpoint`. -/
structure Endpoint where
  host : String
  port : Nat
  deriving DecidableEq, Repr, Inhabited

structure Config where
  listen : Endpoint := ⟨"127.0.0.1", 6379⟩
  redis : Endpoint := ⟨"127.0.0.1", 6380⟩
  workers : Int := 1
  backendConnsPerWorker : Int := 1
  maxRequestBytes : Nat := 512 * 1024 * 1024
  maxBulkBytes : Nat := 512 * 1024 * 1024
  maxArrayElements : Nat := 1024 * 1024
  maxPipelineCommandsPerRead : Nat := 1024 * 1024
  connectTimeoutMs : Int := 5000
  readTimeoutMs : Int := 30000
  writeTimeoutMs : Int := 30000
  deriving DecidableEq, Repr

/-- How many channels `BackendPool` makes, counting from 0 up to `backend_conns_per_worker`. -/
def Config.channels (c : Config) : Nat := c.backendConnsPerWorker.toNat

/-- `ValidateConfig`: the message of the first check that fails. -/
def validateConfig (c : Config) : Option String :=
  if c.workers ≤ 0 then some "workers must be positive"
  else if c.backendConnsPerWorker ≤ 0 ∨ 4 < c.backendConnsPerWorker then
    some "backend_conns_per_worker must be 1..4"
  else if c.maxRequestBytes = 0 ∨ c.maxBulkBytes = 0 ∨ c.maxArrayElements = 0 ∨
      c.maxPipelineCommandsPerRead = 0 then
    some "limits must be positive"
  else none

/-- The limits of a configuration that passes are positive. -/
theorem limits_pos_of_valid {c : Config} (h : validateConfig c = none) :
    0 < c.maxRequestBytes ∧ 0 < c.maxPipelineCommandsPerRead := by
  unfold validateConfig at h
  split at h
  · cases h
  · split at h
    · cases h
    · split at h
      · cases h
      · omega

end RedisProxy
