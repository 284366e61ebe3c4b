/-
  File:      RedisProxy/Status.lean
  Subject:   `Status` (include/redis_proxy/status.h).
-/
import Mathlib.Logic.Basic

namespace RedisProxy

inductive StatusCode where
  | kOk | kInvalidArgument | kIoError | kProtocolError | kClosed
  deriving DecidableEq, Repr

structure Status where
  code : StatusCode
  message : String
  deriving DecidableEq, Repr

namespace Status

def okStatus : Status := ⟨.kOk, ""⟩

def ioError (message : String) : Status := ⟨.kIoError, message⟩

def protocolError (message : String) : Status := ⟨.kProtocolError, message⟩

def closed (message : String) : Status := ⟨.kClosed, message⟩

def ok (s : Status) : Bool := s.code == .kOk

end Status

end RedisProxy
