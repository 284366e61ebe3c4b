import RedisProxy.Lib.Machine
import RedisProxy.Lib.History
import RedisProxy.Signal
import RedisProxy.Socket
import RedisProxy.Channel.Model
import RedisProxy.Channel.Lifecycle
import RedisProxy.Channel.Line
import RedisProxy.Channel.Ledger
import RedisProxy.Channel.Delivery
import RedisProxy.Channel.Outcome
import RedisProxy.Channel.Stream
import RedisProxy.Buffer.Pool
import RedisProxy.Buffer.Heap
import RedisProxy.BackendPool
import RedisProxy.CommandRules
import RedisProxy.Session.Model
import RedisProxy.Session.Invariant
import RedisProxy.Worker.Model
import RedisProxy.Channel.Service
import RedisProxy.Worker.Moves
import RedisProxy.Worker.Invariant
import RedisProxy.Lib.Incremental
import RedisProxy.Resp.Decode
import RedisProxy.Worker.Accounts
import RedisProxy.Worker.Lifetime
import RedisProxy.Channel.Wakeup
import RedisProxy.Worker.Wakeup
import RedisProxy.Resp.Frames
import RedisProxy.Session.Reference
import RedisProxy.Session.Parsing
import RedisProxy.Worker.Intake
import RedisProxy.Channel.Counter
import RedisProxy.Config.Numbers
import RedisProxy.Resp.History
import RedisProxy.Channel.Replies
import RedisProxy.Buffer.Queue
import RedisProxy.Worker.Handoff
import RedisProxy.Session.Answers
import RedisProxy.Worker.Answers
import RedisProxy.Channel.Requests
import RedisProxy.Session.Places
import RedisProxy.Worker.Peers
import RedisProxy.Config.Load
import RedisProxy.Session.Arity
import RedisProxy.Lib.Dealing
import RedisProxy.Server
import RedisProxy.Buffer.Contents
import RedisProxy.Buffer.Store
import RedisProxy.Channel.Shutdown
import RedisProxy.Session.Ending
import RedisProxy.Worker.Ending
import RedisProxy.Worker.Quiet
import RedisProxy.Lib.Custody
import RedisProxy.Socket.Ownership
import RedisProxy.Worker.Wire
