/-
  File:      RedisProxy/Worker/Model.lean
  Subject:   ONE WORKER: the sessions, the pool and its channels under one scheduler
             (src/worker.cpp and what it drives).

  Coroutines of one thread run one at a time, so a step of the worker is a step of one of them
  from one place to the next, and any order of steps is a schedule. While a channel calls back
  into a session only that call goes on; `Worker.idle` says that no such call is in progress,
  which is what a scheduling point is.

  A session lives at an address. Addresses are used again: `accept` takes any free one, as the
  allocator may, and `born` counts the sessions so that one address can be told from another
  session's.

  Every channel of a worker is a channel by itself (`channel_reachable` in Worker/Moves.lean): what
  it sees is calls of its interface and steps of its own coroutines, so all that holds of every run
  of a channel holds here.
-/
import RedisProxy.Session.Model
import RedisProxy.Channel.Outcome

namespace RedisProxy

open Lib

/-! ## 1. The worker -/

structure Worker (n : Nat) where
  pool : BackendPool n
  sessions : Owner → Option (ClientSession n)
  finished : List Owner
  born : Nat

/-- A step of the worker. `accept` and `reap` are the worker's own coroutine, `start` and `stop`
    the calls of `BackendPool::start` and `stop` channel by channel, `run` and `read` the
    coroutines of a channel, `reader` and `writer` those of a session. The last three are the
    calls in progress: `failConnection` calls its next owner, a session's callback runs, a call
    of the channel itself returns. -/
inductive WorkerAct (n : Nat) where
  | accept (a : Owner)
  | reap
  | start (c : Fin n)
  | stop (c : Fin n)
  | run (c : Fin n) (i : Nat) (io : BackendChannel.RunIo)
  | read (c : Fin n) (i : Nat) (io : BackendChannel.ReaderIo)
  | reader (a : Owner) (io : ClientSession.SessionReaderIo)
  | writer (a : Owner) (io : ClientSession.SessionWriterIo)
  | next (c : Fin n) (a : Owner)
  | callback (c : Fin n)
  | ret (c : Fin n)

namespace Worker

variable {n : Nat}

/-- `Worker::Worker`. -/
def init (E : Env) : Worker n := ⟨.init E.blockSize E.blockSize_pos, fun _ => none, [], 0⟩

/-- No callback is in progress. -/
def idle (w : Worker n) : Bool := decide (∀ c, (w.pool c).frames.isEmpty = true)

def setChannel (w : Worker n) (c : Fin n) (ch : BackendChannel) : Worker n :=
  { w with pool := Function.update w.pool c ch }

def setSession (w : Worker n) (a : Owner) (s : ClientSession n) : Worker n :=
  { w with sessions := Function.update w.sessions a (some s) }

/-- The worker after a step of the coroutines of session `a`; `on_finished_` puts it on the
    list. -/
def moved (w : Worker n) (a : Owner) (x : ClientSession n × BackendPool n × Bool) : Worker n :=
  { w.setSession a x.1 with
    pool := x.2.1
    finished := if x.2.2 then w.finished ++ [a] else w.finished }

/-- The callback on top of the stack of channel `c`, up to its return. -/
def callback (w : Worker n) (c : Fin n) : Option (Worker n) :=
  match (w.pool c).frames with
  | .onReply a reply :: _ =>
      (w.sessions a).bind fun s => (w.pool c).ret.map fun ch =>
        (w.setChannel c ch).setSession a (s.onBackendReply reply)
  | .onFailure a :: _ =>
      (w.sessions a).bind fun s => ((s.abort a w.pool).2 c).ret.map fun ch =>
        ({ w with pool := (s.abort a w.pool).2 }.setChannel c ch).setSession a (s.abort a w.pool).1
  | _ => none

/-- The return of `failConnection` after its last owner, and of `stop()`. -/
def ret (w : Worker n) (c : Fin n) : Option (Worker n) :=
  match (w.pool c).frames with
  | .failing _ [] :: _ => (w.pool c).ret.map (w.setChannel c)
  | .stopTail :: _ => (w.pool c).ret.map (w.setChannel c)
  | _ => none

/-- What happens at a scheduling point. -/
def resume (E : Env) (w : Worker n) : WorkerAct n → Option (Worker n)
  | .accept a =>
      if (w.sessions a).isNone then
        some { w.setSession a (.init E w.born) with born := w.born + 1 }
      else none
  | .reap => some { w with
      sessions := fun a => if a ∈ w.finished then none else w.sessions a
      finished := [] }
  | .start c => some (w.setChannel c ((w.pool c).start E.config))
  | .stop c => some (w.setChannel c (w.pool c).stop)
  | .run c i io => ((w.pool c).runTask i io).map (w.setChannel c)
  | .read c i io => ((w.pool c).readerTask E.unpackOne i io).map (w.setChannel c)
  | .reader a io =>
      (w.sessions a).bind fun s => (s.readerStep E a w.pool io).map (w.moved a)
  | .writer a io =>
      (w.sessions a).bind fun s => (s.writerStep E a w.pool io).map (w.moved a)
  | _ => none

def step (E : Env) (w : Worker n) : WorkerAct n → Option (Worker n)
  | .next c a => ((w.pool c).next a).map (w.setChannel c)
  | .callback c => w.callback c
  | .ret c => w.ret c
  | act => if w.idle then w.resume E act else none

/-- **The machine of one worker.** -/
def machine (E : Env) : Machine (Worker E.config.channels)
    (WorkerAct E.config.channels) :=
  ⟨init E, step E⟩

end Worker

end RedisProxy
