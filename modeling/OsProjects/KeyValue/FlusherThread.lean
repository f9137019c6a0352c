import OsProjects.KeyValue.LogfsRuns

/-!
# The flusher thread (`logfs.c`)

One client thread appends, reads and at last closes, and the flusher thread serves its
requests. A program counter names the next lock, unlock, wait, signal or guarded block of
a thread; the guarded blocks are the functions of `Logfs`. A step that has to wait for the
other thread is `none`. The history notes the requests, the passes of the flusher and the
moments in which the client finds its request served.
-/
namespace OsProjects.KeyValue
open OsProjects.Library

inductive Tid where
  | client
  | flusher
  deriving DecidableEq, Repr

/-- What follows a wait for the flusher: the end of `logfs_append`, another attempt of it to add
the bytes, or the copying of `logfs_read`. -/
inductive Cont where
  | finish
  | retry (buf : Bytes)
  | read (off len : Nat) (rand : Nat → Nat)

/-- The value a request gives to `dont_dequeue_wb`. -/
def Cont.mode : Cont → Bool
  | .read .. => true
  | _ => false

inductive ClientPc where
  | idle
  | lockAdd (buf : Bytes)
  | add (buf : Bytes)
  | test
  | unlockAdd
  /-- `flush_in_progress` is raised under `done_flush_m`. -/
  | lockRaise (c : Cont)
  | raise (c : Cont)
  | unlockRaise (c : Cont)
  | lockPost (c : Cont)
  | post (c : Cont)
  | signal (c : Cont)
  | unlockPost (c : Cont)
  | lockWait (c : Cont)
  | check (c : Cont)
  | waiting (c : Cont)
  | woken (c : Cont)
  | unlockWait (c : Cont)
  | lockRead (off len : Nat) (rand : Nat → Nat)
  | copy (off len : Nat) (rand : Nat → Nat)
  | unlockRead
  /-- `logfs_read` returns -1 and keeps `do_flush_m`. -/
  | failed
  | lockClose
  | close
  | signalClose
  | unlockClose
  | join
  | closed

inductive FlusherPc where
  | waiting
  | woken
  | check
  | pass
  | exitTest
  | lockDone
  | clear
  | signal
  | unlockDone
  | returned
  deriving DecidableEq, Repr

inductive SyncEvent where
  | post (mode : Bool)
  | pass (mode : Bool)
  | leave
  | close
  deriving DecidableEq, Repr

structure Threads where
  client : ClientPc
  flusher : FlusherPc
  doFlushM : Option Tid
  doneFlushM : Option Tid
  flushAvailable : Bool
  exitFlusher : Bool
  flushInProgress : Bool
  lfs : Logfs
  history : List SyncEvent

inductive ClientCall where
  | call (c : LogCall)
  | close

def ClientCall.start : ClientCall → ClientPc
  | .call (.append buf) => .lockAdd buf
  | .call (.read off len rand) => .lockRaise (.read off len rand)
  | .close => .lockClose

/-- An append holds `do_flush_m` while it raises `flush_in_progress`, a read takes it afterwards. -/
def Cont.posting : Cont → ClientPc
  | .read off len rand => .lockPost (.read off len rand)
  | c => .post c

def Cont.next : Cont → ClientPc
  | .finish => .idle
  | .retry buf => .lockAdd buf
  | .read off len rand => .lockRead off len rand

/-- `pthread_cond_signal` -/
def ClientPc.wake : ClientPc → ClientPc
  | .waiting c => .woken c
  | pc => pc

def FlusherPc.wake : FlusherPc → FlusherPc
  | .waiting => .woken
  | pc => pc

abbrev Attempt := Option (Except Fault Threads)

def Threads.go (s : Threads) : Attempt := some (.ok s)

def Threads.lockDo (s : Threads) (t : Tid) (next : Threads) : Attempt :=
  if s.doFlushM = none then { next with doFlushM := some t }.go else none

def Threads.lockDone (s : Threads) (t : Tid) (next : Threads) : Attempt :=
  if s.doneFlushM = none then { next with doneFlushM := some t }.go else none

/-- The next step of the client; an idle client makes the call. -/
def clientStep (call : ClientCall) (s : Threads) : Attempt :=
  match s.client with
  | .idle => { s with client := call.start }.go
  | .lockAdd buf => s.lockDo .client { s with client := .add buf }
  | .add buf =>
    match writeBufferAdd s.lfs.writeBuffer buf with
    | (0, wb) => { s with lfs := { s.lfs with writeBuffer := wb }, client := .test }.go
    | _ => { s with client := .lockRaise (.retry buf) }.go
  | .test =>
    if s.lfs.device.block ≤ logfsWbAvail s.lfs then { s with client := .lockRaise .finish }.go
    else { s with client := .unlockAdd }.go
  | .unlockAdd => { s with doFlushM := none, client := .lockWait .finish }.go
  | .lockRaise c => s.lockDone .client { s with client := .raise c }
  | .raise c => { s with flushInProgress := true, client := .unlockRaise c }.go
  | .unlockRaise c => { s with doneFlushM := none, client := c.posting }.go
  | .lockPost c => s.lockDo .client { s with client := .post c }
  | .post c =>
    { s with
      flushAvailable := true
      lfs := { s.lfs with dontDequeueWb := c.mode }
      client := .signal c
      history := s.history ++ [SyncEvent.post c.mode] }.go
  | .signal c => { s with flusher := s.flusher.wake, client := .unlockPost c }.go
  | .unlockPost c => { s with doFlushM := none, client := .lockWait c }.go
  | .lockWait c => s.lockDone .client { s with client := .check c }
  | .check c =>
    if s.flushInProgress then { s with doneFlushM := none, client := .waiting c }.go
    else { s with client := .unlockWait c, history := s.history ++ [SyncEvent.leave] }.go
  | .waiting _ => none
  | .woken c => s.lockDone .client { s with client := .check c }
  | .unlockWait c => { s with doneFlushM := none, client := c.next }.go
  | .lockRead off len rand => s.lockDo .client { s with client := .copy off len rand }
  | .copy off len rand =>
    match readBlocks rand (len + 1) s.lfs off len with
    | .error f => some (.error f)
    | .ok (none, lfs) => { s with lfs := lfs, client := .failed }.go
    | .ok (some _, lfs) => { s with lfs := lfs, client := .unlockRead }.go
  | .unlockRead => { s with doFlushM := none, client := .idle }.go
  | .failed => { s with client := .idle }.go
  | .lockClose => s.lockDo .client { s with client := .close }
  | .close =>
    { s with
      flushAvailable := true
      exitFlusher := true
      client := .signalClose
      history := s.history ++ [SyncEvent.close] }.go
  | .signalClose => { s with flusher := s.flusher.wake, client := .unlockClose }.go
  | .unlockClose => { s with doFlushM := none, client := .join }.go
  | .join => if s.flusher = .returned then { s with client := .closed }.go else none
  | .closed => none

/-- The next step of the flusher. A wait gives `do_flush_m` back. -/
def flusherStep (s : Threads) : Attempt :=
  match s.flusher with
  | .waiting => none
  | .woken => s.lockDo .flusher { s with flusher := .check }
  | .check =>
    if ¬ s.exitFlusher ∧ ¬ s.flushAvailable then
      { s with doFlushM := none, flusher := .waiting }.go
    else if s.flushAvailable then { s with flusher := .pass }.go
    else { s with flusher := .exitTest }.go
  | .pass =>
    match flusherPass s.lfs with
    | .error f => some (.error f)
    | .ok lfs =>
      { s with
        lfs := lfs
        flushAvailable := false
        flusher := .exitTest
        history := s.history ++ [SyncEvent.pass s.lfs.dontDequeueWb] }.go
  | .exitTest =>
    if s.exitFlusher then { s with flusher := .returned }.go
    else { s with flusher := .lockDone }.go
  | .lockDone => s.lockDone .flusher { s with flusher := .clear }
  | .clear => { s with flushInProgress := false, flusher := .signal }.go
  | .signal => { s with client := s.client.wake, flusher := .unlockDone }.go
  | .unlockDone => { s with doneFlushM := none, flusher := .check }.go
  | .returned => none

/-- A step of either thread, or a wake-up without a signal. -/
inductive ThreadStep (s : Threads) : Threads → Prop where
  | client {s' : Threads} (call : ClientCall) : clientStep call s = some (.ok s') → ThreadStep s s'
  | flusher {s' : Threads} : flusherStep s = some (.ok s') → ThreadStep s s'
  | wakeClient (c : Cont) : s.client = .waiting c → ThreadStep s { s with client := .woken c }
  | wakeFlusher : s.flusher = .waiting → ThreadStep s { s with flusher := .woken }

/-- An opened logfs whose flusher waits for its first request. -/
def Threads.start (lfs : Logfs) : Threads where
  client := .idle
  flusher := .waiting
  doFlushM := none
  doneFlushM := none
  flushAvailable := false
  exitFlusher := false
  flushInProgress := false
  lfs := lfs
  history := []

/-- The states of a run in which no read fails. -/
inductive Reaches (lfs : Logfs) : Threads → Prop where
  | start : Reaches lfs (.start lfs)
  | step {s s' : Threads} : Reaches lfs s → ThreadStep s s' → s'.client ≠ .failed → Reaches lfs s'

end OsProjects.KeyValue
