import OSChallenges.Library.Words
import Mathlib.Logic.Function.Basic
import Mathlib.Tactic.Simps.Basic

/-!
# The thread library of `threads.c`

One processor runs the thread `currentThreadID`; `schedule` saves and loads contexts with `setjmp` and
`longjmp`. The state holds the library's global and static variables, the mutex and barrier objects
the program owns, and the context on the processor. A step is one library call of the running thread
up to the point where it returns or enters `schedule`, or one alarm. Two things are recorded that
the program itself does not store: `trace`, what each call did, and the round in which a thread
waits on a barrier.
-/

namespace OSChallenges.Threads

/-- `MAX_THREADS`, the length of every table of the library. -/
def maxThreads : Nat := 128

/-- `enum thread_status`: `TS_EXITED` is the zero of static memory. -/
inductive ThreadStatus
  | exited
  | running
  | ready
  | blocked
  deriving DecidableEq, Repr

/-- What a thread inside the library waits for. The round of a barrier is counted by the model only. -/
inductive Wait
  | mutex (m : Nat)
  | barrier (b round : Nat)
  deriving DecidableEq, Repr

/-- Where a context goes on: in the program's own code, at the `schedule(14)` of a call that has
queued its thread, behind that `schedule(14)`, or behind the `schedule(0)` of `pthread_exit`. -/
inductive Point
  | user
  | callSchedule (w : Wait)
  | resume (w : Wait)
  | exiting
  deriving DecidableEq, Repr

/-- What `setjmp` saves: where the thread goes on, and its registers and stack. -/
structure Context where
  point : Point
  regs : Nat
  deriving DecidableEq, Repr

/-- `struct thread_control_block`. -/
structure ThreadControlBlock where
  threadID : Nat
  buf : Context
  bufReturnVal : Nat
  status : ThreadStatus
  deriving DecidableEq, Repr

/-- `struct counts`. -/
structure Counts where
  maxCount : Int
  currentCount : Int
  printSerialThread : Bool
  deriving DecidableEq, Repr

/-- The fields of `pthread_mutex_t` that the library uses. -/
structure MutexData where
  count : Nat
  lock : Nat
  owner : Nat
  deriving DecidableEq, Repr

/-- What a step did, as an observer of the calls and of `setjmp` and `longjmp` sees it. -/
inductive Event
  | mutexInit (m : Nat)
  | mutexDestroy (m : Nat)
  | acquired (t m : Nat)
  | queued (t m : Nat)
  | released (t m : Nat)
  | granted (t m : Nat)
  | returned (t m : Nat)
  | barrierInit (b : Nat)
  | barrierDestroy (b : Nat)
  | arrived (t b : Nat)
  | completed (b : Nat)
  | left (t b round : Nat) (serial : Bool)
  | created (t : Nat) (context : Context)
  | exited (t : Nat)
  | stopped (t : Nat) (context : Context)
  | loaded (t : Nat) (context : Context)
  deriving DecidableEq, Repr

structure State where
  currentThreadID : Nat
  numOfThreads : Nat
  tcbList : Nat → ThreadControlBlock
  mutexThreadLists : Nat → List Nat
  barrierThreadLists : Nat → List Nat
  barrierCounts : Nat → Counts
  /-- `static int topThread` of `schedule`. -/
  topThread : Nat
  /-- `static int exitedThreads` of `pthread_exit`. -/
  exitedThreads : Nat
  /-- `static bool is_first_call` of `pthread_create`. -/
  isFirstCall : Bool
  /-- `static int id` of `pthread_mutex_init`. -/
  mutexId : Nat
  /-- `static int id` of `pthread_barrier_init`. -/
  barrierId : Nat
  /-- Whether `ualarm` is armed. -/
  alarm : Bool
  /-- The mutex objects of the program, by address. -/
  mutexes : Nat → MutexData
  /-- The `__align` of the barrier objects of the program, by address. -/
  barriers : Nat → Nat
  /-- The context of the running thread. -/
  cpu : Context
  /-- The events so far, the latest first. -/
  trace : List Event

/-- Why a run does not go on after a step. -/
inductive Stop
  /-- `exit(0)`. -/
  | exit
  /-- `schedule` searches for ever: no thread is ready or running. -/
  | spin
  /-- A table is indexed at `MAX_THREADS` or beyond. -/
  | overrun
  /-- `SIGALRM` arrives before its handler is installed. -/
  | killed
  /-- The running thread is not where it could make this step. -/
  | unavailable
  deriving DecidableEq, Repr

namespace State

def status (s : State) (t : Nat) : ThreadStatus := (s.tcbList t).status

def buf (s : State) (t : Nat) : Context := (s.tcbList t).buf

@[simps] def setStatus (s : State) (t : Nat) (status : ThreadStatus) : State :=
  { s with tcbList := Function.update s.tcbList t { s.tcbList t with status := status } }

@[simps] def setBuf (s : State) (t : Nat) (buf : Context) : State :=
  { s with tcbList := Function.update s.tcbList t { s.tcbList t with buf := buf } }

@[simps] def setPoint (s : State) (point : Point) : State :=
  { s with cpu := { s.cpu with point := point } }

@[simps] def setMutex (s : State) (m : Nat) (data : MutexData) : State :=
  { s with mutexes := Function.update s.mutexes m data }

@[simps] def setMutexList (s : State) (id : Nat) (list : List Nat) : State :=
  { s with mutexThreadLists := Function.update s.mutexThreadLists id list }

@[simps] def setBarrierList (s : State) (id : Nat) (list : List Nat) : State :=
  { s with barrierThreadLists := Function.update s.barrierThreadLists id list }

@[simps] def setCounts (s : State) (id : Nat) (counts : Counts) : State :=
  { s with barrierCounts := Function.update s.barrierCounts id counts }

@[simps] def log (s : State) (e : Event) : State := { s with trace := e :: s.trace }

/-- `lock()`: `ualarm(0,0)`. -/
@[simps] def lock (s : State) : State := { s with alarm := false }

/-- `unlock()`: `ualarm(SCHEDULER_INTERVAL_USECS,SCHEDULER_INTERVAL_USECS)`. -/
@[simps] def unlock (s : State) : State := { s with alarm := true }

/-- A thread that `schedule` does not skip. -/
def Runnable (s : State) (t : Nat) : Prop := s.status t ≠ .exited ∧ s.status t ≠ .blocked

instance (s : State) (t : Nat) : Decidable (s.Runnable t) :=
  inferInstanceAs (Decidable (_ ∧ _))

end State

open State Words

/-! ### Scheduling -/

/-- `topThread++`, back to 0 past `numOfThreads`. -/
def advance (s : State) (topThread : Nat) : Nat :=
  if topThread + 1 = s.numOfThreads + 1 then 0 else topThread + 1

/-- The `do ... while` of `schedule`: advance, and go on while the thread has exited or is blocked. The
first argument bounds the number of rounds; `search_spin` shows that `numOfThreads + 1` rounds are
enough. -/
def search (s : State) : Nat → Nat → Except Stop Nat
  | 0, _ => .error .spin
  | rounds + 1, topThread =>
    if maxThreads ≤ advance s topThread then .error .overrun
    else if s.Runnable (advance s topThread) then .ok (advance s topThread)
    else search s rounds (advance s topThread)

/-- The first statement of `schedule`: a thread that neither exited nor blocked stays ready. -/
def markReady (s : State) : State :=
  if s.Runnable s.topThread then s.setStatus s.topThread .ready else s

/-- The end of both branches of `schedule`: `longjmp` to the thread that the search found. -/
def switchTo (s : State) (t : Nat) : State :=
  ({ s.setStatus t .running with topThread := t, currentThreadID := t, cpu := s.buf t }).log
    (.loaded t (s.buf t))

def schedule (s : State) : Except Stop State :=
  let s := markReady (s.log (.stopped s.currentThreadID s.cpu))
  if s.status s.topThread = .exited then
    (search s (s.numOfThreads + 1) s.topThread).map (switchTo s)
  else
    let s := s.setBuf s.topThread s.cpu
    (search s (s.numOfThreads + 1) s.topThread).map (switchTo s)

/-! ### Mutexes -/

/-- A new mutex takes the next entry of the table and is free. -/
@[simps] def addMutex (s : State) (m : Nat) : State :=
  { s with
    mutexes := Function.update s.mutexes m { s.mutexes m with count := s.mutexId, lock := 1 }
    mutexThreadLists := Function.update s.mutexThreadLists s.mutexId []
    mutexId := s.mutexId + 1
    trace := .mutexInit m :: s.trace }

def pthreadMutexInit (s : State) (m : Nat) : Except Stop State :=
  if maxThreads ≤ s.mutexId then .error .overrun
  else .ok (addMutex s m)

/-- The list's nodes are freed, its head stays in the table. -/
def pthreadMutexDestroy (s : State) (m : Nat) : Except Stop State :=
  if maxThreads ≤ (s.mutexes m).count then .error .overrun
  else .ok (s.log (.mutexDestroy m))

/-- The waiting branch of `pthread_mutex_lock`, up to its `schedule(14)`. -/
def queueOnMutex (s : State) (m : Nat) : State :=
  let id := (s.mutexes m).count
  let s := s.setStatus s.currentThreadID .blocked
  let s := s.setMutexList id (s.mutexThreadLists id ++ [s.currentThreadID])
  (s.unlock.setPoint (.callSchedule (.mutex m))).log (.queued s.currentThreadID m)

def pthreadMutexLock (s : State) (m : Nat) : Except Stop State :=
  let s := s.lock
  if (s.mutexes m).lock ≠ 0 then
    let s := s.setMutex m { s.mutexes m with lock := 0, owner := s.currentThreadID }
    .ok (s.unlock.log (.acquired s.currentThreadID m))
  else if maxThreads ≤ (s.mutexes m).count then .error .overrun
  else .ok (queueOnMutex s m)

/-- The `__owner` of a mutex that `pthread_mutex_unlock` found without waiters. -/
def noOwner : Nat := 149311

def pthreadMutexUnlock (s : State) (m : Nat) : Except Stop State :=
  let s := s.lock
  let id := (s.mutexes m).count
  if maxThreads ≤ id then .error .overrun
  else
    let s := s.log (.released s.currentThreadID m)
    match s.mutexThreadLists id with
    | [] => .ok (s.setMutex m { s.mutexes m with lock := 0, owner := noOwner }).unlock
    | threadID :: rest =>
      let s := s.setStatus threadID .ready
      .ok ((s.setMutexList id rest).unlock.log (.granted threadID m))

/-! ### Barriers -/

/-- The rounds of a barrier that an arrival has completed. -/
def completions (b : Nat) (trace : List Event) : Nat := trace.count (.completed b)

/-- A new barrier takes the next entry of the three tables. -/
@[simps] def addBarrier (s : State) (b : Nat) (maxCount : Int) : State :=
  { s with
    barriers := Function.update s.barriers b s.barrierId
    barrierCounts := Function.update s.barrierCounts s.barrierId ⟨maxCount, 0, true⟩
    barrierThreadLists := Function.update s.barrierThreadLists s.barrierId []
    barrierId := s.barrierId + 1
    trace := .barrierInit b :: s.trace }

/-- A count of 0 is refused with `EINVAL`. -/
def pthreadBarrierInit (s : State) (b count : Nat) : Except Stop State :=
  if count = 0 then .ok s
  else if maxThreads ≤ s.barrierId then .error .overrun
  else .ok (addBarrier s b (toInt32 count))

/-- The list's nodes are freed, its head stays in the table. -/
def pthreadBarrierDestroy (s : State) (b : Nat) : Except Stop State :=
  if maxThreads ≤ s.barriers b then .error .overrun
  else .ok (s.log (.barrierDestroy b))

/-- The loop over a barrier's list: every thread on it becomes ready. -/
def wakeAll (tcbList : Nat → ThreadControlBlock) : List Nat → Nat → ThreadControlBlock
  | [] => tcbList
  | threadID :: rest =>
    wakeAll (Function.update tcbList threadID { tcbList threadID with status := .ready }) rest

@[simps] def wake (s : State) (list : List Nat) : State :=
  { s with tcbList := wakeAll s.tcbList list }

/-- The end of `pthread_barrier_wait`: the call returns `PTHREAD_BARRIER_SERIAL_THREAD` if
`printSerialThread` is set, and clears it. -/
@[simps] def leaveBarrier (s : State) (b round : Nat) : State :=
  let counts := s.barrierCounts (s.barriers b)
  { s with
    barrierCounts := Function.update s.barrierCounts (s.barriers b)
      { counts with printSerialThread := false }
    cpu := { s.cpu with point := .user }
    trace := .left s.currentThreadID b round counts.printSerialThread :: s.trace }

/-- The counters of a barrier after one more arrival, which sets `printSerialThread` again if an
earlier round has cleared it. -/
def Counts.arrival (counts : Counts) : Counts :=
  { counts with currentCount := counts.currentCount + 1, printSerialThread := true }

/-- The waiting branch of `pthread_barrier_wait`, up to its `schedule(14)`. -/
def queueOnBarrier (s : State) (b : Nat) : State :=
  let id := s.barriers b
  let round := completions b s.trace
  let s := (s.setCounts id (s.barrierCounts id).arrival).log (.arrived s.currentThreadID b)
  let s := s.setStatus s.currentThreadID .blocked
  let s := s.setBarrierList id (s.barrierThreadLists id ++ [s.currentThreadID])
  s.unlock.setPoint (.callSchedule (.barrier b round))

/-- The other branch: the round is complete, every thread on the list becomes ready and the call
returns. The list itself stays as it is. -/
def completeRound (s : State) (b : Nat) : State :=
  let id := s.barriers b
  let round := completions b s.trace
  let s := (s.setCounts id { (s.barrierCounts id).arrival with currentCount := 0 }).log
    (.arrived s.currentThreadID b)
  let s := (wake s (s.barrierThreadLists id)).log (.completed b)
  leaveBarrier s.unlock b round

def pthreadBarrierWait (s : State) (b : Nat) : Except Stop State :=
  let s := s.lock
  let counts := (s.barrierCounts (s.barriers b)).arrival
  if maxThreads ≤ s.barriers b then .error .overrun
  else if counts.maxCount ≠ counts.currentCount then .ok (queueOnBarrier s b)
  else .ok (completeRound s b)

/-! ### Creation and exit -/

/-- The thread control block of a new thread; `regs` is what its registers and stack hold. -/
@[simps] def addThread (s : State) (regs : Nat) : State :=
  { s with
    tcbList := Function.update s.tcbList s.numOfThreads
      ⟨s.numOfThreads, ⟨.user, regs⟩, s.numOfThreads, .ready⟩
    trace := .created s.numOfThreads ⟨.user, regs⟩ :: s.trace }

@[simps] def schedulerInit (s : State) : State :=
  { s with
    alarm := true
    tcbList := Function.update s.tcbList 0
      { s.tcbList 0 with threadID := 0, bufReturnVal := 131914, status := .ready } }

/-- `malloc` may fail. The limit is tested on the old `numOfThreads` and the new one is the index, so
the call that makes it 128 is outside the table. -/
def pthreadCreate (s : State) (mallocOk : Bool) (regs : Nat) : Except Stop (Int × State) :=
  let refused := maxThreads ≤ s.numOfThreads
  let s := { s with numOfThreads := s.numOfThreads + 1 }
  if refused then .ok (-1, s)
  else if !mallocOk then .ok (-1, s)
  else if maxThreads ≤ s.numOfThreads then .error .overrun
  else
    let s := addThread s regs
    if s.isFirstCall then .ok (0, schedulerInit { s with isFirstCall := false })
    else .ok (0, s)

/-- The start of `pthread_exit`: the thread has exited, and counts unless it is main. -/
@[simps] def markExited (s : State) : State :=
  { s with
    tcbList := (s.setStatus s.currentThreadID .exited).tcbList
    cpu := { s.cpu with point := .exiting }
    trace := .exited s.currentThreadID :: s.trace
    exitedThreads := if s.currentThreadID ≠ 0 then s.exitedThreads + 1 else s.exitedThreads }

/-- `longjmp` to main from `pthread_exit`; `topThread` of `schedule` keeps its value. -/
@[simps] def jumpToMain (s : State) : State :=
  { s with
    currentThreadID := 0
    tcbList := (s.setStatus 0 .running).tcbList
    cpu := s.buf 0
    trace := .loaded 0 (s.buf 0) :: .stopped s.currentThreadID s.cpu :: s.trace }

def pthreadExit (s : State) : Except Stop State :=
  let s := markExited s
  if s.exitedThreads ≠ s.numOfThreads then schedule s
  else if s.status 0 ≠ .exited then .ok (jumpToMain s)
  else .error .exit

def pthreadSelf (s : State) : Nat := s.currentThreadID

/-! ### Steps -/

inductive Action
  /-- The running thread computes: its registers and stack change. -/
  | compute (regs : Nat)
  /-- `SIGALRM` is delivered. -/
  | timer
  | create (mallocOk : Bool) (regs : Nat)
  | exit
  | mutexInit (m : Nat)
  | mutexDestroy (m : Nat)
  | mutexLock (m : Nat)
  | mutexUnlock (m : Nat)
  | barrierInit (b count : Nat)
  | barrierDestroy (b : Nat)
  | barrierWait (b : Nat)
  /-- The running thread goes on with the library call it is inside. -/
  | proceed
  deriving DecidableEq, Repr

/-- What follows inside the library: the `schedule(14)` of a call that has queued its thread, or the
code behind it once the thread runs again. -/
def proceed (s : State) : Except Stop State :=
  match s.cpu.point with
  | .user => .error .unavailable
  | .callSchedule w => schedule (s.setPoint (.resume w))
  | .resume (.mutex m) => .ok ((s.setPoint .user).log (.returned s.currentThreadID m))
  | .resume (.barrier b round) => .ok (leaveBarrier s b round)
  | .exiting => .error .exit

/-- A call of the program's own code. -/
def call (s : State) : Action → Except Stop State
  | .compute regs => .ok { s with cpu := ⟨.user, regs⟩ }
  | .create mallocOk regs => (pthreadCreate s mallocOk regs).map Prod.snd
  | .exit => pthreadExit s
  | .mutexInit m => pthreadMutexInit s m
  | .mutexDestroy m => pthreadMutexDestroy s m
  | .mutexLock m => pthreadMutexLock s m
  | .mutexUnlock m => pthreadMutexUnlock s m
  | .barrierInit b count => pthreadBarrierInit s b count
  | .barrierDestroy b => pthreadBarrierDestroy s b
  | .barrierWait b => pthreadBarrierWait s b
  | .timer | .proceed => .error .unavailable

def step (s : State) (a : Action) : Except Stop State :=
  if a = .timer then
    if !s.alarm then .error .unavailable
    else if s.isFirstCall then .error .killed
    else schedule s
  else if a = .proceed then proceed s
  else if s.cpu.point = .user then call s a
  else .error .unavailable

/-- The process at the entry of `main`: static memory is zero, the objects and registers of the
program hold anything. -/
def initial (mutexes : Nat → MutexData) (barriers : Nat → Nat) (regs : Nat) : State where
  currentThreadID := 0
  numOfThreads := 0
  tcbList := fun _ => ⟨0, ⟨.user, 0⟩, 0, .exited⟩
  mutexThreadLists := fun _ => []
  barrierThreadLists := fun _ => []
  barrierCounts := fun _ => ⟨0, 0, false⟩
  topThread := 0
  exitedThreads := 0
  isFirstCall := true
  mutexId := 0
  barrierId := 0
  alarm := false
  mutexes := mutexes
  barriers := barriers
  cpu := ⟨.user, regs⟩
  trace := []

end OSChallenges.Threads
