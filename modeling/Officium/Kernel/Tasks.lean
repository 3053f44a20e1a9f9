import Officium.Library.Plays

/-! The kernel's executor, the two tasks it is started with and the interrupt handlers that wake
them, one operation at a time. Queues and waker cells are atomic; an interrupt handler runs to
its end between any two operations of the main thread while interrupts are enabled. -/
namespace Officium.Tasks
open Plays (play)

/- The shell is `TaskId(0)`, the synth `TaskId(1)`. -/
inductive TaskId where
  | shell
  | synth
  deriving DecidableEq

/- The static waker cells: `keyboard::WAKER`, `SLEEP_WAKER` and `SYNTH_WAKER`. -/
inductive Cell where
  | key
  | sleep
  | synth
  deriving DecidableEq

structure Wakers where
  key : Option TaskId
  sleep : Option TaskId
  synth : Option TaskId
  deriving DecidableEq

def Wakers.get (w : Wakers) : Cell → Option TaskId
  | .key => w.key
  | .sleep => w.sleep
  | .synth => w.synth

def Wakers.put (w : Wakers) (cell : Cell) (id : Option TaskId) : Wakers :=
  match cell with
  | .key => { w with key := id }
  | .sleep => { w with sleep := id }
  | .synth => { w with synth := id }

/- Where the shell's future goes on when it is polled. -/
inductive ShellFuture where
  | start
  | key
  | sleep (target : UInt64)
  | yielded
  deriving DecidableEq

inductive SynthFuture where
  | start
  | refill
  | finished
  deriving DecidableEq

/- The next operation of a poll of the shell; `free` is its own code between two awaits. -/
inductive ShellPc where
  | start
  | free
  | keyFirst
  | keyRegister
  | keySecond
  | keyTake (byte : UInt8)
  | sleepFirst (target : UInt64)
  | sleepRegister (target : UInt64)
  | sleepSecond (target : UInt64)
  | yieldNow
  deriving DecidableEq

inductive SynthPc where
  | start
  | refillFirst
  | refillRegister
  | refillSecond
  | fill (mask : UInt8)
  deriving DecidableEq

/- The next operation of the main thread. In `idle` interrupts are off. -/
inductive Pc where
  | pop
  | shell (at_ : ShellPc)
  | synth (at_ : SynthPc)
  | disable
  | idle
  | halted
  deriving DecidableEq

/- The last three fields are history: the bytes the handlers queued, the bytes the stream yielded, and
how many awaits since the CPU last halted were settled by their second check. -/
structure System where
  pc : Pc
  taskQueue : List TaskId
  scancodes : List UInt8
  streaming : Bool
  refillMask : UInt8
  ticks : UInt64
  wakers : Wakers
  shell : ShellFuture
  synth : SynthFuture
  pushed : List UInt8
  yielded : List UInt8
  late : Nat
  deriving DecidableEq

inductive Stop where
  | panic
  | disabled
  deriving DecidableEq

def capacity : Nat := 100

/- `expect("task_queue full")` -/
def wakeTask (id : TaskId) (s : System) : Except Stop System :=
  if s.taskQueue.length < capacity then .ok { s with taskQueue := s.taskQueue ++ [id] }
  else .error .panic

/- `AtomicWaker`: registering replaces, waking removes what is registered and invokes it. -/
def register (cell : Cell) (id : TaskId) (s : System) : System := { s with wakers := s.wakers.put cell (some id) }

def take (cell : Cell) (s : System) : System := { s with wakers := s.wakers.put cell none }

def wake (cell : Cell) (s : System) : Except Stop System :=
  match s.wakers.get cell with
  | some id => wakeTask id (take cell s)
  | none => .ok s

section Handlers

/- One keyboard byte read from the controller; a full queue drops it. -/
def receive (s : System) (byte : UInt8) : Except Stop System :=
  if s.streaming && s.scancodes.length < capacity then
    wake .key { s with scancodes := s.scancodes ++ [byte], pushed := s.pushed ++ [byte] }
  else .ok s

def drainController (s : System) (bytes : List UInt8) : Except Stop System := play receive s bytes

def timerInterrupt (bytes : List UInt8) (s : System) : Except Stop System := do
  let s ← wake .sleep { s with ticks := s.ticks + 1 }
  drainController s bytes

def keyboardInterrupt (bytes : List UInt8) (s : System) : Except Stop System := drainController s bytes

/- `handle_irq` with the mask of the buffers completed since the last one. -/
def soundInterrupt (mask : UInt8) (s : System) : Except Stop System :=
  if mask = 0 then .ok s else wake .synth { s with refillMask := s.refillMask ||| mask }

end Handlers

/- What the shell's own code may await next. -/
inductive Await where
  | key
  | sleep (ms : UInt64)
  | yieldNow

/- `main` is the main thread's next operation, `await` the shell's own code coming to an await,
`absent` the synth task finding no card. -/
inductive Event where
  | main
  | await (next : Await)
  | absent
  | timer (bytes : List UInt8)
  | keyboard (bytes : List UInt8)
  | sound (mask : UInt8)

def divCeil (a b : UInt64) : UInt64 := a / b + (if a % b = 0 then 0 else 1)

/- `sleep_ms` up to its await. -/
def sleepTarget (ticks ms : UInt64) : UInt64 := ticks + max (divCeil ms 55) 1

def resumeShell : ShellFuture → ShellPc
  | .start => .start
  | .key => .keyFirst
  | .sleep target => .sleepFirst target
  | .yielded => .free

/- `while let Some(task_id) = task_queue.pop()`, up to the poll; a finished task is passed over. -/
def popTask (s : System) : System :=
  match s.taskQueue with
  | [] => { s with pc := .disable }
  | .shell :: rest => { s with taskQueue := rest, pc := .shell (resumeShell s.shell) }
  | .synth :: rest =>
    match s.synth with
    | .start => { s with taskQueue := rest, pc := .synth .start }
    | .refill => { s with taskQueue := rest, pc := .synth .refillFirst }
    | .finished => { s with taskQueue := rest, pc := .pop }

def shellStep (s : System) : ShellPc → Except Stop System
  | .start => .ok { s with streaming := true, pc := .shell .free }
  | .free => .error .disabled
  | .keyFirst =>
    match s.scancodes with
    | byte :: rest => .ok { s with scancodes := rest, yielded := s.yielded ++ [byte], pc := .shell .free }
    | [] => .ok { s with pc := .shell .keyRegister }
  | .keyRegister => .ok { register .key .shell s with pc := .shell .keySecond }
  | .keySecond =>
    match s.scancodes with
    | byte :: rest => .ok { s with scancodes := rest, pc := .shell (.keyTake byte), late := s.late + 1 }
    | [] => .ok { s with shell := .key, pc := .pop }
  | .keyTake byte => .ok { take .key s with yielded := s.yielded ++ [byte], pc := .shell .free }
  | .sleepFirst target =>
    if target ≤ s.ticks then .ok { s with pc := .shell .free } else .ok { s with pc := .shell (.sleepRegister target) }
  | .sleepRegister target => .ok { register .sleep .shell s with pc := .shell (.sleepSecond target) }
  | .sleepSecond target =>
    if target ≤ s.ticks then .ok { s with pc := .shell .free, late := s.late + 1 }
    else .ok { s with shell := .sleep target, pc := .pop }
  | .yieldNow => wakeTask .shell { s with shell := .yielded, pc := .pop }

def synthStep (s : System) : SynthPc → System
  | .start => { s with pc := .synth .refillFirst }
  | .refillFirst =>
    if s.refillMask = 0 then { s with pc := .synth .refillRegister }
    else { s with refillMask := 0, pc := .synth (.fill s.refillMask) }
  | .refillRegister => { register .synth .synth s with pc := .synth .refillSecond }
  | .refillSecond =>
    if s.refillMask = 0 then { s with synth := .refill, pc := .pop }
    else { s with refillMask := 0, pc := .synth (.fill s.refillMask), late := s.late + 1 }
  | .fill _ => { s with pc := .synth .refillFirst }

/- `run` is `run_ready_tasks` and `sleep_if_idle` in turn. -/
def mainStep (s : System) : Except Stop System :=
  match s.pc with
  | .pop => .ok (popTask s)
  | .shell at_ => shellStep s at_
  | .synth at_ => .ok (synthStep s at_)
  | .disable => .ok { s with pc := .idle }
  | .idle => if s.taskQueue = [] then .ok { s with pc := .halted, late := 0 } else .ok { s with pc := .pop }
  | .halted => .error .disabled

def awaitStep (next : Await) (s : System) : Except Stop System :=
  match s.pc with
  | .shell .free =>
    match next with
    | .key => .ok { s with pc := .shell .keyFirst }
    | .sleep ms => .ok { s with pc := .shell (.sleepFirst (sleepTarget s.ticks ms)) }
    | .yieldNow => .ok { s with pc := .shell .yieldNow }
  | _ => .error .disabled

/- Before and after a handler: none runs in `idle`, and one ends a halt. -/
def interrupted (handler : System → Except Stop System) (s : System) : Except Stop System :=
  match s.pc with
  | .idle => .error .disabled
  | .halted => handler { s with pc := .pop }
  | _ => handler s

def step (s : System) : Event → Except Stop System
  | .main => mainStep s
  | .await next => awaitStep next s
  | .absent =>
    match s.pc with
    | .synth .start => .ok { s with synth := .finished, pc := .pop }
    | _ => .error .disabled
  | .timer bytes => interrupted (timerInterrupt bytes) s
  | .keyboard bytes => interrupted (keyboardInterrupt bytes) s
  | .sound mask => interrupted (soundInterrupt mask) s

/- After the two `spawn`s of `kernel_main`. -/
def boot : System :=
  ⟨.pop,[.shell,.synth],[],false,0,0,⟨none,none,none⟩,.start,.start,[],[],0⟩

end Officium.Tasks
