import Officium.Kernel.Tasks

/-! No wake-up and no scancode is lost. A task suspended on a cell is registered there as long as what it
waits for has not come, and queued from then on; every handler and every operation of the main
thread keeps it so. -/
namespace Officium.Tasks
open Plays (play playInvariant)

/- The task the main thread is polling. -/
def polled : Pc → Option TaskId
  | .shell _ => some .shell
  | .synth _ => some .synth
  | _ => none

/- The byte popped but not yet handed to the stream's caller. -/
def held : Pc → List UInt8
  | .shell (.keyTake byte) => [byte]
  | _ => []

structure Awake (s : System) : Prop where
  key : polled s.pc ≠ some .shell → s.shell = .key → s.scancodes ≠ [] → .shell ∈ s.taskQueue
  sleep : ∀ target, polled s.pc ≠ some .shell → s.shell = .sleep target → target ≤ s.ticks → .shell ∈ s.taskQueue
  refill : polled s.pc ≠ some .synth → s.synth = .refill → s.refillMask ≠ 0 → .synth ∈ s.taskQueue
  halted : s.pc = .halted → s.taskQueue = []
  bytes : s.yielded ++ held s.pc ++ s.scancodes = s.pushed

/- A waker is in its cell or has been invoked since. -/
def Armed (s : System) (cell : Cell) (id : TaskId) : Prop := s.wakers.get cell = some id ∨ id ∈ s.taskQueue

def Watched (s : System) (cell : Cell) (id : TaskId) (due : Prop) : Prop :=
  ¬ due ∧ s.wakers.get cell = some id ∨ id ∈ s.taskQueue

def ShellParked (s : System) : ShellFuture → Prop
  | .key => Watched s .key .shell (s.scancodes ≠ [])
  | .sleep target => Watched s .sleep .shell (target ≤ s.ticks)
  | _ => .shell ∈ s.taskQueue

def SynthParked (s : System) : SynthFuture → Prop
  | .start => .synth ∈ s.taskQueue
  | .refill => Watched s .synth .synth (s.refillMask ≠ 0)
  | .finished => True

def ShellSafe (s : System) : Pc → Prop
  | .shell .keySecond => Armed s .key .shell
  | .shell (.sleepSecond _) => Armed s .sleep .shell
  | .shell _ => True
  | _ => ShellParked s s.shell

def SynthSafe (s : System) : Pc → Prop
  | .synth .refillSecond => Armed s .synth .synth
  | .synth _ => True
  | _ => SynthParked s s.synth

structure Safe (s : System) : Prop where
  shell : ShellSafe s s.pc
  synth : SynthSafe s s.pc
  halted : s.pc = .halted → s.taskQueue = []
  bytes : s.yielded ++ held s.pc ++ s.scancodes = s.pushed

section Wakers
variable {s t : System}

theorem wakeTaskCases {id : TaskId} (h : wakeTask id s = .ok t) :
    s.taskQueue.length < capacity ∧ t = { s with taskQueue := s.taskQueue ++ [id] } := by
  unfold wakeTask at h
  split at h
  · rename_i room
    cases h
    exact ⟨room,rfl⟩
  · cases h

theorem wakeCases {cell : Cell} (h : wake cell s = .ok t) : s.wakers.get cell = none ∧ t = s ∨
    ∃ id, s.wakers.get cell = some id ∧ s.taskQueue.length < capacity ∧
      t = { take cell s with taskQueue := s.taskQueue ++ [id] } := by
  unfold wake at h
  split at h
  · rename_i id found
    obtain ⟨room,rfl⟩ := wakeTaskCases h
    exact .inr ⟨id,found,room,rfl⟩
  · rename_i found
    cases h
    exact .inl ⟨found,rfl⟩

theorem getPut (w : Wakers) (cell cell' : Cell) (id : Option TaskId) :
    (w.put cell id).get cell' = if cell = cell' then id else w.get cell' := by
  cases cell <;> cases cell' <;> rfl

end Wakers

section Handlers

/- Whoever was registered in the cell is queued now. -/
def Rung (s t : System) (cell : Cell) : Prop := ∀ id, s.wakers.get cell = some id → id ∈ t.taskQueue

/- What a handler may do: whatever changes what a cell's task waits for rings that cell. -/
structure Handled (s t : System) : Prop where
  pc : t.pc = s.pc
  shell : t.shell = s.shell
  synth : t.synth = s.synth
  queue : ∀ id ∈ s.taskQueue, id ∈ t.taskQueue
  rings : ∀ cell, t.wakers.get cell = s.wakers.get cell ∨ Rung s t cell
  key : t.scancodes = s.scancodes ∨ Rung s t .key
  sleep : t.ticks = s.ticks ∨ Rung s t .sleep
  refill : t.refillMask = s.refillMask ∨ Rung s t .synth
  yielded : t.yielded = s.yielded
  bytes : ∃ more, t.scancodes = s.scancodes ++ more ∧ t.pushed = s.pushed ++ more

variable {s t u : System}

theorem handledSame (s : System) : Handled s s :=
  ⟨rfl,rfl,rfl,fun _ mem => mem,fun _ => .inl rfl,.inl rfl,.inl rfl,.inl rfl,rfl,[],(List.append_nil _).symm,(List.append_nil _).symm⟩

theorem rungBefore {cell : Cell} (queue : ∀ id ∈ t.taskQueue, id ∈ u.taskQueue) (h : Rung s t cell) : Rung s u cell :=
  fun id found => queue id (h id found)

/- A cell rung by the second of two handlers was rung by the first or still held its waker. -/
theorem rungAfter {cell : Cell} (first : Handled s t) (second : Handled t u) (h : Rung t u cell) : Rung s u cell := by
  rcases first.rings cell with same | rung
  · intro id found
    exact h id (same.trans found)
  · exact rungBefore second.queue rung

theorem handledTrans (first : Handled s t) (second : Handled t u) : Handled s u := by
  have both : ∀ (cell : Cell) (p q r : Prop), (p ∨ Rung s t cell) → (q ∨ Rung t u cell) → (p → q → r) → r ∨ Rung s u cell := by
    intro cell p q r before after still
    rcases before with p | rung
    · rcases after with q | rung
      · exact .inl (still p q)
      · exact .inr (rungAfter first second rung)
    · exact .inr (rungBefore second.queue rung)
  obtain ⟨m,queued,pushed⟩ := first.bytes
  obtain ⟨m',queued',pushed'⟩ := second.bytes
  exact {
    pc := second.pc.trans first.pc
    shell := second.shell.trans first.shell
    synth := second.synth.trans first.synth
    queue := fun id mem => second.queue id (first.queue id mem)
    rings := fun cell => both cell _ _ _ (first.rings cell) (second.rings cell) (fun p q => q.trans p)
    key := both _ _ _ _ first.key second.key (fun p q => q.trans p)
    sleep := both _ _ _ _ first.sleep second.sleep (fun p q => q.trans p)
    refill := both _ _ _ _ first.refill second.refill (fun p q => q.trans p)
    yielded := second.yielded.trans first.yielded
    bytes := ⟨m ++ m',by rw [queued',queued,List.append_assoc],by rw [pushed',pushed,List.append_assoc]⟩ }

theorem wakeRings {cell : Cell} (h : wake cell s = .ok t) : Rung s t cell := by
  intro id found
  rcases wakeCases h with ⟨none_,-⟩ | ⟨id',some_,-,rfl⟩
  · rw [none_] at found
    cases found
  · cases some_.symm.trans found
    exact List.mem_append_right _ (List.mem_singleton_self _)

theorem wakeTaskHandled {id : TaskId} (h : wakeTask id s = .ok t) : Handled s t := by
  obtain ⟨-,rfl⟩ := wakeTaskCases h
  exact ⟨rfl,rfl,rfl,fun _ mem => List.mem_append_left _ mem,fun _ => .inl rfl,.inl rfl,.inl rfl,.inl rfl,rfl,[],
    (List.append_nil _).symm,(List.append_nil _).symm⟩

theorem wakeHandled {cell : Cell} (h : wake cell s = .ok t) : Handled s t := by
  have rung := wakeRings h
  rcases wakeCases h with ⟨-,rfl⟩ | ⟨id,some_,-,rfl⟩
  · exact handledSame _
  · refine ⟨rfl,rfl,rfl,fun _ mem => List.mem_append_left _ mem,fun cell' => ?_,.inl rfl,.inl rfl,.inl rfl,rfl,[],
      (List.append_nil _).symm,(List.append_nil _).symm⟩
    by_cases same : cell = cell'
    · subst same
      exact .inr rung
    · exact .inl ((getPut ..).trans (if_neg same))

/- What the handler changes before it wakes only makes its own cell's task due. -/
theorem receiveHandled {byte : UInt8} (h : receive s byte = .ok t) : Handled s t := by
  unfold receive at h
  split at h
  · have rung := wakeRings h
    have rest := wakeHandled h
    obtain ⟨more,queued,pushed⟩ := rest.bytes
    exact ⟨rest.pc,rest.shell,rest.synth,rest.queue,rest.rings,.inr rung,rest.sleep,rest.refill,rest.yielded,
      byte :: more,by rw [queued,List.append_assoc]; rfl,by rw [pushed,List.append_assoc]; rfl⟩
  · cases h
    exact handledSame s

theorem drainHandled {bytes : List UInt8} (h : drainController s bytes = .ok t) : Handled s t :=
  playInvariant (Handled s) (fun _ _ _ before next => handledTrans before (receiveHandled next)) (handledSame s) h

theorem timerHandled {bytes : List UInt8} (h : timerInterrupt bytes s = .ok t) : Handled s t := by
  unfold timerInterrupt at h
  cases ticked : wake .sleep { s with ticks := s.ticks + 1 } with
  | error stop =>
    rw [ticked] at h
    cases h
  | ok u =>
    rw [ticked] at h
    have rung := wakeRings ticked
    have rest := wakeHandled ticked
    have first : Handled s u := ⟨rest.pc,rest.shell,rest.synth,rest.queue,rest.rings,rest.key,.inr rung,rest.refill,
      rest.yielded,rest.bytes⟩
    exact handledTrans first (drainHandled h)

theorem soundHandled {mask : UInt8} (h : soundInterrupt mask s = .ok t) : Handled s t := by
  unfold soundInterrupt at h
  split at h
  · cases h
    exact handledSame s
  · have rung := wakeRings h
    have rest := wakeHandled h
    exact ⟨rest.pc,rest.shell,rest.synth,rest.queue,rest.rings,rest.key,rest.sleep,.inr rung,rest.yielded,rest.bytes⟩

end Handlers

section Steps
variable {s t : System}

theorem armedHandled {cell : Cell} {id : TaskId} (h : Handled s t) (armed : Armed s cell id) : Armed t cell id := by
  rcases armed with here | queued
  · rcases h.rings cell with same | rung
    · exact .inl (same.trans here)
    · exact .inr (rung id here)
  · exact .inr (h.queue id queued)

theorem watchedHandled {cell : Cell} {id : TaskId} {due due' : Prop} (h : Handled s t) (same : (due' → due) ∨ Rung s t cell)
    (watched : Watched s cell id due) : Watched t cell id due' := by
  rcases watched with ⟨not,here⟩ | queued
  · rcases h.rings cell with kept | rung
    · rcases same with same | rung
      · exact .inl ⟨fun due' => not (same due'),kept.trans here⟩
      · exact .inr (rung id here)
    · exact .inr (rung id here)
  · exact .inr (h.queue id queued)

theorem shellParkedHandled (h : Handled s t) {future : ShellFuture} (parked : ShellParked s future) : ShellParked t future := by
  cases future with
  | start => exact h.queue _ parked
  | yielded => exact h.queue _ parked
  | key => exact watchedHandled h (h.key.imp_left (fun same => by rw [same]; exact id)) parked
  | sleep target => exact watchedHandled h (h.sleep.imp_left (fun same => by rw [same]; exact id)) parked

theorem synthParkedHandled (h : Handled s t) {future : SynthFuture} (parked : SynthParked s future) : SynthParked t future := by
  cases future with
  | start => exact h.queue _ parked
  | refill => exact watchedHandled h (h.refill.imp_left (fun same => by rw [same]; exact id)) parked
  | finished => trivial

theorem safeHandled (safe : Safe s) (running : s.pc ≠ .halted) (h : Handled s t) : Safe t := by
  obtain ⟨more,queued,pushed⟩ := h.bytes
  refine ⟨?_,?_,fun halted => absurd (h.pc.symm.trans halted) running,?_⟩
  · have before := safe.shell
    rw [h.pc]
    unfold ShellSafe at before ⊢
    rw [h.shell]
    split at before
    · exact armedHandled h before
    · exact armedHandled h before
    · trivial
    · exact shellParkedHandled h before
  · have before := safe.synth
    rw [h.pc]
    unfold SynthSafe at before ⊢
    rw [h.synth]
    split at before
    · exact armedHandled h before
    · trivial
    · exact synthParkedHandled h before
  · rw [h.yielded,h.pc,queued,pushed,← List.append_assoc,safe.bytes]

/- Popping one task's id leaves the other's where it is. -/
theorem queuedPop {id other : TaskId} {rest : List TaskId} (first : s.taskQueue = other :: rest) (differ : id ≠ other)
    (queued : id ∈ s.taskQueue) : id ∈ rest := by
  rw [first] at queued
  exact (List.mem_cons.mp queued).resolve_left differ

theorem watchedPop {cell : Cell} {id other : TaskId} {due : Prop} {rest : List TaskId} (first : s.taskQueue = other :: rest)
    (differ : id ≠ other) (watched : Watched s cell id due) : Watched { s with taskQueue := rest } cell id due :=
  watched.imp_right (queuedPop first differ)

theorem shellParkedPop {rest : List TaskId} (first : s.taskQueue = .synth :: rest) {future : ShellFuture}
    (parked : ShellParked s future) : ShellParked { s with taskQueue := rest } future := by
  cases future with
  | start => exact queuedPop first nofun parked
  | yielded => exact queuedPop first nofun parked
  | key => exact watchedPop first nofun parked
  | sleep target => exact watchedPop first nofun parked

theorem synthParkedPop {rest : List TaskId} (first : s.taskQueue = .shell :: rest) {future : SynthFuture}
    (parked : SynthParked s future) : SynthParked { s with taskQueue := rest } future := by
  cases future with
  | start => exact queuedPop first nofun parked
  | refill => exact watchedPop first nofun parked
  | finished => trivial

theorem resumeSafe (future : ShellFuture) :
    ShellSafe s (.shell (resumeShell future)) ∧ held (.shell (resumeShell future)) = [] := by
  cases future with
  | start => exact ⟨trivial,rfl⟩
  | key => exact ⟨trivial,rfl⟩
  | sleep target => exact ⟨trivial,rfl⟩
  | yielded => exact ⟨trivial,rfl⟩

theorem popSafe (safe : Safe s) (here : s.pc = .pop) : Safe (popTask s) := by
  obtain ⟨shell,synth,-,bytes⟩ := safe
  rw [here] at shell synth bytes
  unfold popTask
  split
  · exact ⟨shell,synth,nofun,bytes⟩
  · rename_i rest first
    obtain ⟨polled,none_⟩ := resumeSafe s.shell
    exact ⟨polled,synthParkedPop first synth,nofun,(congrArg (s.yielded ++ · ++ s.scancodes) none_).trans bytes⟩
  · rename_i rest first
    have parked := shellParkedPop first shell
    split
    · exact ⟨parked,trivial,nofun,bytes⟩
    · exact ⟨parked,trivial,nofun,bytes⟩
    · rename_i finished
      refine ⟨parked,?_,nofun,bytes⟩
      simp only [SynthSafe,finished,SynthParked]

/- A second check that finds nothing leaves the task registered, or it was woken meanwhile. -/
theorem suspendWatched {cell : Cell} {id : TaskId} {due : Prop} (armed : Armed s cell id) (not : ¬ due) :
    Watched s cell id due := armed.imp_left (fun here => ⟨not,here⟩)

theorem shellStepSafe (safe : Safe s) {at_ : ShellPc} (here : s.pc = .shell at_) (h : shellStep s at_ = .ok t) : Safe t := by
  obtain ⟨shell,synth,-,bytes⟩ := safe
  rw [here] at shell synth bytes
  cases at_ with
  | start => cases h; exact ⟨trivial,synth,nofun,bytes⟩
  | free => cases h
  | keyFirst =>
    simp only [shellStep] at h
    split at h
    · rename_i byte rest queued
      cases h
      refine ⟨trivial,synth,nofun,?_⟩
      rw [← bytes,queued]
      simp [held]
    · cases h
      exact ⟨trivial,synth,nofun,bytes⟩
  | keyRegister => cases h; exact ⟨.inl rfl,synth,nofun,bytes⟩
  | keySecond =>
    simp only [shellStep] at h
    split at h
    · rename_i byte rest queued
      cases h
      refine ⟨trivial,synth,nofun,?_⟩
      rw [← bytes,queued]
      simp [held]
    · rename_i empty
      cases h
      exact ⟨suspendWatched shell (fun some_ => some_ empty),synth,nofun,bytes⟩
  | keyTake byte =>
    cases h
    exact ⟨trivial,synth,nofun,by simpa [held,take] using bytes⟩
  | sleepFirst target =>
    simp only [shellStep] at h
    split at h
    · cases h
      exact ⟨trivial,synth,nofun,bytes⟩
    · cases h
      exact ⟨trivial,synth,nofun,bytes⟩
  | sleepRegister target => cases h; exact ⟨.inl rfl,synth,nofun,bytes⟩
  | sleepSecond target =>
    simp only [shellStep] at h
    split at h
    · cases h
      exact ⟨trivial,synth,nofun,bytes⟩
    · rename_i early
      cases h
      exact ⟨suspendWatched shell early,synth,nofun,bytes⟩
  | yieldNow =>
    obtain ⟨-,rfl⟩ := wakeTaskCases h
    have queued := wakeTaskHandled h
    exact ⟨List.mem_append_right _ (List.mem_singleton_self _),synthParkedHandled queued synth,nofun,bytes⟩

theorem synthStepSafe (safe : Safe s) {at_ : SynthPc} (here : s.pc = .synth at_) : Safe (synthStep s at_) := by
  obtain ⟨shell,synth,-,bytes⟩ := safe
  rw [here] at shell synth bytes
  cases at_ with
  | start => exact ⟨shell,trivial,nofun,bytes⟩
  | refillFirst =>
    simp only [synthStep]
    split
    · exact ⟨shell,trivial,nofun,bytes⟩
    · exact ⟨shell,trivial,nofun,bytes⟩
  | refillRegister => exact ⟨shell,.inl rfl,nofun,bytes⟩
  | refillSecond =>
    simp only [synthStep]
    split
    · rename_i empty
      exact ⟨shell,suspendWatched synth (fun some_ => some_ empty),nofun,bytes⟩
    · exact ⟨shell,trivial,nofun,bytes⟩
  | fill mask => exact ⟨shell,trivial,nofun,bytes⟩

theorem mainStepSafe (safe : Safe s) (h : mainStep s = .ok t) : Safe t := by
  unfold mainStep at h
  split at h
  · rename_i here
    cases h
    exact popSafe safe here
  · rename_i at_ here
    exact shellStepSafe safe here h
  · rename_i at_ here
    cases h
    exact synthStepSafe safe here
  · rename_i here
    obtain ⟨shell,synth,-,bytes⟩ := safe
    rw [here] at shell synth bytes
    cases h
    exact ⟨shell,synth,nofun,bytes⟩
  · rename_i here
    obtain ⟨shell,synth,-,bytes⟩ := safe
    rw [here] at shell synth bytes
    split at h
    · rename_i empty
      cases h
      exact ⟨shell,synth,fun _ => empty,bytes⟩
    · cases h
      exact ⟨shell,synth,nofun,bytes⟩
  · cases h

theorem awaitStepSafe {next : Await} (safe : Safe s) (h : awaitStep next s = .ok t) : Safe t := by
  unfold awaitStep at h
  split at h
  · rename_i here
    obtain ⟨shell,synth,-,bytes⟩ := safe
    rw [here] at synth bytes
    cases next <;> (cases h; exact ⟨trivial,synth,nofun,bytes⟩)
  · cases h

/- A handler that ends a halt finds the state safe with the halt already over. -/
theorem interruptedSafe {handler : System → Except Stop System} (handled : ∀ {s t}, handler s = .ok t → Handled s t)
    (safe : Safe s) (h : interrupted handler s = .ok t) : Safe t := by
  unfold interrupted at h
  split at h
  · cases h
  · rename_i here
    obtain ⟨shell,synth,-,bytes⟩ := safe
    rw [here] at shell synth bytes
    have risen : Safe { s with pc := .pop } := ⟨shell,synth,nofun,bytes⟩
    exact safeHandled risen nofun (handled h)
  · rename_i running
    exact safeHandled safe running (handled h)

theorem stepSafe (e : Event) (safe : Safe s) (h : step s e = .ok t) : Safe t := by
  cases e with
  | main => exact mainStepSafe safe h
  | await next => exact awaitStepSafe safe h
  | absent =>
    simp only [step] at h
    split at h
    · rename_i here
      obtain ⟨shell,synth,-,bytes⟩ := safe
      rw [here] at shell bytes
      cases h
      exact ⟨shell,trivial,nofun,bytes⟩
    · cases h
  | timer bytes => exact interruptedSafe timerHandled safe h
  | keyboard bytes => exact interruptedSafe drainHandled safe h
  | sound mask => exact interruptedSafe soundHandled safe h

end Steps

theorem bootSafe : Safe boot :=
  ⟨List.mem_cons_self,List.mem_cons_of_mem _ List.mem_cons_self,nofun,rfl⟩

theorem watchedDue {s : System} {cell : Cell} {id : TaskId} {due : Prop} (watched : Watched s cell id due) (h : due) :
    id ∈ s.taskQueue := watched.resolve_left (fun still => still.1 h)

theorem shellSafeParked {s : System} {pc : Pc} (safe : ShellSafe s pc) (away : polled pc ≠ some .shell) : ShellParked s s.shell := by
  unfold ShellSafe at safe
  split at safe
  · exact absurd rfl away
  · exact absurd rfl away
  · exact absurd rfl away
  · exact safe

theorem synthSafeParked {s : System} {pc : Pc} (safe : SynthSafe s pc) (away : polled pc ≠ some .synth) : SynthParked s s.synth := by
  unfold SynthSafe at safe
  split at safe
  · exact absurd rfl away
  · exact absurd rfl away
  · exact safe

theorem safeAwake {s : System} (safe : Safe s) : Awake s := by
  refine ⟨fun away future queued => ?_,fun target away future due => ?_,fun away future due => ?_,safe.halted,safe.bytes⟩
  · have watched := shellSafeParked safe.shell away
    rw [future] at watched
    exact watchedDue watched queued
  · have watched := shellSafeParked safe.shell away
    rw [future] at watched
    exact watchedDue watched due
  · have watched := synthSafeParked safe.synth away
    rw [future] at watched
    exact watchedDue watched due

/- No run loses a wake-up or a scancode. -/
theorem playAwake (events : List Event) (s : System) (h : play step boot events = .ok s) : Awake s :=
  safeAwake (playInvariant Safe (fun _ e _ safe next => stepSafe e safe next) bootSafe h)

/- The shell suspends on a key, and a byte arrives while the synth is polled. -/
def keyRun : List Event := [.main,.main,.await .key,.main,.main,.main,.main,.keyboard [30]]

theorem playAwakeKey : ∃ s, play step boot keyRun = .ok s ∧ Awake s ∧ s.shell = .key ∧ s.scancodes = [30] :=
  ⟨_,rfl,playAwake keyRun _ rfl,rfl,rfl⟩

end Officium.Tasks
