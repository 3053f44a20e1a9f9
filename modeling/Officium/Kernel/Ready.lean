import Officium.Kernel.Tasks

/-! How full the ready queue gets. Every id in it, every registered waker and every poll that has not yet
come to suspend the task counts one; the sum grows only where an await is settled by its second
check, which goes on with the poll and leaves the waker it registered, or the id that waker queued. -/
namespace Officium.Tasks
open Plays (play Along alongBefore playWhile playStops stopOf stopOfSome)

def occupied : Option TaskId → Nat
  | some _ => 1
  | none => 0

def registered (w : Wakers) : Nat := occupied w.key + occupied w.sleep + occupied w.synth

/- A poll past its registration has nothing left to give. -/
def credit : Pc → Nat
  | .shell .keySecond => 0
  | .shell (.sleepSecond _) => 0
  | .shell _ => 1
  | .synth .refillSecond => 0
  | .synth _ => 1
  | _ => 0

def weight (s : System) : Nat := s.taskQueue.length + registered s.wakers + credit s.pc

def Sparse (s : System) : Prop := weight s ≤ 3 + s.late

/- At most 97 awaits since the CPU last halted were settled by their second check. -/
def Timely (s : System) : Prop := s.late ≤ 97

instance (s : System) : Decidable (Timely s) := inferInstanceAs (Decidable (s.late ≤ 97))

section Wakers

theorem occupiedLe (o : Option TaskId) : occupied o ≤ 1 := by
  cases o with
  | none => exact Nat.zero_le 1
  | some id => exact Nat.le_refl 1

theorem registeredLe (w : Wakers) : registered w ≤ 3 := by
  have key := occupiedLe w.key
  have sleep := occupiedLe w.sleep
  have synth := occupiedLe w.synth
  unfold registered
  omega

theorem registeredPut (w : Wakers) (cell : Cell) (o : Option TaskId) :
    registered (w.put cell o) + occupied (w.get cell) = registered w + occupied o := by
  cases cell <;> (simp only [registered,Wakers.put,Wakers.get]; omega)

theorem registeredRegister (w : Wakers) (cell : Cell) (id : TaskId) : registered (w.put cell (some id)) ≤ registered w + 1 := by
  have put := registeredPut w cell (some id)
  simp only [occupied] at put
  omega

theorem registeredTake (w : Wakers) (cell : Cell) : registered (w.put cell none) ≤ registered w := by
  have put := registeredPut w cell none
  simp only [occupied] at put
  omega

theorem registeredWake {w : Wakers} {cell : Cell} {id : TaskId} (h : w.get cell = some id) :
    registered (w.put cell none) + 1 = registered w := by
  have put := registeredPut w cell none
  rw [h] at put
  exact put

end Wakers

section Handlers
variable {s : System}

/- A handler that finds room all along, and moves ids from the cells to the queue only. -/
def Fits (r : Except Stop System) (s : System) : Prop := ∃ t, r = .ok t ∧ weight t = weight s ∧ t.late = s.late

theorem fitsSame (s : System) : Fits (.ok s) s := ⟨s,rfl,rfl,rfl⟩

/- The id a wake pushes was counted in its cell, so a queue that is not overweight has room for it. -/
theorem wakeFits {cell : Cell} (light : weight s ≤ capacity) : Fits (wake cell s) s := by
  unfold wake
  split
  · rename_i id found
    have fewer := registeredWake found
    have room : s.taskQueue.length < capacity := by
      unfold weight at light
      omega
    refine ⟨_,if_pos room,?_,rfl⟩
    simp only [weight,take,List.length_append,List.length_cons,List.length_nil]
    omega
  · exact fitsSame s

theorem receiveFits (byte : UInt8) (light : weight s ≤ capacity) : Fits (receive s byte) s := by
  unfold receive
  split
  · exact wakeFits light
  · exact fitsSame s

theorem drainFits (bytes : List UInt8) (light : weight s ≤ capacity) : Fits (drainController s bytes) s := by
  induction bytes generalizing s with
  | nil => exact fitsSame s
  | cons byte rest ih =>
    obtain ⟨u,first,same,late⟩ := receiveFits byte light
    obtain ⟨t,later,same',late'⟩ := ih (Nat.le_trans (Nat.le_of_eq same) light)
    exact ⟨t,(Plays.playStep first rest).trans later,same'.trans same,late'.trans late⟩

theorem timerFits (bytes : List UInt8) (light : weight s ≤ capacity) : Fits (timerInterrupt bytes s) s := by
  obtain ⟨u,first,same,late⟩ : Fits (wake .sleep { s with ticks := s.ticks + 1 }) s := wakeFits light
  obtain ⟨t,later,same',late'⟩ := drainFits bytes (Nat.le_trans (Nat.le_of_eq same) light)
  refine ⟨t,?_,same'.trans same,late'.trans late⟩
  rw [timerInterrupt,first]
  exact later

theorem soundFits (mask : UInt8) (light : weight s ≤ capacity) : Fits (soundInterrupt mask s) s := by
  unfold soundInterrupt
  split
  · exact fitsSame s
  · exact wakeFits light

end Handlers

section Steps
variable {s t : System}

/- What a step leaves: no panic, and as much as the awaits settled late account for. -/
def Kept (r : Except Stop System) : Prop := r ≠ .error .panic ∧ ∀ t, r = .ok t → Sparse t

theorem keptOk (sparse : Sparse t) : Kept (.ok t) := by
  refine ⟨fun same => ?_,fun u same => ?_⟩
  · cases same
  · cases same
    exact sparse

theorem keptDisabled : Kept (.error .disabled) := by
  refine ⟨fun same => ?_,fun t same => ?_⟩
  · cases same
  · cases same

theorem keptFits {r : Except Stop System} (sparse : Sparse s) (fits : Fits r s) : Kept r := by
  obtain ⟨t,rfl,same,late⟩ := fits
  refine keptOk ?_
  rw [Sparse,same,late]
  exact sparse

theorem resumeCredit (future : ShellFuture) : credit (.shell (resumeShell future)) = 1 := by
  cases future <;> rfl

theorem popSparse (sparse : Sparse s) (here : s.pc = .pop) : Sparse (popTask s) := by
  unfold Sparse weight at sparse
  rw [here] at sparse
  unfold popTask
  split
  · exact sparse
  · rename_i rest first
    rw [first] at sparse
    simp only [Sparse,weight,resumeCredit]
    simp only [List.length_cons,credit] at sparse
    omega
  · rename_i rest first
    rw [first] at sparse
    simp only [List.length_cons,credit] at sparse
    split <;> simp only [Sparse,weight,credit] <;> omega

theorem shellStepKept (sparse : Sparse s) (timely : Timely s) {at_ : ShellPc} (here : s.pc = .shell at_) :
    Kept (shellStep s at_) := by
  unfold Sparse weight at sparse
  rw [here] at sparse
  unfold Timely at timely
  cases at_ with
  | start => exact keptOk sparse
  | free => exact keptDisabled
  | keyFirst =>
    simp only [shellStep]
    split
    · exact keptOk sparse
    · exact keptOk sparse
  | keyRegister =>
    have more := registeredRegister s.wakers .key .shell
    refine keptOk ?_
    simp only [Sparse,weight,register,credit] at sparse ⊢
    omega
  | keySecond =>
    simp only [shellStep]
    split
    · refine keptOk ?_
      simp only [Sparse,weight,credit] at sparse ⊢
      omega
    · exact keptOk sparse
  | keyTake byte =>
    have fewer := registeredTake s.wakers .key
    refine keptOk ?_
    simp only [Sparse,weight,take,credit] at sparse ⊢
    omega
  | sleepFirst target =>
    simp only [shellStep]
    split
    · exact keptOk sparse
    · exact keptOk sparse
  | sleepRegister target =>
    have more := registeredRegister s.wakers .sleep .shell
    refine keptOk ?_
    simp only [Sparse,weight,register,credit] at sparse ⊢
    omega
  | sleepSecond target =>
    simp only [shellStep]
    split
    · refine keptOk ?_
      simp only [Sparse,weight,credit] at sparse ⊢
      omega
    · exact keptOk sparse
  | yieldNow =>
    simp only [credit] at sparse
    have room : s.taskQueue.length < capacity := by
      unfold capacity
      omega
    rw [shellStep,wakeTask,if_pos room]
    refine keptOk ?_
    simp only [Sparse,weight,credit,List.length_append,List.length_cons,List.length_nil]
    omega

theorem synthStepSparse (sparse : Sparse s) {at_ : SynthPc} (here : s.pc = .synth at_) : Sparse (synthStep s at_) := by
  unfold Sparse weight at sparse
  rw [here] at sparse
  cases at_ with
  | start => exact sparse
  | refillFirst =>
    simp only [synthStep]
    split
    · exact sparse
    · exact sparse
  | refillRegister =>
    have more := registeredRegister s.wakers .synth .synth
    simp only [Sparse,weight,synthStep,register,credit] at sparse ⊢
    omega
  | refillSecond =>
    simp only [synthStep]
    split
    · exact sparse
    · simp only [Sparse,weight,credit] at sparse ⊢
      omega
  | fill mask => exact sparse

theorem mainStepKept (sparse : Sparse s) (timely : Timely s) : Kept (mainStep s) := by
  unfold mainStep
  split
  · rename_i here
    exact keptOk (popSparse sparse here)
  · rename_i at_ here
    exact shellStepKept sparse timely here
  · rename_i at_ here
    exact keptOk (synthStepSparse sparse here)
  · rename_i here
    refine keptOk ?_
    rw [Sparse,weight,here] at sparse
    exact sparse
  · rename_i here
    split
    · -- a halt starts the count again: nothing is queued, and there are three cells
      rename_i empty
      have cells := registeredLe s.wakers
      refine keptOk ?_
      simp only [Sparse,weight,credit,empty,List.length_nil]
      omega
    · refine keptOk ?_
      rw [Sparse,weight,here] at sparse
      exact sparse
  · exact keptDisabled

theorem awaitStepKept (next : Await) (sparse : Sparse s) : Kept (awaitStep next s) := by
  unfold awaitStep
  split
  · rename_i here
    rw [Sparse,weight,here] at sparse
    cases next with
    | key => exact keptOk sparse
    | sleep ms => exact keptOk sparse
    | yieldNow => exact keptOk sparse
  · exact keptDisabled

theorem interruptedKept {handler : System → Except Stop System}
    (fits : ∀ s, weight s ≤ capacity → Fits (handler s) s) (sparse : Sparse s) (timely : Timely s) :
    Kept (interrupted handler s) := by
  have light : weight s ≤ capacity := by
    unfold Sparse at sparse
    unfold Timely at timely
    unfold capacity
    omega
  unfold interrupted
  split
  · exact keptDisabled
  · rename_i here
    rw [weight,here] at light
    rw [Sparse,weight,here] at sparse
    have risen : Sparse { s with pc := .pop } := sparse
    exact keptFits risen (fits _ light)
  · exact keptFits sparse (fits s light)

theorem stepKept (e : Event) (sparse : Sparse s) (timely : Timely s) : Kept (step s e) := by
  cases e with
  | main => exact mainStepKept sparse timely
  | await next => exact awaitStepKept next sparse
  | absent =>
    simp only [step]
    split
    · rename_i here
      rw [Sparse,weight,here] at sparse
      refine keptOk ?_
      simp only [Sparse,weight,credit] at sparse ⊢
      omega
    · exact keptDisabled
  | timer bytes => exact interruptedKept (fun _ => timerFits bytes) sparse timely
  | keyboard bytes => exact interruptedKept (fun _ => drainFits bytes) sparse timely
  | sound mask => exact interruptedKept (fun _ => soundFits mask) sparse timely

end Steps

/- A run whose states are all timely never finds the ready queue full. -/
theorem playNeverFull (events : List Event) (timely : Along step Timely boot events) : play step boot events ≠ .error .panic := by
  intro stopped
  obtain ⟨before,e,after,s,rfl,reached,stops⟩ := playStops stopped
  have start : Sparse boot := by
    unfold Sparse
    decide
  obtain ⟨sparse,here⟩ := playWhile Sparse Timely (fun u e' t sparse timely next => (stepKept e' sparse timely).2 t next) start
    (alongBefore timely) reached
  exact (stepKept e sparse here).1 stops

/- Two keys read by their second checks. -/
def typingRun : List Event :=
  [.main,.main,.await .key,.main,.main,.keyboard [30],.main,.main,.await .key,.main,.main,.main,.main,.main,.main,.main,.main,
    .main,.main,.keyboard [158],.main,.main]

theorem playNeverFullTyping : play step boot typingRun ≠ .error .panic :=
  playNeverFull typingRun (by decide)

/- Completed buffers reported each time between the registration and the second check of `Refill`. -/
def soundAgain : List Event := [.main,.main,.sound 1,.main,.main]

def soundRun : List Event :=
  [.main,.main,.await .key,.main,.main,.main,.main,.main] ++ (List.replicate 101 soundAgain).flatten

theorem playOverflows : play step boot soundRun = .error .panic := by
  have stopped : stopOf (play step boot soundRun) = some .panic := by decide +kernel
  exact stopOfSome stopped

end Officium.Tasks
