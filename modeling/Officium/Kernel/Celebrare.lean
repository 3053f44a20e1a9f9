import Officium.Audio.Playing
import Officium.Kernel.Organ

/-! The kernel plays a score in real time: the same calls on its organ as the hosted loop makes, a sleep
where that one ticks, and silence at the end. -/
namespace Officium.Celebrare
open Audio
open Sweeps (Sweep)

inductive PlayCall where
  | organ (call : OrganCall)
  | sleepMs (ms : UInt64)
  | allNotesOff
  deriving DecidableEq

def tickMs : UInt64 := TICK_US / 1000

def playTick (events : List Note) (t : Nat) : Option (List PlayCall) := do
  let ending ← endingAt t events
  return (startingAt events t).map (fun n => .organ (strike n)) ++ .sleepMs tickMs :: ending.map (fun n => .organ (release n))

def play (events : List Note) : Option (List PlayCall) := do
  let ends ← events.mapM (fun n => ticksSum n.onset n.dur)
  match ends.max? with
  | none => return []
  | some end_ =>
    let turns ← (List.range end_).mapM (playTick events)
    return turns.flatten ++ [.allNotesOff]

/- A call of the hosted loop as the kernel makes it. -/
def inKernel : OrganCall → PlayCall
  | .tick _ => .sleepMs tickMs
  | call => .organ call

section Playing
variable {events : List Note}

theorem playTickIs (t : Nat) : playTick events t = (Audio.playTick events t).map (List.map inKernel) := by
  unfold playTick Audio.playTick
  cases endingAt t events with
  | none => rfl
  | some ending =>
    change some _ = some _
    rw [List.map_append,List.map_cons,List.map_map,List.map_map]
    rfl

theorem turnsAre (ts : List Nat) : ts.mapM (playTick events) = (ts.mapM (Audio.playTick events)).map (List.map (List.map inKernel)) := by
  induction ts with
  | nil => rfl
  | cons t ts ih =>
    rw [List.mapM_cons,List.mapM_cons,ih,playTickIs]
    cases Audio.playTick events t with
    | none => rfl
    | some calls =>
      cases ts.mapM (Audio.playTick events) with
      | none => rfl
      | some turns => rfl

theorem mapMFull {α β : Type} {f : α → Option β} {l : List α} (some_ : l ≠ []) : l.mapM f ≠ some [] := by
  intro none_
  cases l with
  | nil => exact some_ rfl
  | cons a rest =>
    rw [List.mapM_cons] at none_
    cases first : f a with
    | none =>
      rw [first] at none_
      cases none_
    | some b =>
      cases later : rest.mapM f with
      | none =>
        rw [first,later] at none_
        cases none_
      | some bs =>
        rw [first,later] at none_
        cases none_

/- The two loops make the same calls, and the ends overflow for both or for neither. -/
theorem playIs (some_ : events ≠ []) : play events = (Audio.play events).map (fun calls => calls.map inKernel ++ [.allNotesOff]) := by
  have full : events.isEmpty = false := by simpa using some_
  rw [play,Audio.play,full]
  cases ends : events.mapM (fun n => ticksSum n.onset n.dur) with
  | none => rfl
  | some sums =>
    cases most : sums.max? with
    | none =>
      rw [List.max?_eq_none_iff.mp most] at ends
      exact absurd ends (mapMFull some_)
    | some last =>
      simp only [Bool.false_eq_true,if_false,Option.bind_eq_bind,Option.bind_some,most,Option.getD_some,turnsAre]
      cases (List.range last).mapM (Audio.playTick events) with
      | none => rfl
      | some turns => simp [List.map_flatten]

/- Every note is struck once and released once, by either loop. -/
theorem notesStruck (events : List Note) (some_ : events ≠ []) (sounds : ∀ n ∈ events, 1 ≤ n.dur)
    (short : ∀ n ∈ events, n.onset + n.dur < 2 ^ 32) :
    (∃ calls, Audio.play events = some calls ∧ Struck events calls ∧ play events = some (calls.map inKernel ++ [.allNotesOff])) ∧
      (∀ prog, ∀ n ∈ renderProgram prog, 1 ≤ n.dur) ∧ ∀ body mode voice, ∀ n ∈ renderVerse body mode voice, 1 ≤ n.dur := by
  obtain ⟨last,most,below,ends⟩ := endsMax some_ short
  have played : Audio.play events = some (organSweep.run events last) := Audio.playIs some_ short most below
  refine ⟨⟨_,played,runStruck sounds most ends,?_⟩,programSounds,verseSounds⟩
  rw [playIs some_,played]
  rfl

/- Two notes that abut on one pitch, over a held one, the later first. -/
def abutting : List Note := [⟨69,1,1,2⟩,⟨69,0,1,2⟩,⟨50,0,2,0⟩]

theorem notesStruckAbutting : ∃ calls, Audio.play abutting = some calls ∧ Struck abutting calls ∧
    play abutting = some (calls.map inKernel ++ [.allNotesOff]) :=
  (notesStruck abutting (by decide) (by decide) (by decide)).1

end Playing

section Sounding
variable (pitchHz : Pitch → UInt32) (frames : Nat → UInt32)

/- What the calls leave of the synth's voices; `frames` are synthesized in each sleep. -/
def perform : Nat → List PlayCall → Organ.Voices → Organ.Voices
  | _, [], voices => voices
  | k, .organ (.noteOn _ pitch _) :: rest, voices => perform k rest (Organ.noteOn voices (pitchHz pitch))
  | k, .organ (.noteOff _ pitch) :: rest, voices => perform k rest (Organ.noteOff voices (pitchHz pitch))
  | k, .organ (.tick _) :: rest, voices => perform k rest voices
  | k, .sleepMs _ :: rest, voices => perform (k+1) rest (Organ.synthesize (frames k) voices)
  | k, .allNotesOff :: rest, voices => perform k rest (Organ.allNotesOff voices)

variable {events : List Note} {voices : Organ.Voices}

theorem performOn (k : Nat) (notes : List Note) (rest : List PlayCall) :
    perform pitchHz frames k (notes.map (fun n => .organ (strike n)) ++ rest) voices =
      perform pitchHz frames k rest (notes.foldl (fun voices n => Organ.noteOn voices (pitchHz n.pitch)) voices) := by
  induction notes generalizing voices with
  | nil => rfl
  | cons n notes ih => exact ih

theorem performOff (k : Nat) (notes : List Note) (rest : List PlayCall) :
    perform pitchHz frames k (notes.map (fun n => .organ (release n)) ++ rest) voices =
      perform pitchHz frames k rest (notes.foldl (fun voices n => Organ.noteOff voices (pitchHz n.pitch)) voices) := by
  induction notes generalizing voices with
  | nil => rfl
  | cons n notes ih => exact ih

/- The calls of the turns from `t` on, on the voices the loop has reached there. -/
theorem performTurns (t k : Nat) (rest : List PlayCall) :
    perform pitchHz frames t (((List.range' t k).flatMap (organSweep.turn events)).map inKernel ++ rest) (Organ.playTo pitchHz events frames t) =
      perform pitchHz frames (t + k) rest (Organ.playTo pitchHz events frames (t + k)) := by
  induction k generalizing t with
  | zero => rfl
  | succ k ih =>
    have turn_ : (organSweep.turn events t).map inKernel = (startingAt events t).map (fun n => .organ (strike n)) ++
        .sleepMs tickMs :: (events.filter (fun n => n.end_ == t + 1)).map (fun n => .organ (release n)) := by
      rw [Sweep.turn,List.map_append,List.map_cons,Sweep.opening,Sweep.closing,List.map_map,List.map_map]
      rfl
    rw [List.range'_succ,List.flatMap_cons,List.map_append,turn_,List.append_assoc,List.append_assoc,performOn,List.cons_append,perform,performOff]
    rw [← Nat.add_assoc,Nat.add_right_comm]
    exact ih (t + 1)

/- The voices the calls lead to are the ones the loop on voices does. -/
theorem performPlays (some_ : events ≠ []) (short : ∀ n ∈ events, n.end_ < ticksBound) :
    (play events).map (fun calls => perform pitchHz frames 0 calls Organ.silent) = some (Organ.play pitchHz events frames) := by
  obtain ⟨last,most,below,-⟩ := endsMax some_ short
  have full : events.isEmpty = false := by simpa using some_
  have turns : perform _ _ _ (((List.range' 0 last).flatMap (organSweep.turn events)).map inKernel ++ _) _ = _ :=
    performTurns pitchHz frames 0 last [.allNotesOff]
  rw [playIs some_,Audio.playIs some_ short most below,Option.map_some,Option.map_some,Sweep.run,List.range_eq_range']
  rw [Organ.play,full]
  exact congrArg some turns

end Sounding

end Officium.Celebrare
