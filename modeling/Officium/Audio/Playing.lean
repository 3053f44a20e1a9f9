import Mathlib.Algebra.Ring.Nat
import Officium.Library.Sweeps
import Officium.Audio.Exposition

/-! The calls an organ gets as an event list is driven through it. Ticks are 32 bits wide: an event whose
end does not fit them stops the run where the ends are first looked at. -/
namespace Officium.Audio
open Sweeps (Kind Sweep timed)

/- Ticks are a `u32`. -/
def ticksBound : Nat := 2 ^ 32

/- `onset + dur`, unless it overflows. -/
def ticksSum (onset dur : Nat) : Option Nat := if onset + dur < ticksBound then some (onset + dur) else none

inductive OrganCall where
  | noteOn (voice : UInt8) (pitch : Pitch) (stops : UInt8)
  | noteOff (voice : UInt8) (pitch : Pitch)
  | tick (dt : UInt64)
  deriving DecidableEq

/- Microseconds per tick. -/
def TICK_US : UInt64 := 250000

/- The notes that start with tick `t`, and the ones that end with it. -/
def startingAt (events : List Note) (t : Nat) : List Note := events.filter (fun n => n.onset == t)

def endingAt (t : Nat) : List Note → Option (List Note)
  | [] => some []
  | n :: rest => do
    let e ← ticksSum n.onset n.dur
    let next ← ticksSum t 1
    let later ← endingAt t rest
    return if e == next then n :: later else later

def strike (n : Note) : OrganCall := .noteOn n.voice n.pitch 0

def release (n : Note) : OrganCall := .noteOff n.voice n.pitch

def playTick (events : List Note) (t : Nat) : Option (List OrganCall) := do
  let ending ← endingAt t events
  return (startingAt events t).map strike ++ .tick TICK_US :: ending.map release

def play (events : List Note) : Option (List OrganCall) :=
  if events.isEmpty then some []
  else do
    let ends ← events.mapM (fun n => ticksSum n.onset n.dur)
    let turns ← (List.range (ends.max?.getD 0)).mapM (playTick events)
    return turns.flatten

def OrganCall.kind : OrganCall → Kind
  | .noteOn _ _ _ => .opens
  | .tick _ => .tick
  | .noteOff _ _ => .closes

/- Each note struck once at its onset and released once at its end, and no more ticks than the last end. -/
structure Struck (events : List Note) (calls : List OrganCall) : Prop where
  ons : ((timed OrganCall.kind 0 calls).filter (fun c => c.2.kind = .opens)).Perm (events.map (fun n => (n.onset,strike n)))
  offs : ((timed OrganCall.kind 0 calls).filter (fun c => c.2.kind = .closes)).Perm (events.map (fun n => (n.end_,release n)))
  order : (timed OrganCall.kind 0 calls).Pairwise (fun c d => c.1 = d.1 → c.2.kind = .opens → d.2.kind ≠ .closes)
  ticks : ∃ last, (events.map Note.end_).max? = some last ∧ calls.filter (fun c => c.kind = .tick) = List.replicate last (.tick TICK_US)

/- The sweep that playing is. -/
def organSweep : Sweep Note OrganCall where
  start := Note.onset
  finish := Note.end_
  opens := strike
  tick := .tick TICK_US
  closes := release
  kind := OrganCall.kind
  kindOpens := fun _ => rfl
  kindTick := rfl
  kindCloses := fun _ => rfl

section Playing
variable {events : List Note}

theorem ticksSumFits {onset dur : Nat} (short : onset + dur < ticksBound) : ticksSum onset dur = some (onset + dur) := if_pos short

theorem mapMSome {α β : Type} {f : α → Option β} {g : α → β} {l : List α} (some_ : ∀ a ∈ l, f a = some (g a)) : l.mapM f = some (l.map g) := by
  induction l with
  | nil => rfl
  | cons a rest ih =>
    rw [List.mapM_cons,some_ a List.mem_cons_self,ih (fun b mem => some_ b (List.mem_cons_of_mem _ mem))]
    rfl

theorem endingAtIs {t : Nat} (next : t + 1 < ticksBound) (short : ∀ n ∈ events, n.end_ < ticksBound) :
    endingAt t events = some (events.filter (fun n => n.end_ == t + 1)) := by
  induction events with
  | nil => rfl
  | cons n rest ih =>
    rw [endingAt,ih (fun m mem => short m (List.mem_cons_of_mem _ mem)),ticksSumFits (short n List.mem_cons_self),ticksSumFits next,List.filter_cons]
    rfl

theorem playTickIs {t : Nat} (next : t + 1 < ticksBound) (short : ∀ n ∈ events, n.end_ < ticksBound) :
    playTick events t = some (organSweep.turn events t) := by
  rw [playTick,endingAtIs next short]
  rfl

/- Where no end overflows the ticks are played to the last of the ends. -/
theorem endsMax (some_ : events ≠ []) (short : ∀ n ∈ events, n.end_ < ticksBound) :
    ∃ last, (events.map Note.end_).max? = some last ∧ last < ticksBound ∧ ∀ n ∈ events, n.end_ ≤ last := by
  cases found : (events.map Note.end_).max? with
  | none => exact absurd (List.map_eq_nil_iff.mp (List.max?_eq_none_iff.mp found)) some_
  | some last =>
    obtain ⟨among,most⟩ := List.max?_eq_some_iff.mp found
    obtain ⟨n,mem,rfl⟩ := List.mem_map.mp among
    exact ⟨_,rfl,short n mem,fun m mem' => most _ (List.mem_map_of_mem mem')⟩

theorem turnsAre {last : Nat} (below : last < ticksBound) (short : ∀ n ∈ events, n.end_ < ticksBound) :
    (List.range last).mapM (playTick events) = some ((List.range last).map (organSweep.turn events)) :=
  mapMSome fun t mem => playTickIs (by have := List.mem_range.mp mem; omega) short

theorem endsAre (short : ∀ n ∈ events, n.end_ < ticksBound) :
    events.mapM (fun n => ticksSum n.onset n.dur) = some (events.map Note.end_) :=
  mapMSome fun n mem => ticksSumFits (short n mem)

theorem playIs {last : Nat} (some_ : events ≠ []) (short : ∀ n ∈ events, n.end_ < ticksBound)
    (most : (events.map Note.end_).max? = some last) (below : last < ticksBound) : play events = some (organSweep.run events last) := by
  have full : events.isEmpty = false := by simpa using some_
  rw [play,full,endsAre short]
  simp only [Bool.false_eq_true,if_false,Option.bind_eq_bind,Option.bind_some,most,Option.getD_some,turnsAre below short]
  rfl

theorem runStruck {last : Nat} (sounds : ∀ n ∈ events, 1 ≤ n.dur) (most : (events.map Note.end_).max? = some last)
    (ends : ∀ n ∈ events, n.end_ ≤ last) : Struck events (organSweep.run events last) where
  ons := Sweep.runOpens (s := organSweep) fun n mem => by
    have held := sounds n mem
    have end_ : n.onset + n.dur ≤ last := ends n mem
    change n.onset < last
    omega
  offs := Sweep.runCloses (s := organSweep) fun n mem => ⟨Nat.le_trans (sounds n mem) (Nat.le_add_left _ _),ends n mem⟩
  order := Sweep.runOrder (s := organSweep)
  ticks := ⟨last,most,Sweep.runTicks (s := organSweep)⟩

end Playing

/- Nothing that is rendered is without length. -/
theorem verseSounds (body : Expr) (mode : Mode) (voice : UInt8) : ∀ n ∈ renderVerse body mode voice, 1 ≤ n.dur :=
  (laidVerse laidStart mode voice body).sounds

theorem programSounds (prog : Program) : ∀ n ∈ renderProgram prog, 1 ≤ n.dur := (laidProgram prog).sounds

end Officium.Audio
