import Mathlib.Algebra.Ring.Nat
import Mathlib.Data.List.Nodup
import Mathlib.Data.List.Pairwise
import Mathlib.Data.List.Perm.Subperm
import Officium.Audio.Exposition

/-! The synth's eight voices and the kernel's way of playing a score on them. A voice is known by its
frequency alone, so events of one pitch share it; what sounds is the set of steps in the slots. -/
namespace Officium.Organ
open Audio

structure Voice where
  phase : UInt32
  step : UInt32
  deriving DecidableEq

abbrev Voices := List (Option Voice)

def maxVoices : Nat := 8
def sampleRate : Nat := 48000

def freqToStep (freqHz : UInt32) : UInt32 := UInt32.ofNat (freqHz.toNat * 2^32 / sampleRate)

def silent : Voices := List.replicate maxVoices none

/- The first voice with this step starts its period again. -/
def retrigger (step : UInt32) : Voices → Option Voices
  | [] => none
  | some v :: rest => if v.step = step then some (some { v with phase := 0 } :: rest) else (retrigger step rest).map (some v :: ·)
  | none :: rest => (retrigger step rest).map (none :: ·)

/- The first free slot, if there is one. -/
def takeSlot (step : UInt32) : Voices → Voices
  | [] => []
  | none :: rest => some ⟨0,step⟩ :: rest
  | some v :: rest => some v :: takeSlot step rest

def noteOn (voices : Voices) (freqHz : UInt32) : Voices :=
  match retrigger (freqToStep freqHz) voices with
  | some voices' => voices'
  | none => takeSlot (freqToStep freqHz) voices

def noteOff (voices : Voices) (freqHz : UInt32) : Voices :=
  voices.map (fun slot => if slot.any (fun v => v.step == freqToStep freqHz) then none else slot)

def allNotesOff (_ : Voices) : Voices := silent

/- What so many frames of synthesis leave of the voices. -/
def synthesize (frames : UInt32) (voices : Voices) : Voices := voices.map (Option.map (fun v => { v with phase := v.phase + frames * v.step }))

/- The steps of the active voices. -/
def active (voices : Voices) : List UInt32 := voices.filterMap (Option.map Voice.step)

section Slots
variable {voices voices' : Voices} {step s : UInt32} {freqHz : UInt32}

theorem activeCons (slot : Option Voice) (voices : Voices) : active (slot :: voices) = (slot.map Voice.step).toList ++ active voices := by
  cases slot <;> rfl

theorem retriggerActive (h : retrigger step voices = some voices') : active voices' = active voices ∧ step ∈ active voices := by
  induction voices generalizing voices' with
  | nil => cases h
  | cons slot rest ih =>
    cases slot with
    | none =>
      obtain ⟨more,found,rfl⟩ := Option.map_eq_some_iff.mp h
      have kept := ih found
      rwa [activeCons,activeCons]
    | some v =>
      rw [retrigger] at h
      split at h
      · rename_i same
        cases h
        exact ⟨rfl,by rw [activeCons]; exact List.mem_append_left _ (List.mem_singleton.mpr same.symm)⟩
      · obtain ⟨more,found,rfl⟩ := Option.map_eq_some_iff.mp h
        obtain ⟨same,mem⟩ := ih found
        rw [activeCons,activeCons,same]
        exact ⟨rfl,List.mem_append_right _ mem⟩

theorem retriggerNone (h : retrigger step voices = none) : step ∉ active voices := by
  induction voices with
  | nil => exact List.not_mem_nil
  | cons slot rest ih =>
    cases slot with
    | none => exact ih (Option.map_eq_none_iff.mp h)
    | some v =>
      rw [retrigger] at h
      split at h
      · cases h
      · rename_i other
        rw [activeCons]
        intro mem
        rcases List.mem_append.mp mem with here | later
        · exact other (List.mem_singleton.mp here).symm
        · exact ih (Option.map_eq_none_iff.mp h) later

/- A slot is taken where the voices do not fill all of them. -/
theorem takeSlotActive (room : (active voices).length < voices.length) :
    (active (takeSlot step voices)).Perm (step :: active voices) ∧ (takeSlot step voices).length = voices.length := by
  induction voices with
  | nil => cases room
  | cons slot rest ih =>
    cases slot with
    | none => exact ⟨.refl _,rfl⟩
    | some v =>
      have room' : (active rest).length < rest.length := Nat.lt_of_succ_lt_succ room
      obtain ⟨perm,size⟩ := ih room'
      refine ⟨?_,congrArg (· + 1) size⟩
      rw [takeSlot,activeCons,activeCons]
      exact (perm.cons v.step).trans (.swap _ _ _)

theorem retriggerLength (h : retrigger step voices = some voices') : voices'.length = voices.length := by
  induction voices generalizing voices' with
  | nil => cases h
  | cons slot rest ih =>
    cases slot with
    | none =>
      obtain ⟨more,found,rfl⟩ := Option.map_eq_some_iff.mp h
      exact congrArg (· + 1) (ih found)
    | some v =>
      rw [retrigger] at h
      split at h
      · cases h; rfl
      · obtain ⟨more,found,rfl⟩ := Option.map_eq_some_iff.mp h
        exact congrArg (· + 1) (ih found)

/- What a state of the slots has to keep: all eight, no two with one step. -/
structure Tuned (voices : Voices) : Prop where
  slots : voices.length = maxVoices
  distinct : (active voices).Nodup

theorem tunedSilent : Tuned silent := ⟨rfl,.nil⟩

theorem noteOnTuned (tuned : Tuned voices) (room : freqToStep freqHz ∈ active voices ∨ (active voices).length < maxVoices) :
    Tuned (noteOn voices freqHz) ∧ ∀ s, s ∈ active (noteOn voices freqHz) ↔ s = freqToStep freqHz ∨ s ∈ active voices := by
  unfold noteOn
  split
  · rename_i voices' found
    obtain ⟨same,mem⟩ := retriggerActive found
    refine ⟨⟨(retriggerLength found).trans tuned.slots,same ▸ tuned.distinct⟩,fun s => ?_⟩
    rw [same]
    exact ⟨.inr,fun h => h.elim (fun is_ => is_ ▸ mem) id⟩
  · rename_i absent
    have new := retriggerNone absent
    have room' := room.resolve_left new
    rw [← tuned.slots] at room'
    obtain ⟨perm,size⟩ := @takeSlotActive voices (freqToStep freqHz) room'
    refine ⟨⟨size.trans tuned.slots,perm.nodup_iff.mpr (List.nodup_cons.mpr ⟨new,tuned.distinct⟩)⟩,fun s => ?_⟩
    rw [perm.mem_iff,List.mem_cons]

theorem noteOffActive (voices : Voices) (freqHz : UInt32) : active (noteOff voices freqHz) = (active voices).filter (· != freqToStep freqHz) := by
  induction voices with
  | nil => rfl
  | cons slot rest ih =>
    rw [noteOff,List.map_cons,activeCons,activeCons,List.filter_append]
    congr 1
    cases slot with
    | none => rfl
    | some v =>
      by_cases same : v.step = freqToStep freqHz <;> simp [same]

theorem noteOffTuned (tuned : Tuned voices) : Tuned (noteOff voices freqHz) ∧
    ∀ s, s ∈ active (noteOff voices freqHz) ↔ s ∈ active voices ∧ s ≠ freqToStep freqHz := by
  refine ⟨⟨(List.length_map _).trans tuned.slots,?_⟩,fun s => ?_⟩
  · rw [noteOffActive]
    exact tuned.distinct.filter _
  · rw [noteOffActive,List.mem_filter,bne_iff_ne]

theorem synthesizeActive (frames : UInt32) (voices : Voices) : active (synthesize frames voices) = active voices := by
  rw [active,synthesize,List.filterMap_map]
  congr 1
  funext slot
  cases slot <;> rfl

theorem synthesizeTuned (tuned : Tuned voices) (frames : UInt32) : Tuned (synthesize frames voices) :=
  ⟨(List.length_map _).trans tuned.slots,(synthesizeActive frames voices).symm ▸ tuned.distinct⟩

end Slots

section Playing
variable (pitchHz : Pitch → UInt32) (events : List Note)

/- `play`: the notes that start with tick `t`, and the ones that end with it. -/
def notesOn (t : Nat) (voices : Voices) : Voices :=
  (events.filter (fun n => n.onset == t)).foldl (fun voices n => noteOn voices (pitchHz n.pitch)) voices

def notesOff (t : Nat) (voices : Voices) : Voices :=
  (events.filter (fun n => n.onset + n.dur == t + 1)).foldl (fun voices n => noteOff voices (pitchHz n.pitch)) voices

/- Where the loop is before tick `t`; `frames` are synthesized while it sleeps. -/
def playTo (frames : Nat → UInt32) : Nat → Voices
  | 0 => silent
  | t+1 => notesOff pitchHz events t (synthesize (frames t) (notesOn pitchHz events t (playTo frames t)))

/- The voices during tick `t`. -/
def during (frames : Nat → UInt32) (t : Nat) : Voices := notesOn pitchHz events t (playTo pitchHz events frames t)

/- The number of ticks. -/
def lastTick : Nat := (events.map Note.end_).foldl max 0

def play (frames : Nat → UInt32) : Voices :=
  if events.isEmpty then silent else allNotesOff (playTo pitchHz events frames (lastTick events))

def stepOf (n : Note) : UInt32 := freqToStep (pitchHz n.pitch)

/- The ticks of an event. -/
def SoundsAt (n : Note) (t : Nat) : Prop := n.onset ≤ t ∧ t < n.onset + n.dur

variable {pitchHz events} {voices : Voices} {frames : Nat → UInt32} {s : UInt32} {t : Nat}

theorem endLast {n : Note} (mem : n ∈ events) : n.end_ ≤ lastTick events := by
  have up : ∀ (ends : List Nat) (least : Nat), least ≤ ends.foldl max least ∧ ∀ e ∈ ends, e ≤ ends.foldl max least := by
    intro ends
    induction ends with
    | nil => exact fun least => ⟨Nat.le_refl _,nofun⟩
    | cons e ends ih =>
      intro least
      obtain ⟨low,all⟩ := ih (max least e)
      refine ⟨Nat.le_trans (Nat.le_max_left _ _) low,fun e' mem => ?_⟩
      rcases List.mem_cons.mp mem with rfl | mem
      · exact Nat.le_trans (Nat.le_max_right _ _) low
      · exact all e' mem
  exact (up _ 0).2 _ (List.mem_map_of_mem mem)

/- Notes put on one after another: each finds a voice where their steps and those already sounding are few. -/
theorem onTuned {room : List UInt32} (few : room.length ≤ maxVoices) (notes : List Note) (tuned : Tuned voices) (now : active voices ⊆ room)
    (new : ∀ n ∈ notes, stepOf pitchHz n ∈ room) :
    Tuned (notes.foldl (fun voices n => noteOn voices (pitchHz n.pitch)) voices) ∧
      ∀ s, s ∈ active (notes.foldl (fun voices n => noteOn voices (pitchHz n.pitch)) voices) ↔
        (∃ n ∈ notes, stepOf pitchHz n = s) ∨ s ∈ active voices := by
  induction notes generalizing voices with
  | nil => exact ⟨tuned,fun s => ⟨.inr,fun h => h.resolve_left (by rintro ⟨n,mem,-⟩; cases mem)⟩⟩
  | cons n notes ih =>
    have slot : freqToStep (pitchHz n.pitch) ∈ active voices ∨ (active voices).length < maxVoices := by
      by_cases held : freqToStep (pitchHz n.pitch) ∈ active voices
      · exact .inl held
      · have among : freqToStep (pitchHz n.pitch) :: active voices ⊆ room := List.cons_subset.mpr ⟨new n List.mem_cons_self,now⟩
        exact .inr (Nat.le_trans (List.subperm_of_subset (List.nodup_cons.mpr ⟨held,tuned.distinct⟩) among).length_le few)
    obtain ⟨tuned',sounding⟩ := noteOnTuned tuned slot
    have now' : active (noteOn voices (pitchHz n.pitch)) ⊆ room := by
      intro s mem
      rcases (sounding s).mp mem with rfl | before
      · exact new n List.mem_cons_self
      · exact now before
    obtain ⟨last,all⟩ := ih tuned' now' (fun m mem => new m (List.mem_cons_of_mem _ mem))
    refine ⟨last,fun s => (all s).trans ?_⟩
    rw [sounding,List.exists_mem_cons_iff,or_assoc,or_left_comm,stepOf]
    exact or_congr_left eq_comm

theorem offTuned (notes : List Note) (tuned : Tuned voices) :
    Tuned (notes.foldl (fun voices n => noteOff voices (pitchHz n.pitch)) voices) ∧
      ∀ s, s ∈ active (notes.foldl (fun voices n => noteOff voices (pitchHz n.pitch)) voices) ↔
        s ∈ active voices ∧ ∀ n ∈ notes, stepOf pitchHz n ≠ s := by
  induction notes generalizing voices with
  | nil => exact ⟨tuned,fun s => ⟨fun h => ⟨h,nofun⟩,And.left⟩⟩
  | cons n notes ih =>
    obtain ⟨tuned',left_⟩ := @noteOffTuned voices (pitchHz n.pitch) tuned
    obtain ⟨last,all⟩ := ih tuned'
    refine ⟨last,fun s => (all s).trans ?_⟩
    rw [left_,List.forall_mem_cons,and_assoc,stepOf]
    exact and_congr_right fun _ => and_congr_left fun _ => ne_comm

/- The steps that sound in a tick fit the slots. -/
def Fits (pitchHz : Pitch → UInt32) (events : List Note) : Prop :=
  ∀ t, ∃ room : List UInt32, room.length ≤ maxVoices ∧ ∀ n ∈ events, SoundsAt n t → stepOf pitchHz n ∈ room

/- Before a tick nothing sounds but what has begun and not ended. -/
def Within (pitchHz : Pitch → UInt32) (events : List Note) (t : Nat) (voices : Voices) : Prop :=
  Tuned voices ∧ ∀ s ∈ active voices, ∃ n ∈ events, n.onset < t ∧ t < n.end_ ∧ stepOf pitchHz n = s

theorem notesOnIs (fits : Fits pitchHz events) (sounds : ∀ n ∈ events, 1 ≤ n.dur) (within : Within pitchHz events t voices) :
    Tuned (notesOn pitchHz events t voices) ∧
      ∀ s, s ∈ active (notesOn pitchHz events t voices) ↔ (∃ n ∈ events, n.onset = t ∧ stepOf pitchHz n = s) ∨ s ∈ active voices := by
  obtain ⟨room,few,all⟩ := fits t
  have starting {n : Note} (mem : n ∈ events.filter (fun n => n.onset == t)) : n ∈ events ∧ n.onset = t :=
    (List.mem_filter.mp mem).imp_right beq_iff_eq.mp
  obtain ⟨tuned,is_⟩ := @onTuned pitchHz voices room few (events.filter (fun n => n.onset == t)) within.1
    (by
      intro s mem
      obtain ⟨n,among,began,goes,rfl⟩ := within.2 s mem
      exact all n among ⟨Nat.le_of_lt began,goes⟩)
    (by
      intro n mem
      obtain ⟨among,start⟩ := starting mem
      have held := sounds n among
      exact all n among ⟨by omega,by omega⟩)
  refine ⟨tuned,fun s => (is_ s).trans (or_congr_left ⟨?_,?_⟩)⟩
  · rintro ⟨n,mem,same⟩
    exact ⟨n,(starting mem).1,(starting mem).2,same⟩
  · rintro ⟨n,mem,start,same⟩
    exact ⟨n,List.mem_filter.mpr ⟨mem,beq_iff_eq.mpr start⟩,same⟩

theorem playStep (fits : Fits pitchHz events) (sounds : ∀ n ∈ events, 1 ≤ n.dur) (within : Within pitchHz events t (playTo pitchHz events frames t)) :
    Tuned (playTo pitchHz events frames (t+1)) ∧
      ∀ s, s ∈ active (playTo pitchHz events frames (t+1)) ↔
        s ∈ active (during pitchHz events frames t) ∧ ∀ n ∈ events, n.end_ = t + 1 → stepOf pitchHz n ≠ s := by
  obtain ⟨tuned,-⟩ := notesOnIs fits sounds within
  obtain ⟨last,is_⟩ := @offTuned pitchHz _ (events.filter (fun n => n.onset + n.dur == t + 1)) (synthesizeTuned tuned (frames t))
  refine ⟨last,fun s => (is_ s).trans ?_⟩
  rw [synthesizeActive]
  refine and_congr_right fun _ => ⟨fun h n mem ends => ?_,fun h n mem => ?_⟩
  · exact h n (List.mem_filter.mpr ⟨mem,beq_iff_eq.mpr ends⟩)
  · exact h n (List.mem_filter.mp mem).1 (beq_iff_eq.mp (List.mem_filter.mp mem).2)

theorem playWithin (fits : Fits pitchHz events) (sounds : ∀ n ∈ events, 1 ≤ n.dur) (t : Nat) :
    Within pitchHz events t (playTo pitchHz events frames t) := by
  induction t with
  | zero => exact ⟨tunedSilent,nofun⟩
  | succ t ih =>
    obtain ⟨tuned,is_⟩ := playStep fits sounds ih
    refine ⟨tuned,fun s mem => ?_⟩
    obtain ⟨now,kept⟩ := (is_ s).mp mem
    have sounding : ∃ n ∈ events, n.onset ≤ t ∧ t < n.end_ ∧ stepOf pitchHz n = s := by
      rcases ((notesOnIs fits sounds ih).2 s).mp now with ⟨n,among,start,same⟩ | before
      · have held := sounds n among
        exact ⟨n,among,Nat.le_of_eq start,by rw [Note.end_]; omega,same⟩
      · obtain ⟨n,among,began,goes,same⟩ := ih.2 s before
        exact ⟨n,among,Nat.le_of_lt began,goes,same⟩
    obtain ⟨n,among,began,goes,same⟩ := sounding
    exact ⟨n,among,Nat.lt_succ_of_le began,Nat.lt_of_le_of_ne goes (fun ends => kept n among ends.symm same),same⟩

/- Where no event ends while another of its step goes on, all that is to sound does. -/
theorem playSounds (fits : Fits pitchHz events) (sounds : ∀ n ∈ events, 1 ≤ n.dur)
    (uncut : ∀ m ∈ events, ∀ n ∈ events, stepOf pitchHz m = stepOf pitchHz n → n.onset < m.end_ → n.end_ ≤ m.end_) (t : Nat) :
    ∀ n ∈ events, n.onset < t → t < n.end_ → stepOf pitchHz n ∈ active (playTo pitchHz events frames t) := by
  induction t with
  | zero => exact fun n _ began => absurd began (Nat.not_lt_zero _)
  | succ t ih =>
    intro n among began goes
    have within : Within pitchHz events t (playTo pitchHz events frames t) := playWithin fits sounds t
    refine ((playStep fits sounds within).2 _).mpr ⟨((notesOnIs fits sounds within).2 _).mpr ?_,fun m among' ends same => ?_⟩
    · rcases Nat.lt_or_ge n.onset t with earlier | now
      · exact .inr (ih n among earlier (Nat.lt_of_succ_lt goes))
      · exact .inl ⟨n,among,Nat.le_antisymm (Nat.le_of_lt_succ began) now,rfl⟩
    · exact absurd (uncut m among' n among same (ends ▸ began)) (by rw [ends]; exact Nat.not_le_of_lt goes)

end Playing

/- The loop leaves nothing sounding. -/
theorem playEnds (pitchHz : Pitch → UInt32) (events : List Note) (frames : Nat → UInt32) : active (play pitchHz events frames) = [] := by
  unfold play
  split
  · rfl
  · rfl

section Score
variable {pitchHz : Pitch → UInt32} {prog : Program}

/- Below the sample rate no two frequencies have one step. -/
theorem stepInj {f g : UInt32} (low : f.toNat < sampleRate) (low' : g.toNat < sampleRate) (same : freqToStep f = freqToStep g) : f = g := by
  have step (h : UInt32) (lo : h.toNat < sampleRate) : (freqToStep h).toNat = h.toNat * 2^32 / sampleRate := by
    refine UInt32.toNat_ofNat_of_lt' ((Nat.div_lt_iff_lt_mul (by decide)).mpr ?_)
    rw [Nat.mul_comm]
    exact Nat.mul_lt_mul_of_pos_left lo (by decide)
  have both := congrArg UInt32.toNat same
  rw [step f low,step g low'] at both
  rw [← UInt32.toNat_inj]
  unfold sampleRate at both
  omega

/- In one tick the four pedals may sound and one note of the melody. -/
theorem scoreFits (pitchHz : Pitch → UInt32) (prog : Program) : Fits pitchHz (renderProgram prog) := by
  intro t
  have sounding {n : Note} : n ∈ ((renderProgram prog).filter Note.isMelody).filter (fun n => n.onset ≤ t ∧ t < n.onset + n.dur) ↔
      (n ∈ renderProgram prog ∧ n.isMelody = true) ∧ SoundsAt n t := by
    rw [List.mem_filter,List.mem_filter,decide_eq_true_iff]
    rfl
  have one : (((renderProgram prog).filter Note.isMelody).filter (fun n => n.onset ≤ t ∧ t < n.onset + n.dur)).length ≤ 1 := by
    have apart : (((renderProgram prog).filter Note.isMelody).filter (fun n => n.onset ≤ t ∧ t < n.onset + n.dur)).Pairwise
        (fun n m => n.end_ ≤ m.onset) := (laidProgram prog).line.filter _
    generalize found : ((renderProgram prog).filter Note.isMelody).filter (fun n => n.onset ≤ t ∧ t < n.onset + n.dur) = now at apart
    match now with
    | [] => exact Nat.zero_le _
    | [_] => exact Nat.le_refl _
    | n :: m :: rest =>
      have later : n.end_ ≤ m.onset := (List.pairwise_cons.mp apart).1 m List.mem_cons_self
      have first := (sounding (n := n)).mp (found ▸ List.mem_cons_self)
      have second := (sounding (n := m)).mp (found ▸ List.mem_cons_of_mem _ List.mem_cons_self)
      exact absurd (Nat.lt_of_lt_of_le first.2.2 later) (Nat.not_lt_of_ge second.2.1)
  refine ⟨pedalPitches.map (fun p => freqToStep (pitchHz p)) ++
    (((renderProgram prog).filter Note.isMelody).filter (fun n => n.onset ≤ t ∧ t < n.onset + n.dur)).map (stepOf pitchHz),?_,?_⟩
  · rw [List.length_append,List.length_map,List.length_map]
    exact Nat.le_trans (Nat.add_le_add_left one _) (by decide)
  · intro n among sounds
    rw [List.mem_append]
    cases low : n.isPedal with
    | true => exact .inl (List.mem_map.mpr ⟨n.pitch,List.contains_iff_mem.mp low,rfl⟩)
    | false => exact .inr (List.mem_map_of_mem (sounding.mpr ⟨⟨among,by rw [Note.isMelody,low]; rfl⟩,sounds⟩))

theorem scorePedal {n : Note} (among : n ∈ renderProgram prog) (low : n.isPedal = true) : n ∈ pedalsFrom 0 prog.fugues :=
  programPedals prog ▸ List.mem_filter.mpr ⟨among,low⟩

/- Two notes of the melody are apart, if they are two. -/
theorem melodyApart {n m : Note} (n_ : n ∈ renderProgram prog) (m_ : m ∈ renderProgram prog) (high : n.isPedal = false)
    (high' : m.isPedal = false) : n = m ∨ n.end_ ≤ m.onset ∨ m.end_ ≤ n.onset := by
  by_cases same : n = m
  · exact .inl same
  · have line : ((renderProgram prog).filter Note.isMelody).Pairwise (fun n m => n.end_ ≤ m.onset ∨ m.end_ ≤ n.onset) :=
      (laidProgram prog).line.imp .inl
    have either : Std.Symm (fun n m : Note => n.end_ ≤ m.onset ∨ m.end_ ≤ n.onset) := ⟨fun _ _ => Or.symm⟩
    exact .inr (line.forall (List.mem_filter.mpr ⟨n_,by rw [Note.isMelody,high]; rfl⟩)
      (List.mem_filter.mpr ⟨m_,by rw [Note.isMelody,high']; rfl⟩) same)

variable (frames : Nat → UInt32) (distinct : ∀ n ∈ renderProgram prog, ∀ m ∈ renderProgram prog, pitchHz n.pitch = pitchHz m.pitch → n.pitch = m.pitch)
  (low : ∀ n ∈ renderProgram prog, (pitchHz n.pitch).toNat < sampleRate)
include distinct low

theorem pitchStep {n m : Note} (n_ : n ∈ renderProgram prog) (m_ : m ∈ renderProgram prog) (same : stepOf pitchHz n = stepOf pitchHz m) :
    n.pitch = m.pitch := distinct n n_ m m_ (stepInj (low n n_) (low m m_) same)

theorem uncutScore (uncut : ¬Cut prog.fugues) : ∀ m ∈ renderProgram prog, ∀ n ∈ renderProgram prog,
    stepOf pitchHz m = stepOf pitchHz n → n.onset < m.end_ → n.end_ ≤ m.end_ := by
  intro m m_ n n_ same before
  have pitch := pitchStep distinct low m_ n_ same
  have pedal : m.isPedal = n.isPedal := congrArg pedalPitches.contains pitch
  cases under : n.isPedal with
  | true => exact Nat.le_of_not_lt fun after => uncut (pedalsCut (scorePedal m_ (pedal.trans under)) (scorePedal n_ under) pitch before after)
  | false =>
    have held := (laidProgram prog).sounds n n_
    rcases melodyApart n_ m_ under (pedal.trans under) with rfl | earlier | later
    · exact Nat.le_refl _
    · exact Nat.le_trans earlier (Nat.le_add_right _ _)
    · exact absurd before (Nat.not_lt_of_ge later)

/- A step released as its pedal ends is not taken up again in that tick: no event of its pitch begins there. -/
theorem cutSilent (cut : Cut prog.fugues) : ∃ n ∈ renderProgram prog, ∃ t, SoundsAt n t ∧
    stepOf pitchHz n ∉ active (during pitchHz (renderProgram prog) frames t) := by
  obtain ⟨m,m_,n,n_,pitch,start,two,four⟩ := cutPedals 0 cut
  rw [← programPedals] at m_ n_
  have m_' := (List.mem_filter.mp m_).1
  have n_' := (List.mem_filter.mp n_).1
  have same : stepOf pitchHz m = stepOf pitchHz n := congrArg (fun p => freqToStep (pitchHz p)) pitch
  refine ⟨n,n_',n.onset + 2,⟨Nat.le_add_right _ _,by omega⟩,fun sounding => ?_⟩
  have fits := scoreFits pitchHz prog
  have sounds := (laidProgram prog).sounds
  have within (t : Nat) : Within pitchHz (renderProgram prog) t (playTo pitchHz (renderProgram prog) frames t) := playWithin fits sounds t
  rcases ((notesOnIs fits sounds (within _)).2 _).mp sounding with ⟨k,k_,begins,again⟩ | before
  · have pitch' := pitchStep distinct low k_ n_' again
    have under : k.isPedal = n.isPedal := congrArg pedalPitches.contains pitch'
    obtain ⟨a,a_⟩ := pedalsStart (scorePedal k_ (under.trans (List.mem_filter.mp n_).2))
    obtain ⟨b,b_⟩ := pedalsStart (scorePedal n_' (List.mem_filter.mp n_).2)
    omega
  · have step := ((playStep fits sounds (within (n.onset + 1))).2 _).mp before
    exact step.2 m m_' (by rw [Note.end_]; omega) same

omit distinct low

/- Equal temperament in whole hertz, from the lowest octave in billionths. -/
def equalTempered (p : Pitch) : UInt32 :=
  let lowest := [8175798916,8661957218,9177023997,9722718241,10300861154,10913382232,11562325710,12249857374,12978271799,13750000000,14567617547,15433853164]
  UInt32.ofNat ((lowest.getD (p.toNat % 12) 0 * 2 ^ (p.toNat / 12) * 2 + 1000000000) / 2000000000)

/- A fugue in Re with a pedal, and the next with a pedal and an exposition over it. -/
def expounded : Fugue := ⟨"b",.re,[("r",.unit)],some ("f","x",.var "x"),[],[],[]⟩
def bare : Fugue := ⟨"a",.re,[("q",.unit)],none,[],[],[]⟩

end Score

end Officium.Organ
