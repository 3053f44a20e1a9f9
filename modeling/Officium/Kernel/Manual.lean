import Mathlib.Data.List.Induction
import Officium.Kernel.Organ
import Officium.Library.Plays

/-! The keyboard as a manual: `piano` and `transcribe` read raw key events, sound each key on the
speaker or the synth, and `transcribe` collects the phrase. -/
namespace Officium.Manual
open Audio (Pitch)
open Organ (Voices)

/- The keys the manual knows; `other` stands for any of the rest. -/
inductive KeyCode where
  | escape | return_ | numpadEnter
  | z | x | c | v | b | n | m
  | a | w | s | e | d | f | t | g | y | h | u | j | k
  | o | l | p
  | other (code : Nat)
  deriving DecidableEq, Repr

inductive KeyState where | up | down | singleShot
  deriving DecidableEq, Repr

structure KeyEvent where
  code : KeyCode
  state : KeyState
  deriving DecidableEq, Repr

def keyMidi : KeyCode → Option Pitch
  | .z => some 48
  | .x => some 50
  | .c => some 52
  | .v => some 53
  | .b => some 55
  | .n => some 57
  | .m => some 59
  | .a => some 60
  | .w => some 61
  | .s => some 62
  | .e => some 63
  | .d => some 64
  | .f => some 65
  | .t => some 66
  | .g => some 67
  | .y => some 68
  | .h => some 69
  | .u => some 70
  | .j => some 71
  | .k => some 72
  | .o => some 73
  | .l => some 74
  | .p => some 75
  | _ => none

def keyNoteFreq (pitchHz : Pitch → UInt32) (code : KeyCode) : Option UInt32 := (keyMidi code).map pitchHz

def midiName (pitch : Pitch) : String :=
  ["c","c#","d","d#","e","f","f#","g","g#","a","a#","b"].getD (pitch.toNat % 12) "" ++ toString (pitch / 12 - 1).toNat

section Speaker

/- The PIT's second channel and the control port of the speaker. -/
structure Speaker where
  divisor : UInt16
  control : UInt8

def pitFrequency : Nat := 1193182

def toneDivisor (freqHz : UInt32) : UInt16 := UInt16.ofNat (min (max (pitFrequency / max freqHz.toNat 19) 1) 0xFFFF)

def startTone (s : Speaker) (freqHz : UInt32) : Speaker := ⟨toneDivisor freqHz,s.control ||| 3⟩

def stopTone (s : Speaker) : Speaker := { s with control := s.control &&& ~~~3 }

/- The wave that is heard: the gate and the output are both open. -/
def Speaker.sounding (s : Speaker) : Option UInt16 := if s.control &&& 3 = 3 then some s.divisor else none

@[simp] theorem startSounds (s : Speaker) (freqHz : UInt32) : (startTone s freqHz).sounding = some (toneDivisor freqHz) := by
  have opened : (s.control ||| 3) &&& 3 = 3 := by
    apply UInt8.toBitVec_inj.mp
    ext i low
    simp only [UInt8.toBitVec_and,UInt8.toBitVec_or,BitVec.getElem_and,BitVec.getElem_or]
    exact Bool.and_eq_right_iff_imp.mpr fun set_ => by rw [set_,Bool.or_true]
  exact if_pos opened

@[simp] theorem stopSounds (s : Speaker) : (stopTone s).sounding = none := by
  have closed : s.control &&& ~~~3 &&& 3 ≠ 3 := by
    rw [UInt8.and_assoc]
    simp
  exact if_neg closed

end Speaker

section Instruments
variable (pitchHz : Pitch → UInt32)

/- `piano`: the speaker, and the key whose tone it holds. -/
structure Piano where
  speaker : Speaker
  sounding : Option KeyCode

/- One turn of the loop; escape ends it. -/
def piano (p : Piano) (event : KeyEvent) : Except Speaker Piano :=
  match event.state with
  | .down =>
    if event.code = .escape then .error (stopTone p.speaker)
    else
      match keyNoteFreq pitchHz event.code with
      | some freq => .ok ⟨startTone p.speaker freq,some event.code⟩
      | none => .ok p
  | .up => if p.sounding = some event.code then .ok ⟨stopTone p.speaker,none⟩ else .ok p
  | .singleShot => .ok p

/- `transcribe`: the phrase so far and what of it is echoed. -/
structure Session where
  speaker : Speaker
  voices : Voices
  played : List Pitch
  echo : String

def quiet (poly : Bool) (m : Session) : Session :=
  if poly then { m with voices := Organ.allNotesOff m.voices } else { m with speaker := stopTone m.speaker }

/- How the loop is left. -/
inductive Left where
  | abandoned (m : Session)
  | entered (m : Session)

def Left.session : Left → Session
  | .abandoned m => m
  | .entered m => m

def transcribe (poly : Bool) (m : Session) (event : KeyEvent) : Except Left Session :=
  match event.state with
  | .down =>
    match event.code with
    | .escape => .error (.abandoned (quiet poly m))
    | .return_ | .numpadEnter => .error (.entered (quiet poly m))
    | code =>
      match keyMidi code with
      | some pitch =>
        let hz := pitchHz pitch
        let m := if poly then { m with voices := Organ.noteOn m.voices hz } else { m with speaker := startTone m.speaker hz }
        .ok { m with played := m.played ++ [pitch], echo := m.echo ++ midiName pitch ++ " " }
      | none => .ok m
  | .up =>
    match keyMidi event.code with
    | some pitch =>
      let hz := pitchHz pitch
      .ok (if poly then { m with voices := Organ.noteOff m.voices hz } else { m with speaker := stopTone m.speaker })
    | none => .ok m
  | .singleShot => .ok m

end Instruments

section Speaker
variable {pitchHz : Pitch → UInt32} {es : List KeyEvent} {e : KeyEvent} {key key_ : KeyCode}

/- The note key pressed last, not released since. -/
def Holding (es : List KeyEvent) (key : KeyCode) : Prop :=
  ∃ before after, es = before ++ ⟨key,.down⟩ :: after ∧ (keyMidi key).isSome ∧
    (∀ e ∈ after, e.state = .down → keyMidi e.code = none) ∧ ⟨key,.up⟩ ∉ after

theorem holdingNil : ¬Holding [] key := by
  rintro ⟨before,after,none_,-⟩
  cases before <;> cases none_

theorem holdingSnoc : Holding (es ++ [e]) key ↔ (e = ⟨key,.down⟩ ∧ (keyMidi key).isSome) ∨
    (Holding es key ∧ (e.state = .down → keyMidi e.code = none) ∧ e ≠ ⟨key,.up⟩) := by
  constructor
  · rintro ⟨before,after,split_,note,newest,kept⟩
    rcases List.eq_nil_or_concat after with rfl | ⟨after,last,rfl⟩
    · exact .inl ⟨(List.append_inj' split_ rfl).2 |> List.singleton_inj.mp,note⟩
    · rw [List.concat_eq_append,← List.cons_append,← List.append_assoc] at split_
      obtain ⟨rest,same⟩ := List.append_inj' split_ rfl
      cases List.singleton_inj.mp same
      rw [List.concat_eq_append] at newest kept
      refine .inr ⟨⟨before,after,rest,note,fun e mem => newest e (List.mem_append_left _ mem),fun mem => kept (List.mem_append_left _ mem)⟩,?_,?_⟩
      · exact newest e (List.mem_append_right _ List.mem_cons_self)
      · rintro rfl
        exact kept (List.mem_append_right _ List.mem_cons_self)
  · rintro (⟨rfl,note⟩ | ⟨⟨before,after,rfl,note,newest,kept⟩,other,held⟩)
    · exact ⟨es,[],rfl,note,nofun,List.not_mem_nil⟩
    · refine ⟨before,after ++ [e],by rw [List.append_assoc]; rfl,note,fun e' mem => ?_,fun mem => ?_⟩
      · rcases List.mem_append.mp mem with mem | mem
        · exact newest e' mem
        · rw [List.mem_singleton.mp mem]
          exact other
      · rcases List.mem_append.mp mem with mem | mem
        · exact kept mem
        · exact held (List.mem_singleton.mp mem).symm

theorem holdingOne (h : Holding es key) (h' : Holding es key_) : key = key_ := by
  induction es using List.reverseRecOn with
  | nil => exact absurd h holdingNil
  | append_singleton es e ih =>
    rcases holdingSnoc.mp h with ⟨rfl,note⟩ | ⟨before,other,-⟩ <;> rcases holdingSnoc.mp h' with ⟨down,note'⟩ | ⟨before',other',-⟩
    · exact (KeyEvent.mk.inj down).1
    · rw [other' rfl] at note
      cases note
    · rw [down] at other
      rw [other rfl] at note'
      cases note'
    · exact ih before before'

theorem holdingNote (h : Holding es key) : (keyMidi key).isSome := by
  obtain ⟨-,-,-,note,-⟩ := h
  exact note

/- The speaker sounds the held note, and is silent where there is none. -/
def Sounds (pitchHz : Pitch → UInt32) (es : List KeyEvent) (s : Speaker) : Prop :=
  ∀ wave, s.sounding = some wave ↔ ∃ key pitch, Holding es key ∧ keyMidi key = some pitch ∧ wave = toneDivisor (pitchHz pitch)

theorem soundsNote {s : Speaker} {pitch : Pitch} (held : Holding es key) (note : keyMidi key = some pitch) :
    Sounds pitchHz es (startTone s (pitchHz pitch)) := by
  intro wave
  rw [startSounds,Option.some.injEq]
  constructor
  · rintro rfl
    exact ⟨key,pitch,held,note,rfl⟩
  · rintro ⟨other,pitch',held',note',rfl⟩
    cases holdingOne held held'
    cases note.symm.trans note'
    rfl

theorem soundsNothing {s : Speaker} (quiet : s.sounding = none) (free : ∀ key, ¬Holding es key) : Sounds pitchHz es s := by
  intro wave
  rw [quiet]
  exact ⟨nofun,fun ⟨key,_,held,_⟩ => absurd held (free key)⟩

theorem soundsKept {s : Speaker} (sounds : Sounds pitchHz es s) (same : ∀ key, Holding (es ++ [e]) key ↔ Holding es key) :
    Sounds pitchHz (es ++ [e]) s := by
  intro wave
  rw [sounds wave]
  exact exists_congr fun key => exists_congr fun pitch => and_congr_left fun _ => (same key).symm

/- An event of a key that is no note, or of none, holds nothing and frees nothing. -/
theorem holdingOther (other : keyMidi e.code = none) : Holding (es ++ [e]) key ↔ Holding es key := by
  rw [holdingSnoc]
  constructor
  · rintro (⟨rfl,note⟩ | ⟨before,-⟩)
    · rw [other] at note
      cases note
    · exact before
  · intro before
    refine .inr ⟨before,fun _ => other,?_⟩
    rintro rfl
    have note := holdingNote before
    rw [other] at note
    cases note

theorem holdingSingle (single : e.state = .singleShot) : Holding (es ++ [e]) key ↔ Holding es key := by
  rw [holdingSnoc]
  constructor
  · rintro (⟨rfl,-⟩ | ⟨before,-⟩)
    · cases single
    · exact before
  · intro before
    refine .inr ⟨before,fun down => ?_,?_⟩
    · rw [single] at down
      cases down
    · rintro rfl
      cases single

theorem holdingReleased (up : e.state = .up) : Holding (es ++ [e]) key ↔ Holding es key ∧ key ≠ e.code := by
  rw [holdingSnoc]
  constructor
  · rintro (⟨rfl,-⟩ | ⟨before,-,other⟩)
    · cases up
    · refine ⟨before,?_⟩
      rintro rfl
      exact other (up ▸ rfl)
  · rintro ⟨before,other⟩
    refine .inr ⟨before,fun down => ?_,?_⟩
    · rw [up] at down
      cases down
    · rintro rfl
      exact other rfl

theorem holdingPressed (down : e.state = .down) (note : (keyMidi e.code).isSome) : Holding (es ++ [e]) key ↔ key = e.code := by
  rw [holdingSnoc]
  constructor
  · rintro (⟨rfl,-⟩ | ⟨-,other,-⟩)
    · rfl
    · rw [other down] at note
      cases note
  · rintro rfl
    exact .inl ⟨down ▸ rfl,note⟩

/- What `piano` keeps: the tone is the one of `sounding`. -/
structure Kept (pitchHz : Pitch → UInt32) (es : List KeyEvent) (p : Piano) : Prop where
  sounds : Sounds pitchHz es p.speaker
  knows : ∀ key, p.sounding = some key ↔ Holding es key

theorem pianoKeeps {p p' : Piano} (kept : Kept pitchHz es p) (h : piano pitchHz p e = .ok p') : Kept pitchHz (es ++ [e]) p' := by
  unfold piano at h
  split at h
  · rename_i down
    split at h
    · cases h
    · split at h
      · rename_i freq found
        cases h
        obtain ⟨pitch,note,rfl⟩ := Option.map_eq_some_iff.mp found
        have pressed (key : KeyCode) : Holding (es ++ [e]) key ↔ key = e.code := holdingPressed down (by rw [note]; rfl)
        refine ⟨soundsNote ((pressed e.code).mpr rfl) note,fun key => ?_⟩
        rw [pressed,Option.some.injEq]
        exact eq_comm
      · rename_i none_
        cases h
        have same (key : KeyCode) : Holding (es ++ [e]) key ↔ Holding es key := holdingOther (Option.map_eq_none_iff.mp none_)
        exact ⟨soundsKept kept.sounds same,fun key => (kept.knows key).trans (same key).symm⟩
  · rename_i up
    split at h
    · rename_i held
      cases h
      have free (key : KeyCode) : ¬Holding (es ++ [e]) key := by
        rw [holdingReleased up]
        rintro ⟨before,other⟩
        exact other (holdingOne before ((kept.knows _).mp held))
      exact ⟨soundsNothing (stopSounds _) free,fun key => ⟨nofun,fun held => absurd held (free key)⟩⟩
    · rename_i other
      cases h
      have same (key : KeyCode) : Holding (es ++ [e]) key ↔ Holding es key := by
        rw [holdingReleased up]
        refine ⟨And.left,fun before => ⟨before,?_⟩⟩
        rintro rfl
        exact other ((kept.knows _).mpr before)
      exact ⟨soundsKept kept.sounds same,fun key => (kept.knows key).trans (same key).symm⟩
  · rename_i single
    cases h
    have same (key : KeyCode) : Holding (es ++ [e]) key ↔ Holding es key := holdingSingle single
    exact ⟨soundsKept kept.sounds same,fun key => (kept.knows key).trans (same key).symm⟩

/- A note key is released while another, newer one is held. -/
def Overtaken (es : List KeyEvent) : Prop :=
  ∃ before key key_ after, es = before ++ ⟨key,.up⟩ :: after ∧ (keyMidi key).isSome ∧ Holding before key_ ∧ key_ ≠ key

theorem overtakenBefore {before after : List KeyEvent} (h : Overtaken before) : Overtaken (before ++ after) := by
  obtain ⟨first,key,key_,rest,rfl,facts⟩ := h
  exact ⟨first,key,key_,rest ++ after,by rw [List.append_assoc]; rfl,facts⟩

/- What a turn of `transcribe` does to the speaker, without the card. -/
theorem transcribeTurn {m m' : Session} (h : transcribe pitchHz false m e = .ok m') :
    match e.state, keyMidi e.code with
    | .down, some pitch => m' = { m with speaker := startTone m.speaker (pitchHz pitch), played := m.played ++ [pitch], echo := m.echo ++ midiName pitch ++ " " }
    | .up, some _ => m' = { m with speaker := stopTone m.speaker }
    | _, _ => m' = m := by
  unfold transcribe at h
  split at h
  · rename_i down
    rw [down]
    split at h
    · cases h
    · cases h
    · cases h
    · split at h
      · rename_i pitch note
        cases h
        rw [note]
        rfl
      · rename_i none_
        cases h
        rw [none_]
  · rename_i up
    rw [up]
    split at h
    · rename_i pitch note
      cases h
      rw [note]
      rfl
    · rename_i none_
      cases h
      rw [none_]
  · rename_i single
    cases h
    rw [single]

theorem transcribeKeeps {m m' : Session} (sounds : ¬Overtaken es → Sounds pitchHz es m.speaker) (h : transcribe pitchHz false m e = .ok m')
    (orderly : ¬Overtaken (es ++ [e])) : Sounds pitchHz (es ++ [e]) m'.speaker := by
  have before := sounds fun overtaken => orderly (overtakenBefore overtaken)
  have turn := transcribeTurn h
  split at turn
  · rename_i pitch down note
    rw [turn]
    exact soundsNote ((holdingPressed down (by rw [note]; rfl)).mpr rfl) note
  · rename_i pitch up note
    rw [turn]
    refine soundsNothing (stopSounds _) fun key held => ?_
    obtain ⟨held,other⟩ := (holdingReleased up).mp held
    exact orderly ⟨es,e.code,key,[],by rw [← up],by rw [note]; rfl,held,other⟩
  · rename_i other other'
    rw [turn]
    refine soundsKept before fun key => ?_
    cases state : e.state with
    | down => exact holdingOther (Option.eq_none_iff_forall_ne_some.mpr (fun pitch note => other pitch state note))
    | up => exact holdingOther (Option.eq_none_iff_forall_ne_some.mpr (fun pitch note => other' pitch state note))
    | singleShot => exact holdingSingle state

/- The two monophonic instruments; `transcribe` is one where there is no card. -/
inductive Instrument where | piano | transcribe
  deriving DecidableEq, Repr

/- The speaker after these events, if the loop still runs. -/
def speakerAfter (pitchHz : Pitch → UInt32) (s : Speaker) (es : List KeyEvent) : Instrument → Option Speaker
  | .piano => (Plays.play (piano pitchHz) ⟨s,none⟩ es).toOption.map Piano.speaker
  | .transcribe => (Plays.play (transcribe pitchHz false) ⟨s,Organ.silent,[],""⟩ es).toOption.map Session.speaker

def exits : Instrument → KeyEvent → Bool
  | .piano, e => e == ⟨.escape,.down⟩
  | .transcribe, e => e == ⟨.escape,.down⟩ || e == ⟨.return_,.down⟩ || e == ⟨.numpadEnter,.down⟩

theorem pianoStays (p : Piano) (stays : exits .piano e = false) : ∃ p', piano pitchHz p e = .ok p' := by
  obtain ⟨code,state⟩ := e
  cases state with
  | down =>
    have other : code ≠ .escape := by
      rintro rfl
      cases stays
    unfold piano
    dsimp only
    rw [if_neg other]
    split
    · exact ⟨_,rfl⟩
    · exact ⟨_,rfl⟩
  | up =>
    unfold piano
    dsimp only
    split
    · exact ⟨_,rfl⟩
    · exact ⟨_,rfl⟩
  | singleShot => exact ⟨_,rfl⟩

theorem transcribeStays (poly : Bool) (m : Session) (stays : exits .transcribe e = false) : ∃ m', transcribe pitchHz poly m e = .ok m' := by
  obtain ⟨code,state⟩ := e
  unfold transcribe
  cases state with
  | down =>
    dsimp only
    split
    · cases stays
    · cases stays
    · cases stays
    · split
      · exact ⟨_,rfl⟩
      · exact ⟨_,rfl⟩
  | up =>
    dsimp only
    split
    · exact ⟨_,rfl⟩
    · exact ⟨_,rfl⟩
  | singleShot => exact ⟨_,rfl⟩

/- Before the exit key the loop runs on. -/
theorem speakerRuns (pitchHz : Pitch → UInt32) (s : Speaker) (i : Instrument) (stays : ∀ e ∈ es, exits i e = false) :
    ∃ s', speakerAfter pitchHz s es i = some s' := by
  cases i with
  | piano =>
    obtain ⟨p,runs⟩ : ∃ p, Plays.play (piano pitchHz) ⟨s,none⟩ es = .ok p :=
      Plays.playRuns (fun p e mem => pianoStays p (stays e mem)) _
    exact ⟨p.speaker,by rw [speakerAfter,runs]; rfl⟩
  | transcribe =>
    obtain ⟨m,runs⟩ : ∃ m, Plays.play (transcribe pitchHz false) ⟨s,Organ.silent,[],""⟩ es = .ok m :=
      Plays.playRuns (fun m e mem => transcribeStays false m (stays e mem)) _
    exact ⟨m.speaker,by rw [speakerAfter,runs]; rfl⟩

variable {s s' : Speaker}

theorem soundsStart (silent : s.sounding = none) : Sounds pitchHz [] s := soundsNothing silent fun _ => holdingNil

theorem pianoSounds (silent : s.sounding = none) (after : speakerAfter pitchHz s es .piano = some s') : Sounds pitchHz es s' := by
  obtain ⟨p,runs,rfl⟩ := Option.map_eq_some_iff.mp after
  have start : Kept pitchHz [] ⟨s,none⟩ := ⟨soundsStart silent,fun key => ⟨nofun,fun held => absurd held holdingNil⟩⟩
  exact (Plays.playHistory (Kept pitchHz) (fun _ _ _ _ => pianoKeeps) start (Plays.toOptionSome runs)).sounds

theorem transcribeSounds (silent : s.sounding = none) (after : speakerAfter pitchHz s es .transcribe = some s') (orderly : ¬Overtaken es) :
    Sounds pitchHz es s' := by
  obtain ⟨m,runs,rfl⟩ := Option.map_eq_some_iff.mp after
  have start : ¬Overtaken [] → Sounds pitchHz [] s := fun _ => soundsStart silent
  exact Plays.playHistory (fun es (m : Session) => ¬Overtaken es → Sounds pitchHz es m.speaker) (fun _ _ _ _ => transcribeKeeps) start (Plays.toOptionSome runs) orderly

/- The key that is released takes the newer note's tone with it. -/
theorem transcribeCuts {key key_ : KeyCode} (note : (keyMidi key).isSome) (held : Holding es key_) (other : key_ ≠ key)
    (after : speakerAfter pitchHz s (es ++ [⟨key,.up⟩]) .transcribe = some s') : ¬Sounds pitchHz (es ++ [⟨key,.up⟩]) s' := by
  obtain ⟨m,runs,rfl⟩ := Option.map_eq_some_iff.mp after
  have turn := Plays.toOptionSome runs
  rw [Plays.playAppend] at turn
  split at turn
  · rename_i m' before
    obtain ⟨pitch,is_⟩ := Option.isSome_iff_exists.mp note
    obtain ⟨pitch',is'⟩ := Option.isSome_iff_exists.mp (holdingNote held)
    obtain ⟨m'',last,same⟩ := Plays.playCons turn
    cases same
    have cut := transcribeTurn last
    simp only [is_] at cut
    intro sounds
    have wanted := (sounds (toneDivisor (pitchHz pitch'))).mpr ⟨key_,pitch',(holdingReleased rfl).mpr ⟨held,other⟩,is',rfl⟩
    rw [cut,stopSounds] at wanted
    cases wanted
  · cases turn

/- After each event the speaker sounds the held note. -/
def Follows (pitchHz : Pitch → UInt32) (s : Speaker) (es : List KeyEvent) (i : Instrument) : Prop :=
  ∀ before after, es = before ++ after → ∃ s', speakerAfter pitchHz s before i = some s' ∧ Sounds pitchHz before s'

/- `piano` always follows the keys, and `transcribe` where no note key is released while a newer one is held. -/
theorem speakerFollows (pitchHz : Pitch → UInt32) (i : Instrument) (silent : s.sounding = none) (stays : ∀ e ∈ es, exits i e = false) :
    Follows pitchHz s es i ↔ (i = .transcribe → ¬Overtaken es) := by
  constructor
  · rintro follows rfl ⟨before,key,key_,after,rfl,note,held,other⟩
    obtain ⟨s',runs,sounds⟩ := follows (before ++ [⟨key,.up⟩]) after (by rw [List.append_assoc]; rfl)
    exact transcribeCuts note held other runs sounds
  · rintro orderly before after rfl
    obtain ⟨s',runs⟩ := speakerRuns pitchHz s i (fun e mem => stays e (List.mem_append_left _ mem))
    refine ⟨s',runs,?_⟩
    cases i with
    | piano => exact pianoSounds silent runs
    | transcribe => exact transcribeSounds silent runs fun overtaken => orderly rfl (overtakenBefore overtaken)

theorem speakerFollowsPiano : Follows Organ.equalTempered ⟨0,0⟩ [⟨.a,.down⟩,⟨.s,.down⟩,⟨.a,.up⟩] .piano ↔
    (Instrument.piano = .transcribe → ¬Overtaken [⟨.a,.down⟩,⟨.s,.down⟩,⟨.a,.up⟩]) :=
  speakerFollows Organ.equalTempered .piano (by decide) (by decide)

theorem speakerCut : ¬∀ (s : Speaker) (es : List KeyEvent) (i : Instrument), s.sounding = none → (∀ e ∈ es, exits i e = false) →
    Follows Organ.equalTempered s es i := by
  intro all
  obtain ⟨s',runs,sounds⟩ := all ⟨0,0⟩ [⟨.a,.down⟩,⟨.s,.down⟩,⟨.a,.up⟩] .transcribe (by decide) (by decide) _ [] (List.append_nil _).symm
  have holds : Holding [⟨.a,.down⟩,⟨.s,.down⟩,⟨.a,.up⟩] .s := ⟨[⟨.a,.down⟩],[⟨.a,.up⟩],rfl,rfl,by decide,by decide⟩
  have wanted := (sounds (toneDivisor (Organ.equalTempered 62))).mpr ⟨.s,62,holds,rfl,rfl⟩
  cases runs
  exact absurd wanted (by decide)

end Speaker

section Phrase
def held (down : List KeyCode) (e : KeyEvent) : List KeyCode :=
  match e.state with
  | .down => e.code :: down
  | .up => down.filter (· ≠ e.code)
  | .singleShot => down

/- The second sequence is the first with further presses of keys that are down, listed in order. After an
exit key nothing is read. -/
inductive Repeats : List KeyCode → List KeyEvent → List KeyEvent → List KeyCode → Prop where
  | done {down} : Repeats down [] [] []
  | left_ {down e rest rest'} (exit : exits .transcribe e = true) : Repeats down (e :: rest) (e :: rest') []
  | event {down e rest rest' keys} (stays : exits .transcribe e = false) (next : Repeats (held down e) rest rest' keys) :
      Repeats down (e :: rest) (e :: rest') keys
  | again {down rest rest' key keys} (is_down : key ∈ down) (next : Repeats down rest rest' keys) :
      Repeats down rest (⟨key,.down⟩ :: rest') (key :: keys)

/- The phrase collected when the loop is left, or so far. -/
def collected : Except Left Session → List Pitch
  | .ok m => m.played
  | .error left_ => left_.session.played

def phrase (pitchHz : Pitch → UInt32) (poly : Bool) (s : Speaker) (es : List KeyEvent) : List Pitch :=
  collected (Plays.play (transcribe pitchHz poly) ⟨s,Organ.silent,[],""⟩ es)

/- The note an event puts into the phrase. -/
def noteOf (e : KeyEvent) : List Pitch := if e.state = .down then (keyMidi e.code).toList else []

/- The notes of the events before the exit key. -/
def notes : List KeyEvent → List Pitch
  | [] => []
  | e :: rest => if exits .transcribe e then [] else noteOf e ++ notes rest

variable {pitchHz : Pitch → UInt32} {poly : Bool} {es es' : List KeyEvent} {keys down : List KeyCode} {e : KeyEvent}

theorem quietPlayed (poly : Bool) (m : Session) : (quiet poly m).played = m.played := by cases poly <;> rfl

theorem transcribeLeaves (m : Session) (exit : exits .transcribe e = true) :
    ∃ left_, transcribe pitchHz poly m e = .error left_ ∧ left_.session.played = m.played := by
  simp only [exits,Bool.or_eq_true,beq_iff_eq] at exit
  rcases exit with (rfl | rfl) | rfl <;> exact ⟨_,rfl,quietPlayed poly m⟩

theorem transcribeAdds {m m' : Session} (h : transcribe pitchHz poly m e = .ok m') : m'.played = m.played ++ noteOf e := by
  unfold transcribe at h
  unfold noteOf
  split at h
  · rename_i down
    rw [if_pos down]
    split at h
    · cases h
    · cases h
    · cases h
    · split at h
      · rename_i pitch note
        cases h
        rw [note]
        cases poly <;> rfl
      · rename_i none_
        cases h
        rw [none_]
        exact (List.append_nil _).symm
  · rename_i up
    rw [up,if_neg (by decide),List.append_nil]
    split at h
    · cases h
      cases poly <;> rfl
    · cases h
      rfl
  · rename_i single
    cases h
    rw [single,if_neg (by decide),List.append_nil]

theorem phraseNotes (pitchHz : Pitch → UInt32) (poly : Bool) (s : Speaker) (es : List KeyEvent) : phrase pitchHz poly s es = notes es := by
  have from_ (m : Session) : collected (Plays.play (transcribe pitchHz poly) m es) = m.played ++ notes es := by
    induction es generalizing m with
    | nil => exact (List.append_nil _).symm
    | cons e rest ih =>
      rw [notes]
      split
      · rename_i exit
        obtain ⟨left_,stops,same⟩ := @transcribeLeaves pitchHz poly e m exit
        rw [Plays.play,stops]
        exact same.trans (List.append_nil _).symm
      · rename_i stays
        obtain ⟨m',next⟩ := @transcribeStays pitchHz e poly m (Bool.not_eq_true _ ▸ stays)
        rw [Plays.playStep next,ih,transcribeAdds next,List.append_assoc]
  exact from_ _

/- Keys that are down are no exit keys. -/
theorem repeatsNotes (repeats : Repeats down es es' keys) (inside : ∀ key ∈ down, exits .transcribe ⟨key,.down⟩ = false) :
    (notes es').length = (notes es).length + (keys.filterMap keyMidi).length ∧
      (keys.filterMap keyMidi = [] → notes es' = notes es) := by
  induction repeats with
  | done => exact ⟨rfl,fun _ => rfl⟩
  | left_ exit =>
    rw [notes,if_pos exit,notes,if_pos exit]
    exact ⟨rfl,fun _ => rfl⟩
  | @event down e rest rest' keys stays next ih =>
    have inside' : ∀ key ∈ held down e, exits .transcribe ⟨key,.down⟩ = false := by
      intro key mem
      obtain ⟨code,state⟩ := e
      cases state with
      | down =>
        rcases List.mem_cons.mp mem with rfl | mem
        · exact stays
        · exact inside key mem
      | up => exact inside key (List.mem_filter.mp mem).1
      | singleShot => exact inside key mem
    obtain ⟨size,same⟩ := ih inside'
    rw [notes,notes,if_neg (by rw [stays]; decide),if_neg (by rw [stays]; decide)]
    refine ⟨?_,fun none_ => by rw [same none_]⟩
    rw [List.length_append,List.length_append,size,Nat.add_assoc]
  | @again down rest rest' key keys is_down next ih =>
    obtain ⟨size,same⟩ := ih inside
    rw [notes,if_neg (by rw [inside key is_down]; decide),noteOf,if_pos rfl]
    cases note : keyMidi key with
    | none =>
      rw [List.filterMap_cons_none note]
      exact ⟨size,same⟩
    | some pitch =>
      rw [List.filterMap_cons_some note]
      refine ⟨?_,nofun⟩
      rw [List.length_append,size,List.length_cons]
      have one : (some pitch).toList.length = 1 := rfl
      omega

/- A key that repeats while it is held leaves the phrase as it is exactly if it is no note. -/
theorem phraseRepeats (pitchHz : Pitch → UInt32) (poly : Bool) (s : Speaker) (repeats : Repeats [] es es' keys) :
    phrase pitchHz poly s es' = phrase pitchHz poly s es ↔ ∀ key ∈ keys, keyMidi key = none := by
  obtain ⟨size,same⟩ := repeatsNotes repeats (nofun)
  rw [phraseNotes,phraseNotes,← List.filterMap_eq_nil_iff]
  constructor
  · intro equal
    rw [equal] at size
    exact List.eq_nil_of_length_eq_zero (by omega)
  · exact same

theorem phraseRepeatsShift : phrase Organ.equalTempered false ⟨0,0⟩ [⟨.other 42,.down⟩,⟨.other 42,.down⟩,⟨.s,.down⟩,⟨.return_,.down⟩] =
    phrase Organ.equalTempered false ⟨0,0⟩ [⟨.other 42,.down⟩,⟨.s,.down⟩,⟨.return_,.down⟩] ↔ ∀ key ∈ [KeyCode.other 42], keyMidi key = none :=
  phraseRepeats _ _ _ (.event rfl (.again List.mem_cons_self (.event rfl (.left_ rfl))))

theorem phraseStutters : ¬∀ (es es' : List KeyEvent) (keys : List KeyCode), Repeats [] es es' keys →
    phrase Organ.equalTempered false ⟨0,0⟩ es' = phrase Organ.equalTempered false ⟨0,0⟩ es := by
  intro all
  have twice : Repeats [] [⟨.s,.down⟩,⟨.s,.up⟩,⟨.return_,.down⟩] [⟨.s,.down⟩,⟨.s,.down⟩,⟨.s,.up⟩,⟨.return_,.down⟩] [.s] :=
    .event rfl (.again List.mem_cons_self (.event rfl (.left_ rfl)))
  exact absurd (all _ _ _ twice) (by decide)

end Phrase

end Officium.Manual
