import Officium.Audio.Transcribe
import Officium.Drivers
import Officium.Kernel.Celebrare
import Officium.Kernel.Manual
import Officium.Kernel.Prompt

/-! The shell from scancode to scancode: lines are edited and executed, the instruments take the keys in between, and a
score that is typed goes to `celebrare`. Whatever was done, the shell is back at its prompt in silence. -/
namespace Officium.Shell
open Audio (Pitch)
open Manual (KeyCode KeyEvent Speaker startTone stopTone)
open Organ (Voices)
open Screen (isControl erases enters)
open Celebrare (PlayCall)

inductive DecodedKey where
  | unicode (ch : Char)
  | rawKey (code : KeyCode)

/- What the shell is linked with and what the boot has found; `bound` is on the parser, the checker and the transcriber. -/
structure Installed (D : Type) where
  addByte : D → UInt8 → D × Option KeyEvent
  processKeyevent : D → KeyEvent → D × Option DecodedKey
  pitchHz : Pitch → UInt32
  meteor : String
  cantus : String
  available : Bool
  frames : Nat → UInt32
  bound : Nat

/- A scancode, and what the commands read off the machine where they are executed. -/
structure Turn where
  byte : UInt8
  ticks : Nat
  used : Nat
  free : Nat

/- `println!` of what a performance comes to is left out. -/
inductive Act where
  | print (s : String)
  | clear
  | tone (freqHz : UInt32) (ms : UInt64)
  | pause (ms : UInt64)
  | rendered (calls : List PlayCall)
  | celebrated (events : List Officium.Event)
  | loud (d : Raise)
  | userspace

inductive Doing where
  | run (line : List Char)
  | readScore (score line : List Char)
  | piano (sounding : Option KeyCode)
  | organ
  | transcribe (played : List Pitch)

structure Vigil (D : Type) where
  keyboard : D
  doing : Doing
  speaker : Speaker
  voices : Voices
  log : List Act

/- A panic of the kernel, or a bound that was too small. -/
inductive Stop where | panic | bound

section Words

/- `char::is_whitespace` -/
def isWhitespace (ch : Char) : Bool :=
  (9 ≤ ch.val && ch.val ≤ 13) || ch.val == 32 || ch.val == 0x85 || ch.val == 0xa0 || ch.val == 0x1680 ||
    (0x2000 ≤ ch.val && ch.val ≤ 0x200a) || ch.val == 0x2028 || ch.val == 0x2029 || ch.val == 0x202f || ch.val == 0x205f || ch.val == 0x3000

def trimStart (s : List Char) : List Char := s.dropWhile isWhitespace

def trim (s : List Char) : List Char := (trimStart (trimStart s).reverse).reverse

def splitWhitespace (s : List Char) : List (List Char) := (s.splitOnP isWhitespace).filter (fun part => !part.isEmpty)

/- `str::parse` of an unsigned number. -/
def parseUnsigned (bound : Nat) (s : List Char) : Option Nat :=
  let digits := if s.head? = some '+' then s.tail else s
  if digits.isEmpty || !digits.all Char.isDigit then none
  else
    let n := digits.foldl (fun n ch => 10 * n + (ch.toNat - '0'.toNat)) 0
    if n < bound then some n else none

def splitOnce (ch : Char) (s : List Char) : Option (List Char × List Char) :=
  if s.contains ch then some (s.takeWhile (· != ch),(s.dropWhile (· != ch)).tail) else none

def octaveFour : List (String × UInt32) := [("c",262),("c#",277),("d",294),("d#",311),("e",330),("f",349),("f#",370),("g",392),
  ("g#",415),("a",440),("a#",466),("b",494)]

/- The octave is split off as the last byte, which is to be a character of its own. -/
def noteFreq (note : List Char) : Except Stop (Option UInt32) :=
  if (note.map Char.utf8Size).sum < 2 then .ok none
  else
    match note.getLast? with
    | none => .ok none
    | some last =>
      if last.utf8Size ≠ 1 then .error .panic
      else
        match parseUnsigned (2^32) [last], octaveFour.lookup (String.ofList note.dropLast) with
        | some octave, some base =>
          if octave ≤ 4 then .ok (some (base >>> UInt32.ofNat (4 - octave)))
          else if octave ≤ 8 then .ok (some (base <<< UInt32.ofNat (octave - 4)))
          else .ok none
        | _, _ => .ok none

end Words

def print {D : Type} (s : Vigil D) (text : String) : Vigil D := { s with log := s.log ++ [.print text] }

def println {D : Type} (s : Vigil D) (text : String) : Vigil D := print s (text ++ "\n")

section Commands
variable {D : Type} (k : Installed D)

/- The score of this name, or the one that was typed. -/
def scoreNamed (name : String) (typed : Option String) : Option String :=
  match name, typed with
  | "-", some s => some s
  | "meteor", _ => some k.meteor
  | "cantus", _ => some k.cantus
  | _, _ => none

/- The organ reads an accepted score back before its verses are run. -/
def sing (prog : Program) (s : Vigil D) : Except Stop (Vigil D) :=
  if k.available then
    match Celebrare.play (Audio.renderProgram prog) with
    | none => .error .panic
    | some calls =>
      .ok { s with
        voices := Celebrare.perform k.pitchHz k.frames 0 calls s.voices
        log := s.log ++ [.rendered calls,.celebrated (Kernel.celebrare prog)] }
  else .ok { s with log := s.log ++ [.celebrated (Kernel.celebrare prog)] }

def celebrareText (src : String) (s : Vigil D) : Except Stop (Vigil D) :=
  match Parser.parse k.bound src with
  | none => .error .bound
  | some (.error d) => .ok { s with log := s.log ++ [.loud d] }
  | some (.ok prog) =>
    match Check.checkProgram k.bound prog with
    | none => .error .bound
    | some (.error d) => .ok { s with log := s.log ++ [.loud d] }
    | some (.ok ()) => sing k prog s

def celebrare (name : String) (typed : Option String) (s : Vigil D) : Except Stop (Vigil D) :=
  match scoreNamed k name typed with
  | none => .ok (println s ("unknown score '" ++ name ++ "'; try: celebrare meteor | celebrare cantus | celebrare -"))
  | some src => celebrareText k src s

/- A tone is held for the time and stopped. -/
def tone (s : Vigil D) (freqHz : UInt32) (ms : UInt64) : Vigil D :=
  { s with speaker := stopTone (startTone s.speaker freqHz), log := s.log ++ [.tone freqHz ms] }

/- Repeated notes are to be told apart. -/
def gap (s : Vigil D) : Vigil D := { s with log := s.log ++ [.pause 30] }

/- An optional `:ms` suffix sets the length. -/
def noteLength (token : List Char) : List Char × Nat :=
  match splitOnce ':' token with
  | some (note,ms) => (note,(parseUnsigned (2^64) ms).getD 400)
  | none => (token,400)

/- `play`: the notes up to the first bad one. -/
def playNotes (s : Vigil D) : List (List Char) → Except Stop (Vigil D)
  | [] => .ok s
  | token :: rest =>
    match noteFreq (noteLength token).1 with
    | .error stop => .error stop
    | .ok none => .ok (println s ("bad note '" ++ String.ofList (noteLength token).1 ++ "'"))
    | .ok (some freq) => playNotes (gap (tone s freq (UInt64.ofNat (noteLength token).2))) rest

def help : List String := ["available commands:",
  "  help           this text",
  "  echo <text>    print text",
  "  clear          clear the screen",
  "  uptime         time since boot",
  "  heap           allocator statistics",
  "  beep [hz] [ms] beep (default 440 Hz, 300 ms)",
  "  play <notes>   play notes, e.g. play c4 e4 g4 c5:800",
  "  piano          live instrument (pc speaker, mono)",
  "  organ          live instrument (ac97, polyphonic)",
  "  transcribe     play a phrase, hear it back as an Officium verse",
  "  celebrare <s>  run an Officium score (meteor, cantus, or - to type one)",
  "  userspace      celebrate from ring 3 through the syscall gate"]

def uptime (ticks : Nat) : String :=
  let ms := ticks * 55
  let rest := toString (ms % 1000)
  toString (ms / 1000) ++ "." ++ String.ofList (List.replicate (3 - rest.length) '0') ++ rest ++ " s"

def execute (turn : Turn) (line : List Char) (s : Vigil D) : Except Stop (Vigil D) :=
  match splitWhitespace line with
  | [] => .ok s
  | command :: parts =>
    match String.ofList command with
    | "help" => .ok (help.foldl println s)
    | "echo" => .ok (println s (String.ofList (trimStart (line.drop command.length))))
    | "clear" => .ok { s with log := s.log ++ [.clear] }
    | "uptime" => .ok (println s (uptime turn.ticks))
    | "heap" => .ok (println s ("heap: " ++ toString turn.used ++ " bytes used, " ++ toString turn.free ++ " bytes free"))
    | "beep" =>
      let freq := (parts.head?.bind (parseUnsigned (2^32))).getD 440
      let ms := (parts.tail.head?.bind (parseUnsigned (2^64))).getD 300
      .ok (tone s (UInt32.ofNat freq) (UInt64.ofNat ms))
    | "play" => playNotes s parts
    | "celebrare" => celebrare k (String.ofList (parts.headD "meteor".toList)) none s
    | "userspace" | "mundus" => .ok { s with log := s.log ++ [.userspace] }
    | unknown => .ok (println s ("unknown command '" ++ unknown ++ "', try 'help'"))

end Commands

section Turns
variable {D : Type} (k : Installed D)

/- Back at the prompt, with nothing typed. -/
def prompt (s : Vigil D) : Vigil D := print { s with doing := .run [] } "> "

def prompted : Except Stop (Vigil D) → Except Stop (Vigil D) := Except.map prompt

def keys : String := "a s d f g h j k = c4..c5, w e t y u = sharps, esc exits"

/- A line is entered; the instruments and `celebrare -` go on with the scancodes. -/
def entered (turn : Turn) (line : List Char) (s : Vigil D) : Except Stop (Vigil D) :=
  let s := println s ""
  match String.ofList (trim line) with
  | "piano" => .ok { println s ("piano: " ++ keys) with doing := .piano none }
  | "organ" =>
    if k.available then .ok { println (println s ("organ: " ++ keys)) "polyphonic: hold several keys for a chord" with doing := .organ }
    else .ok (prompt (println s "ac97 not available"))
  | "transcribe" =>
    let s := println s "transcribe: play the manual (z-row = octave 3, a-row = octave 4, o l p above)"
    .ok { println s "the last note is the cadence; enter transcribes, esc abandons" with doing := .transcribe [] }
  | "celebrare -" => .ok { print (println s "type the score; an empty line celebrates it") "| " with doing := .readScore [] [] }
  | _ => prompted (execute k turn (trim line) s)

/- A key that edits a line, in `run` and in `read_score` alike. -/
def edit (line : List Char) (ch : Char) (s : Vigil D) : List Char × Vigil D :=
  if erases ch then
    if line = [] then (line,s) else (line.dropLast,print s (String.singleton (Char.ofNat 8)))
  else if isControl ch then (line,s)
  else (line ++ [ch],print s (String.singleton ch))

def runKey (turn : Turn) (line : List Char) (ch : Char) (s : Vigil D) : Except Stop (Vigil D) :=
  if enters ch then entered k turn line s
  else
    let (line,s) := edit line ch s
    .ok { s with doing := .run line }

def readScoreKey (score line : List Char) (ch : Char) (s : Vigil D) : Except Stop (Vigil D) :=
  if enters ch then
    let s := println s ""
    if line = [] then prompted (celebrare k "-" (some (String.ofList score)) s)
    else .ok { print s "| " with doing := .readScore (score ++ line ++ ['\n']) [] }
  else
    let (line,s) := edit line ch s
    .ok { s with doing := .readScore score line }

def pianoTurn (sounding : Option KeyCode) (event : KeyEvent) (s : Vigil D) : Except Stop (Vigil D) :=
  match Manual.piano k.pitchHz ⟨s.speaker,sounding⟩ event with
  | .ok p => .ok { s with speaker := p.speaker, doing := .piano p.sounding }
  | .error speaker => .ok (prompt { s with speaker := speaker })

def organTurn (event : KeyEvent) (s : Vigil D) : Except Stop (Vigil D) :=
  match event.state with
  | .down =>
    if event.code = .escape then .ok (prompt { s with voices := Organ.allNotesOff s.voices })
    else
      match Manual.keyNoteFreq k.pitchHz event.code with
      | some freq => .ok { s with voices := Organ.noteOn s.voices freq }
      | none => .ok s
  | .up =>
    match Manual.keyNoteFreq k.pitchHz event.code with
    | some freq => .ok { s with voices := Organ.noteOff s.voices freq }
    | none => .ok s
  | .singleShot => .ok s

/- The phrase as a verse, shown and celebrated like any other score. -/
def transcribed (played : List Pitch) (s : Vigil D) : Except Stop (Vigil D) :=
  match Audio.transcribe k.bound played "auditum" with
  | none => .error .bound
  | some (.error (.dissonance (.parse line msg))) => .ok (println s ("dissonantia (note " ++ toString line ++ "): " ++ msg))
  | some (.error d) => .ok { s with log := s.log ++ [.loud d] }
  | some (.ok text) => celebrare k "-" (some text) (println (print (println s "--- transcriptum ---") text) "--------------------")

def transcribeTurn (played : List Pitch) (event : KeyEvent) (s : Vigil D) : Except Stop (Vigil D) :=
  match Manual.transcribe k.pitchHz k.available ⟨s.speaker,s.voices,played,""⟩ event with
  | .ok m => .ok (print { s with speaker := m.speaker, voices := m.voices, doing := .transcribe m.played } m.echo)
  | .error (.abandoned m) => .ok (prompt (println (println { s with speaker := m.speaker, voices := m.voices } "") "abandoned"))
  | .error (.entered m) => prompted (transcribed k m.played (println { s with speaker := m.speaker, voices := m.voices } ""))

/- One scancode; only the lines need the key decoded. -/
def step (s : Vigil D) (turn : Turn) : Except Stop (Vigil D) :=
  match k.addByte s.keyboard turn.byte with
  | (keyboard,none) => .ok { s with keyboard := keyboard }
  | (keyboard,some event) =>
    match s.doing with
    | .piano sounding => pianoTurn k sounding event { s with keyboard := keyboard }
    | .organ => organTurn k event { s with keyboard := keyboard }
    | .transcribe played => transcribeTurn k played event { s with keyboard := keyboard }
    | .run line =>
      match k.processKeyevent keyboard event with
      | (keyboard,some (.unicode ch)) => runKey k turn line ch { s with keyboard := keyboard }
      | (keyboard,_) => .ok { s with keyboard := keyboard }
    | .readScore score line =>
      match k.processKeyevent keyboard event with
      | (keyboard,some (.unicode ch)) => readScoreKey k score line ch { s with keyboard := keyboard }
      | (keyboard,_) => .ok { s with keyboard := keyboard }

/- Where `run` starts; the card has been initialized. -/
def boot (keyboard : D) (speaker : Speaker) : Vigil D := prompt ⟨keyboard,.run [],speaker,Organ.silent,[]⟩

end Turns

/- Some keys of the US layout: their scancodes, and their characters without shift and with it. -/
def clavis : List (UInt8 × KeyCode × Char × Char) := [(0x2e,.c,'c','C'),(0x12,.e,'e','E'),(0x26,.l,'l','L'),(0x30,.b,'b','B'),
  (0x13,.other 0x13,'r','R'),(0x1e,.a,'a','A'),(0x39,.other 0x39,' ',' '),(0x0c,.other 0x0c,'-','_'),(0x21,.f,'f','F'),(0x16,.u,'u','U'),
  (0x22,.g,'g','G'),(0x17,.other 0x17,'i','I'),(0x31,.n,'n','N'),(0x18,.o,'o','O'),(0x19,.p,'p','P'),(0x1a,.other 0x1a,'[','\x7b'),
  (0x1b,.other 0x1b,']','\x7d'),(0x1c,.return_,'\n','\n'),(0x0e,.other 0x0e,Char.ofNat 8,Char.ofNat 8),(0x01,.escape,Char.ofNat 27,Char.ofNat 27),
  (0x2a,.other 0x2a,' ',' ')]

/- A kernel without a card, and with a keyboard that knows the left shift key. -/
def claviger : Installed Bool where
  addByte shift byte := (shift,(clavis.find? (·.1 == byte &&& 0x7f)).map fun key => ⟨key.2.1,if byte &&& 0x80 = 0 then .down else .up⟩)
  processKeyevent shift event :=
    if event.code = .other 0x2a then (event.state == .down,some (.rawKey event.code))
    else if event.state = .down then
      (shift,(clavis.find? (·.2.1 == event.code)).map fun key => .unicode (if shift then key.2.2.2 else key.2.2.1))
    else (shift,none)
  pitchHz _ := 440
  meteor := ""
  cantus := ""
  available := false
  frames _ := 0
  bound := 20

def pressed (bytes : List UInt8) : List Turn := bytes.map fun byte => ⟨byte,0,0,0⟩

section Silence
variable {D : Type} {k : Installed D} {s t : Vigil D} {available : Bool}

structure Quiet (speaker : Speaker) (voices : Voices) : Prop where
  speaker : speaker.sounding = none
  voices : voices = Organ.silent

abbrev Silent (s : Vigil D) : Prop := Quiet s.speaker s.voices

/- What may sound, and what may not. -/
def Hushed (available : Bool) (s : Vigil D) : Prop :=
  match s.doing with
  | .run _ | .readScore _ _ => Silent s
  | .piano _ => s.voices = Organ.silent
  | .organ => s.speaker.sounding = none
  | .transcribe _ => if available then s.speaker.sounding = none else s.voices = Organ.silent

theorem silentHushed (silent : Silent s) : Hushed available s := by
  unfold Hushed
  split
  · exact silent
  · exact silent
  · exact silent.voices
  · exact silent.speaker
  · split
    · exact silent.speaker
    · exact silent.voices

/- A performance that ends with `all_notes_off` ends in silence. -/
theorem performEnds {pitchHz : Pitch → UInt32} {frames : Nat → UInt32} (i : Nat) (calls : List PlayCall) (voices : Voices) :
    Celebrare.perform pitchHz frames i (calls ++ [.allNotesOff]) voices = Organ.silent := by
  induction calls generalizing i voices with
  | nil => rfl
  | cons call rest ih =>
    cases call with
    | organ call =>
      cases call with
      | noteOn _ pitch _ => exact ih ..
      | noteOff _ pitch => exact ih ..
      | tick _ => exact ih ..
    | sleepMs _ => exact ih ..
    | allNotesOff => exact ih ..

theorem playSilences {events : List Audio.Note} {calls : List PlayCall} (h : Celebrare.play events = some calls) {pitchHz : Pitch → UInt32}
    {frames : Nat → UInt32} : Celebrare.perform pitchHz frames 0 calls Organ.silent = Organ.silent := by
  unfold Celebrare.play at h
  cases ends : events.mapM (fun n => Audio.ticksSum n.onset n.dur) with
  | none =>
    rw [ends] at h
    cases h
  | some sums =>
    simp only [ends,Option.bind_eq_bind,Option.bind_some] at h
    split at h
    · cases h
      rfl
    · obtain ⟨turns,-,last⟩ := Option.bind_eq_some_iff.mp h
      cases last
      exact performEnds ..

theorem toneSilent (silent : Silent s) (freqHz : UInt32) (ms : UInt64) : Silent (tone s freqHz ms) :=
  ⟨Manual.stopSounds _,silent.voices⟩

theorem playNotesSilent {tokens : List (List Char)} (silent : Silent s) (h : playNotes s tokens = .ok t) : Silent t := by
  induction tokens generalizing s with
  | nil =>
    cases h
    exact silent
  | cons token rest ih =>
    rw [playNotes] at h
    split at h
    · cases h
    · cases h
      exact silent
    · rename_i freq _
      have toned := toneSilent silent freq (UInt64.ofNat (noteLength token).2)
      exact ih (s := gap (tone s freq (UInt64.ofNat (noteLength token).2))) toned h

theorem celebrareTextSilent {src : String} (silent : Silent s) (h : celebrareText k src s = .ok t) : Silent t := by
  unfold celebrareText at h
  split at h
  · cases h
  · cases h
    exact silent
  · split at h
    · cases h
    · cases h
      exact silent
    · unfold sing at h
      split at h
      · split at h
        · cases h
        · rename_i calls played
          cases h
          refine ⟨silent.speaker,?_⟩
          rw [silent.voices]
          exact playSilences played
      · cases h
        exact silent

theorem celebrareSilent {name : String} {typed : Option String} (silent : Silent s) (h : celebrare k name typed s = .ok t) : Silent t := by
  unfold celebrare at h
  split at h
  · cases h
    exact silent
  · exact celebrareTextSilent silent h

theorem helpSilent {texts : List String} (silent : Silent s) : Silent (texts.foldl println s) := by
  induction texts generalizing s with
  | nil => exact silent
  | cons text rest ih => exact ih silent

theorem executeSilent {turn : Turn} {line : List Char} (silent : Silent s) (h : execute k turn line s = .ok t) : Silent t := by
  unfold execute at h
  split at h
  · cases h
    exact silent
  · split at h
    case h_1 =>
      cases h
      exact helpSilent silent
    case h_6 =>
      cases h
      exact toneSilent silent ..
    case h_7 => exact playNotesSilent silent h
    case h_8 => exact celebrareSilent silent h
    all_goals
      cases h
      exact silent

/- Where a command was executed, the prompt is next. -/
theorem promptedHushed {r : Except Stop (Vigil D)} (silent : ∀ u, r = .ok u → Silent u) (h : prompted r = .ok t) : Hushed available t := by
  unfold prompted at h
  cases r with
  | error stop => cases h
  | ok u =>
    cases h
    exact silent u rfl

theorem enteredHushed {turn : Turn} {line : List Char} (silent : Silent s) (h : entered k turn line s = .ok t) : Hushed available t := by
  unfold entered at h
  dsimp only at h
  split at h
  · cases h
    exact silent.voices
  · split at h
    · cases h
      exact silent.speaker
    · cases h
      exact silent
  · cases h
    exact silentHushed (s := { println (println (println s "") _) _ with doing := .transcribe [] }) silent
  · cases h
    exact silent
  · exact promptedHushed (fun u done => executeSilent (s := println s "") silent done) h

theorem editSilent (silent : Silent s) (line : List Char) (ch : Char) : Silent (edit line ch s).2 := by
  unfold edit
  split
  · split
    · exact silent
    · exact silent
  · split
    · exact silent
    · exact silent

theorem runKeyHushed {turn : Turn} {line : List Char} {ch : Char} (silent : Silent s) (h : runKey k turn line ch s = .ok t) :
    Hushed available t := by
  unfold runKey at h
  split at h
  · exact enteredHushed silent h
  · cases h
    exact editSilent silent line ch

theorem readScoreHushed {score line : List Char} {ch : Char} (silent : Silent s) (h : readScoreKey k score line ch s = .ok t) :
    Hushed available t := by
  unfold readScoreKey at h
  split at h
  · dsimp only at h
    split at h
    · exact promptedHushed (fun u done => celebrareSilent (s := println s "") silent done) h
    · cases h
      exact silent
  · cases h
    exact editSilent silent line ch

/- The piano has the speaker, which it leaves silent. -/
theorem pianoHushed {sounding : Option KeyCode} {event : KeyEvent} (voices : s.voices = Organ.silent)
    (h : pianoTurn k sounding event s = .ok t) : Hushed available t := by
  unfold pianoTurn at h
  split at h
  · cases h
    exact voices
  · rename_i speaker left
    cases h
    have stopped : speaker.sounding = none := by
      unfold Manual.piano at left
      split at left
      · split at left
        · cases left
          exact Manual.stopSounds _
        · split at left <;> cases left
      · split at left <;> cases left
      · cases left
    exact ⟨stopped,voices⟩

theorem organHushed {event : KeyEvent} (speaker : s.speaker.sounding = none) (organ : s.doing = .organ)
    (h : organTurn k event s = .ok t) : Hushed available t := by
  have stays (voices : Voices) : Hushed available { s with voices := voices } := by
    unfold Hushed
    rw [organ]
    exact speaker
  unfold organTurn at h
  split at h
  · split at h
    · cases h
      exact ⟨speaker,rfl⟩
    · split at h
      · cases h
        exact stays _
      · cases h
        exact stays _
  · split at h
    · cases h
      exact stays _
    · cases h
      exact stays _
  · cases h
    exact stays _

/- With a card the phrase sounds on the voices, without one on the speaker. -/
def Unused (available : Bool) (speaker : Speaker) (voices : Voices) : Prop :=
  if available then speaker.sounding = none else voices = Organ.silent

theorem quietSilent {m : Manual.Session} (unused : Unused available m.speaker m.voices) :
    Quiet (Manual.quiet available m).speaker (Manual.quiet available m).voices := by
  unfold Manual.quiet
  cases available with
  | true => exact ⟨unused,rfl⟩
  | false => exact ⟨Manual.stopSounds _,unused⟩

theorem transcribeStays {m m' : Manual.Session} {event : KeyEvent} (unused : Unused k.available m.speaker m.voices)
    (h : Manual.transcribe k.pitchHz k.available m event = .ok m') : Unused k.available m'.speaker m'.voices := by
  have one (hz : UInt32) : Unused k.available (if k.available then { m with voices := Organ.noteOn m.voices hz }
      else { m with speaker := startTone m.speaker hz } : Manual.Session).speaker (if k.available then { m with voices := Organ.noteOn m.voices hz }
      else { m with speaker := startTone m.speaker hz } : Manual.Session).voices := by
    cases card : k.available <;> rw [card] at unused <;> exact unused
  have off (hz : UInt32) : Unused k.available (if k.available then { m with voices := Organ.noteOff m.voices hz }
      else { m with speaker := stopTone m.speaker } : Manual.Session).speaker (if k.available then { m with voices := Organ.noteOff m.voices hz }
      else { m with speaker := stopTone m.speaker } : Manual.Session).voices := by
    cases card : k.available <;> rw [card] at unused <;> exact unused
  unfold Manual.transcribe at h
  split at h
  · split at h
    · cases h
    · cases h
    · cases h
    · split at h
      · cases h
        exact one _
      · cases h
        exact unused
  · split at h
    · cases h
      exact off _
    · cases h
      exact unused
  · cases h
    exact unused

theorem transcribeLeaves {m : Manual.Session} {left : Manual.Left} {event : KeyEvent} (unused : Unused k.available m.speaker m.voices)
    (h : Manual.transcribe k.pitchHz k.available m event = .error left) :
    Quiet left.session.speaker left.session.voices := by
  unfold Manual.transcribe at h
  split at h
  · split at h
    · cases h
      exact quietSilent unused
    · cases h
      exact quietSilent unused
    · cases h
      exact quietSilent unused
    · split at h <;> cases h
  · split at h <;> cases h
  · cases h

theorem transcribedSilent {played : List Pitch} (silent : Silent s) (h : transcribed k played s = .ok t) : Silent t := by
  unfold transcribed at h
  split at h
  · cases h
  · cases h
    exact silent
  · cases h
    exact silent
  · rename_i text _
    exact celebrareSilent (s := println (print (println s _) text) _) silent h

theorem transcribeHushed {played : List Pitch} {event : KeyEvent} (unused : Unused k.available s.speaker s.voices)
    (h : transcribeTurn k played event s = .ok t) : Hushed k.available t := by
  unfold transcribeTurn at h
  split at h
  · rename_i m plays
    cases h
    exact transcribeStays (m := ⟨s.speaker,s.voices,played,""⟩) unused plays
  · rename_i m left
    cases h
    exact transcribeLeaves (m := ⟨s.speaker,s.voices,played,""⟩) unused left
  · rename_i m left
    have silent : Quiet m.speaker m.voices := transcribeLeaves (m := ⟨s.speaker,s.voices,played,""⟩) unused left
    exact promptedHushed (fun u done => transcribedSilent (s := println { s with speaker := m.speaker, voices := m.voices } "") silent done) h

theorem stepHushed {turn : Turn} (hushed : Hushed k.available s) (h : step k s turn = .ok t) : Hushed k.available t := by
  have decoding (keyboard : D) : Hushed k.available { s with keyboard := keyboard } := hushed
  unfold step at h
  unfold Hushed at hushed
  split at h
  · cases h
    exact decoding _
  · split at h
    · rename_i keyboard _ _ _ _ piano
      rw [piano] at hushed
      exact pianoHushed (s := { s with keyboard := keyboard }) hushed h
    · rename_i keyboard _ _ _ organ
      rw [organ] at hushed
      exact organHushed (s := { s with keyboard := keyboard }) hushed organ h
    · rename_i keyboard _ _ _ _ transcribe
      rw [transcribe] at hushed
      exact transcribeHushed (s := { s with keyboard := keyboard }) hushed h
    · rename_i line run
      rw [run] at hushed
      split at h
      · rename_i keyboard _ _
        exact runKeyHushed (s := { s with keyboard := keyboard }) hushed h
      · cases h
        exact decoding _
    · rename_i score line reading
      rw [reading] at hushed
      split at h
      · rename_i keyboard _ _
        exact readScoreHushed (s := { s with keyboard := keyboard }) hushed h
      · cases h
        exact decoding _

/- Whatever keys come, in whatever order, nothing sounds where the shell is at a prompt, an instrument leaves the other
sound source alone, and no command and no score leaves a tone behind. -/
theorem promptsSilent (k : Installed D) (keyboard : D) (speaker : Speaker) (off : speaker.sounding = none) (turns : List Turn) (s : Vigil D)
    (h : Plays.play (step k) (boot keyboard speaker) turns = .ok s) : Hushed k.available s := by
  have booted : Hushed k.available (boot keyboard speaker) := silentHushed ⟨off,rfl⟩
  exact Plays.playInvariant (Hushed k.available) (fun _ _ _ hushed next => stepHushed hushed next) booted h

/- piano, a key of it, escape. -/
def pianoPlayed : List Turn := pressed [0x19,0x99,0x17,0x97,0x1e,0x9e,0x31,0x18,0x1c,0x9c,0x1e,0x01,0x81]

theorem promptsSilentPiano : ∃ s, Plays.play (step claviger) (boot false ⟨0,0⟩) pianoPlayed = .ok s ∧ s.doing = .run [] ∧ Hushed false s := by
  obtain ⟨s,played,waits⟩ : ∃ s, Plays.play (step claviger) (boot false ⟨0,0⟩) pianoPlayed = .ok s ∧ s.doing = .run [] := ⟨_,rfl,rfl⟩
  exact ⟨s,played,waits,promptsSilent claviger false ⟨0,0⟩ rfl pianoPlayed s played⟩

end Silence

section Typing
variable {D : Type} (k : Installed D)

/- The character a scancode comes to where a line is edited. -/
def stroke (keyboard : D) (byte : UInt8) : D × Option Char :=
  match k.addByte keyboard byte with
  | (keyboard,none) => (keyboard,none)
  | (keyboard,some event) =>
    match k.processKeyevent keyboard event with
    | (keyboard,some (.unicode ch)) => (keyboard,some ch)
    | (keyboard,_) => (keyboard,none)

def typed (keyboard : D) : List Turn → D × List Char
  | [] => (keyboard,[])
  | turn :: rest =>
    let later := typed (stroke k keyboard turn.byte).1 rest
    (later.1,(stroke k keyboard turn.byte).2.toList ++ later.2)

/- What the keys leave of a line: an erasure takes the last character back. -/
def edits (line : List Char) (chs : List Char) : List Char :=
  chs.foldl (fun line ch => if erases ch then line.dropLast else if isControl ch then line else line ++ [ch]) line

def Act.isPrint : Act → Bool
  | .print _ => true
  | _ => false

/- What was done besides the printing. -/
def news (log : List Act) : List Act := log.filter (fun act => !act.isPrint)

/- A line under a cursor, of a score or of its own. -/
structure Page where
  score : Option (List Char)
  line : List Char

def Page.doing : Page → Doing
  | ⟨none,line⟩ => .run line
  | ⟨some score,line⟩ => .readScore score line

def Page.key (turn : Turn) (ch : Char) (s : Vigil D) : Page → Except Stop (Vigil D)
  | ⟨none,line⟩ => runKey k turn line ch s
  | ⟨some score,line⟩ => readScoreKey k score line ch s

/- What `celebrare` does with a score. -/
inductive Answers (src : String) : List Act → Prop where
  | unparsed {d} (parse : Parser.parse k.bound src = some (.error d)) : Answers src [.loud d]
  | unchecked {prog d} (parse : Parser.parse k.bound src = some (.ok prog)) (check : Check.checkProgram k.bound prog = some (.error d)) :
    Answers src [.loud d]
  | sung {prog calls} (parse : Parser.parse k.bound src = some (.ok prog)) (check : Check.checkProgram k.bound prog = some (.ok ()))
      (card : k.available) (play : Celebrare.play (Audio.renderProgram prog) = some calls) :
    Answers src [.rendered calls,.celebrated (Kernel.celebrare prog)]
  | unsung {prog} (parse : Parser.parse k.bound src = some (.ok prog)) (check : Check.checkProgram k.bound prog = some (.ok ()))
      (card : ¬k.available) : Answers src [.celebrated (Kernel.celebrare prog)]

variable {k} {s t : Vigil D} {turn : Turn} {ch : Char} {page : Page}

@[simp] theorem newsPrint (log : List Act) (text : String) : news (log ++ [.print text]) = news log := by
  unfold news
  rw [List.filter_append]
  exact List.append_nil _

theorem stepPage (here : s.doing = page.doing) : step k s turn = match stroke k s.keyboard turn.byte with
    | (keyboard,none) => .ok { s with keyboard := keyboard }
    | (keyboard,some ch) => page.key k turn ch { s with keyboard := keyboard } := by
  obtain ⟨score,line⟩ := page
  unfold step stroke
  cases bytes : k.addByte s.keyboard turn.byte with
  | mk keyboard event =>
    cases event with
    | none => rfl
    | some event =>
      cases score with
      | none =>
        rw [here]
        dsimp only [Page.doing]
        rcases k.processKeyevent keyboard event with ⟨keyboard',_ | _ | _⟩ <;> rfl
      | some score =>
        rw [here]
        dsimp only [Page.doing]
        rcases k.processKeyevent keyboard event with ⟨keyboard',_ | _ | _⟩ <;> rfl

/- Nothing but the decoder, the line and what is printed has changed. -/
structure Edited (s t : Vigil D) (page : Page) : Prop where
  doing : t.doing = page.doing
  news : news t.log = news s.log
  speaker : t.speaker = s.speaker
  voices : t.voices = s.voices

theorem editEdited (s : Vigil D) (line : List Char) (ch : Char) : (edit line ch s).1 = edits line [ch] ∧
    news (edit line ch s).2.log = news s.log ∧ (edit line ch s).2.speaker = s.speaker ∧ (edit line ch s).2.voices = s.voices ∧
    (edit line ch s).2.keyboard = s.keyboard := by
  unfold edit edits
  rw [List.foldl_cons,List.foldl_nil]
  split
  · split
    · rename_i empty
      subst empty
      exact ⟨rfl,rfl,rfl,rfl,rfl⟩
    · exact ⟨rfl,newsPrint _ _,rfl,rfl,rfl⟩
  · split
    · exact ⟨rfl,rfl,rfl,rfl,rfl⟩
    · exact ⟨rfl,newsPrint _ _,rfl,rfl,rfl⟩

theorem keyEdits (plain : enters ch = false) : ∃ t, page.key k turn ch s = .ok t ∧ t.keyboard = s.keyboard ∧
    Edited s t { page with line := edits page.line [ch] } := by
  obtain ⟨score,line⟩ := page
  obtain ⟨typed,news,speaker,voices,keyboard⟩ := editEdited s line ch
  have other : ¬enters ch = true := by
    rw [plain]
    exact Bool.false_ne_true
  cases score with
  | none =>
    refine ⟨{ (edit line ch s).2 with doing := .run (edit line ch s).1 },?_,keyboard,congrArg Doing.run typed,news,speaker,voices⟩
    exact if_neg other
  | some score =>
    refine ⟨{ (edit line ch s).2 with doing := .readScore score (edit line ch s).1 },?_,keyboard,congrArg (Doing.readScore score) typed,news,speaker,voices⟩
    exact if_neg other

/- A row of keys, before it is entered. -/
theorem rowEdits {turns : List Turn} (here : s.doing = page.doing) (plain : ∀ ch ∈ (typed k s.keyboard turns).2, enters ch = false) :
    ∃ t, Plays.play (step k) s turns = .ok t ∧ t.keyboard = (typed k s.keyboard turns).1 ∧
      Edited s t { page with line := edits page.line (typed k s.keyboard turns).2 } := by
  induction turns generalizing s page with
  | nil => exact ⟨s,rfl,rfl,here,rfl,rfl,rfl⟩
  | cons turn rest ih =>
    have stepped : step k s turn = _ := stepPage here
    rw [typed] at plain ⊢
    rcases stroked : stroke k s.keyboard turn.byte with ⟨keyboard,_ | ch⟩
    · rw [stroked] at plain stepped
      obtain ⟨t,played,decoder,edited⟩ := ih (s := { s with keyboard := keyboard }) here plain
      exact ⟨t,(Plays.playStep stepped rest).trans played,decoder,edited.doing,edited.news,edited.speaker,edited.voices⟩
    · rw [stroked] at plain stepped
      obtain ⟨u,keyed,decoder,edited⟩ : ∃ t, page.key k turn ch { s with keyboard := keyboard } = .ok t ∧ _ :=
        keyEdits (plain ch List.mem_cons_self)
      rw [← show u.keyboard = keyboard from decoder] at plain ⊢
      obtain ⟨t,played,decoder',edited'⟩ := ih edited.doing (fun ch mem => plain ch (List.mem_cons_of_mem _ mem))
      refine ⟨t,(Plays.playStep (stepped.trans keyed) rest).trans played,decoder',edited'.doing,?_,?_,?_⟩
      · exact edited'.news.trans edited.news
      · exact edited'.speaker.trans edited.speaker
      · exact edited'.voices.trans edited.voices

/- The scancode behind some of the characters, and what comes before and after it. -/
theorem typedSplit {keyboard : D} {turns : List Turn} {before after : List Char} (text : (typed k keyboard turns).2 = before ++ ch :: after) :
    ∃ first turn rest last, turns = first ++ turn :: rest ∧ (typed k keyboard first).2 = before ∧
      stroke k (typed k keyboard first).1 turn.byte = (last,some ch) ∧ (typed k last rest).2 = after := by
  induction turns generalizing keyboard before with
  | nil => cases before <;> cases text
  | cons turn rest ih =>
    rw [typed] at text
    rcases stroked : stroke k keyboard turn.byte with ⟨keyboard',_ | ch'⟩
    · rw [stroked] at text
      obtain ⟨first,turn',rest',last,rfl,before_,found,after_⟩ := ih text
      refine ⟨turn :: first,turn',rest',last,rfl,?_,?_,after_⟩
      · rw [typed,stroked]
        exact before_
      · rw [typed,stroked]
        exact found
    · rw [stroked] at text
      cases before with
      | nil =>
        obtain ⟨rfl,after_⟩ := List.cons.inj text
        exact ⟨[],turn,rest,keyboard',rfl,rfl,stroked,after_⟩
      | cons b before =>
        obtain ⟨rfl,text'⟩ := List.cons.inj text
        obtain ⟨first,turn',rest',last,rfl,before_,found,after_⟩ := ih text'
        refine ⟨turn :: first,turn',rest',last,rfl,?_,?_,after_⟩
        · rw [typed,stroked]
          exact congrArg (ch' :: ·) before_
        · rw [typed,stroked]
          exact found

theorem answersDone {src : String} {acts : List Act} (answers : Answers k src acts) (s : Vigil D) :
    ∃ t, celebrareText k src s = .ok t ∧ t.keyboard = s.keyboard ∧ news t.log = news s.log ++ acts := by
  have added (new : news acts = acts) : news (s.log ++ acts) = news s.log ++ acts :=
    (List.filter_append ..).trans (congrArg (news s.log ++ ·) new)
  unfold celebrareText
  cases answers with
  | unparsed parse =>
    rw [parse]
    exact ⟨_,rfl,rfl,added rfl⟩
  | unchecked parse check =>
    rw [parse]
    dsimp only
    rw [check]
    exact ⟨_,rfl,rfl,added rfl⟩
  | sung parse check card play =>
    rw [parse]
    dsimp only
    rw [check]
    unfold sing
    rw [if_pos card,play]
    exact ⟨_,rfl,rfl,added rfl⟩
  | unsung parse check card =>
    rw [parse]
    dsimp only
    rw [check]
    unfold sing
    rw [if_neg card]
    exact ⟨_,rfl,rfl,added rfl⟩

/- From the first row of a score to the prompt behind it. -/
theorem rowsRead {rows : List (List Char)} {score blank : List Char} {turns : List Turn} {acts : List Act} (here : s.doing = .readScore score [])
    (text : (typed k s.keyboard turns).2 = rows.flatMap (· ++ ['\n']) ++ (blank ++ ['\n']))
    (plain : ∀ row ∈ blank :: rows, ∀ ch ∈ row, enters ch = false) (full : ∀ row ∈ rows, edits [] row ≠ []) (ends : edits [] blank = [])
    (answers : Answers k (String.ofList (score ++ rows.flatMap fun row => edits [] row ++ ['\n'])) acts) :
    ∃ t, Plays.play (step k) s turns = .ok t ∧ t.doing = .run [] ∧ news t.log = news s.log ++ acts := by
  induction rows generalizing s score turns with
  | nil =>
    rw [List.flatMap_nil,List.nil_append] at text
    rw [List.flatMap_nil,List.append_nil] at answers
    obtain ⟨first,turn,rest,last,rfl,before,found,after⟩ := typedSplit text
    obtain ⟨u,edited,decoder,row⟩ := rowEdits (show s.doing = Page.doing ⟨some score,[]⟩ from here) (by rw [before]; exact plain blank List.mem_cons_self)
    rw [before] at row
    dsimp only at row
    rw [ends] at row
    obtain ⟨v,done,kept,acts_⟩ := answersDone answers (println { u with keyboard := last } "")
    have entered_ : step k u turn = .ok (prompt v) := by
      rw [stepPage row.doing,decoder,found]
      change prompted (celebrareText k _ _) = _
      rw [done]
      rfl
    obtain ⟨t,later,-,still⟩ := rowEdits (show (prompt v).doing = Page.doing ⟨none,[]⟩ from rfl)
      (show ∀ ch ∈ (typed k (prompt v).keyboard rest).2, enters ch = false by
        rw [show (prompt v).keyboard = last from kept,after]
        exact fun _ mem => absurd mem List.not_mem_nil)
    have nothing : (typed k (prompt v).keyboard rest).2 = [] := by
      rw [show (prompt v).keyboard = last from kept,after]
    rw [nothing] at still
    refine ⟨t,?_,still.doing,?_⟩
    · rw [Plays.playAppend,edited]
      exact (Plays.playStep entered_ rest).trans later
    · rw [still.news]
      change news (v.log ++ [.print "> "]) = _
      rw [newsPrint,acts_]
      change news (u.log ++ [.print _]) ++ acts = _
      rw [newsPrint,row.news]
  | cons row rows ih =>
    rw [List.flatMap_cons,List.append_assoc,List.append_assoc] at text
    obtain ⟨first,turn,rest,last,rfl,before,found,after⟩ := typedSplit text
    obtain ⟨u,edited,decoder,typed_⟩ := rowEdits (show s.doing = Page.doing ⟨some score,[]⟩ from here) (by
      rw [before]
      exact plain row (List.mem_cons_of_mem _ List.mem_cons_self))
    rw [before] at typed_
    have whole : Answers k (String.ofList (score ++ edits [] row ++ ['\n'] ++ rows.flatMap fun row => edits [] row ++ ['\n'])) acts := by
      rwa [List.flatMap_cons,← List.append_assoc,← List.append_assoc] at answers
    let v : Vigil D := { print (println { u with keyboard := last } "") "| " with doing := .readScore (score ++ edits [] row ++ ['\n']) [] }
    have entered_ : step k u turn = .ok v := by
      rw [stepPage typed_.doing,decoder,found]
      exact if_neg (full row List.mem_cons_self)
    obtain ⟨t,later,prompted_,news_⟩ := ih (s := v) rfl after
      (fun r mem => plain r (by rcases List.mem_cons.mp mem with rfl | mem; exacts [List.mem_cons_self,List.mem_cons_of_mem _ (List.mem_cons_of_mem _ mem)]))
      (fun r mem => full r (List.mem_cons_of_mem _ mem))
      whole
    refine ⟨t,?_,prompted_,?_⟩
    · rw [Plays.playAppend,edited]
      exact (Plays.playStep entered_ rest).trans later
    · rw [news_]
      change news (u.log ++ [.print _] ++ [.print _]) ++ acts = _
      rw [newsPrint,newsPrint,typed_.news]

/- The shift key in the first row of the score, a slip in the second. -/
def fugaTyped : List Turn := pressed [0x2e,0x12,0x26,0x12,0x30,0x13,0x1e,0x13,0x12,0x39,0x0c,0x1c,0x9c,
  0x21,0x16,0x22,0x1e,0x39,0x1e,0x39,0x17,0x31,0x39,0x13,0x12,0x2a,0x1a,0xaa,0x1c,
  0x2a,0x1b,0xaa,0x1b,0x0e,0x1c,0x1c,0x9c]

def fugaRows : List (List Char) := ["fuga a in re\x7b".toList,['\x7d',']',Char.ofNat 8]]

end Typing

end Officium.Shell
