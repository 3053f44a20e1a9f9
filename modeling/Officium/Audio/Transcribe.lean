import Officium.Library.Bounded
import Officium.Audio.Render

/-! Transcription: a played phrase as a plain-form score. The loop of `block` and its nested calls
are cut off after `n` turns. -/
namespace Officium.Audio
open Bounded (Comp)

structure Transcriber where
  ops : List RenderOp
  mode : Mode
  pos : Nat
  body : String
  vars : Nat
  prev : Option String
  needsFugue : Bool

abbrev TranscribeM := Comp Transcriber Raise

/- `Dissonance::Parse` at a note. -/
def note {α : Type} (at_ : Nat) (msg : String) : Except Raise α := failure (.parse at_ msg)

def refuse {α : Type} (msg : String) : TranscribeM α := do
  let t ← Comp.state
  .fail (.dissonance (.parse (t.pos+1) msg))

namespace Transcriber

/- The value before, or a literal when the phrase opens cold. -/
def prevVal (t : Transcriber) : String := t.prev.getD "0"

def line (t : Transcriber) (depth : Nat) (text : String) : Transcriber :=
  { t with body := (List.replicate depth "  ").foldl (· ++ ·) t.body ++ text ++ "\n" }

def needFugue (t : Transcriber) : Transcriber := { t with needsFugue := true }

/- A line that binds the next name to what it makes of the value before. -/
def bindLine (t : Transcriber) (depth : Nat) (rhs : String → String) : Transcriber :=
  let v := "v" ++ toString (t.vars+1)
  { t.line depth (v ++ " <- " ++ rhs t.prevVal) with vars := t.vars + 1, prev := some v }

/- The line that is written for a note. -/
def sing (t : Transcriber) (depth : Nat) : RenderOp → Transcriber
  | .cadence => t.line depth ("amen " ++ t.prevVal)
  | .branch => t.line depth "si verum tunc \x7b"
  | .arg => t.bindLine depth (fun _ => "arg")
  | .ask => t.needFugue.bindLine depth (fun _ => "ask \"Dominus\"")
  | .pure => t.bindLine depth (fun p => "pure " ++ p)
  | .bindOther => t.bindLine depth (fun p => p)
  | .resolve => t.needFugue.bindLine depth (fun _ => "resolve \"vox\" (genus (corpus 0 \"cantus\" 0 0))")
  | .modal =>
    match t.mode with
    | .lydian | .hypolydian => t.line depth ("pone " ++ t.prevVal)
    | .hypomixolydian => t.line depth ("mitte (cmd " ++ t.prevVal ++ " " ++ t.prevVal ++ " " ++ t.prevVal ++ ")")
    | _ => t.bindLine depth (fun p => p)

end Transcriber

/- Statements until a cadence; a branch carries a cadence in each of its arms. -/
def block : Nat → Nat → TranscribeM Unit
  | 0, _ => .cut
  | n+1, depth => do
    let t ← Comp.state
    match t.ops[t.pos]? with
    | none => refuse "phrasis sine cadentia: the phrase never cadences"
    | some op =>
      Comp.update (fun t => { t with pos := t.pos + 1 }.sing depth op)
      match op with
      | .cadence => pure ()
      | .branch =>
        block n (depth+1)
        Comp.update (fun t => t.line depth "\x7d aliter \x7b")
        block n (depth+1)
        Comp.update (fun t => t.line depth "\x7d")
      | _ => block n depth

/- The final whose pitch class the phrase cadences to. -/
def finalOf (cadence : Pitch) : Option Final :=
  match cadence.toNat % 12 with
  | 2 => some .re
  | 4 => some .mi
  | 5 => some .fa
  | 7 => some .sol
  | _ => none

def finalName : Final → String
  | .re => "Re"
  | .mi => "Mi"
  | .fa => "Fa"
  | .sol => "Sol"

def plagalName : Final → String
  | .re => "re"
  | .mi => "mi"
  | .fa => "fa"
  | .sol => "sol"

/- `{:?}` of a mode -/
def modeName : Mode → String
  | .dorian => "Dorian"
  | .hypodorian => "Hypodorian"
  | .phrygian => "Phrygian"
  | .hypophrygian => "Hypophrygian"
  | .lydian => "Lydian"
  | .hypolydian => "Hypolydian"
  | .mixolydian => "Mixolydian"
  | .hypomixolydian => "Hypomixolydian"

/- The degree that sounds `p` over the cadence. -/
def degreeOf (mode : Mode) (cadence p : Pitch) : Option Nat :=
  degrees.find? (fun d => degreeOffset mode d == (p.toNat : Int) - cadence.toNat)

/- The loop over the notes, the first of them the `i`th counted from one. -/
def readOps (mode : Mode) (cadence : Pitch) : Nat → List Pitch → Except Raise (List RenderOp)
  | _, [] => .ok []
  | i, p :: rest =>
    match degreeOf mode cadence p with
    | none =>
      let name := modeName mode
      let n := p.toNat
      note i s!"nota extra modum: pitch {n} is no degree of {name}"
    | some deg =>
      match opOfDegree mode deg with
      | none => .error (.fault .unreachable)
      | some op =>
        match readOps mode cadence (i+1) rest with
        | .error e => .error e
        | .ok ops => .ok (op :: ops)

def header (notes : Nat) (mode : Mode) (tok : String) : String :=
  "; transcribed from the manual: " ++ toString notes ++ " notes, " ++ modeName mode ++ " on " ++ tok ++ "\n"

/- Something for the verse to ask and resolve: the reciting tone and an identity to answer. -/
def organum (mode : Mode) (tok : String) : String :=
  "fuga organum in " ++ tok ++ " \x7b\n" ++
  "  pedale Dominus = " ++ toString (degreePitch mode (if mode.isPlagal then 3 else 5)).toNat ++ "\n" ++
  "  reale  vox @ cantus = \\x -> x\n" ++ "\x7d\n"

def score (pitches : List Pitch) (name : String) (final_ : Final) (plagal : Bool) (t : Transcriber) : String :=
  let tok := finalName final_
  let vtok := if plagal then plagalName final_ else tok
  header pitches.length t.mode tok ++ (if t.needsFugue then organum t.mode tok else "") ++
    "versus " ++ name ++ " in " ++ vtok ++ " \x7b\n" ++ t.body ++ "\x7d\n"

def isPlagal (pitches : List Pitch) (cadence : Pitch) : Bool := pitches.any (· < cadence)

def transcribe (n : Nat) (pitches : List Pitch) (name : String) : Option (Except Raise String) :=
  match pitches.getLast? with
  | none => some (note 0 "silence: nothing to transcribe")
  | some cadence =>
    match finalOf cadence with
    | none => some (note pitches.length "cadentia extra modos: the phrase must end on D, E, F or G")
    | some final_ =>
      let plagal := isPlagal pitches cadence
      let mode := Mode.fromFinal final_ plagal
      match readOps mode cadence 1 pitches with
      | .error e => some (.error e)
      | .ok ops =>
        match block n 1 ⟨ops,mode,0,"",0,none,false⟩ with
        | none => none
        | some (.error e) => some (.error e)
        | some (.ok (_,t)) =>
          if t.pos ≠ ops.length then some (note (t.pos+1) "cantus post amen: notes after the final cadence")
          else some (.ok (score pitches name final_ plagal t))

/- `transcribe` returns this text. -/
def Transcribes (pitches : List Pitch) (name text : String) : Prop := ∃ n, transcribe n pitches name = some (.ok text)

end Officium.Audio
