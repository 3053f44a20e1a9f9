import Officium.Types

/-! Degree ↔ operation table. The one place where scale degrees map to language operations. -/
namespace Officium

def Mode.isPlagal : Mode → Bool
  | .hypodorian | .hypophrygian | .hypolydian | .hypomixolydian => true
  | _ => false

namespace Audio

/- A MIDI note number. -/
abbrev Pitch := UInt8

inductive RenderOp where | cadence | ask | arg | pure | resolve | modal | bindOther | branch
  deriving DecidableEq, Repr

def degree (mode : Mode) : RenderOp → Nat
  | .cadence => 1
  | .arg => 2
  | .ask => if mode.isPlagal then 3 else 5
  | .pure => if mode.isPlagal then 5 else 3
  | .bindOther => 4
  | .modal => 6
  | .resolve => 7
  | .branch => 8

def opOfDegree (mode : Mode) : Nat → Option RenderOp
  | 1 => some .cadence
  | 2 => some .arg
  | 3 => some (if mode.isPlagal then .ask else .pure)
  | 4 => some .bindOther
  | 5 => some (if mode.isPlagal then .pure else .ask)
  | 6 => some .modal
  | 7 => some .resolve
  | 8 => some .branch
  | _ => none

def finalPitch : Final → Pitch
  | .re => 62
  | .mi => 64
  | .fa => 65
  | .sol => 67

/- Semitones of the eight degrees above the final. -/
def scale : Final → List Int
  | .re => [0,2,3,5,7,9,10,12]
  | .mi => [0,1,3,5,7,8,10,12]
  | .fa => [0,2,4,6,7,9,11,12]
  | .sol => [0,2,4,5,7,9,10,12]

def degreeOffset (mode : Mode) (deg : Nat) : Int :=
  let s := (scale mode.final_).getD ((deg-1) % 8) 0
  if mode.isPlagal then
    match deg with
    | 6 | 7 => s - 12
    | 8 => -5
    | _ => s
  else s

def degreePitch (mode : Mode) (deg : Nat) : Pitch :=
  UInt8.ofInt (((finalPitch mode.final_).toNat : Int) + degreeOffset mode deg)

/- `1..=8` -/
def degrees : List Nat := [1,2,3,4,5,6,7,8]

theorem degreeIs (mode : Mode) (op : RenderOp) : degree mode op ∈ degrees := by
  cases mode <;> cases op <;> decide

theorem opDegree (mode : Mode) (op : RenderOp) : opOfDegree mode (degree mode op) = some op := by
  cases mode <;> cases op <;> rfl

theorem degreeOp {mode : Mode} {deg : Nat} {op : RenderOp} (h : opOfDegree mode deg = some op) : degree mode op = deg := by
  unfold opOfDegree at h
  split at h
  all_goals cases mode <;> cases h <;> rfl

theorem opOfDegreeSome (mode : Mode) : ∀ deg ∈ degrees, (opOfDegree mode deg).isSome := by
  cases mode <;> decide

/- The degrees of a mode sound at different heights. -/
theorem offsetInj (mode : Mode) : ∀ a ∈ degrees, ∀ b ∈ degrees, degreeOffset mode a = degreeOffset mode b → a = b := by
  cases mode <;> decide

end Audio

end Officium
