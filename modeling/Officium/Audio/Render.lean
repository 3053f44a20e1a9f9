import Officium.Dissonance
import Officium.Audio.Degree

/-! Render: a verse body read back as note events. -/
namespace Officium.Audio

structure Note where
  pitch : Pitch
  onset : Nat
  dur : Nat
  voice : UInt8

def classify : Expr → RenderOp
  | .ret _ _ | .nihil | .clama _ | .perage _ => .cadence
  | .ask _ => .ask
  | .arg => .arg
  | .pure _ _ => .pure
  | .resolve _ _ => .resolve
  | .lege | .pone _ | .mitte _ | .lift _ => .modal
  | .ifE _ _ _ => .branch
  | _ => .bindOther

/- The events so far and the onset of the next. -/
abbrev Events := List Note × Nat

def pushNote (mode : Mode) (op : RenderOp) (voice : UInt8) (dur : Nat) (out : Events) : Events :=
  (out.1 ++ [⟨degreePitch mode (degree mode op),out.2,dur,voice⟩],out.2 + dur)

/- A verse body's bind spine, one note a line. -/
def walkVerse (mode : Mode) (voice : UInt8) : Expr → Events → Events
  | .bind _ m _ k, out => walkVerse mode voice k (pushNote mode (classify m) voice 1 out)
  | .ifE _ t e, out => walkVerse mode voice e (walkVerse mode voice t (pushNote mode .branch voice 1 out))
  | .ret _ _, out | .nihil, out | .clama _, out | .perage _, out => pushNote mode .cadence voice 2 out
  | _, out => out

def renderVerse (body : Expr) (mode : Mode) (voice : UInt8) : List Note := (walkVerse mode voice body ([],0)).1

/- The operations a verse body is read back as. -/
def operations : Expr → List RenderOp
  | .bind _ m _ k => classify m :: operations k
  | .ifE _ t e => .branch :: (operations t ++ operations e)
  | .ret _ _ | .nihil | .clama _ | .perage _ => [.cadence]
  | _ => []

def melody (mode : Mode) (ops : List RenderOp) : List Pitch := ops.map (fun op => degreePitch mode (degree mode op))

theorem pushPitch (mode : Mode) (op : RenderOp) (voice : UInt8) (dur : Nat) (out : Events) :
    (pushNote mode op voice dur out).1.map Note.pitch = out.1.map Note.pitch ++ melody mode [op] := by
  rw [pushNote,List.map_append]
  rfl

theorem walkMelody (mode : Mode) (voice : UInt8) (e : Expr) (out : Events) :
    (walkVerse mode voice e out).1.map Note.pitch = out.1.map Note.pitch ++ melody mode (operations e) := by
  fun_induction walkVerse mode voice e out with
  | case1 out _ m _ k ih =>
    rw [ih,pushPitch,List.append_assoc]
    rfl
  | case2 c t e out ih ih' =>
    rw [ih',ih,pushPitch,operations]
    simp [melody]
  | case7 e out bind_ if_ ret_ nihil_ clama_ perage_ =>
    have none : operations e = [] := by
      cases e
      case bind => exact (bind_ _ _ _ _ rfl).elim
      case ifE => exact (if_ _ _ _ rfl).elim
      case ret => exact (ret_ _ _ rfl).elim
      case nihil => exact (nihil_ rfl).elim
      case clama => exact (clama_ _ rfl).elim
      case perage => exact (perage_ _ rfl).elim
      all_goals rfl
    rw [none]
    exact (List.append_nil _).symm
  | _ => exact pushPitch ..

/- What a verse sounds is its operations, degree by degree. -/
theorem renderMelody (body : Expr) (mode : Mode) (voice : UInt8) :
    (renderVerse body mode voice).map Note.pitch = melody mode (operations body) := walkMelody mode voice body ([],0)

end Officium.Audio
