import Mathlib.Logic.Relation
import Mathlib.Data.Set.Finite.List

/-! Descents that pass through finitely many marks. Where every step of a relation is one of a
well-founded kind or lands on a mark, and the marks are finitely many, a descent can only go on
forever by coming back to a mark. -/
namespace Descent
open Relation (TransGen)

variable {α : Type} {r small : α → α → Prop} {marks : List α}

theorem accNoReturn {x m : α} (acc : Acc r x) (path : TransGen r m x) : ¬ TransGen r m m := by
  have below := (acc.inv_of_transGen path).transGen
  clear path
  induction below with
  | intro m _ ih => exact fun loop => ih m loop loop

theorem accOfMarks (wf : WellFounded small) (step : ∀ {y x}, r y x → small y x ∨ y ∈ marks) (x : α)
    (h : ∀ m ∈ marks, TransGen r m x → Acc r m) : Acc r x := by
  induction x using wf.induction with
  | _ x ih =>
    refine .intro x (fun y down => ?_)
    rcases step down with part | mark
    · exact ih y part (fun m mem path => h m mem (path.tail down))
    · exact h y mark (.single down)

theorem accOfNoReturn (marks : List α) (wf : WellFounded small) (step : ∀ {y x}, r y x → small y x ∨ y ∈ marks) {x : α}
    (acyclic : ∀ m ∈ marks, TransGen r m x → ¬ TransGen r m m) : Acc r x := by
  let Reached := {m // m ∈ marks ∧ TransGen r m x}
  let under (a b : Reached) : Prop := TransGen r a.1 b.1
  have : Finite Reached := (marks.finite_toSet.subset (fun m h => h.1)).to_subtype
  have : IsTrans Reached under := ⟨fun _ _ _ h k => h.trans k⟩
  have : Std.Irrefl under := ⟨fun a loop => acyclic a.1 a.2.1 a.2.2 loop⟩
  have founded : ∀ a : Reached, Acc r a.1 := by
    intro a
    induction a using (Finite.wellFounded_of_trans_of_irrefl under).induction with
    | _ a ih => exact accOfMarks wf step a.1 (fun m mem path => ih ⟨m,mem,path.trans a.2.2⟩ path)
  exact accOfMarks wf step x (fun m mem path => founded ⟨m,mem,path⟩)

end Descent
