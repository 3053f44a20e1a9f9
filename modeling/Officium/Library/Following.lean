import Officium.Library.Bounded

/-! One computation that follows another: from related states it comes to the same answer and leaves
related states. With one computation on both sides this says what its answer depends on, and with equal
states it says what it keeps. -/
namespace Bounded
open Comp

variable {σ ε α β : Type} {strict : Prop}

/- Where the first computation returns the second one does too, and it fails alike if `strict` says so. -/
structure Tracks (strict : Prop) (pre : σ → σ → Prop) (x y : Comp σ ε α) (post : α → σ → σ → Prop) : Prop where
  returns : ∀ s t a s', pre s t → Returns x s a s' → ∃ t', Returns y t a t' ∧ post a s' t'
  fails : strict → ∀ s t e, pre s t → x s = some (.error e) → y t = some (.error e)

section Rules
variable {pre pre' : σ → σ → Prop} {mid : α → σ → σ → Prop} {post post' : β → σ → σ → Prop}

theorem tracksPure {b : β} (imp : ∀ s t, pre s t → post b s t) : Tracks strict pre (pure b : Comp σ ε β) (pure b) post where
  returns := by
    intro s t a s' related returned
    obtain ⟨rfl,rfl⟩ := returnsPure.mp returned
    exact ⟨t,returnsPure.mpr ⟨rfl,rfl⟩,imp s t related⟩
  fails := fun _ _ _ _ _ failed => by cases failed

theorem tracksCut (y : Comp σ ε β) : Tracks strict pre cut y post where
  returns := fun _ _ _ _ _ returned => (returnsCut returned).elim
  fails := fun _ _ _ _ _ failed => by cases failed

theorem tracksUpdate {post : Unit → σ → σ → Prop} {g : σ → σ} (imp : ∀ s t, pre s t → post () (g s) (g t)) :
    Tracks strict pre (update g : Comp σ ε Unit) (update g) post where
  returns := by
    intro s t a s' related returned
    obtain rfl := returnsUpdate.mp returned
    exact ⟨g t,returnsUpdate.mpr rfl,imp s t related⟩
  fails := fun _ _ _ _ _ failed => by cases failed

theorem tracksBind {x y : Comp σ ε α} {f g : α → Comp σ ε β} (first : Tracks strict pre x y mid)
    (rest : ∀ a, Tracks strict (mid a) (f a) (g a) post) : Tracks strict pre (x >>= f) (y >>= g) post where
  returns := by
    intro s t b s' related returned
    obtain ⟨a,u,here,there⟩ := returnsBind.mp returned
    obtain ⟨v,here',met⟩ := first.returns s t a u related here
    obtain ⟨t',there',last⟩ := (rest a).returns u v b s' met there
    exact ⟨t',returnsBind.mpr ⟨a,v,here',there'⟩,last⟩
  fails := by
    intro strictly s t e related failed
    change andThen x f s = _ at failed
    change andThen y g t = _
    rw [andThen] at failed ⊢
    cases found : x s with
    | none => rw [found] at failed; cases failed
    | some r =>
      rw [found] at failed
      cases r with
      | error e' =>
        rw [first.fails strictly s t e' related found]
        exact failed
      | ok p =>
        obtain ⟨a,u⟩ := p
        obtain ⟨v,here,met⟩ := first.returns s t a u related found
        rw [show y t = some (.ok (a,v)) from here]
        exact (rest a).fails strictly u v e met failed

/- A look at the state, of which both sides go on alike. -/
theorem tracksState {f g : σ → Comp σ ε β} (each : ∀ s t, pre s t → Tracks strict (fun s' t' => s' = s ∧ t' = t) (f s) (g t) post) :
    Tracks strict pre (state >>= f) (state >>= g) post where
  returns := fun s t a s' related returned => (each s t related).returns s t a s' ⟨rfl,rfl⟩ returned
  fails := fun strictly s t e related failed => (each s t related).fails strictly s t e ⟨rfl,rfl⟩ failed

theorem tracksFrom {x y : Comp σ ε β} (imp : ∀ s t, pre' s t → pre s t) (h : Tracks strict pre x y post) : Tracks strict pre' x y post where
  returns := fun s t a s' related => h.returns s t a s' (imp s t related)
  fails := fun strictly s t e related => h.fails strictly s t e (imp s t related)

theorem tracksNever {x y : Comp σ ε β} (never : ∀ s t, ¬pre s t) : Tracks strict pre x y post where
  returns := fun s t _ _ related => (never s t related).elim
  fails := fun _ s t _ related => (never s t related).elim

theorem tracksTo {x y : Comp σ ε β} (imp : ∀ b s t, post b s t → post' b s t) (h : Tracks strict pre x y post) : Tracks strict pre x y post' where
  returns := by
    intro s t a s' related returned
    obtain ⟨t',returned',last⟩ := h.returns s t a s' related returned
    exact ⟨t',returned',imp a s' t' last⟩
  fails := h.fails

/- What the first computation keeps besides holds where it began and where it returns. -/
theorem tracksAlso {x y : Comp σ ε β} {held : σ → Prop} {kept : β → σ → Prop} (h : Tracks strict pre x y post)
    (keeps : ∀ s b s', held s → Returns x s b s' → kept b s') :
    Tracks strict (fun s t => pre s t ∧ held s) x y (fun b s t => post b s t ∧ kept b s) where
  returns := by
    intro s t b s' related returned
    obtain ⟨t',returned',last⟩ := h.returns s t b s' related.1 returned
    exact ⟨t',returned',last,keeps s b s' related.2 returned⟩
  fails := fun strictly s t e related => h.fails strictly s t e related.1

theorem tracksIf {c : Bool} {x y x' y' : Comp σ ε β} (yes : Tracks strict pre x x' post) (no : Tracks strict pre y y' post) :
    Tracks strict pre (if c then x else y) (if c then x' else y') post := by
  cases c with
  | true => exact yes
  | false => exact no

end Rules

end Bounded
