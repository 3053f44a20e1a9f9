/-! Recursive computations cut off at a bound on their nesting. A computation threads a state,
may fail, and answers nothing when the bound is reached, so that whether it returns at all can be
stated: it does if some bound lets it answer. Nothing here depends on what it computes. -/
namespace Bounded

def Comp (σ ε α : Type) : Type := σ → Option (Except ε (α × σ))

variable {σ ε δ α β : Type}

namespace Comp

def done (a : α) : Comp σ ε α := fun s => some (.ok (a,s))

def fail (e : ε) : Comp σ ε α := fun _ => some (.error e)

def cut : Comp σ ε α := fun _ => none

def andThen (x : Comp σ ε α) (f : α → Comp σ ε β) : Comp σ ε β := fun s =>
  match x s with
  | none => none
  | some (.error e) => some (.error e)
  | some (.ok (a,t)) => f a t

def state : Comp σ ε σ := fun s => some (.ok (s,s))

def update (f : σ → σ) : Comp σ ε Unit := fun s => some (.ok ((),f s))

def mapError (g : ε → δ) (x : Comp σ ε α) : Comp σ δ α := fun s =>
  match x s with
  | none => none
  | some (.error e) => some (.error (g e))
  | some (.ok r) => some (.ok r)

instance : Monad (Comp σ ε) where
  pure := done
  bind := andThen

end Comp

open Comp

/- From state `s` the computation returns `a` and leaves `t`. -/
def Returns (x : Comp σ ε α) (s : σ) (a : α) (t : σ) : Prop := x s = some (.ok (a,t))

/- Every value the computation returns satisfies `p`. -/
def Gives (p : α → Prop) (x : Comp σ ε α) : Prop := ∀ s a t, Returns x s a t → p a

inductive Outcome (good : α → σ → Prop) (bad : ε → Prop) : Except ε (α × σ) → Prop where
  | ok {a s} (h : good a s) : Outcome good bad (.ok (a,s))
  | error {e} (h : bad e) : Outcome good bad (.error e)

/- Total correctness: from some bound on the computation always comes to the same end,
a good value or a bad error. -/
def Ends (x : Nat → Comp σ ε α) (s : σ) (good : α → σ → Prop) (bad : ε → Prop) : Prop :=
  ∃ n r, Outcome good bad r ∧ ∀ m, n ≤ m → x m s = some r

/- The computation may only run on: where it comes to an end, it is a good value. -/
def Stays (x : Comp σ ε α) (s : σ) (good : α → σ → Prop) : Prop :=
  ∀ r, x s = some r → Outcome good (fun _ => False) r

/- The second computation answers whatever the first one does. -/
def Below (x y : Comp σ ε α) : Prop := ∀ s r, x s = some r → y s = some r

theorem pureThen (a : α) (f : α → Comp σ ε β) : (pure a : Comp σ ε α) >>= f = f a := rfl

theorem stateThen (f : σ → Comp σ ε β) (s : σ) : (state >>= f) s = f s s := rfl

theorem updateThen (g : σ → σ) (f : Unit → Comp σ ε β) (s : σ) : (update g >>= f) s = f () (g s) := rfl

theorem bindAssoc (x : Comp σ ε α) (f : α → Comp σ ε β) {γ : Type} (g : β → Comp σ ε γ) :
    (x >>= f) >>= g = x >>= fun a => f a >>= g := by
  funext s
  change andThen (andThen x f) g s = andThen x (fun a => andThen (f a) g) s
  rw [andThen,andThen,andThen]
  cases x s with
  | none => rfl
  | some r => cases r <;> rfl

theorem iteThen (c : Prop) [Decidable c] (x y : Comp σ ε α) (f : α → Comp σ ε β) :
    (if c then x else y) >>= f = if c then x >>= f else y >>= f := by
  split <;> rfl

theorem returnsThen {x : Comp σ ε α} {s t : σ} {a : α} (h : Returns x s a t) (f : α → Comp σ ε β) : (x >>= f) s = f a t := by
  unfold Returns at h
  change andThen x f s = f a t
  rw [andThen,h]

/- Two sequences that begin alike at `s` and go on alike behind what is returned there. -/
theorem bindAlike {x y : Comp σ ε α} {f g : α → Comp σ ε β} {s : σ} (first : x s = y s) (rest : ∀ a t, Returns y s a t → f a t = g a t) :
    (x >>= f) s = (y >>= g) s := by
  change andThen x f s = andThen y g s
  rw [andThen,andThen,first]
  cases returned : y s with
  | none => rfl
  | some r =>
    cases r with
    | error e => rfl
    | ok p => exact rest p.1 p.2 returned

theorem bindCongr {x y : Comp σ ε α} {f g : α → Comp σ ε β} {s : σ} (first : x s = y s) (rest : ∀ a t, f a t = g a t) :
    (x >>= f) s = (y >>= g) s := bindAlike first fun a t _ => rest a t

section Returning
variable {x : Comp σ ε α} {f : α → Comp σ ε β} {s t : σ} {a : α} {b : β}

theorem returnsBind : Returns (x >>= f) s b t ↔ ∃ a u, Returns x s a u ∧ Returns (f a) u b t := by
  have shape : (x >>= f) s = andThen x f s := rfl
  unfold Returns
  rw [shape,andThen]
  cases h : x s with
  | none => simp
  | some r =>
    cases r with
    | error e => simp
    | ok p =>
      obtain ⟨a,u⟩ := p
      constructor
      · intro rest
        exact ⟨a,u,rfl,rest⟩
      · rintro ⟨a',u',same,rest⟩
        cases same
        exact rest

@[simp] theorem returnsPure {c : α} : Returns (pure c : Comp σ ε α) s a t ↔ c = a ∧ s = t := by
  have shape : (pure c : Comp σ ε α) s = some (.ok (c,s)) := rfl
  unfold Returns
  rw [shape]
  simp

@[simp] theorem returnsState {u : σ} : Returns (state : Comp σ ε σ) s u t ↔ s = u ∧ s = t := by
  simp [Returns,state]

@[simp] theorem returnsUpdate {g : σ → σ} {u : Unit} : Returns (update g : Comp σ ε Unit) s u t ↔ g s = t := by
  simp [Returns,update]

@[simp] theorem returnsFail {e : ε} : ¬ Returns (fail e : Comp σ ε α) s a t := by
  simp [Returns,fail]

@[simp] theorem returnsCut : ¬ Returns (cut : Comp σ ε α) s a t := by
  simp [Returns,cut]

@[simp] theorem returnsMapError {g : ε → δ} : Returns (x.mapError g) s a t ↔ Returns x s a t := by
  unfold Returns mapError
  cases h : x s with
  | none => simp
  | some r => cases r <;> simp

end Returning

section Yielding
variable {p : α → Prop} {q : β → Prop} {x : Comp σ ε α} {f : α → Comp σ ε β}

theorem givesPure {a : α} (h : p a) : Gives p (pure a : Comp σ ε α) := by
  intro s b t r
  rw [← (returnsPure.mp r).1]
  exact h

theorem givesFail (e : ε) : Gives p (fail e : Comp σ ε α) := fun _ _ _ r => (returnsFail r).elim

theorem givesCut : Gives p (cut : Comp σ ε α) := fun _ _ _ r => (returnsCut r).elim

theorem givesBind (hx : Gives p x) (hf : ∀ a, p a → Gives q (f a)) : Gives q (x >>= f) := by
  intro s b t r
  obtain ⟨a,u,ra,rb⟩ := returnsBind.mp r
  exact hf a (hx s a u ra) u b t rb

theorem givesAfter (hf : ∀ a, Gives q (f a)) : Gives q (x >>= f) :=
  givesBind (p := fun _ => True) (fun _ _ _ _ => trivial) (fun a _ => hf a)

end Yielding

section Ending
variable {x y : Nat → Comp σ ε α} {f : Nat → α → Comp σ ε β} {s : σ} {good : α → σ → Prop} {bad : ε → Prop}

theorem outcomeWeaken {better : α → σ → Prop} {r : Except ε (α × σ)} (imp : ∀ a t, better a t → good a t)
    (h : Outcome better bad r) : Outcome good bad r := by
  cases h with
  | ok h => exact .ok (imp _ _ h)
  | error h => exact .error h

/- One level of nesting costs one unit of the bound. -/
theorem endsNext (shape : ∀ n, y (n+1) = x n) (h : Ends x s good bad) : Ends y s good bad := by
  obtain ⟨n,r,out,settled⟩ := h
  refine ⟨n+1,r,out,fun m le => ?_⟩
  obtain ⟨k,rfl⟩ := Nat.exists_eq_add_of_le' le
  rw [← Nat.add_assoc,shape]
  exact settled (k+n) (Nat.le_add_left n k)

theorem endsPure {a : α} (h : good a s) : Ends (fun _ => pure a) s good bad := ⟨0,_,.ok h,fun _ _ => rfl⟩

theorem endsFail {e : ε} (h : bad e) : Ends (fun _ => (fail e : Comp σ ε α)) s good bad :=
  ⟨0,_,.error h,fun _ _ => rfl⟩

theorem endsState : Ends (fun _ => (state : Comp σ ε σ)) s (fun u t => u = s ∧ t = s) bad :=
  ⟨0,_,.ok ⟨rfl,rfl⟩,fun _ _ => rfl⟩

theorem endsUpdate (g : σ → σ) : Ends (fun _ => (update g : Comp σ ε Unit)) s (fun _ t => t = g s) bad :=
  ⟨0,_,.ok rfl,fun _ _ => rfl⟩

theorem endsWeaken {better : α → σ → Prop} (imp : ∀ a t, better a t → good a t) (h : Ends x s better bad) :
    Ends x s good bad := by
  obtain ⟨n,r,out,settled⟩ := h
  exact ⟨n,r,outcomeWeaken imp out,settled⟩

theorem endsWiden {worse : ε → Prop} (imp : ∀ e, worse e → bad e) (h : Ends x s good worse) : Ends x s good bad := by
  obtain ⟨n,r,out,settled⟩ := h
  cases out with
  | ok fine => exact ⟨n,_,.ok fine,settled⟩
  | error found => exact ⟨n,_,.error (imp _ found),settled⟩

theorem endsMapError {bad' : δ → Prop} {h : ε → δ} (imp : ∀ e, bad e → bad' (h e)) (ends : Ends x s good bad) :
    Ends (fun n => (x n).mapError h) s good bad' := by
  obtain ⟨n,r,out,settled⟩ := ends
  cases out with
  | ok fine => exact ⟨n,_,.ok fine,fun m le => by simp only [mapError,settled m le]⟩
  | error found => exact ⟨n,_,.error (imp _ found),fun m le => by simp only [mapError,settled m le]⟩

theorem endsBind {good' : β → σ → Prop} (first : Ends x s good bad)
    (rest : ∀ a t, good a t → Ends (fun n => f n a) t good' bad) : Ends (fun n => x n >>= f n) s good' bad := by
  obtain ⟨n,r,out,settled⟩ := first
  cases out with
  | error found =>
    refine ⟨n,_,.error found,fun m le => ?_⟩
    change andThen (x m) (f m) s = _
    rw [andThen,settled m le]
  | @ok a t fine =>
    obtain ⟨k,q,out,later⟩ := rest a t fine
    refine ⟨max n k,q,out,fun m le => ?_⟩
    change andThen (x m) (f m) s = _
    rw [andThen,settled m (Nat.le_trans (Nat.le_max_left n k) le)]
    exact later m (Nat.le_trans (Nat.le_max_right n k) le)

end Ending

section Bounding
variable {x y : Comp σ ε α} {f g : α → Comp σ ε β}

theorem belowRefl (x : Comp σ ε α) : Below x x := fun _ _ h => h

theorem belowCut (y : Comp σ ε α) : Below cut y := fun _ _ h => by cases h

theorem belowBind (first : Below x y) (rest : ∀ a, Below (f a) (g a)) : Below (x >>= f) (y >>= g) := by
  intro s r h
  change andThen x f s = some r at h
  change andThen y g s = some r
  rw [andThen] at h ⊢
  cases found : x s with
  | none => rw [found] at h; cases h
  | some q =>
    rw [found] at h
    rw [first s q found]
    cases q with
    | error e => exact h
    | ok p => exact rest p.1 p.2 r h

theorem belowMapError (h : ε → δ) (le : Below x y) : Below (x.mapError h) (y.mapError h) := by
  intro s r found
  rw [mapError] at found ⊢
  cases answer : x s with
  | none => rw [answer] at found; cases found
  | some q =>
    rw [answer] at found
    rw [le s q answer]
    exact found

end Bounding

section Sparing
variable {bad : ε → Prop} {p : α → Prop} {x : Comp σ ε α} {f : α → Comp σ ε β}

/- No error of the computation is a bad one. -/
def Spares (bad : ε → Prop) (x : Comp σ ε α) : Prop := ∀ s e, x s = some (.error e) → ¬ bad e

theorem sparesPure (a : α) : Spares bad (pure a : Comp σ ε α) := fun _ _ h => by cases h

theorem sparesCut : Spares bad (cut : Comp σ ε α) := fun _ _ h => by cases h

theorem sparesState : Spares bad (state : Comp σ ε σ) := fun _ _ h => by cases h

theorem sparesUpdate (g : σ → σ) : Spares bad (update g : Comp σ ε Unit) := fun _ _ h => by cases h

theorem sparesFail {e : ε} (fine : ¬ bad e) : Spares bad (fail e : Comp σ ε α) := fun _ _ h => by
  cases h
  exact fine

theorem sparesGiven (first : Spares bad x) (given : Gives p x) (rest : ∀ a, p a → Spares bad (f a)) : Spares bad (x >>= f) := by
  intro s e h
  change andThen x f s = some (.error e) at h
  rw [andThen] at h
  split at h
  · cases h
  · rename_i failed
    cases h
    exact first s _ failed
  · rename_i a t returned
    exact rest a (given s a t returned) t e h

theorem sparesBind (first : Spares bad x) (rest : ∀ a, Spares bad (f a)) : Spares bad (x >>= f) :=
  sparesGiven (p := fun _ => True) first (fun _ _ _ _ => trivial) (fun a _ => rest a)

theorem sparesMapError {worse : δ → Prop} {h : ε → δ} (imp : ∀ e, ¬ bad e → ¬ worse (h e)) (spares : Spares bad x) :
    Spares worse (x.mapError h) := by
  intro s e found
  rw [mapError] at found
  split at found
  · cases found
  · rename_i failed
    cases found
    exact imp _ (spares s _ failed)
  · cases found

end Sparing

section Staying
variable {x : Comp σ ε α} {f : α → Comp σ ε β} {s : σ} {good : α → σ → Prop} {good' : β → σ → Prop}

theorem staysCut : Stays (cut : Comp σ ε α) s good := fun _ h => by cases h

theorem staysPure {a : α} (h : good a s) : Stays (pure a : Comp σ ε α) s good := by
  intro r same
  cases same
  exact .ok h

theorem staysState : Stays (state : Comp σ ε σ) s (fun u t => u = s ∧ t = s) := by
  intro r same
  cases same
  exact .ok ⟨rfl,rfl⟩

theorem staysUpdate (g : σ → σ) : Stays (update g : Comp σ ε Unit) s (fun _ t => t = g s) := by
  intro r same
  cases same
  exact .ok rfl

theorem staysWeaken {better : α → σ → Prop} (imp : ∀ a t, better a t → good a t) (h : Stays x s better) :
    Stays x s good := fun r found => outcomeWeaken imp (h r found)

theorem staysMapError {h : ε → δ} (stays : Stays x s good) : Stays (x.mapError h) s good := by
  intro r found
  rw [mapError] at found
  split at found
  · cases found
  · rename_i failed
    cases stays _ failed with
    | error never => exact never.elim
  · rename_i q kept
    cases found
    cases stays _ kept with
    | ok fine => exact .ok fine

/- A computation that stays and has no good value to return runs on at every bound. -/
theorem staysForever (h : Stays x s (fun _ _ => False)) : x s = none := by
  cases found : x s with
  | none => rfl
  | some r =>
    cases h r found with
    | ok never => exact never.elim
    | error never => exact never.elim

theorem staysBind (first : Stays x s good) (rest : ∀ a t, good a t → Stays (f a) t good') :
    Stays (x >>= f) s good' := by
  intro r h
  change andThen x f s = some r at h
  rw [andThen] at h
  split at h
  · cases h
  · rename_i failed
    cases first _ failed with
    | error never => exact never.elim
  · rename_i a t found
    cases first _ found with
    | ok fine => exact rest a t fine r h

theorem staysNever (first : Stays x s (fun _ _ => False)) : Stays (x >>= f) s good' :=
  staysBind first (fun _ _ never => never.elim)

end Staying

end Bounded
