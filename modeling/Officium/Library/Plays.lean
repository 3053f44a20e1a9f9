/-! Machines driven from outside: a step takes an event and either leads on or stops. A play is a
list of events taken one after the other. Nothing here depends on what the events are. -/
namespace Plays

variable {σ ε δ : Type}

def play (step : σ → ε → Except δ σ) : σ → List ε → Except δ σ
  | s, [] => .ok s
  | s, e :: rest =>
    match step s e with
    | .ok t => play step t rest
    | .error d => .error d

variable {step : σ → ε → Except δ σ}

theorem playCons {s t : σ} {e : ε} {rest : List ε} (h : play step s (e :: rest) = .ok t) :
    ∃ u, step s e = .ok u ∧ play step u rest = .ok t := by
  rw [play] at h
  split at h
  · rename_i u next
    exact ⟨u,next,h⟩
  · cases h

theorem playStep {s t : σ} {e : ε} (h : step s e = .ok t) (rest : List ε) : play step s (e :: rest) = play step t rest := by
  rw [play,h]

/- The condition holds of every state the play passes through. -/
def Along (step : σ → ε → Except δ σ) (cond : σ → Prop) (s : σ) : List ε → Prop
  | [] => cond s
  | e :: rest =>
    cond s ∧
    match step s e with
    | .ok t => Along step cond t rest
    | .error _ => True

instance decidableAlong (step : σ → ε → Except δ σ) (cond : σ → Prop) [∀ s, Decidable (cond s)] :
    ∀ s events, Decidable (Along step cond s events)
  | s, [] => inferInstanceAs (Decidable (cond s))
  | s, e :: rest => by
    unfold Along
    match step s e with
    | .ok t => exact @instDecidableAnd _ _ _ (decidableAlong step cond t rest)
    | .error _ => exact inferInstance

theorem alongHere {cond : σ → Prop} {s : σ} {events : List ε} (h : Along step cond s events) : cond s := by
  cases events with
  | nil => exact h
  | cons e rest => exact h.1

theorem alongNext {cond : σ → Prop} {s t : σ} {e : ε} {rest : List ε} (h : Along step cond s (e :: rest))
    (next : step s e = .ok t) : Along step cond t rest := by
  have later := h.2
  rw [next] at later
  exact later

/- The states a play passes through first are states the whole of it passes through. -/
theorem alongBefore {cond : σ → Prop} {s : σ} {before after : List ε} (h : Along step cond s (before ++ after)) :
    Along step cond s before := by
  induction before generalizing s with
  | nil => exact (alongHere h : cond s)
  | cons e rest ih =>
    refine ⟨alongHere h,?_⟩
    split
    · rename_i t next
      exact ih (alongNext h next)
    · trivial

/- What holds at the start and is kept by every step from a state that meets a condition holds where a
play leads whose states all meet it, and so does the condition. -/
theorem playWhile (inv cond : σ → Prop) (keeps : ∀ s e t, inv s → cond s → step s e = .ok t → inv t) {s t : σ}
    {events : List ε} (start : inv s) (met : Along step cond s events) (h : play step s events = .ok t) : inv t ∧ cond t := by
  induction events generalizing s with
  | nil => cases h; exact ⟨start,met⟩
  | cons e rest ih =>
    obtain ⟨u,next,later⟩ := playCons h
    exact ih (keeps s e u start met.1 next) (alongNext met next) later

theorem alongTrue (s : σ) (events : List ε) : Along step (fun _ => True) s events := by
  induction events generalizing s with
  | nil => trivial
  | cons e rest ih =>
    refine ⟨trivial,?_⟩
    split
    · exact ih _
    · trivial

theorem playInvariant (inv : σ → Prop) (keeps : ∀ s e t, inv s → step s e = .ok t → inv t) {s t : σ} {events : List ε}
    (start : inv s) (h : play step s events = .ok t) : inv t :=
  (playWhile inv (fun _ => True) (fun s e t before _ => keeps s e t before) start (alongTrue s events) h).1

/- An invariant that knows the events taken so far. -/
theorem playHistory (inv : List ε → σ → Prop) (keeps : ∀ before s e t, inv before s → step s e = .ok t → inv (before ++ [e]) t) {s t : σ}
    {events : List ε} (start : inv [] s) (h : play step s events = .ok t) : inv events t := by
  have from_ : ∀ (rest before : List ε) (s : σ), inv before s → play step s rest = .ok t → inv (before ++ rest) t := by
    intro rest
    induction rest with
    | nil =>
      intro before s now h
      cases h
      rwa [List.append_nil]
    | cons e rest ih =>
      intro before s now h
      obtain ⟨u,next,later⟩ := playCons h
      rw [← List.singleton_append,← List.append_assoc]
      exact ih _ u (keeps before s e u now next) later
  exact from_ events [] s start h

theorem playAppend (s : σ) (before after : List ε) : play step s (before ++ after) =
    match play step s before with
    | .ok t => play step t after
    | .error d => .error d := by
  induction before generalizing s with
  | nil => rfl
  | cons e rest ih =>
    rw [List.cons_append,play,play]
    split
    · exact ih _
    · rfl

theorem playRuns {events : List ε} (runs : ∀ s, ∀ e ∈ events, ∃ t, step s e = .ok t) (s : σ) : ∃ t, play step s events = .ok t := by
  induction events generalizing s with
  | nil => exact ⟨s,rfl⟩
  | cons e rest ih =>
    obtain ⟨u,next⟩ := runs s e List.mem_cons_self
    obtain ⟨t,later⟩ := ih (fun s e mem => runs s e (List.mem_cons_of_mem _ mem)) u
    exact ⟨t,(playStep next rest).trans later⟩

/- A play that stops does so at one step, from a state a shorter play leads to. -/
theorem playStops {s : σ} {d : δ} {events : List ε} (h : play step s events = .error d) :
    ∃ before e after t, events = before ++ e :: after ∧ play step s before = .ok t ∧ step t e = .error d := by
  induction events generalizing s with
  | nil => cases h
  | cons e rest ih =>
    cases next : step s e with
    | error d' =>
      rw [play,next] at h
      cases h
      exact ⟨[],e,rest,s,rfl,rfl,next⟩
    | ok u =>
      rw [playStep next] at h
      obtain ⟨before,e',after,t,rfl,reached,stops⟩ := ih h
      exact ⟨e :: before,e',after,t,rfl,by rw [playStep next]; exact reached,stops⟩

theorem toOptionSome {r : Except δ σ} {t : σ} (h : r.toOption = some t) : r = .ok t := by
  cases r with
  | ok u => exact congrArg Except.ok (Option.some.inj h)
  | error d => cases h

/- Why a play stopped, if it did. -/
def stopOf : Except δ σ → Option δ
  | .ok _ => none
  | .error d => some d

theorem stopOfSome {r : Except δ σ} {d : δ} (h : stopOf r = some d) : r = .error d := by
  cases r with
  | ok t => cases h
  | error d' => exact congrArg Except.error (Option.some.inj h)

end Plays
