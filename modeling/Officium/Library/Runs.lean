/-! Deterministic machines that take one turn at a time and may be paused between any two.
A turn either hands on the next state or ends with a result; a run is bounded by a number of
turns and keeps the state it was paused in. Nothing here depends on what a state is. -/
namespace Runs

inductive Turn (σ ρ : Type) where
  | more (s : σ)
  | done (r : ρ)

variable {σ ρ : Type} (step : σ → Turn σ ρ)

def run : Nat → σ → Turn σ ρ
  | 0, s => .more s
  | n+1, s =>
    match step s with
    | .more s' => run n s'
    | .done r => .done r

def continued (n : Nat) : Turn σ ρ → Turn σ ρ
  | .more s => run step n s
  | .done r => .done r

def Ends (s : σ) (r : ρ) : Prop := ∃ n, run step n s = .done r

def Forever (s : σ) : Prop := ∀ n, ∃ s', run step n s = .more s'

variable {step}

@[simp] theorem runZero (s : σ) : run step 0 s = .more s := rfl

theorem runMore {s s' : σ} (h : step s = .more s') (n : Nat) : run step (n+1) s = run step n s' := by
  simp only [run,h]

theorem runDone {s : σ} {r : ρ} (h : step s = .done r) (n : Nat) : run step (n+1) s = .done r := by
  simp only [run,h]

theorem runAdd (a b : Nat) (s : σ) : run step (a+b) s = continued step b (run step a s) := by
  induction a generalizing s with
  | zero => simp [continued]
  | succ a ih =>
    rw [Nat.succ_add]
    cases h : step s with
    | more s' => rw [runMore h,runMore h,ih]
    | done r => rw [runDone h,runDone h]; rfl

theorem runThrough {a : Nat} {s s' : σ} (h : run step a s = .more s') (b : Nat) :
    run step (a+b) s = run step b s' := by
  rw [runAdd,h]; rfl

theorem runLast {n : Nat} {s s' : σ} (h : run step n s = .more s') : run step (n+1) s = run step 1 s' :=
  runThrough h 1

theorem runOne (s : σ) : run step 1 s = step s := by
  cases h : step s with
  | more s' => rw [runMore h]; rfl
  | done r => rw [runDone h]

theorem doneStable {a b : Nat} {s : σ} {r : ρ} (h : run step a s = .done r) (le : a ≤ b) :
    run step b s = .done r := by
  obtain ⟨k,rfl⟩ := Nat.exists_eq_add_of_le le
  rw [runAdd,h]; rfl

theorem moreBefore {a b : Nat} {s s' : σ} (h : run step b s = .more s') (le : a ≤ b) :
    ∃ t, run step a s = .more t := by
  cases ha : run step a s with
  | more t => exact ⟨t,rfl⟩
  | done r => rw [doneStable ha le] at h; cases h

theorem endsUnique {s : σ} {r q : ρ} (hr : Ends step s r) (hq : Ends step s q) : r = q := by
  obtain ⟨a,ha⟩ := hr
  obtain ⟨b,hb⟩ := hq
  have left := doneStable ha (Nat.le_max_left a b)
  rw [doneStable hb (Nat.le_max_right a b)] at left
  exact (Turn.done.inj left).symm

theorem endsThrough {n : Nat} {s s' : σ} {r : ρ} (h : run step n s = .more s') (e : Ends step s' r) :
    Ends step s r := by
  obtain ⟨k,hk⟩ := e
  exact ⟨n+k,by rw [runThrough h]; exact hk⟩

theorem foreverThrough {n : Nat} {s s' : σ} (h : run step n s = .more s') (f : Forever step s') :
    Forever step s := by
  intro k
  obtain ⟨t,ht⟩ := f k
  exact moreBefore (by rw [runThrough h]; exact ht) (Nat.le_add_left k n)

theorem foreverOrEnds (step : σ → Turn σ ρ) (s : σ) : Forever step s ∨ ∃ r, Ends step s r := by
  by_cases h : ∃ r, Ends step s r
  · exact .inr h
  · refine .inl (fun n => ?_)
    cases hn : run step n s with
    | more t => exact ⟨t,rfl⟩
    | done r => exact absurd ⟨r,n,hn⟩ h

theorem endsNotForever {s : σ} {r : ρ} (e : Ends step s r) : ¬ Forever step s := by
  intro f
  obtain ⟨n,hn⟩ := e
  obtain ⟨t,ht⟩ := f n
  rw [ht] at hn; cases hn

/- What every turn keeps holds in every state a run passes through. -/
theorem runInvariant (inv : σ → Prop) (keeps : ∀ s s', inv s → step s = .more s' → inv s')
    {n : Nat} {s s' : σ} (start : inv s) (h : run step n s = .more s') : inv s' := by
  induction n generalizing s with
  | zero => cases h; exact start
  | succ n ih =>
    cases hs : step s with
    | more t => rw [runMore hs] at h; exact ih (keeps s t start hs) h
    | done r => rw [runDone hs] at h; cases h

/- The same where what is kept may depend on how far the run has come. -/
theorem runInvariantAt (inv : Nat → σ → Prop) {s : σ} (start : inv 0 s)
    (keeps : ∀ n t t', run step n s = .more t → inv n t → step t = .more t' → inv (n+1) t')
    {n : Nat} {s' : σ} (h : run step n s = .more s') : inv n s' := by
  induction n generalizing s' with
  | zero => cases h; exact start
  | succ n ih =>
    obtain ⟨t,ht⟩ := moreBefore h (Nat.le_succ n)
    rw [runThrough ht 1,runOne] at h
    exact keeps n t s' ht (ih ht) h

/- A run that comes back to where it began has no end. -/
theorem foreverAround {s : σ} {p : Nat} (back : run step (p+1) s = .more s) : Forever step s := by
  intro n
  have around : run step ((p+1) * n) s = .more s := by
    induction n with
    | zero => rfl
    | succ n ih => rw [Nat.mul_succ,runThrough ih,back]
  exact moreBefore around (Nat.le_mul_of_pos_left n (Nat.succ_pos p))

/- The run ends, or it passes through a state where the goal holds. -/
def Comes (step : σ → Turn σ ρ) (goal : σ → Prop) (s : σ) : Prop := (∃ r, Ends step s r) ∨ ∃ n s', run step n s = .more s' ∧ goal s'

section Coming
variable {goal goal' : σ → Prop} {s : σ}

theorem comesHere (h : goal s) : Comes step goal s := .inr ⟨0,s,runZero s,h⟩

theorem comesThrough {n : Nat} {s' : σ} (reached : run step n s = .more s') (h : Comes step goal s') : Comes step goal s := by
  rcases h with ⟨r,ends⟩ | ⟨k,t,later,good⟩
  · exact .inl ⟨r,endsThrough reached ends⟩
  · exact .inr ⟨n+k,t,(runThrough reached k).trans later,good⟩

/- What a state comes to is what its turn leads to. -/
theorem comesTurn (h : ∀ s', step s = .more s' → Comes step goal s') : Comes step goal s := by
  cases turn : step s with
  | more s' => exact comesThrough ((runOne s).trans turn) (h s' turn)
  | done r => exact .inl ⟨r,1,(runOne s).trans turn⟩

theorem comesThen (first : Comes step goal s) (second : ∀ s', goal s' → Comes step goal' s') : Comes step goal' s := by
  rcases first with ends | ⟨n,s',reached,good⟩
  · exact .inl ends
  · exact comesThrough reached (second s' good)

end Coming

def Turn.over : Turn σ ρ → Bool
  | .more _ => false
  | .done _ => true

/- A test of the states a run passes through in its first `n` turns. -/
def along (step : σ → Turn σ ρ) (test : σ → Bool) : Nat → σ → Bool
  | 0, _ => true
  | n+1, s =>
    test s && match step s with
      | .more s' => along step test n s'
      | .done _ => true

theorem alongEach {test : σ → Bool} {n j : Nat} {s t : σ} (h : along step test n s = true) (within : j < n)
    (ht : run step j s = .more t) : test t = true := by
  induction n generalizing j s with
  | zero => cases within
  | succ n ih =>
    rw [along,Bool.and_eq_true] at h
    cases j with
    | zero => cases ht; exact h.1
    | succ j =>
      have rest := h.2
      cases hs : step s with
      | more s' =>
        rw [runMore hs] at ht
        rw [hs] at rest
        exact ih rest (Nat.lt_of_succ_lt_succ within) ht
      | done r => rw [runDone hs] at ht; cases ht

theorem alongSome {test : σ → Bool} {n : Nat} {s : σ} (h : along step test n s = false) :
    ∃ j t, j < n ∧ run step j s = .more t ∧ test t = false := by
  induction n generalizing s with
  | zero => cases h
  | succ n ih =>
    rw [along,Bool.and_eq_false_iff] at h
    rcases h with now | later
    · exact ⟨0,s,Nat.succ_pos n,rfl,now⟩
    · cases hs : step s with
      | more s' =>
        rw [hs] at later
        obtain ⟨j,t,within,ht,fails⟩ := ih later
        exact ⟨j+1,t,Nat.succ_lt_succ within,by rw [runMore hs]; exact ht,fails⟩
      | done r => rw [hs] at later; cases later

/- The state a finished run made its last turn from. -/
theorem lastTurn {n : Nat} {s : σ} {r : ρ} (h : run step n s = .done r) :
    ∃ k s', k < n ∧ run step k s = .more s' ∧ step s' = .done r := by
  induction n generalizing s with
  | zero => cases h
  | succ n ih =>
    cases hs : step s with
    | more t =>
      rw [runMore hs] at h
      obtain ⟨k,s',lt,hk,last⟩ := ih h
      exact ⟨k+1,s',Nat.succ_lt_succ lt,by rw [runMore hs]; exact hk,last⟩
    | done q =>
      rw [runDone hs] at h
      exact ⟨0,s,Nat.succ_pos n,rfl,by rw [hs,Turn.done.inj h]⟩

/- A property of the last state that the first state lacks began at some turn and held ever since. -/
theorem heldSince {p : σ → Prop} {n : Nat} {s s' : σ} (h : run step n s = .more s') (last : p s') (first : ¬ p s) :
    ∃ j t t', j < n ∧ run step j s = .more t ∧ step t = .more t' ∧ ¬ p t ∧ p t' ∧
      ∀ k, j < k → k ≤ n → ∃ u, run step k s = .more u ∧ p u := by
  induction n generalizing s' with
  | zero => cases h; exact absurd last first
  | succ n ih =>
    obtain ⟨u,hu⟩ := moreBefore h (Nat.le_succ n)
    have one : step u = .more s' := by
      rw [runThrough hu 1,runOne] at h; exact h
    by_cases held : p u
    · obtain ⟨j,t,t',lt,ht,next,off,on,since⟩ := ih hu held
      refine ⟨j,t,t',Nat.lt_succ_of_lt lt,ht,next,off,on,fun k after upto => ?_⟩
      rcases Nat.lt_or_ge n k with beyond | within
      · have same : k = n+1 := Nat.le_antisymm upto beyond
        exact ⟨s',by rw [same]; exact h,last⟩
      · exact since k after within
    · refine ⟨n,u,s',Nat.lt_succ_self n,hu,one,held,last,fun k after upto => ?_⟩
      have same : k = n+1 := Nat.le_antisymm upto after
      exact ⟨s',by rw [same]; exact h,last⟩

section Emitting
variable {ε δ : Type} {emit : σ → List ε}

/- What the turns of a run leave behind, in the order they are made. -/
def emitted (step : σ → Turn σ ρ) (emit : σ → List ε) : Nat → σ → List ε
  | 0, _ => []
  | n+1, s =>
    emit s ++ match step s with
      | .more s' => emitted step emit n s'
      | .done _ => []

theorem emittedMore {s s' : σ} (h : step s = .more s') (n : Nat) :
    emitted step emit (n+1) s = emit s ++ emitted step emit n s' := by
  simp only [emitted,h]

theorem emittedThrough {a : Nat} {s s' : σ} (h : run step a s = .more s') (b : Nat) :
    emitted step emit (a+b) s = emitted step emit a s ++ emitted step emit b s' := by
  induction a generalizing s with
  | zero =>
    cases h
    rw [Nat.zero_add]
    rfl
  | succ a ih =>
    cases hs : step s with
    | more t =>
      rw [runMore hs] at h
      rw [Nat.succ_add,emittedMore hs,emittedMore hs,ih h,List.append_assoc]
    | done r => rw [runDone hs] at h; cases h

/- A last turn that leaves nothing behind adds nothing to what was left before it. -/
theorem emittedEnd {a b : Nat} {s s' : σ} {r : ρ} (h : run step a s = .more s') (last : step s' = .done r) (silent : emit s' = [])
    (within : a < b) : emitted step emit b s = emitted step emit a s := by
  obtain ⟨k,rfl⟩ := Nat.exists_eq_add_of_lt within
  rw [Nat.add_assoc,emittedThrough h]
  simp only [emitted,last,silent,List.append_nil]

theorem emittedEach {n : Nat} {s : σ} {x : ε} (h : x ∈ emitted step emit n s) :
    ∃ j t, j < n ∧ run step j s = .more t ∧ x ∈ emit t := by
  induction n generalizing s with
  | zero => cases h
  | succ n ih =>
    rcases List.mem_append.mp h with now | later
    · exact ⟨0,s,Nat.succ_pos n,rfl,now⟩
    · cases hs : step s with
      | more s' =>
        rw [hs] at later
        obtain ⟨j,t,within,ht,found⟩ := ih later
        exact ⟨j+1,t,Nat.succ_lt_succ within,by rw [runMore hs]; exact ht,found⟩
      | done r => rw [hs] at later; cases later

/- A log that every turn extends by what it leaves behind. -/
theorem emittedLog {entries : ε → List δ} (log : σ → List δ) (inv : σ → Prop)
    (extends_ : ∀ s s', inv s → step s = .more s' → inv s' ∧ log s' = log s ++ (emit s).flatMap entries)
    {n : Nat} {s s' : σ} (start : inv s) (h : run step n s = .more s') :
    log s' = log s ++ (emitted step emit n s).flatMap entries := by
  induction n generalizing s with
  | zero =>
    cases h
    exact (List.append_nil _).symm
  | succ n ih =>
    cases hs : step s with
    | more t =>
      obtain ⟨keeps,more⟩ := extends_ s t start hs
      rw [runMore hs] at h
      rw [ih keeps h,more,emittedMore hs,List.flatMap_append,List.append_assoc]
    | done r => rw [runDone hs] at h; cases h

end Emitting

section Simulation
variable {τ κ : Type} {other : τ → Turn τ κ}

/- Two machines that keep pace up to a finite number of turns on either side. -/
def Paced (step : σ → Turn σ ρ) (other : τ → Turn τ κ) (rel : σ → τ → Prop) (agree : ρ → κ → Prop) : Prop :=
  ∀ s t, rel s t →
    (∃ i j s' t', run step (i+1) s = .more s' ∧ run other (j+1) t = .more t' ∧ rel s' t') ∨
    (∃ r q, Ends step s r ∧ Ends other t q ∧ agree r q)

theorem pacedEnds {rel : σ → τ → Prop} {agree : ρ → κ → Prop} (paced : Paced step other rel agree)
    {n : Nat} {s : σ} {t : τ} {r : ρ} (start : rel s t) (h : run step n s = .done r) :
    ∃ q, Ends other t q ∧ agree r q := by
  induction n using Nat.strongRecOn generalizing s t with
  | ind n ih =>
    rcases paced s t start with ⟨i,j,s',t',hs,ht,next⟩ | ⟨r',q,er,eq,good⟩
    · have long : i+1 < n := by
        refine Nat.lt_of_not_le (fun short => ?_)
        rw [doneStable h short] at hs; cases hs
      obtain ⟨k,rfl⟩ := Nat.exists_eq_add_of_lt long
      have rest : run step (k+1) s' = .done r := by
        rw [← runThrough hs,← Nat.add_assoc]; exact h
      obtain ⟨q,eq,good⟩ := ih (k+1) (by omega) next rest
      exact ⟨q,endsThrough ht eq,good⟩
    · cases endsUnique er ⟨n,h⟩
      exact ⟨q,eq,good⟩

theorem pacedSwap {rel : σ → τ → Prop} {agree : ρ → κ → Prop} (paced : Paced step other rel agree) :
    Paced other step (fun t s => rel s t) (fun q r => agree r q) := by
  intro t s start
  rcases paced s t start with ⟨i,j,s',t',hs,ht,next⟩ | ⟨r,q,er,eq,good⟩
  · exact .inl ⟨j,i,t',s',ht,hs,next⟩
  · exact .inr ⟨q,r,eq,er,good⟩

/- Both run forever, or both end and the results agree. -/
theorem pacedAgree (rel : σ → τ → Prop) {agree : ρ → κ → Prop} (paced : Paced step other rel agree)
    {s : σ} {t : τ} (start : rel s t) :
    (Forever step s ∧ Forever other t) ∨ ∃ r q, Ends step s r ∧ Ends other t q ∧ agree r q := by
  rcases foreverOrEnds step s with fs | ⟨r,n,hn⟩
  · rcases foreverOrEnds other t with ft | ⟨q,m,hm⟩
    · exact .inl ⟨fs,ft⟩
    · obtain ⟨r,er,_⟩ := pacedEnds (pacedSwap paced) start hm
      exact absurd fs (endsNotForever er)
  · obtain ⟨q,eq,good⟩ := pacedEnds paced start hn
    exact .inr ⟨r,q,⟨n,hn⟩,eq,good⟩

end Simulation

end Runs
