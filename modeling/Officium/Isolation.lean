import Officium.Soundness

/-! What a lift keeps apart. The cell a `pone` hits is chosen when it is entered and written when
its operand is done, so both are read off the lift frames below: a frame left pending under a lift
waits for the lift to be gone, and a frame pushed over one was bound below it. -/
namespace Officium
open Runs (Turn run runThrough runMore runOne moreBefore)
open Check (Reads Writes)

/- The turn about to be made executes a `lege` or a `pone` on cell `i`: it reads the cell, binds a
put to it, or writes it. -/
inductive Touches (m : Continuation) (i : Nat) : Prop where
  | lege (reads : Reads m i)
  | pone {e scope} (at_ : m.control = .eval (.pone e) scope) (visible : findLayer m.tower m.depth .state = some i)
  | poneK (writes : Writes m i)

/- The frame stays on the stack for the first `k` states from `m` on. -/
def HeldFor (env : Env) (m : Continuation) (f : Frame) (below : List Frame) (k : Nat) : Prop :=
  ∀ j < k, ∃ u, run (turn env) j m = .more u ∧ f :: below <:+ u.stack

/- A lift entered in this state, up to the turn that takes its frame away, leaves the layers down to the one it
was entered at alone; with no lift entered only the topmost `State` layer is used. -/
structure Isolates (env : Env) (m : Continuation) : Prop where
  keeps : ∀ e scope m' k u, m.control = .eval (.lift e) scope → turn env m = .more m' →
    HeldFor env m' (.liftK m.depth) m.stack k → run (turn env) k m' = .more u → ∀ i ≤ m.depth, u.tower[i]? = m.tower[i]?
  below : ∀ e scope m' k u, m.control = .eval (.lift e) scope → turn env m = .more m' →
    HeldFor env m' (.liftK m.depth) m.stack (k+1) → run (turn env) k m' = .more u → ∀ i, Touches u i → m.depth < i
  topmost : (∀ d, .liftK d ∉ m.stack) → ∀ i, Touches m i → findLayer m.tower 0 .state = some i
  others : (∀ d, .liftK d ∉ m.stack) → ∀ m', turn env m = .more m' → ∀ i, findLayer m.tower 0 .state ≠ some i →
    m'.tower[i]? = m.tower[i]?

theorem liftDepthsMem {stack : List Frame} {d : Nat} (h : .liftK d ∈ stack) : d ∈ liftDepths stack := by
  induction stack with
  | nil => cases h
  | cons f stack ih =>
    cases h with
    | head => exact List.mem_cons_self
    | tail _ h =>
      cases f with
      | liftK e => exact List.mem_cons_of_mem _ (ih h)
      | _ => exact ih h

theorem liftedBelow {stack : List Frame} {d depth : Nat} (lifted : Lifted stack depth) (h : .liftK d ∈ stack) : d < depth := by
  have mem : d ∈ (liftDepths stack).reverse := List.mem_reverse.mpr (liftDepthsMem h)
  rw [lifted] at mem
  exact List.mem_range.mp mem

theorem liftDepthsNone {stack : List Frame} (none_ : ∀ d, .liftK d ∉ stack) : liftDepths stack = [] := by
  induction stack with
  | nil => rfl
  | cons f stack ih =>
    have rest : liftDepths stack = [] := ih (fun d mem => none_ d (List.mem_cons_of_mem _ mem))
    cases f with
    | liftK e => exact absurd List.mem_cons_self (none_ e)
    | _ => exact rest

theorem unliftedDepth {stack : List Frame} {depth : Nat} (lifted : Lifted stack depth) (none_ : ∀ d, .liftK d ∉ stack) : depth = 0 := by
  rw [liftedCount lifted,liftDepthsNone none_]
  rfl

theorem findLayerKinds {tower tower' : List Layer} (same : tower.map Layer.kind = tower'.map Layer.kind) (depth : Nat)
    (kind : LayerKind) : findLayer tower depth kind = findLayer tower' depth kind := by
  have len : tower.length = tower'.length := by simpa using congrArg List.length same
  have at_ (i : Nat) : tower[i]?.map Layer.kind = tower'[i]?.map Layer.kind := by
    rw [← List.getElem?_map,same,List.getElem?_map]
  simp only [findLayer,len,at_]

/- What a turn does to the tower: nothing, or the put of one layer. -/
theorem stepTower {env : Env} {m m' : Continuation} (step : Step env m m') :
    m'.tower = m.tower ∨ ∃ i rest l, (m.stack = .poneK i :: rest ∨ m.stack = .mitteK i :: rest) ∧ m'.tower = m.tower.set i l := by
  cases step with
  | poneK at_ top inside => exact .inr ⟨_,_,_,.inl top,rfl⟩
  | mitteK at_ top plan issued => exact .inr ⟨_,_,_,.inr top,rfl⟩
  | _ => exact .inl rfl

section Reached
variable {env : Env} {mode : Mode} {body : Expr} {arg st : Value} {n k : Nat} {m m' u : Continuation} {i d : Nat} {rest : List Frame}

/- The state the frame on top was pushed in. -/
theorem frameOpened {f : Frame} (h : run (turn env) n (initial mode body arg st) = .more m) (top : m.stack = f :: rest)
    (liftK : ∀ d, f ≠ .liftK d) (appCall : ∀ v, f ≠ .appCall v) (post : ∀ p, f ≠ .builtinPost p) :
    ∃ t e scope e', WellFormed t ∧ t.mode = mode ∧ t.stack = rest ∧ Opens t scope e e' f := by
  have on : f :: rest <:+ m.stack := ⟨[],top.symm⟩
  obtain ⟨j,t,e,scope,e',opened,opens,_⟩ := openedAt h on liftK appCall post
  obtain ⟨wf,same⟩ := wellFormedRun opened.reached
  exact ⟨t,e,scope,e',wf,same,opened.under,opens⟩

theorem poneBound (h : run (turn env) n (initial mode body arg st) = .more m) (top : m.stack = .poneK i :: rest) :
    ∃ t, WellFormed t ∧ t.mode = mode ∧ t.stack = rest ∧ findLayer t.tower t.depth .state = some i := by
  obtain ⟨t,e,scope,e',wf,same,under,opens⟩ := frameOpened h top (by simp) (by simp) (by simp)
  cases opens with
  | pone visible => exact ⟨t,wf,same,under,visible⟩

theorem mitteBound (h : run (turn env) n (initial mode body arg st) = .more m) (top : m.stack = .mitteK i :: rest) :
    ∃ t, WellFormed t ∧ t.mode = mode ∧ t.stack = rest ∧ findLayer t.tower t.depth .writer = some i := by
  obtain ⟨t,e,scope,e',wf,same,under,opens⟩ := frameOpened h top (by simp) (by simp) (by simp)
  cases opens with
  | mitte visible => exact ⟨t,wf,same,under,visible⟩

theorem boundBelow {t : Continuation} {kind : LayerKind} (wf : WellFormed t) (visible : findLayer t.tower t.depth kind = some i)
    (lifted : .liftK d ∈ t.stack) : d < i := by
  obtain ⟨_,_,_,deep⟩ := findLayerSome visible
  exact Nat.lt_of_lt_of_le (liftedBelow wf.lifted lifted) deep

/- What is touched while a lift frame is on the stack lies below the layer the lift was entered at. -/
theorem touchesBelow (h : run (turn env) n (initial mode body arg st) = .more m) (lifted : .liftK d ∈ m.stack)
    (touches : Touches m i) : d < i := by
  have wf := (wellFormedRun h).1
  cases touches with
  | lege reads =>
    obtain ⟨_,_,visible⟩ := reads
    exact boundBelow wf visible lifted
  | pone at_ visible => exact boundBelow wf visible lifted
  | poneK writes =>
    obtain ⟨_,rest,_,top⟩ := writes
    obtain ⟨t,wf',_,under,visible⟩ := poneBound h top
    rw [top] at lifted
    exact boundBelow wf' visible (under ▸ List.mem_of_ne_of_mem (by simp) lifted)

theorem stepKeeps (h : run (turn env) n (initial mode body arg st) = .more m) (next : turn env m = .more m')
    (lifted : .liftK d ∈ m.stack) (within : i ≤ d) : m'.tower[i]? = m.tower[i]? := by
  rcases stepTower (turnStep next) with same | ⟨j,rest,l,top,set_⟩
  · rw [same]
  · have deep : d < j := by
      rcases top with top | top <;> rw [top] at lifted
      · obtain ⟨t,wf,_,under,visible⟩ := poneBound h top
        exact boundBelow wf visible (under ▸ List.mem_of_ne_of_mem (by simp) lifted)
      · obtain ⟨t,wf,_,under,visible⟩ := mitteBound h top
        exact boundBelow wf visible (under ▸ List.mem_of_ne_of_mem (by simp) lifted)
    rw [set_,List.getElem?_set_ne (by omega)]

/- With the lift frame on the stack in each of the first `k` states, the upper layers are the same in the one after them. -/
theorem heldKeeps (h : run (turn env) n (initial mode body arg st) = .more m) {below : List Frame}
    (held : HeldFor env m (.liftK d) below k) (reached : run (turn env) k m = .more u) (within : i ≤ d) :
    u.tower[i]? = m.tower[i]? := by
  induction k generalizing u with
  | zero =>
    cases reached
    rfl
  | succ k ih =>
    obtain ⟨w,hw,on⟩ := held k (Nat.lt_succ_self k)
    have next : turn env w = .more u := by
      rw [runThrough hw 1,runOne] at reached
      exact reached
    have before : run (turn env) (n+k) (initial mode body arg st) = .more w := by rw [runThrough h]; exact hw
    rw [stepKeeps before next (on.subset List.mem_cons_self) within]
    exact ih (fun j lt => held j (Nat.lt_succ_of_lt lt)) hw

theorem liftEntered {e : Expr} {scope : Scope} (at_ : m.control = .eval (.lift e) scope) (next : turn env m = .more m') :
    m'.tower = m.tower := by
  cases turnStep next with
  | poneK at_' | mitteK at_' =>
    rw [at_] at at_'
    cases at_'
  | _ => rfl

/- Without a lift entered an operation binds to the topmost layer of its kind. -/
theorem touchesTopmost (h : run (turn env) n (initial mode body arg st) = .more m) (none_ : ∀ d, .liftK d ∉ m.stack)
    (touches : Touches m i) : findLayer m.tower 0 .state = some i := by
  obtain ⟨wf,same⟩ := wellFormedRun h
  have depth := unliftedDepth wf.lifted none_
  cases touches with
  | lege reads =>
    obtain ⟨_,_,visible⟩ := reads
    rwa [depth] at visible
  | pone at_ visible => rwa [depth] at visible
  | poneK writes =>
    obtain ⟨_,rest,_,top⟩ := writes
    obtain ⟨t,wf',same',under,visible⟩ := poneBound h top
    have depth' : t.depth = 0 := unliftedDepth wf'.lifted
      (fun d mem => none_ d (by rw [top]; exact List.mem_cons_of_mem _ (under ▸ mem)))
    have kinds : m.tower.map Layer.kind = t.tower.map Layer.kind := by rw [wf.tower,wf'.tower,same,same']
    rw [findLayerKinds kinds,← depth']
    exact visible

end Reached

theorem liftIsolates (env : Env) (body : Expr) (arg st : Value) {n : Nat} {m : Continuation}
    (h : run (turn env) n (initial .hypolydian body arg st) = .more m) : Isolates env m := by
  obtain ⟨wf,same⟩ := wellFormedRun h
  have after {m' : Continuation} (next : turn env m = .more m') : run (turn env) (n+1) (initial .hypolydian body arg st) = .more m' := by
    rw [runThrough h,runOne]
    exact next
  constructor
  · intro e scope m' k u at_ next held reached i within
    rw [heldKeeps (after next) held reached within,liftEntered at_ next]
  · intro e scope m' k u at_ next held reached i touches
    obtain ⟨w,hw,on⟩ := held k (Nat.lt_succ_self k)
    rw [reached] at hw
    cases hw
    have there : run (turn env) (n+1+k) (initial .hypolydian body arg st) = .more u := by rw [runThrough (after next)]; exact reached
    exact touchesBelow there (on.subset List.mem_cons_self) touches
  · exact fun none_ i touches => touchesTopmost h none_ touches
  · intro none_ m' next i other
    rcases stepTower (turnStep next) with kept | ⟨j,rest,l,top,set_⟩
    · rw [kept]
    · rcases top with top | top
      · cases turnStep next with
        | poneK at_ top' inside =>
          have hit := touchesTopmost h none_ (.poneK ⟨_,_,at_,top'⟩)
          exact List.getElem?_set_ne (fun same => other (by rw [← same]; exact hit))
        | mitteK at_ top' => rw [top] at top'; cases top'
        | _ => rfl
      · -- the layers of the mode are all `State` layers
        have placed := wf.placed (.mitteK j) (by rw [top]; exact List.mem_cons_self)
        have kinds : m.tower.map Layer.kind = [.state,.state] := by rw [wf.tower,same]; rfl
        rw [kinds] at placed
        match j with
        | 0 | 1 => cases placed
        | j+2 => cases placed

/- A put left pending under a lift that puts. -/
theorem liftIsolatesPending : ∃ m scope, run (turn .default) 1
    (initial .hypolydian (.pone (.lift (.pone .arg))) (.bool true) .unit) = .more m ∧ m.control = .eval (.lift (.pone .arg)) scope ∧
      m.stack = [.poneK 0] ∧ Isolates .default m :=
  ⟨_,_,rfl,rfl,rfl,liftIsolates .default (.pone (.lift (.pone .arg))) (.bool true) .unit (n := 1) rfl⟩

end Officium
