import Officium.Slicing

/-! What holds of a continuation between any two turns: the tower is the mode's, the lift
frames count the depth, and every frame that names a layer names one of its own kind. From
it no panic is reachable. -/
namespace Officium
open Runs (Turn run heldSince runInvariant)

def liftDepths : List Frame → List Nat
  | [] => []
  | .liftK d :: rest => d :: liftDepths rest
  | _ :: rest => liftDepths rest

/- As many lift frames as the depth, the k-th from the bottom holding k. -/
def Lifted (stack : List Frame) (depth : Nat) : Prop := (liftDepths stack).reverse = List.range depth

def Placed (kinds : List LayerKind) : Frame → Prop
  | .poneK i => kinds[i]? = some .state
  | .mitteK i => kinds[i]? = some .writer
  | .clamaK i | .recipeH _ _ _ i => kinds[i]? = some .except
  | _ => True

structure WellFormed (m : Continuation) : Prop where
  tower : m.tower.map Layer.kind = m.mode.tower
  lifted : Lifted m.stack m.depth
  room : m.depth < m.tower.length
  placed : ∀ f ∈ m.stack, Placed (m.tower.map Layer.kind) f

theorem liftedEmpty : Lifted [] 0 := rfl

theorem liftedPush {stack : List Frame} {d : Nat} (h : Lifted stack d) : Lifted (.liftK d :: stack) (d+1) := by
  unfold Lifted at *
  rw [liftDepths,List.reverse_cons,h,List.range_succ]

theorem liftedPop {stack : List Frame} {d depth : Nat} (h : Lifted (.liftK d :: stack) depth) :
    depth = d+1 ∧ Lifted stack d := by
  unfold Lifted at *
  rw [liftDepths,List.reverse_cons] at h
  cases depth with
  | zero => simp at h
  | succ k =>
    rw [List.range_succ] at h
    obtain ⟨rest,last⟩ := List.append_inj' h rfl
    cases last
    exact ⟨rfl,rest⟩

theorem liftedCount {stack : List Frame} {depth : Nat} (h : Lifted stack depth) : depth = (liftDepths stack).length := by
  have len := congrArg List.length h
  rw [List.length_reverse,List.length_range] at len
  exact len.symm

theorem liftedUnique {stack : List Frame} {d e : Nat} (hd : Lifted stack d) (he : Lifted stack e) : d = e :=
  (liftedCount hd).trans (liftedCount he).symm

theorem liftDepthsPosts (posts : List PostOp) (rest : List Frame) :
    liftDepths (posts.map .builtinPost ++ rest) = liftDepths rest := by
  induction posts with
  | nil => rfl
  | cons post posts ih => exact ih

section Unwinding
variable {v : Value} {thrown : Nat} {stack rest : List Frame} {depth d : Nat} {c : Control}

/- What unwinding stops at: a handler of the channel, with what lies under it kept. -/
theorem unwoundHandler (h : unwindFrames v thrown stack depth = some (c,rest,d)) :
    ∃ name handler scope, c = .eval handler (scope.bind name v) ∧
      .recipeH name handler scope thrown :: rest <:+ stack := by
  induction stack generalizing depth with
  | nil => cases h
  | cons f stack ih =>
    cases f with
    | recipeH name handler scope channel =>
      simp only [unwindFrames] at h
      split at h
      · rename_i same
        cases h
        exact ⟨name,handler,scope,rfl,same ▸ List.suffix_rfl⟩
      · obtain ⟨name',handler',scope',eq,suffix⟩ := ih h
        exact ⟨name',handler',scope',eq,suffix.trans (List.suffix_cons _ _)⟩
    | _ =>
      obtain ⟨name,handler,scope,eq,suffix⟩ := ih h
      exact ⟨name,handler,scope,eq,suffix.trans (List.suffix_cons _ _)⟩

theorem unwoundLifted (h : unwindFrames v thrown stack depth = some (c,rest,d)) (lifted : Lifted stack depth) :
    Lifted rest d ∧ d ≤ depth := by
  induction stack generalizing depth with
  | nil => cases h
  | cons f stack ih =>
    cases f with
    | recipeH name handler scope channel =>
      simp only [unwindFrames] at h
      split at h
      · cases h; exact ⟨lifted,Nat.le_refl _⟩
      · exact ih h lifted
    | liftK k =>
      obtain ⟨rfl,below⟩ := liftedPop lifted
      obtain ⟨good,le⟩ := ih h below
      exact ⟨good,Nat.le_succ_of_le le⟩
    | _ => exact ih h lifted

end Unwinding

theorem mapSetSame {α β : Type} {f : α → β} {xs : List α} {i : Nat} {x : α} (h : (xs.map f)[i]? = some (f x)) :
    (xs.set i x).map f = xs.map f := by
  rw [List.map_set]
  obtain ⟨inside,same⟩ := List.getElem?_eq_some_iff.mp h
  rw [← same]
  exact List.set_getElem_self inside

theorem kindAt {tower : List Layer} {i : Nat} {l : Layer} (h : tower[i]? = some l) :
    (tower.map Layer.kind)[i]? = some l.kind := by
  rw [List.getElem?_map,h]; rfl

theorem findKind {tower : List Layer} {depth i : Nat} {kind : LayerKind}
    (h : findLayer tower depth kind = some i) : (tower.map Layer.kind)[i]? = some kind := by
  obtain ⟨l,found,same,_⟩ := findLayerSome h
  rw [kindAt found,same]

/- Every layer of a tower is of one kind, so an operation binds to the layer at the lift depth. -/
theorem layerAtDepth {m : Continuation} (wf : WellFormed m) {kind : LayerKind} (among : kind ∈ m.mode.tower) :
    findLayer m.tower m.depth kind = some m.depth := by
  have uniform : ∀ k ∈ m.mode.tower, k = kind := by
    revert among
    cases m.mode <;> cases kind <;> decide
  have here : m.tower[m.depth]?.map Layer.kind = some kind := by
    rw [List.getElem?_eq_getElem wf.room]
    refine congrArg some (uniform _ ?_)
    rw [← wf.tower]
    exact List.mem_map_of_mem (List.getElem_mem wf.room)
  obtain ⟨k,count⟩ := Nat.exists_eq_succ_of_ne_zero (Nat.sub_ne_zero_of_lt wf.room)
  unfold findLayer
  rw [count,List.range'_succ]
  exact List.find?_cons_of_pos (by rw [here]; exact beq_self_eq_true _)

section Keeps
variable {env : Env} {m m' : Continuation}

theorem opensPlaced {scope : Scope} {e e' : Expr} {f : Frame} (h : Opens m scope e e' f) :
    Placed (m.tower.map Layer.kind) f := by
  cases h with
  | clama visible | recipe visible | pone visible | mitte visible => exact findKind visible
  | _ => trivial

theorem opensLifted {scope : Scope} {e e' : Expr} {f : Frame} (h : Opens m scope e e' f) (stack : List Frame) :
    liftDepths (f :: stack) = liftDepths stack := by
  cases h <;> rfl

theorem answersLifted {f : Frame} {v : Value} {c : Control} {pushed : List Frame}
    (h : Answers env f v c pushed) (rest : List Frame) :
    liftDepths (pushed ++ rest) = liftDepths (f :: rest) := by
  cases h with
  | appCall enters | fixK enters => exact liftDepthsPosts _ rest
  | _ => rfl

theorem answersPlaced {f : Frame} {v : Value} {c : Control} {pushed : List Frame}
    (h : Answers env f v c pushed) (kinds : List LayerKind) : ∀ g ∈ pushed, Placed kinds g := by
  intro g mem
  cases h with
  | appArg => cases List.mem_singleton.mp mem; trivial
  | appCall enters | fixK enters =>
    obtain ⟨post,_,rfl⟩ := List.mem_map.mp mem
    trivial
  | _ => cases mem

theorem stepMode (step : Step env m m') : m'.mode = m.mode := by
  cases step <;> rfl

theorem stepArg (step : Step env m m') : m'.arg = m.arg := by
  cases step <;> rfl

theorem wellFormedStep (wf : WellFormed m) (step : Step env m m') : WellFormed m' := by
  cases step with
  | yields at_ h => exact ⟨wf.tower,wf.lifted,wf.room,wf.placed⟩
  | pure at_ => exact ⟨wf.tower,wf.lifted,wf.room,wf.placed⟩
  | opens at_ h =>
    refine ⟨wf.tower,?_,wf.room,fun g mem => ?_⟩
    · unfold Lifted
      rw [opensLifted h]
      exact wf.lifted
    · cases mem with
      | head =>
        have placed := opensPlaced h
        exact placed
      | tail _ mem => exact wf.placed g mem
  | lift at_ room =>
    refine ⟨wf.tower,liftedPush wf.lifted,room,fun g mem => ?_⟩
    cases mem with
    | head => trivial
    | tail _ mem => exact wf.placed g mem
  | answers at_ top h =>
    refine ⟨wf.tower,?_,wf.room,fun g mem => ?_⟩
    · unfold Lifted
      rw [answersLifted h,← top]
      exact wf.lifted
    · rcases List.mem_append.mp mem with pushed | below
      · exact answersPlaced h _ g pushed
      · exact wf.placed g (by rw [top]; exact List.mem_cons_of_mem _ below)
  | @poneK v i rest at_ top inside =>
    have kind := wf.placed (.poneK i) (by rw [top]; exact List.mem_cons_self)
    have same : (m.tower.set i (.state v)).map Layer.kind = m.tower.map Layer.kind := mapSetSame kind
    refine ⟨same.trans wf.tower,?_,by rw [List.length_set]; exact wf.room,fun g mem => ?_⟩
    · have lifted := wf.lifted
      rw [top] at lifted
      exact lifted
    · rw [same]
      exact wf.placed g (by rw [top]; exact List.mem_cons_of_mem _ mem)
  | @mitteK v i rest p cs at_ top plan issued =>
    have same : (m.tower.set i (.writer (p ++ cs))).map Layer.kind = m.tower.map Layer.kind := by
      have kind : (m.tower.map Layer.kind)[i]? = some .writer := kindAt plan
      exact mapSetSame kind
    refine ⟨same.trans wf.tower,?_,by rw [List.length_set]; exact wf.room,fun g mem => ?_⟩
    · have lifted := wf.lifted
      rw [top] at lifted
      exact lifted
    · rw [same]
      exact wf.placed g (by rw [top]; exact List.mem_cons_of_mem _ mem)
  | liftK at_ top =>
    have lifted := wf.lifted
    rw [top] at lifted
    obtain ⟨depth,below⟩ := liftedPop lifted
    refine ⟨wf.tower,below,?_,fun g mem => wf.placed g (by rw [top]; exact List.mem_cons_of_mem _ mem)⟩
    have room := wf.room
    rw [depth] at room
    exact Nat.lt_of_succ_lt room
  | caught at_ top h =>
    have lifted := wf.lifted
    rw [top] at lifted
    obtain ⟨below,le⟩ := unwoundLifted h lifted
    obtain ⟨name,handler,scope,_,suffix⟩ := unwoundHandler h
    refine ⟨wf.tower,below,Nat.lt_of_le_of_lt le wf.room,fun g mem => wf.placed g ?_⟩
    rw [top]
    exact List.mem_cons_of_mem _ (suffix.subset (List.mem_cons_of_mem _ mem))

end Keeps

theorem layersKind (st : Value) (kinds : List LayerKind) : (layersOf st kinds).map Layer.kind = kinds := by
  induction kinds generalizing st with
  | nil => rfl
  | cons kind rest ih => cases kind <;> simp only [layersOf,List.map_cons,ih] <;> rfl

theorem towerNonempty (mode : Mode) : 0 < mode.tower.length := by cases mode <;> decide

theorem wellFormedInitial (mode : Mode) (body : Expr) (arg st : Value) : WellFormed (initial mode body arg st) := by
  refine ⟨layersKind st mode.tower,liftedEmpty,?_,fun f mem => by cases mem⟩
  have len := congrArg List.length (layersKind st mode.tower)
  rw [List.length_map] at len
  exact Nat.lt_of_lt_of_eq (towerNonempty mode) len.symm

/- Everything a run from the start passes through. -/
theorem wellFormedRun {env : Env} {mode : Mode} {body : Expr} {arg st : Value} {n : Nat} {m : Continuation}
    (h : run (turn env) n (initial mode body arg st) = .more m) : WellFormed m ∧ m.mode = mode := by
  refine runInvariant (fun m => WellFormed m ∧ m.mode = mode) (fun s s' good one => ?_)
    ⟨wellFormedInitial mode body arg st,rfl⟩ h
  have step := turnStep one
  exact ⟨wellFormedStep good.1 step,(stepMode step).trans good.2⟩

section Faults
variable {env : Env} {m : Continuation}

theorem plainNotFault {r : Raise} (h : Builtins.Plain r) (f : Fault) : r ≠ .fault f := by
  cases h <;> intro same <;> cases same

theorem rejectsNotFault {fn v : Value} {r : Raise} (h : Rejects fn v r) (f : Fault) : r ≠ .fault f := by
  induction h with
  | other => intro same; cases same
  | call full called => exact plainNotFault (Builtins.plainCall (by simpa using full) _ called) f
  | inner full called inner ih => exact ih

theorem failsNotFault {scope : Scope} {e : Expr} {r : Raise} (wf : WellFormed m) (h : Fails env m scope e r)
    (f : Fault) : r ≠ .fault f := by
  cases h with
  | ask unbound => rw [askError unbound]; intro same; cases same
  | below e outside => exact absurd outside (Nat.not_lt_of_lt wf.room)
  | _ => intro same; cases same

theorem refusesNotFault {frame : Frame} {rest : List Frame} {v : Value} {r : Raise} (wf : WellFormed m)
    (top : m.stack = frame :: rest) (h : Refuses env m frame v r) (f : Fault) : r ≠ .fault f := by
  have placed := wf.placed frame (by rw [top]; exact List.mem_cons_self)
  cases h with
  | appCall h => exact rejectsNotFault h f
  | fixK h => exact rejectsNotFault h f
  | poneK outside | outside outside =>
    obtain ⟨inside,_⟩ := List.getElem?_eq_some_iff.mp placed
    rw [List.length_map] at inside
    exact absurd inside (Nat.not_lt_of_le outside)
  | @layer i v l found other =>
    have kind := (kindAt found).symm.trans placed
    cases l with
    | writer p => exact absurd rfl (other p)
    | _ => cases kind
  | resolveK unresolved => rw [resolveError unresolved]; intro same; cases same
  | builtinPost h => exact plainNotFault (Builtins.plainApplyPost _ _ _ h) f
  | _ => intro same; cases same

theorem stopsNotFault {f : Fault} (wf : WellFormed m) : ¬ Stops env m (.error (.fault f)) := by
  intro h
  cases h with
  | fails at_ h => exact failsNotFault wf h f rfl
  | refuses at_ top h => exact refusesNotFault wf top h f rfl

end Faults

theorem noFault (env : Env) (mode : Mode) (body : Expr) (arg st : Value) (fuel : Nat) (f : Fault) :
    runVerse env mode body arg st fuel ≠ .error (.fault f) := by
  intro h
  have ended := endedRun h (fun c same => by cases same)
  obtain ⟨k,m,_,hk,last⟩ := Runs.lastTurn ended
  exact stopsNotFault (wellFormedRun hk).1 (turnStop last)

section Apply

/- Beyond the nesting of `solve` the cut-off of `apply` is never reached. -/
theorem applyWithinMore {fn v : Value} {n : Nat} (enough : solveNesting fn < n) (m : Continuation) :
    applyWithin (n+1) fn v m = applyWithin n fn v m := by
  induction n generalizing fn v m with
  | zero => omega
  | succ n ih =>
    cases fn with
    | builtin name args =>
      rw [applyWithin,applyWithin]
      split
      · rfl
      · cases called : Builtins.call name (args ++ [v]) with
        | error r => rfl
        | ok r =>
          cases r with
          | done r => rfl
          | apply g a post =>
            have less := applyNested called
            exact ih (by omega) { m with stack := .builtinPost post :: m.stack }
    | _ => rfl

theorem applyWithinEnough {fn v : Value} {n : Nat} (enough : solveNesting fn < n) (m : Continuation) :
    applyWithin n fn v m = apply fn v m := by
  obtain ⟨k,rfl⟩ := Nat.exists_eq_add_of_lt enough
  induction k with
  | zero => rfl
  | succ k ih => exact (applyWithinMore (by omega) m).trans (ih (by omega))

theorem applyNotFault (fn v : Value) (m m' : Continuation) (f : Fault) : apply fn v m ≠ .error (.fault f) m' := by
  intro h
  exact rejectsNotFault (applyWithinError (Nat.lt_succ_self _) h) f rfl

end Apply

/- A frame new on the stack, with what lies under it: an operand was opened, a lift entered,
a function value put aside for its argument, or a builtin's post step left. -/
inductive Pushed (m m' : Continuation) (f : Frame) (below : List Frame) : Prop where
  | opens {e scope e'} (at_ : m.control = .eval e scope) (h : Opens m scope e e' f) (under : m.stack = below)
      (next : m' = { m with control := .eval e' scope, stack := f :: below })
  | lift (frame : f = .liftK m.depth)
  | appCall (v : Value) (frame : f = .appCall v)
  | post (post : PostOp) (frame : f = .builtinPost post)

theorem suffixCons {α : Type} {f g : α} {below stack : List α} (h : f :: below <:+ g :: stack) :
    (f = g ∧ below = stack) ∨ f :: below <:+ stack := by
  rcases List.suffix_cons_iff.mp h with same | inside
  · cases same; exact .inl ⟨rfl,rfl⟩
  · exact .inr inside

theorem suffixAppend {α : Type} {f : α} {below pushed stack : List α} (h : f :: below <:+ pushed ++ stack) :
    f ∈ pushed ∨ f :: below <:+ stack := by
  induction pushed with
  | nil => exact .inr h
  | cons g pushed ih =>
    rcases suffixCons h with ⟨rfl,_⟩ | inside
    · exact .inl List.mem_cons_self
    · rcases ih inside with mem | inside
      · exact .inl (List.mem_cons_of_mem _ mem)
      · exact .inr inside

theorem pushedStep {env : Env} {m m' : Continuation} {f : Frame} {below : List Frame} (step : Step env m m')
    (on : f :: below <:+ m'.stack) (off : ¬ f :: below <:+ m.stack) : Pushed m m' f below := by
  have popped {frame : Frame} {rest : List Frame} (top : m.stack = frame :: rest)
      (inside : f :: below <:+ rest) : False := by
    refine off ?_
    rw [top]
    exact inside.trans (List.suffix_cons _ _)
  cases step with
  | yields at_ h => exact absurd on off
  | pure at_ => exact absurd on off
  | opens at_ h =>
    rcases suffixCons on with ⟨rfl,rfl⟩ | inside
    · exact .opens at_ h rfl rfl
    · exact absurd inside off
  | lift at_ room =>
    rcases suffixCons on with ⟨rfl,_⟩ | inside
    · exact .lift rfl
    · exact absurd inside off
  | answers at_ top h =>
    rcases suffixAppend on with mem | inside
    · cases h with
      | appArg => exact .appCall _ (List.mem_singleton.mp mem)
      | appCall enters | fixK enters =>
        obtain ⟨post,_,rfl⟩ := List.mem_map.mp mem
        exact .post post rfl
      | _ => cases mem
    · exact (popped top inside).elim
  | poneK at_ top inside | mitteK at_ top plan issued | liftK at_ top => exact (popped top on).elim
  | caught at_ top h =>
    obtain ⟨name,handler,scope,_,suffix⟩ := unwoundHandler h
    exact (popped top (on.trans ((List.suffix_cons _ _).trans suffix))).elim

section Caught
variable {env : Env} {mode : Mode} {body : Expr} {arg st : Value} {n : Nat} {m m' : Continuation}

/- The turn at which the expression that opened a frame was entered, the frame on the stack ever since. -/
structure OpenedAt (env : Env) (start : Continuation) (n : Nat) (f : Frame) (below : List Frame)
    (j : Nat) (t : Continuation) (e : Expr) (scope : Scope) : Prop where
  before : j < n
  reached : run (turn env) j start = .more t
  entered : t.control = .eval e scope
  under : t.stack = below
  since : ∀ k, j < k → k ≤ n → ∃ u, run (turn env) k start = .more u ∧ f :: below <:+ u.stack

theorem openedAt (h : run (turn env) n (initial mode body arg st) = .more m) {f : Frame} {below : List Frame}
    (on : f :: below <:+ m.stack) (liftK : ∀ d, f ≠ .liftK d) (appCall : ∀ v, f ≠ .appCall v)
    (post : ∀ p, f ≠ .builtinPost p) :
    ∃ j t e scope e', OpenedAt env (initial mode body arg st) n f below j t e scope ∧ Opens t scope e e' f ∧
      turn env t = .more { t with control := .eval e' scope, stack := f :: below } := by
  obtain ⟨j,t,t',lt,ht,next,off,on',since⟩ :=
    heldSince (p := fun m => f :: below <:+ m.stack) h on (fun start => by simp [initial] at start)
  cases pushedStep (turnStep next) on' off with
  | opens at_ opens under same =>
    subst same
    exact ⟨j,t,_,_,_,⟨lt,ht,at_,under,since⟩,opens,next⟩
  | lift frame => exact absurd frame (liftK _)
  | appCall v frame => exact absurd frame (appCall v)
  | post p frame => exact absurd frame (post p)

/- A caught value goes on at the depth, and over the stack, the handler was installed with. -/
theorem caughtDepth (h : run (turn env) n (initial mode body arg st) = .more m) {v : Value} {channel : Nat}
    {rest : List Frame} (at_ : m.control = .value v) (top : m.stack = .clamaK channel :: rest)
    (next : turn env m = .more m') :
    ∃ j t guarded name handler scope,
      OpenedAt env (initial mode body arg st) n (.recipeH name handler scope channel) m'.stack j t
        (.recipe guarded name handler) scope ∧
      findLayer t.tower t.depth .except = some channel ∧
      m'.control = .eval handler (scope.bind name v) ∧ m'.depth = t.depth := by
  have wf := wellFormedStep (wellFormedRun h).1 (turnStep next)
  cases turnStep next with
  | @caught v' channel' rest' c below d at_' top' h' =>
    rw [at_] at at_'; rw [top] at top'
    cases at_'; cases top'
    obtain ⟨name,handler,scope,rfl,suffix⟩ := unwoundHandler h'
    have on : .recipeH name handler scope channel :: below <:+ m.stack := by
      rw [top]
      exact suffix.trans (List.suffix_cons _ _)
    obtain ⟨j,t,e,scope',e',opened,opens,_⟩ := openedAt h on (by simp) (by simp) (by simp)
    cases opens with
    | recipe visible =>
      refine ⟨j,t,e',name,handler,scope,opened,visible,rfl,?_⟩
      have lifted := (wellFormedRun opened.reached).1.lifted
      rw [opened.under] at lifted
      exact liftedUnique wf.lifted lifted
  | yields at_' => rw [at_] at at_'; cases at_'
  | opens at_' => rw [at_] at at_'; cases at_'
  | pure at_' => rw [at_] at at_'; cases at_'
  | lift at_' => rw [at_] at at_'; cases at_'
  | answers at_' top' h' => rw [top] at top'; cases top'; cases h'
  | poneK at_' top' | mitteK at_' top' | liftK at_' top' => rw [top] at top'; cases top'

end Caught

/- In every continuation a run is paused in; and no run panics, in a layer, an index, the lift
depth or the recursion of `apply`. -/
theorem machineWellFormed (env : Env) (mode : Mode) (body : Expr) (arg st : Value) :
    (∀ n m, runVerse env mode body arg st n = failure (.outOfFuel m) →
      WellFormed m ∧ m.mode = mode ∧
      ∀ v channel rest m', m.control = .value v → m.stack = .clamaK channel :: rest → turn env m = .more m' →
        ∃ j t guarded name handler scope,
          OpenedAt env (initial mode body arg st) n (.recipeH name handler scope channel) m'.stack j t
            (.recipe guarded name handler) scope ∧
          findLayer t.tower t.depth .except = some channel ∧
          m'.control = .eval handler (scope.bind name v) ∧ m'.depth = t.depth) ∧
    (∀ n f, runVerse env mode body arg st n ≠ .error (.fault f)) ∧
    (∀ fn v n m, solveNesting fn < n → applyWithin n fn v m = apply fn v m ∧
      ∀ f m', applyWithin n fn v m ≠ .error (.fault f) m') := by
  refine ⟨fun n m h => ?_,noFault env mode body arg st,fun fn v n m enough => ?_⟩
  · have reached := pausedRun.mp h
    obtain ⟨wf,same⟩ := wellFormedRun reached
    exact ⟨wf,same,fun v channel rest m' at_ top next => caughtDepth reached at_ top next⟩
  · have same := applyWithinEnough (v := v) enough m
    refine ⟨same,fun f m' => ?_⟩
    rw [same]
    exact applyNotFault fn v m m' f

/- A clama one lift down, about to be caught by a handler installed there. -/
theorem machineWellFormedCaught :
    let body := Expr.lift (.recipe (.clama (.lit .unit)) "e" (.var "e"))
    ∃ m m', runVerse .default .hypophrygian body .unit emptyState 4 = failure (.outOfFuel m) ∧
      turn .default m = .more m' ∧ WellFormed m ∧
      ∃ j t guarded name handler scope,
        OpenedAt .default (initial .hypophrygian body .unit emptyState) 4 (.recipeH name handler scope 1) m'.stack j t
          (.recipe guarded name handler) scope ∧ m'.depth = t.depth := by
  intro body
  have wf := (machineWellFormed .default .hypophrygian body .unit emptyState).1 4 _ rfl
  obtain ⟨j,t,guarded,name,handler,scope,opened,_,_,depth⟩ := wf.2.2 _ _ _ _ rfl rfl rfl
  exact ⟨_,_,rfl,rfl,wf.1,j,t,guarded,name,handler,scope,opened,depth⟩

end Officium
