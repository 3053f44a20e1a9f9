import Officium.Levels
import Officium.Turns

/-! How long scope chains grow. A binder adds one binding to the chain its body runs in, and the
machine adds one more when it enters a self-reference; a self-reference made on re-entry is made in
that longer chain, so a fixpoint that goes on re-entering itself makes ever longer ones. -/
namespace Officium
open Runs (Turn run runInvariantAt)
open Check (ClosureFree)

/- The deepest nesting of binders; a fixpoint is one for the name the machine binds. -/
def nesting : Expr → Nat
  | .lam _ e | .fix e => nesting e + 1
  | .bind _ m _ k => max (nesting m) (nesting k + 1)
  | .recipe b _ h => max (nesting b) (nesting h + 1)
  | .app f a => max (nesting f) (nesting a)
  | .ifE c t e => max (nesting c) (max (nesting t) (nesting e))
  | .pure _ e | .ret _ e | .clama e | .pone e | .mitte e | .perage e | .lift e | .resolve _ e => nesting e
  | .lit _ | .var _ | .arg | .ask _ | .nihil | .lege => 0

/- No overload is brought in, and the literals hold no closures. -/
def Lexical : Expr → Prop
  | .lit v => ClosureFree v
  | .resolve _ _ => False
  | .lam _ e | .fix e | .pure _ e | .ret _ e | .clama e | .pone e | .mitte e | .perage e | .lift e => Lexical e
  | .app f a => Lexical f ∧ Lexical a
  | .ifE c t e => Lexical c ∧ Lexical t ∧ Lexical e
  | .bind _ m _ k => Lexical m ∧ Lexical k
  | .recipe b _ h => Lexical b ∧ Lexical h
  | .var _ | .arg | .ask _ | .nihil | .lege => True

mutual
/- The scopes that closures in the value hold, and those in them. -/
def Value.scopes : Value → List Scope
  | .closure _ _ env => env :: env.scopes
  | .builtin _ args => scopesOf args
  | .record fields => scopesOfFields fields
  | _ => []

def scopesOf : List Value → List Scope
  | [] => []
  | v :: rest => v.scopes ++ scopesOf rest

def scopesOfFields : List (Sym × Value) → List Scope
  | [] => []
  | (_,v) :: rest => v.scopes ++ scopesOfFields rest

def Scope.scopes : Scope → List Scope
  | .empty => []
  | .node _ v next => v.scopes ++ next.scopes
end

def Control.scopes : Control → List Scope
  | .eval _ scope => scope :: scope.scopes
  | .value v => v.scopes

def Frame.scopes : Frame → List Scope
  | .appArg _ scope | .ifK _ _ scope | .bindK _ _ scope | .recipeH _ _ scope _ | .resolveK _ scope | .fixK _ scope =>
    scope :: scope.scopes
  | .appCall f => f.scopes
  | _ => []

def Layer.scopes : Layer → List Scope
  | .state v => v.scopes
  | _ => []

/- Every scope the continuation holds. -/
def Continuation.scopes (m : Continuation) : List Scope :=
  m.control.scopes ++ m.stack.flatMap Frame.scopes ++ m.tower.flatMap Layer.scopes

/- A self-reference that is applied was made in a scope that leaves room for its fixpoint. -/
def LeavesRoom (N : Nat) (m : Continuation) : Prop :=
  ∀ v frame rest f w g a made posts, m.control = .value v → m.stack = frame :: rest → Applies frame v f w →
    Enters f w (.eval (.app (.fix g) (.var "$stretto")) (.node "$stretto" a made)) posts → made.length + nesting (.fix g) ≤ N

section Rooms
variable {env : Env} {N : Nat}

/- What code still adds to the scope it runs in, the machine's own name apart when it is a fixpoint. -/
def reach : Expr → Nat
  | .fix f => nesting f
  | .app f a => max (reach f) (reach a)
  | e => nesting e

/- There is room for the code in a scope of so many bindings. -/
def Fits (N : Nat) (e : Expr) (n : Nat) : Prop := Lexical e ∧ n + reach e ≤ N

/- There is room for the closure's body as well, unless the closure is a self-reference. -/
structure Closes (N : Nat) (param : Sym) (body : Expr) (n : Nat) : Prop where
  fits : Fits N body n
  enters : n + 1 + reach body ≤ N ∨ ∃ f, param = "$stretto" ∧ body = .app (.fix f) (.var "$stretto")

theorem reachNesting (e : Expr) : reach e ≤ nesting e := by
  fun_induction reach e with
  | case1 f => exact Nat.le_succ _
  | case2 f a ihf iha => simp only [nesting]; omega
  | case3 e => exact Nat.le_refl _

theorem reachOperand {e e' : Expr} (h : Operand e e') : reach e ≤ reach e' := by
  have under := reachNesting e
  cases h <;> simp only [reach,nesting] at * <;> omega

theorem lexicalOperand {e e' : Expr} (h : Operand e e') (lexical : Lexical e') : Lexical e := by
  cases h <;> simp_all [Lexical]

theorem fitsHereditary (pedals : ∀ name v, env.ask name = .ok v → ClosureFree v) :
    HereditaryBy env (Fits N) (Closes N) where
  operand := fun sub fits => ⟨lexicalOperand sub fits.1,Nat.le_trans (Nat.add_le_add_left (reachOperand sub) _) fits.2⟩
  closes := by
    intro x e n fits
    have under := reachNesting e
    have room : n + (nesting e + 1) ≤ N := fits.2
    exact ⟨⟨fits.1,by omega⟩,.inl (by omega)⟩
  binds := by
    intro tag m x k n fits
    have under := reachNesting k
    have room : n + max (nesting m) (nesting k + 1) ≤ N := fits.2
    exact ⟨fits.1.2,by omega⟩
  handles := by
    intro b x h n fits
    have under := reachNesting h
    have room : n + max (nesting b) (nesting h + 1) ≤ N := fits.2
    exact ⟨fits.1.2,by omega⟩
  literal := fun fits => carriesMono (fun _ _ _ none => none.elim) fits.1
  overload := fun fits _ => fits.1.elim
  pedal := fun held => carriesMono (fun _ _ _ none => none.elim) (pedals _ _ held)
  stretto := by
    intro f n fits
    have room : n + nesting f ≤ N := fits.2
    exact ⟨⟨⟨fits.1,trivial⟩,by simpa [reach,nesting] using room⟩,.inr ⟨f,rfl,rfl⟩⟩

/- The one closure with no room of its own for its body is given it. -/
theorem roomReady {m : Continuation} (room : LeavesRoom N m) (v : Value) (frame : Frame) (rest : List Frame)
    (at_ : m.control = .value v) (top : m.stack = frame :: rest) : Ready (Fits N) (Closes N) frame v := by
  intro f w param body a scope posts applies enters closes
  refine ⟨closes.fits.1,?_⟩
  rcases closes.enters with fits | ⟨g,rfl,rfl⟩
  · exact fits
  · have given : scope.length + (nesting g + 1) ≤ N := room v frame rest f w g a scope posts at_ top applies enters
    simp only [reach,nesting]
    omega

theorem scopesOfMember {args : List Value} {s : Scope} (h : s ∈ scopesOf args) : ∃ v ∈ args, s ∈ v.scopes := by
  induction args with
  | nil => cases h
  | cons v rest ih =>
    rcases List.mem_append.mp h with here | further
    · exact ⟨v,List.mem_cons_self,here⟩
    · obtain ⟨w,mem,inside⟩ := ih further
      exact ⟨w,List.mem_cons_of_mem _ mem,inside⟩

theorem scopesOfFieldsMember {fields : List (Sym × Value)} {s : Scope} (h : s ∈ scopesOfFields fields) :
    ∃ p ∈ fields, s ∈ p.2.scopes := by
  induction fields with
  | nil => cases h
  | cons p rest ih =>
    rcases List.mem_append.mp h with here | further
    · exact ⟨p,List.mem_cons_self,here⟩
    · obtain ⟨q,mem,inside⟩ := ih further
      exact ⟨q,List.mem_cons_of_mem _ mem,inside⟩

mutual
theorem carriedScopes : ∀ {v : Value}, CarriesBy (Closes N) v → ∀ s ∈ v.scopes, s.length ≤ N
  | _, .closure code scope_ => fun s mem => by
    rcases List.mem_cons.mp mem with rfl | inside
    · exact Nat.le_trans (Nat.le_add_right _ _) code.fits.2
    · exact boundScopes scope_ s inside
  | _, .builtin _ args_ => fun s mem => by
    obtain ⟨v,among,inside⟩ := scopesOfMember mem
    exact carriedScopes (args_ v among) s inside
  | _, .record fields_ => fun s mem => by
    obtain ⟨p,among,inside⟩ := scopesOfFieldsMember mem
    exact carriedScopes (fields_ p among) s inside
  | _, .unit | _, .num _ | _, .bool _ | _, .genus _ | _, .str _ | _, .cmd _ | _, .plan _ | _, .field _ => fun _ mem => by cases mem

theorem boundScopes : ∀ {scope : Scope}, ScopeCarriesBy (Closes N) scope → ∀ s ∈ scope.scopes, s.length ≤ N
  | _, .empty => fun _ mem => by cases mem
  | _, .node _ value_ next_ => fun s mem => by
    rcases List.mem_append.mp mem with here | further
    · exact carriedScopes value_ s here
    · exact boundScopes next_ s further
end

/- A scope some code runs in, and those in it. -/
theorem chainScopes {scope : Scope} {n : Nat} (scope_ : ScopeCarriesBy (Closes N) scope) (room : scope.length + n ≤ N) :
    ∀ s ∈ scope :: scope.scopes, s.length ≤ N :=
  List.forall_mem_cons.mpr ⟨Nat.le_trans (Nat.le_add_right _ _) room,boundScopes scope_⟩

theorem frameScopes {f : Frame} (h : FrameCarriesBy (Fits N) (Closes N) f) : ∀ s ∈ f.scopes, s.length ≤ N := by
  cases h with
  | appArg code scope_ | resolveK code scope_ | fixK code scope_ => exact chainScopes scope_ code.2
  | ifK then_ _ scope_ => exact chainScopes scope_ then_.2
  | bindK _ code scope_ | recipeH _ _ code scope_ => exact chainScopes scope_ (Nat.add_assoc _ 1 _ ▸ code.2)
  | appCall value_ => exact carriedScopes value_
  | _ => intro s mem; cases mem

theorem stateScopes {m : Continuation} (state : StateCarriesBy (Fits N) (Closes N) m) : ∀ s ∈ m.scopes, s.length ≤ N := by
  intro s mem
  rcases List.mem_append.mp mem with above | cells
  · rcases List.mem_append.mp above with control | stack
    · have held := state.control
      generalize m.control = c at control held
      cases held with
      | eval code scope_ => exact chainScopes scope_ code.2 s control
      | value value_ => exact carriedScopes value_ s control
    · obtain ⟨f,among,inside⟩ := List.mem_flatMap.mp stack
      exact frameScopes (state.stack f among) s inside
  · obtain ⟨l,among,inside⟩ := List.mem_flatMap.mp cells
    cases l with
    | state v => exact carriedScopes (state.cells v among) s inside
    | _ => cases inside

end Rooms

/- Up to the first turn that applies a self-reference without that room. -/
theorem chainsBounded {env : Env} (pedals : ∀ name v, env.ask name = .ok v → ClosureFree v) {mode : Mode} {body : Expr}
    {arg st : Value} (body_ : Lexical body) (arg_ : ClosureFree arg) (st_ : ClosureFree st) :
    ∀ n m, run (turn env) n (initial mode body arg st) = .more m →
      (∀ k t, k < n → run (turn env) k (initial mode body arg st) = .more t → LeavesRoom (nesting body) t) →
      ∀ s ∈ m.scopes, s.length ≤ nesting body := by
  intro n m reached room
  refine stateScopes (runInvariantAt (fun n m => (∀ k t, k < n → run (turn env) k (initial mode body arg st) = .more t →
    LeavesRoom (nesting body) t) → StateCarriesBy (Fits (nesting body)) (Closes (nesting body)) m) ?_ ?_ reached room)
  · intro _
    have fits : Fits (nesting body) body 0 := ⟨body_,by rw [Nat.zero_add]; exact reachNesting body⟩
    exact initialCarries fits (carriesMono (fun _ _ _ none => none.elim) arg_) (carriesMono (fun _ _ _ none => none.elim) st_)
  · intro n t t' ht kept next room
    have state := kept (fun k u before => room k u (Nat.lt_succ_of_lt before))
    exact carriesStepBy (fitsHereditary pedals) state (roomReady (room n t (Nat.lt_succ_self n) ht)) (turnStep next)

theorem emptyClosureFree : ClosureFree emptyState := .record (fun p mem => by cases mem)

def roomFor (N : Nat) : Value → Bool
  | .closure _ (.app (.fix g) _) made => decide (made.length + nesting (.fix g) ≤ N)
  | .builtin _ _ => false
  | _ => true

/- The condition as a test, where no name of the table is applied. -/
def leavesRoom (N : Nat) (m : Continuation) : Bool :=
  match m.control,m.stack with
  | .value _,.appCall f :: _ => roomFor N f
  | .value v,.fixK _ _ :: _ => roomFor N v
  | _,_ => true

theorem roomForOf {N : Nat} {f w a : Value} {g : Expr} {made : Scope} {posts : List PostOp} (h : roomFor N f = true)
    (enters : Enters f w (.eval (.app (.fix g) (.var "$stretto")) (.node "$stretto" a made)) posts) :
    made.length + nesting (.fix g) ≤ N := by
  cases enters with
  | closure => exact of_decide_eq_true h
  | apply => cases h

theorem leavesRoomOf {N : Nat} {m : Continuation} (h : leavesRoom N m = true) : LeavesRoom N m := by
  intro v frame rest f w g a made posts at_ top applies enters
  rw [leavesRoom,at_,top] at h
  cases applies with
  | call | fixpoint => exact roomForOf h enters

/- `(fix (\self x -> if x then self falsum else x)) verum`. -/
def once : Expr := .app (.fix (.lam "self" (.lam "x" (.ifE (.var "x") (.app (.var "self") (.lit (.bool false))) (.var "x")))))
  (.lit (.bool true))

/- A fixpoint that re-enters itself once, in the turns of its second round. -/
theorem chainsBoundedOnce : ∃ m, run (turn Env.default) 24 (initial .lydian once .unit emptyState) = .more m ∧
    ∀ s ∈ m.scopes, s.length ≤ nesting once := by
  have room : Runs.along (turn Env.default) (leavesRoom (nesting once)) 24 (initial .lydian once .unit emptyState) = true := by
    decide +kernel
  have going : (run (turn Env.default) 24 (initial .lydian once .unit emptyState)).over = false := by decide +kernel
  have lexical : Lexical once := by simp only [once,Lexical,and_true,true_and]; exact ⟨.bool false,.bool true⟩
  cases reached : run (turn Env.default) 24 (initial .lydian once .unit emptyState) with
  | done r => rw [reached] at going; cases going
  | more m =>
    have bounded := chainsBounded (fun name v held => by cases held) lexical .unit emptyClosureFree 24 m reached
    exact ⟨m,rfl,bounded (fun k t before ht => leavesRoomOf (Runs.alongEach room before ht))⟩

/- `\self x -> self x`, whose fixpoint never ends. -/
def again : Expr := .lam "self" (.lam "x" (.app (.var "self") (.var "x")))

/- Taking the fixpoint at a value leads to taking it at the same value one binding further down. -/
theorem reentered {env : Env} {m : Continuation} {scope : Scope} {a : Expr} {v : Value}
    (at_ : m.control = .eval (.app (.fix again) a) scope) (given : ∀ t, Yields env t scope a v) :
    run (turn env) 13 m = .more { m with control := .eval (.app (.fix again) (.var "$stretto")) (.node "$stretto" v scope) } := by
  refine moreStep (.opens at_ (.app _ _)) (moreStep (.opens rfl (.fix _)) (moreStep (.yields rfl (.lam _ _)) ?_))
  -- the operand is handed its self-reference, and the function it answers the argument
  refine moreStep (.answers rfl rfl (.fixK (.closure _ _ _ _))) (moreStep (.yields rfl (.lam _ _)) ?_)
  refine moreStep (.answers rfl rfl (.appArg _ _ _)) (moreStep (.yields rfl (given _)) ?_)
  refine moreStep (.answers rfl rfl (.appCall (.closure _ _ _ _))) (moreStep (.opens rfl (.app _ _)) ?_)
  -- `self x` applies the self-reference to the argument
  refine moreStep (.yields rfl (.var rfl)) (moreStep (.answers rfl rfl (.appArg _ _ _)) ?_)
  exact moreStep (.yields rfl (.var rfl)) (moreStep (.answers rfl rfl (.appCall (.closure _ _ _ _))) (Runs.runZero _))

def eternal : Expr := .app (.fix again) (.lit (.num 0))

def unrolled : Nat → Scope
  | 0 => .empty
  | k+1 => .node "$stretto" (.num 0) (unrolled k)

theorem unrolledLength (k : Nat) : (unrolled k).length = k := by
  induction k with
  | zero => rfl
  | succ k ih => simp only [unrolled,Scope.length,ih]

theorem eternalUnrolls (env : Env) (mode : Mode) (arg st : Value) (k : Nat) :
    ∃ n, run (turn env) n (initial mode eternal arg st) =
      .more { initial mode eternal arg st with control := .eval (.app (.fix again) (.var "$stretto")) (unrolled (k+1)) } := by
  induction k with
  | zero => exact ⟨13,reentered rfl (fun _ => .lit _)⟩
  | succ k ih =>
    obtain ⟨n,reached⟩ := ih
    exact ⟨n+13,by rw [Runs.runThrough reached]; exact reentered rfl (fun _ => .var rfl)⟩

/- The eternal fugue, whose nesting is three, comes to hold chains of any length. -/
theorem chainsEndless : Lexical eternal ∧ nesting eternal = 3 ∧ ClosureFree .unit ∧ ClosureFree emptyState ∧
    ∀ bound, ∃ n m s, run (turn Env.default) n (initial .lydian eternal .unit emptyState) = .more m ∧ s ∈ m.scopes ∧ bound < s.length := by
  refine ⟨⟨⟨trivial,trivial⟩,.num 0⟩,rfl,.unit,emptyClosureFree,fun bound => ?_⟩
  obtain ⟨n,reached⟩ := eternalUnrolls Env.default .lydian .unit emptyState bound
  exact ⟨n,_,unrolled (bound+1),reached,List.mem_cons_self,by rw [unrolledLength]; exact Nat.lt_succ_self bound⟩

end Officium
