import Officium.Typing
import Officium.Steps

/-! Typed values, frames and stacks. A closure carries a typed scope, a partial builtin what is
left of its signature, and a stack is a chain from the type of the control to the end of the
verse. A typed function applied to a typed argument enters typed code or answers a typed value. -/
namespace Officium.Check

def numeric (v : Value) : Prop := ∃ n, v = .num n

/- A record that stands for a body. -/
structure IsCorpus (fields : List (Sym × Value)) : Prop where
  genus : ∃ g, fields.lookup "genus" = some (.genus g)
  id : ∃ v, fields.lookup "id" = some v ∧ numeric v
  mass : ∃ v, fields.lookup "mass" = some v ∧ numeric v
  dist : ∃ v, fields.lookup "dist" = some v ∧ numeric v
  outgassing : ∀ v, fields.lookup "outgassing" = some v → numeric v

section Values
variable (rule : Expr → Ty → Prop) (prog : Program) (cells : Cells)

mutual
inductive ValTyBy : Value → Ty → Prop where
  | any (v : Value) (i : Nat) : ValTyBy v (.var i)
  | unit : ValTyBy .unit .unit
  | num (n : Scalar) : ValTyBy (.num n) .num
  | bool (b : Bool) : ValTyBy (.bool b) .bool
  | genus (g : Genus) : ValTyBy (.genus g) .genus
  | str (s : String) : ValTyBy (.str s) .str
  | cmd (c : GravityCmd) : ValTyBy (.cmd c) .cmd
  | plan (p : Plan) : ValTyBy (.plan p) .plan
  | field (f : Field) : ValTyBy (.field f) .field
  | record {fields} (corpus : IsCorpus fields) : ValTyBy (.record fields) .corpus
  | closure {param body env Γ a r} (scope : ScopeTyBy env Γ) (body_ : HasTyBy rule prog cells ((param,a) :: Γ) body r) :
      ValTyBy (.closure param body env) (.fn a r)
  | builtin {name doms args a rest r} (sig : Signature name doms r) (given : ArgsTyBy args doms (a :: rest)) :
      ValTyBy (.builtin name args) (.fn a (arrows rest r))

/- The arguments given so far, and the domains they leave. -/
inductive ArgsTyBy : List Value → List Ty → List Ty → Prop where
  | nil (doms : List Ty) : ArgsTyBy [] doms doms
  | cons {v a args doms rest} (first : ValTyBy v a) (others : ArgsTyBy args doms rest) :
      ArgsTyBy (v :: args) (a :: doms) rest

inductive ScopeTyBy : Scope → Gamma → Prop where
  | empty : ScopeTyBy .empty []
  | node {name v next a Γ} (value : ValTyBy v a) (next_ : ScopeTyBy next Γ) :
      ScopeTyBy (.node name v next) ((name,a) :: Γ)
end

end Values

abbrev ValTy (prog : Program) (cells : Cells) : Value → Ty → Prop := ValTyBy (fun _ _ => False) prog cells

section Machine
variable (rule : Expr → Ty → Prop) (prog : Program) (cells : Cells)

inductive ControlTyBy : Control → Ty → Prop where
  | eval {e scope Γ t} (scope_ : ScopeTyBy rule prog cells scope Γ) (e_ : HasTyBy rule prog cells Γ e t) : ControlTyBy (.eval e scope) t
  | value {v t} (v_ : ValTyBy rule prog cells v t) : ControlTyBy (.value v) t

/- The type a frame takes and the type it hands on. -/
inductive FrameTyBy : Frame → Ty → Ty → Prop where
  | appArg {a scope Γ t r} (scope_ : ScopeTyBy rule prog cells scope Γ) (a_ : HasTyBy rule prog cells Γ a t) :
      FrameTyBy (.appArg a scope) (.fn t r) r
  | appCall {f t r} (f_ : ValTyBy rule prog cells f (.fn t r)) : FrameTyBy (.appCall f) t r
  | ifK {t e scope Γ r} (scope_ : ScopeTyBy rule prog cells scope Γ) (then_ : HasTyBy rule prog cells Γ t r)
      (else_ : HasTyBy rule prog cells Γ e r) : FrameTyBy (.ifK t e scope) .bool r
  | bindK {name k scope Γ a r} (scope_ : ScopeTyBy rule prog cells scope Γ) (k_ : HasTyBy rule prog cells ((name,a) :: Γ) k r) :
      FrameTyBy (.bindK name k scope) a r
  | returnK (r : Ty) : FrameTyBy .returnK cells.result r
  | clamaK (channel : Nat) (r : Ty) : FrameTyBy (.clamaK channel) cells.throw r
  | recipeH {name handler scope Γ r} (channel : Nat) (scope_ : ScopeTyBy rule prog cells scope Γ)
      (handler_ : HasTyBy rule prog cells ((name,cells.throw) :: Γ) handler r) :
      FrameTyBy (.recipeH name handler scope channel) r r
  | poneK (i : Nat) : FrameTyBy (.poneK i) cells.state .unit
  | mitteK {t} (i : Nat) (issued : t = .cmd ∨ t = .plan) : FrameTyBy (.mitteK i) t .unit
  | perageK (r : Ty) (cadence : cells.result = .unit) : FrameTyBy .perageK .plan r
  | resolveK {name scope Γ r} (scope_ : ScopeTyBy rule prog cells scope Γ)
      (each : ∀ o ∈ overloads prog, o.1.1 = name → HasTyBy rule prog cells Γ o.2 r) :
      FrameTyBy (.resolveK name scope) .genus r
  | fixK {f scope Γ a} (scope_ : ScopeTyBy rule prog cells scope Γ) (f_ : HasTyBy rule prog cells Γ f (.fn a a)) (allowed : rule f a) :
      FrameTyBy (.fixK f scope) (.fn a a) a
  | liftK (depth : Nat) (t : Ty) : FrameTyBy (.liftK depth) t t
  | builtinPost : FrameTyBy (.builtinPost .solveDv) .num .num

inductive StackTyBy : List Frame → Ty → Prop where
  | nil (t : Ty) : StackTyBy [] t
  | cons {f rest t r} (f_ : FrameTyBy rule prog cells f t r) (rest_ : StackTyBy rest r) : StackTyBy (f :: rest) t

end Machine

section Calls
variable {rule : Expr → Ty → Prop} {prog : Program} {cells : Cells}

theorem argsLength {args : List Value} {doms rest : List Ty} (h : ArgsTyBy rule prog cells args doms rest) :
    doms.length = args.length + rest.length := by
  induction args generalizing doms with
  | nil => cases h; simp
  | cons v args ih =>
    cases h with
    | cons first others => simp only [List.length_cons,ih others]; omega

theorem argsSnoc {args : List Value} {doms rest : List Ty} {a : Ty} {v : Value}
    (h : ArgsTyBy rule prog cells args doms (a :: rest)) (last : ValTyBy rule prog cells v a) :
    ArgsTyBy rule prog cells (args ++ [v]) doms rest := by
  induction args generalizing doms with
  | nil => cases h; exact .cons last (.nil rest)
  | cons w args ih =>
    cases h with
    | cons first others => exact .cons first (ih others)

end Calls

/- A full call of the table: the value of the signature's result, or the one application it asks for. -/
inductive Called (rule : Expr → Ty → Prop) (prog : Program) (cells : Cells) (name : Sym) (args : List Value) (r : Ty) : Prop where
  | done {v} (called : Builtins.call name args = .ok (.done v)) (v_ : ValTyBy rule prog cells v r)
  | apply {f a t} (called : Builtins.call name args = .ok (.apply f a .solveDv)) (f_ : ValTyBy rule prog cells f (.fn t .num))
      (a_ : ValTyBy rule prog cells a t) (same : r = .num)

section Table
variable {rule : Expr → Ty → Prop} {prog : Program} {cells : Cells}

section Records
variable {fields : List (Sym × Value)}

theorem recordGetFound {key : Sym} {v : Value} (found : fields.lookup key = some v) :
    Builtins.recordGet (.record fields) key = .ok v := by
  simp only [Builtins.recordGet,found]

theorem callField {key : Sym} {v : Value} (found : fields.lookup key = some v) :
    (Builtins.recordGet (.record fields) key >>= fun x => pure (Builtins.BuiltinResult.done x)) = .ok (.done v) := by
  rw [recordGetFound found]; rfl

theorem callOutgassing {v : Option Value} (found : fields.lookup "outgassing" = v) :
    Builtins.call "outgassing" [.record fields] = .ok (.done (v.getD (.num 0.1))) := by
  subst found
  rw [Builtins.callRecord]
  cases found : fields.lookup "outgassing" with
  | some v => rw [recordGetFound found]; rfl
  | none =>
    have missing : Builtins.recordGet (.record fields) "outgassing" = failure (.unboundVar "outgassing") := by
      simp only [Builtins.recordGet,found]
    rw [missing]; rfl

theorem callSafe {m d g : Scalar} (mass : fields.lookup "mass" = some (.num m)) (dist : fields.lookup "dist" = some (.num d)) :
    Builtins.call "safe" [.record fields,.num g] = .ok (.done (.bool (g * m / (d * d) < Builtins.safeForce))) := by
  change (do
    let m ← Builtins.num (← Builtins.recordGet (.record fields) "mass")
    let d ← Builtins.num (← Builtins.recordGet (.record fields) "dist")
    pure (Builtins.BuiltinResult.done (.bool (g * m / (d * d) < Builtins.safeForce)))) = Except.ok _
  rw [recordGetFound mass,recordGetFound dist]; rfl

end Records

theorem corpusMade (id : UInt64) (g : Genus) (mass dist : Scalar) :
    ValTyBy rule prog cells (Builtins.makeCorpus id g mass dist) .corpus :=
  .record ⟨⟨g,by rfl⟩,⟨_,by rfl,_,rfl⟩,⟨_,by rfl,_,rfl⟩,⟨_,by rfl,_,rfl⟩,fun v found => by cases found⟩

/- The table's answer on a value read from a corpus. -/
theorem corpusShape {v : Value} (h : ValTyBy rule prog cells v .corpus) : ∃ fields, v = .record fields ∧ IsCorpus fields := by
  cases h with
  | record corpus => exact ⟨_,rfl,corpus⟩

theorem callTyped {name : Sym} {args : List Value} {doms : List Ty} {r : Ty} (sig : Signature name doms r)
    (full : ArgsTyBy rule prog cells args doms []) : Called rule prog cells name args r := by
  cases sig with
  | add | sub | mul | div =>
    obtain _ | ⟨⟨⟩,_ | ⟨⟨⟩,⟨⟩⟩⟩ := full
    exact .done rfl (.num _)
  | le | lt =>
    obtain _ | ⟨⟨⟩,_ | ⟨⟨⟩,⟨⟩⟩⟩ := full
    exact .done rfl (.bool _)
  | eq a =>
    obtain _ | ⟨_,_ | ⟨_,⟨⟩⟩⟩ := full
    exact .done rfl (.bool _)
  | not =>
    obtain _ | ⟨⟨⟩,⟨⟩⟩ := full
    exact .done rfl (.bool _)
  | dist =>
    obtain _ | ⟨shape,⟨⟩⟩ := full
    obtain ⟨fields,rfl,corpus⟩ := corpusShape shape
    obtain ⟨v,found,n,rfl⟩ := corpus.dist
    exact .done (callField found) (.num n)
  | mass =>
    obtain _ | ⟨shape,⟨⟩⟩ := full
    obtain ⟨fields,rfl,corpus⟩ := corpusShape shape
    obtain ⟨v,found,n,rfl⟩ := corpus.mass
    exact .done (callField found) (.num n)
  | genus =>
    obtain _ | ⟨shape,⟨⟩⟩ := full
    obtain ⟨fields,rfl,corpus⟩ := corpusShape shape
    obtain ⟨g,found⟩ := corpus.genus
    exact .done (callField found) (.genus g)
  | outgassing =>
    obtain _ | ⟨shape,⟨⟩⟩ := full
    obtain ⟨fields,rfl,corpus⟩ := corpusShape shape
    cases found : fields.lookup "outgassing" with
    | none => exact .done (callOutgassing found) (.num _)
    | some v =>
      obtain ⟨n,rfl⟩ := corpus.outgassing v found
      exact .done (callOutgassing found) (.num n)
  | safe =>
    obtain _ | ⟨shape,_ | ⟨⟨⟩,⟨⟩⟩⟩ := full
    obtain ⟨fields,rfl,corpus⟩ := corpusShape shape
    obtain ⟨v,foundMass,m,rfl⟩ := corpus.mass
    obtain ⟨w,foundDist,d,rfl⟩ := corpus.dist
    exact .done (callSafe foundMass foundDist) (.bool _)
  | solve a =>
    obtain _ | ⟨f_,_ | ⟨a_,⟨⟩⟩⟩ := full
    exact .apply rfl f_ a_ rfl
  | deflect =>
    obtain _ | ⟨⟨⟩,⟨⟩⟩ := full
    exact .done rfl (.field _)
  | target | dvOf | at_ =>
    obtain _ | ⟨⟨⟩,⟨⟩⟩ := full
    exact .done rfl (.num _)
  | cmd =>
    obtain _ | ⟨⟨⟩,_ | ⟨⟨⟩,_ | ⟨⟨⟩,⟨⟩⟩⟩⟩ := full
    exact .done rfl (.cmd _)
  | planOf =>
    obtain _ | ⟨⟨⟩,⟨⟩⟩ := full
    exact .done rfl (.plan _)
  | corpus named =>
    obtain _ | ⟨⟨⟩,_ | ⟨g_,_ | ⟨⟨⟩,_ | ⟨⟨⟩,⟨⟩⟩⟩⟩⟩ := full
    rcases named with rfl | rfl <;> cases g_ <;> exact .done rfl (corpusMade _ _ _ _)

/- The last argument completes the call. -/
theorem fullTyped {name : Sym} {args : List Value} {v : Value} {t r : Ty}
    (full : ¬ args.length + 1 < (Builtins.arity name).getD 0) (f_ : ValTyBy rule prog cells (.builtin name args) (.fn t r))
    (v_ : ValTyBy rule prog cells v t) : Called rule prog cells name (args ++ [v]) r := by
  cases f_ with
  | @builtin _ doms _ _ rest r sig given =>
    have count := argsLength given
    rw [signatureArity sig] at full
    cases rest with
    | nil => exact callTyped sig (argsSnoc given v_)
    | cons a rest => simp only [Option.getD_some,List.length_cons] at full count; omega

theorem entersTyped {f v : Value} {c : Control} {posts : List PostOp} {t r : Ty} (h : Enters f v c posts)
    (f_ : ValTyBy rule prog cells f (.fn t r)) (v_ : ValTyBy rule prog cells v t) :
    ∃ u, ControlTyBy rule prog cells c u ∧
      ∀ rest, StackTyBy rule prog cells rest r → StackTyBy rule prog cells (posts.map .builtinPost ++ rest) u := by
  induction h generalizing t r with
  | closure param body env v =>
    cases f_ with
    | closure scope_ body_ => exact ⟨r,.eval (.node v_ scope_) body_,fun rest h => h⟩
  | @short name args v few =>
    cases f_ with
    | @builtin _ doms _ _ rest r sig given =>
      have count := argsLength given
      rw [signatureArity sig] at few
      cases rest with
      | nil => simp only [Option.getD_some,List.length_cons,List.length_nil] at few count; omega
      | cons a rest => exact ⟨_,.value (.builtin sig (argsSnoc given v_)),fun rest h => h⟩
  | done full called =>
    cases fullTyped full f_ v_ with
    | done called' w_ =>
      rw [called] at called'
      cases called'
      exact ⟨r,.value w_,fun rest h => h⟩
    | apply called' => rw [called] at called'; cases called'
  | apply full called inner ih =>
    cases fullTyped full f_ v_ with
    | done called' => rw [called] at called'; cases called'
    | apply called' g_ a_ same =>
      rw [called] at called'
      cases called'
      subst same
      obtain ⟨u,c_,stack⟩ := ih g_ a_
      refine ⟨u,c_,fun rest h => ?_⟩
      rw [List.map_append,List.append_assoc]
      exact stack _ (.cons .builtinPost h)

theorem rejectsTyped {f v : Value} {q : Raise} {t r : Ty} (h : Rejects f v q)
    (f_ : ValTyBy rule prog cells f (.fn t r)) (v_ : ValTyBy rule prog cells v t) : False := by
  induction h generalizing t r with
  | other v closure builtin =>
    cases f_ with
    | closure => exact closure _ _ _ rfl
    | builtin => exact builtin _ _ rfl
  | call full called =>
    cases fullTyped full f_ v_ with
    | done called' => rw [called] at called'; cases called'
    | apply called' => rw [called] at called'; cases called'
  | inner full called inner ih =>
    cases fullTyped full f_ v_ with
    | done called' => rw [called] at called'; cases called'
    | apply called' g_ a_ same =>
      rw [called] at called'
      cases called'
      exact ih g_ a_

end Table

end Officium.Check
