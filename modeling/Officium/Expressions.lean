import Officium.Reading

/-! Expressions and the tokens they are written as. A text is of the loosest construct it is not put in
parentheses for; what the parser does behind it turns on the next token alone, so each level is read
up to its loop, and the loop goes on or stops by that token. -/
namespace Officium.Parser
open Bounded
open Lexer (Tok)

/- A word that stands for itself where an operand does. -/
structure Variable where
  name : Sym
  statement : statementWord name = false
  plain : atomWord name = false

inductive Operator where | add | sub | mul | div

namespace Operator

def name : Operator → Sym
  | add => "add"
  | sub => "sub"
  | mul => "mul"
  | div => "div"

def token : Operator → Tok
  | add => .plus
  | sub => .minus
  | mul => .star
  | div => .slash

/- Binds tighter than a sum. -/
def tight : Operator → Bool
  | mul | div => true
  | add | sub => false

end Operator

inductive SurfaceExpr where
  | var (x : Variable)
  | num (x : Scalar)
  | str (s : String)
  | bool (b : Bool)
  | arg
  | lege
  | ask (name : NameArg)
  | resolve (name : NameArg) (genus : SurfaceExpr)
  | pure (e : SurfaceExpr)
  | leva (e : SurfaceExpr)
  | pone (e : SurfaceExpr)
  | app (f a : SurfaceExpr)
  | lam (param : Sym) (body : SurfaceExpr)
  | op (o : Operator) (a b : SurfaceExpr)

namespace SurfaceExpr

def tree : SurfaceExpr → Expr
  | var x => .var x.name
  | num x => .lit (.num x)
  | str s => .lit (.str s)
  | bool b => .lit (.bool b)
  | arg => .arg
  | lege => .lege
  | ask name => .ask name.text
  | resolve name genus => .resolve name.text genus.tree
  | pure e => .pure .dorian e.tree
  | leva e => .lift e.tree
  | pone e => .pone e.tree
  | app f a => .app f.tree a.tree
  | lam param body => .lam param body.tree
  | op o a b => call2 o.name a.tree b.tree

/- Not compound: without an operand. -/
def simple : SurfaceExpr → Bool
  | var _ | num _ | str _ | bool _ | arg | lege | ask _ => true
  | _ => false

def isApp : SurfaceExpr → Bool
  | app _ _ => true
  | _ => false

def isProduct : SurfaceExpr → Bool
  | op o _ _ => o.tight
  | _ => false

def isSum : SurfaceExpr → Bool
  | op o _ _ => !o.tight
  | _ => false

/- The operands that stay without parentheses to the left and to the right of an operator. -/
def bareLeft (o : Operator) (a : SurfaceExpr) : Bool := a.simple || a.isProduct || (!o.tight && a.isSum)

def bareRight (o : Operator) (b : SurfaceExpr) : Bool := b.simple || (!o.tight && b.isProduct)

def bareHead (f : SurfaceExpr) : Bool := f.simple || f.isApp

end SurfaceExpr

def truthWord (b : Bool) : String := if b then "verum" else "falsum"

def wrap (bare : Bool) (ts : List Tok) : List Tok := if bare then ts else .lparen :: (ts ++ [.rparen])

/- The levels of nesting that parentheses add to what they are put around. -/
def wrapped (bare : Bool) (d : Nat) : Nat := if bare then d else d+1

namespace SurfaceExpr

/- The canonical text: every compound operand in parentheses, but for the left operand of a chain and a product in a sum. -/
def text : SurfaceExpr → List Tok
  | var x => [.ident x.name]
  | num x => [.num x]
  | str s => [.str s]
  | bool b => [.ident (truthWord b)]
  | arg => [.ident "arg"]
  | lege => [.ident "lege"]
  | ask name => [.ident "ask",name.token]
  | resolve name genus => .ident "resolve" :: name.token :: wrap genus.simple genus.text
  | pure e => .ident "pure" :: wrap e.simple e.text
  | leva e => .ident "leva" :: wrap e.simple e.text
  | pone e => .ident "pone" :: wrap e.simple e.text
  | app f a => wrap f.bareHead f.text ++ wrap a.simple a.text
  | lam param body => .lambda :: .ident param :: .arrow :: body.text
  | op o a b => wrap (bareLeft o a) a.text ++ o.token :: wrap (bareRight o b) b.text

/- Subtractions chain to the left, a product needs no parentheses in them and a sum does. -/
example : (op .sub (op .sub arg (op .mul lege arg)) (op .add arg lege)).text =
    [.ident "arg",.minus,.ident "lege",.star,.ident "arg",.minus,.lparen,.ident "arg",.plus,.ident "lege",.rparen] := rfl

/- How deep parentheses and λ nest in the canonical text. -/
def nesting : SurfaceExpr → Nat
  | resolve _ e | pure e | leva e | pone e => wrapped e.simple e.nesting
  | app f a => max (wrapped f.bareHead f.nesting) (wrapped a.simple a.nesting)
  | lam _ body => body.nesting + 1
  | op o a b => max (wrapped (bareLeft o a) a.nesting) (wrapped (bareRight o b) b.nesting)
  | _ => 0

end SurfaceExpr

inductive Level where | atom | application | product | sum | full

/- The texts of an expression at a level, `d` deep in parentheses and λ at most. Parentheses may also stand where
none are needed, and an operand word may go on with one that needs none. -/
inductive Writes : Level → Nat → SurfaceExpr → List Tok → Prop where
  | var (d x) : Writes .atom d (.var x) [.ident x.name]
  | num (d x) : Writes .atom d (.num x) [.num x]
  | str (d s) : Writes .atom d (.str s) [.str s]
  | bool (d b) : Writes .atom d (.bool b) [.ident (truthWord b)]
  | arg (d) : Writes .atom d .arg [.ident "arg"]
  | lege (d) : Writes .atom d .lege [.ident "lege"]
  | ask (d name) : Writes .atom d (.ask name) [.ident "ask",name.token]
  | resolve {d e ts} (name) (h : Writes .atom d e ts) : Writes .atom d (.resolve name e) (.ident "resolve" :: name.token :: ts)
  | pure {d e ts} (h : Writes .atom d e ts) : Writes .atom d (.pure e) (.ident "pure" :: ts)
  | leva {d e ts} (h : Writes .atom d e ts) : Writes .atom d (.leva e) (.ident "leva" :: ts)
  | paren {d e ts} (h : Writes .full d e ts) : Writes .atom (d+1) e (.lparen :: (ts ++ [.rparen]))
  | head {d e ts} (h : Writes .atom d e ts) : Writes .application d e ts
  -- no application goes on with `pone`
  | pone {d e ts} (h : Writes .atom d e ts) : Writes .application d (.pone e) (.ident "pone" :: ts)
  | app {d f a ts us} (f_ : Writes .application d f ts) (a_ : Writes .atom d a us) : Writes .application d (.app f a) (ts ++ us)
  | factor {d e ts} (h : Writes .application d e ts) : Writes .product d e ts
  | product {d o a b ts us} (tight : o.tight = true) (a_ : Writes .product d a ts) (b_ : Writes .application d b us) :
      Writes .product d (.op o a b) (ts ++ o.token :: us)
  | term {d e ts} (h : Writes .product d e ts) : Writes .sum d e ts
  | sum {d o a b ts us} (loose : o.tight = false) (a_ : Writes .sum d a ts) (b_ : Writes .product d b us) :
      Writes .sum d (.op o a b) (ts ++ o.token :: us)
  | whole {d e ts} (h : Writes .sum d e ts) : Writes .full d e ts
  | lam {d e ts} (param) (h : Writes .full d e ts) : Writes .full (d+1) (.lam param e) (.lambda :: .ident param :: .arrow :: ts)

/- The level a text without parentheses around it is of. -/
def SurfaceExpr.level : SurfaceExpr → Level
  | app _ _ | pone _ => .application
  | op o _ _ => if o.tight then .product else .sum
  | lam _ _ => .full
  | _ => .atom

section Texts
variable {level : Level} {d k : Nat} {e : SurfaceExpr} {ts : List Tok}

theorem writesDeeper (h : Writes level d e ts) (le : d ≤ k) : Writes level k e ts := by
  induction h generalizing k with
  | var d x => exact .var k x
  | num d x => exact .num k x
  | str d s => exact .str k s
  | bool d b => exact .bool k b
  | arg d => exact .arg k
  | lege d => exact .lege k
  | ask d name => exact .ask k name
  | resolve name _ ih => exact .resolve name (ih le)
  | pure _ ih => exact .pure (ih le)
  | leva _ ih => exact .leva (ih le)
  | paren _ ih =>
    cases k with
    | zero => cases le
    | succ k => exact .paren (ih (Nat.le_of_succ_le_succ le))
  | head _ ih => exact .head (ih le)
  | pone _ ih => exact .pone (ih le)
  | app _ _ ihf iha => exact .app (ihf le) (iha le)
  | factor _ ih => exact .factor (ih le)
  | product tight _ _ iha ihb => exact .product tight (iha le) (ihb le)
  | term _ ih => exact .term (ih le)
  | sum loose _ _ iha ihb => exact .sum loose (iha le) (ihb le)
  | whole _ ih => exact .whole (ih le)
  | lam param _ ih =>
    cases k with
    | zero => cases le
    | succ k => exact .lam param (ih (Nat.le_of_succ_le_succ le))

theorem writesFull (h : Writes level d e ts) : Writes .full d e ts := by
  cases level with
  | atom => exact .whole (.term (.factor (.head h)))
  | application => exact .whole (.term (.factor h))
  | product => exact .whole (.term h)
  | sum => exact .whole h
  | full => exact h

theorem wrapOperand (h : Writes e.level d e ts) : Writes .atom (wrapped e.simple d) e (wrap e.simple ts) := by
  cases simple : e.simple with
  | true => cases e <;> first | exact h | cases simple
  | false => exact .paren (writesFull h)

theorem wrapHead (h : Writes e.level d e ts) : Writes .application (wrapped e.bareHead d) e (wrap e.bareHead ts) := by
  cases bare : e.bareHead with
  | true => cases e <;> first | exact h | exact .head h | cases bare
  | false => exact .head (.paren (writesFull h))

theorem wrapFactor (h : Writes e.level d e ts) : Writes .product (wrapped (e.simple || e.isProduct) d) e (wrap (e.simple || e.isProduct) ts) := by
  cases bare : e.simple || e.isProduct with
  | true =>
    cases e with
    | op o a b =>
      have tight : o.tight = true := bare
      rw [SurfaceExpr.level,if_pos tight] at h
      exact h
    | _ => first | exact .factor (.head h) | cases bare
  | false => exact .factor (.head (.paren (writesFull h)))

theorem wrapTerm (h : Writes e.level d e ts) : Writes .sum (wrapped (e.simple || e.isProduct || e.isSum) d) e
    (wrap (e.simple || e.isProduct || e.isSum) ts) := by
  cases bare : e.simple || e.isProduct || e.isSum with
  | true =>
    cases e with
    | op o a b =>
      rw [SurfaceExpr.level] at h
      cases tight : o.tight with
      | true => rw [if_pos tight] at h; exact .term h
      | false => rw [tight] at h; exact h
    | _ => first | exact .term (.factor (.head h)) | cases bare
  | false => exact .term (.factor (.head (.paren (writesFull h))))

theorem writesText (e : SurfaceExpr) : Writes e.level e.nesting e e.text := by
  induction e with
  | var x => exact .var 0 x
  | num x => exact .num 0 x
  | str s => exact .str 0 s
  | bool b => exact .bool 0 b
  | arg => exact .arg 0
  | lege => exact .lege 0
  | ask name => exact .ask 0 name
  | resolve name _ ih => exact .resolve name (wrapOperand ih)
  | pure _ ih => exact .pure (wrapOperand ih)
  | leva _ ih => exact .leva (wrapOperand ih)
  | pone _ ih => exact .pone (wrapOperand ih)
  | app f a ihf iha =>
    exact .app (writesDeeper (wrapHead ihf) (Nat.le_max_left _ _)) (writesDeeper (wrapOperand iha) (Nat.le_max_right _ _))
  | lam param _ ih => exact .lam param (writesFull ih)
  | op o a b iha ihb =>
    have left {level : Level} (h : Writes level (wrapped (SurfaceExpr.bareLeft o a) a.nesting) a (wrap (SurfaceExpr.bareLeft o a) a.text)) :
        Writes level (SurfaceExpr.op o a b).nesting a (wrap (SurfaceExpr.bareLeft o a) a.text) := writesDeeper h (Nat.le_max_left _ _)
    have right {level : Level} (h : Writes level (wrapped (SurfaceExpr.bareRight o b) b.nesting) b (wrap (SurfaceExpr.bareRight o b) b.text)) :
        Writes level (SurfaceExpr.op o a b).nesting b (wrap (SurfaceExpr.bareRight o b) b.text) := writesDeeper h (Nat.le_max_right _ _)
    rw [SurfaceExpr.level,SurfaceExpr.text]
    cases tight : o.tight with
    | true =>
      have bare : SurfaceExpr.bareLeft o a = (a.simple || a.isProduct) := by simp [SurfaceExpr.bareLeft,tight]
      have bare' : SurfaceExpr.bareRight o b = b.simple := by simp [SurfaceExpr.bareRight,tight]
      exact .product tight (left (by rw [bare]; exact wrapFactor iha)) (right (by rw [bare']; exact .head (wrapOperand ihb)))
    | false =>
      have bare : SurfaceExpr.bareLeft o a = (a.simple || a.isProduct || a.isSum) := by simp [SurfaceExpr.bareLeft,tight]
      have bare' : SurfaceExpr.bareRight o b = (b.simple || b.isProduct) := by simp [SurfaceExpr.bareRight,tight]
      exact .sum tight (left (by rw [bare]; exact wrapTerm iha)) (right (by rw [bare']; exact wrapFactor ihb))

end Texts

section Levels
variable {p : Parser} {t : Tok} {ts us rest : List Tok} {d : Nat} {e f a : Expr}

def endsApplication (t : Tok) : Bool := !opensAtom t

def endsProduct (t : Tok) : Bool := endsApplication t && (multiplicativeOp (some t)).isNone

theorem followedWeaken {test test' : Tok → Bool} (h : Followed test p) (imp : ∀ t, test t = true → test' t = true) : Followed test' p := by
  obtain ⟨t,rest,here,good,plain⟩ := h
  exact ⟨t,rest,here,imp t good,plain⟩

theorem followedToken {test : Tok → Bool} (h : ahead p = t :: rest) (plain : t.isNewline = false) (good : test t = true) :
    Followed test p := ⟨t,rest,h,good,.inl plain⟩

/- A level read up to its loop: what the loop makes of the expression behind these tokens the level makes of them. -/
def Chain (whole : Nat → ParseM Expr) (loop : Nat → Expr → ParseM Expr) (test : Tok → Bool) (d : Nat) (ts : List Tok) (e : Expr) : Prop :=
  ∀ p rest, p.exprDepth + d ≤ maxExprDepth → ahead p = ts ++ rest → Followed test (skip p ts.length) →
    ∀ r q, Yields (fun n => loop n e) (skip p ts.length) r q → Yields whole p r q

/- What a text of each level is read as. -/
def ReadAs : Level → Nat → List Tok → Expr → Prop
  | .atom => Atom
  | .application => Chain application applicationLoop (fun _ => true)
  | .product => Chain multiplicative multiplicativeLoop endsApplication
  | .sum => Chain additive additiveLoop endsProduct
  | .full => fun d => Term (d+1)

theorem applicationEnds (over_ : Followed endsApplication p) : Yields (fun n => applicationLoop n e) p e p := by
  obtain ⟨t,peeked,good⟩ := followedPeek over_
  have stops := startsAtomPeek peeked
  rw [show opensAtom t = false by simpa [endsApplication] using good] at stops
  exact yieldsNext (fun n => applicationLoop.eq_2 e n) (yieldsPast stops yieldsPure)

theorem productEnds (over_ : Followed endsProduct p) : Yields (fun n => multiplicativeLoop n e) p e p := by
  obtain ⟨t,peeked,good⟩ := followedPeek over_
  have none_ : multiplicativeOp (some t) = none := by simp only [endsProduct,Bool.and_eq_true,Option.isNone_iff_eq_none] at good; exact good.2
  refine yieldsNext (fun n => multiplicativeLoop.eq_2 e n) (yieldsPast peeked ?_)
  rw [none_]
  exact yieldsPure

theorem sumEnds (over_ : Followed closes p) : Yields (fun n => additiveLoop n e) p e p := by
  obtain ⟨t,peeked,good⟩ := followedPeek over_
  have none_ : additiveOp (some t) = none := by simp only [closes,Bool.and_eq_true,Option.isNone_iff_eq_none] at good; exact good.1.2
  refine yieldsNext (fun n => additiveLoop.eq_2 e n) (yieldsPast peeked ?_)
  rw [none_]
  exact yieldsPure

theorem readHead (h : Atom d ts e) : Chain application applicationLoop (fun _ => true) d ts e :=
  fun p rest room here _ _ _ goesOn => yieldsNext (fun n => application.eq_2 n) (yieldsThen (h.reads p rest room here) goesOn)

/- An application goes on with an atom. -/
theorem readApp (f_ : Chain application applicationLoop (fun _ => true) d ts f) (a_ : Atom d us a) :
    Chain application applicationLoop (fun _ => true) d (ts ++ us) (.app f a) := by
  intro p rest room here over_ r q goesOn
  rw [List.append_assoc] at here
  rw [List.length_append,← skipSkip] at goesOn
  have next := aheadPast here
  obtain ⟨t,us',same,opens⟩ := a_.opens
  have first : ahead (skip p ts.length) = t :: (us' ++ rest) := by rw [next,same]; rfl
  have starts := startsAtomPeek (peekAhead first (opensPlain opens))
  rw [opens] at starts
  refine f_ p _ room here (followedToken first (opensPlain opens) rfl) r q ?_
  exact yieldsNext (fun n => applicationLoop.eq_2 f n) (yieldsPast starts (yieldsThen (a_.reads (skip p ts.length) rest room next) goesOn))

theorem applicationReads (h : Chain application applicationLoop (fun _ => true) d ts e) (room : p.exprDepth + d ≤ maxExprDepth)
    (here : ahead p = ts ++ rest) (over_ : Followed endsApplication (skip p ts.length)) : Yields application p e (skip p ts.length) :=
  h p rest room here (followedWeaken over_ (fun _ _ => rfl)) _ _ (applicationEnds over_)

theorem readFactor (h : Chain application applicationLoop (fun _ => true) d ts e) :
    Chain multiplicative multiplicativeLoop endsApplication d ts e :=
  fun _ _ room here over_ _ _ goesOn => yieldsNext (fun n => multiplicative.eq_2 n) (yieldsThen (applicationReads h room here over_) goesOn)

theorem endsProductApplication (t : Tok) (h : endsProduct t = true) : endsApplication t = true := by
  simp only [endsProduct,Bool.and_eq_true] at h
  exact h.1

theorem productReads (h : Chain multiplicative multiplicativeLoop endsApplication d ts e) (room : p.exprDepth + d ≤ maxExprDepth)
    (here : ahead p = ts ++ rest) (over_ : Followed endsProduct (skip p ts.length)) : Yields multiplicative p e (skip p ts.length) :=
  h p rest room here (followedWeaken over_ endsProductApplication) _ _ (productEnds over_)

theorem readTerm (h : Chain multiplicative multiplicativeLoop endsApplication d ts e) : Chain additive additiveLoop endsProduct d ts e :=
  fun _ _ room here over_ _ _ goesOn => yieldsNext (fun n => additive.eq_2 n) (yieldsThen (productReads h room here over_) goesOn)

/- A chain goes on with an operator of its level and an operand of the level below. -/
theorem chainNext {whole sub : Nat → ParseM Expr} {loop : Nat → Expr → ParseM Expr} {test test' : Tok → Bool} {names : Option Tok → Option Sym}
    (shape : ∀ n lhs, loop (n+1) lhs = do
      match names (← peek) with
      | none => pure lhs
      | some op =>
        advance
        let rhs ← sub n
        loop n (call2 op lhs rhs))
    {o : Operator} {b : Expr} (means : names (some o.token) = some o.name) (ends : test o.token = true) (a_ : Chain whole loop test d ts a)
    (b_ : ∀ p rest, p.exprDepth + d ≤ maxExprDepth → ahead p = us ++ rest → Followed test' (skip p us.length) →
      Yields sub p b (skip p us.length)) (weaker : ∀ t, test t = true → test' t = true) :
    Chain whole loop test d (ts ++ o.token :: us) (call2 o.name a b) := by
  intro p rest room here over_ r q goesOn
  have split : ts ++ o.token :: us ++ rest = ts ++ (o.token :: (us ++ rest)) := by rw [List.append_assoc]; rfl
  have size : skip p (ts ++ o.token :: us).length = skip (skip (skip p ts.length) 1) us.length := by
    simp only [skipSkip,List.length_append,List.length_cons]
    congr 1
    omega
  rw [split] at here
  rw [size] at goesOn over_
  have operator := aheadPast here
  have plain : o.token.isNewline = false := by cases o <;> rfl
  refine a_ p _ room here (followedToken operator plain ends) r q ?_
  refine yieldsNext (fun n => shape n a) (yieldsPast (peekAhead operator plain) ?_)
  rw [means]
  have operand := b_ (skip (skip p ts.length) 1) rest room (aheadNext operator) (followedWeaken over_ weaker)
  exact yieldsPast advanceSkips (yieldsThen operand goesOn)

theorem readProduct {o : Operator} {b : Expr} (tight : o.tight = true) (a_ : Chain multiplicative multiplicativeLoop endsApplication d ts a)
    (b_ : Chain application applicationLoop (fun _ => true) d us b) :
    Chain multiplicative multiplicativeLoop endsApplication d (ts ++ o.token :: us) (call2 o.name a b) := by
  obtain ⟨ends,means⟩ : endsApplication o.token = true ∧ multiplicativeOp (some o.token) = some o.name := by
    cases o <;> first | exact ⟨rfl,rfl⟩ | cases tight
  exact chainNext (fun n lhs => multiplicativeLoop.eq_2 lhs n) means ends a_ (fun _ _ room here over_ => applicationReads b_ room here over_)
    (fun _ good => good)

theorem readSum {o : Operator} {b : Expr} (loose : o.tight = false) (a_ : Chain additive additiveLoop endsProduct d ts a)
    (b_ : Chain multiplicative multiplicativeLoop endsApplication d us b) :
    Chain additive additiveLoop endsProduct d (ts ++ o.token :: us) (call2 o.name a b) := by
  obtain ⟨ends,means⟩ : endsProduct o.token = true ∧ additiveOp (some o.token) = some o.name := by
    cases o <;> first | exact ⟨rfl,rfl⟩ | cases loose
  exact chainNext (fun n lhs => additiveLoop.eq_2 lhs n) means ends a_ (fun _ _ room here over_ => productReads b_ room here over_)
    (fun _ good => good)

theorem closesProduct (t : Tok) (h : closes t = true) : endsProduct t = true := by
  simp only [closes,Bool.and_eq_true] at h
  simp only [endsProduct,endsApplication,Bool.and_eq_true]
  exact ⟨h.1.1,h.2⟩

theorem readWhole (h : Chain additive additiveLoop endsProduct d ts e) : Term (d+1) ts e := by
  intro p rest room here halts
  let q : Parser := { p with exprDepth := p.exprDepth + 1 }
  have over_ : Followed closes (skip q ts.length) := halts
  have fits : q.exprDepth + d ≤ maxExprDepth := by change p.exprDepth + 1 + d ≤ _; omega
  have inner : Yields additive q e (skip q ts.length) := h q rest fits here (followedWeaken over_ closesProduct) _ _ (sumEnds over_)
  refine yieldsNext (fun n => expr.eq_2 n) (yieldsExpr ?_ yieldsPure)
  have shallow : ¬ maxExprDepth < q.exprDepth := by omega
  have stated : Returns (Comp.state : ParseM Parser) q q q := rfl
  exact yieldsPast stated (yieldsIs (fun n => (if_neg shallow).symm) inner)

theorem readBool (b : Bool) : Atom d [.ident (truthWord b)] (.lit (.bool b)) := by
  cases b <;> exact atomPast rfl (fun _ _ _ _ peeked _ => yieldsNext (fun n => atom.eq_2 n) (yieldsPast peeked (yieldsPast advanceSkips yieldsPure)))

theorem readLege : Atom d [.ident "lege"] .lege :=
  atomPast rfl (fun _ _ _ _ peeked _ => yieldsNext (fun n => atom.eq_2 n) (yieldsPast peeked (yieldsPast advanceSkips yieldsPure)))

theorem readLeva (h : Atom d ts e) : Atom d (.ident "leva" :: ts) (.lift e) :=
  atomPast rfl (fun _ rest room _ peeked next => yieldsNext (fun n => atom.eq_2 n)
    (yieldsPast peeked (yieldsPast advanceSkips (yieldsThen (h.reads _ rest room next) yieldsPure))))

/- At the head of an application a `pone` is an atom like any other. -/
theorem readPone (h : Atom d ts e) : Chain application applicationLoop (fun _ => true) d (.ident "pone" :: ts) (.pone e) := by
  intro p rest room here over_ r q goesOn
  have next := aheadNext here
  have atom_ : Yields atom p (.pone e) (skip (skip p 1) ts.length) := yieldsNext (fun n => atom.eq_2 n)
    (yieldsPast (peekAhead here rfl) (yieldsPast advanceSkips (yieldsThen (h.reads _ rest room next) yieldsPure)))
  rw [skipSkip,Nat.add_comm] at atom_
  exact yieldsNext (fun n => application.eq_2 n) (yieldsThen atom_ goesOn)

end Levels

theorem writesRead {level : Level} {d : Nat} {e : SurfaceExpr} {ts : List Tok} (h : Writes level d e ts) : ReadAs level d ts e.tree := by
  induction h with
  | var d x => exact atomVar x.statement x.plain
  | num d x => exact atomNum x
  | str d s => exact atomStr s
  | bool d b => exact readBool b
  | arg d => exact atomArg
  | lege d => exact readLege
  | ask d name => exact atomAsk name
  | resolve name _ ih => exact atomResolve name ih
  | pure _ ih => exact atomPure ih
  | leva _ ih => exact readLeva ih
  | paren _ ih => exact atomParen ih
  | head _ ih => exact readHead ih
  | pone _ ih => exact readPone ih
  | app _ _ ihf iha => exact readApp ihf iha
  | factor _ ih => exact readFactor ih
  | product tight _ _ iha ihb => exact readProduct tight iha ihb
  | term _ ih => exact readTerm ih
  | sum loose _ _ iha ihb => exact readSum loose iha ihb
  | whole _ ih => exact readWhole ih
  | lam param _ ih => exact termLambda ih

/- Where `d` levels fit, the expression is read off exactly these tokens if they are followed by a newline outside
parentheses or by a token that goes on with no expression. -/
def ReadsBack (d : Nat) (ts : List Tok) (e : Expr) : Prop :=
  ∀ p rest, p.exprDepth + d ≤ 95 → ahead p = ts ++ rest → Halts (skip p ts.length) → Yields expr p e (skip p ts.length)

/- The canonical text, and every other one with parentheses where they may also stand. -/
theorem canonicalReads (e : SurfaceExpr) :
    ReadsBack e.nesting e.text e.tree ∧ ∀ d ts, Writes .full d e ts → ReadsBack d ts e.tree := by
  have every (d : Nat) (ts : List Tok) (h : Writes .full d e ts) : ReadsBack d ts e.tree := by
    intro p rest room here halts
    have term : Term (d+1) ts e.tree := writesRead h
    exact term p rest (by change p.exprDepth + (d+1) ≤ 96; omega) here halts
  exact ⟨every _ _ (writesFull (writesText e)),every⟩

end Officium.Parser
