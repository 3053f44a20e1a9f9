import Mathlib.Data.List.Nodup
import Mathlib.Data.List.Flatten

/-! Programs that draw items from a dispenser, one at a time, and go on with what they got. Such a
program sees nothing of the dispenser, so what it is handed is the dispenser's own sequence from
where it stood. Nothing here depends on what the items are. -/
namespace Clients

inductive Client (ι ε α : Type) where
  | done (a : α)
  | fail (e : ε)
  | ask (next : Option ι → Client ι ε α)

variable {σ ι ε α β : Type}

namespace Client

def andThen : Client ι ε α → (α → Client ι ε β) → Client ι ε β
  | done a, f => f a
  | fail e, _ => fail e
  | ask next, f => ask (fun x => (next x).andThen f)

instance : Monad (Client ι ε) where
  pure := done
  bind := andThen

def draw : Client ι ε (Option ι) := ask done

end Client

/- What a program was handed before it returned or failed. -/
structure Served (σ ι ε α : Type) where
  handed : List ι
  result : Except ε (α × σ)

def serve (give : σ → Except ε (Option ι × σ)) : Client ι ε α → σ → Served σ ι ε α
  | .done a, s => ⟨[],.ok (a,s)⟩
  | .fail e, _ => ⟨[],.error e⟩
  | .ask next, s =>
    match give s with
    | .error e => ⟨[],.error e⟩
    | .ok (x,s') =>
      let later := serve give (next x) s'
      ⟨x.toList ++ later.handed,later.result⟩

/- The dispenser hands out one sequence in order; where the sequence has a gap it hands out nothing. -/
def Sequence (give : σ → Except ε (Option ι × σ)) (at_ : σ → Nat) (item : σ → Nat → Option ι) : Prop :=
  ∀ s x s', give s = .ok (x,s') → x = item s (at_ s) ∧ at_ s' = at_ s + 1 ∧ item s' = item s

variable {give : σ → Except ε (Option ι × σ)} {at_ : σ → Nat}

/- The stretch of the sequence between two places. -/
def stretch (item : Nat → Option ι) (i k : Nat) : List ι := (List.range' i k).filterMap item

variable {item : Nat → Option ι}

theorem stretchAppend (i k l : Nat) : stretch item i k ++ stretch item (i+k) l = stretch item i (k+l) := by
  rw [stretch,stretch,stretch,← List.filterMap_append,List.range'_append_1]

theorem stretchSucc (i k : Nat) : (item i).toList ++ stretch item (i+1) k = stretch item i (k+1) := by
  rw [stretch,stretch,List.range'_succ,List.filterMap_cons]
  cases item i <;> rfl

theorem serveStretch {item : σ → Nat → Option ι} (sequence : Sequence give at_ item) (c : Client ι ε α) (s : σ) :
    ∃ k, (serve give c s).handed = stretch (item s) (at_ s) k ∧
      ∀ a s', (serve give c s).result = .ok (a,s') → at_ s' = at_ s + k ∧ item s' = item s := by
  induction c generalizing s with
  | done a => exact ⟨0,rfl,fun b s' same => by cases same; exact ⟨rfl,rfl⟩⟩
  | fail e => exact ⟨0,rfl,fun b s' same => by cases same⟩
  | ask next ih =>
    rw [serve]
    cases given : give s with
    | error e => exact ⟨0,rfl,fun b s' same => by cases same⟩
    | ok r =>
      obtain ⟨x,s₁⟩ := r
      obtain ⟨here,on,kept⟩ := sequence s x s₁ given
      obtain ⟨k,handed,ended⟩ := ih x s₁
      refine ⟨k+1,?_,fun b s' same => ?_⟩
      · change x.toList ++ (serve give (next x) s₁).handed = _
        rw [handed,here,on,kept,stretchSucc]
      · obtain ⟨later,same'⟩ := ended b s' same
        exact ⟨by omega,same'.trans kept⟩

theorem stretchItem {i k : Nat} {x : ι} (h : x ∈ stretch item i k) : ∃ j, item j = some x := by
  obtain ⟨j,-,found⟩ := List.mem_filterMap.mp h
  exact ⟨j,found⟩

/- No item stands at two places of the sequence. -/
def Distinct (item : Nat → Option ι) : Prop := ∀ i j x, item i = some x → item j = some x → i = j

theorem stretchPlace (distinct : Distinct item) {i k j : Nat} {x : ι} (mem : x ∈ stretch item i k) (here : item j = some x) : i ≤ j ∧ j < i + k := by
  obtain ⟨l,within,found⟩ := List.mem_filterMap.mp mem
  obtain rfl := distinct l j x found here
  exact List.mem_range'_1.mp within

theorem stretchNodup (distinct : Distinct item) (i k : Nat) : (stretch item i k).Nodup :=
  (List.nodup_range' 1).filterMap (fun a b x found found' => distinct a b x found found')

theorem serveBind (c : Client ι ε α) (f : α → Client ι ε β) (s : σ) : serve give (c >>= f) s =
    match (serve give c s).result with
    | .error e => ⟨(serve give c s).handed,.error e⟩
    | .ok (a,s') => ⟨(serve give c s).handed ++ (serve give (f a) s').handed,(serve give (f a) s').result⟩ := by
  induction c generalizing s with
  | done a => rfl
  | fail e => rfl
  | ask next ih =>
    have shape : (Client.ask next >>= f) = .ask (fun x => next x >>= f) := rfl
    rw [shape,serve,serve]
    cases give s with
    | error e => rfl
    | ok r =>
      simp only [ih]
      cases (serve give (next r.1) r.2).result with
      | error e => rfl
      | ok q => simp only [List.append_assoc]

/- The results alone. -/
theorem resultBind (c : Client ι ε α) (f : α → Client ι ε β) (s : σ) : (serve give (c >>= f) s).result =
    (serve give c s).result.bind (fun x => (serve give (f x.1) x.2).result) := by
  rw [serveBind]
  cases (serve give c s).result <;> rfl

theorem resultBindOk {c : Client ι ε α} {f : α → Client ι ε β} {s : σ} {r : β × σ} : (serve give (c >>= f) s).result = .ok r ↔
    ∃ x, (serve give c s).result = .ok x ∧ (serve give (f x.1) x.2).result = .ok r := by
  rw [resultBind]
  cases (serve give c s).result with
  | error e =>
    constructor
    · intro never
      cases never
    · rintro ⟨x,never,-⟩
      cases never
  | ok x =>
    constructor
    · exact fun returned => ⟨x,rfl,returned⟩
    · rintro ⟨y,same,returned⟩
      cases same
      exact returned

theorem resultDraw (s : σ) : (serve give (Client.draw : Client ι ε (Option ι)) s).result = give s := by
  rw [Client.draw,serve]
  cases give s <;> rfl

/- Whatever the program returns is related to all that was handed out, before it and to it. -/
def Returns (give : σ → Except ε (Option ι × σ)) (given : List ι) (q : List ι → α → Prop) (c : Client ι ε α) : Prop :=
  ∀ s a s', (serve give c s).result = .ok (a,s') → q (given ++ (serve give c s).handed) a

section Returns
variable {given : List ι} {q r : List ι → α → Prop}

theorem returnsDone {a : α} (h : q given a) : Returns give given q (.done a) := by
  intro s b s' same
  cases same
  rwa [serve,List.append_nil]

theorem returnsFail (e : ε) : Returns give given q (.fail e : Client ι ε α) := fun _ _ _ same => nomatch same

theorem returnsAsk {next : Option ι → Client ι ε α} (h : ∀ x, Returns give (given ++ x.toList) q (next x)) :
    Returns give given q (.ask next) := by
  intro s a s' returned
  rw [serve] at returned ⊢
  cases drawn : give s with
  | error e =>
    rw [drawn] at returned
    cases returned
  | ok x =>
    rw [drawn] at returned
    have later := h x.1 x.2 a s' returned
    rwa [List.append_assoc] at later

theorem returnsWeaken {c : Client ι ε α} (h : Returns give given q c) (weaker : ∀ handed a, q handed a → r handed a) : Returns give given r c :=
  fun s a s' returned => weaker _ _ (h s a s' returned)

theorem returnsBind {c : Client ι ε α} {f : α → Client ι ε β} {p : List ι → β → Prop}
    (h : Returns give given (fun handed a => Returns give handed p (f a)) c) : Returns give given p (c >>= f) := by
  intro s b s' returned
  rw [serveBind] at returned ⊢
  cases first : (serve give c s).result with
  | error e =>
    rw [first] at returned
    cases returned
  | ok x =>
    obtain ⟨a,s₁⟩ := x
    rw [first] at returned
    have later := h s a s₁ first s₁ b s' returned
    rwa [List.append_assoc] at later

theorem returnsDraw {next : Option ι → Client ι ε α} (h : ∀ x, Returns give (given ++ x.toList) q (next x)) :
    Returns give given q (Client.draw >>= next) := returnsBind (returnsAsk fun x => returnsDone (h x))

end Returns

end Clients
