import Mathlib.Data.List.Basic

/-! The kernel's side of `int 0x80`. Memory is what the kernel sees of its own address space: a byte
at each mapped address, a page fault elsewhere. Nothing checks the pointer of `SYS_SAY`, so what
is printed depends on the user's pages alone exactly when the string lies in them. -/
namespace Officium.Usermode

abbrev Memory := UInt64 → Option UInt8

def SYS_SAY : UInt64 := 0
def SYS_NOW : UInt64 := 1
def SYS_COMMIT : UInt64 := 2
def SYS_EXIT : UInt64 := 3

def USER_CODE : UInt64 := 0x40000000
def USER_STACK : UInt64 := 0x40003000

/- The page an address lies in. -/
def page (a : UInt64) : UInt64 := a &&& 0xfffffffffffff000

/- The two pages `ensure_mapped` lays down for ring 3. -/
def UserAccessible (a : UInt64) : Prop := page a = USER_CODE ∨ page a = USER_STACK

instance (a : UInt64) : Decidable (UserAccessible a) := inferInstanceAs (Decidable (_ ∨ _))

structure Regs where
  rax : UInt64
  rbx : UInt64
  rcx : UInt64
  rdx : UInt64
  rsi : UInt64
  rdi : UInt64
  rbp : UInt64
  r8 : UInt64
  r9 : UInt64
  r10 : UInt64
  r11 : UInt64
  r12 : UInt64
  r13 : UInt64
  r14 : UInt64
  r15 : UInt64
  deriving DecidableEq

section Utf8

/- Whether `b` may be the second byte of a sequence that `a` opens. -/
def follows (a b : UInt8) : Bool :=
  if 0xc2 ≤ a && a ≤ 0xdf then 0x80 ≤ b && b ≤ 0xbf
  else if a == 0xe0 then 0xa0 ≤ b && b ≤ 0xbf
  else if a == 0xed then 0x80 ≤ b && b ≤ 0x9f
  else if 0xe1 ≤ a && a ≤ 0xef then 0x80 ≤ b && b ≤ 0xbf
  else if a == 0xf0 then 0x90 ≤ b && b ≤ 0xbf
  else if a == 0xf4 then 0x80 ≤ b && b ≤ 0x8f
  else 0xf1 ≤ a && a ≤ 0xf3 && 0x80 ≤ b && b ≤ 0xbf

def continues (b : UInt8) : Bool := 0x80 ≤ b && b ≤ 0xbf

/- The code point of a sequence: the lead byte's payload, then six bits a byte. -/
def codePoint (lead : Nat) (tail : List UInt8) : Char :=
  .ofNat (tail.foldl (fun n b => n * 64 + b.toNat % 64) lead)

def replacement : Char := .ofNat 0xfffd

/- Each longest prefix of a sequence that goes wrong is replaced as one. -/
def lossyChars : List UInt8 → List Char
  | [] => []
  | a :: rest =>
    if a < 0x80 then .ofNat a.toNat :: lossyChars rest
    else
      match rest with
      | [] => [replacement]
      | b :: rest₂ =>
        if !follows a b then replacement :: lossyChars (b :: rest₂)
        else if a < 0xe0 then codePoint (a.toNat % 32) [b] :: lossyChars rest₂
        else
          match rest₂ with
          | [] => [replacement]
          | c :: rest₃ =>
            if !continues c then replacement :: lossyChars (c :: rest₃)
            else if a < 0xf0 then codePoint (a.toNat % 16) [b,c] :: lossyChars rest₃
            else
              match rest₃ with
              | [] => [replacement]
              | d :: rest₄ =>
                if !continues d then replacement :: lossyChars (d :: rest₄)
                else codePoint (a.toNat % 8) [b,c,d] :: lossyChars rest₄

def fromUtf8Lossy (bytes : List UInt8) : String := String.ofList (lossyChars bytes)

end Utf8

/- The bytes read before the loop of `read_user_cstr` stopped, or the address whose page is not there,
with every address touched. -/
structure Scan where
  touched : List UInt64
  bytes : Except UInt64 (List UInt8)

/- The loop from its `i`th pass on, `n` passes left. -/
def scan (mem : Memory) (ptr : UInt64) : Nat → Nat → Scan
  | _, 0 => ⟨[],.ok []⟩
  | i, n+1 =>
    let a := ptr + i.toUInt64
    match mem a with
    | none => ⟨[a],.error a⟩
    | some b =>
      if b = 0 then ⟨[a],.ok []⟩
      else
        let rest := scan mem ptr (i+1) n
        ⟨a :: rest.touched,rest.bytes.map (b :: ·)⟩

def readUserCstr (mem : Memory) (ptr : UInt64) : Scan := scan mem ptr 0 256

/- What is handed to `println!`, one form for each format string. -/
inductive Line where
  | say (line : String)
  | gravitas (target : UInt64) (dvX : Float) (at_ : UInt64)

/- How the gate is left: back to the caller, through `return_to_kernel`, or by a page fault. -/
inductive Outcome where
  | resumed (console : List Line) (regs : Regs)
  | exited
  | fault (address : UInt64)

def syscallDispatch (mem : Memory) (ticks : UInt64) (regs : Regs) : Outcome :=
  if regs.rax = SYS_SAY then
    match (readUserCstr mem regs.rdi).bytes with
    | .ok bytes => .resumed [.say (fromUtf8Lossy bytes)] { regs with rax := 0 }
    | .error a => .fault a
  else if regs.rax = SYS_NOW then .resumed [] { regs with rax := ticks * 55000 }
  else if regs.rax = SYS_COMMIT then
    .resumed [.gravitas regs.rdi (regs.rsi.toInt64.toFloat / 1000.0) regs.rdx] { regs with rax := 0 }
  else if regs.rax = SYS_EXIT then .exited
  else .resumed [] { regs with rax := 0xffffffffffffffff }

/- The addresses a syscall reads. -/
def reads (mem : Memory) (regs : Regs) : List UInt64 :=
  if regs.rax = SYS_SAY then (readUserCstr mem regs.rdi).touched else []

def AgreeOnUser (mem mem' : Memory) : Prop := ∀ a, UserAccessible a → mem a = mem' a

/- Nothing outside the user's pages is read, and nothing outside them makes a difference. -/
structure Confidential (mem : Memory) (ticks : UInt64) (regs : Regs) : Prop where
  same : ∀ mem', AgreeOnUser mem mem' → syscallDispatch mem ticks regs = syscallDispatch mem' ticks regs
  inside : ∀ a ∈ reads mem regs, UserAccessible a

/- The string that `SYS_SAY` is given, its end included, lies in the user's pages. -/
def StringInside (mem : Memory) (regs : Regs) : Prop :=
  regs.rax = SYS_SAY → ∀ i < 256, (∀ j < i, ∃ b, mem (regs.rdi + j.toUInt64) = some b ∧ b ≠ 0) →
    UserAccessible (regs.rdi + i.toUInt64)

section Scanning
variable {mem mem' : Memory} {ptr : UInt64}

/- A scan is settled by the bytes it touches. -/
theorem scanAgree {i n : Nat} (inside : ∀ a ∈ (scan mem ptr i n).touched, UserAccessible a) (agree : AgreeOnUser mem mem') :
    scan mem ptr i n = scan mem' ptr i n := by
  induction n generalizing i with
  | zero => rfl
  | succ n ih =>
    rw [scan] at inside
    rw [scan,scan]
    have here : UserAccessible (ptr + i.toUInt64) := by
      apply inside
      dsimp only
      split
      · exact List.mem_cons_self
      · split
        · exact List.mem_cons_self
        · exact List.mem_cons_self
    rw [← agree _ here]
    cases found : mem (ptr + i.toUInt64) with
    | none => rfl
    | some b =>
      simp only [found] at inside
      by_cases zero : b = 0
      · simp only [if_pos zero]
      · simp only [if_neg zero] at inside ⊢
        rw [ih (fun a mem => inside a (List.mem_cons_of_mem _ mem))]

theorem touchedNext {i n : Nat} {a : UInt64} : a ∈ (scan mem ptr i (n+1)).touched ↔
    a = ptr + i.toUInt64 ∨ (∃ b, mem (ptr + i.toUInt64) = some b ∧ b ≠ 0) ∧ a ∈ (scan mem ptr (i+1) n).touched := by
  rw [scan]
  cases mem (ptr + i.toUInt64) with
  | none => simp
  | some b =>
    by_cases zero : b = 0
    · simp [zero]
    · simp [zero]

/- The addresses touched are those from the `i`th on that no zero and no fault comes before. -/
theorem touchedIff {i n : Nat} {a : UInt64} : a ∈ (scan mem ptr i n).touched ↔
    ∃ k < n, a = ptr + (i+k).toUInt64 ∧ ∀ j < k, ∃ b, mem (ptr + (i+j).toUInt64) = some b ∧ b ≠ 0 := by
  induction n generalizing i with
  | zero => simp [scan]
  | succ n ih =>
    rw [touchedNext,ih]
    constructor
    · rintro (same | ⟨going,k,lt,same,before⟩)
      · exact ⟨0,Nat.succ_pos n,same,fun j none_ => absurd none_ (Nat.not_lt_zero j)⟩
      · refine ⟨k+1,Nat.succ_lt_succ lt,by rw [same,Nat.add_assoc,Nat.add_comm 1],fun j le => ?_⟩
        cases j with
        | zero => exact going
        | succ j =>
          have step := before j (Nat.lt_of_succ_lt_succ le)
          rwa [Nat.add_assoc,Nat.add_comm 1] at step
    · rintro ⟨k,lt,same,before⟩
      cases k with
      | zero => exact .inl same
      | succ k =>
        refine .inr ⟨before 0 (Nat.succ_pos k),k,Nat.lt_of_succ_lt_succ lt,?_,fun j less => ?_⟩
        · rw [same,Nat.add_assoc,Nat.add_comm 1]
        · have step := before (j+1) (Nat.succ_lt_succ less)
          rwa [Nat.add_assoc,Nat.add_comm 1]

end Scanning

theorem dispatchAgree {mem mem' : Memory} {ticks : UInt64} {regs : Regs} (inside : ∀ a ∈ reads mem regs, UserAccessible a)
    (agree : AgreeOnUser mem mem') : syscallDispatch mem ticks regs = syscallDispatch mem' ticks regs := by
  unfold syscallDispatch
  by_cases say : regs.rax = SYS_SAY
  · rw [reads,if_pos say] at inside
    have same : readUserCstr mem regs.rdi = readUserCstr mem' regs.rdi := scanAgree inside agree
    rw [if_pos say,if_pos say,same]
  · rw [if_neg say,if_neg say]

/- The gate keeps the kernel's memory to itself exactly when the string lies in the user's pages. -/
theorem gateConfidential (mem : Memory) (ticks : UInt64) (regs : Regs) :
    Confidential mem ticks regs ↔ StringInside mem regs := by
  constructor
  · intro confidential say i lt before
    refine confidential.inside _ ?_
    rw [reads,if_pos say,readUserCstr,touchedIff]
    exact ⟨i,lt,by rw [Nat.zero_add],fun j less => by rw [Nat.zero_add]; exact before j less⟩
  · intro string
    have inside : ∀ a ∈ reads mem regs, UserAccessible a := by
      intro a touched
      rw [reads] at touched
      split at touched
      · rename_i say
        obtain ⟨k,lt,same,before⟩ := touchedIff.mp touched
        rw [Nat.zero_add] at same
        subst same
        exact string say k lt (fun j less => by rw [← Nat.zero_add j]; exact before j less)
      · cases touched
    exact ⟨fun mem' agree => dispatchAgree inside agree,inside⟩

/- A caller that asks to hear what lies at `a`. -/
def listening (a : UInt64) : Regs := ⟨SYS_SAY,0,0,0,0,a,0,0,0,0,0,0,0,0,0⟩

/- A kernel page that holds one letter, in a memory that is zero elsewhere. -/
def secret (letter : UInt8) : Memory := fun a => some (if a = 0xffff800000000000 then letter else 0)

def heard : Outcome → Option String
  | .resumed [.say line] _ => some line
  | _ => none

/- The letter is printed. -/
theorem gateDiscloses : AgreeOnUser (secret 75) (secret 82) ∧
    heard (syscallDispatch (secret 75) 0 (listening 0xffff800000000000)) = some "K" ∧
    heard (syscallDispatch (secret 82) 0 (listening 0xffff800000000000)) = some "R" ∧
    ¬ Confidential (secret 75) 0 (listening 0xffff800000000000) := by
  refine ⟨fun a user => ?_,by decide +kernel,by decide +kernel,fun confidential => ?_⟩
  · have outside : a ≠ 0xffff800000000000 := by
      rintro rfl
      exact absurd user (by decide)
    rw [secret,secret,if_neg outside,if_neg outside]
  · exact absurd (confidential.inside 0xffff800000000000 (by decide +kernel)) (by decide)

end Officium.Usermode
