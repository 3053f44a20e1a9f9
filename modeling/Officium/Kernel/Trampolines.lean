import Mathlib.Logic.Relation
import Officium.Kernel.Usermode
import Officium.Library.Stacks

/-! The trampolines between the rings. `enter_user` leaves the kernel's context on its stack and drops to ring 3, every
`int 0x80` spills the caller's registers for the dispatcher and restores them, and `SYS_EXIT` takes the kernel's context
up again. Whatever ring 3 does in between, the two sides never see each other's registers change. -/
namespace Officium.Trampolines
open Usermode (Regs UserAccessible)
open Stacks (Stacked stackedNil stackedCons stackedPush stackedAppend stackedJoin stackedSame addressZero addressSucc)

inductive Reg where
  | rax | rbx | rcx | rdx | rsi | rdi | rbp | rsp | r8 | r9 | r10 | r11 | r12 | r13 | r14 | r15
  deriving DecidableEq

/- Memory is what the stacks are made of: the word at each address that is a multiple of eight. -/
structure Cpu where
  reg : Reg → UInt64
  rip : UInt64
  cs : UInt64
  ss : UInt64
  rflags : UInt64
  mem : UInt64 → UInt64

/- Where the linker and the descriptor tables have put things; RSP0 is aligned down to 16. -/
structure Layout where
  kernelRsp : UInt64
  rsp0 : UInt64
  kernelCode : UInt64
  syscallEntry : UInt64
  slotAligned : kernelRsp % 8 = 0
  wordAligned : rsp0 % 8 = 0
  stackAligned : rsp0 &&& 0xfffffffffffffff0 = rsp0

inductive Instr where
  | push (r : Reg)
  | pushImm (v : UInt64)
  | pop (r : Reg)
  | mov (dst src : Reg)
  | saveRsp
  | loadRsp
  | iretq
  | ret
  deriving DecidableEq

namespace Cpu

def set (c : Cpu) (r : Reg) (v : UInt64) : Cpu := { c with reg := Function.update c.reg r v }

/- An access that is not to a whole word is outside of the model. -/
def load (c : Cpu) (a : UInt64) : Option UInt64 := if a % 8 = 0 then some (c.mem a) else none

def store (c : Cpu) (a v : UInt64) : Option Cpu := if a % 8 = 0 then some { c with mem := Function.update c.mem a v } else none

def push (c : Cpu) (v : UInt64) : Option Cpu := do
  let c ← c.store (c.reg .rsp - 8) v
  some (c.set .rsp (c.reg .rsp - 8))

def pop (c : Cpu) : Option (UInt64 × Cpu) := do
  let v ← c.load (c.reg .rsp)
  some (v,c.set .rsp (c.reg .rsp + 8))

def leave (c : Cpu) (rip cs rflags rsp ss : UInt64) : Cpu := ⟨(c.set .rsp rsp).reg,rip,cs,ss,rflags,c.mem⟩

/- RIP, CS, RFLAGS, RSP and SS, from the lowest word up. -/
def iretq (c : Cpu) : Option Cpu := do
  let rip ← c.load (c.reg .rsp)
  let cs ← c.load (c.reg .rsp + 8)
  let rflags ← c.load (c.reg .rsp + 8 + 8)
  let rsp ← c.load (c.reg .rsp + 8 + 8 + 8)
  let ss ← c.load (c.reg .rsp + 8 + 8 + 8 + 8)
  some (c.leave rip cs rflags rsp ss)

end Cpu

def exec (L : Layout) (c : Cpu) : Instr → Option Cpu
  | .push r => c.push (c.reg r)
  | .pushImm v => c.push v
  | .pop r => do
    let (v,c) ← c.pop
    some (c.set r v)
  | .mov dst src => some (c.set dst (c.reg src))
  | .saveRsp => c.store L.kernelRsp (c.reg .rsp)
  | .loadRsp => do
    let v ← c.load L.kernelRsp
    some (c.set .rsp v)
  | .iretq => c.iretq
  | .ret => do
    let (v,c) ← c.pop
    some { c with rip := v }

def run (L : Layout) (c : Cpu) (code : List Instr) : Option Cpu := code.foldlM (exec L) c

/- The registers of `syscall_entry`, in the order they are pushed. -/
def spilled : List Reg := [.r15,.r14,.r13,.r12,.r11,.r10,.r9,.r8,.rbp,.rdi,.rsi,.rdx,.rcx,.rbx,.rax]

/- `syscall_entry` up to the call of the dispatcher, and from its return on. -/
def syscallSpill : List Instr :=
  [.push .r15,.push .r14,.push .r13,.push .r12,.push .r11,.push .r10,.push .r9,.push .r8,.push .rbp,.push .rdi,.push .rsi,.push .rdx,
    .push .rcx,.push .rbx,.push .rax,.mov .rdi .rsp]

def syscallRestore : List Instr :=
  [.pop .rax,.pop .rbx,.pop .rcx,.pop .rdx,.pop .rsi,.pop .rdi,.pop .rbp,.pop .r8,.pop .r9,.pop .r10,.pop .r11,.pop .r12,.pop .r13,
    .pop .r14,.pop .r15,.iretq]

def enterUser : List Instr :=
  [.push .rbp,.push .rbx,.push .r12,.push .r13,.push .r14,.push .r15,.saveRsp,.push .rcx,.push .rsi,.pushImm 0x202,.push .rdx,.push .rdi,
    .iretq]

def returnToKernel : List Instr := [.loadRsp,.pop .r15,.pop .r14,.pop .r13,.pop .r12,.pop .rbx,.pop .rbp,.ret]

/- `int 0x80` from ring 3: the CPU changes to the stack in the TSS, leaves the caller's context on it and masks interrupts. -/
def trap (L : Layout) (c : Cpu) : Option Cpu := do
  let c' ← (c.set .rsp (L.rsp0 &&& 0xfffffffffffffff0)).push c.ss
  let c' ← c'.push (c.reg .rsp)
  let c' ← c'.push c.rflags
  let c' ← c'.push c.cs
  let c' ← c'.push c.rip
  some { c' with rip := L.syscallEntry, cs := L.kernelCode, ss := 0, rflags := c.rflags &&& 0xfffffffffffebcff }

/- What the dispatcher finds behind its argument, in the order of the fields of `Regs`. -/
def words (r : Regs) : List UInt64 := [r.rax,r.rbx,r.rcx,r.rdx,r.rsi,r.rdi,r.rbp,r.r8,r.r9,r.r10,r.r11,r.r12,r.r13,r.r14,r.r15]

def Cpu.regs (c : Cpu) : Regs :=
  ⟨c.reg .rax,c.reg .rbx,c.reg .rcx,c.reg .rdx,c.reg .rsi,c.reg .rdi,c.reg .rbp,c.reg .r8,c.reg .r9,c.reg .r10,c.reg .r11,c.reg .r12,
    c.reg .r13,c.reg .r14,c.reg .r15⟩

theorem wordsInj {r r' : Regs} (h : words r = words r') : r = r' := by
  cases r
  cases r'
  simpa only [words,List.cons.injEq,and_true,Regs.mk.injEq] using h

theorem regsSame {c c' : Cpu} (h : ∀ r, r ≠ .rsp → c'.reg r = c.reg r) : c'.regs = c.regs := by
  unfold Cpu.regs
  rw [h .rax nofun,h .rbx nofun,h .rcx nofun,h .rdx nofun,h .rsi nofun,h .rdi nofun,h .rbp nofun,h .r8 nofun,h .r9 nofun,h .r10 nofun,
    h .r11 nofun,h .r12 nofun,h .r13 nofun,h .r14 nofun,h .r15 nofun]

section Pushing
variable {L : Layout} {c c' c'' : Cpu} {vs ws : List UInt64} {v : UInt64}

/- Words pushed, the last of them first, and nothing else changed. -/
structure Pushed (c c' : Cpu) (vs : List UInt64) : Prop where
  rsp : c'.reg .rsp + 8 * UInt64.ofNat vs.length = c.reg .rsp
  aligned : c'.reg .rsp % 8 = 0
  regs : ∀ r, r ≠ .rsp → c'.reg r = c.reg r
  stack : ∀ ws, (vs ++ ws).length < 1152921504606846976 → Stacked c.mem (c.reg .rsp) ws → Stacked c'.mem (c'.reg .rsp) (vs ++ ws)
  elsewhere : ∀ a, (∀ i < vs.length, a ≠ c'.reg .rsp + 8 * UInt64.ofNat i) → c'.mem a = c.mem a
  rest : c'.rip = c.rip ∧ c'.cs = c.cs ∧ c'.ss = c.ss ∧ c'.rflags = c.rflags

@[simp] theorem setSelf (c : Cpu) (r : Reg) (v : UInt64) : (c.set r v).reg r = v := Function.update_self ..

theorem setOther {r r' : Reg} (other : r' ≠ r) (c : Cpu) (v : UInt64) : (c.set r v).reg r' = c.reg r' := Function.update_of_ne other ..

theorem alignedDown {a : UInt64} (h : a % 8 = 0) : (a - 8) % 8 = 0 := by
  have nat := congrArg UInt64.toNat h
  apply UInt64.toNat_inj.mp
  rw [UInt64.toNat_mod] at nat ⊢
  have eight : (8 : UInt64).toNat = 8 := rfl
  have zero : (0 : UInt64).toNat = 0 := rfl
  rw [eight,zero] at nat ⊢
  rw [UInt64.toNat_sub,eight]
  have small := a.toNat_lt
  omega

theorem alignedUp {a : UInt64} (h : a % 8 = 0) : (a + 8) % 8 = 0 := by
  have nat := congrArg UInt64.toNat h
  apply UInt64.toNat_inj.mp
  rw [UInt64.toNat_mod] at nat ⊢
  have eight : (8 : UInt64).toNat = 8 := rfl
  have zero : (0 : UInt64).toNat = 0 := rfl
  rw [eight,zero] at nat ⊢
  rw [UInt64.toNat_add,eight]
  omega

theorem pushPushed (aligned : c.reg .rsp % 8 = 0) (v : UInt64) : ∃ c', c.push v = some c' ∧ Pushed c c' [v] := by
  have word := alignedDown aligned
  refine ⟨Cpu.set { c with mem := Function.update c.mem (c.reg .rsp - 8) v } .rsp (c.reg .rsp - 8),?_,?_⟩
  · simp only [Cpu.push,Cpu.store,if_pos word,Option.bind_eq_bind,Option.bind_some]
  · refine ⟨?_,(setSelf ..).symm ▸ word,fun r other => setOther other .., fun ws few h => ?_,fun a apart => ?_,⟨rfl,rfl,rfl,rfl⟩⟩
    · rw [setSelf,List.length_singleton,addressSucc,addressZero]
      grind
    · rw [setSelf]
      exact stackedPush (Nat.lt_trans (Nat.lt_succ_self _) few) h
    · have other := apart 0 Nat.one_pos
      rw [setSelf,addressZero] at other
      exact Function.update_of_ne other ..

theorem addressAdd (a : UInt64) (i j : Nat) : a + 8 * UInt64.ofNat (i + j) = a + 8 * UInt64.ofNat i + 8 * UInt64.ofNat j := by
  rw [UInt64.ofNat_add]
  grind

theorem pushedThen (first : Pushed c c' vs) (second : Pushed c' c'' ws) : Pushed c c'' (ws ++ vs) := by
  refine ⟨?_,second.aligned,fun r other => (second.regs r other).trans (first.regs r other),fun us less h => ?_,fun a apart => ?_,?_⟩
  · rw [List.length_append,addressAdd,second.rsp,first.rsp]
  · rw [List.append_assoc] at less ⊢
    have less' : (vs ++ us).length < 1152921504606846976 := by
      rw [List.length_append] at less
      exact Nat.lt_of_le_of_lt (Nat.le_add_left _ _) less
    exact second.stack _ less (first.stack us less' h)
  · rw [List.length_append] at apart
    have above : c''.mem a = c'.mem a := second.elsewhere a fun i inside => apart i (Nat.lt_add_right _ inside)
    have below : c'.mem a = c.mem a := first.elsewhere a fun i inside => by
      have far := apart (ws.length + i) (Nat.add_lt_add_left inside _)
      rwa [addressAdd,second.rsp] at far
    exact above.trans below
  · obtain ⟨a,b,c,d⟩ := first.rest
    obtain ⟨e,f,g,h⟩ := second.rest
    exact ⟨e.trans a,f.trans b,g.trans c,h.trans d⟩

theorem pushedNone (aligned : c.reg .rsp % 8 = 0) : Pushed c c [] :=
  ⟨addressZero _,aligned,fun _ _ => rfl,fun _ _ h => h,fun _ _ => rfl,⟨rfl,rfl,rfl,rfl⟩⟩

/- A word more on what was pushed. -/
theorem pushMore (pushed : Pushed c c' vs) (v : UInt64) : ∃ c'', c'.push v = some c'' ∧ Pushed c c'' (v :: vs) := by
  obtain ⟨c'',done,more⟩ := pushPushed pushed.aligned v
  exact ⟨c'',done,pushedThen pushed more⟩

theorem pushRegs {rs : List Reg} (pushed : Pushed c c' vs) (other : .rsp ∉ rs) :
    ∃ c'', run L c' (rs.map .push) = some c'' ∧ Pushed c c'' ((rs.map c.reg).reverse ++ vs) := by
  induction rs generalizing c' vs with
  | nil => exact ⟨c',rfl,pushed⟩
  | cons r rs ih =>
    obtain ⟨plain,others⟩ := not_or.mp (fun mem => other (List.mem_cons.mpr mem))
    obtain ⟨c₁,done,more⟩ := pushMore pushed (c'.reg r)
    obtain ⟨c'',rest,all⟩ := ih more others
    refine ⟨c'',?_,?_⟩
    · rw [List.map_cons,run,List.foldlM_cons]
      simp only [exec,done]
      exact rest
    · rw [List.map_cons,List.reverse_cons,List.append_assoc]
      rw [pushed.regs r (Ne.symm plain)] at all
      exact all

/- Registers loaded from the words on the stack, and nothing else changed. -/
structure Popped (c c' : Cpu) (rs : List Reg) (vs ws : List UInt64) : Prop where
  loaded : rs.map c'.reg = vs
  others : ∀ r, r ∉ rs → r ≠ .rsp → c'.reg r = c.reg r
  rsp : c'.reg .rsp = c.reg .rsp + 8 * UInt64.ofNat rs.length
  aligned : c'.reg .rsp % 8 = 0
  stack : Stacked c'.mem (c'.reg .rsp) ws
  mem : c'.mem = c.mem
  rest : c'.rip = c.rip ∧ c'.cs = c.cs ∧ c'.ss = c.ss ∧ c'.rflags = c.rflags

theorem popRegs {rs : List Reg} (aligned : c.reg .rsp % 8 = 0) (other : .rsp ∉ rs) (distinct : rs.Nodup) (same : rs.length = vs.length)
    (h : Stacked c.mem (c.reg .rsp) (vs ++ ws)) : ∃ c', run L c (rs.map .pop) = some c' ∧ Popped c c' rs vs ws := by
  induction rs generalizing c vs with
  | nil =>
    cases List.eq_nil_of_length_eq_zero same.symm
    exact ⟨c,rfl,rfl,fun _ _ _ => rfl,(addressZero _).symm,aligned,h,rfl,⟨rfl,rfl,rfl,rfl⟩⟩
  | cons r rs ih =>
    cases vs with
    | nil => cases same
    | cons v vs =>
      obtain ⟨plain,others⟩ := not_or.mp (fun mem => other (List.mem_cons.mpr mem))
      obtain ⟨new,distinct⟩ := List.nodup_cons.mp distinct
      obtain ⟨here,above⟩ := stackedCons.mp h
      have up : ((c.set .rsp (c.reg .rsp + 8)).set r v).reg .rsp = c.reg .rsp + 8 := by
        rw [setOther plain,setSelf]
      have popped : c.pop = some (v,c.set .rsp (c.reg .rsp + 8)) := by
        simp only [Cpu.pop,Cpu.load,if_pos aligned,here,Option.bind_eq_bind,Option.bind_some]
      obtain ⟨c',rest,done⟩ := @ih ((c.set .rsp (c.reg .rsp + 8)).set r v) vs (by rw [up]; exact alignedUp aligned) others distinct
        (Nat.succ.inj same) (by rw [up]; exact above)
      refine ⟨c',?_,?_,fun r' out not_rsp => ?_,?_,done.aligned,done.stack,done.mem,done.rest⟩
      · rw [List.map_cons,run,List.foldlM_cons]
        simp only [exec,popped,Option.bind_eq_bind,Option.bind_some]
        exact rest
      · rw [List.map_cons,done.loaded,done.others r new (Ne.symm plain),setSelf]
      · obtain ⟨differs,out⟩ := not_or.mp (fun mem => out (List.mem_cons.mpr mem))
        rw [done.others r' out not_rsp,setOther differs,setOther not_rsp]
      · rw [done.rsp,up,List.length_cons,addressSucc]

end Pushing

/- What `enter_user` saves its context in: the slot and the words from its last push up to the return address. -/
def Held (L : Layout) (k : Cpu) (a : UInt64) : Prop := a = L.kernelRsp ∨ ∃ i < 7, a = k.reg .rsp - 48 + 8 * UInt64.ofNat i

/- The dispatcher came back: it kept its caller's frame but for the answer, and the kernel's context. -/
structure Dispatched (L : Layout) (k c c' : Cpu) (regs : Regs) : Prop where
  rsp : c'.reg .rsp = c.reg .rsp
  frame : Stacked c'.mem (c.reg .rsp) (words regs)
  above : ∀ i, 15 ≤ i → i < 20 → c'.mem (c.reg .rsp + 8 * UInt64.ofNat i) = c.mem (c.reg .rsp + 8 * UInt64.ofNat i)
  held : ∀ a, Held L k a → c'.mem a = c.mem a

/- What happens while ring 3 runs: a step of its own, which can write its two pages only; an interrupt of the kernel, which
comes back to the same registers; a syscall, from the gate to the return. -/
inductive Event (L : Layout) (k : Cpu) : Cpu → Cpu → Prop where
  | user {c c'} (mem : ∀ a, ¬UserAccessible a → c'.mem a = c.mem a) : Event L k c c'
  | interrupt {c mem} (held : ∀ a, Held L k a → mem a = c.mem a) : Event L k c { c with mem := mem }
  | syscall {c c₁ c₂ c₃ c' regs} (trapped : trap L c = some c₁) (spill : run L c₁ syscallSpill = some c₂)
      (called : Dispatched L k c₂ c₃ regs) (restore : run L c₃ syscallRestore = some c') : Event L k c c'

/- The stacks, the slot and the user's pages do not lie in one another. -/
structure Guarded (L : Layout) (k : Cpu) : Prop where
  aligned : k.reg .rsp % 8 = 0
  user : ∀ a, Held L k a → ¬UserAccessible a
  stack : ∀ a, Held L k a → ∀ i < 20, a ≠ L.rsp0 - 160 + 8 * UInt64.ofNat i
  slot : ∀ i < 12, L.kernelRsp ≠ k.reg .rsp - 88 + 8 * UInt64.ofNat i

/- The context of the kernel is where `return_to_kernel` looks for it. -/
structure Saved (L : Layout) (k c : Cpu) : Prop where
  aligned : (k.reg .rsp - 48) % 8 = 0
  slot : c.mem L.kernelRsp = k.reg .rsp - 48
  context : Stacked c.mem (k.reg .rsp - 48) [k.reg .r15,k.reg .r14,k.reg .r13,k.reg .r12,k.reg .rbx,k.reg .rbp,k.mem (k.reg .rsp)]

/- As if `enter_user` had simply returned. -/
structure Returned (k c : Cpu) : Prop where
  rip : c.rip = k.mem (k.reg .rsp)
  rsp : c.reg .rsp = k.reg .rsp + 8
  saved : ∀ r ∈ [Reg.rbx,.rbp,.r12,.r13,.r14,.r15], c.reg r = k.reg r

/- Back behind the `int 0x80`, with these registers and everything else as it was. -/
structure Resumed (c c' : Cpu) (regs : Regs) : Prop where
  regs : c'.regs = regs
  rsp : c'.reg .rsp = c.reg .rsp
  rest : c'.rip = c.rip ∧ c'.cs = c.cs ∧ c'.ss = c.ss ∧ c'.rflags = c.rflags

/- The registers of the caller and its context, on the stack the gate changes to. -/
structure Spilled (L : Layout) (c c' : Cpu) : Prop where
  frame : Stacked c'.mem (c'.reg .rsp) (words c.regs ++ [c.rip,c.cs,c.rflags,c.reg .rsp,c.ss])
  rsp : c'.reg .rsp = L.rsp0 - 160
  aligned : c'.reg .rsp % 8 = 0
  argument : c'.reg .rdi = c'.reg .rsp
  ring : c'.cs = L.kernelCode
  elsewhere : ∀ a, (∀ i < 20, a ≠ L.rsp0 - 160 + 8 * UInt64.ofNat i) → c'.mem a = c.mem a

theorem runSnoc {L : Layout} {c c' : Cpu} {code : List Instr} (h : run L c code = some c') (i : Instr) :
    run L c (code ++ [i]) = exec L c' i := by
  unfold run at h ⊢
  rw [List.foldlM_append,h]
  simp

section Gate
variable {L : Layout} {k c c' : Cpu} {regs : Regs}

theorem iretqLoads {rip cs rflags rsp ss : UInt64} (aligned : c.reg .rsp % 8 = 0) (h : Stacked c.mem (c.reg .rsp) [rip,cs,rflags,rsp,ss]) :
    c.iretq = some (c.leave rip cs rflags rsp ss) := by
  obtain ⟨a,h⟩ := stackedCons.mp h
  obtain ⟨b,h⟩ := stackedCons.mp h
  obtain ⟨c',h⟩ := stackedCons.mp h
  obtain ⟨d,h⟩ := stackedCons.mp h
  obtain ⟨e,-⟩ := stackedCons.mp h
  have up := alignedUp aligned
  have up₂ := alignedUp up
  have up₃ := alignedUp up₂
  have up₄ := alignedUp up₃
  simp only [Cpu.iretq,Cpu.load,if_pos aligned,if_pos up,if_pos up₂,if_pos up₃,if_pos up₄,a,b,c',d,e,Option.bind_eq_bind,Option.bind_some]

/- The gate is always taken. -/
theorem gateSpills (L : Layout) (c : Cpu) : ∃ c₁ c₂, trap L c = some c₁ ∧ run L c₁ syscallSpill = some c₂ ∧ Spilled L c c₂ := by
  have aligned : (c.set .rsp L.rsp0).reg .rsp % 8 = 0 := by
    rw [setSelf]
    exact L.wordAligned
  obtain ⟨a₁,push₁,p₁⟩ := pushMore (pushedNone aligned) c.ss
  obtain ⟨a₂,push₂,p₂⟩ := pushMore p₁ (c.reg .rsp)
  obtain ⟨a₃,push₃,p₃⟩ := pushMore p₂ c.rflags
  obtain ⟨a₄,push₄,p₄⟩ := pushMore p₃ c.cs
  obtain ⟨a₅,push₅,p₅⟩ := pushMore p₄ c.rip
  let c₁ : Cpu := { a₅ with rip := L.syscallEntry, cs := L.kernelCode, ss := 0, rflags := c.rflags &&& 0xfffffffffffebcff }
  have trapped : trap L c = some c₁ := by
    simp only [trap,L.stackAligned,push₁,push₂,push₃,push₄,push₅,Option.bind_eq_bind,Option.bind_some]
    rfl
  have regs₁ (r : Reg) (other : r ≠ .rsp) : c₁.reg r = c.reg r := (p₅.regs r other).trans (setOther other ..)
  have stacked : Stacked c₁.mem (c₁.reg .rsp) [c.rip,c.cs,c.rflags,c.reg .rsp,c.ss] := p₅.stack [] (by simp) stackedNil
  obtain ⟨c₂,spill,pushed⟩ := @pushRegs L c₁ c₁ [] spilled (pushedNone p₅.aligned) (by decide)
  have values : (spilled.map c₁.reg).reverse ++ [] = words c.regs := congrArg words (regsSame regs₁)
  rw [values] at pushed
  have bottom : c₁.reg .rsp = c₂.reg .rsp + 8 * UInt64.ofNat 15 := pushed.rsp.symm
  have top : c₁.reg .rsp + 8 * UInt64.ofNat 5 = L.rsp0 := p₅.rsp.trans (setSelf ..)
  have rsp : c₂.reg .rsp = L.rsp0 - 160 := by
    have fifteen : 8 * UInt64.ofNat 15 = 120 := rfl
    have five : 8 * UInt64.ofNat 5 = 40 := rfl
    rw [bottom,fifteen,five] at top
    grind
  refine ⟨c₁,c₂.set .rdi (c₂.reg .rsp),trapped,?_,?_⟩
  · exact runSnoc spill (.mov .rdi .rsp)
  · have plain : Reg.rsp ≠ .rdi := by decide
    have held : (c₂.set .rdi (c₂.reg .rsp)).reg .rsp = c₂.reg .rsp := setOther plain ..
    have ring : c₂.cs = c₁.cs := pushed.rest.2.1
    refine ⟨?_,held.trans rsp,held ▸ pushed.aligned,(setSelf ..).trans held.symm,ring,fun a apart => ?_⟩
    · rw [held]
      exact pushed.stack _ (by simp [words]) stacked
    · have spillApart : c₂.mem a = c₁.mem a := pushed.elsewhere a fun i inside => by
        rw [rsp]
        exact apart i (Nat.lt_trans inside (by decide : 15 < 20))
      have trapApart : c₁.mem a = c.mem a := p₅.elsewhere a fun i inside => by
        change a ≠ c₁.reg .rsp + _
        rw [bottom,rsp,← addressAdd]
        exact apart (15 + i) (Nat.add_lt_add_left inside 15)
      exact spillApart.trans trapApart

/- The registers come back as the dispatcher left them, the rest as the gate found it. -/
theorem gateRestores {c₂ c₃ : Cpu} (spilled_ : Spilled L c c₂) (called : Dispatched L k c₂ c₃ regs) :
    ∃ c', run L c₃ syscallRestore = some c' ∧ Resumed c c' regs ∧ c'.mem = c₃.mem := by
  have length : (words regs).length = (words c.regs).length := rfl
  have context : Stacked c₃.mem (c₂.reg .rsp + 8 * UInt64.ofNat (words c.regs).length) [c.rip,c.cs,c.rflags,c.reg .rsp,c.ss] := by
    refine stackedSame (stackedAppend spilled_.frame).2 fun i inside => ?_
    rw [← addressAdd]
    exact called.above _ (Nat.le_add_right _ _) (Nat.add_lt_add_left inside 15)
  have whole : Stacked c₃.mem (c₃.reg .rsp) (words regs ++ [c.rip,c.cs,c.rflags,c.reg .rsp,c.ss]) := by
    rw [called.rsp]
    exact stackedJoin called.frame (length ▸ context)
  have aligned : c₃.reg .rsp % 8 = 0 := by
    rw [called.rsp]
    exact spilled_.aligned
  obtain ⟨c₄,popped,loads⟩ := @popRegs L c₃ (words regs) [c.rip,c.cs,c.rflags,c.reg .rsp,c.ss] spilled.reverse aligned (by decide) (by decide) rfl whole
  refine ⟨c₄.leave c.rip c.cs c.rflags (c.reg .rsp) c.ss,?_,⟨?_,setSelf c₄ .rsp _,rfl,rfl,rfl,rfl⟩,loads.mem⟩
  · exact (runSnoc popped .iretq).trans (iretqLoads loads.aligned loads.stack)
  · have loaded := loads.loaded
    have same : (c₄.leave c.rip c.cs c.rflags (c.reg .rsp) c.ss).regs = c₄.regs := regsSame fun r other => setOther other ..
    exact same.trans (wordsInj loaded)

theorem savedSame (h : ∀ a, Held L k a → c'.mem a = c.mem a) (saved : Saved L k c) : Saved L k c' :=
  ⟨saved.aligned,(h _ (.inl rfl)).trans saved.slot,stackedSame saved.context fun i inside => h _ (.inr ⟨i,inside,rfl⟩)⟩

/- Ring 3 is entered where the caller says, with its own context saved. -/
theorem enterSaves (guarded : Guarded L k) : ∃ c, run L k enterUser = some c ∧ c.rip = k.reg .rdi ∧ c.cs = k.reg .rdx ∧ c.rflags = 0x202 ∧
    c.reg .rsp = k.reg .rsi ∧ c.ss = k.reg .rcx ∧ Saved L k c := by
  obtain ⟨k₁,saves,p₁⟩ := @pushRegs L k k [] [.rbp,.rbx,.r12,.r13,.r14,.r15] (pushedNone guarded.aligned) (by decide)
  have forty : 8 * UInt64.ofNat 5 = 40 := rfl
  have rsp₁ : k₁.reg .rsp = k.reg .rsp - 48 := by
    have down : k₁.reg .rsp + 8 * UInt64.ofNat 6 = k.reg .rsp := p₁.rsp
    have six : 8 * UInt64.ofNat 6 = 48 := rfl
    rw [six] at down
    grind
  have context₁ : Stacked k₁.mem (k₁.reg .rsp) [k.reg .r15,k.reg .r14,k.reg .r13,k.reg .r12,k.reg .rbx,k.reg .rbp,k.mem (k.reg .rsp)] :=
    p₁.stack [k.mem (k.reg .rsp)] (by simp) (stackedCons.mpr ⟨rfl,stackedNil⟩)
  let k₂ : Cpu := { k₁ with mem := Function.update k₁.mem L.kernelRsp (k₁.reg .rsp) }
  have stored : exec L k₁ .saveRsp = some k₂ := if_pos L.slotAligned
  have context₂ : Stacked k₂.mem (k₁.reg .rsp) [k.reg .r15,k.reg .r14,k.reg .r13,k.reg .r12,k.reg .rbx,k.reg .rbp,k.mem (k.reg .rsp)] := by
    refine stackedSame context₁ fun i inside => ?_
    have apart := guarded.slot (5 + i) (Nat.add_lt_add_left inside 5)
    have place : k.reg .rsp - 88 + 8 * UInt64.ofNat (5 + i) = k₁.reg .rsp + 8 * UInt64.ofNat i := by
      rw [addressAdd,forty,rsp₁]
      grind
    rw [place] at apart
    exact Function.update_of_ne apart.symm ..
  have aligned₂ : k₂.reg .rsp % 8 = 0 := p₁.aligned
  obtain ⟨a₁,push₁,q₁⟩ := pushMore (pushedNone aligned₂) (k₂.reg .rcx)
  obtain ⟨a₂,push₂,q₂⟩ := pushMore q₁ (a₁.reg .rsi)
  obtain ⟨a₃,push₃,q₃⟩ := pushMore q₂ 0x202
  obtain ⟨a₄,push₄,q₄⟩ := pushMore q₃ (a₃.reg .rdx)
  obtain ⟨a₅,push₅,q₅⟩ := pushMore q₄ (a₄.reg .rdi)
  have rsi : a₁.reg .rsi = k.reg .rsi := (q₁.regs .rsi nofun).trans (p₁.regs .rsi nofun)
  have rdx : a₃.reg .rdx = k.reg .rdx := (q₃.regs .rdx nofun).trans (p₁.regs .rdx nofun)
  have rdi : a₄.reg .rdi = k.reg .rdi := (q₄.regs .rdi nofun).trans (p₁.regs .rdi nofun)
  have rcx : k₂.reg .rcx = k.reg .rcx := p₁.regs .rcx nofun
  rw [rsi,rdx,rdi,rcx] at q₅
  have stacked := q₅.stack _ (by simp) context₂
  have rsp₅ : a₅.reg .rsp = k.reg .rsp - 88 := by
    have down : a₅.reg .rsp + 8 * UInt64.ofNat 5 = k₁.reg .rsp := q₅.rsp
    rw [forty,rsp₁] at down
    grind
  have code := runSnoc (runSnoc (runSnoc (runSnoc (runSnoc (runSnoc ((runSnoc saves .saveRsp).trans stored) (.push .rcx) |>.trans push₁)
    (.push .rsi) |>.trans push₂) (.pushImm 0x202) |>.trans push₃) (.push .rdx) |>.trans push₄) (.push .rdi) |>.trans push₅) .iretq
  refine ⟨_,code.trans (iretqLoads q₅.aligned (stackedAppend stacked).1),rfl,rfl,rfl,setSelf a₅ .rsp _,rfl,rsp₁ ▸ p₁.aligned,?_,?_⟩
  · have kept : a₅.mem L.kernelRsp = k₂.mem L.kernelRsp := q₅.elsewhere _ fun i inside => by
      rw [rsp₅]
      exact guarded.slot i (Nat.lt_trans inside (by decide : 5 < 12))
    exact kept.trans ((Function.update_self ..).trans rsp₁)
  · have above := (stackedAppend stacked).2
    have place : a₅.reg .rsp + 8 * UInt64.ofNat 5 = k.reg .rsp - 48 := by
      rw [rsp₅,forty]
      grind
    exact place ▸ above

theorem returnRestores (saved : Saved L k c) : ∃ c', run L c returnToKernel = some c' ∧ Returned k c' ∧ c'.mem = c.mem := by
  have loaded : exec L c .loadRsp = some (c.set .rsp (k.reg .rsp - 48)) := by
    simp only [exec,Cpu.load,if_pos L.slotAligned,saved.slot,Option.bind_eq_bind,Option.bind_some]
  have up : (c.set .rsp (k.reg .rsp - 48)).reg .rsp = k.reg .rsp - 48 := setSelf ..
  obtain ⟨c₁,popped,loads⟩ := @popRegs L (c.set .rsp (k.reg .rsp - 48)) [k.reg .r15,k.reg .r14,k.reg .r13,k.reg .r12,k.reg .rbx,k.reg .rbp]
    [k.mem (k.reg .rsp)] [.r15,.r14,.r13,.r12,.rbx,.rbp] (by rw [up]; exact saved.aligned) (by decide) (by decide) rfl
    (by rw [up]; exact saved.context)
  have rsp : c₁.reg .rsp = k.reg .rsp := by
    have six : 8 * UInt64.ofNat 6 = 48 := rfl
    have sum : c₁.reg .rsp = k.reg .rsp - 48 + 8 * UInt64.ofNat 6 := by
      rw [loads.rsp,up]
      rfl
    rw [sum,six]
    grind
  have ret := (stackedCons.mp loads.stack).1
  refine ⟨{ c₁.set .rsp (c₁.reg .rsp + 8) with rip := k.mem (k.reg .rsp) },?_,⟨rfl,?_,?_⟩,loads.mem⟩
  · have code : returnToKernel = .loadRsp :: ([Reg.r15,.r14,.r13,.r12,.rbx,.rbp].map .pop ++ [.ret]) := rfl
    rw [code,run,List.foldlM_cons,loaded]
    refine (runSnoc popped .ret).trans ?_
    simp only [exec,Cpu.pop,Cpu.load,if_pos loads.aligned,ret,Option.bind_eq_bind,Option.bind_some]
  · exact (setSelf c₁ .rsp (c₁.reg .rsp + 8)).trans (congrArg (· + 8) rsp)
  · have values := loads.loaded
    simp only [List.map_cons,List.map_nil,List.cons.injEq,and_true] at values
    obtain ⟨r15,r14,r13,r12,rbx,rbp⟩ := values
    have kept {r : Reg} (other : r ≠ .rsp) : (c₁.set .rsp (c₁.reg .rsp + 8)).reg r = c₁.reg r := setOther other ..
    intro r mem
    simp only [List.mem_cons,List.not_mem_nil,or_false] at mem
    rcases mem with rfl | rfl | rfl | rfl | rfl | rfl
    · exact (kept (by decide)).trans rbx
    · exact (kept (by decide)).trans rbp
    · exact (kept (by decide)).trans r12
    · exact (kept (by decide)).trans r13
    · exact (kept (by decide)).trans r14
    · exact (kept (by decide)).trans r15

theorem spilledHeld {c₂ : Cpu} (guarded : Guarded L k) (spilled_ : Spilled L c c₂) : ∀ a, Held L k a → c₂.mem a = c.mem a :=
  fun a held => spilled_.elsewhere a (guarded.stack a held)

/- Nothing that happens while ring 3 runs touches the context of the kernel. -/
theorem eventSaved (guarded : Guarded L k) (saved : Saved L k c) (event : Event L k c c') : Saved L k c' := by
  cases event with
  | user mem => exact savedSame (fun a held => mem a (guarded.user a held)) saved
  | interrupt held => exact savedSame held saved
  | syscall trapped spill called restore =>
    obtain ⟨c₁,c₂,trapped',spill',spilled_⟩ := gateSpills L c
    cases trapped.symm.trans trapped'
    cases spill.symm.trans spill'
    obtain ⟨c₄,restore',-,mem⟩ := gateRestores spilled_ called
    cases restore.symm.trans restore'
    refine savedSame (fun a held => ?_) saved
    rw [mem,called.held a held,spilledHeld guarded spilled_ a held]

end Gate

/- What the syscall changes of its caller's registers is the answer. -/
theorem answersInRax {mem : Usermode.Memory} {ticks : UInt64} {regs regs' : Regs} {console : List Usermode.Line}
    (h : Usermode.syscallDispatch mem ticks regs = .resumed console regs') : regs' = { regs with rax := regs'.rax } := by
  unfold Usermode.syscallDispatch at h
  split at h
  · split at h
    · cases h; rfl
    · cases h
  · split at h
    · cases h; rfl
    · split at h
      · cases h; rfl
      · split at h
        · cases h
        · cases h; rfl

def liminalLayout : Layout := ⟨0x300000,0x280000,8,0x210000,by decide,by decide,by decide⟩

/- `run` at the call of `enter_user`. -/
def descending : Cpu where
  reg
    | .rdi => 0x40000000
    | .rsi => 0x40004000
    | .rdx => 0x23
    | .rcx => 0x2b
    | .rsp => 0x180000
    | .rbx => 7
    | _ => 0
  rip := 0x210100
  cs := 8
  ss := 0x10
  rflags := 0x202
  mem a := if a = 0x180000 then 0x220000 else 0

theorem descendingGuarded : Guarded liminalLayout descending := by
  have held {P : UInt64 → Prop} (slot : P 0x300000) (context : ∀ i < 7, P (0x180000 - 48 + 8 * UInt64.ofNat i)) :
      ∀ a, Held liminalLayout descending a → P a := by
    rintro a (rfl | ⟨i,inside,rfl⟩)
    · exact slot
    · exact context i inside
  exact ⟨by decide,held (by decide) (by decide),held (by decide) (by decide +kernel),by decide⟩

end Officium.Trampolines
