import Mathlib.Logic.Function.Basic

/-! A stack that grows down in a memory of 64-bit words, eight bytes apart. Nothing here depends on who uses it. -/
namespace Stacks

/- The words from an address up. -/
def Stacked (mem : UInt64 → UInt64) (a : UInt64) (vs : List UInt64) : Prop := ∀ i v, vs[i]? = some v → mem (a + 8 * UInt64.ofNat i) = v

variable {mem mem' : UInt64 → UInt64} {a v : UInt64} {vs ws : List UInt64}

theorem stackedNil : Stacked mem a [] := fun i v h => by simp at h

theorem addressZero (a : UInt64) : a + 8 * UInt64.ofNat 0 = a := by
  have zero : UInt64.ofNat 0 = 0 := rfl
  rw [zero]
  grind

theorem addressSucc (a : UInt64) (i : Nat) : a + 8 * UInt64.ofNat (i + 1) = a + 8 + 8 * UInt64.ofNat i := by
  have succ : UInt64.ofNat (i + 1) = UInt64.ofNat i + 1 := UInt64.ofNat_add i 1
  rw [succ]
  grind

/- No address comes round again within so many words. -/
theorem addressApart {i : Nat} (few : i < 1152921504606846976) : a - 8 ≠ a + 8 * UInt64.ofNat i := by
  intro same
  have round : 8 * UInt64.ofNat (i + 1) = 0 := by
    have succ : UInt64.ofNat (i + 1) = UInt64.ofNat i + 1 := UInt64.ofNat_add i 1
    rw [succ]
    grind
  have nat := congrArg UInt64.toNat round
  have eight : (8 : UInt64).toNat = 8 := rfl
  have zero : (0 : UInt64).toNat = 0 := rfl
  have count : (UInt64.ofNat (i + 1)).toNat = i + 1 := by
    rw [UInt64.toNat_ofNat']
    omega
  rw [UInt64.toNat_mul,eight,zero,count] at nat
  omega

theorem stackedCons : Stacked mem a (v :: vs) ↔ mem a = v ∧ Stacked mem (a + 8) vs := by
  constructor
  · intro h
    refine ⟨?_,fun i w found => ?_⟩
    · rw [← addressZero a]
      exact h 0 v rfl
    · rw [← addressSucc]
      exact h (i + 1) w found
  · rintro ⟨here,above⟩ i w found
    cases i with
    | zero =>
      cases found
      rw [addressZero]
      exact here
    | succ i =>
      rw [addressSucc]
      exact above i w found

/- A word pushed stands on the ones below it. -/
theorem stackedPush (few : vs.length < 1152921504606846976) (h : Stacked mem a vs) :
    Stacked (Function.update mem (a - 8) v) (a - 8) (v :: vs) := by
  have back : a - 8 + 8 = a := by grind
  rw [stackedCons,back]
  refine ⟨Function.update_self ..,fun i w found => ?_⟩
  have inside : i < vs.length := (List.getElem?_eq_some_iff.mp found).1
  rw [Function.update_of_ne (addressApart (Nat.lt_trans inside few)).symm]
  exact h i w found

theorem stackedJoin (first : Stacked mem a vs) (second : Stacked mem (a + 8 * UInt64.ofNat vs.length) ws) : Stacked mem a (vs ++ ws) := by
  induction vs generalizing a with
  | nil =>
    rw [List.length_nil,addressZero] at second
    exact second
  | cons v vs ih =>
    obtain ⟨here,above⟩ := stackedCons.mp first
    rw [List.length_cons,addressSucc] at second
    exact stackedCons.mpr ⟨here,ih above second⟩

/- What is stacked depends on the addresses it is stacked at. -/
theorem stackedSame (h : Stacked mem a vs) (same : ∀ i < vs.length, mem' (a + 8 * UInt64.ofNat i) = mem (a + 8 * UInt64.ofNat i)) :
    Stacked mem' a vs := fun i v found => (same i (List.getElem?_eq_some_iff.mp found).1).trans (h i v found)

theorem stackedAppend (h : Stacked mem a (vs ++ ws)) : Stacked mem a vs ∧ Stacked mem (a + 8 * UInt64.ofNat vs.length) ws := by
  induction vs generalizing a with
  | nil => exact ⟨stackedNil,by rw [List.length_nil,addressZero]; exact h⟩
  | cons v vs ih =>
    obtain ⟨here,above⟩ := stackedCons.mp h
    obtain ⟨first,second⟩ := ih above
    rw [List.length_cons,addressSucc]
    exact ⟨stackedCons.mpr ⟨here,first⟩,second⟩

end Stacks
