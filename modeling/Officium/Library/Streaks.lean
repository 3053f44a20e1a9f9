/-! Streaks in a sequence of numbers: items that each lie one stride after the one before. A scan that keeps
only the streak it stands in finds the first streak of a length. Nothing here depends on what the numbers are. -/
namespace Streaks

variable (item : Nat → Option Nat) (stride : Nat)

/- From place `j` on there are `count` items, the first of them `a`. -/
def StreakAt (count j a : Nat) : Prop := ∀ k < count, item (j + k) = some (a + k * stride)

/- The streak at place `j`, and none of its length before. -/
structure First (count j a : Nat) : Prop where
  here : StreakAt item stride count j a
  earliest : ∀ i b, i < j → ¬StreakAt item stride count i b

/- A scan before place `i`, in a streak of `have_` items that `start` begins, shorter than what it looks for. -/
structure Standing (count i : Nat) (start : Option Nat) (have_ : Nat) : Prop where
  begin_ : start = none → have_ = 0 ∧ i = 0
  within : ∀ s, start = some s → 1 ≤ have_ ∧ have_ < count ∧ have_ ≤ i ∧ StreakAt item stride have_ (i - have_) s
  cut : ∀ s b, start = some s → have_ < i → item (i - have_ - 1) = some b → s ≠ b + stride
  before : ∀ j a, j + count ≤ i → ¬StreakAt item stride count j a

variable {item stride} {count i have_ x : Nat} {start : Option Nat}

theorem firstUnique {j j' a a' : Nat} (some_ : 0 < count) (first : First item stride count j a) (first' : First item stride count j' a') :
    a = a' := by
  have same : j = j' := by
    rcases Nat.lt_trichotomy j j' with before | same | after
    · exact absurd first.here (first'.earliest j a before)
    · exact same
    · exact absurd first'.here (first.earliest j' a' after)
  subst same
  have both := (first.here 0 some_).symm.trans (first'.here 0 some_)
  simpa using both

theorem standingStart (some_ : 0 < count) : Standing item stride count 0 none 0 where
  begin_ := fun _ => ⟨rfl,rfl⟩
  within := nofun
  cut := nofun
  before := fun j a le _ => by omega

/- An item that goes on with the streak makes it one longer. -/
theorem standingOn {s : Nat} (standing : Standing item stride count i (some s) have_) (here : item i = some x) (on : x = s + have_ * stride) :
    StreakAt item stride (have_ + 1) (i - have_) s := by
  obtain ⟨-,-,le,streak⟩ := standing.within s rfl
  intro k lt
  rcases Nat.lt_succ_iff_lt_or_eq.mp lt with before | rfl
  · exact streak k before
  · rw [Nat.sub_add_cancel le,here,on]

theorem standingFull {s : Nat} (standing : Standing item stride count i (some s) have_) (here : item i = some x) (on : x = s + have_ * stride)
    (full : have_ + 1 = count) : First item stride count (i - have_) s where
  here := full ▸ standingOn standing here on
  earliest := by
    intro j b before
    obtain ⟨-,-,le,-⟩ := standing.within s rfl
    exact standing.before j b (by omega)

theorem standingNext {s : Nat} (standing : Standing item stride count i (some s) have_) (here : item i = some x) (on : x = s + have_ * stride)
    (more : have_ + 1 ≠ count) : Standing item stride count (i + 1) (some s) (have_ + 1) where
  begin_ := nofun
  within := by
    intro s' same
    cases same
    obtain ⟨some_,few,le,-⟩ := standing.within s rfl
    refine ⟨by omega,by omega,by omega,?_⟩
    rw [Nat.add_sub_add_right]
    exact standingOn standing here on
  cut := by
    intro s' b same lt found
    cases same
    rw [Nat.add_sub_add_right] at found
    exact standing.cut s b rfl (by omega) found
  before := by
    intro j a le streak
    obtain ⟨some_,few,le',own⟩ := standing.within s rfl
    rcases Nat.lt_or_ge i (j + count) with reaches | inside
    · -- the longer streak would hold the item before this one's first
      have first : item (i - have_ - 1) = some (a + (i - have_ - 1 - j) * stride) := by
        have found := streak (i - have_ - 1 - j) (by omega)
        rwa [Nat.add_sub_cancel' (by omega)] at found
      have next : item (i - have_) = some (a + (i - have_ - 1 - j) * stride + stride) := by
        have found := streak (i - have_ - j) (by omega)
        rw [Nat.add_sub_cancel' (by omega)] at found
        rw [found,Nat.add_assoc,← Nat.succ_mul]
        congr 3
        omega
      have start_ := own 0 (by omega)
      rw [Nat.add_zero,next] at start_
      refine standing.cut s _ rfl (by omega) first ?_
      have same := Option.some.inj start_
      omega
    · exact standing.before j a inside streak

/- An item that does not starts a streak of its own. -/
theorem standingNew (standing : Standing item stride count i start have_) (here : item i = some x)
    (off : ∀ s, start = some s → x ≠ s + have_ * stride) (more : 1 ≠ count) (some_ : 0 < count) : Standing item stride count (i + 1) (some x) 1 := by
  have last : ∀ b, 0 < i → item (i - 1) = some b → x ≠ b + stride := by
    intro b some' found same
    cases start with
    | none => exact absurd (standing.begin_ rfl).2 (by omega)
    | some s =>
      obtain ⟨some_,-,le,own⟩ := standing.within s rfl
      have before := own (have_ - 1) (by omega)
      have place : i - have_ + (have_ - 1) = i - 1 := by omega
      rw [place,found] at before
      refine off s rfl ?_
      rw [same,Option.some.inj before,Nat.add_assoc,← Nat.succ_mul]
      congr 2
      omega
  constructor
  · nofun
  · intro s same
    cases same
    refine ⟨Nat.le_refl 1,by omega,by omega,fun k lt => ?_⟩
    obtain rfl : k = 0 := by omega
    rw [Nat.add_sub_cancel,Nat.add_zero,here,Nat.zero_mul,Nat.add_zero]
  · intro s b same lt found
    cases same
    rw [Nat.add_sub_cancel] at found
    exact last b (by omega) found
  · intro j a le streak
    rcases Nat.lt_or_ge i (j + count) with reaches | inside
    · have previous := streak (i - 1 - j) (by omega)
      have now := streak (i - j) (by omega)
      rw [Nat.add_sub_cancel' (by omega)] at previous now
      refine last _ (by omega) previous ?_
      rw [here] at now
      rw [Option.some.inj now,Nat.add_assoc,← Nat.succ_mul]
      congr 2
      omega
    · exact standing.before j a inside streak

theorem standingAlone (standing : Standing item stride 1 i start have_) (here : item i = some x) : First item stride 1 i x where
  here := by
    intro k lt
    obtain rfl : k = 0 := by omega
    rw [Nat.add_zero,here,Nat.zero_mul,Nat.add_zero]
  earliest := fun j b before => standing.before j b before

/- Where the sequence has ended there is no streak left to find. -/
theorem standingEnd (standing : Standing item stride count i start have_) (ended : ∀ k, i ≤ k → item k = none) (some_ : 0 < count) (j a : Nat) :
    ¬StreakAt item stride count j a := by
  intro streak
  rcases Nat.lt_or_ge i (j + count) with reaches | inside
  · have last := streak (count - 1) (by omega)
    rw [ended _ (by omega)] at last
    cases last
  · exact standing.before j a inside streak

end Streaks
