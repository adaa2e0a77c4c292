import Mathlib.Data.Set.Card

/-
  Running timers as a map from keys to the time that is left.

  A timer is `due` when no time is left. `due_elapse` says which timers are due after some more
  time, and `nonempty_due_elapse_iff` that the shortest time left decides whether any is.
-/

/-- The time each running timer has left. -/
def Countdown (K : Type*) := K → Option Nat

namespace Countdown

variable {K : Type*}

def empty : Countdown K := fun _ => none

/-- Set or reset one timer. -/
def arm [DecidableEq K] (m : Countdown K) (k : K) (d : Nat) : Countdown K :=
  fun x => if x = k then some d else m x

/-- Drop the timers with `p`. -/
def cancel (m : Countdown K) (p : K → Prop) [DecidablePred p] : Countdown K :=
  fun k => if p k then none else m k

/-- Time passes, for no timer beyond its end. -/
def elapse (m : Countdown K) (e : Nat) : Countdown K := fun k => (m k).map (· - e)

def live (m : Countdown K) : Set K := {k | (m k).isSome = true}

def due (m : Countdown K) : Set K := {k | m k = some 0}

/-- The shortest time left, if any timer runs. -/
def IsNext (m : Countdown K) : Option Nat → Prop
  | none => m = empty
  | some r => (∃ k, m k = some r) ∧ ∀ k r', m k = some r' → r ≤ r'

variable {m : Countdown K}

theorem arm_eq_some_iff [DecidableEq K] {k x : K} {d r : Nat} :
    m.arm k d x = some r ↔ (x = k ∧ r = d) ∨ (x ≠ k ∧ m x = some r) := by
  unfold arm
  by_cases h : x = k <;> simp [h, eq_comm]

theorem cancel_eq_some_iff {p : K → Prop} [DecidablePred p] {x : K} {r : Nat} :
    m.cancel p x = some r ↔ ¬ p x ∧ m x = some r := by
  unfold cancel
  by_cases h : p x <;> simp [h]

theorem elapse_eq_some_iff {e : Nat} {x : K} {r : Nat} :
    m.elapse e x = some r ↔ ∃ r₀, m x = some r₀ ∧ r = r₀ - e := by
  unfold elapse
  simp [eq_comm]

theorem mem_live {k : K} : k ∈ m.live ↔ ∃ r, m k = some r := Option.isSome_iff_exists

theorem live_arm [DecidableEq K] {k : K} {d : Nat} : (m.arm k d).live = insert k m.live := by
  ext x
  unfold live arm
  by_cases h : x = k <;> simp [h]

theorem live_cancel_subset (m : Countdown K) (p : K → Prop) [DecidablePred p] :
    (m.cancel p).live ⊆ m.live := by
  intro k hk
  obtain ⟨r, hr⟩ := mem_live.mp hk
  exact mem_live.mpr ⟨r, (cancel_eq_some_iff.mp hr).2⟩

@[simp] theorem live_elapse (m : Countdown K) (e : Nat) : (m.elapse e).live = m.live := by
  ext k
  unfold live elapse
  simp

theorem eq_empty_iff : m = empty ↔ ∀ k r, m k ≠ some r := by
  refine ⟨?_, fun h => ?_⟩
  · rintro rfl k r h
    cases h
  · funext k
    cases hk : m k with
    | none => rfl
    | some r => exact absurd hk (h k r)

theorem due_elapse {e : Nat} {k : K} : k ∈ (m.elapse e).due ↔ ∃ r, m k = some r ∧ r ≤ e := by
  refine elapse_eq_some_iff.trans (exists_congr fun r => and_congr_right fun _ => ?_)
  omega

theorem nonempty_due_elapse_iff {r e : Nat} (h : m.IsNext (some r)) :
    (m.elapse e).due.Nonempty ↔ r ≤ e := by
  obtain ⟨⟨k, hk⟩, hleast⟩ := h
  refine ⟨?_, fun hle => ⟨k, due_elapse.mpr ⟨r, hk, hle⟩⟩⟩
  rintro ⟨x, hx⟩
  obtain ⟨r', hr', hle⟩ := due_elapse.mp hx
  exact (hleast x r' hr').trans hle

end Countdown
