import Hsmc.Lib.Except
import Hsmc.Runtime.Emits

/-
  `dispatch` as a run of steps.

  `Drains` says how the draining loop got from one machine to another: which machines it
  stepped, what it returned, and why it stopped. The step that starts a fresh machine is a
  turn of the loop like any other, since the queue is not empty then (`dispatch_drains`).
-/

namespace Hsmc

variable {Ev Ctx Val : Type} {qn tn : Nat}

/-- The draining loop from a machine: the machines it steps, its result and the machine it
    leaves. -/
inductive Drains (c : Chart) (u : UserCode Ev Ctx Val) : Machine Ev Ctx qn tn →
    List (Machine Ev Ctx qn tn) → Except HsmcError Unit → Machine Ev Ctx qn tn → Prop where
  | empty {m : Machine Ev Ctx qn tn} : m.queue.items = [] → Drains c u m [] (.ok ()) m
  | overflow {m m₁ : Machine Ev Ctx qn tn} {next : Option Nat} : m.queue.items ≠ [] →
      step c u m 0 = .ok (next, m₁) → m₁.overflow = true →
      Drains c u m [m] (.error .queueFull) m₁.takeOverflow.2
  | terminated {m m₁ : Machine Ev Ctx qn tn} {next : Option Nat} : m.queue.items ≠ [] →
      step c u m 0 = .ok (next, m₁) → m₁.overflow = false → m₁.terminated = true →
      Drains c u m [m] (.ok ()) m₁.takeOverflow.2
  | turn {m m₁ m' : Machine Ev Ctx qn tn} {next : Option Nat}
      {ms : List (Machine Ev Ctx qn tn)} {result : Except HsmcError Unit} : m.queue.items ≠ [] →
      step c u m 0 = .ok (next, m₁) → m₁.overflow = false → m₁.terminated = false →
      Drains c u m₁.takeOverflow.2 ms result m' → Drains c u m (m :: ms) result m'

variable {c : Chart} {u : UserCode Ev Ctx Val}

/-- One turn of the loop, when what follows it is known. -/
theorem turn_drains {fuel : Nat} {m m₁ m' : Machine Ev Ctx qn tn} {next : Option Nat}
    {result : Except HsmcError Unit} (hne : m.queue.items ≠ [])
    (h₁ : step c u m 0 = .ok (next, m₁))
    (hrest : drain c u fuel m₁.takeOverflow.2 = .ok (result, m') →
      Drains c u m₁.takeOverflow.2 (drainSteps c u fuel m₁.takeOverflow.2) result m')
    (h : (if m₁.overflow then .ok (.error .queueFull, m₁.takeOverflow.2)
      else if m₁.terminated then .ok (.ok (), m₁.takeOverflow.2)
      else drain c u fuel m₁.takeOverflow.2) = .ok (result, m')) :
    Drains c u m (m :: if m₁.overflow || m₁.terminated then []
      else drainSteps c u fuel m₁.takeOverflow.2) result m' := by
  cases ho : m₁.overflow with
  | true =>
      simp only [ho, ↓reduceIte] at h
      cases h
      exact .overflow hne h₁ ho
  | false =>
      simp only [ho, Bool.false_eq_true, ↓reduceIte] at h
      cases ht : m₁.terminated with
      | true =>
          simp only [ht, ↓reduceIte] at h
          cases h
          exact .terminated hne h₁ ho ht
      | false =>
          simp only [ht, Bool.false_eq_true, ↓reduceIte] at h
          exact .turn hne h₁ ho ht (hrest h)

theorem drain_drains : ∀ (fuel : Nat) {m m' : Machine Ev Ctx qn tn}
    {result : Except HsmcError Unit}, drain c u fuel m = .ok (result, m') →
    Drains c u m (drainSteps c u fuel m) result m'
  | 0, _, _, _, h => by cases h
  | fuel + 1, m, m', result, h => by
      unfold drain at h
      unfold drainSteps
      by_cases hq : m.queue.items.isEmpty
      · rw [if_pos hq] at h ⊢
        cases h
        exact .empty (List.isEmpty_iff.mp hq)
      · rw [if_neg hq] at h ⊢
        obtain ⟨⟨next, m₁⟩, h₁, h⟩ := Except.bind_eq_ok.mp h
        simp only [h₁]
        exact turn_drains (by simpa using hq) h₁ (drain_drains fuel) h

/-- The three ways a `dispatch` can go. -/
theorem dispatch_drains {fuel : Nat} {ev : Ev} {m m' : Machine Ev Ctx qn tn}
    {result : Except HsmcError Unit} (h : dispatch c u fuel ev m = .ok (result, m')) :
    (m.terminated = true ∧ dispatchSteps c u fuel ev m = [] ∧
      result = .error .alreadyTerminated ∧ m' = m) ∨
    (m.terminated = false ∧ m.queue.push ev = none ∧ dispatchSteps c u fuel ev m = [] ∧
      result = .error .queueFull ∧ m' = m) ∨
    ∃ queue, m.terminated = false ∧ m.queue.push ev = some queue ∧
      Drains c u { m with queue } (dispatchSteps c u fuel ev m) result m' := by
  unfold dispatch at h
  unfold dispatchSteps
  cases ht : m.terminated with
  | true =>
      rw [ht, if_pos rfl] at h
      cases h
      exact Or.inl ⟨rfl, rfl, rfl, rfl⟩
  | false =>
      rw [ht, if_neg (by decide)] at h
      rw [if_neg (by decide)]
      cases hpush : m.queue.push ev with
      | none =>
          rw [hpush] at h
          cases h
          exact Or.inr (Or.inl ⟨rfl, rfl, rfl, rfl, rfl⟩)
      | some queue =>
          refine Or.inr (Or.inr ⟨queue, rfl, rfl, ?_⟩)
          rw [hpush] at h
          simp only at h ⊢
          split at h
          · rename_i hcur
            rw [if_pos hcur]
            obtain ⟨⟨next, m₁⟩, h₁, h⟩ := Except.bind_eq_ok.mp h
            simp only [h₁]
            exact turn_drains (Bounded.ne_nil_of_push hpush) h₁ (drain_drains fuel) h
          · rename_i hcur
            rw [if_neg hcur]
            exact drain_drains fuel h

end Hsmc
