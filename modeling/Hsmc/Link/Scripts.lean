import Hsmc.Link.Timely
import Hsmc.Runtime.Scripts

/-
  What elementary calls keep, every script keeps (`Upheld`).

  A `dispatch` and a `run()` are made of steps, sends, reads of the overflow flag and changes of
  the context, so it is enough to look at those.
-/

namespace Hsmc

open Machine

variable {Ev Ctx Val : Type} {qn tn : Nat} {c : Chart} {u : UserCode Ev Ctx Val}

variable (c u) in
/-- A property of machines that every elementary call keeps. -/
structure Upheld (I : Machine Ev Ctx qn tn → Prop) : Prop where
  step : ∀ {m m'} {elapsed : Nat} {next : Option Nat}, I m →
    step c u m elapsed = .ok (next, m') → I m'
  same : ∀ {m m'}, SameCore m m' → I m → I m'

namespace Upheld

variable {I : Machine Ev Ctx qn tn → Prop} (K : Upheld c u I) {m m' : Machine Ev Ctx qn tn}
include K

theorem drains {ms : List (Machine Ev Ctx qn tn)} {result : Except HsmcError Unit}
    (h : Drains c u m ms result m') (hm : I m) : I m' := by
  induction h with
  | empty _ => exact hm
  | overflow _ h₁ _ => exact K.same (sameCore_takeOverflow _) (K.step hm h₁)
  | terminated _ h₁ _ _ => exact K.same (sameCore_takeOverflow _) (K.step hm h₁)
  | turn _ h₁ _ _ _ ih => exact ih (K.same (sameCore_takeOverflow _) (K.step hm h₁))

theorem drain {fuel : Nat} {result : Except HsmcError Unit} (hm : I m)
    (h : drain c u fuel m = .ok (result, m')) : I m' :=
  K.drains (drain_drains fuel h) hm

theorem dispatch {fuel : Nat} {ev : Ev} {result : Except HsmcError Unit} (hm : I m)
    (h : dispatch c u fuel ev m = .ok (result, m')) : I m' := by
  rcases dispatch_drains h with ⟨-, -, -, rfl⟩ | ⟨-, -, -, -, rfl⟩ | ⟨queue, ht, hpush, hd⟩
  · exact hm
  · exact hm
  · have hpushed : SameCore m { m with queue } := ⟨rfl, rfl, rfl, rfl⟩
    exact K.drains hd (K.same hpushed hm)

theorem runTurn {k : RunKind} {w : Wake Ev Ctx} {s : RunState Ev Ctx qn tn}
    {r : Running Ev Ctx qn tn} (hm : I s.machine) (h : runTurn c u k w s = .ok r) :
    I r.machine := by
  cases hs : turnStep c k w s with
  | none =>
      obtain ⟨m', hr, hm'⟩ := runTurn_of_none (u := u) hs
      rw [h] at hr
      cases hr
      have htake := K.same (sameCore_takeOverflow _) hm
      rcases hm' with rfl | rfl | rfl
      · exact hm
      · exact htake
      · exact K.same (sameCore_pollDurings _ _).1 htake
  | some p =>
      obtain ⟨m, elapsed⟩ := p
      rw [runTurn_of_step hs] at h
      obtain ⟨⟨next, m'⟩, hstep, h⟩ := Except.bind_eq_ok.mp h
      cases h
      exact K.step (K.same (turnStep_prepared hs).1.same hm) hstep

theorem runLoop {k : RunKind} : ∀ {wakes : List (Wake Ev Ctx)}
    {r r' : Running Ev Ctx qn tn}, I r.machine → runLoop c u k wakes r = .ok r' →
    I r'.machine
  | [], .looping _, _, hm, h | [], .returned _ _, _, hm, h | _ :: _, .returned _ _, _, hm, h => by
      cases h
      exact hm
  | w :: wakes, .looping s, r', hm, h => by
      unfold Hsmc.runLoop at h
      obtain ⟨r₁, hturn, h⟩ := Except.bind_eq_ok.mp h
      exact runLoop (K.runTurn hm hturn) h

theorem run {k : RunKind} {now : Nat} {wakes : List (Wake Ev Ctx)}
    {r : Running Ev Ctx qn tn} (hm : I m) (h : run c u k now wakes m = .ok r) :
    I r.machine := by
  unfold Hsmc.run at h
  obtain ⟨r₁, hstart, h⟩ := Except.bind_eq_ok.mp h
  refine K.runLoop ?_ h
  rcases runStart_cases hstart with ⟨-, rfl⟩ | ⟨next, m₁, -, hstep, ⟨-, rfl⟩ | ⟨-, rfl⟩⟩
  · exact hm
  · exact K.same (sameCore_takeOverflow _) (K.step hm hstep)
  · exact K.step hm hstep

theorem perform {call : Call Ev Ctx} {answer : Answer} (hm : I m)
    (h : perform c u call m = .ok (answer, m')) : I m' := by
  unfold Hsmc.perform at h
  cases call with
  | step elapsed =>
      obtain ⟨⟨next, m₁⟩, hstep, h⟩ := Except.bind_eq_ok.mp h
      cases h
      exact K.step hm hstep
  | send ev =>
      cases h
      exact K.same (sameCore_send ev m) hm
  | dispatch fuel ev =>
      obtain ⟨⟨result, m₁⟩, hd, h⟩ := Except.bind_eq_ok.mp h
      cases h
      exact K.dispatch hm hd
  | run k now wakes =>
      obtain ⟨r, hr, h⟩ := Except.bind_eq_ok.mp h
      have hr := K.run hm hr
      cases r with
      | returned result m₁ =>
          cases h
          exact hr
      | looping s =>
          cases h
          exact hr
  | takeOverflow =>
      cases h
      exact K.same (sameCore_takeOverflow m) hm
  | contextMut f =>
      cases h
      exact K.same (sameCore_ctx f m) hm

theorem performAll : ∀ {calls : List (Call Ev Ctx)} {answers : List Answer}
    {m m' : Machine Ev Ctx qn tn}, I m → performAll c u calls m = .ok (answers, m') → I m'
  | [], _, _, _, hm, h => by
      cases h
      exact hm
  | call :: calls, _, _, _, hm, h => by
      unfold Hsmc.performAll at h
      obtain ⟨⟨answer, m₁⟩, h₁, h⟩ := Except.bind_eq_ok.mp h
      obtain ⟨⟨answers, m₂⟩, h₂, h⟩ := Except.bind_eq_ok.mp h
      cases h
      exact performAll (K.perform hm h₁) h₂

end Upheld

end Hsmc
