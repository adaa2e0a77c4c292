import Hsmc.Link.Drain
import Hsmc.Link.Loop
import Hsmc.Runtime.Drives

/-
  A machine that serves its queue before it takes the next event.

  `Served evs m m'` is the common shape of the drives by `dispatch` and by `run()`: while the
  queue holds something it is stepped, and once it is empty the next of `evs` is pushed.
  `dispatchAll` serves from the fresh machine on (`byDispatch_iff_served`), `run()` from the
  machine that its first step leaves (`served_of_runLoop`, `runLoop_of_served`).
-/

namespace Hsmc

open Machine

variable {Ev Ctx Val : Type} {qn tn : Nat}

/-- The events of `evs` are served from `m` on, with nothing refused, and leave `m'`. -/
inductive Served (c : Chart) (u : UserCode Ev Ctx Val) : List Ev → Machine Ev Ctx qn tn →
    Machine Ev Ctx qn tn → Prop where
  | done {evs : List Ev} {m : Machine Ev Ctx qn tn} : m.terminated = true → Served c u evs m m
  | idle {m : Machine Ev Ctx qn tn} : m.terminated = false → m.queue.items = [] →
      Served c u [] m m
  | turn {evs : List Ev} {m m₁ m' : Machine Ev Ctx qn tn} {next : Option Nat} :
      m.terminated = false → m.queue.items ≠ [] → step c u m 0 = .ok (next, m₁) →
      m₁.overflow = false → Served c u evs m₁ m' → Served c u evs m m'
  | take {ev : Ev} {evs : List Ev} {m m' : Machine Ev Ctx qn tn} {queue : Bounded Ev qn} :
      m.terminated = false → m.queue.items = [] → m.queue.push ev = some queue →
      Served c u evs { m with queue } m' → Served c u (ev :: evs) m m'

variable {c : Chart} {u : UserCode Ev Ctx Val}

theorem Served.eq_of_terminated {evs : List Ev} {m m' : Machine Ev Ctx qn tn}
    (h : Served c u evs m m') (ht : m.terminated = true) : m' = m := by
  cases h with
  | done _ => rfl
  | idle ht' _ => rfl
  | turn ht' _ _ _ _ =>
      rw [ht] at ht'
      cases ht'
  | take ht' _ _ _ =>
      rw [ht] at ht'
      cases ht'

/-- A running machine whose queue holds something is stepped. -/
theorem Served.turn_inv {evs : List Ev} {m m' : Machine Ev Ctx qn tn} (h : Served c u evs m m')
    (ht : m.terminated = false) (hq : m.queue.items ≠ []) : ∃ next m₁,
      step c u m 0 = .ok (next, m₁) ∧ m₁.overflow = false ∧ Served c u evs m₁ m' := by
  cases h with
  | done ht' =>
      rw [ht] at ht'
      cases ht'
  | idle _ hq' => exact absurd hq' hq
  | turn _ _ hstep ho h => exact ⟨_, _, hstep, ho, h⟩
  | take _ hq' _ _ => exact absurd hq' hq

/-- One whose queue is empty takes the next event. -/
theorem Served.take_inv {ev : Ev} {evs : List Ev} {m m' : Machine Ev Ctx qn tn}
    (h : Served c u (ev :: evs) m m') (ht : m.terminated = false) (hq : m.queue.items = []) :
    ∃ queue, m.queue.push ev = some queue ∧ Served c u evs { m with queue } m' := by
  cases h with
  | done ht' =>
      rw [ht] at ht'
      cases ht'
  | turn _ hq' _ _ _ => exact absurd hq hq'
  | take _ _ hpush h => exact ⟨_, hpush, h⟩

/-- Serving leaves one machine. -/
theorem Served.unique {evs : List Ev} {m m' m'' : Machine Ev Ctx qn tn}
    (h : Served c u evs m m') (h' : Served c u evs m m'') : m'' = m' := by
  induction h with
  | done ht => exact h'.eq_of_terminated ht
  | idle ht hq =>
      cases h' with
      | done _ => rfl
      | idle _ _ => rfl
      | turn _ hq' _ _ _ => exact absurd hq hq'
  | turn ht hq hstep _ _ ih =>
      obtain ⟨next, m₂, hstep', -, h'⟩ := h'.turn_inv ht hq
      rw [hstep] at hstep'
      cases hstep'
      exact ih h'
  | take ht hq hpush _ ih =>
      obtain ⟨queue, hpush', h'⟩ := h'.take_inv ht hq
      rw [hpush] at hpush'
      cases hpush'
      exact ih h'

/-! ## Serving by `dispatch` -/

/-- A drain without a refusal serves the queue, and ends with the machine at rest. -/
theorem Drains.served {m m' : Machine Ev Ctx qn tn} {ms : List (Machine Ev Ctx qn tn)}
    {result : Except HsmcError Unit} (h : Drains c u m ms result m')
    (hr : result ≠ .error .queueFull) (ht : m.terminated = false) (ho : m.overflow = false) :
    m'.overflow = false ∧ (m'.terminated = true ∨ m'.queue.items = []) ∧
      ∀ {evs : List Ev} {m'' : Machine Ev Ctx qn tn}, Served c u evs m' m'' →
        Served c u evs m m'' := by
  induction h with
  | empty hq => exact ⟨ho, Or.inr hq, fun h => h⟩
  | overflow _ _ _ => exact absurd rfl hr
  | terminated hq h₁ ho₁ ht₁ =>
      simp only [takeOverflow_of_clear ho₁]
      exact ⟨ho₁, Or.inl ht₁, .turn ht hq h₁ ho₁⟩
  | turn hq h₁ ho₁ ht₁ _ ih =>
      rw [takeOverflow_of_clear ho₁] at ih
      obtain ⟨ho', hrest, hs⟩ := ih hr ht₁ ho₁
      exact ⟨ho', hrest, fun h => .turn ht hq h₁ ho₁ (hs h)⟩

/-- Serving begins with a drain. -/
theorem Served.drains {evs : List Ev} {m m'' : Machine Ev Ctx qn tn}
    (h : Served c u evs m m'') (ht : m.terminated = false) :
    ∃ ms m', Drains c u m ms (.ok ()) m' ∧ Served c u evs m' m'' := by
  induction h with
  | done ht' =>
      rw [ht] at ht'
      cases ht'
  | idle ht' hq => exact ⟨[], _, .empty hq, .idle ht' hq⟩
  | take ht' hq hpush hs _ => exact ⟨[], _, .empty hq, .take ht' hq hpush hs⟩
  | @turn evs m m₁ m'' next _ hq h₁ ho₁ hs ih =>
      cases ht₁ : m₁.terminated with
      | true =>
          refine ⟨[m], m₁, ?_, hs⟩
          have := Drains.terminated hq h₁ ho₁ ht₁
          rwa [takeOverflow_of_clear ho₁] at this
      | false =>
          obtain ⟨ms, m', hd, hs'⟩ := ih ht₁
          refine ⟨m :: ms, m', .turn hq h₁ ho₁ ht₁ ?_, hs'⟩
          rwa [takeOverflow_of_clear ho₁]

/-- A drain with fuel for its steps. -/
theorem drain_of_drains {m m' : Machine Ev Ctx qn tn} {ms : List (Machine Ev Ctx qn tn)}
    {result : Except HsmcError Unit} (h : Drains c u m ms result m') :
    ∀ fuel, ms.length < fuel → drain c u fuel m = .ok (result, m') := by
  induction h with
  | empty hq =>
      intro fuel hlt
      obtain ⟨fuel, rfl⟩ := Nat.exists_eq_add_one_of_ne_zero (Nat.ne_of_gt hlt)
      unfold drain
      rw [if_pos (by simp [hq])]
  | overflow hq h₁ ho₁ =>
      intro fuel hlt
      obtain ⟨fuel, rfl⟩ := Nat.exists_eq_add_one_of_ne_zero (Nat.ne_of_gt (Nat.zero_lt_of_lt hlt))
      unfold drain
      rw [if_neg (by simpa using hq), h₁, Except.ok_bind_eq]
      simp [takeOverflow, ho₁]
  | terminated hq h₁ ho₁ ht₁ =>
      intro fuel hlt
      obtain ⟨fuel, rfl⟩ := Nat.exists_eq_add_one_of_ne_zero (Nat.ne_of_gt (Nat.zero_lt_of_lt hlt))
      unfold drain
      rw [if_neg (by simpa using hq), h₁, Except.ok_bind_eq]
      simp [takeOverflow, ho₁, ht₁]
  | turn hq h₁ ho₁ ht₁ _ ih =>
      intro fuel hlt
      obtain ⟨fuel, rfl⟩ := Nat.exists_eq_add_one_of_ne_zero (Nat.ne_of_gt (Nat.zero_lt_of_lt hlt))
      unfold drain
      rw [if_neg (by simpa using hq), h₁, Except.ok_bind_eq]
      simp only [takeOverflow, ho₁, Bool.false_eq_true, ↓reduceIte]
      rw [if_neg (by simp [ht₁])]
      exact ih fuel (by simpa using hlt)

/-- The call whose push succeeds is the drain of the pushed event, start-up included. -/
theorem dispatch_of_drains {ev : Ev} {m m' : Machine Ev Ctx qn tn} {queue : Bounded Ev qn}
    {ms : List (Machine Ev Ctx qn tn)} {result : Except HsmcError Unit}
    (ht : m.terminated = false) (hpush : m.queue.push ev = some queue)
    (h : Drains c u { m with queue } ms result m') (fuel : Nat) (hlt : ms.length < fuel) :
    dispatch c u fuel ev m = .ok (result, m') := by
  have hne := Bounded.ne_nil_of_push hpush
  unfold dispatch
  rw [if_neg (by simp [ht]), hpush]
  simp only
  split
  · cases h with
    | empty hq => exact absurd hq hne
    | overflow _ h₁ ho₁ =>
        rw [h₁, Except.ok_bind_eq]
        simp [takeOverflow, ho₁]
    | terminated _ h₁ ho₁ ht₁ =>
        rw [h₁, Except.ok_bind_eq]
        simp [takeOverflow, ho₁, ht₁]
    | turn _ h₁ ho₁ ht₁ hd =>
        rw [h₁, Except.ok_bind_eq]
        simp only [takeOverflow, ho₁, Bool.false_eq_true, ↓reduceIte]
        rw [if_neg (by simp [ht₁])]
        exact drain_of_drains hd fuel (by simp at hlt; omega)
  · exact drain_of_drains h fuel hlt

/-- On a terminated machine every further call reports `AlreadyTerminated`. -/
theorem dispatchAll_of_terminated {m : Machine Ev Ctx qn tn} (ht : m.terminated = true)
    (fuel : Nat) : ∀ evs : List Ev, dispatchAll c u fuel evs m = .ok (false, m)
  | [] => rfl
  | ev :: evs => by
      unfold dispatchAll dispatch
      rw [if_pos ht, Except.ok_bind_eq]
      simp only [dispatchAll_of_terminated ht fuel evs, Except.ok_bind_eq]
      rfl

theorem served_of_dispatchAll {fuel : Nat} : ∀ {evs : List Ev} {m m' : Machine Ev Ctx qn tn},
    m.overflow = false → m.terminated = true ∨ m.queue.items = [] →
    dispatchAll c u fuel evs m = .ok (false, m') → Served c u evs m m'
  | [], m, _, _, hrest, h => by
      cases h
      cases ht : m.terminated with
      | true => exact .done ht
      | false => exact .idle ht (hrest.resolve_left (by simp [ht]))
  | ev :: evs, m, m', ho, hrest, h => by
      unfold dispatchAll at h
      obtain ⟨⟨result, m₁⟩, h₁, h⟩ := Except.bind_eq_ok.mp h
      obtain ⟨⟨full, m₂⟩, h₂, h⟩ := Except.bind_eq_ok.mp h
      obtain ⟨hr, rfl, rfl⟩ : result ≠ .error .queueFull ∧ full = false ∧ m₂ = m' := by
        simpa [and_assoc] using h
      rcases dispatch_drains h₁ with ⟨ht, -, -, rfl⟩ | ⟨-, -, -, rfl, -⟩ | ⟨queue, ht, hpush, hd⟩
      · rw [dispatchAll_of_terminated ht] at h₂
        cases h₂
        exact .done ht
      · exact absurd rfl hr
      · obtain ⟨ho₁, hrest₁, hs⟩ := hd.served hr ht ho
        exact .take ht (hrest.resolve_left (by simp [ht])) hpush
          (hs (served_of_dispatchAll ho₁ hrest₁ h₂))

theorem dispatchAll_of_served : ∀ {evs : List Ev} {m m' : Machine Ev Ctx qn tn},
    m.overflow = false → m.terminated = true ∨ m.queue.items = [] → Served c u evs m m' →
    ∃ n, ∀ fuel, n < fuel → dispatchAll c u fuel evs m = .ok (false, m')
  | [], m, m', _, hrest, h => by
      refine ⟨0, fun fuel _ => ?_⟩
      cases h with
      | done _ => rfl
      | idle _ _ => rfl
      | turn ht hq _ _ _ => exact absurd (hrest.resolve_left (by simp [ht])) hq
  | ev :: evs, m, m', ho, hrest, h => by
      cases h with
      | done ht => exact ⟨0, fun fuel _ => dispatchAll_of_terminated ht fuel _⟩
      | turn ht hq _ _ _ => exact absurd (hrest.resolve_left (by simp [ht])) hq
      | @take _ _ _ _ queue ht hq hpush hs =>
          obtain ⟨ms, m₁, hd, hs₁⟩ := hs.drains ht
          obtain ⟨ho₁, hrest₁, -⟩ := hd.served (by decide) ht ho
          obtain ⟨n, hn⟩ := dispatchAll_of_served ho₁ hrest₁ hs₁
          refine ⟨max ms.length n, fun fuel hlt => ?_⟩
          unfold dispatchAll
          rw [dispatch_of_drains ht hpush hd fuel (by omega), Except.ok_bind_eq]
          simp only [hn fuel (by omega), Except.ok_bind_eq]
          rfl

theorem byDispatch_iff_served {evs : List Ev} {m m' : Machine Ev Ctx qn tn}
    (ho : m.overflow = false) (hq : m.queue.items = []) :
    ByDispatch c u evs m m' ↔ Served c u evs m m' := by
  constructor
  · rintro ⟨fuel, h⟩
    exact served_of_dispatchAll ho (Or.inr hq) h
  · intro h
    obtain ⟨n, hn⟩ := dispatchAll_of_served ho (Or.inr hq) h
    exact ⟨n + 1, hn (n + 1) (Nat.lt_succ_self n)⟩

/-! ## Charts without timers and durings -/

section

variable (hno : c.hasTimers = false)
include hno

theorem decrementTimers_of_no_timers (elapsed : Nat) (m : Machine Ev Ctx qn tn) :
    decrementTimers c elapsed m = m := by
  unfold decrementTimers
  rw [if_neg (by simp [hno])]

theorem popTimer_of_no_timers (m : Machine Ev Ctx qn tn) : popTimer c m = none := by
  unfold popTimer
  rw [if_neg (by simp [hno])]

/-- Without timers the time that passes is of no account. -/
theorem step_elapsed (elapsed : Nat) (m : Machine Ev Ctx qn tn) :
    step c u m elapsed = step c u m 0 := by
  unfold step
  rw [decrementTimers_of_no_timers hno, decrementTimers_of_no_timers hno]

end

theorem started_of_step (S : c.Sound) {m m' : Machine Ev Ctx qn tn} {elapsed : Nat}
    {next : Option Nat} (hv : m.Valid c) (h : step c u m elapsed = .ok (next, m')) :
    m'.Valid c ∧ (m'.terminated = false → m'.current.isSome) := by
  have hs := step_spec_of_ok S hv h
  refine ⟨hs.valid, fun ht' => ?_⟩
  cases hs.outcome with
  | halted ht he =>
      rw [he, ht] at ht'
      cases ht'
  | started _ _ _ hcur' _ => exact hcur'
  | fired _ _ _ _ _ _ _ _ hcur' _ => exact hcur'
  | idle _ hcur _ _ he => simpa [he] using hcur
  | handled _ _ _ _ _ _ _ _ _ hcur' _ => exact hcur'
  | terminated _ _ _ _ _ _ _ ht _ _ _ =>
      rw [ht] at ht'
      cases ht'

/-! ## Serving by `run()` -/

section

variable (hraces : c.activeDurings = [])

section

include hraces

theorem pollDurings_of_no_durings (f : Ctx → Ctx) (m : Machine Ev Ctx qn tn) :
    pollDurings c f m = m := by
  unfold pollDurings Chart.raceDurings Chart.arm
  cases m.current <;> simp [hraces]

variable {k : RunKind} {w : Wake Ev Ctx} {s : RunState Ev Ctx qn tn}

/-- A turn without a step returns the machine as it found it. -/
theorem runTurn_of_rest (ho : s.machine.overflow = false) (h : turnStep c k w s = none) :
    ∃ result, runTurn c u k w s = .ok (.returned result s.machine) := by
  obtain ⟨m', hturn, hm⟩ := runTurn_of_none (u := u) h
  have hsame : m' = s.machine := by
    rw [takeOverflow_of_clear ho, pollDurings_of_no_durings hraces] at hm
    simpa using hm
  exact ⟨_, hsame ▸ hturn⟩

end

variable {k : RunKind} {w : Wake Ev Ctx} {s : RunState Ev Ctx qn tn}

section

variable (ht : s.machine.terminated = false) (ho : s.machine.overflow = false)
include ht ho

/-- A turn on a queue that holds something steps the machine as it is. -/
theorem turn_of_waiting (hq : s.machine.queue.items ≠ []) : turnWins c k w s = none ∧
    turnStep c k w s = some (s.machine, k.elapsed (w.now - s.lastInstant)) := by
  have hne : s.machine.queue.items.isEmpty = false := by simpa using hq
  constructor
  · simp [turnWins, turnRaces, hne]
  · simp [turnStep, ht, ho, takeOverflow_of_clear ho, hne]

section

variable (hk : k.channel = true) (hq : s.machine.queue.items = [])
include hk hq

theorem turnRaces_of_empty : turnRaces c k s = true := by
  simp [turnRaces, ht, ho, hq, hk]

include hraces

/-- One on an empty queue steps the machine with the event that the race gave. -/
theorem turn_of_event {ev : Ev} (hr : w.race = .event ev) : turnWins c k w s = some ev ∧
    turnStep c k w s =
      some ({ s.machine with queue := (s.machine.queue.push ev).getD s.machine.queue },
        k.elapsed (w.now - s.lastInstant)) := by
  unfold turnWins turnStep
  rw [if_pos (turnRaces_of_empty ht ho hk hq)]
  simp [ht, ho, takeOverflow_of_clear ho, pollDurings_of_no_durings hraces, hq, hk, hr]

/-- If the race gave none, it steps the machine as it is or ends the loop. -/
theorem turn_of_no_event (hr : ¬ ∃ ev, w.race = .event ev) : turnWins c k w s = none ∧
    (turnStep c k w s = none ∨
      turnStep c k w s = some (s.machine, k.elapsed (w.now - s.lastInstant))) := by
  unfold turnWins turnStep
  rw [if_pos (turnRaces_of_empty ht ho hk hq)]
  simp only [ht, ho, takeOverflow_of_clear ho, pollDurings_of_no_durings hraces, hq, hk,
    List.isEmpty_nil, Bool.or_self, Bool.not_true, Bool.false_and, Bool.true_and,
    Bool.false_eq_true, ↓reduceIte]
  cases hw : w.race with
  | event ev => exact absurd ⟨ev, hw⟩ hr
  | channelClosed =>
      refine ⟨rfl, ?_⟩
      simp only
      split
      · exact Or.inl rfl
      · exact Or.inr rfl
  | timer => exact ⟨rfl, Or.inr rfl⟩

end

end

theorem runLoop_eq_of_step {ws : List (Wake Ev Ctx)} {m : Machine Ev Ctx qn tn} {elapsed : Nat}
    (h : turnStep c k w s = some (m, elapsed)) : runLoop c u k (w :: ws) (.looping s) =
      step c u m elapsed >>= fun p =>
        runLoop c u k ws (.looping { machine := p.2, next := p.1, lastInstant := w.now }) := by
  rw [runLoop, runTurn_of_step h, bind_assoc]
  rfl

theorem loopPushes_of_step {ws : List (Wake Ev Ctx)} {m m₁ : Machine Ev Ctx qn tn}
    {elapsed : Nat} {next : Option Nat} (h : turnStep c k w s = some (m, elapsed))
    (hstep : step c u m elapsed = .ok (next, m₁)) : loopPushes c u k (w :: ws) s =
      ((turnWins c k w s).map fun ev => (ev, (s.machine.queue.push ev).isSome)).toList ++
        loopPushes c u k ws { machine := m₁, next, lastInstant := w.now } := by
  rw [loopPushes]
  simp only [h, hstep]

omit hraces in
theorem Received.take {ev : Ev} {taken t : Bool} {evs : List Ev} {pushes : List (Ev × Bool)}
    (h : Received evs ((ev, taken) :: pushes) t) :
    taken = true ∧ ∃ evs', evs = ev :: evs' ∧ Received evs' pushes t := by
  obtain ⟨rest, hrest⟩ := h.order
  refine ⟨h.pushed _ List.mem_cons_self, pushes.map (·.1) ++ rest, hrest.symm,
    List.prefix_append _ _, fun p hp => h.pushed p (List.mem_cons_of_mem _ hp), fun ht => ?_⟩
  have hall := h.all ht
  rw [← hrest, List.map_cons, List.cons_append] at hall
  exact (List.cons.inj hall).2

include hraces in
/-- The turn in which the loop returns finds everything served. -/
theorem served_of_rest (hk : k.channel = true) {ws : List (Wake Ev Ctx)} {evs : List Ev}
    {m' : Machine Ev Ctx qn tn} (hturn : turnStep c k w s = none)
    (h : runLoop c u k (w :: ws) (.looping s) = .ok (.returned (.ok ()) m'))
    (ho' : m'.overflow = false)
    (hrec : Received evs (loopPushes c u k (w :: ws) s) m'.terminated) :
    s.machine.overflow = false ∧ Served c u evs s.machine m' := by
  have hresult := runLoop_of_none hturn h
  have hpushes : loopPushes c u k (w :: ws) s =
      ((turnWins c k w s).map fun ev => (ev, (s.machine.queue.push ev).isSome)).toList := by
    rw [loopPushes]
    simp only [hturn, List.append_nil]
  rw [runLoop] at h
  cases ht : s.machine.terminated with
  | true =>
      rw [runTurn, if_pos ht, Except.ok_bind_eq, runLoop_returned] at h
      cases h
      exact ⟨ho', .done ht⟩
  | false =>
      have ho : s.machine.overflow = false := by
        by_contra ho
        rw [if_pos ⟨ht, by simpa using ho⟩] at hresult
        cases hresult
      obtain ⟨result, hreturn⟩ := runTurn_of_rest (u := u) hraces ho hturn
      rw [hreturn, Except.ok_bind_eq, runLoop_returned] at h
      cases h
      refine ⟨ho, ?_⟩
      by_cases hq : s.machine.queue.items = []
      · by_cases hr : ∃ ev, w.race = .event ev
        · obtain ⟨ev, hr⟩ := hr
          rw [(turn_of_event hraces ht ho hk hq hr).2] at hturn
          cases hturn
        · -- the channel was found closed, so it had given everything
          rw [(turn_of_no_event hraces ht ho hk hq hr).1] at hpushes
          have hall := hrec.all ht
          rw [hpushes] at hall
          rw [← hall]
          exact .idle ht hq
      · rw [(turn_of_waiting (c := c) (k := k) (w := w) ht ho hq).2] at hturn
        cases hturn

include hraces in
/-- A loop that returns without an error, and without an emit refused, has served what came out
    of the channel. -/
theorem served_of_runLoop (S : c.Sound) (hno : c.hasTimers = false) (hk : k.channel = true) :
    ∀ {ws : List (Wake Ev Ctx)} {s : RunState Ev Ctx qn tn} {evs : List Ev}
      {m' : Machine Ev Ctx qn tn}, s.machine.Valid c →
    (s.machine.terminated = false → s.machine.current.isSome) →
    runLoop c u k ws (.looping s) = .ok (.returned (.ok ()) m') → m'.overflow = false →
    Received evs (loopPushes c u k ws s) m'.terminated →
    s.machine.overflow = false ∧ Served c u evs s.machine m'
  | [], _, _, _, _, _, h, _, _ => by cases h
  | w :: ws, s, evs, m', hv, hcur, h, ho', hrec => by
      cases hturn : turnStep c k w s with
      | none => exact served_of_rest hraces hk hturn h ho' hrec
      | some p =>
          obtain ⟨m, elapsed⟩ := p
          obtain ⟨hprep, -⟩ := turnStep_prepared hturn
          have ht := hprep.running
          have ho := hprep.clear
          obtain ⟨next, m₁, hstep, -, h⟩ := runLoop_of_step hturn h
          obtain ⟨hv₁, hcur₁⟩ := started_of_step S (hprep.same.valid hv) hstep
          rw [loopPushes_of_step hturn hstep] at hrec
          rw [step_elapsed hno] at hstep
          refine ⟨ho, ?_⟩
          by_cases hq : s.machine.queue.items = []
          · by_cases hr : ∃ ev, w.race = .event ev
            · obtain ⟨ev, hr⟩ := hr
              obtain ⟨hwin, hturn'⟩ := turn_of_event hraces ht ho hk hq hr
              rw [hwin] at hrec
              obtain ⟨hpush, evs', rfl, hrest⟩ := Received.take hrec
              obtain ⟨queue, hpush⟩ := Option.isSome_iff_exists.mp hpush
              rw [hturn', hpush] at hturn
              cases hturn
              obtain ⟨ho₁, hs⟩ := served_of_runLoop S hno hk hv₁ hcur₁ h ho' hrest
              exact .take ht hq hpush (.turn ht (Bounded.ne_nil_of_push hpush) hstep ho₁ hs)
            · -- the race gave nothing: the step finds nothing to do
              obtain ⟨hwin, hturn'⟩ := turn_of_no_event hraces ht ho hk hq hr
              rw [hwin] at hrec
              rw [hturn'.resolve_left (by simp [hturn])] at hturn
              cases hturn
              obtain ⟨-, hs⟩ := served_of_runLoop S hno hk hv₁ hcur₁ h ho' hrec
              obtain ⟨cur, hcur⟩ := Option.isSome_iff_exists.mp (hcur ht)
              rw [step_of_idle ht hcur (popTimer_of_no_timers hno _)
                (Bounded.popFront_eq_none_iff.mpr hq), decrementTimers_of_no_timers hno] at hstep
              cases hstep
              exact hs
          · obtain ⟨hwin, hturn'⟩ := turn_of_waiting (c := c) (k := k) (w := w) ht ho hq
            rw [hwin] at hrec
            rw [hturn'] at hturn
            cases hturn
            obtain ⟨ho₁, hs⟩ := served_of_runLoop S hno hk hv₁ hcur₁ h ho' hrec
            exact .turn ht hq hstep ho₁ hs

omit hraces in
theorem Received.cons {t : Bool} {evs : List Ev} {pushes : List (Ev × Bool)} (ev : Ev)
    (h : Received evs pushes t) : Received (ev :: evs) ((ev, true) :: pushes) t where
  order := List.cons_prefix_cons.mpr ⟨rfl, h.order⟩
  pushed := List.forall_mem_cons.mpr ⟨rfl, h.pushed⟩
  all ht := congrArg (ev :: ·) (h.all ht)

include hraces in
/-- What ends with the machine terminated is served by some course of the loop. -/
theorem runLoop_of_served (hno : c.hasTimers = false) (hk : k.channel = true) {evs : List Ev}
    {m m' : Machine Ev Ctx qn tn} (h : Served c u evs m m') :
    ∀ (next : Option Nat) (lastInstant : Nat), m.overflow = false → m'.terminated = true →
      m'.overflow = false ∧ ∃ w ws, runLoop c u k (w :: ws) (.looping ⟨m, next, lastInstant⟩) =
          .ok (.returned (.ok ()) m') ∧
        Received evs (loopPushes c u k (w :: ws) ⟨m, next, lastInstant⟩) true := by
  induction h with
  | @done evs m ht =>
      intro next lastInstant ho _
      have hturn : turnStep c k ⟨id, .timer, 0⟩ ⟨m, next, lastInstant⟩ = none :=
        turnStep_eq_none_of (Or.inl ht)
      refine ⟨ho, ⟨id, .timer, 0⟩, [], ?_, ?_⟩
      · rw [runLoop, runTurn, if_pos ht]
        rfl
      · rw [loopPushes]
        simp only [hturn, turnWins, turnRaces, ht]
        exact ⟨List.nil_prefix, by simp, by simp⟩
  | idle ht _ =>
      intro next lastInstant _ ht'
      rw [ht] at ht'
      cases ht'
  | @turn evs m m₁ m' next₁ ht hq hstep ho₁ _ ih =>
      intro next lastInstant ho ht'
      obtain ⟨ho', w, ws, hrun, hrec⟩ := ih next₁ 0 ho₁ ht'
      obtain ⟨hwin, hturn⟩ := turn_of_waiting (c := c) (k := k) (w := ⟨id, .timer, 0⟩)
        (s := ⟨m, next, lastInstant⟩) ht ho hq
      rw [← step_elapsed hno (k.elapsed (0 - lastInstant))] at hstep
      refine ⟨ho', ⟨id, .timer, 0⟩, w :: ws, ?_, ?_⟩
      · rw [runLoop_eq_of_step hturn, hstep]
        exact hrun
      · rw [loopPushes_of_step hturn hstep, hwin]
        exact hrec
  | @take ev evs m m' queue ht hq hpush _ ih =>
      intro next lastInstant ho ht'
      obtain ⟨ho', w, ws, hrun, hrec⟩ := ih next lastInstant ho ht'
      -- the turn that steps the pushed event is the turn that pushes it
      obtain ⟨hwin, hturn⟩ := turn_of_waiting (c := c) (k := k) (w := w)
        (s := ⟨{ m with queue }, next, lastInstant⟩) ht ho (Bounded.ne_nil_of_push hpush)
      obtain ⟨hwin', hturn'⟩ := turn_of_event (c := c) (k := k)
        (w := { w with race := .event ev }) (s := ⟨m, next, lastInstant⟩) hraces ht ho hk hq rfl
      simp only [hpush, Option.getD_some] at hturn'
      rw [runLoop_eq_of_step hturn] at hrun
      obtain ⟨⟨next₁, m₁⟩, hstep, hrun⟩ := Except.bind_eq_ok.mp hrun
      rw [loopPushes_of_step hturn hstep, hwin] at hrec
      refine ⟨ho', { w with race := .event ev }, ws, ?_, ?_⟩
      · rw [runLoop_eq_of_step hturn', hstep]
        exact hrun
      · rw [loopPushes_of_step hturn' hstep, hwin']
        simp only [Option.map_some, hpush, Option.isSome_some]
        exact hrec.cons ev

/-! ## The call -/

/-- A `run()` that returned without an error serves from the machine that its first step left. -/
theorem ByRun.served (S : c.Sound) (hraces : c.activeDurings = []) (hno : c.hasTimers = false)
    (hk : k.channel = true) {evs : List Ev} {m m' : Machine Ev Ctx qn tn} (hv : m.Valid c)
    (h : ByRun c u k evs m m') : ∃ next m₁, step c u m 0 = .ok (next, m₁) ∧
      m₁.overflow = false ∧ Served c u evs m₁ m' := by
  obtain ⟨now, wakes, hrun, ho', hrec⟩ := h
  obtain ⟨r, hstart, hrun⟩ := Except.bind_eq_ok.mp hrun
  unfold runPushes at hrec
  rw [hstart] at hrec
  rcases runStart_cases hstart with ⟨-, rfl⟩ | ⟨next, m₁, -, hstep, ⟨-, rfl⟩ | ⟨ho₁, rfl⟩⟩
  · rw [runLoop_returned] at hrun
    cases hrun
  · rw [runLoop_returned] at hrun
    cases hrun
  · obtain ⟨hv₁, hcur₁⟩ := started_of_step S hv hstep
    exact ⟨next, m₁, hstep, ho₁,
      (served_of_runLoop hraces S hno hk hv₁ hcur₁ hrun ho' hrec).2⟩

theorem byRun_of_served (hraces : c.activeDurings = []) (hno : c.hasTimers = false)
    (hk : k.channel = true) {evs : List Ev} {m m₁ m' : Machine Ev Ctx qn tn} {next : Option Nat}
    (ht : m.terminated = false) (hstep : step c u m 0 = .ok (next, m₁)) (ho₁ : m₁.overflow = false)
    (h : Served c u evs m₁ m') (ht' : m'.terminated = true) : ByRun c u k evs m m' := by
  obtain ⟨ho', w, ws, hrun, hrec⟩ := runLoop_of_served hraces hno hk h next 0 ho₁ ht'
  have hstart : runStart c u 0 m = .ok (.looping ⟨m₁, next, 0⟩) := by
    unfold runStart
    rw [if_neg (by simp [ht]), hstep, Except.ok_bind_eq]
    simp only [takeOverflow_of_clear ho₁, Bool.false_eq_true, ↓reduceIte]
  refine ⟨0, w :: ws, ?_, ho', ?_⟩
  · rw [run, hstart]
    exact hrun
  · rw [runPushes, hstart, ht']
    exact hrec

end

end Hsmc
