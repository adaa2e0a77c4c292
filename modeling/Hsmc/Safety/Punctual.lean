import Hsmc.Safety.Frame
import Hsmc.Safety.Wakes

/-
  Timers of a loop that does not oversleep.

  The loop sleeps until the next timer is due. When no wake comes later than that
  (`InTime`), the clock and the table agree on every live timer (`Charged`), so none is overdue,
  and every timer fires at the reading at which its duration has run (`fires_in_time`).
-/

namespace Hsmc

open Machine

variable {Ev Ctx Val : Type} {qn tn : Nat} {input : StatechartInput} {c : Chart}
  {u : UserCode Ev Ctx Val} {k : RunKind} {w : Wake Ev Ctx}

/-! ## What a step leaves of an entry -/

theorem mem_decrementTimers (S : c.Sound) {m : Machine Ev Ctx qn tn} {elapsed : Nat}
    (hok : (m.core c).TimersOk c) {e : TimerEntry}
    (he : e ∈ (decrementTimers c elapsed m).timers.entries.items) : ∃ e₀ ∈ m.timers.entries.items,
      e = { e₀ with remainingNs := e₀.remainingNs - asU64 elapsed } := by
  rw [timers_decrementTimers] at he
  split at he
  · exact TimerTable.mem_decrement.mp he
  · rename_i hno
    exact absurd (S.hasTimers_of_owned (hok.owned _ (TimerTable.key_mem_keys he)).2) hno

/-- An entry after a step was armed by it, or was there before and has lost the time that the
    step was given. -/
theorem StepSpec.entries_exact (S : c.Sound) {m m' : Machine Ev Ctx qn tn} {elapsed : Nat}
    {w : List TraceEvent} (hs : StepSpec c u m elapsed m') (hv : m.Valid c)
    (hok : (m.core c).TimersOk c) (hj : m'.journal = m.journal ++ w) :
    ∀ e ∈ m'.timers.entries.items, Fresh c u w e ∨ (Untouched w e ∧
      ∃ e₀ ∈ m.timers.entries.items,
        e = { e₀ with remainingNs := e₀.remainingNs - asU64 elapsed }) := by
  intro e hmem
  rcases hs.entries S hok hj e hmem with hfresh | ⟨hno, e₀, he₀, -, -⟩
  · exact .inl hfresh
  · cases hcur : m.current with
    | none =>
        rw [hok.items_eq_nil hcur] at he₀
        cases he₀
    | some cur =>
        obtain ⟨w', hw, hvis⟩ := hs.run.visible
        have hw : m'.journal = m.journal ++ w' := hw
        rw [hj, List.append_cancel_left_eq] at hw
        subst hw
        have hrun := hs.run
        rw [stepActs_of_current hv hcur] at hrun hvis
        obtain ⟨w₀, d, -, htick, hrun⟩ := hrun.cons_inv
        have hokd := htick.timersOk S (a := ⟨_, _, _⟩) ⟨hok.nodup, hok.owned⟩
        rcases hrun.entries S (workActs_ne_tick _ _) hokd e hmem with ⟨⟨ns, harm⟩, -⟩ | ⟨-, hmem⟩
        · have harm : .timerArmed e.state e.trigger ns ∈ w.filter Core.visible := hvis ▸ harm
          exact absurd (timerArmed_mem_filter.mp harm) (hno ns)
        · cases htick with
          | tick =>
              have hmem : e ∈ (decrementTimers c elapsed m).timers.entries.items := by
                rw [timers_decrementTimers]
                exact hmem
              exact .inr ⟨hno, mem_decrementTimers S hok hmem⟩

/-- What remains of a live timer fits the table's `u64`. -/
theorem Reachable.remaining_lt (S : c.Sound) {m : ChartMachine c Ev Ctx qn}
    (h : Reachable c u m) : ∀ e ∈ m.timers.entries.items, e.remainingNs < 2 ^ 64 := by
  have hI : (m.core c).TimersOk c ∧
      ∀ e ∈ (m.core c).timers.entries.items, e.remainingNs < 2 ^ 64 := by
    refine h.core_invariant S (I := fun a => a.TimersOk c ∧
      ∀ e ∈ a.timers.entries.items, e.remainingNs < 2 ^ 64) ?_ ?_ ?_
    · exact ⟨Core.timersOk_initial, fun e he => by cases he⟩
    · exact fun _ _ _ _ _ hI => ⟨⟨hI.1.nodup, hI.1.owned⟩, hI.2⟩
    · intro x a b hx ⟨hok, hlt⟩
      refine ⟨hx.timersOk S hok, fun e he => ?_⟩
      by_cases htick : ∃ elapsed, x = .tick elapsed
      · obtain ⟨elapsed, rfl⟩ := htick
        cases hx with
        | tick =>
            simp only at he
            split at he
            · obtain ⟨e₀, he₀, rfl⟩ := TimerTable.mem_decrement.mp he
              exact (Nat.sub_le _ _).trans_lt (hlt e₀ he₀)
            · exact hlt e he
      · rcases hx.entries (fun elapsed hx => htick ⟨elapsed, hx⟩) hok.nodup e he with
          ⟨-, hr⟩ | ⟨-, he⟩
        · rw [hr]
          exact Nat.mod_lt _ (by decide)
        · exact hlt e he
  exact hI.2

theorem TimerTable.minRemaining_le {n : Nat} {t : TimerTable n} {e : TimerEntry}
    (he : e ∈ t.entries.items) : ∃ d, t.minRemaining = some d ∧ d ≤ e.remainingNs := by
  have hr : e.remainingNs ∈ t.entries.items.map (·.remainingNs) := List.mem_map_of_mem he
  unfold minRemaining
  cases hd : (t.entries.items.map (·.remainingNs)).min? with
  | none =>
      rw [List.min?_eq_none_iff] at hd
      rw [hd] at hr
      cases hr
  | some d => exact ⟨d, rfl, (List.min?_eq_some_iff.mp hd).2 _ hr⟩

/-! ## Loops in time -/

/-- The loop is not behind: the clock has not passed the time at which the next timer is due.
    Neither reading is rounded. -/
def InTime (k : RunKind) (s : RunState Ev Ctx qn tn) (now : Nat) : Prop :=
  k.Whole s.lastInstant ∧ k.Whole now ∧ ∀ d, s.next = some d → now ≤ s.lastInstant + d

/-- The clock and the table agree: a live timer has run for the time since the reading before it
    was armed. -/
def Charged (c : Chart) (u : UserCode Ev Ctx Val) (log : List Stamped)
    (s : RunState Ev Ctx qn tn) : Prop :=
  ∀ e ∈ s.machine.timers.entries.items, ∀ a, lastArmed log e.state e.trigger = some a →
    a.reading + durationFor c u e.trigger = s.lastInstant + e.remainingNs

/-- A timer that fires does so at the reading at which its duration has run since the reading
    before it was armed. -/
def Punctual (c : Chart) (u : UserCode Ev Ctx Val) (log : List Stamped) : Prop :=
  ∀ pre x post s t, log = pre ++ x :: post → x.event = .timerFired s t →
    ∀ a, lastArmed pre s t = some a → a.reading + durationFor c u t = x.reading

/-- A loop in time gives its step no more than what remains of any live timer. -/
theorem InTime.elapsed (S : c.Sound) {s : RunState Ev Ctx qn c.maxTimers} {now : Nat}
    (h : InTime k s now) (hloop : Looping c u k s) (ht : s.machine.terminated = false)
    (hle : s.lastInstant ≤ now) {e : TimerEntry} (he : e ∈ s.machine.timers.entries.items) :
    s.lastInstant + k.elapsed (now - s.lastInstant) = now ∧
      asU64 (k.elapsed (now - s.lastInstant)) = k.elapsed (now - s.lastInstant) ∧
      k.elapsed (now - s.lastInstant) ≤ e.remainingNs := by
  obtain ⟨hlast, hnow, hnext⟩ := h
  obtain ⟨d, hd, hmin⟩ := TimerTable.minRemaining_le he
  have hok := hloop.reachable.timers_on_path S
  have hh := S.hasTimers_of_owned (hok.owned _ (TimerTable.key_mem_keys he)).2
  have hle' := hnext d (by
    rw [(hloop.next_eq S ht).2]
    unfold minRemaining
    rw [if_pos hh, hd])
  have hlt := hloop.reachable.remaining_lt S e he
  rw [hlast.elapsed hnow]
  exact ⟨by omega, Nat.mod_eq_of_lt (by omega), by omega⟩

/-- What is live when the loop begins was armed just now, or before the log. -/
theorem charged_start (S : c.Sound) (hd : ∀ t, durationFor c u t < 2 ^ 64)
    {m : ChartMachine c Ev Ctx qn} {now : Nat} {s : RunState Ev Ctx qn c.maxTimers}
    {log : List Stamped} (hm : Reachable c u m) (hs : runStart c u now m = .ok (.looping s))
    (hj : s.machine.journal = m.journal ++ log.map Stamped.event)
    (hlog : ∀ x ∈ log, x.time ≤ now ∧ x.reading = now) :
    Charged c u log s ∧ Punctual c u log := by
  obtain ⟨-, -, hstep, hl⟩ := runStart_looping hs
  have hspec := step_spec_of_ok S (hm.valid S) hstep
  have hnone : ∀ {pre : List Stamped} {s t : Nat},
      (∀ ns, .timerArmed s t ns ∉ pre.map Stamped.event) →
      lastArmed pre s t = none := fun h => @lastArmed_append_of_not [] _ _ _ h
  refine ⟨?_, ?_⟩
  · intro e hmem a ha
    rcases hspec.entries_exact S (hm.valid S) (hm.timers_on_path S) hj e hmem with
      ⟨⟨ns, harm⟩, hr⟩ | ⟨hno, -⟩
    · have hmem := @mem_of_lastArmed_append [] log _ _ _ _ harm ha
      rw [(hlog a hmem).2, hl, hr, asU64, Nat.mod_eq_of_lt (hd _)]
    · rw [hnone hno] at ha
      cases ha
  · intro pre x post s₁ t₁ hsplit hx a ha
    have hj' : s.machine.journal =
        m.journal ++ (pre.map Stamped.event ++ .timerFired s₁ t₁ :: post.map Stamped.event) := by
      rw [hj, hsplit, List.map_append, List.map_cons, hx]
    rw [hnone ((hspec.fired_entry hj').1 s₁ t₁)] at ha
    cases ha

/-- What one turn of a loop in time does: clock and table still agree, and what fires fires when
    its duration has run. -/
theorem turn_charged (S : c.Sound) (hd : ∀ t, durationFor c u t < 2 ^ 64)
    {log new : List Stamped} {s s' : RunState Ev Ctx qn c.maxTimers} (hloop : Looping c u k s)
    (htime : InTime k s w.now) (hle : s.lastInstant ≤ w.now)
    (hturn : runTurn c u k w s = .ok (.looping s'))
    (hj : s'.machine.journal = s.machine.journal ++ new.map Stamped.event)
    (hnew : ∀ x ∈ new, w.now ≤ x.time ∧ x.reading = w.now) (hch : Charged c u log s) :
    Charged c u (log ++ new) s' ∧
      ∀ pre x post s₁ t₁, new = pre ++ x :: post → x.event = .timerFired s₁ t₁ →
        ∀ a, lastArmed (log ++ pre) s₁ t₁ = some a →
          a.reading + durationFor c u t₁ = x.reading := by
  obtain ⟨ht, m₁, hp, hstep, hl⟩ := runTurn_looping hturn
  have hm₁ := hp.reachable hloop.reachable
  have hspec := step_spec_of_ok S (hm₁.valid S) hstep
  have hok := hm₁.timers_on_path S
  rw [← hp.same.journal] at hj
  have hitems : m₁.timers.entries.items = s.machine.timers.entries.items := by
    rw [hp.same.timers]
  refine ⟨?_, ?_⟩
  · intro e hmem a ha
    rcases hspec.entries_exact S (hm₁.valid S) hok hj e hmem with
      ⟨⟨ns, harm⟩, hr⟩ | ⟨hno, e₀, he₀, rfl⟩
    · have hmem := mem_of_lastArmed_append harm ha
      rw [(hnew a hmem).2, hl, hr, asU64, Nat.mod_eq_of_lt (hd _)]
    · rw [hitems] at he₀
      obtain ⟨hnow, hround, hshort⟩ := htime.elapsed S hloop ht hle he₀
      rw [lastArmed_append_of_not hno] at ha
      have hbase := hch e₀ he₀ a ha
      simp only [hl, hround]
      omega
  · intro pre x post s₁ t₁ hsplit hx a ha
    have hj' : s'.machine.journal =
        m₁.journal ++ (pre.map Stamped.event ++ .timerFired s₁ t₁ :: post.map Stamped.event) := by
      rw [hj, hsplit, List.map_append, List.map_cons, hx]
    obtain ⟨hpre, e, he, hkey, hr⟩ := hspec.fired_entry hj'
    obtain ⟨rfl, rfl⟩ : e.state = s₁ ∧ e.trigger = t₁ := by simpa [TimerEntry.key] using hkey
    rw [hitems] at he
    obtain ⟨hnow, -, hshort⟩ := htime.elapsed S hloop ht hle he
    rw [lastArmed_append_of_not (hpre _ _)] at ha
    have hbase := hch e he a ha
    rw [(hnew x (by rw [hsplit]; simp)).2]
    omega

/-- The firings of a log are those of its parts. -/
theorem Punctual.append {log new : List Stamped} (h : Punctual c u log)
    (hnew : ∀ pre x post s t, new = pre ++ x :: post → x.event = .timerFired s t →
      ∀ a, lastArmed (log ++ pre) s t = some a → a.reading + durationFor c u t = x.reading) :
    Punctual c u (log ++ new) := by
  intro pre x post s t hsplit hx a ha
  rcases List.append_eq_append_iff.mp hsplit with ⟨pre', rfl, hnewEq⟩ | ⟨post', hlog, hpost⟩
  · exact hnew pre' x post s t hnewEq hx a ha
  · cases post' with
    | nil =>
        rw [List.append_nil] at hlog
        exact hnew [] x post s t hpost.symm hx a (by rwa [List.append_nil, hlog])
    | cons y post' =>
        cases hpost
        exact h pre x post' s t hlog hx a ha

/-- While a loop is in time, clock and table agree on every timer that it armed, and each fires
    at the reading at which its duration has run since the reading before it was armed. -/
theorem fires_in_time (hc : statechartImpl input = .ok c)
    (hd : ∀ t, durationFor c u t < 2 ^ 64) {log : List Stamped}
    {s : RunState Ev Ctx qn c.maxTimers} (h : Clocked c u k (fun _ s now => InTime k s now) log s) :
    Charged c u log s ∧ Punctual c u log := by
  obtain ⟨S⟩ := sound hc
  induction h with
  | start hm hs hj _ hlog => exact charged_start S hd hm hs hj hlog
  | @turn log new s s' w hcl hP hle _ hturn hj _ hnew ih =>
      obtain ⟨hch, hpunct⟩ := ih
      obtain ⟨hch', hfired⟩ := turn_charged S hd hcl.looping hP hle hturn hj hnew hch
      exact ⟨hch', hpunct.append hfired⟩

/-! ## The lamp, in time -/

theorem lampGoesOffInTime :
    (loopState (runTurn lampChart countCode (tokio true) (press 51) lampRun₁)).isSome = true := by
  decide +kernel

def lampRun₃ : RunState Ident Nat 4 lampChart.maxTimers := (loopState _).get lampGoesOffInTime

/-- On at 1, the lamp goes off at 51. -/
theorem fires_in_time_lamp :
    Charged lampChart countCode
      ((lampLog₀ ++ stamp lampRun₀.machine.journal lampRun₁ (fun _ => 1) 1) ++
        stamp lampRun₁.machine.journal lampRun₃ (fun _ => 51) 51) lampRun₃ ∧
    Punctual lampChart countCode
      ((lampLog₀ ++ stamp lampRun₀.machine.journal lampRun₁ (fun _ => 1) 1) ++
        stamp lampRun₁.machine.journal lampRun₃ (fun _ => 51) 51) :=
  have htime₀ : InTime (tokio true) lampRun₀ 1 :=
    ⟨⟨true, .inl rfl⟩, ⟨true, .inl rfl⟩, by decide +kernel⟩
  have htime₁ : InTime (tokio true) lampRun₁ 51 :=
    ⟨⟨true, .inl rfl⟩, ⟨true, .inl rfl⟩, by decide +kernel⟩
  have h₁ : Clocked lampChart countCode (tokio true) (fun _ s now => InTime (tokio true) s now)
      (lampLog₀ ++ stamp lampRun₀.machine.journal lampRun₁ (fun _ => 1) 1) lampRun₁ :=
    .turn (w := press 1) lampClocked₀ htime₀ (by decide +kernel) (by decide +kernel)
      (eq_looping lampComesOn) (by decide +kernel) (by decide +kernel) (by decide +kernel)
  fires_in_time lamp_accepted durationFor_lamp
    (.turn (w := press 51) h₁ htime₁ (by decide +kernel) (by decide +kernel)
      (eq_looping lampGoesOffInTime) (by decide +kernel) (by decide +kernel) (by decide +kernel))

end Hsmc
