import Hsmc.Link.Reach
import Hsmc.Link.Timers

/-
  The live timers.

  * `Core.TimersOk`: the timer table has distinct keys, and each live timer is owned by an
    active state. Every act keeps it.
  * `StepSpec.fired`: a step journals `TimerFired` only for the timer it popped, and only as
    the first thing it does.
  * `no_stale_timer`: at every call boundary a live timer belongs to an active state and has a
    handler, and a timer that fires runs the handler of its own state.
-/

open Computability

namespace Hsmc

open Machine

variable {Ev Ctx Val : Type} {qn tn : Nat} {c : Chart} {u : UserCode Ev Ctx Val}

/-! ## Live timers belong to active states -/

structure Core.TimersOk (c : Chart) (a : Core tn) : Prop where
  nodup : a.timers.keys.Nodup
  owned : ∀ x ∈ a.timers.keys, x.1 ∈ a.active ∧ x.2 ∈ c.ownedTimers x.1

theorem Core.timersOk_initial : (Core.initial : Core tn).TimersOk c :=
  ⟨List.nodup_nil, fun _ h => (nomatch h)⟩

theorem nodup_keys_starts (s : Nat) : ∀ (l : List Nat) {tt : TimerTable tn}, tt.keys.Nodup →
    (l.foldl (fun tt t => tt.start s t (durationFor c u t)) tt).keys.Nodup
  | [], _, h => h
  | t :: l, _, h => nodup_keys_starts s l (TimerTable.nodup_keys_start h s t _)

theorem mem_keys_starts {s : Nat} {x : Nat × Nat} : ∀ {l : List Nat} {tt : TimerTable tn},
    x ∈ (l.foldl (fun tt t => tt.start s t (durationFor c u t)) tt).keys →
      x ∈ tt.keys ∨ (x.1 = s ∧ x.2 ∈ l)
  | [], _, h => Or.inl h
  | t :: l, tt, h => by
      rcases mem_keys_starts (l := l) h with h | ⟨hs, hl⟩
      · rcases TimerTable.mem_of_mem_keys_start h with h | rfl
        · exact Or.inl h
        · exact Or.inr ⟨rfl, List.mem_cons_self⟩
      · exact Or.inr ⟨hs, List.mem_cons_of_mem _ hl⟩

theorem mem_items_starts {s : Nat} {e : TimerEntry} : ∀ {l : List Nat} {tt : TimerTable tn},
    tt.keys.Nodup →
    e ∈ (l.foldl (fun tt t => tt.start s t (durationFor c u t)) tt).entries.items →
    (e.state = s ∧ e.trigger ∈ l ∧ e.remainingNs = asU64 (durationFor c u e.trigger)) ∨
      (e ∈ tt.entries.items ∧ ¬ (e.state = s ∧ e.trigger ∈ l))
  | [], _, _, h => Or.inr ⟨h, by simp⟩
  | t :: l, tt, hnd, h => by
      rcases mem_items_starts (l := l) (TimerTable.nodup_keys_start hnd s t _) h with
        ⟨hs, hl, hr⟩ | ⟨h, hno⟩
      · exact Or.inl ⟨hs, List.mem_cons_of_mem _ hl, hr⟩
      · rcases TimerTable.mem_items_start hnd h with rfl | ⟨h, hne⟩
        · exact Or.inl ⟨rfl, List.mem_cons_self, rfl⟩
        · refine Or.inr ⟨h, ?_⟩
          rintro ⟨rfl, hmem⟩
          rcases List.mem_cons.mp hmem with rfl | hmem
          · exact hne rfl
          · exact hno ⟨rfl, hmem⟩

theorem mem_keys_cancelOwned (S : c.Sound) {s : Nat} {tt : TimerTable tn}
    (htt : ∀ x ∈ tt.keys, x.2 ∈ c.ownedTimers x.1) {x : Nat × Nat} :
    x ∈ (cancelOwned c s tt).keys ↔ x ∈ tt.keys ∧ x.1 ≠ s := by
  unfold cancelOwned
  split
  · simp
  · rename_i hno
    refine ⟨fun hx => absurd (S.hasTimers_of_owned (htt x hx)) hno, fun hx => hx.1⟩

theorem nodup_keys_cancelOwned {s : Nat} {tt : TimerTable tn} (h : tt.keys.Nodup) :
    (cancelOwned c s tt).keys.Nodup := by
  unfold cancelOwned
  split
  · rw [TimerTable.keys_cancelState]
    exact h.filter _
  · exact h

/-- A popped timer was live, and the live timers after it is armed again are none but those. -/
theorem keys_rearm {tt tt' : TimerTable tn} {s t : Nat}
    (h : tt.popExpired c.depth = some ((s, t), tt')) (hnd : tt.keys.Nodup) :
    (rearm c u s t tt').keys.Nodup ∧ ∀ x ∈ (rearm c u s t tt').keys, x ∈ tt.keys := by
  have hperm := TimerTable.perm_keys_popExpired h
  have hnd' := List.nodup_cons.mp (hperm.nodup_iff.mpr hnd)
  have hsub : ∀ x ∈ tt'.keys, x ∈ tt.keys :=
    fun x hx => hperm.subset (List.mem_cons_of_mem _ hx)
  unfold rearm
  split
  · refine ⟨TimerTable.nodup_keys_start hnd'.2 _ _ _, ?_⟩
    intro x hx
    rcases TimerTable.mem_of_mem_keys_start hx with hx | rfl
    · exact hsub x hx
    · exact hperm.subset List.mem_cons_self
  · exact ⟨hnd'.2, hsub⟩

theorem Core.Step.timersOk (S : c.Sound) {x : Act} {a b : Core tn} (h : Core.Step c u x a b)
    (ha : a.TimersOk c) : b.TimersOk c := by
  obtain ⟨hnd, hown⟩ := ha
  cases h with
  | enter _ _ _ =>
      refine ⟨nodup_keys_starts _ _ hnd, ?_⟩
      intro x hx
      rcases mem_keys_starts hx with hx | ⟨rfl, hx⟩
      · exact ⟨List.mem_cons_of_mem _ (hown x hx).1, (hown x hx).2⟩
      · exact ⟨List.mem_cons_self, hx⟩
  | leave _ =>
      refine ⟨nodup_keys_cancelOwned hnd, ?_⟩
      intro x hx
      obtain ⟨hx, hne⟩ := (mem_keys_cancelOwned S fun x hx => (hown x hx).2).mp hx
      exact ⟨(List.mem_cons.mp (hown x hx).1).resolve_left hne, (hown x hx).2⟩
  | tick =>
      have hkeys : ∀ (tt : TimerTable tn) (e : Nat),
          (if c.hasTimers then tt.decrement e else tt).keys = tt.keys := by
        intro tt e
        split
        · exact TimerTable.keys_decrement tt e
        · rfl
      exact ⟨by rw [hkeys]; exact hnd, by rw [hkeys]; exact hown⟩
  | fire hpop =>
      obtain ⟨hnd', hsub⟩ := keys_rearm (u := u) hpop hnd
      exact ⟨hnd', fun x hx => hown x (hsub x hx)⟩

theorem Reachable.timers_on_path (S : c.Sound) {m : ChartMachine c Ev Ctx qn}
    (h : Reachable c u m) : (m.core c).TimersOk c :=
  h.core_invariant S Core.timersOk_initial (fun _ _ _ _ _ hI => ⟨hI.nodup, hI.owned⟩)
    (fun _ _ _ hx ha => hx.timersOk S ha)

theorem StepSpec.timersOk (S : c.Sound) {m m' : Machine Ev Ctx qn tn} {elapsed : Nat}
    (hs : StepSpec c u m elapsed m') (hok : (m.core c).TimersOk c) : (m'.core c).TimersOk c :=
  hs.run.invariant (I := fun a => a.TimersOk c) (fun _ _ _ _ _ hI => ⟨hI.nodup, hI.owned⟩)
    (fun _ _ _ _ hx ha => hx.timersOk S ha) hok

/-- No timer is live while no state is active. -/
theorem Core.TimersOk.items_eq_nil {m : Machine Ev Ctx qn tn} (h : (m.core c).TimersOk c)
    (hcur : m.current = none) : m.timers.entries.items = [] := by
  rw [List.eq_nil_iff_forall_not_mem]
  intro e he
  have hactive := (h.owned _ (TimerTable.key_mem_keys he)).1
  simp [Machine.core, hcur, Chart.activePath] at hactive

/-! ## Which timer fires -/

/-- Entering and leaving states fires nothing. -/
theorem timerFired_not_mem_word {x : Act} (hx : x.IsMove) (s t : Nat) :
    TraceEvent.timerFired s t ∉ Core.word c u x := by
  cases x with
  | enter s' =>
      simp [Core.word, armedEvent]
  | leave s' => simp [Core.word]
  | tick _ => exact hx.elim
  | fire _ _ => exact hx.elim

theorem timerFired_not_mem_words {acts : List Act} (h : ∀ x ∈ acts, x.IsMove) (s t : Nat) :
    TraceEvent.timerFired s t ∉ acts.flatMap (Core.word c u) := by
  rw [List.mem_flatMap]
  rintro ⟨x, hx, he⟩
  exact timerFired_not_mem_word (h x hx) s t he

/-- A firing begins with `TimerFired`, and journals it only there. -/
theorem eq_nil_of_fireWord {s s' t t' : Nat} {rest pre post : List TraceEvent}
    (hrest : .timerFired s t ∉ rest)
    (h : fireWord c u s' t' ++ rest = pre ++ .timerFired s t :: post) :
    pre = [] ∧ s' = s ∧ t' = t := by
  simp only [fireWord, List.cons_append] at h
  cases pre with
  | nil =>
      simp only [List.nil_append, List.cons.injEq, TraceEvent.timerFired.injEq] at h
      exact ⟨rfl, h.1⟩
  | cons e pre =>
      simp only [List.cons_append, List.cons.injEq] at h
      have hmem : TraceEvent.timerFired s t ∈
          (if c.durationRepeats t' then [armedEvent c u s' t'] else []) ++ rest := by
        rw [h.2]; simp
      rcases List.mem_append.mp hmem with hmem | hmem
      · split at hmem <;> simp [armedEvent] at hmem
      · exact absurd hmem hrest

/-- What a running machine does in a step fires nothing but the timer that is popped. -/
theorem workActs_fired {m : Machine Ev Ctx qn tn} {cur s t : Nat} {pre post : List TraceEvent}
    (h : (workActs c u cur m).flatMap (Core.word c u) = pre ++ .timerFired s t :: post) :
    pre = [] ∧ ∃ tt, popTimer c m = some ((s, t), tt) := by
  have hmem : TraceEvent.timerFired s t ∈ (workActs c u cur m).flatMap (Core.word c u) := by
    rw [h]; simp
  unfold workActs at h hmem
  cases hpop : popTimer c m with
  | some p =>
      obtain ⟨⟨s', t'⟩, tt⟩ := p
      rw [hpop] at h
      obtain ⟨hpre, rfl, rfl⟩ := eq_nil_of_fireWord (timerFired_not_mem_words
        (c.isMove_handlerActs cur ((c.handlerLookup s' 1 t').bind (·.2))) s t) h
      exact ⟨hpre, tt, rfl⟩
  | none =>
      rw [hpop] at hmem
      cases hq : m.queue.popFront with
      | none => rw [hq] at hmem; cases hmem
      | some p =>
          rw [hq] at hmem
          exact absurd hmem (timerFired_not_mem_words (isMove_eventActs c u cur p.1) s t)

/-- The visible part of a step that fires begins with the firing, and nothing else fires. -/
theorem stepActs_fired {m : Machine Ev Ctx qn tn} {elapsed s t : Nat} {pre post : List TraceEvent}
    (h : (stepActs c u m elapsed).flatMap (Core.word c u) = pre ++ .timerFired s t :: post) :
    pre = [] ∧ m.current.isSome ∧
      ∃ tt, popTimer c (decrementTimers c elapsed m) = some ((s, t), tt) := by
  unfold stepActs at h
  split at h
  · simp at h
  · cases hcur : m.current with
    | none =>
        rw [hcur] at h
        have hmoves : ∀ x ∈ .enter 0 :: c.descendActs c.nStates 0, Act.IsMove x :=
          List.forall_mem_cons.mpr ⟨trivial, c.isMove_descendActs _ _⟩
        have hno := timerFired_not_mem_words (c := c) (u := u) hmoves s t
        simp [h] at hno
    | some cur =>
        rw [hcur] at h
        obtain ⟨hpre, hpop⟩ := workActs_fired (c := c) (u := u) h
        exact ⟨hpre, rfl, hpop⟩

/-- Time that passes takes no more from an entry than it lasts. -/
theorem mem_items_tick {tt : TimerTable tn} {elapsed : Nat} {e : TimerEntry}
    (h : e ∈ (if c.hasTimers then tt.decrement elapsed else tt).entries.items) :
    ∃ e₀ ∈ tt.entries.items, e₀.key = e.key ∧ e₀.remainingNs ≤ e.remainingNs + elapsed := by
  split at h
  · obtain ⟨e₀, he₀, rfl⟩ := List.mem_map.mp h
    refine ⟨e₀, he₀, rfl, ?_⟩
    have : asU64 elapsed ≤ elapsed := Nat.mod_le _ _
    simp only
    omega
  · exact ⟨e, h, rfl, Nat.le_add_right _ _⟩

/-- A timer that a step pops was live before it, with no more time left than the step was
    given. -/
theorem entry_of_popTimer {m : Machine Ev Ctx qn tn} {elapsed s t : Nat} {tt : TimerTable tn}
    (h : popTimer c (decrementTimers c elapsed m) = some ((s, t), tt)) :
    ∃ e ∈ m.timers.entries.items, e.key = (s, t) ∧ e.remainingNs ≤ elapsed := by
  obtain ⟨e, hkey, h0, hperm⟩ := TimerTable.popExpired_spec (popExpired_of_popTimer h)
  have hmem := hperm.subset List.mem_cons_self
  rw [timers_decrementTimers] at hmem
  obtain ⟨e₀, he₀, hkey₀, hr⟩ := mem_items_tick hmem
  exact ⟨e₀, he₀, hkey₀.trans hkey, by omega⟩

/-- A step that journals `TimerFired` popped that timer first thing. -/
theorem StepSpec.fired {m m' : Machine Ev Ctx qn tn} {elapsed s t : Nat}
    {pre post : List TraceEvent} (hs : StepSpec c u m elapsed m')
    (hj : m'.journal = m.journal ++ (pre ++ .timerFired s t :: post)) :
    pre.filter Core.visible = [] ∧ m.current.isSome ∧ ∃ tt,
      popTimer c (decrementTimers c elapsed m) = some ((s, t), tt) ∧
      fireTimer c u s t { decrementTimers c elapsed m with timers := tt } = .ok m' := by
  obtain ⟨w, hw, hv⟩ := hs.run.visible
  have hw : m'.journal = m.journal ++ w := hw
  rw [hj, List.append_cancel_left_eq] at hw
  rw [← hw, List.filter_append] at hv
  obtain ⟨hpre, hsome, tt, hpop⟩ := stepActs_fired hv.symm
  refine ⟨hpre, hsome, tt, hpop, ?_⟩
  cases hs.outcome with
  | fired s' t' tt' ht hcur hpop' hfire ht' hcur' hj' =>
      rw [hpop] at hpop'
      cases hpop'
      exact hfire
  | halted ht he =>
      subst he
      simp at hj
  | started ht hcur ht' hcur' hj' => rw [hcur] at hsome; cases hsome
  | idle ht hcur hpop' hq he => rw [hpop] at hpop'; cases hpop'
  | handled ev queue ht hcur hpop' hq hterm hh ht' hcur' hj' => rw [hpop] at hpop'; cases hpop'
  | terminated ev queue ht hcur hpop' hq hterm ht' hcur' hq' hj' => rw [hpop] at hpop'; cases hpop'

/-! ## No stale timer -/

/-- What fires belongs to an active state, and its own handler is what runs. -/
theorem StepSpec.fires_own (S : c.Sound) {m m' : Machine Ev Ctx qn tn} {elapsed s t : Nat}
    {pre post : List TraceEvent} (hok : (m.core c).TimersOk c) (hs : StepSpec c u m elapsed m')
    (hj : m'.journal = m.journal ++ (pre ++ .timerFired s t :: post)) :
    s ∈ c.activePath m.current ∧ ∃ g tt, c.handlerLookup s 1 t = some g ∧
      popTimer c (decrementTimers c elapsed m) = some ((s, t), tt) ∧
      runHandlers c u s g.1 g.2 none (.timer s t)
        (firedMachine c u s t { decrementTimers c elapsed m with timers := tt }) = .ok m' := by
  obtain ⟨-, -, tt, hpop, hfire⟩ := hs.fired hj
  obtain ⟨e, he, hkey, -⟩ := entry_of_popTimer hpop
  obtain ⟨hactive, howned⟩ := hok.owned (s, t) (hkey ▸ TimerTable.key_mem_keys he)
  obtain ⟨g, hg⟩ := S.mem_ownedTimers.mp howned
  refine ⟨hactive, g, tt, hg, hpop, ?_⟩
  rw [fireTimer_eq] at hfire
  unfold dispatchTrigger at hfire
  rw [hg] at hfire
  exact hfire

/-- No stale timer: at every call boundary the live timers have distinct keys, each is owned by
    an active state that has a non-empty handler for it, and none is live while no state is
    active. A timer that fires belongs to an active state, and the handlers that run are those
    of that state for that timer. -/
theorem no_stale_timer {input : StatechartInput} (hc : statechartImpl input = .ok c)
    {m : ChartMachine c Ev Ctx qn} (h : Reachable c u m) :
    m.timers.keys.Nodup ∧
    (∀ s t, (s, t) ∈ m.timers.keys → s ∈ c.activePath m.current ∧ t ∈ c.ownedTimers s ∧
      ∃ g, c.handlerLookup s 1 t = some g ∧ (g.1 ≠ [] ∨ g.2.isSome)) ∧
    (m.current = none ∨ m.terminated = true → m.timers.entries.items = []) ∧
    (∀ elapsed next m' pre s t post, step c u m elapsed = .ok (next, m') →
      m'.journal = m.journal ++ (pre ++ .timerFired s t :: post) →
      s ∈ c.activePath m.current ∧ ∃ g tt, c.handlerLookup s 1 t = some g ∧
        popTimer c (decrementTimers c elapsed m) = some ((s, t), tt) ∧
        runHandlers c u s g.1 g.2 none (.timer s t)
          (firedMachine c u s t { decrementTimers c elapsed m with timers := tt }) = .ok m') := by
  obtain ⟨S⟩ := sound hc
  have hok := h.timers_on_path S
  refine ⟨hok.nodup, ?_, ?_, ?_⟩
  · intro s t hx
    obtain ⟨hactive, howned⟩ := hok.owned _ hx
    obtain ⟨g, hg⟩ := S.mem_ownedTimers.mp howned
    exact ⟨hactive, howned, g, hg, S.timer_group hg⟩
  · intro hhalt
    have hcur : m.current = none := hhalt.elim id (h.valid S).halted
    exact hok.items_eq_nil hcur
  · intro elapsed next m' pre s t post hstep hj
    exact (step_spec_of_ok S (h.valid S) hstep).fires_own S hok hj

theorem no_stale_timer_lamp : 2 ∈ lampChart.activePath lampOn.current ∧
    0 ∈ lampChart.ownedTimers 2 ∧
    ∃ g, lampChart.handlerLookup 2 1 0 = some g ∧ (g.1 ≠ [] ∨ g.2.isSome) :=
  (no_stale_timer lamp_accepted lampOn_reachable).2.1 2 0 (by decide +kernel)

end Hsmc
