import Hsmc.Safety.Timers

/-
  Timers under `run()` and the clock.

  The loop reads the clock before a step and measures the next step from that reading, so a
  timer that a step arms late is charged for the time the step took before it
  (`fired_early`).

  * `StepSpec.entries`: an entry in the table after a step was armed by it, or was there before
    and has lost no more than the time the step was given.
  * `Clocked`: the runs of a `run()` call with the time of each journal entry.
  * `turn_accounted`: a timer never fires before its duration has passed since the reading that
    precedes the step that armed it.
  * `never_early`: it never fires before its duration has passed since it was armed, if no step
    is taken in the window between the two (`OutsideWindow`).
-/

open Computability

namespace Hsmc

open Machine

variable {Ev Ctx Val : Type} {qn tn : Nat} {input : StatechartInput} {c : Chart}
  {u : UserCode Ev Ctx Val}

/-! ## What a step does to the entries -/

/-- The entry stands for a timer that the visible events `w` arm, at its full duration. -/
def Fresh (c : Chart) (u : UserCode Ev Ctx Val) (w : List TraceEvent) (e : TimerEntry) : Prop :=
  (∃ ns, .timerArmed e.state e.trigger ns ∈ w) ∧
    e.remainingNs = asU64 (durationFor c u e.trigger)

/-- `w` does not arm the timer of the entry. -/
def Untouched (w : List TraceEvent) (e : TimerEntry) : Prop :=
  ∀ ns, .timerArmed e.state e.trigger ns ∉ w

/-- Apart from the passing of time, an act arms an entry afresh or leaves it as it is. -/
theorem Core.Step.entries {x : Act} {a b : Core tn} (h : Core.Step c u x a b)
    (hx : ∀ elapsed, x ≠ .tick elapsed) (hnd : a.timers.keys.Nodup) :
    ∀ e ∈ b.timers.entries.items, Fresh c u (Core.word c u x) e ∨
      (Untouched (Core.word c u x) e ∧ e ∈ a.timers.entries.items) := by
  intro e he
  cases h with
  | @enter s st tt j acts _ _ _ =>
      rcases mem_items_starts hnd he with ⟨hs, ht, hr⟩ | ⟨he, hno⟩
      · left
        refine ⟨⟨asU64 (durationFor c u e.trigger), ?_⟩, hr⟩
        refine List.mem_append_left _ (List.mem_map.mpr ⟨e.trigger, ht, ?_⟩)
        rw [hs]
        rfl
      · refine Or.inr ⟨?_, he⟩
        intro ns hmem
        simp only [Core.word, armedEvent, List.mem_append, List.mem_map,
          TraceEvent.timerArmed.injEq, List.mem_singleton, reduceCtorEq, or_false] at hmem
        obtain ⟨t, ht, rfl, rfl, -⟩ := hmem
        exact hno ⟨rfl, ht⟩
  | @leave s st tt j acts _ =>
      refine Or.inr ⟨by intro ns; simp [Core.word], ?_⟩
      simp only [cancelOwned] at he
      split at he
      · exact List.mem_of_mem_filter he
      · exact he
  | tick => exact absurd rfl (hx _)
  | @fire s t st tt tt' j hpop =>
      obtain ⟨e₀, hkey, -, hperm⟩ := TimerTable.popExpired_spec hpop
      have hsub : ∀ e ∈ tt'.entries.items, e ∈ tt.entries.items :=
        fun e he => hperm.subset (List.mem_cons_of_mem _ he)
      have hnd' := (List.nodup_cons.mp ((TimerTable.perm_keys_popExpired hpop).nodup_iff.mpr hnd)).2
      simp only [rearm, Core.word, fireWord] at he ⊢
      split at he
      · rename_i hr
        rw [if_pos hr]
        rcases TimerTable.mem_items_start hnd' he with rfl | ⟨he, hne⟩
        · exact Or.inl ⟨⟨_, List.mem_cons_of_mem _ (List.mem_singleton.mpr rfl)⟩, rfl⟩
        · refine Or.inr ⟨?_, hsub e he⟩
          intro ns hmem
          simp only [armedEvent, List.mem_cons, reduceCtorEq, TraceEvent.timerArmed.injEq,
            List.not_mem_nil, or_false, false_or] at hmem
          obtain ⟨rfl, rfl, -⟩ := hmem
          exact hne rfl
      · rename_i hr
        rw [if_neg hr]
        exact Or.inr ⟨by intro ns; simp, hsub e he⟩

theorem Core.Run.entries (S : c.Sound) {acts : List Act} {a b : Core tn}
    (h : Core.Run c u acts a b) (hacts : ∀ x ∈ acts, ∀ elapsed, x ≠ .tick elapsed)
    (hok : a.TimersOk c) : ∀ e ∈ b.timers.entries.items,
      Fresh c u (acts.flatMap (Core.word c u)) e ∨
        (Untouched (acts.flatMap (Core.word c u)) e ∧ e ∈ a.timers.entries.items) := by
  induction h with
  | refl => exact fun e he => Or.inr ⟨fun ns => by simp, he⟩
  | note _ _ ih => exact ih hacts ⟨hok.nodup, hok.owned⟩
  | @act x acts a b d hx _ ih =>
      intro e he
      rw [List.flatMap_cons]
      rcases ih (fun y hy => hacts y (List.mem_cons_of_mem _ hy)) (hx.timersOk S hok) e he with
        ⟨⟨ns, hmem⟩, hr⟩ | ⟨hno, he⟩
      · exact Or.inl ⟨⟨ns, List.mem_append_right _ hmem⟩, hr⟩
      · rcases hx.entries (hacts x List.mem_cons_self) hok.nodup e he with
          ⟨⟨ns, hmem⟩, hr⟩ | ⟨hno', he⟩
        · exact Or.inl ⟨⟨ns, List.mem_append_left _ hmem⟩, hr⟩
        · refine Or.inr ⟨fun ns hmem => ?_, he⟩
          exact (List.mem_append.mp hmem).elim (hno' ns) (hno ns)

theorem timerArmed_mem_filter {w : List TraceEvent} {s t ns : Nat} :
    .timerArmed s t ns ∈ w.filter Core.visible ↔ .timerArmed s t ns ∈ w := by
  rw [List.mem_filter]
  exact ⟨fun h => h.1, fun h => ⟨h, rfl⟩⟩

/-- An entry after a step was armed by the step, or was there before it and has lost no more
    than the time the step was given. -/
theorem StepSpec.entries (S : c.Sound) {m m' : Machine Ev Ctx qn tn} {elapsed : Nat}
    {w : List TraceEvent} (hs : StepSpec c u m elapsed m') (hok : (m.core c).TimersOk c)
    (hj : m'.journal = m.journal ++ w) : ∀ e ∈ m'.timers.entries.items,
      Fresh c u w e ∨ (Untouched w e ∧ ∃ e₀ ∈ m.timers.entries.items, e₀.key = e.key ∧
        e₀.remainingNs ≤ e.remainingNs + elapsed) := by
  obtain ⟨w', hw, hv⟩ := hs.run.visible
  have hw : m'.journal = m.journal ++ w' := hw
  rw [hj, List.append_cancel_left_eq] at hw
  subst hw
  have hfresh : ∀ e, Fresh c u (w.filter Core.visible) e ↔ Fresh c u w e := fun e => by
    simp only [Fresh, timerArmed_mem_filter]
  have huntouched : ∀ e, Untouched (w.filter Core.visible) e ↔ Untouched w e := fun e => by
    simp only [Untouched, timerArmed_mem_filter]
  obtain ⟨acts, hacts, he | he⟩ := stepActs_cases c u m elapsed
  · intro e hmem
    have hrun := hs.run
    rw [he] at hrun hv
    rw [← hfresh, ← huntouched, hv]
    refine (hrun.entries S hacts hok e hmem).imp_right ?_
    rintro ⟨hno, hmem⟩
    exact ⟨hno, e, hmem, rfl, Nat.le_add_right _ _⟩
  · intro e hmem
    have hrun := hs.run
    rw [he] at hrun hv
    obtain ⟨w₀, d, -, htick, hrun⟩ := hrun.cons_inv
    rw [← hfresh, ← huntouched, hv]
    have hokd := htick.timersOk S (a := ⟨_, _, _⟩) ⟨hok.nodup, hok.owned⟩
    refine (hrun.entries S hacts hokd e hmem).imp ?_ ?_
    · exact fun h => h
    · rintro ⟨hno, hmem⟩
      cases htick with
      | tick => exact ⟨hno, mem_items_tick hmem⟩

/-- The timer that a step fires had no more time left than the step was given. -/
theorem StepSpec.fired_entry {m m' : Machine Ev Ctx qn tn} {elapsed s t : Nat}
    {pre post : List TraceEvent} (hs : StepSpec c u m elapsed m')
    (hj : m'.journal = m.journal ++ (pre ++ .timerFired s t :: post)) :
    (∀ s' t' ns, .timerArmed s' t' ns ∉ pre) ∧
      ∃ e ∈ m.timers.entries.items, e.key = (s, t) ∧ e.remainingNs ≤ elapsed := by
  obtain ⟨hpre, -, tt, hpop, -⟩ := hs.fired hj
  refine ⟨?_, entry_of_popTimer hpop⟩
  intro s' t' ns hmem
  rw [← timerArmed_mem_filter, hpre] at hmem
  cases hmem

/-! ## Journals with times -/

/-- A journal entry of a `run()`. -/
structure Stamped where
  event : TraceEvent
  /-- When it was journaled. -/
  time : Nat
  /-- The clock reading before its step. The step before the loop has none, and the reading
      after it stands in. -/
  reading : Nat
deriving DecidableEq

def Stamped.arms (s t : Nat) (x : Stamped) : Bool :=
  match x.event with
  | .timerArmed s' t' _ => s' == s && t' == t
  | _ => false

theorem arms_iff {s t : Nat} {x : Stamped} :
    x.arms s t = true ↔ ∃ ns, x.event = .timerArmed s t ns := by
  unfold Stamped.arms
  split
  · rename_i s' t' ns he
    simp [he]
  · rename_i hno
    constructor
    · intro h
      cases h
    · rintro ⟨ns, he⟩
      exact absurd he (hno s t ns)

/-- The entry that last armed timer `t` of state `s`. -/
def lastArmed (log : List Stamped) (s t : Nat) : Option Stamped :=
  (log.filter (Stamped.arms s t)).getLast?

theorem lastArmed_append_of_not {log new : List Stamped} {s t : Nat}
    (h : ∀ ns, .timerArmed s t ns ∉ new.map Stamped.event) :
    lastArmed (log ++ new) s t = lastArmed log s t := by
  have hnil : new.filter (Stamped.arms s t) = [] := by
    rw [List.filter_eq_nil_iff]
    intro x hx harms
    obtain ⟨ns, he⟩ := arms_iff.mp harms
    exact h ns (List.mem_map.mpr ⟨x, hx, he⟩)
  unfold lastArmed
  rw [List.filter_append, hnil, List.append_nil]

theorem mem_of_lastArmed_append {log new : List Stamped} {s t ns : Nat} {a : Stamped}
    (h : .timerArmed s t ns ∈ new.map Stamped.event) (ha : lastArmed (log ++ new) s t = some a) :
    a ∈ new := by
  obtain ⟨x, hx, he⟩ := List.mem_map.mp h
  have hne : new.filter (Stamped.arms s t) ≠ [] :=
    List.ne_nil_of_mem (List.mem_filter.mpr ⟨hx, arms_iff.mpr ⟨ns, he⟩⟩)
  unfold lastArmed at ha
  rw [List.filter_append, List.getLast?_append_of_ne_nil _ hne] at ha
  exact List.mem_of_mem_filter (List.mem_of_getLast? ha)

/-- A timer that fires does so at a reading its duration or more after it was last armed. -/
def NeverEarly (c : Chart) (u : UserCode Ev Ctx Val) (log : List Stamped) : Prop :=
  ∀ pre x post s t, log = pre ++ x :: post → x.event = .timerFired s t →
    ∀ a, lastArmed pre s t = some a → a.time + durationFor c u t ≤ x.reading

variable (c u) in
/-- The runs of a `run()` call on a reachable machine, with what they have journaled and when.
    The clock does not go back. Every step taken in the loop meets `P`, which speaks of the
    log and the state before it and of the clock reading. -/
inductive Clocked (k : RunKind)
    (P : List Stamped → RunState Ev Ctx qn c.maxTimers → Nat → Prop) :
    List Stamped → RunState Ev Ctx qn c.maxTimers → Prop where
  | start {m : ChartMachine c Ev Ctx qn} {now : Nat} {s : RunState Ev Ctx qn c.maxTimers}
      {log : List Stamped} : Reachable c u m → runStart c u now m = .ok (.looping s) →
      s.machine.journal = m.journal ++ log.map Stamped.event →
      log.Pairwise (fun x y => x.time ≤ y.time) → (∀ x ∈ log, x.time ≤ now ∧ x.reading = now) →
      Clocked k P log s
  | turn {log new : List Stamped} {s s' : RunState Ev Ctx qn c.maxTimers} {w : Wake Ev Ctx} :
      Clocked k P log s → P log s w.now → s.lastInstant ≤ w.now → (∀ x ∈ log, x.time ≤ w.now) →
      runTurn c u k w s = .ok (.looping s') →
      s'.machine.journal = s.machine.journal ++ new.map Stamped.event →
      new.Pairwise (fun x y => x.time ≤ y.time) → (∀ x ∈ new, w.now ≤ x.time ∧ x.reading = w.now) →
      Clocked k P (log ++ new) s'

/-- The generated loops. -/
def GeneratedLoop (k : RunKind) : Prop := ∃ channel, k = tokio channel ∨ k = embassy channel

theorem elapsed_le {k : RunKind} (hk : GeneratedLoop k) (d : Nat) : k.elapsed d ≤ d := by
  obtain ⟨channel, rfl | rfl⟩ := hk
  · exact Nat.le_refl d
  · exact Nat.div_mul_le_self d 1000

theorem Clocked.looping {k : RunKind}
    {P : List Stamped → RunState Ev Ctx qn c.maxTimers → Nat → Prop} {log : List Stamped}
    {s : RunState Ev Ctx qn c.maxTimers} (h : Clocked c u k P log s) : Looping c u k s := by
  induction h with
  | start hm hs _ _ _ => exact .start hm hs
  | turn _ _ _ _ ht _ _ _ ih => exact .turn ih ht

/-! ## What the loop charges -/

/-- Since the reading before it was armed, a live timer has been charged no more than the time
    that has passed. -/
def Accounted (c : Chart) (u : UserCode Ev Ctx Val) (log : List Stamped)
    (s : RunState Ev Ctx qn tn) : Prop :=
  ∀ e ∈ s.machine.timers.entries.items, ∀ a, lastArmed log e.state e.trigger = some a →
    a.reading ≤ s.lastInstant ∧
      durationFor c u e.trigger ≤ e.remainingNs + (s.lastInstant - a.reading)

theorem accounted_start (S : c.Sound) (hd : ∀ t, durationFor c u t < 2 ^ 64)
    {m : ChartMachine c Ev Ctx qn} {now : Nat} {s : RunState Ev Ctx qn c.maxTimers}
    {log : List Stamped} (hm : Reachable c u m) (hs : runStart c u now m = .ok (.looping s))
    (hj : s.machine.journal = m.journal ++ log.map Stamped.event)
    (hlog : ∀ x ∈ log, x.time ≤ now ∧ x.reading = now) : Accounted c u log s := by
  obtain ⟨-, -, hstep, hl⟩ := runStart_looping hs
  have hspec := step_spec_of_ok S (hm.valid S) hstep
  intro e hmem a ha
  rcases hspec.entries S (hm.timers_on_path S) hj e hmem with ⟨⟨ns, harm⟩, hr⟩ | ⟨hno, -⟩
  · have hmem := @mem_of_lastArmed_append [] log _ _ _ _ harm ha
    rw [(hlog a hmem).2, hl, hr, asU64, Nat.mod_eq_of_lt (hd _)]
    exact ⟨Nat.le_refl _, Nat.le_add_right _ _⟩
  · have hnone := @lastArmed_append_of_not [] log _ _ hno
    rw [List.nil_append] at hnone
    rw [hnone] at ha
    cases ha

/-- What one turn of the loop does: the account is kept, and a timer fires only if it was live
    and its duration has passed since the reading before it was armed. -/
theorem turn_accounted (S : c.Sound) (hd : ∀ t, durationFor c u t < 2 ^ 64) {k : RunKind}
    (hk : GeneratedLoop k) {log new : List Stamped} {s s' : RunState Ev Ctx qn c.maxTimers}
    {w : Wake Ev Ctx} (hloop : Looping c u k s) (hle : s.lastInstant ≤ w.now)
    (hturn : runTurn c u k w s = .ok (.looping s'))
    (hj : s'.machine.journal = s.machine.journal ++ new.map Stamped.event)
    (hnew : ∀ x ∈ new, w.now ≤ x.time ∧ x.reading = w.now) (hacc : Accounted c u log s) :
    Accounted c u (log ++ new) s' ∧
      ∀ pre x post s₁ t₁, new = pre ++ x :: post → x.event = .timerFired s₁ t₁ →
        (s₁, t₁) ∈ s.machine.timers.keys ∧
        lastArmed (log ++ pre) s₁ t₁ = lastArmed log s₁ t₁ ∧
        ∀ a, lastArmed log s₁ t₁ = some a → a.reading + durationFor c u t₁ ≤ w.now := by
  obtain ⟨-, m₁, hp, hstep, hl⟩ := runTurn_looping hturn
  have hm := hloop.reachable
  have hm₁ := hp.reachable hm
  have hspec := step_spec_of_ok S (hm₁.valid S) hstep
  have hok := hm₁.timers_on_path S
  have hel := elapsed_le hk (w.now - s.lastInstant)
  rw [← hp.same.journal] at hj
  unfold Accounted at hacc
  rw [← hp.same.timers] at hacc ⊢
  refine ⟨?_, ?_⟩
  · intro e hmem a ha
    rcases hspec.entries S hok hj e hmem with ⟨⟨ns, harm⟩, hr⟩ | ⟨hno, e₀, he₀, hkey, hr⟩
    · have hmem := mem_of_lastArmed_append harm ha
      rw [(hnew a hmem).2, hl, hr, asU64, Nat.mod_eq_of_lt (hd _)]
      exact ⟨Nat.le_refl _, Nat.le_add_right _ _⟩
    · rw [lastArmed_append_of_not hno] at ha
      obtain ⟨hs, ht⟩ : e₀.state = e.state ∧ e₀.trigger = e.trigger := by
        simpa [TimerEntry.key] using hkey
      obtain ⟨h₁, h₂⟩ := hacc e₀ he₀ a (by rw [hs, ht]; exact ha)
      rw [ht] at h₂
      rw [hl]
      omega
  · intro pre x post s₁ t₁ hsplit hx
    have hj' : s'.machine.journal =
        m₁.journal ++ (pre.map Stamped.event ++ .timerFired s₁ t₁ :: post.map Stamped.event) := by
      rw [hj, hsplit, List.map_append, List.map_cons, hx]
    obtain ⟨hpre, e, he, hkey, hr⟩ := hspec.fired_entry hj'
    refine ⟨hkey ▸ TimerTable.key_mem_keys he, lastArmed_append_of_not (hpre s₁ t₁), ?_⟩
    intro a ha
    obtain ⟨rfl, rfl⟩ : e.state = s₁ ∧ e.trigger = t₁ := by simpa [TimerEntry.key] using hkey
    obtain ⟨h₁, h₂⟩ := hacc e he a ha
    omega

/-! ## Never early -/

/-- No live timer has run its duration since the reading before it was armed but not since it
    was armed. -/
def OutsideWindow (c : Chart) (u : UserCode Ev Ctx Val) (log : List Stamped)
    (s : RunState Ev Ctx qn c.maxTimers) (now : Nat) : Prop :=
  ∀ k ∈ s.machine.timers.keys, ∀ a ∈ lastArmed log k.1 k.2,
    ¬ (a.reading + durationFor c u k.2 ≤ now ∧ now < a.time + durationFor c u k.2)

theorem neverEarly_of_no_firing {log : List Stamped}
    (h : ∀ pre x post s t, log = pre ++ x :: post → x.event = .timerFired s t →
      lastArmed pre s t = none) : NeverEarly c u log := by
  intro pre x post s t hsplit hx a ha
  rw [h pre x post s t hsplit hx] at ha
  cases ha

theorem Clocked.neverEarly (S : c.Sound) (hd : ∀ t, durationFor c u t < 2 ^ 64) {k : RunKind}
    (hk : GeneratedLoop k) {log : List Stamped} {s : RunState Ev Ctx qn c.maxTimers}
    (h : Clocked c u k (OutsideWindow c u) log s) : Accounted c u log s ∧ NeverEarly c u log := by
  induction h with
  | @start m now s log hm hs hj _ hlog =>
      refine ⟨accounted_start S hd hm hs hj hlog, neverEarly_of_no_firing ?_⟩
      intro pre x post s₁ t₁ hsplit hx
      obtain ⟨-, -, hstep, -⟩ := runStart_looping hs
      have hj' : s.machine.journal =
          m.journal ++ (pre.map Stamped.event ++ .timerFired s₁ t₁ :: post.map Stamped.event) := by
        rw [hj, hsplit, List.map_append, List.map_cons, hx]
      obtain ⟨hpre, -⟩ := (step_spec_of_ok S (hm.valid S) hstep).fired_entry hj'
      exact @lastArmed_append_of_not [] pre _ _ (hpre s₁ t₁)
  | @turn log new s s' w hc hP hle _ hturn hj _ hnew ih =>
      obtain ⟨hacc, hnever⟩ := ih
      obtain ⟨hacc', hfired⟩ := turn_accounted S hd hk hc.looping hle hturn hj hnew hacc
      refine ⟨hacc', ?_⟩
      have hnow : ∀ pre x post s₁ t₁, new = pre ++ x :: post → x.event = .timerFired s₁ t₁ →
          ∀ a, lastArmed (log ++ pre) s₁ t₁ = some a →
            a.time + durationFor c u t₁ ≤ x.reading := by
        intro pre x post s₁ t₁ hsplit hx a ha
        obtain ⟨hlive, hlast, hcharged⟩ := hfired pre x post s₁ t₁ hsplit hx
        rw [hlast] at ha
        have hout := hP (s₁, t₁) hlive a ha
        simp only at hout
        have hbase := hcharged a ha
        rw [(hnew x (by rw [hsplit]; simp)).2]
        omega
      intro pre x post s₁ t₁ hsplit hx a ha
      rcases List.append_eq_append_iff.mp hsplit with ⟨pre', rfl, hnewEq⟩ | ⟨post', hlog, hpost⟩
      · exact hnow pre' x post s₁ t₁ hnewEq hx a ha
      · cases post' with
        | nil =>
            rw [List.append_nil] at hlog
            exact hnow [] x post s₁ t₁ hpost.symm hx a (by rwa [List.append_nil, hlog])
        | cons y post' =>
            cases hpost
            exact hnever pre x post' s₁ t₁ hlog hx a ha

/-- Under every generated `run()` loop and every schedule, a timer fires no earlier than its
    duration after it was armed, if no step is taken while a live timer is in its window. -/
theorem never_early (hc : statechartImpl input = .ok c)
    (hd : ∀ t, durationFor c u t < 2 ^ 64) {k : RunKind} (hk : GeneratedLoop k)
    {log : List Stamped} {s : RunState Ev Ctx qn c.maxTimers}
    (h : Clocked c u k (OutsideWindow c u) log s) : NeverEarly c u log := by
  obtain ⟨S⟩ := sound hc
  exact (h.neverEarly S hd hk).2

/-! ## A lamp that is slow to come on -/

/-- `Toggle` arrives, and the clock reads `now`. -/
def press (now : Nat) : Wake Ident Nat := { durings := id, race := .event "Toggle", now }

theorem lampStarts : (loopState (runStart lampChart countCode 0
    (.new 0 : ChartMachine lampChart Ident Nat 4))).isSome = true := by
  decide +kernel

def lampRun₀ : RunState Ident Nat 4 lampChart.maxTimers := (loopState _).get lampStarts

theorem lampComesOn :
    (loopState (runTurn lampChart countCode (tokio true) (press 1) lampRun₀)).isSome = true := by
  decide +kernel

def lampRun₁ : RunState Ident Nat 4 lampChart.maxTimers := (loopState _).get lampComesOn

/-- What was journaled since `j`, the `i`-th entry at `time i`. -/
def stamp (j : List TraceEvent) (s : RunState Ident Nat 4 lampChart.maxTimers)
    (time : Nat → Nat) (reading : Nat) : List Stamped :=
  (s.machine.journal.drop j.length).zipIdx.map fun (event, i) => { event, time := time i, reading }

def lampLog₀ : List Stamped := stamp [] lampRun₀ (fun _ => 0) 0

theorem lampClocked₀ {P : List Stamped → RunState Ident Nat 4 lampChart.maxTimers → Nat → Prop} :
    Clocked lampChart countCode (tokio true) P lampLog₀ lampRun₀ :=
  .start (.new 0) (eq_looping lampStarts) (by decide +kernel) (by decide +kernel)
    (by decide +kernel)

/-- The entry action takes 100, so the timer is armed at 101; but the step began at 1. -/
def lampLog₁ : List Stamped :=
  lampLog₀ ++ stamp lampRun₀.machine.journal lampRun₁ (fun i => if i < 7 then 1 else 101) 1

theorem lampClocked₁ {P : List Stamped → RunState Ident Nat 4 lampChart.maxTimers → Nat → Prop}
    (h : P lampLog₀ lampRun₀ 1) : Clocked lampChart countCode (tokio true) P lampLog₁ lampRun₁ :=
  .turn (w := press 1) lampClocked₀ h (by decide +kernel) (by decide +kernel)
    (eq_looping lampComesOn) (by decide +kernel) (by decide +kernel) (by decide +kernel)

theorem lampGoesOff :
    (loopState (runTurn lampChart countCode (tokio true) (press 160) lampRun₁)).isSome = true := by
  decide +kernel

def lampRun₂ : RunState Ident Nat 4 lampChart.maxTimers := (loopState _).get lampGoesOff

theorem durationFor_lamp (t : Nat) : durationFor lampChart countCode t < 2 ^ 64 := by
  unfold durationFor
  cases lampChart.durationExprArms.lookup t with
  | none => decide
  | some e =>
      show 50 < 2 ^ 64
      decide

/-- The window of the timer is from 51 to 151; the next step is taken at 160, and it fires. -/
theorem never_early_lamp : NeverEarly lampChart countCode
    (lampLog₁ ++ stamp lampRun₁.machine.journal lampRun₂ (fun _ => 160) 160) :=
  have hout₀ : OutsideWindow lampChart countCode lampLog₀ lampRun₀ 1 := by
    unfold OutsideWindow
    decide +kernel
  have hout₁ : OutsideWindow lampChart countCode lampLog₁ lampRun₁ 160 := by
    unfold OutsideWindow
    decide +kernel
  never_early lamp_accepted durationFor_lamp ⟨true, Or.inl rfl⟩
    (.turn (w := press 160) (lampClocked₁ hout₀) hout₁ (by decide +kernel) (by decide +kernel)
      (eq_looping lampGoesOff) (by decide +kernel) (by decide +kernel) (by decide +kernel))

theorem lampGoesOffEarly :
    (loopState (runTurn lampChart countCode (tokio true) (press 102) lampRun₁)).isSome = true := by
  decide +kernel

def lampRunEarly : RunState Ident Nat 4 lampChart.maxTimers := (loopState _).get lampGoesOffEarly

def lampLog₂ : List Stamped :=
  lampLog₁ ++ stamp lampRun₁.machine.journal lampRunEarly (fun _ => 102) 102

/-- `Toggle` arrives again at 102, 1 after the timer was armed, and the step it causes fires the
    timer of 50. -/
theorem fired_early : statechartImpl lamp = .ok lampChart ∧
    (∀ t, durationFor lampChart countCode t < 2 ^ 64) ∧ durationFor lampChart countCode 0 = 50 ∧
    Clocked lampChart countCode (tokio true) (fun _ _ _ => True) lampLog₂ lampRunEarly ∧
    lastArmed lampLog₁ 2 0 = some ⟨.timerArmed 2 0 50, 101, 1⟩ ∧
    (∃ post, lampLog₂ = lampLog₁ ++ ⟨.timerFired 2 0, 102, 102⟩ :: post) ∧
    ¬ NeverEarly lampChart countCode lampLog₂ := by
  have harmed : lastArmed lampLog₁ 2 0 = some ⟨.timerArmed 2 0 50, 101, 1⟩ := by decide +kernel
  have hfired : lampLog₂ = lampLog₁ ++ ⟨.timerFired 2 0, 102, 102⟩ ::
      (stamp lampRun₁.machine.journal lampRunEarly (fun _ => 102) 102).tail := by
    decide +kernel
  refine ⟨lamp_accepted, durationFor_lamp, by decide +kernel, ?_, harmed, ⟨_, hfired⟩, ?_⟩
  · exact .turn (w := press 102) (lampClocked₁ trivial) trivial (by decide +kernel)
      (by decide +kernel) (eq_looping lampGoesOffEarly) (by decide +kernel) (by decide +kernel)
      (by decide +kernel)
  · intro h
    have hearly := h _ _ _ 2 0 hfired rfl _ harmed
    revert hearly
    decide +kernel

end Hsmc
