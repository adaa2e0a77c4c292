import Hsmc.Link.TimerOps
import Hsmc.Safety.Timers

/-
  When an armed timer stays in the table.

  The table has room for as many timers as the chart has distinct durations, but its entries
  are kept by state and duration, so two nested states that declare the same duration can need
  more (`armed_timer_lost`). A timer that does not fit is dropped without a trace.

  * `fit`: every state that a sequence of acts enters finds room for its timers.
  * `Core.Run.armed`: acts that fit lose no timer.
  * `Act.startsFit_of_fits`: nor does any call of `start` that they make drop its timer.
  * `no_timer_lost`: in a run whose steps fit, every timer of an active state is live, unless it
    has fired since the state was entered and does not repeat.
-/

open Computability

namespace Hsmc

open Machine

variable {Ev Ctx Val : Type} {qn tn : Nat} {input : StatechartInput} {c : Chart}
  {u : UserCode Ev Ctx Val}

/-! ## Timers that have fired -/

/-- Timer `t` of state `s` has fired since `s` was last entered. -/
def FiredSince (j : List TraceEvent) (s t : Nat) : Prop :=
  ∃ pre post, j = pre ++ .timerFired s t :: post ∧ TraceEvent.entered s ∉ post

theorem FiredSince.mem {j : List TraceEvent} {s t : Nat} (h : FiredSince j s t) :
    .timerFired s t ∈ j := by
  obtain ⟨pre, post, rfl, -⟩ := h
  simp

theorem FiredSince.append {j w : List TraceEvent} {s t : Nat} (h : FiredSince j s t)
    (hw : TraceEvent.entered s ∉ w) : FiredSince (j ++ w) s t := by
  obtain ⟨pre, post, rfl, hpost⟩ := h
  refine ⟨pre, post ++ w, by simp, ?_⟩
  rw [List.mem_append]
  exact fun hmem => hmem.elim hpost hw

theorem firedSince_fireWord (j : List TraceEvent) {s t : Nat} (hr : ¬ c.durationRepeats t) :
    FiredSince (j ++ fireWord c u s t) s t := by
  unfold fireWord
  rw [if_neg hr]
  exact ⟨j, [], rfl, by simp⟩

/-- Every timer of an active state is live, unless it was a one-shot and has fired. -/
def Core.Armed (c : Chart) (a : Core tn) : Prop :=
  ∀ s ∈ a.active, ∀ t ∈ c.ownedTimers s,
    c.durationRepeats t = true ∨ ¬ FiredSince a.journal s t → (s, t) ∈ a.timers.keys

/-! ## Room in the table -/

/-- The live timers after an act. -/
def Act.live (c : Chart) (x : Act) (keys : List (Nat × Nat)) : List (Nat × Nat) :=
  match x with
  | .enter s => keys ++ (c.ownedTimers s).map fun t => (s, t)
  | .leave s => keys.filter fun k => k.1 != s
  | .tick _ => keys
  | .fire s t => if c.durationRepeats t then keys else keys.erase (s, t)

/-- Entering a state needs room for all of its timers. -/
def Act.fits (c : Chart) (x : Act) (keys : List (Nat × Nat)) : Bool :=
  match x with
  | .enter s => decide (keys.length + (c.ownedTimers s).length ≤ c.maxTimers)
  | _ => true

/-- Every act of a sequence finds room in the table. -/
def fit (c : Chart) : List Act → List (Nat × Nat) → Bool
  | [], _ => true
  | x :: acts, keys => x.fits c keys && fit c acts (x.live c keys)

/-- What a step is about to do fits the table. -/
def StepFits (c : Chart) (u : UserCode Ev Ctx Val) (m : ChartMachine c Ev Ctx qn)
    (elapsed : Nat) : Prop :=
  fit c (stepActs c u m elapsed) m.timers.keys = true

/-- States that are entered arm all of their timers, when these are new and fit. -/
theorem keys_starts {s : Nat} : ∀ (l : List Nat) {tt : TimerTable tn}, l.Nodup →
    (∀ t ∈ l, (s, t) ∉ tt.keys) → tt.keys.length + l.length ≤ tn →
    (l.foldl (fun tt t => tt.start s t (durationFor c u t)) tt).keys =
      tt.keys ++ l.map fun t => (s, t)
  | [], tt, _, _, _ => by simp
  | t :: l, tt, hnd, hnew, hlen => by
      obtain ⟨ht, hnd⟩ := List.nodup_cons.mp hnd
      rw [List.length_cons] at hlen
      have hkeys := TimerTable.keys_start_of_lt (hnew t List.mem_cons_self) (by omega)
        (durationFor c u t)
      rw [List.foldl_cons, keys_starts l hnd ?_ ?_, hkeys]
      · simp
      · intro t' ht'
        rw [hkeys, List.mem_append, List.mem_singleton]
        rintro (h | h)
        · exact hnew t' (List.mem_cons_of_mem _ ht') h
        · cases h
          exact ht ht'
      · rw [hkeys, List.length_append, List.length_singleton]
        omega

theorem Act.live_perm (x : Act) {keys keys' : List (Nat × Nat)} (h : keys.Perm keys') :
    (x.live c keys).Perm (x.live c keys') := by
  cases x with
  | enter s => exact h.append_right _
  | leave s => exact h.filter _
  | tick _ => exact h
  | fire s t =>
      simp only [Act.live]
      split
      · exact h
      · exact h.erase _

theorem fit_perm : ∀ {acts : List Act} {keys keys' : List (Nat × Nat)}, keys.Perm keys' →
    fit c acts keys = fit c acts keys'
  | [], _, _, _ => rfl
  | x :: acts, keys, keys', h => by
      have hx : x.fits c keys = x.fits c keys' := by
        cases x with
        | enter s => simp [Act.fits, h.length_eq]
        | _ => rfl
      unfold fit
      rw [hx, fit_perm (x.live_perm h)]

/-! ## Acts that fit -/

/-- A popped timer that repeats finds its own place again. -/
theorem keys_rearm_perm {tt tt' : TimerTable tn} {s t : Nat}
    (hpop : tt.popExpired c.depth = some ((s, t), tt')) (hnd : tt.keys.Nodup) :
    (rearm c u s t tt').keys.Perm (Act.live c (.fire s t) tt.keys) := by
  have hperm := TimerTable.perm_keys_popExpired hpop
  simp only [rearm, Act.live]
  split
  · have hnew := (List.nodup_cons.mp (hperm.nodup_iff.mpr hnd)).1
    have hlen : tt'.keys.length < tn := by
      have h₁ := hperm.length_eq
      have h₂ := tt.entries.length_le
      rw [← TimerTable.length_keys] at h₂
      rw [List.length_cons] at h₁
      omega
    rw [TimerTable.keys_start_of_lt hnew hlen]
    exact (List.perm_append_singleton _ _).trans hperm
  · have := hperm.erase (s, t)
    rwa [List.erase_cons_head] at this

/-- What an act that fits does to the live timers. -/
theorem Core.Step.keys_perm (S : c.Sound) {x : Act} {a b : Core c.maxTimers}
    (h : Core.Step c u x a b) (hn : a.Nested S) (hok : a.TimersOk c)
    (hfit : x.fits c a.timers.keys = true) : b.timers.keys.Perm (x.live c a.timers.keys) := by
  have hnd := (h.nested hn).nodup
  cases h with
  | @enter s st tt j acts _ _ _ =>
      have hnew : ∀ t ∈ c.ownedTimers s, (s, t) ∉ tt.keys :=
        fun t _ hmem => (List.nodup_cons.mp hnd).1 (hok.owned _ hmem).1
      exact .of_eq (keys_starts _ (S.ownedTimers_nodup s) hnew (of_decide_eq_true hfit))
  | @leave s st tt j acts _ =>
      simp only [cancelOwned, Act.live]
      split
      · rw [TimerTable.keys_cancelState]
      · rename_i hno
        have hnil : tt.keys = [] := by
          rw [List.eq_nil_iff_forall_not_mem]
          intro k hk
          exact hno (S.hasTimers_of_owned (hok.owned k hk).2)
        rw [hnil]
        exact .nil
  | tick =>
      simp only [Act.live]
      split
      · rw [TimerTable.keys_decrement]
      · exact .rfl
  | fire hpop => exact keys_rearm_perm hpop hok.nodup

theorem eq_enter_of_mem_word {x : Act} {s : Nat}
    (h : TraceEvent.entered s ∈ Core.word c u x) : x = .enter s := by
  cases x with
  | enter s' =>
      simp only [Core.word, armedEvent, List.mem_append, List.mem_map, reduceCtorEq, and_false,
        exists_false, List.mem_singleton, TraceEvent.entered.injEq, false_or] at h
      rw [h]
  | leave s' => simp [Core.word] at h
  | tick _ => simp [Core.word] at h
  | fire s' t' =>
      simp only [Core.word, fireWord] at h
      split at h <;> simp [armedEvent] at h

/-- Only entering a state makes its timers unfired. -/
theorem Core.Step.firedSince {x : Act} {a b : Core tn} (h : Core.Step c u x a b) {s t : Nat}
    (hx : x ≠ .enter s) (hf : FiredSince a.journal s t) : FiredSince b.journal s t := by
  obtain ⟨w, hj, hv⟩ := h.visible
  rw [hj]
  refine hf.append ?_
  intro hmem
  refine hx (eq_enter_of_mem_word (c := c) (u := u) ?_)
  rw [← hv, List.mem_filter]
  exact ⟨hmem, rfl⟩

/-- An act that fits loses no timer. -/
theorem Core.Step.armed (S : c.Sound) {x : Act} {a b : Core c.maxTimers}
    (h : Core.Step c u x a b) (hn : a.Nested S) (hok : a.TimersOk c)
    (hfit : x.fits c a.timers.keys = true) (ha : a.Armed c) : b.Armed c := by
  have hkeys := h.keys_perm S hn hok hfit
  intro s hs t ht hcond
  rw [hkeys.mem_iff]
  by_cases hx : x = .enter s
  · subst hx
    exact List.mem_append_right _ (List.mem_map_of_mem ht)
  · have hold : s ∈ a.active → (s, t) ∈ a.timers.keys := fun hs =>
      ha s hs t ht (hcond.imp_right fun hno hf => hno (h.firedSince hx hf))
    have hnd := hn.nodup
    cases h with
    | enter _ _ _ =>
        have hs := (List.mem_cons.mp hs).resolve_left fun he => hx (he ▸ rfl)
        exact List.mem_append_left _ (hold hs)
    | @leave s' st tt j acts _ =>
        have hne : s ≠ s' := fun he => (List.nodup_cons.mp hnd).1 (he ▸ hs)
        exact List.mem_filter.mpr ⟨hold (List.mem_cons_of_mem _ hs), by simpa using hne⟩
    | tick => exact hold hs
    | @fire s' t' st tt tt' j _ =>
        simp only [Act.live]
        split
        · exact hold hs
        · rename_i hr
          by_cases he : (s, t) = (s', t')
          · cases he
            exact absurd (firedSince_fireWord j hr) (hcond.resolve_left hr)
          · exact (List.mem_erase_of_ne he).mpr (hold hs)

/-- Acts that fit lose no timer. -/
theorem Core.Run.armed (S : c.Sound) {acts : List Act} {a b : Core c.maxTimers}
    (h : Core.Run c u acts a b) (hn : a.Nested S) (hok : a.TimersOk c)
    (hfit : fit c acts a.timers.keys = true) (ha : a.Armed c) : b.Armed c := by
  induction h with
  | refl => exact ha
  | @note acts st tt j w b hw _ ih =>
      refine ih hn ⟨hok.nodup, hok.owned⟩ hfit ?_
      intro s hs t ht hcond
      refine ha s hs t ht (hcond.imp_right fun hno hf => hno (hf.append fun hmem => ?_))
      exact hw _ hmem
  | act hx _ ih =>
      unfold fit at hfit
      rw [Bool.and_eq_true] at hfit
      refine ih (hx.nested hn) (hx.timersOk S hok) ?_ (hx.armed S hn hok hfit.1 ha)
      rw [fit_perm (hx.keys_perm S hn hok hfit.1)]
      exact hfit.2

/-! ## Calls of `start` -/

variable (c u) in
/-- Each call of `start` that an act makes on a table finds an entry or a place for its timer. -/
def Act.StartsFit (x : Act) (tt : TimerTable tn) : Prop :=
  match x with
  | .enter s => ∀ before t after, c.ownedTimers s = before ++ t :: after →
      (before.foldl (fun tt t => tt.start s t (durationFor c u t)) tt).Room s t
  | .fire s t => c.durationRepeats t = true →
      ∀ tt', tt.popExpired c.depth = some ((s, t), tt') → tt'.Room s t
  | _ => True

/-- A start takes one more place at most. -/
theorem length_keys_starts_le (s : Nat) : ∀ (l : List Nat) (tt : TimerTable tn),
    (l.foldl (fun tt t => tt.start s t (durationFor c u t)) tt).keys.length ≤
      tt.keys.length + l.length
  | [], tt => Nat.le_refl _
  | t :: l, tt => by
      have hone : (tt.start s t (durationFor c u t)).keys.length ≤ tt.keys.length + 1 := by
        rcases TimerTable.start_cases tt s t (durationFor c u t) with ⟨hmem, -⟩ | ⟨hno, hlt, -⟩ |
          ⟨-, -, he⟩
        · rw [TimerTable.keys_start_of_mem hmem]
          exact Nat.le_succ _
        · rw [TimerTable.keys_start_of_lt hno hlt, List.length_append, List.length_singleton]
        · rw [he]
          exact Nat.le_succ _
      have hrest := length_keys_starts_le s l (tt.start s t (durationFor c u t))
      rw [List.foldl_cons, List.length_cons]
      omega

theorem Act.startsFit_of_fits {x : Act} {tt : TimerTable c.maxTimers}
    (h : x.fits c tt.keys = true) : x.StartsFit c u tt := by
  cases x with
  | enter s =>
      intro before t after hsplit
      have hfit : tt.keys.length + (c.ownedTimers s).length ≤ c.maxTimers := of_decide_eq_true h
      have hle := length_keys_starts_le (c := c) (u := u) s before tt
      rw [hsplit, List.length_append, List.length_cons] at hfit
      exact .inr (by omega)
  | fire s t =>
      intro _ tt' hpop
      have hlen := (TimerTable.perm_keys_popExpired hpop).length_eq
      have hle := tt.entries.length_le
      rw [← TimerTable.length_keys] at hle
      rw [List.length_cons] at hlen
      exact .inr (by omega)
  | leave _ | tick _ => trivial

/-- In a sequence of acts that fits, each act fits the table that the acts before it leave. -/
theorem Core.Run.fits_next (S : c.Sound) {acts : List Act} {a b : Core c.maxTimers}
    (h : Core.Run c u acts a b) (hn : a.Nested S) (hok : a.TimersOk c) {x : Act}
    {rest : List Act} (hfit : Hsmc.fit c (acts ++ x :: rest) a.timers.keys = true) :
    x.fits c b.timers.keys = true := by
  induction h with
  | refl =>
      rw [List.nil_append, Hsmc.fit, Bool.and_eq_true] at hfit
      exact hfit.1
  | note _ _ ih => exact ih hn ⟨hok.nodup, hok.owned⟩ hfit
  | act hx _ ih =>
      rw [List.cons_append, Hsmc.fit, Bool.and_eq_true] at hfit
      refine ih (hx.nested hn) (hx.timersOk S hok) ?_
      rw [fit_perm (hx.keys_perm S hn hok hfit.1)]
      exact hfit.2

/-- In a run whose steps all find room in the table, every timer of an active state is live
    unless it is a one-shot that has fired since the state was entered; and in the next step
    that finds room no call of `start` drops its timer, whichever act of the step makes it. -/
theorem no_timer_lost (hc : statechartImpl input = .ok c) {m : ChartMachine c Ev Ctx qn}
    (h : RunsWith c u (StepFits c u) m) :
    (∀ s ∈ c.activePath m.current, ∀ t ∈ c.ownedTimers s,
      c.durationRepeats t = true ∨ ¬ FiredSince m.journal s t → (s, t) ∈ m.timers.keys) ∧
    ∀ elapsed, StepFits c u m elapsed → ∀ acts x rest,
      stepActs c u m elapsed = acts ++ x :: rest → ∀ a, Core.Run c u acts (m.core c) a →
        x.StartsFit c u a.timers := by
  obtain ⟨S⟩ := sound hc
  obtain ⟨hv, hok, harmed⟩ := h.invariant S
    (I := fun m => (m.core c).TimersOk c ∧ (m.core c).Armed c)
    (fun _ => ⟨Core.timersOk_initial, fun _ h => (nomatch h)⟩)
    (fun m m' hsame hI => by rw [hsame.core_eq]; exact hI)
    (fun m m' elapsed hv hfit hs hI =>
      ⟨hs.timersOk S hI.1, hs.run.armed S (hv.nested S) hI.1 hfit hI.2⟩)
  refine ⟨harmed, fun elapsed hfit acts x rest hacts a hrun => ?_⟩
  have hfit : fit c (acts ++ x :: rest) m.timers.keys = true := by
    rw [← hacts]
    exact hfit
  exact Act.startsFit_of_fits (hrun.fits_next S (hv.nested S) hok hfit)

theorem lampStart_isOk : (step lampChart countCode
    (.new 0 : ChartMachine lampChart Ident Nat 4) 0).isOk = true := by
  decide +kernel

/-- The lamp, started and about to be toggled. -/
def lampReady : ChartMachine lampChart Ident Nat 4 :=
  ((Except.get _ lampStart_isOk).2.send "Toggle").2

theorem lampReady_isOk : (step lampChart countCode lampReady 7).isOk = true := by
  decide +kernel

/-- The lamp, on for the first time. -/
def lampLit : ChartMachine lampChart Ident Nat 4 := (Except.get _ lampReady_isOk).2

theorem lampStart_fits :
    StepFits lampChart countCode (.new 0 : ChartMachine lampChart Ident Nat 4) 0 := by
  unfold StepFits
  decide +kernel

theorem lampReady_fits : StepFits lampChart countCode lampReady 7 := by
  unfold StepFits
  decide +kernel

/-- The timer of `On` is live when the lamp is lit, and found room when `On` was entered. -/
theorem no_timer_lost_lamp : (2, 0) ∈ lampLit.timers.keys ∧
    ∀ a, Core.Run lampChart countCode [.tick 7, .leave 1] (lampReady.core lampChart) a →
      (Act.enter 2).StartsFit lampChart countCode a.timers := by
  have hready : RunsWith lampChart countCode (StepFits lampChart countCode) lampReady :=
    .send "Toggle" (.step (.new 0) lampStart_fits (Except.eq_ok_get _ lampStart_isOk))
  have hno : .timerFired 2 0 ∉ lampLit.journal := by decide +kernel
  refine ⟨(no_timer_lost lamp_accepted
    (.step hready lampReady_fits (Except.eq_ok_get _ lampReady_isOk))).1
      2 (by decide +kernel) 0 (by decide +kernel) (Or.inr fun hf => hno hf.mem), ?_⟩
  exact (no_timer_lost lamp_accepted hready).2 7 lampReady_fits _ _ [] (by decide +kernel)

/-- Two nested states with a timer of the same duration. -/
def nap : StatechartInput where
  name := "Nap"
  body := {
    contextTy := some "NapCtx", defaultChild := some "Light", defaultCount := 1
    handlers := [
      ⟨.duration ["Duration", "::", "from_nanos", "(", "50", ")"] "Duration::from_nanos(50)" false,
        "yawn", 0⟩] }
  children := [
    .mk "Light" {
      handlers := [
        ⟨.duration ["Duration", "::", "from_nanos", "(", "50", ")"]
          "Duration::from_nanos(50)" false, "Deep", 0⟩] } [],
    .mk "Deep" { entries := ["snore"] } []]

def napChart : Chart := (statechartImpl nap).get (by decide +kernel)

theorem nap_accepted : statechartImpl nap = .ok napChart := Except.eq_ok_get _ _

theorem napStart_isOk : (step napChart countCode
    (.new 0 : ChartMachine napChart Ident Nat 4) 0).isOk = true := by
  decide +kernel

def napStarted : ChartMachine napChart Ident Nat 4 := (Except.get _ napStart_isOk).2

/-- After the first step `Light` is active and has journaled that its timer is armed, but the
    table, which has room for one entry, holds the timer of the root. -/
theorem armed_timer_lost : statechartImpl nap = .ok napChart ∧
    Reachable napChart countCode napStarted ∧ 1 ∈ napChart.activePath napStarted.current ∧
    0 ∈ napChart.ownedTimers 1 ∧ .timerArmed 1 0 50 ∈ napStarted.journal ∧
    ¬ FiredSince napStarted.journal 1 0 ∧ (1, 0) ∉ napStarted.timers.keys := by
  have hno : .timerFired 1 0 ∉ napStarted.journal := by decide +kernel
  refine ⟨nap_accepted, .step (.new 0) (Except.eq_ok_get _ napStart_isOk), by decide +kernel,
    by decide +kernel, by decide +kernel, fun hf => hno hf.mem, by decide +kernel⟩

end Hsmc
