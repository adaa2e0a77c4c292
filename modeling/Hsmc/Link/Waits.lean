import Hsmc.Link.Emits
import Hsmc.Link.Loop
import Hsmc.Link.TimerOps

/-
  Waiting.

  A step that comes before any timer is due and finds nothing queued only lets the time pass
  (`Resting.step`), and what comes after it does not see that it was taken
  (`step_decrementTimers`, `runTurn_waited`).
-/

namespace Hsmc

open Machine

variable {Ev Ctx Val : Type} {qn tn : Nat} {c : Chart} {u : UserCode Ev Ctx Val}
  {m m' : Machine Ev Ctx qn tn} {a b : Nat}

theorem asU64_le (d : Nat) : asU64 d ≤ d := Nat.mod_le _ _

namespace TimerTable

variable {n : Nat} {t : TimerTable n}

theorem decrement_decrement (hlt : a + b < 2 ^ 64) :
    (t.decrement a).decrement b = t.decrement (a + b) := by
  have ha : asU64 a = a := Nat.mod_eq_of_lt (by omega)
  have hb : asU64 b = b := Nat.mod_eq_of_lt (by omega)
  have hab : asU64 (a + b) = a + b := Nat.mod_eq_of_lt hlt
  unfold decrement
  refine congrArg TimerTable.mk (Bounded.eq_of_items ?_)
  simp only [Bounded.items_map, List.map_map, ha, hb, hab, Function.comp_def, Nat.sub_sub]

/-- Time that is shorter than what remains expires nothing. -/
theorem popExpired_decrement_eq_none {depth : List Nat}
    (h : ∀ d, t.minRemaining = some d → a < d) : (t.decrement a).popExpired depth = none := by
  rw [popExpired_eq_none_iff, List.eq_nil_iff_forall_not_mem]
  intro e he
  obtain ⟨hmem, hzero⟩ := mem_expired.mp he
  obtain ⟨e₀, he₀, rfl⟩ := mem_decrement.mp hmem
  have hle := asU64_le a
  have hr : e₀.remainingNs ∈ t.entries.items.map (·.remainingNs) := List.mem_map_of_mem he₀
  cases hd : t.minRemaining with
  | none =>
      unfold minRemaining at hd
      rw [List.min?_eq_none_iff] at hd
      rw [hd] at hr
      cases hr
  | some d =>
      have hlt := h d hd
      have hmin := (List.min?_eq_some_iff.mp hd).2 _ hr
      simp only at hzero
      omega

theorem minRemaining_decrement :
    (t.decrement a).minRemaining = t.minRemaining.map (· - asU64 a) := by
  unfold minRemaining decrement
  simp only [Bounded.map, List.map_map]
  cases hd : (t.entries.items.map (·.remainingNs)).min? with
  | none =>
      rw [List.min?_eq_none_iff, List.map_eq_nil_iff] at hd
      simp [hd]
  | some d =>
      obtain ⟨hmem, hmin⟩ := List.min?_eq_some_iff.mp hd
      obtain ⟨e, he, rfl⟩ := List.mem_map.mp hmem
      refine List.min?_eq_some_iff.mpr ⟨List.mem_map.mpr ⟨e, he, rfl⟩, ?_⟩
      intro r hr
      obtain ⟨e', he', rfl⟩ := List.mem_map.mp hr
      exact Nat.sub_le_sub_right (hmin _ (List.mem_map_of_mem he')) _

theorem decrement_of_nil (h : t.entries.items = []) : t.decrement a = t := by
  obtain ⟨⟨items, hle⟩⟩ := t
  cases h
  rfl

end TimerTable

/-! ## A step -/

theorem decrementTimers_decrementTimers (hlt : a + b < 2 ^ 64) :
    decrementTimers c b (decrementTimers c a m) = decrementTimers c (a + b) m := by
  unfold decrementTimers
  split
  · simp only [TimerTable.decrement_decrement hlt]
  · rfl

theorem minRemaining_decrementTimers :
    minRemaining c (decrementTimers c a m) = (minRemaining c m).map (· - asU64 a) := by
  unfold minRemaining decrementTimers
  split
  · exact TimerTable.minRemaining_decrement
  · rfl

/-- Waiting for less than the time to the next timer pops none. -/
theorem popTimer_of_early (h : ∀ d, minRemaining c m = some d → a < d) :
    popTimer c (decrementTimers c a m) = none := by
  unfold minRemaining at h
  unfold popTimer decrementTimers
  split
  · rename_i ht
    rw [if_pos ht] at h
    exact TimerTable.popExpired_decrement_eq_none h
  · rfl

/-- When no timer is live, time leaves no trace. -/
theorem decrementTimers_of_none (h : minRemaining c m = none) : decrementTimers c a m = m := by
  unfold minRemaining at h
  unfold decrementTimers
  split
  · rename_i ht
    rw [if_pos ht] at h
    unfold TimerTable.minRemaining at h
    rw [List.min?_eq_none_iff, List.map_eq_nil_iff] at h
    rw [TimerTable.decrement_of_nil h]
  · rfl

/-- A step is told only the sum of the times that have passed. -/
theorem step_decrementTimers (hcur : m.current.isSome) (ht : m.terminated = false)
    (hlt : a + b < 2 ^ 64) : step c u (decrementTimers c a m) b = step c u m (a + b) := by
  obtain ⟨cur, hcur⟩ := Option.isSome_iff_exists.mp hcur
  unfold step
  simp only [terminated_decrementTimers, current_decrementTimers, ht, hcur, Option.isNone_some,
    Bool.false_eq_true, ↓reduceIte, decrementTimers_decrementTimers hlt]

/-! ## A turn of the loop -/

/-- The loop has nothing to do before the next timer is due, or something happens. -/
structure Resting (c : Chart) (s : RunState Ev Ctx qn tn) : Prop where
  running : s.machine.terminated = false
  clear : s.machine.overflow = false
  current : s.machine.current.isSome
  queue : s.machine.queue.items = []
  next : s.next = minRemaining c s.machine

/-- The loop after waiting for `a`, when the clock reads `now`. -/
def waited (c : Chart) (a now : Nat) (s : RunState Ev Ctx qn tn) : RunState Ev Ctx qn tn where
  machine := decrementTimers c a s.machine
  next := minRemaining c (decrementTimers c a s.machine)
  lastInstant := now

theorem pollDurings_decrementTimers (f : Ctx → Ctx) :
    pollDurings c f (decrementTimers c a m) = decrementTimers c a (pollDurings c f m) := by
  unfold pollDurings decrementTimers
  split <;> split <;> simp_all

theorem queue_decrementTimers_comm (queue : Bounded Ev qn) :
    { decrementTimers c a m with queue } = decrementTimers c a { m with queue } := by
  unfold decrementTimers
  split <;> rfl

section

variable {k : RunKind} {w w₁ : Wake Ev Ctx} {s : RunState Ev Ctx qn tn} {now : Nat}

theorem Resting.polled (h : Resting c s) (f : Ctx → Ctx) :
    Resting c { s with machine := pollDurings c f s.machine } := by
  obtain ⟨hsame, hq, ho⟩ := sameCore_pollDurings (c := c) f s.machine
  refine ⟨hsame.terminated.trans h.running, ho.trans h.clear, ?_, ?_, ?_⟩
  · rw [hsame.current]
    exact h.current
  · rw [hq]
    exact h.queue
  · rw [h.next]
    unfold minRemaining
    rw [hsame.timers]

/-- The loop goes on from where it waited as if it had not been woken. -/
theorem runTurn_waited (h : Resting c s)
    (hsum : a + k.elapsed (w.now - now) = k.elapsed (w.now - s.lastInstant))
    (hlt : k.elapsed (w.now - s.lastInstant) < 2 ^ 64) :
    runTurn c u k w (waited c a now s) = runTurn c u k w s := by
  have hstep : ∀ m₁ : Machine Ev Ctx qn tn, m₁.current.isSome → m₁.terminated = false →
      step c u (decrementTimers c a m₁) (k.elapsed (w.now - now)) =
        step c u m₁ (k.elapsed (w.now - s.lastInstant)) := by
    intro m₁ hcur ht
    rw [step_decrementTimers hcur ht (by rw [hsum]; exact hlt), hsum]
  have hnil : ∀ m₁ : Machine Ev Ctx qn tn, s.next = minRemaining c m₁ → s.next.isNone = true →
      decrementTimers c a m₁ = m₁ := by
    intro m₁ hnext hn
    exact decrementTimers_of_none (hnext ▸ Option.isNone_iff_eq_none.mp hn)
  have hnone : (waited c a now s).next.isNone = s.next.isNone := by
    rw [h.next]
    simp [waited, minRemaining_decrementTimers]
  have hto : (decrementTimers c a s.machine).takeOverflow =
      (false, decrementTimers c a s.machine) := takeOverflow_of_clear (by simp [h.clear])
  unfold runTurn
  rw [hnone]
  simp only [waited, terminated_decrementTimers, current_decrementTimers, hto,
    takeOverflow_of_clear h.clear, h.running, queue_decrementTimers, h.queue, List.isEmpty_nil,
    Bool.not_true, Bool.false_eq_true, ↓reduceIte]
  split
  · rename_i hidle
    simp only [Bool.and_eq_true] at hidle
    rw [hnil _ h.next hidle.1.2]
  · obtain ⟨ht, -, hcur, -, hnext⟩ := h.polled w.durings
    rw [pollDurings_decrementTimers]
    generalize pollDurings c w.durings s.machine = m₁ at ht hcur hnext ⊢
    cases w.race with
    | event ev =>
        simp only [runStep, queue_decrementTimers]
        rw [queue_decrementTimers_comm,
          hstep { m₁ with queue := (m₁.queue.push ev).getD m₁.queue } hcur ht]
    | channelClosed =>
        simp only [runStep]
        split
        · rename_i hclosed
          simp only [Bool.and_eq_true] at hclosed
          rw [hnil _ hnext hclosed.2]
        · rw [hstep _ hcur ht]
    | timer =>
        simp only [runStep]
        rw [hstep _ hcur ht]

/-- What ends a timer-only loop at rest: no next timer, and no race arm. -/
def givesUp (c : Chart) (k : RunKind) (s : RunState Ev Ctx qn tn) : Bool :=
  !k.channel && s.next.isNone && !c.hasActiveDuring s.machine.current

theorem runTurn_of_givesUp (h : Resting c s) (hg : givesUp c k s = true) :
    runTurn c u k w s = .ok (.returned (.ok ()) s.machine) := by
  unfold givesUp at hg
  unfold runTurn
  simp only [takeOverflow_of_clear h.clear, h.running, h.queue, List.isEmpty_nil, Bool.not_true,
    Bool.false_eq_true, ↓reduceIte, hg]

/-- A wake of the timer before any timer is due: the durings were polled, and time has passed. -/
theorem runTurn_early (h : Resting c s) (hg : givesUp c k s = false) (hr : w.race = .timer)
    (hlt : ∀ d, s.next = some d → k.elapsed (w.now - s.lastInstant) < d) :
    runTurn c u k w s = .ok (.looping (waited c (k.elapsed (w.now - s.lastInstant)) w.now
      { s with machine := pollDurings c w.durings s.machine })) := by
  obtain ⟨ht, -, hcur, hq, hnext⟩ := h.polled w.durings
  obtain ⟨cur, hcur⟩ := Option.isSome_iff_exists.mp hcur
  unfold givesUp at hg
  unfold runTurn
  simp only [takeOverflow_of_clear h.clear, h.running, h.queue, List.isEmpty_nil, Bool.not_true,
    Bool.false_eq_true, ↓reduceIte, hg, hr, runStep]
  rw [step_of_idle ht hcur (popTimer_of_early (hnext ▸ hlt)) (Bounded.popFront_eq_none_iff.mpr hq)]
  rfl

theorem pollDurings_pollDurings (f g : Ctx → Ctx) :
    pollDurings c f (pollDurings c g m) = pollDurings c (f ∘ g) m := by
  unfold pollDurings
  split <;> simp_all

/-- The wake `w` after a wake that only polled the durings. -/
def Wake.absorb (w₁ w : Wake Ev Ctx) : Wake Ev Ctx := { w with durings := w.durings ∘ w₁.durings }

theorem runTurn_polled (h : Resting c s) (hg : givesUp c k s = false) :
    runTurn c u k w { s with machine := pollDurings c w₁.durings s.machine } =
      runTurn c u k (w₁.absorb w) s := by
  obtain ⟨ht, ho, hcur, hq, hnext⟩ := h.polled w₁.durings
  have hsame := (sameCore_pollDurings (c := c) w₁.durings s.machine).1.current
  unfold givesUp at hg
  unfold runTurn
  simp only at ht ho hq
  simp only [takeOverflow_of_clear h.clear, h.running, h.queue, takeOverflow_of_clear ho, ht, hq,
    hsame, List.isEmpty_nil, Bool.not_true, Bool.false_eq_true, ↓reduceIte, hg, Wake.absorb,
    pollDurings_pollDurings, runStep]

end

end Hsmc
