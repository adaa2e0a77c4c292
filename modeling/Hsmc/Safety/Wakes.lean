import Hsmc.Link.Serve
import Hsmc.Link.Waits
import Hsmc.Safety.Clock
import Hsmc.Safety.Durings

/-
  Wakes before their time.

  The race of the loop may end before any timer is due: a during completed, or the executor
  polled early. Such a wake costs nothing (`early_wakes_absorbed`): the loop goes on as if the
  durings had been polled at the next wake.
-/

namespace Hsmc

open Machine

variable {Ev Ctx Val : Type} {qn tn : Nat} {input : StatechartInput} {c : Chart}
  {u : UserCode Ev Ctx Val} {k : RunKind} {w : Wake Ev Ctx}

/-- What `step` answers is the time to the next timer. -/
theorem step_answer {m m' : Machine Ev Ctx qn tn} {a : Nat} {next : Option Nat}
    (h : step c u m a = .ok (next, m'))
    (ht' : m'.terminated = false) : next = minRemaining c m' := by
  unfold step at h
  split at h
  · rename_i ht
    cases h
    rw [ht'] at ht
    cases ht
  · split at h
    · obtain ⟨m₁, -, h⟩ := Except.bind_eq_ok.mp h
      cases h
      rfl
    · simp only at h
      split at h
      · rename_i hpop
        obtain ⟨m₁, -, h⟩ := Except.bind_eq_ok.mp h
        cases h
        unfold popTimer at hpop
        split at hpop
        · rename_i hh
          unfold minRemaining
          rw [if_pos hh]
        · cases hpop
      · split at h
        · cases h
          rfl
        · split at h
          · obtain ⟨m₁, hm₁, h⟩ := Except.bind_eq_ok.mp h
            cases h
            rw [terminated_of_doTerminate hm₁] at ht'
            cases ht'
          · obtain ⟨m₁, -, h⟩ := Except.bind_eq_ok.mp h
            cases h
            rfl

/-- The loop knows the time to the next timer. -/
theorem Looping.next_eq (S : c.Sound) {s : RunState Ev Ctx qn c.maxTimers} (h : Looping c u k s)
    (ht : s.machine.terminated = false) :
    s.machine.current.isSome ∧ s.next = minRemaining c s.machine := by
  cases h with
  | start hm hs =>
      obtain ⟨-, -, hstep, -⟩ := runStart_looping hs
      exact ⟨(started_of_step S (hm.valid S) hstep).2 ht, step_answer hstep ht⟩
  | turn h hturn =>
      obtain ⟨-, m₁, hp, hstep, -⟩ := runTurn_looping hturn
      have hv := (hp.reachable h.reachable).valid S
      exact ⟨(started_of_step S hv hstep).2 ht, step_answer hstep ht⟩

/-! ## Readings -/

/-- A reading that the loop subtracts from others without rounding. -/
def RunKind.Whole (k : RunKind) (now : Nat) : Prop :=
  ∃ channel, k = tokio channel ∨ (k = embassy channel ∧ 1000 ∣ now)

theorem RunKind.Whole.elapsed {a b : Nat} (ha : k.Whole a) (hb : k.Whole b) :
    k.elapsed (b - a) = b - a := by
  obtain ⟨channel, rfl | ⟨rfl, ha⟩⟩ := ha
  · rfl
  · obtain ⟨channel', h | ⟨-, hb⟩⟩ := hb
    · cases congrArg RunKind.closes h
    · exact Nat.div_mul_cancel (Nat.dvd_sub hb ha)

/-! ## Wakes before their time -/

section

variable {s : RunState Ev Ctx qn tn}

@[simp] theorem now_absorb (w₁ w : Wake Ev Ctx) : (w₁.absorb w).now = w.now := rfl

@[simp] theorem now_foldr_absorb : ∀ (early : List (Wake Ev Ctx)) (w : Wake Ev Ctx),
    (early.foldr Wake.absorb w).now = w.now
  | [], _ => rfl
  | _ :: early, w => now_foldr_absorb early w

theorem Resting.waited (h : Resting c s) (a now : Nat) : Resting c (waited c a now s) where
  running := (terminated_decrementTimers a _).trans h.running
  clear := (overflow_decrementTimers a _).trans h.clear
  current := by
    unfold Hsmc.waited
    rw [current_decrementTimers]
    exact h.current
  queue := by
    unfold Hsmc.waited
    rw [queue_decrementTimers]
    exact h.queue
  next := rfl

/-- One early wake, with the wake that follows it. -/
theorem runLoop_early {w₁ w : Wake Ev Ctx} {ws : List (Wake Ev Ctx)} (h : Resting c s)
    (hg : givesUp c k s = false) (hr : w₁.race = .timer)
    (hlt : ∀ d, s.next = some d → k.elapsed (w₁.now - s.lastInstant) < d)
    (hsum : k.elapsed (w₁.now - s.lastInstant) + k.elapsed (w.now - w₁.now) =
      k.elapsed (w.now - s.lastInstant))
    (hw : k.elapsed (w.now - s.lastInstant) < 2 ^ 64) :
    runLoop c u k (w₁ :: w :: ws) (.looping s) =
      runLoop c u k (w₁.absorb w :: ws) (.looping s) := by
  rw [runLoop, runTurn_early h hg hr hlt, Except.ok_bind_eq, runLoop,
    runTurn_waited (h.polled w₁.durings) hsum hw, runTurn_polled h hg, ← runLoop]

/-- A loop that gives up returns whatever its first wake is. -/
theorem runLoop_of_givesUp (h : Resting c s) (hg : givesUp c k s = true) (ws : List (Wake Ev Ctx)) :
    runLoop c u k (w :: ws) (.looping s) = .ok (.returned (.ok ()) s.machine) := by
  rw [runLoop, runTurn_of_givesUp h hg, Except.ok_bind_eq, runLoop_returned]

/-- A loop that is about to return does so whatever the schedule is. -/
theorem runLoop_of_halted (h : s.machine.terminated = true ∨ s.machine.overflow = true)
    (w w' : Wake Ev Ctx) (ws ws' : List (Wake Ev Ctx)) :
    runLoop c u k (w :: ws) (.looping s) = runLoop c u k (w' :: ws') (.looping s) := by
  unfold runLoop runTurn
  cases ht : s.machine.terminated with
  | true => simp only [↓reduceIte, Except.ok_bind_eq, runLoop_returned]
  | false =>
      have ho : s.machine.takeOverflow.1 = true := h.resolve_left (by simp [ht])
      simp only [ho, Bool.false_eq_true, ↓reduceIte, Except.ok_bind_eq, runLoop_returned]

/-- The wakes `early` of the timer come before any timer is due, and `w` comes after them. -/
structure EarlyWakes (k : RunKind) (s : RunState Ev Ctx qn tn) (early : List (Wake Ev Ctx))
    (w : Wake Ev Ctx) : Prop where
  race : ∀ w' ∈ early, w'.race = .timer
  before : ∀ w' ∈ early, ∀ d, s.next = some d → w'.now < s.lastInstant + d
  sorted : (s.lastInstant :: (early ++ [w]).map Wake.now).Pairwise (· ≤ ·)
  whole : ∀ t ∈ s.lastInstant :: (early ++ [w]).map Wake.now, k.Whole t
  short : w.now - s.lastInstant < 2 ^ 64

namespace EarlyWakes

variable {w₁ : Wake Ev Ctx} {early : List (Wake Ev Ctx)} (h : EarlyWakes k s (w₁ :: early) w)
include h

theorem first_le : s.lastInstant ≤ w₁.now :=
  List.rel_of_pairwise_cons h.sorted List.mem_cons_self

theorem le_last : w₁.now ≤ w.now :=
  List.rel_of_pairwise_cons (List.pairwise_cons.mp h.sorted).2
    (List.mem_map_of_mem (List.mem_append_right _ List.mem_cons_self))

/-- The loop subtracts the readings of the wakes exactly. -/
theorem elapsed : k.elapsed (w₁.now - s.lastInstant) = w₁.now - s.lastInstant ∧
    k.elapsed (w.now - w₁.now) = w.now - w₁.now ∧
    k.elapsed (w.now - s.lastInstant) = w.now - s.lastInstant := by
  obtain ⟨hs, hw₁, hrest⟩ : k.Whole s.lastInstant ∧ k.Whole w₁.now ∧
      ∀ t ∈ (early ++ [w]).map Wake.now, k.Whole t := by
    simpa only [List.cons_append, List.map_cons, List.forall_mem_cons] using h.whole
  have hw := hrest w.now (List.mem_map_of_mem (List.mem_append_right _ List.mem_cons_self))
  exact ⟨hs.elapsed hw₁, hw₁.elapsed hw, hs.elapsed hw⟩

/-- After the first of the wakes, the others are still early. -/
theorem tail {s' : RunState Ev Ctx qn tn} (hnext : s.next = minRemaining c s'.machine) :
    EarlyWakes k (Hsmc.waited c (w₁.now - s.lastInstant) w₁.now s') early w where
  race := fun w' hw' => h.race w' (List.mem_cons_of_mem _ hw')
  before := by
    intro w' hw' d hd
    have hd : (s.next.map (· - asU64 (w₁.now - s.lastInstant))) = some d := by
      rw [hnext, ← minRemaining_decrementTimers]
      exact hd
    obtain ⟨d₀, hd₀, rfl⟩ := Option.map_eq_some_iff.mp hd
    have hlt := h.before w' (List.mem_cons_of_mem _ hw') d₀ hd₀
    have hle := h.first_le
    have hround := asU64_le (w₁.now - s.lastInstant)
    simp only [Hsmc.waited]
    omega
  sorted := (List.pairwise_cons.mp h.sorted).2
  whole := (List.forall_mem_cons.mp h.whole).2
  short := by
    have hle := h.first_le
    have hshort := h.short
    simp only [Hsmc.waited]
    omega

end EarlyWakes

theorem runLoop_early_all : ∀ {early : List (Wake Ev Ctx)} {s : RunState Ev Ctx qn tn}
    {ws : List (Wake Ev Ctx)}, Resting c s → EarlyWakes k s early w →
    runLoop c u k (early ++ w :: ws) (.looping s) =
      runLoop c u k (early.foldr Wake.absorb w :: ws) (.looping s)
  | [], _, _, _, _ => rfl
  | w₁ :: early, s, ws, h, hearly => by
      rw [List.cons_append, List.foldr_cons]
      cases hg : givesUp c k s with
      | true => rw [runLoop_of_givesUp h hg, runLoop_of_givesUp h hg]
      | false =>
          obtain ⟨he₁, he₂, he⟩ := hearly.elapsed
          have hle := hearly.first_le
          have hle₁ := hearly.le_last
          have hr := hearly.race w₁ List.mem_cons_self
          have hshort : ∀ d, s.next = some d → k.elapsed (w₁.now - s.lastInstant) < d := by
            intro d hd
            have := hearly.before w₁ List.mem_cons_self d hd
            omega
          have hpolled := h.polled w₁.durings
          rw [← runLoop_early h hg hr hshort (by rw [now_foldr_absorb]; omega)
            (by rw [now_foldr_absorb, he]; exact hearly.short), runLoop,
            runTurn_early h hg hr hshort, Except.ok_bind_eq, runLoop,
            runTurn_early h hg hr hshort, Except.ok_bind_eq, he₁]
          exact runLoop_early_all (hpolled.waited _ _) (hearly.tail hpolled.next)

end

/-- Early wakes cost nothing: from a loop with nothing queued, the run is the one in which the
    durings that they polled are polled at the next wake. -/
theorem early_wakes_absorbed (hc : statechartImpl input = .ok c)
    {s : RunState Ev Ctx qn c.maxTimers} (hs : Looping c u k s) (hq : s.machine.queue.items = [])
    {early ws : List (Wake Ev Ctx)} (h : EarlyWakes k s early w) :
    runLoop c u k (early ++ w :: ws) (.looping s) =
      runLoop c u k (early.foldr Wake.absorb w :: ws) (.looping s) := by
  obtain ⟨S⟩ := sound hc
  by_cases hgo : s.machine.terminated = true ∨ s.machine.overflow = true
  · cases early with
    | nil => rfl
    | cons w₁ early => exact runLoop_of_halted hgo _ _ _ _
  · rw [not_or, Bool.not_eq_true, Bool.not_eq_true] at hgo
    obtain ⟨hcur, hnext⟩ := hs.next_eq S hgo.1
    exact runLoop_early_all ⟨hgo.1, hgo.2, hcur, hq, hnext⟩ h

theorem lampLooping₁ : Looping lampChart countCode (tokio true) lampRun₁ :=
  .turn (.start (.new 0) (eq_looping lampStarts)) (eq_looping lampComesOn)

/-- The timer of the lamp, on since 1, is polled at 11 and 31 and fires at 51. -/
theorem early_wakes_absorbed_lamp :
    runLoop lampChart countCode (tokio true) [⟨id, .timer, 11⟩, ⟨id, .timer, 31⟩, ⟨id, .timer, 51⟩]
        (.looping lampRun₁) =
      runLoop lampChart countCode (tokio true) [⟨id, .timer, 51⟩] (.looping lampRun₁) :=
  have hnext : lampRun₁.next = some 50 ∧ lampRun₁.lastInstant = 1 := by decide +kernel
  have hearly : EarlyWakes (tokio true) lampRun₁ [⟨id, .timer, 11⟩, ⟨id, .timer, 31⟩]
      ⟨id, .timer, 51⟩ :=
    ⟨by simp, by simp [hnext], by simp [hnext], fun _ _ => ⟨true, .inl rfl⟩, by simp [hnext]⟩
  early_wakes_absorbed lamp_accepted lampLooping₁ (by decide +kernel) hearly

end Hsmc
