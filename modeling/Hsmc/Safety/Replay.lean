import Hsmc.Safety.Active
import Hsmc.Safety.Quiescent
import Hsmc.Safety.Room

/-
  What the journal tells.

  Replayed, a journal gives the active path (`Reachable.replays`) and, in a chart whose timers
  find room, the live timers (`Reachable.replays_timers`). So the journal alone tells where a
  machine stands, whatever code and contexts it ran with (`same_journal`).
-/

namespace Hsmc

open Machine

variable {Ev Ctx Val : Type} {qn : Nat} {input : StatechartInput} {c : Chart}
  {u : UserCode Ev Ctx Val}

/-! ## Replaying the timers -/

/-- A timer runs from when it is armed until it fires or its state is left. -/
def replayTimer (live : List (Nat × Nat)) : TraceEvent → List (Nat × Nat)
  | .timerArmed s t _ => (s, t) :: live
  | .timerFired s t => live.filter fun k => k != (s, t)
  | .exited s => live.filter fun k => k.1 != s
  | _ => live

def replayTimers (live : List (Nat × Nat)) (j : List TraceEvent) : List (Nat × Nat) :=
  j.foldl replayTimer live

theorem replayTimers_append (live : List (Nat × Nat)) (j w : List TraceEvent) :
    replayTimers live (j ++ w) = replayTimers (replayTimers live j) w :=
  List.foldl_append

/-- Only visible events start or end a timer. -/
theorem replayTimers_filter : ∀ (w : List TraceEvent) (live : List (Nat × Nat)),
    replayTimers live (w.filter Core.visible) = replayTimers live w
  | [], _ => rfl
  | e :: w, live => by
      have ih := replayTimers_filter w (replayTimer live e)
      unfold replayTimers at ih ⊢
      rw [List.foldl_cons, ← ih]
      cases e <;> rfl

theorem mem_replayTimers_armed {s : Nat} {k : Nat × Nat} : ∀ {l : List Nat}
    {live : List (Nat × Nat)}, k ∈ replayTimers live (l.map (armedEvent c u s)) ↔
      k ∈ live ∨ (k.1 = s ∧ k.2 ∈ l)
  | [], live => by simp [replayTimers]
  | t :: l, live => by
      have ih : k ∈ replayTimers ((s, t) :: live) (l.map (armedEvent c u s)) ↔
          k ∈ (s, t) :: live ∨ (k.1 = s ∧ k.2 ∈ l) := mem_replayTimers_armed
      refine ih.trans ?_
      obtain ⟨s', t'⟩ := k
      simp only [List.mem_cons, Prod.mk.injEq]
      tauto

/-- An act does to the replayed timers what it does to the live ones. -/
theorem mem_replayTimers_word {x : Act} {live keys : List (Nat × Nat)} (hnd : keys.Nodup)
    (hlive : ∀ k, k ∈ live ↔ k ∈ keys) (hfire : ∀ s t, x = .fire s t → (s, t) ∈ keys)
    (k : Nat × Nat) : k ∈ replayTimers live (Core.word c u x) ↔ k ∈ x.live c keys := by
  cases x with
  | enter s =>
      unfold Core.word
      rw [replayTimers_append]
      show k ∈ replayTimers live _ ↔ _
      rw [mem_replayTimers_armed, hlive]
      obtain ⟨s', t⟩ := k
      simp only [Act.live, List.mem_append, List.mem_map, Prod.mk.injEq, existsAndEq, and_true]
      tauto
  | leave s =>
      show k ∈ live.filter _ ↔ k ∈ keys.filter _
      rw [List.mem_filter, List.mem_filter, hlive]
  | tick _ => exact hlive k
  | fire s t =>
      have hmem := hfire s t rfl
      simp only [Core.word, fireWord, Act.live]
      split
      · show k ∈ (s, t) :: live.filter _ ↔ _
        rw [List.mem_cons, List.mem_filter, hlive, bne_iff_ne]
        by_cases hk : k = (s, t)
        · simp [hk, hmem]
        · simp [hk]
      · show k ∈ live.filter _ ↔ _
        rw [List.mem_filter, hlive, bne_iff_ne, hnd.mem_erase_iff, and_comm]

theorem Core.Step.replays_timers (S : c.Sound) {x : Act} {a b : Core c.maxTimers}
    (h : Core.Step c u x a b) (hn : a.Nested S) (hok : a.TimersOk c)
    (hfit : x.fits c a.timers.keys = true)
    (ha : ∀ k, k ∈ replayTimers [] a.journal ↔ k ∈ a.timers.keys) :
    ∀ k, k ∈ replayTimers [] b.journal ↔ k ∈ b.timers.keys := by
  intro k
  obtain ⟨w, hj, hv⟩ := h.visible
  have hfire : ∀ s t, x = .fire s t → (s, t) ∈ a.timers.keys := by
    rintro s t rfl
    cases h with
    | fire hpop => exact (TimerTable.perm_keys_popExpired hpop).subset List.mem_cons_self
  rw [hj, replayTimers_append, ← replayTimers_filter, hv, mem_replayTimers_word hok.nodup ha hfire,
    (h.keys_perm S hn hok hfit).mem_iff]

theorem Core.Run.replays_timers (S : c.Sound) (hroom : c.Roomy) {acts : List Act}
    {a b : Core c.maxTimers} (h : Core.Run c u acts a b) (hn : a.Nested S) (hok : a.TimersOk c)
    (ha : ∀ k, k ∈ replayTimers [] a.journal ↔ k ∈ a.timers.keys) :
    ∀ k, k ∈ replayTimers [] b.journal ↔ k ∈ b.timers.keys := by
  induction h with
  | refl => exact ha
  | @note acts st tt j w b hw _ ih =>
      refine ih hn ⟨hok.nodup, hok.owned⟩ fun k => ?_
      rw [replayTimers_append, ← replayTimers_filter, Core.filter_plain hw]
      exact ha k
  | act hx _ ih =>
      have hfit := hx.fits S hroom hn hok
      exact ih (hx.nested hn) (hx.timersOk S hok) (hx.replays_timers S hn hok hfit ha)

/-- What was armed, and has neither fired nor been left since, is live. -/
theorem Reachable.replays_timers (S : c.Sound) (hroom : c.Roomy) {m : ChartMachine c Ev Ctx qn}
    (h : Reachable c u m) : ∀ k, k ∈ replayTimers [] m.journal ↔ k ∈ m.timers.keys := by
  refine (h.runsWith.invariant S (I := fun m => (m.core c).TimersOk c ∧
    ∀ k, k ∈ replayTimers [] m.journal ↔ k ∈ m.timers.keys) ?_ ?_ ?_).2.2
  · exact fun _ => ⟨Core.timersOk_initial, fun k => Iff.rfl⟩
  · intro m m' hsame ⟨hok, hI⟩
    rw [hsame.core_eq, hsame.journal, hsame.timers]
    exact ⟨hok, hI⟩
  · intro m m' elapsed hv _ hs ⟨hok, hI⟩
    exact ⟨hs.timersOk S hok, hs.run.replays_timers S hroom (hv.nested S) hok hI⟩

/-! ## Machines with the same journal -/

theorem StepSpec.journal_ne_nil {m m' : ChartMachine c Ev Ctx qn} {elapsed : Nat}
    (hs : StepSpec c u m elapsed m') (h : m.journal ≠ []) : m'.journal ≠ [] := by
  obtain ⟨w, hw⟩ := hs.run.journal_prefix
  have hw : m.journal ++ w = m'.journal := hw
  rw [← hw]
  exact List.append_ne_nil_of_left_ne_nil h w

/-- Only a machine that has not been started has journaled nothing. -/
theorem Reachable.fresh_iff (S : c.Sound) {m : ChartMachine c Ev Ctx qn} (h : Reachable c u m) :
    m.journal = [] ↔ m.current = none ∧ m.terminated = false := by
  refine (h.runsWith.invariant S
    (I := fun m => m.journal = [] ↔ m.current = none ∧ m.terminated = false) ?_ ?_ ?_).2
  · exact fun _ => ⟨fun _ => ⟨rfl, rfl⟩, fun _ => rfl⟩
  · intro m m' hsame hI
    rw [hsame.journal, hsame.current, hsame.terminated]
    exact hI
  · intro m m' elapsed hv _ hs hI
    have hgone : m.current.isSome → m'.journal ≠ [] := by
      intro hcur
      refine hs.journal_ne_nil fun hnil => ?_
      rw [(hI.mp hnil).1] at hcur
      cases hcur
    cases hs.outcome with
    | halted ht he =>
        rw [he]
        exact hI
    | started ht hcur ht' hcur' hj =>
        refine iff_of_false (fun hnil => ?_) fun h => ?_
        · rw [hI.mpr ⟨hcur, ht⟩, hnil, startWords, mul_assoc] at hj
          exact not_appends_self hj
        · rw [h.1] at hcur'
          cases hcur'
    | fired s t tt ht hcur hpop hfire ht' hcur' hj =>
        exact iff_of_false (hgone hcur) fun h => by rw [h.1] at hcur'; cases hcur'
    | idle ht hcur hpop hq he =>
        have hcur' : m'.current.isSome := by rwa [he, current_decrementTimers]
        exact iff_of_false (hgone hcur) fun h => by rw [h.1] at hcur'; cases hcur'
    | handled ev queue ht hcur hpop hq hterm hh ht' hcur' hj =>
        exact iff_of_false (hgone hcur) fun h => by rw [h.1] at hcur'; cases hcur'
    | terminated ev queue ht hcur hpop hq hterm ht' hcur' hq' hj =>
        exact iff_of_false (hgone hcur) fun h => by rw [ht'] at h; cases h.2

/-- The current state is the innermost active one. -/
theorem head_activePath (S : c.Sound) {m : ChartMachine c Ev Ctx qn} (hv : m.Valid c) :
    (c.activePath m.current).head? = m.current := by
  cases hcur : m.current with
  | none => rfl
  | some s =>
      obtain ⟨l, hl⟩ := S.tree.up_eq_cons s
      rw [Chart.activePath, S.pathToRoot_eq (hv.current_lt s hcur), hl, List.head?_cons]

/-- A journal tells where its machine stands: replayed, it gives the active path and, in a roomy
    chart, the live timers. So machines of one chart with the same journal have the same current
    state, both or neither are terminated, and in a roomy chart the same timers are live, whatever
    their code, contexts and queues are. -/
theorem same_journal (hc : statechartImpl input = .ok c) {m : ChartMachine c Ev Ctx qn}
    (h : Reachable c u m) :
    Nesting.replay c.parentOf 0 (nestingOps m.journal) [] = some (c.activePath m.current) ∧
    (c.Roomy → ∀ k, k ∈ replayTimers [] m.journal ↔ k ∈ m.timers.keys) ∧
    ∀ {Ev' Ctx' Val' : Type} {qn' : Nat} {u' : UserCode Ev' Ctx' Val'}
      {m' : ChartMachine c Ev' Ctx' qn'}, Reachable c u' m' → m'.journal = m.journal →
      m'.current = m.current ∧ m'.terminated = m.terminated ∧
        (c.Roomy → m'.timers.keys.Perm m.timers.keys) := by
  obtain ⟨S⟩ := sound hc
  refine ⟨h.replays S, fun hroom => h.replays_timers S hroom, ?_⟩
  intro Ev' Ctx' Val' qn' u' m' h' hj
  have hcur : m'.current = m.current := by
    have hrep := h'.replays S
    rw [hj, h.replays S, Option.some.injEq] at hrep
    rw [← head_activePath S (h.valid S), ← head_activePath S (h'.valid S), hrep]
  refine ⟨hcur, ?_, fun hroom => ?_⟩
  · have hfresh := h.fresh_iff S
    have hfresh' := h'.fresh_iff S
    have hhalt := (h.valid S).halted
    have hhalt' := (h'.valid S).halted
    rw [hj, hcur] at hfresh'
    rw [hcur] at hhalt'
    cases ht : m.terminated <;> cases ht' : m'.terminated <;> simp_all
  · refine (List.perm_ext_iff_of_nodup (h'.timers_on_path S).nodup
      (h.timers_on_path S).nodup).mpr fun k => ?_
    have hrep' := h'.replays_timers S hroom k
    rw [hj] at hrep'
    exact hrep'.symm.trans (h.replays_timers S hroom k)

/-- The code of the lamp, without its counter. -/
def blindCode : UserCode Ident Unit Unit where
  variant := id
  tupleField := fun _ _ => ()
  structField := fun _ _ => ()
  duration := fun _ => 50
  method := fun _ _ _ => .done ()

theorem blindOn_isOk : (dispatch lampChart blindCode 4 "Toggle"
    (.new () : ChartMachine lampChart Ident Unit 8)).isOk = true := by
  decide +kernel

/-- The lamp without its counter, switched on. -/
def blindOn : ChartMachine lampChart Ident Unit 8 := (Except.get _ blindOn_isOk).2

theorem blindOn_reachable : Reachable lampChart blindCode blindOn :=
  .dispatch (.new ()) (Except.eq_ok_get _ blindOn_isOk)

theorem same_journal_lamp :
    Nesting.replay lampChart.parentOf 0 (nestingOps lampOn.journal) [] =
      some (lampChart.activePath lampOn.current) ∧
    (∀ k, k ∈ replayTimers [] lampOn.journal ↔ k ∈ lampOn.timers.keys) ∧
    blindOn.current = lampOn.current ∧ blindOn.terminated = lampOn.terminated ∧
    blindOn.timers.keys.Perm lampOn.timers.keys := by
  have hroom : lampChart.Roomy := by decide +kernel
  obtain ⟨hpath, htimers, hsame⟩ := same_journal lamp_accepted lampOn_reachable
  obtain ⟨hcur, ht, hkeys⟩ := hsame blindOn_reachable (by decide +kernel)
  exact ⟨hpath, htimers hroom, hcur, ht, hkeys hroom⟩

end Hsmc
