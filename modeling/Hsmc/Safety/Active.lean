import Hsmc.Link.Reach

/-
  The active path.

  * `journal_replays`: the entered and exited states of a journal nest, and what is left open
    is the path from the root to the current state.
  * `accesses_in_bounds`: no unchecked table access leaves its table, in any run.
-/

open Computability

namespace Hsmc

open Machine

variable {Ev Ctx Val : Type} {qn tn : Nat} {c : Chart} {u : UserCode Ev Ctx Val}

/-! ## The journal as a sequence of nesting operations -/

/-- `Entered` enters a state, `Exited` leaves it, and every other event does neither. -/
def TraceEvent.nesting : TraceEvent → Option (Nesting.Op Nat)
  | .entered s => some (.enter s)
  | .exited s => some (.leave s)
  | _ => none

/-- The states entered and exited by a journal, in order. -/
def nestingOps (j : List TraceEvent) : List (Nesting.Op Nat) := j.filterMap TraceEvent.nesting

theorem nestingOps_append (j w : List TraceEvent) :
    nestingOps (j ++ w) = nestingOps j ++ nestingOps w :=
  List.filterMap_append

/-- Only visible events enter or leave a state. -/
theorem nestingOps_filter (w : List TraceEvent) :
    nestingOps (w.filter Core.visible) = nestingOps w := by
  unfold nestingOps
  rw [List.filterMap_filter]
  congr 1
  funext e
  cases e <;> rfl

theorem nestingOps_map_armed (s : Nat) (l : List Nat) :
    nestingOps (l.map (armedEvent c u s)) = [] := by
  rw [nestingOps, List.filterMap_eq_nil_iff]
  intro e he
  obtain ⟨t, -, rfl⟩ := List.mem_map.mp he
  rfl

/-- What an act does to the stack. -/
def Act.nesting : Act → Option (Nesting.Op Nat)
  | .enter s => some (.enter s)
  | .leave s => some (.leave s)
  | _ => none

theorem nestingOps_word (x : Act) : nestingOps (Core.word c u x) = x.nesting.toList := by
  cases x with
  | enter s =>
      unfold Core.word
      rw [nestingOps_append, nestingOps_map_armed]
      rfl
  | leave s => rfl
  | tick elapsed => rfl
  | fire s t =>
      show nestingOps (fireWord c u s t) = []
      unfold fireWord
      split <;> rfl

/-- The nesting operations that a run journals are those of its acts. -/
theorem Core.Run.nestingOps_eq {acts : List Act} {a b : Core tn} (h : Core.Run c u acts a b) :
    ∃ w, b.journal = a.journal ++ w ∧ nestingOps w = acts.filterMap Act.nesting := by
  obtain ⟨w, hj, hv⟩ := h.visible
  refine ⟨w, hj, ?_⟩
  rw [← nestingOps_filter, hv]
  clear h hj hv
  induction acts with
  | nil => rfl
  | cons x acts ih =>
      rw [List.flatMap_cons, nestingOps_append, ih, nestingOps_word]
      cases x <;> rfl

/-- An act extends the journal by its own nesting operation, and the stack accordingly. -/
theorem Core.Step.replays {x : Act} {a b : Core tn} (h : Core.Step c u x a b) :
    ∃ w, b.journal = a.journal ++ w ∧
      Nesting.replay c.parentOf 0 (nestingOps w) a.active = some b.active := by
  obtain ⟨w, hj, hv⟩ := h.visible
  refine ⟨w, hj, ?_⟩
  rw [← nestingOps_filter, hv, nestingOps_word]
  cases h with
  | enter ha _ _ => simp [Act.nesting, Nesting.replay_cons, ha]
  | leave _ => simp [Act.nesting, Nesting.replay_cons, Nesting.Op.apply]
  | tick => rfl
  | fire _ => rfl

/-- What has been entered and not exited is the active path, at every call boundary. -/
theorem Reachable.replays (S : c.Sound) {m : ChartMachine c Ev Ctx qn} (h : Reachable c u m) :
    Nesting.replay c.parentOf 0 (nestingOps m.journal) [] = some (c.activePath m.current) := by
  refine h.core_invariant S
    (I := fun a => Nesting.replay c.parentOf 0 (nestingOps a.journal) [] = some a.active)
    rfl ?_ ?_
  · intro st tt j w hw hI
    rw [← nestingOps_filter, List.filter_append, Core.filter_plain hw, List.append_nil,
      nestingOps_filter]
    exact hI
  · intro x a b hx hI
    obtain ⟨w, hj, hrep⟩ := hx.replays
    rw [hj, nestingOps_append, Nesting.replay_append, hI]
    exact hrep

/-- The journal replays to the active path. -/
theorem journal_replays {input : StatechartInput} (hc : statechartImpl input = .ok c)
    {m : ChartMachine c Ev Ctx qn} (h : Reachable c u m) :
    Nesting.replay c.parentOf 0 (nestingOps m.journal) [] = some (c.activePath m.current) ∧
      (m.terminated = true → m.current = none) := by
  obtain ⟨S⟩ := sound hc
  exact ⟨h.replays S, (h.valid S).halted⟩

theorem journal_replays_lamp :
    Nesting.replay lampChart.parentOf 0 (nestingOps lampOn.journal) [] =
        some (lampChart.activePath lampOn.current) ∧
      (lampOn.terminated = true → lampOn.current = none) :=
  journal_replays lamp_accepted lampOn_reachable

/-! ## Table accesses -/

/-- The ids that `self.current` takes while an event is journaled are below `n`. -/
def TraceEvent.StateIdsLt (n : Nat) : TraceEvent → Prop
  | .entered s => s < n
  | .transitionFired src dst _ | .transitionComplete src dst => (∀ s ∈ src, s < n) ∧ dst < n
  | _ => True

theorem stateIdsLt_of_plain {e : TraceEvent} (h : Core.Plain c e) : e.StateIdsLt c.nStates := by
  cases e <;> first | exact h | exact trivial | exact h.elim

theorem stateIdsLt_enterWord {s : Nat} (hs : s < c.nStates) {acts : List TraceEvent}
    (h : acts ∈ actions s .entry) : ∀ e ∈ enterWord c u s acts, e.StateIdsLt c.nStates := by
  intro e he
  simp only [enterWord, List.cons_append, List.mem_cons, List.mem_append, List.mem_map,
    List.not_mem_nil, or_false] at he
  rcases he with rfl | ((he | ⟨t, -, rfl⟩) | ⟨d, -, rfl⟩) | rfl
  · trivial
  · exact stateIdsLt_of_plain (Core.plain_of_mem_actions h e he)
  · trivial
  · trivial
  · exact hs

theorem stateIdsLt_exitWord (s : Nat) {acts : List TraceEvent} (h : acts ∈ actions s .exit) :
    ∀ e ∈ exitWord c s acts, e.StateIdsLt c.nStates := by
  intro e he
  simp only [exitWord, List.cons_append, List.mem_cons, List.mem_append, List.mem_map,
    List.not_mem_nil, or_false] at he
  rcases he with rfl | ((⟨d, -, rfl⟩ | ⟨t, -, rfl⟩) | he) | rfl
  · trivial
  · trivial
  · trivial
  · exact stateIdsLt_of_plain (Core.plain_of_mem_actions h e he)
  · trivial

theorem Core.Step.stateIdsLt {x : Act} {a b : Core tn} (h : Core.Step c u x a b)
    (ha : ∀ e ∈ a.journal, e.StateIdsLt c.nStates) : ∀ e ∈ b.journal, e.StateIdsLt c.nStates := by
  cases h with
  | enter _ hlt hacts =>
      intro e he
      rcases List.mem_append.mp he with he | he
      · exact ha e he
      · exact stateIdsLt_enterWord hlt hacts e he
  | leave hacts =>
      intro e he
      rcases List.mem_append.mp he with he | he
      · exact ha e he
      · exact stateIdsLt_exitWord _ hacts e he
  | tick => exact ha
  | @fire s t _ _ _ _ _ =>
      intro e he
      rcases List.mem_append.mp he with he | he
      · exact ha e he
      · unfold fireWord at he
        split at he
        · simp only [List.mem_cons, List.not_mem_nil, or_false] at he
          rcases he with rfl | rfl <;> trivial
        · rw [List.mem_singleton] at he
          subst he; trivial

theorem Reachable.stateIdsLt (S : c.Sound) {m : ChartMachine c Ev Ctx qn} (h : Reachable c u m) :
    ∀ e ∈ m.journal, e.StateIdsLt c.nStates := by
  refine h.core_invariant S (I := fun a => ∀ e ∈ a.journal, e.StateIdsLt c.nStates)
    (by simp [Core.initial]) ?_ (fun x a b hx ha => hx.stateIdsLt ha)
  intro st tt j w hw ha e he
  rcases List.mem_append.mp he with he | he
  · exact ha e he
  · exact stateIdsLt_of_plain (hw e he)

theorem drain_ne_outOfBounds (S : c.Sound) : ∀ (fuel : Nat) {m : Machine Ev Ctx qn tn},
    m.Valid c → drain c u fuel m ≠ .error .outOfBounds
  | 0, _, _ => by simp [drain]
  | fuel + 1, m, hv => by
      obtain ⟨next, m', hm', hs⟩ := step_spec (u := u) S hv 0
      have hv' := (sameCore_takeOverflow m').valid hs.valid
      unfold drain
      split
      · simp
      · simp only [hm', Except.ok_bind_eq]
        split
        · simp
        · split
          · simp
          · exact drain_ne_outOfBounds S fuel hv'

theorem dispatch_ne_outOfBounds (S : c.Sound) {m : Machine Ev Ctx qn tn} (hv : m.Valid c)
    (fuel : Nat) (ev : Ev) : dispatch c u fuel ev m ≠ .error .outOfBounds := by
  unfold dispatch
  split
  · simp
  · split
    · simp
    · rename_i queue _
      have hv₁ : Machine.Valid c { m with queue } := ⟨hv.current_lt, hv.halted⟩
      simp only
      split
      · obtain ⟨next, m', hm', hs⟩ := step_spec (u := u) S hv₁ 0
        have hv' := (sameCore_takeOverflow m').valid hs.valid
        simp only [hm', Except.ok_bind_eq]
        split
        · simp
        · split
          · simp
          · exact drain_ne_outOfBounds S fuel hv'
      · exact drain_ne_outOfBounds S fuel hv₁

/-- The indices the unchecked accesses compute lie in their tables. -/
structure Chart.TablesFit (c : Chart) : Prop where
  dispatch_length : c.dispatch.length = c.nStates * c.nEvents
  dispatch_index : ∀ cur v, cur < c.nStates → v < c.nEvents →
    cur * c.nEvents + v < c.nStates * c.nEvents
  path : ∀ src dst, src < c.nStates → dst < c.nStates →
    src * c.nStates + dst < c.pathRange.length ∧ ∃ s mid e,
      c.pathRange[src * c.nStates + dst]? = some (s, mid, e) ∧
      s ≤ mid ∧ mid ≤ e ∧ e ≤ c.pathData.length
  default_ : ∀ cur, cur < c.nStates → cur < c.defaultChild.length
  terminate : ∀ cur, cur < c.nStates → cur < c.terminateRange.length ∧ ∃ s e,
    c.terminateRange[cur]? = some (s, e) ∧ s ≤ e ∧ e ≤ c.terminateData.length

theorem Chart.Sound.tablesFit (S : c.Sound) : c.TablesFit where
  dispatch_length := S.dispatch_length
  dispatch_index cur v hcur hv := by
    have hle : (cur + 1) * c.nEvents ≤ c.nStates * c.nEvents := Nat.mul_le_mul_right _ hcur
    rw [Nat.succ_mul] at hle
    omega
  path src dst hs hd := by
    obtain ⟨s, mid, e, hr, hl, he⟩ := S.path_get hs hd
    exact ⟨(List.getElem?_eq_some_iff.mp hr).1, s, mid, e, hr, hl.le, he.le, he.le_length⟩
  default_ cur hcur := (List.getElem?_eq_some_iff.mp (S.default_get hcur)).1
  terminate cur hcur := by
    obtain ⟨a, b, hr, hsl⟩ := S.terminate_get hcur
    exact ⟨(List.getElem?_eq_some_iff.mp hr).1, a, b, hr, hsl.le, hsl.le_length⟩

/-- No unchecked access leaves its table: the tables fit the ids below `nStates`, only such ids
    are ever stored in `current`, and no call faults. -/
theorem accesses_in_bounds {input : StatechartInput} (hc : statechartImpl input = .ok c)
    {m : ChartMachine c Ev Ctx qn} (h : Reachable c u m) :
    c.TablesFit ∧ (∀ s, m.current = some s → s < c.nStates) ∧
      (∀ e ∈ m.journal, e.StateIdsLt c.nStates) ∧
      (∀ ev, eventToId c u ev = u16Max ∨ eventToId c u ev < c.nEvents) ∧
      (∀ elapsed, ∃ next m', step c u m elapsed = .ok (next, m')) ∧
      (∀ fuel ev, dispatch c u fuel ev m ≠ .error .outOfBounds) := by
  obtain ⟨S⟩ := sound hc
  have hv := h.valid S
  refine ⟨S.tablesFit, hv.current_lt, h.stateIdsLt S, eventToId_cases S, ?_,
    dispatch_ne_outOfBounds S hv⟩
  intro elapsed
  obtain ⟨next, m', hm', -⟩ := step_spec (u := u) S hv elapsed
  exact ⟨next, m', hm'⟩

theorem accesses_in_bounds_lamp :
    lampChart.TablesFit ∧ (∀ s, lampOn.current = some s → s < lampChart.nStates) ∧
      (∀ e ∈ lampOn.journal, e.StateIdsLt lampChart.nStates) ∧
      (∀ ev, eventToId lampChart countCode ev = u16Max ∨
        eventToId lampChart countCode ev < lampChart.nEvents) ∧
      (∀ elapsed, ∃ next m', step lampChart countCode lampOn elapsed = .ok (next, m')) ∧
      (∀ fuel ev, dispatch lampChart countCode fuel ev lampOn ≠ .error .outOfBounds) :=
  accesses_in_bounds lamp_accepted lampOn_reachable

end Hsmc
