import Hsmc.Abstract.Grammar
import Hsmc.Lib.Nesting
import Hsmc.Link.Sound
import Hsmc.Runtime.Machine

/-
  The abstract machine: a stack of nested active states, the live timers and the journal.

  It forgets the context, the queue and every table: a state is entered or left as a whole
  (`Act.enter`, `Act.leave`), time passes (`Act.tick`), a timer fires (`Act.fire`). A state can
  only be entered below the innermost active one and only the innermost one can be left.
  `Core.Run` is a run by visible acts, with notes in the journal in between.

  `Core.Run.invariant` is the induction rule the safety results use.
-/

open Computability

namespace Hsmc

variable {Ev Ctx Val : Type} {tn : Nat}

/-! ## What one act journals and does to the timers -/

/-- Entering `s` arms its timers. -/
def armOwned (c : Chart) (u : UserCode Ev Ctx Val) (s : Nat) (tt : TimerTable tn) : TimerTable tn :=
  (c.ownedTimers s).foldl (fun tt t => tt.start s t (durationFor c u t)) tt

/-- Leaving `s` cancels its timers. -/
def cancelOwned (c : Chart) (s : Nat) (tt : TimerTable tn) : TimerTable tn :=
  if c.hasTimers then tt.cancelState s else tt

/-- A fired timer of the `every` kind is armed again. -/
def rearm (c : Chart) (u : UserCode Ev Ctx Val) (s t : Nat) (tt : TimerTable tn) : TimerTable tn :=
  if c.durationRepeats t then tt.start s t (durationFor c u t) else tt

def armedEvent (c : Chart) (u : UserCode Ev Ctx Val) (s t : Nat) : TraceEvent :=
  .timerArmed s t (asU64 (durationFor c u t))

def enterWord (c : Chart) (u : UserCode Ev Ctx Val) (s : Nat) (acts : List TraceEvent) :
    List TraceEvent :=
  .enterBegan s :: acts ++ (c.ownedTimers s).map (armedEvent c u s) ++
    (List.range (c.duringsCount s)).map (.duringStarted s) ++ [.entered s]

def exitWord (c : Chart) (s : Nat) (acts : List TraceEvent) : List TraceEvent :=
  .exitBegan s :: (List.range (c.duringsCount s)).map (.duringCancelled s) ++
    (c.ownedTimers s).map (.timerCancelled s) ++ acts ++ [.exited s]

def fireWord (c : Chart) (u : UserCode Ev Ctx Val) (s t : Nat) : List TraceEvent :=
  .timerFired s t :: if c.durationRepeats t then [armedEvent c u s t] else []

theorem enterWord_mem (c : Chart) (u : UserCode Ev Ctx Val) (s : Nat) {acts : List TraceEvent}
    (h : acts ∈ actions s .entry) : enterWord c u s acts ∈ enterBlock s := by
  have harm : (c.ownedTimers s).map (armedEvent c u s) ∈ (⨆ t, ⨆ ns, evt (.timerArmed s t ns))∗ :=
    Language.map_mem_kstar (fun t => Language.mem_iSup.mpr
      ⟨t, Language.mem_iSup.mpr ⟨asU64 (durationFor c u t), mem_evt (armedEvent c u s t)⟩⟩) _
  have hdur : (List.range (c.duringsCount s)).map (TraceEvent.duringStarted s) ∈
      (⨆ d, evt (.duringStarted s d))∗ :=
    Language.map_mem_kstar (fun d => Language.mem_iSup.mpr ⟨d, mem_evt _⟩) _
  have := Language.append_mem_mul (Language.append_mem_mul (Language.append_mem_mul
    (Language.append_mem_mul (mem_evt (.enterBegan s)) h) harm) hdur) (mem_evt (.entered s))
  simpa [enterWord, enterBlock] using this

theorem exitWord_mem (c : Chart) (s : Nat) {acts : List TraceEvent}
    (h : acts ∈ actions s .exit) : exitWord c s acts ∈ exitBlock s := by
  have hdur : (List.range (c.duringsCount s)).map (TraceEvent.duringCancelled s) ∈
      (⨆ d, evt (.duringCancelled s d))∗ :=
    Language.map_mem_kstar (fun d => Language.mem_iSup.mpr ⟨d, mem_evt _⟩) _
  have htim : (c.ownedTimers s).map (TraceEvent.timerCancelled s) ∈
      (⨆ t, evt (.timerCancelled s t))∗ :=
    Language.map_mem_kstar (fun t => Language.mem_iSup.mpr ⟨t, mem_evt _⟩) _
  have := Language.append_mem_mul (Language.append_mem_mul (Language.append_mem_mul
    (Language.append_mem_mul (mem_evt (.exitBegan s)) hdur) htim) h) (mem_evt (.exited s))
  simpa [exitWord, exitBlock] using this

theorem fireWord_mem (c : Chart) (u : UserCode Ev Ctx Val) (s t : Nat) :
    fireWord c u s t ∈ evt (.timerFired s t) * (1 + ⨆ ns, evt (.timerArmed s t ns)) := by
  have harm : (if c.durationRepeats t then [armedEvent c u s t] else []) ∈
      1 + ⨆ ns, evt (.timerArmed s t ns) := by
    split
    · exact Language.mem_one_add (Language.mem_iSup.mpr ⟨_, mem_evt (armedEvent c u s t)⟩)
    · exact Language.nil_mem_one_add
  exact Language.append_mem_mul (mem_evt (.timerFired s t)) harm

/-! ## The abstract machine -/

/-- The visible acts of a step. -/
inductive Act where
  | enter (s : Nat)
  | leave (s : Nat)
  | tick (elapsed : Nat)
  | fire (s t : Nat)
deriving DecidableEq, Repr

structure Core (tn : Nat) where
  /-- The active states, innermost first. -/
  active : List Nat
  timers : TimerTable tn
  journal : List TraceEvent

namespace Core

/-- An event that no act journals; it stands between acts. The ids it names are ids of states. -/
def Plain (c : Chart) : TraceEvent → Prop
  | .entered _ | .exited _ | .timerArmed .. | .timerFired .. => False
  | .transitionFired src dst _ | .transitionComplete src dst =>
      (∀ s ∈ src, s < c.nStates) ∧ dst < c.nStates
  | _ => True

section

variable (c : Chart) (u : UserCode Ev Ctx Val)

inductive Step : Act → Core tn → Core tn → Prop where
  | enter {s : Nat} {st : List Nat} {tt : TimerTable tn} {j acts : List TraceEvent} :
      (Nesting.Op.enter s).apply c.parentOf 0 st = some (s :: st) → s < c.nStates →
      acts ∈ actions s .entry →
      Step (.enter s) ⟨st, tt, j⟩ ⟨s :: st, armOwned c u s tt, j ++ enterWord c u s acts⟩
  | leave {s : Nat} {st : List Nat} {tt : TimerTable tn} {j acts : List TraceEvent} :
      acts ∈ actions s .exit →
      Step (.leave s) ⟨s :: st, tt, j⟩ ⟨st, cancelOwned c s tt, j ++ exitWord c s acts⟩
  | tick {elapsed : Nat} {st : List Nat} {tt : TimerTable tn} {j : List TraceEvent} :
      Step (.tick elapsed) ⟨st, tt, j⟩ ⟨st, if c.hasTimers then tt.decrement elapsed else tt, j⟩
  | fire {s t : Nat} {st : List Nat} {tt tt' : TimerTable tn} {j : List TraceEvent} :
      tt.popExpired c.depth = some ((s, t), tt') →
      Step (.fire s t) ⟨st, tt, j⟩ ⟨st, rearm c u s t tt', j ++ fireWord c u s t⟩

inductive Run : List Act → Core tn → Core tn → Prop where
  | refl {a : Core tn} : Run [] a a
  | note {acts : List Act} {st : List Nat} {tt : TimerTable tn} {j w : List TraceEvent}
      {b : Core tn} : (∀ e ∈ w, Plain c e) → Run acts ⟨st, tt, j ++ w⟩ b → Run acts ⟨st, tt, j⟩ b
  | act {x : Act} {acts : List Act} {a b d : Core tn} :
      Step c u x a b → Run acts b d → Run (x :: acts) a d

end

variable {c : Chart} {u : UserCode Ev Ctx Val} {a b d : Core tn} {acts acts' : List Act}

theorem Run.append (h : Run c u acts a b) (h' : Run c u acts' b d) :
    Run c u (acts ++ acts') a d := by
  induction h with
  | refl => exact h'
  | note hw _ ih => exact .note hw (ih h')
  | act hx _ ih => exact .act hx (ih h')

theorem Run.single {x : Act} (h : Step c u x a b) : Run c u [x] a b := .act h .refl

theorem Run.notes {st : List Nat} {tt : TimerTable tn} {j w : List TraceEvent}
    (hw : ∀ e ∈ w, Plain c e) : Run c u [] ⟨st, tt, j⟩ ⟨st, tt, j ++ w⟩ := .note hw .refl

/-- A run begins with notes and its first act. -/
theorem Run.cons_inv {x : Act} (h : Run c u (x :: acts) a b) :
    ∃ w d, (∀ e ∈ w, Plain c e) ∧ Step c u x ⟨a.active, a.timers, a.journal ++ w⟩ d ∧
      Run c u acts d b := by
  generalize hl : x :: acts = l at h
  induction h with
  | refl => cases hl
  | note hw _ ih =>
      obtain ⟨w', d, hw', hx, h⟩ := ih hl
      rw [List.append_assoc] at hx
      exact ⟨_, d, List.forall_mem_append.mpr ⟨hw, hw'⟩, hx, h⟩
  | act hx h _ =>
      cases hl
      exact ⟨[], _, by simp, by simpa using hx, h⟩

/-- What notes and the acts of a run preserve holds at its end. -/
theorem Run.invariant {I : Core tn → Prop}
    (hnote : ∀ (st : List Nat) (tt : TimerTable tn) (j w : List TraceEvent),
      (∀ e ∈ w, Plain c e) → I ⟨st, tt, j⟩ → I ⟨st, tt, j ++ w⟩)
    (hstep : ∀ x ∈ acts, ∀ a b, Step c u x a b → I a → I b) (h : Run c u acts a b) (ha : I a) :
    I b := by
  induction h with
  | refl => exact ha
  | note hw _ ih => exact ih hstep (hnote _ _ _ _ hw ha)
  | act hx _ ih =>
      exact ih (fun y hy => hstep y (List.mem_cons_of_mem _ hy))
        (hstep _ List.mem_cons_self _ _ hx ha)

/-! ## Nesting -/

/-- The active states are a walk to the root. -/
def Nested (S : c.Sound) (a : Core tn) : Prop :=
  a.active = [] ∨ ∃ s, s < c.nStates ∧ a.active = S.tree.up s

theorem Nested.nodup {S : c.Sound} (h : a.Nested S) : a.active.Nodup := by
  rcases h with h | ⟨s, -, h⟩ <;> rw [h]
  · exact List.nodup_nil
  · exact S.tree.nodup_up s

theorem Step.nested {S : c.Sound} {x : Act} (h : Step c u x a b) (ha : a.Nested S) :
    b.Nested S := by
  cases h with
  | @enter s st tt j acts happ hlt _ =>
      right
      refine ⟨s, hlt, ?_⟩
      rcases ha with hnil | ⟨p, -, hst⟩
      · have hnil : st = [] := hnil
        subst hnil
        have hs : s = 0 := by
          by_contra hne
          simp [Nesting.Op.apply, hne] at happ
        subst hs
        exact (S.tree.up_of_root S.parent_zero).symm
      · have hst : st = S.tree.up p := hst
        obtain ⟨l, hl⟩ := S.tree.up_eq_cons p
        rw [hst, hl] at happ
        have hp : S.tree.parent s = some p := by
          rw [S.parent_eq]
          by_contra hne
          simp [Nesting.Op.apply, hne] at happ
        rw [S.tree.up_of_parent hp, hst]
  | @leave s st tt j acts _ =>
      rcases ha with hnil | ⟨s', hlt, hst⟩
      · cases hnil
      · have hst : s :: st = S.tree.up s' := hst
        cases hp : S.tree.parent s' with
        | none =>
            rw [S.tree.up_of_root hp] at hst
            cases hst
            exact Or.inl rfl
        | some p =>
            rw [S.tree.up_of_parent hp] at hst
            cases hst
            have hmem : p ∈ S.tree.up s := by
              rw [S.tree.up_of_parent hp]
              exact List.mem_cons_of_mem _ (S.tree.mem_up_self p)
            exact Or.inr ⟨p, S.up_lt hlt hmem, rfl⟩
  | tick => exact ha
  | fire _ => exact ha

/-! ## The journal of a run -/

theorem plain_of_mem_actions {s : Nat} {kind : ActionKind} {w : List TraceEvent}
    (h : w ∈ actions s kind) : ∀ e ∈ w, Plain c e := by
  intro e he
  rcases forall_mem_actions h e he with ⟨a, rfl⟩ | ⟨v, rfl | rfl⟩ <;> exact trivial

/-- The events by which an act shows in the journal. -/
def visible : TraceEvent → Bool
  | .entered _ | .exited _ | .timerArmed .. | .timerFired .. => true
  | _ => false

theorem filter_plain {w : List TraceEvent} (hw : ∀ e ∈ w, Plain c e) : w.filter visible = [] := by
  rw [List.filter_eq_nil_iff]
  intro e he
  have := hw e he
  cases e <;> simp_all [Plain, visible]

theorem filter_map_eq_nil {α : Type} {f : α → TraceEvent} (hf : ∀ a, visible (f a) = false)
    (l : List α) : (l.map f).filter visible = [] := by
  rw [List.filter_eq_nil_iff]
  intro e he
  obtain ⟨a, -, rfl⟩ := List.mem_map.mp he
  simp [hf a]

/-- The visible events of an act, in order. -/
def word (c : Chart) (u : UserCode Ev Ctx Val) : Act → List TraceEvent
  | .enter s => (c.ownedTimers s).map (armedEvent c u s) ++ [.entered s]
  | .leave s => [.exited s]
  | .tick _ => []
  | .fire s t => fireWord c u s t

theorem filter_enterWord (s : Nat) {acts : List TraceEvent} (h : acts ∈ actions s .entry) :
    (enterWord c u s acts).filter visible =
      (c.ownedTimers s).map (armedEvent c u s) ++ [.entered s] := by
  have harm : ((c.ownedTimers s).map (armedEvent c u s)).filter visible =
      (c.ownedTimers s).map (armedEvent c u s) := by
    rw [List.filter_eq_self]
    intro e he
    obtain ⟨t, -, rfl⟩ := List.mem_map.mp he
    rfl
  unfold enterWord
  simp only [List.filter_append, List.filter_cons, visible, Bool.false_eq_true, ↓reduceIte,
    List.filter_nil, filter_plain (c := c) (plain_of_mem_actions h), List.nil_append,
    filter_map_eq_nil (f := TraceEvent.duringStarted s) (fun _ => rfl), List.append_nil, harm]

theorem filter_exitWord (s : Nat) {acts : List TraceEvent} (h : acts ∈ actions s .exit) :
    (exitWord c s acts).filter visible = [.exited s] := by
  unfold exitWord
  simp only [List.filter_append, List.filter_cons, visible, Bool.false_eq_true, ↓reduceIte,
    List.filter_nil, filter_plain (c := c) (plain_of_mem_actions h), List.nil_append,
    filter_map_eq_nil (f := TraceEvent.duringCancelled s) (fun _ => rfl),
    filter_map_eq_nil (f := TraceEvent.timerCancelled s) (fun _ => rfl)]

theorem filter_fireWord (s t : Nat) : (fireWord c u s t).filter visible = fireWord c u s t := by
  unfold fireWord
  split <;> rfl

theorem Step.visible {x : Act} (h : Step c u x a b) :
    ∃ w, b.journal = a.journal ++ w ∧ w.filter Core.visible = word c u x := by
  cases h with
  | enter _ _ hacts => exact ⟨_, rfl, filter_enterWord _ hacts⟩
  | leave hacts => exact ⟨_, rfl, filter_exitWord _ hacts⟩
  | tick => exact ⟨[], (List.append_nil _).symm, rfl⟩
  | fire _ => exact ⟨_, rfl, filter_fireWord _ _⟩

/-- A run appends to the journal, and its visible events are those of its acts. -/
theorem Run.visible (h : Run c u acts a b) :
    ∃ w, b.journal = a.journal ++ w ∧ w.filter Core.visible = acts.flatMap (word c u) := by
  induction h with
  | refl => exact ⟨[], (List.append_nil _).symm, rfl⟩
  | @note acts st tt j w b hw _ ih =>
      obtain ⟨w', hj, hv⟩ := ih
      refine ⟨w ++ w', by rw [hj, List.append_assoc], ?_⟩
      rw [List.filter_append, filter_plain hw, hv, List.nil_append]
  | @act x acts a b d hx _ ih =>
      obtain ⟨w, hj, hv⟩ := hx.visible
      obtain ⟨w', hj', hv'⟩ := ih
      refine ⟨w ++ w', by rw [hj', hj, List.append_assoc], ?_⟩
      rw [List.filter_append, hv, hv', List.flatMap_cons]

theorem Run.journal_prefix (h : Run c u acts a b) : a.journal <+: b.journal := by
  obtain ⟨w, hj, -⟩ := h.visible
  exact ⟨w, hj.symm⟩

end Core

end Hsmc
