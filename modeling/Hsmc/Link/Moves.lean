import Hsmc.Abstract.Plan
import Hsmc.Link.Effects

/-
  Transitions on the machine are runs of the abstract machine.

  `Goes` relates a machine with its stack of active states before and after: the abstract run,
  and the word of the grammar that was journaled. There is one spec for each function, from a
  path of states up to `runHandlers` and `doTerminate`. Each also says that the function
  returns: no table access leaves its table and no loop runs out of fuel.
-/

open Computability

namespace Hsmc

open Machine

variable {Ev Ctx Val : Type} {qn tn : Nat} {c : Chart} {u : UserCode Ev Ctx Val}

/-- From stack `st` and machine `m` to `st'` and `m'`, by `acts`, journaling a word of `L`. -/
structure Goes (c : Chart) (u : UserCode Ev Ctx Val) (acts : List Act) (L : Language TraceEvent)
    (st : List Nat) (m : Machine Ev Ctx qn tn) (st' : List Nat) (m' : Machine Ev Ctx qn tn) :
    Prop where
  run : Core.Run c u acts ⟨st, m.timers, m.journal⟩ ⟨st', m'.timers, m'.journal⟩
  terminated : m'.terminated = m.terminated
  journal : Appends L m.journal m'.journal

namespace Goes

variable {acts acts' : List Act} {L L' : Language TraceEvent} {st st' st'' : List Nat}
  {m m' m'' : Machine Ev Ctx qn tn}

theorem refl (st : List Nat) (m : Machine Ev Ctx qn tn) : Goes c u [] 1 st m st m :=
  ⟨.refl, rfl, Appends.refl _⟩

theorem star_refl (st : List Nat) (m : Machine Ev Ctx qn tn) : Goes c u [] L∗ st m st m :=
  ⟨.refl, rfl, Appends.star_refl _⟩

theorem trans (h : Goes c u acts L st m st' m') (h' : Goes c u acts' L' st' m' st'' m'') :
    Goes c u (acts ++ acts') (L * L') st m st'' m'' :=
  ⟨h.run.append h'.run, h'.terminated.trans h.terminated, h.journal.trans h'.journal⟩

theorem star_cons (h : Goes c u acts L st m st' m') (h' : Goes c u acts' L∗ st' m' st'' m'') :
    Goes c u (acts ++ acts') L∗ st m st'' m'' :=
  ⟨h.run.append h'.run, h'.terminated.trans h.terminated, h.journal.star_cons h'.journal⟩

theorem mono (hL : L ≤ L') (h : Goes c u acts L st m st' m') : Goes c u acts L' st m st' m' :=
  ⟨h.run, h.terminated, h.journal.mono hL⟩

/-- Only what the abstract machine does not see has changed. -/
theorem congr_right (h : Goes c u acts L st m st' m') (ht : m''.timers = m'.timers)
    (hj : m''.journal = m'.journal) (hterm : m''.terminated = m'.terminated) :
    Goes c u acts L st m st' m'' :=
  ⟨by rw [ht, hj]; exact h.run, by rw [hterm, h.terminated], by rw [hj]; exact h.journal⟩

theorem of_quiet (h : Quiet L m m') (hL : ∀ w ∈ L, ∀ e ∈ w, Core.Plain c e) (st : List Nat) :
    Goes c u [] L st m st m' := by
  refine ⟨?_, h.terminated, h.journal⟩
  obtain ⟨w, hw, hj⟩ := h.journal
  rw [h.timers, hj]
  exact .notes (hL w hw)

theorem observe {e : TraceEvent} (he : Core.Plain c e) (st : List Nat)
    (m : Machine Ev Ctx qn tn) : Goes c u [] (evt e) st m st (m.observe e) :=
  of_quiet (Quiet.observe m (mem_evt e))
    (fun w hw e' he' => by
      rw [eq_of_mem_evt hw, List.mem_singleton] at he'
      rw [he']; exact he) st

/-- A transition between the two events that announce it and report it done. -/
theorem bracketed {cur target : Nat} {reason : TransitionReason} (hlt : cur < c.nStates)
    (htlt : target < c.nStates)
    (h : Goes c u acts L st (m.observe (.transitionFired (some cur) target reason)) st' m') :
    Goes c u acts (evt (.transitionFired (some cur) target reason) * L *
      evt (.transitionComplete (some cur) target)) st m st'
      (m'.observe (.transitionComplete (some cur) target)) := by
  have hplain : Core.Plain c (.transitionFired (some cur) target reason) :=
    ⟨by simpa using hlt, htlt⟩
  have hplain' : Core.Plain c (.transitionComplete (some cur) target) := hplain
  have := ((Goes.observe (u := u) hplain st m).trans h).trans (Goes.observe hplain' st' m')
  simpa using this

theorem of_actions {sid : Nat} {kind : ActionKind} (h : Quiet (actions sid kind) m m')
    (st : List Nat) : Goes c u [] (actions sid kind) st m st m' :=
  of_quiet h (fun _ => Core.plain_of_mem_actions) st

theorem of_entered {sid : Nat} (h : Entered c u sid m m') (hsid : sid < c.nStates)
    (ha : (Nesting.Op.enter sid).apply c.parentOf 0 st = some (sid :: st)) :
    Goes c u [.enter sid] (enterBlock sid) st m (sid :: st) m' := by
  obtain ⟨acts, hacts, hj⟩ := h.journal
  refine ⟨?_, h.terminated, _, enterWord_mem c u sid hacts, hj⟩
  rw [h.timers, hj]
  exact .single (.enter ha hsid hacts)

theorem of_exited {sid : Nat} (h : Exited c sid m m') (st : List Nat) :
    Goes c u [.leave sid] (exitBlock sid) (sid :: st) m st m' := by
  obtain ⟨acts, hacts, hj⟩ := h.journal
  refine ⟨?_, h.terminated, _, exitWord_mem c sid hacts, hj⟩
  rw [h.timers, hj]
  exact .single (.leave hacts)

end Goes

/-! ## Paths of states -/

theorem exitStates_goes : ∀ (l st : List Nat) {m : Machine Ev Ctx qn tn}, m.terminated = false →
    (l.foldl (fun m sid => exitState c u sid m) m).current = m.current ∧
      Goes c u (l.map .leave) exitBlocks (l ++ st) m st
        (l.foldl (fun m sid => exitState c u sid m) m)
  | [], st, m, _ => ⟨rfl, Goes.star_refl st m⟩
  | sid :: l, st, m, ht => by
      have hx := exitState_spec (c := c) (u := u) sid ht
      obtain ⟨hcur, hg⟩ := exitStates_goes l st (hx.terminated.trans ht)
      refine ⟨hcur.trans hx.current, ?_⟩
      have hone := (Goes.of_exited (u := u) hx (l ++ st)).mono (le_iSup exitBlock sid)
      exact hone.star_cons hg

/-- The enter loop runs to its end and the last state entered is current. -/
theorem enterStates_goes (S : c.Sound) : ∀ (l : List Nat) {st st' : List Nat}
    {m : Machine Ev Ctx qn tn}, m.terminated = false → (∀ x ∈ l, x < c.nStates) →
    Nesting.replay c.parentOf 0 (l.map .enter) st = some st' →
    ∃ m', enterStates c u l m = (false, m') ∧
      m'.current = (l.getLast?).or m.current ∧ Goes c u (l.map .enter) enterBlocks st m st' m'
  | [], st, st', m, _, _, h => by
      cases h
      exact ⟨m, rfl, rfl, Goes.star_refl st m⟩
  | sid :: l, st, st', m, ht, hlt, h => by
      rw [List.map_cons, Nesting.replay_cons] at h
      obtain ⟨st₁, h₁, h⟩ := Option.bind_eq_some_iff.mp h
      have hst := Nesting.Op.apply_enter h₁
      subst hst
      have hx := enterStateNoDescent_spec (c := c) (u := u) sid ht
      have ht₁ := hx.terminated.trans ht
      obtain ⟨m', hm', hcur, hg⟩ :=
        enterStates_goes S l ht₁ (fun x hx => hlt x (List.mem_cons_of_mem _ hx)) h
      refine ⟨m', ?_, ?_, ?_⟩
      · unfold enterStates
        simp only [ht₁, Bool.false_eq_true, ↓reduceIte]
        exact hm'
      · rw [hcur, hx.current]
        cases l with
        | nil => rfl
        | cons y l =>
            obtain ⟨z, hz⟩ : ∃ z, (y :: l).getLast? = some z :=
              ⟨_, List.getLast?_eq_some_getLast (List.cons_ne_nil y l)⟩
            rw [List.getLast?_cons_cons, hz]
            rfl
      · have hone := (Goes.of_entered hx (hlt sid List.mem_cons_self) h₁).mono
          (le_iSup enterBlock sid)
        exact hone.star_cons hg

theorem getUnchecked_of_some {α : Type} {table : List α} {i : Nat} {x : α}
    (h : table[i]? = some x) : getUnchecked table i = .ok x := by
  unfold getUnchecked; rw [h]

theorem sliceUnchecked_of_sliceAt {α : Type} {data seg : List α} {s e : Nat}
    (h : SliceAt data s e seg) : sliceUnchecked data s e = .ok seg := by
  unfold sliceUnchecked
  rw [if_pos ⟨h.le, h.le_length⟩, h.eq]

variable (S : c.Sound)

theorem applyPath_goes {src target : Nat} (hs : src < c.nStates) (hd : target < c.nStates)
    {m : Machine Ev Ctx qn tn} (ht : m.terminated = false) :
    ∃ m', applyPath c u src target m = .ok (!(c.enters src target).isEmpty, m') ∧
      m'.current = some target ∧
      Goes c u (c.moveActs src target) (exitBlocks * enterBlocks) (S.tree.up src) m
        (S.tree.up target) m' := by
  obtain ⟨s, mid, e, hr, hl, he⟩ := S.path_get hs hd
  obtain ⟨hleaves, henters⟩ := S.paths_eq hs hd
  have hparent : S.tree.parent = c.parentOf := funext S.parent_eq
  have hs0 := S.zero_mem hs
  have hd0 := S.zero_mem hd
  have hbase := S.tree.up_eq_exitPath_append hs0 hd0
  have hrep := Nesting.replay_enterPath S.tree S.parent_zero hs0 hd0
  rw [hparent] at hrep
  obtain ⟨hcur₁, hg₁⟩ := exitStates_goes (c := c) (u := u) (S.tree.exitPath src target)
    (S.tree.base src target) ht
  rw [← hbase] at hg₁
  have hlt : ∀ x ∈ S.tree.enterPath src target, x < c.nStates := by
    intro x hx
    unfold ParentTree.enterPath at hx
    exact S.up_lt hd (S.tree.mem_up_of_mem_segment (List.mem_reverse.mp hx))
  obtain ⟨m₂, hm₂, hcur₂, hg₂⟩ :=
    enterStates_goes (u := u) S _ (hg₁.terminated.trans ht) hlt hrep
  have hg := hg₁.trans hg₂
  unfold applyPath Chart.moveActs
  rw [getUnchecked_of_some hr, hleaves, henters]
  simp only [Except.ok_bind_eq, sliceUnchecked_of_sliceAt hl, sliceUnchecked_of_sliceAt he, hm₂,
    Bool.false_eq_true, ↓reduceIte]
  by_cases hnil : S.tree.enterPath src target = []
  · refine ⟨{ m₂ with current := some target }, by simp [hnil], rfl, ?_⟩
    exact hg.congr_right rfl rfl rfl
  · refine ⟨m₂, by simp [hnil], ?_, hg⟩
    rw [hcur₂, S.tree.getLast?_enterPath hnil]
    rfl

/-! ## Default transitions -/

include S in
theorem followDefaults_stop {cur fuel : Nat} (hlt : cur < c.nStates) {m : Machine Ev Ctx qn tn}
    (hcur : m.current = some cur) (hnone : c.defaultOf cur = none) :
    followDefaults c u (fuel + 1) m = .ok m := by
  unfold followDefaults
  simp only [hcur, getUnchecked_of_some (S.default_get hlt), hnone, Except.ok_bind_eq]

include S in
/-- One default transition, and the rest of them if it entered anything. -/
theorem followDefaults_hop {cur target fuel : Nat} (hlt : cur < c.nStates)
    {m m' : Machine Ev Ctx qn tn} (hcur : m.current = some cur)
    (hsome : c.defaultOf cur = some target) {entered : Bool}
    (happly : applyPath c u cur target (m.observe (.transitionFired (some cur) target .internal)) =
      .ok (entered, m'))
    (ht : (m'.observe (.transitionComplete (some cur) target)).terminated = false) :
    followDefaults c u (fuel + 1) m =
      if entered then followDefaults c u fuel (m'.observe (.transitionComplete (some cur) target))
      else .ok (m'.observe (.transitionComplete (some cur) target)) := by
  conv_lhs => unfold followDefaults
  simp only [hcur, getUnchecked_of_some (S.default_get hlt), hsome, Except.ok_bind_eq,
    current_observe, happly, ht, Bool.false_eq_true, ↓reduceIte]
  cases entered <;> rfl

/-- Following the defaults from `cur`: the loop ends within the fuel, since the chain of
    defaults does. -/
theorem followDefaults_goes {l : List Nat} {cur : Nat} (hl : Trail c.defaultOf cur l) :
    ∀ {fuel : Nat} {m : Machine Ev Ctx qn tn}, l.length ≤ fuel → cur < c.nStates →
    m.current = some cur → m.terminated = false →
    ∃ m' cur', followDefaults c u fuel m = .ok m' ∧ m'.current = some cur' ∧ cur' < c.nStates ∧
      Goes c u (c.descendActs fuel cur) defaultTransition∗ (S.tree.up cur) m (S.tree.up cur')
        m' := by
  induction hl with
  | @stop cur hnone =>
      intro fuel m hfuel hlt hcur ht
      cases fuel with
      | zero => simp at hfuel
      | succ fuel =>
          refine ⟨m, cur, followDefaults_stop S hlt hcur hnone, hcur, hlt, ?_⟩
          unfold Chart.descendActs
          simp only [hnone]
          exact Goes.star_refl _ _
  | @step cur target l hsome _ ih =>
      intro fuel m hfuel hlt hcur ht
      cases fuel with
      | zero => simp at hfuel
      | succ fuel =>
          have htlt := S.default_lt hsome
          obtain ⟨m₁, hm₁, hcur₁, hg₁⟩ := applyPath_goes (u := u) S hlt htlt
            (m := m.observe (.transitionFired (some cur) target .internal)) ht
          have hhop : evt (.transitionFired (some cur) target .internal) *
              (exitBlocks * enterBlocks) * evt (.transitionComplete (some cur) target) ≤
              defaultTransition := by
            rw [← mul_assoc]
            exact le_iSup_of_le (some cur) (le_iSup_of_le target le_rfl)
          have hg₂ := (hg₁.bracketed hlt htlt).mono hhop
          have ht₂ : (m₁.observe (.transitionComplete (some cur) target)).terminated = false :=
            hg₂.terminated.trans ht
          rw [followDefaults_hop S hlt hcur hsome hm₁ ht₂]
          unfold Chart.descendActs
          simp only [hsome]
          cases hnil : (c.enters cur target).isEmpty with
          | true =>
              refine ⟨_, target, rfl, hcur₁, htlt, ?_⟩
              have hend := hg₂.star_cons (Goes.star_refl _ _)
              simpa only [↓reduceIte] using hend
          | false =>
              obtain ⟨m', cur', hm', hcur', hlt', hg'⟩ :=
                ih (Nat.le_of_succ_le_succ hfuel) htlt (by exact hcur₁) ht₂
              exact ⟨m', cur', hm', hcur', hlt', hg₂.star_cons hg'⟩

/-- The loop as the callers run it, with one turn of fuel for each state. -/
theorem followDefaults_nStates {cur : Nat} (hlt : cur < c.nStates) {m : Machine Ev Ctx qn tn}
    (hcur : m.current = some cur) (ht : m.terminated = false) :
    ∃ m' cur', followDefaults c u c.nStates m = .ok m' ∧ m'.current = some cur' ∧
      cur' < c.nStates ∧ Goes c u (c.descendActs c.nStates cur) defaultTransition∗
        (S.tree.up cur) m (S.tree.up cur') m' := by
  obtain ⟨l, hl⟩ := S.default_ends cur
  refine followDefaults_goes S hl (hl.length_le ?_) hlt hcur ht
  exact hl.forall_mem (P := fun x => x < c.nStates) (fun x y _ h => S.default_lt h) hlt

theorem transition_goes {cur target : Nat} (hlt : cur < c.nStates) (htlt : target < c.nStates)
    {m : Machine Ev Ctx qn tn} (hcur : m.current = some cur) (ht : m.terminated = false) :
    ∃ m' cur', transition c u target m = .ok m' ∧ m'.current = some cur' ∧ cur' < c.nStates ∧
      Goes c u (c.transitionActs cur target) (exitBlocks * enterBlocks * defaultTransition∗)
        (S.tree.up cur) m (S.tree.up cur') m' := by
  obtain ⟨m₁, hm₁, hcur₁, hg₁⟩ := applyPath_goes (u := u) S hlt htlt ht
  have ht₁ := hg₁.terminated.trans ht
  unfold transition Chart.transitionActs
  simp only [hcur, Option.getD_some, hm₁, Except.ok_bind_eq, ht₁, Bool.false_eq_true, ↓reduceIte]
  by_cases hnil : (c.enters cur target).isEmpty
  · simp only [hnil, Bool.not_true, Bool.false_eq_true, ↓reduceIte]
    exact ⟨m₁, target, rfl, hcur₁, htlt, hg₁.trans (Goes.star_refl _ _)⟩
  · simp only [hnil, Bool.not_false, ↓reduceIte]
    obtain ⟨m', cur', hm', hcur', hlt', hg'⟩ := followDefaults_nStates (u := u) S htlt hcur₁ ht₁
    exact ⟨m', cur', hm', hcur', hlt', hg₁.trans hg'⟩

theorem enterPath_goes {m : Machine Ev Ctx qn tn} (ht : m.terminated = false) :
    ∃ m' cur', enterPath c u 0 m = .ok m' ∧ m'.current = some cur' ∧ cur' < c.nStates ∧
      Goes c u (.enter 0 :: c.descendActs c.nStates 0) (enterBlock 0 * defaultTransition∗) [] m
        (S.tree.up cur') m' := by
  have hx := enterStateNoDescent_spec (c := c) (u := u) 0 ht
  have ht₁ := hx.terminated.trans ht
  have hroot : (Nesting.Op.enter 0).apply c.parentOf 0 [] = some [0] := by simp [Nesting.Op.apply]
  have hg₁ := Goes.of_entered (u := u) hx S.nStates_pos hroot
  have hup : S.tree.up 0 = [0] := S.tree.up_of_root S.parent_zero
  obtain ⟨m', cur', hm', hcur', hlt', hg'⟩ :=
    followDefaults_nStates (u := u) S S.nStates_pos hx.current ht₁
  refine ⟨m', cur', ?_, hcur', hlt', ?_⟩
  · unfold enterPath
    simp only [ht₁, Bool.false_eq_true, ↓reduceIte]
    exact hm'
  · rw [hup] at hg'
    exact hg₁.trans hg'

/-! ## Handlers -/

theorem runHandlers_goes {cur : Nat} (hlt : cur < c.nStates) (sid : Nat) (aids : List Nat)
    {target : Option Nat} (htarget : ∀ t, target = some t → t < c.nStates) (event : Option Ev)
    (reason : TransitionReason) {m : Machine Ev Ctx qn tn} (hcur : m.current = some cur)
    (ht : m.terminated = false) :
    ∃ m' cur', runHandlers c u sid aids target event reason m = .ok m' ∧
      m'.current = some cur' ∧ cur' < c.nStates ∧
      Goes c u (c.handlerActs cur target) (handlerWords sid reason) (S.tree.up cur) m
        (S.tree.up cur') m' := by
  obtain ⟨m₁, hm₁, hq⟩ := runActions_quiet (c := c) (u := u) sid .handler event aids m ht
  have hg₁ := Goes.of_actions (c := c) (u := u) hq (S.tree.up cur)
  have hcur₁ := hq.current.trans hcur
  have ht₁ := hq.terminated.trans ht
  unfold runHandlers handlerWords Chart.handlerActs
  simp only [hm₁, Bool.false_eq_true, ↓reduceIte]
  cases target with
  | none =>
      refine ⟨m₁, cur, rfl, hcur₁, hlt, ?_⟩
      have := hg₁.trans ((Goes.refl (S.tree.up cur) m₁).mono
        (le_self_add : (1 : Language TraceEvent) ≤ 1 + transitionWords reason))
      simpa using this
  | some target =>
      have htlt := htarget target rfl
      obtain ⟨m₂, cur', hm₂, hcur₂, hlt₂, hg₂⟩ := transition_goes (u := u) S hlt htlt
        (m := m₁.observe (.transitionFired (some cur) target reason)) hcur₁ ht₁
      have hword : evt (.transitionFired (some cur) target reason) *
          (exitBlocks * enterBlocks * defaultTransition∗) *
          evt (.transitionComplete (some cur) target) ≤ 1 + transitionWords reason := by
        refine le_trans ?_ le_add_self
        rw [← mul_assoc]
        exact le_iSup_of_le (some cur) (le_iSup_of_le target le_rfl)
      refine ⟨m₂.observe (.transitionComplete (some cur) target), cur', ?_, hcur₂, hlt₂, ?_⟩
      · simp only [hcur₁, current_observe, hm₂, Except.ok_bind_eq]
      · exact hg₁.trans ((hg₂.bracketed hlt htlt).mono hword)

/-! ## Termination -/

/-- What `doTerminate` does after the exits. -/
def Machine.halt (m : Machine Ev Ctx qn tn) : Machine Ev Ctx qn tn :=
  { m with terminated := true, current := none, queue := Bounded.empty }.observe .terminated

include S in
theorem doTerminate_eq {cur : Nat} (hlt : cur < c.nStates) {m : Machine Ev Ctx qn tn}
    (hcur : m.current = some cur) : doTerminate c u m =
      .ok ((c.pathToRoot cur).foldl (fun m sid => exitState c u sid m) m).halt := by
  obtain ⟨a, b, hr, hsl⟩ := S.terminate_get hlt
  unfold doTerminate
  simp only [hcur, getUnchecked_of_some hr, Except.ok_bind_eq, sliceUnchecked_of_sliceAt hsl,
    S.pathToRoot_eq hlt]
  rfl

/-- Every active state is left, innermost first, and nothing else happens. -/
theorem doTerminate_goes {cur : Nat} (hlt : cur < c.nStates) {m : Machine Ev Ctx qn tn}
    (hcur : m.current = some cur) (ht : m.terminated = false) :
    ∃ m', doTerminate c u m = .ok m' ∧ m'.terminated = true ∧ m'.current = none ∧
      m'.queue = Bounded.empty ∧
      Core.Run c u ((c.pathToRoot cur).map .leave) ⟨S.tree.up cur, m.timers, m.journal⟩
        ⟨[], m'.timers, m'.journal⟩ ∧
      Appends (exitBlocks * evt .terminated) m.journal m'.journal := by
  obtain ⟨-, hg⟩ := exitStates_goes (c := c) (u := u) (S.tree.up cur) [] ht
  rw [List.append_nil] at hg
  rw [doTerminate_eq S hlt hcur, S.pathToRoot_eq hlt]
  refine ⟨_, rfl, rfl, rfl, rfl, ?_, ?_⟩
  · have hnote : ∀ e ∈ [TraceEvent.terminated], Core.Plain c e := by simp [Core.Plain]
    have := hg.run.append (Core.Run.notes hnote)
    rwa [List.append_nil] at this
  · exact hg.journal.trans (Appends.of_mem (mem_evt _) _)

end Hsmc
