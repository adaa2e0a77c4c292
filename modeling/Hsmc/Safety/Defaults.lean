import Hsmc.Link.Moves
import Hsmc.Runtime.Emits

/-
  Where default transitions lead.

  A state that is entered is left again along its default edge, and so on, until a state has no
  default or an edge goes up the tree, since then nothing is entered (`TrailUntil`). The states
  on the way are read off the `TransitionFired` events of the journal.

  * `followDefaults_descends`: the loop, from any state.
  * `defaults_end_where_declared`: at start-up and after a transition, along the edges of the
    parsed chart.
-/

open Computability

namespace Hsmc

open Machine

/-- `a` is above `b`. -/
def Chart.IsStrictAncestor (c : Chart) (a b : Nat) : Prop := a ∈ c.pathToRoot b ∧ a ≠ b

instance (c : Chart) (a b : Nat) : Decidable (c.IsStrictAncestor a b) :=
  inferInstanceAs (Decidable (_ ∧ _))

theorem Chart.Sound.enters_eq_nil_iff {c : Chart} (S : c.Sound) {src dst : Nat}
    (hs : src < c.nStates) (hd : dst < c.nStates) :
    c.enters src dst = [] ↔ c.IsStrictAncestor dst src := by
  unfold Chart.IsStrictAncestor
  rw [(S.paths_eq hs hd).2, S.pathToRoot_eq hs]
  exact S.tree.enterPath_eq_nil_iff (S.zero_mem hs) (S.zero_mem hd)

/-! ## The transitions of a journal -/

/-- The source, the target and the reason of a transition that fired. -/
def TraceEvent.firing : TraceEvent → Option (Option Nat × Nat × TransitionReason)
  | .transitionFired src dst reason => some (src, dst, reason)
  | _ => none

/-- The transitions a journal reports, in order. -/
def firings (j : List TraceEvent) : List (Option Nat × Nat × TransitionReason) :=
  j.filterMap TraceEvent.firing

theorem firings_append (j j' : List TraceEvent) : firings (j ++ j') = firings j ++ firings j' :=
  List.filterMap_append

/-- The words that report no transition. -/
def still : Language TraceEvent := Language.letters fun e => e.firing = none

theorem firings_eq_nil {w : List TraceEvent} (h : w ∈ still) : firings w = [] :=
  List.filterMap_eq_nil_iff.mpr h

theorem inBlocks_le_still : inBlocks ≤ still := by
  intro w hw e he
  have hblock := hw e he
  cases e with
  | transitionFired src dst reason => cases hblock
  | _ => rfl

theorem blocks_le_still : exitBlocks * enterBlocks ≤ still :=
  Language.mul_le_letters (exitBlocks_le_inBlocks.trans inBlocks_le_still)
    (enterBlocks_le_inBlocks.trans inBlocks_le_still)

/-! ## Default transitions -/

variable {Ev Ctx Val : Type} {qn tn : Nat} {c : Chart} {u : UserCode Ev Ctx Val}

/-- The machine went from `s` to the end of `l`, by a default transition between any two
    neighbours in `l` and no others. -/
structure Descended (l : List Nat) (m m' : Machine Ev Ctx qn tn) : Prop where
  current : m'.current = l.getLast?
  terminated : m'.terminated = m.terminated
  journal : ∃ w, m'.journal = m.journal ++ w ∧
    firings w = List.zipWith (fun a b => (some a, b, .internal)) l l.tail

theorem Descended.nil {s : Nat} {m : Machine Ev Ctx qn tn} (h : m.current = some s) :
    Descended [s] m m :=
  ⟨h, rfl, [], (List.append_nil _).symm, rfl⟩

/-- What comes before reports no transition. -/
theorem Descended.after {L : Language TraceEvent} {l : List Nat} {m m₁ m' : Machine Ev Ctx qn tn}
    (h : Descended l m₁ m') (hL : L ≤ still) (hj : Appends L m.journal m₁.journal)
    (ht : m₁.terminated = m.terminated) : Descended l m m' := by
  obtain ⟨w, hw, hj⟩ := hj
  obtain ⟨w', hj', hf⟩ := h.journal
  refine ⟨h.current, h.terminated.trans ht, w ++ w', ?_, ?_⟩
  · rw [hj', hj, List.append_assoc]
  · rw [firings_append, firings_eq_nil (hL hw), hf, List.nil_append]

/-- One default transition, up to the event that reports it done. -/
theorem defaultHop (S : c.Sound) {cur target : Nat} (hs : cur < c.nStates)
    (hd : target < c.nStates) {m : Machine Ev Ctx qn tn} (ht : m.terminated = false) :
    ∃ m', applyPath c u cur target (m.observe (.transitionFired (some cur) target .internal)) =
        .ok (!(c.enters cur target).isEmpty, m') ∧
      Descended [cur, target] m (m'.observe (.transitionComplete (some cur) target)) := by
  obtain ⟨m', hm', hcur', hg⟩ := applyPath_goes (u := u) S hs hd
    (m := m.observe (.transitionFired (some cur) target .internal)) ht
  obtain ⟨w, hw, hj⟩ := hg.journal
  refine ⟨m', hm', hcur', hg.terminated,
    [.transitionFired (some cur) target .internal] ++ w ++
      [.transitionComplete (some cur) target], ?_, ?_⟩
  · show m'.journal ++ _ = _
    rw [hj]
    simp [observe]
  · rw [firings_append, firings_append, firings_eq_nil (blocks_le_still hw)]
    rfl

theorem Descended.cons {a b : Nat} {l : List Nat} {m m₁ m' : Machine Ev Ctx qn tn}
    (h : Descended [a, b] m m₁) (h' : Descended (b :: l) m₁ m') :
    Descended (a :: b :: l) m m' := by
  obtain ⟨w, hj, hf⟩ := h.journal
  obtain ⟨w', hj', hf'⟩ := h'.journal
  refine ⟨?_, h'.terminated.trans h.terminated, w ++ w', ?_, ?_⟩
  · rw [h'.current, List.getLast?_cons_cons]
  · rw [hj', hj, List.append_assoc]
  · rw [firings_append, hf, hf']
    rfl

theorem followDefaults_descends (S : c.Sound) {cur : Nat} {l : List Nat}
    (hl : TrailUntil c.defaultOf (fun a b => c.IsStrictAncestor b a) cur l) :
    ∀ {fuel : Nat} {m : Machine Ev Ctx qn tn}, l.length ≤ fuel → cur < c.nStates →
    m.current = some cur → m.terminated = false →
    ∃ m', followDefaults c u fuel m = .ok m' ∧ Descended l m m' := by
  induction hl with
  | @rest cur hnone =>
      intro fuel m hfuel hlt hcur ht
      cases fuel with
      | zero => simp at hfuel
      | succ fuel =>
          exact ⟨m, followDefaults_stop S hlt hcur hnone, .nil hcur⟩
  | @halt cur target hsome hup =>
      intro fuel m hfuel hlt hcur ht
      cases fuel with
      | zero => simp at hfuel
      | succ fuel =>
          have htlt := S.default_lt hsome
          obtain ⟨m₁, hm₁, hhop⟩ := defaultHop (u := u) S hlt htlt ht
          have ht₁ := hhop.terminated.trans ht
          have hnil := (S.enters_eq_nil_iff hlt htlt).mpr hup
          refine ⟨_, ?_, hhop⟩
          rw [followDefaults_hop S hlt hcur hsome hm₁ ht₁, hnil]
          rfl
  | @step cur target l hsome hup hl ih =>
      intro fuel m hfuel hlt hcur ht
      cases fuel with
      | zero => simp at hfuel
      | succ fuel =>
          have htlt := S.default_lt hsome
          obtain ⟨m₁, hm₁, hhop⟩ := defaultHop (u := u) S hlt htlt ht
          have ht₁ := hhop.terminated.trans ht
          have hnil : (c.enters cur target).isEmpty = false := by
            rw [List.isEmpty_eq_false_iff]
            exact fun h => hup ((S.enters_eq_nil_iff hlt htlt).mp h)
          obtain ⟨m', hm', hd⟩ := ih (Nat.le_of_succ_le_succ hfuel) htlt hhop.current ht₁
          obtain ⟨l', rfl⟩ := hl.eq_cons
          refine ⟨m', ?_, hhop.cons hd⟩
          rw [followDefaults_hop S hlt hcur hsome hm₁ ht₁, hnil]
          exact hm'

/-- The chain of defaults from `s`, as far as each state is newly entered. -/
theorem exists_descent (S : c.Sound) {s : Nat} (hs : s < c.nStates) :
    ∃ l, TrailUntil c.defaultOf (fun a b => c.IsStrictAncestor b a) s l ∧ l.Nodup ∧
      l.length ≤ c.nStates := by
  obtain ⟨t, ht⟩ := S.default_ends s
  obtain ⟨l, hl, hp⟩ := TrailUntil.exists_prefix (p := fun a b => c.IsStrictAncestor b a) ht
  have htn : t.length ≤ c.nStates :=
    ht.length_le (ht.forall_mem (P := fun x => x < c.nStates) (fun x y _ h => S.default_lt h) hs)
  exact ⟨l, hl, hp.sublist.nodup ht.nodup, hp.length_le.trans htn⟩

/-! ## The callers -/

/-- From a newly entered `s`, the machine followed `edge` to the first state that has no edge
    or that lies above the one before. No state was visited twice. -/
def Rests (c : Chart) (edge : Nat → Option Nat) (s : Nat) (m m' : Machine Ev Ctx qn tn) : Prop :=
  ∃ l, TrailUntil edge (fun a b => c.IsStrictAncestor b a) s l ∧ l.Nodup ∧
    l.length ≤ c.nStates ∧ Descended l m m'

theorem followDefaults_rests (S : c.Sound) {s : Nat} (hs : s < c.nStates)
    {m : Machine Ev Ctx qn tn} (hcur : m.current = some s) (ht : m.terminated = false) :
    ∃ m', followDefaults c u c.nStates m = .ok m' ∧ Rests c c.defaultOf s m m' := by
  obtain ⟨l, hl, hnodup, hlen⟩ := exists_descent S hs
  obtain ⟨m', hm', hd⟩ := followDefaults_descends (u := u) S hl hlen hs hcur ht
  exact ⟨m', hm', l, hl, hnodup, hlen, hd⟩

theorem Rests.after {L : Language TraceEvent} {edge : Nat → Option Nat} {s : Nat}
    {m m₁ m' : Machine Ev Ctx qn tn} (h : Rests c edge s m₁ m') (hL : L ≤ still)
    (hj : Appends L m.journal m₁.journal) (ht : m₁.terminated = m.terminated) :
    Rests c edge s m m' := by
  obtain ⟨l, hl, hnodup, hlen, hd⟩ := h
  exact ⟨l, hl, hnodup, hlen, hd.after hL hj ht⟩

theorem enterPath_rests (S : c.Sound) {m : Machine Ev Ctx qn tn} (ht : m.terminated = false) :
    ∃ m', enterPath c u 0 m = .ok m' ∧ Rests c c.defaultOf 0 m m' := by
  have hx := enterStateNoDescent_spec (c := c) (u := u) 0 ht
  have ht₁ := hx.terminated.trans ht
  obtain ⟨acts, hacts, hj⟩ := hx.journal
  obtain ⟨m', hm', hr⟩ := followDefaults_rests (u := u) S S.nStates_pos hx.current ht₁
  refine ⟨m', ?_, hr.after ((enterBlock_le_inBlocks 0).trans inBlocks_le_still)
    ⟨_, enterWord_mem c u 0 hacts, hj⟩ hx.terminated⟩
  unfold enterPath
  simp only [ht₁, Bool.false_eq_true, ↓reduceIte]
  exact hm'

theorem transition_rests (S : c.Sound) {cur target : Nat} (hlt : cur < c.nStates)
    (htlt : target < c.nStates) {m : Machine Ev Ctx qn tn} (hcur : m.current = some cur)
    (ht : m.terminated = false) :
    ∃ m', transition c u target m = .ok m' ∧
      (c.IsStrictAncestor target cur → Descended [target] m m') ∧
      (¬ c.IsStrictAncestor target cur → Rests c c.defaultOf target m m') := by
  obtain ⟨m₁, hm₁, hcur₁, hg⟩ := applyPath_goes (u := u) S hlt htlt ht
  have ht₁ := hg.terminated.trans ht
  unfold transition
  simp only [hcur, Option.getD_some, hm₁, Except.ok_bind_eq, ht₁, Bool.false_eq_true, ↓reduceIte]
  rw [← S.enters_eq_nil_iff hlt htlt]
  by_cases hnil : c.enters cur target = []
  · refine ⟨m₁, by simp [hnil], fun _ => ?_, fun h => absurd hnil h⟩
    exact (Descended.nil hcur₁).after blocks_le_still hg.journal hg.terminated
  · obtain ⟨m', hm', hr⟩ := followDefaults_rests (u := u) S htlt hcur₁ ht₁
    refine ⟨m', by simp [hnil, hm'], fun h => absurd h hnil, fun _ => ?_⟩
    exact hr.after blocks_le_still hg.journal hg.terminated

/-- Default transitions run along the default edges of the parsed chart. They start from the
    root at start-up, and from the target of a transition unless it lies above the source, in
    which case nothing is entered and no default fires. -/
theorem defaults_end_where_declared {input : StatechartInput} {ir : Ir}
    (hir : buildIr input >>= resolveTransitions = .ok ir) (hc : statechartImpl input = .ok c) :
    (∀ s, ∀ m : Machine Ev Ctx qn tn, s < c.nStates → m.current = some s →
      m.terminated = false → ∃ m', followDefaults c u c.nStates m = .ok m' ∧
        Rests c (defaultChildOf ir.states) s m m') ∧
    (∀ m : Machine Ev Ctx qn tn, m.terminated = false → ∃ m', enterPath c u 0 m = .ok m' ∧
      Rests c (defaultChildOf ir.states) 0 m m') ∧
    ∀ cur target, ∀ m : Machine Ev Ctx qn tn, cur < c.nStates → target < c.nStates →
      m.current = some cur → m.terminated = false → ∃ m', transition c u target m = .ok m' ∧
        (c.enters cur target = [] ↔ c.IsStrictAncestor target cur) ∧
        (c.enters cur target = [] → Descended [target] m m') ∧
        (c.enters cur target ≠ [] → Rests c (defaultChildOf ir.states) target m m') := by
  have ha := Accepted.of_resolved hir hc
  obtain ⟨S⟩ := sound hc
  rw [← funext (generate_spec ha.generated).defaultOf_eq]
  refine ⟨fun s m hs hcur ht => followDefaults_rests S hs hcur ht,
    fun m ht => enterPath_rests S ht, fun cur target m hlt htlt hcur ht => ?_⟩
  obtain ⟨m', hm', hup, hdown⟩ := transition_rests (u := u) S hlt htlt hcur ht
  have hiff := S.enters_eq_nil_iff hlt htlt
  exact ⟨m', hm', hiff, fun h => hup (hiff.mp h), fun h => hdown fun h' => h (hiff.mpr h')⟩

theorem relayIr_isOk : (buildIr relay >>= resolveTransitions).isOk = true := by decide +kernel

def relayIr : Ir := Except.get _ relayIr_isOk

theorem defaults_end_where_declared_relay :
    ∃ m', enterPath relayChart (relayCode 1 0) 0
        (Machine.new () : ChartMachine relayChart Ident Unit 4) = .ok m' ∧
      Rests relayChart (defaultChildOf relayIr.states) 0 (Machine.new ()) m' :=
  (defaults_end_where_declared (Except.eq_ok_get _ relayIr_isOk) relay_accepted).2.1 _ rfl

end Hsmc
