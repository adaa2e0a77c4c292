import Hsmc.Lib.Except
import Hsmc.Lib.Forall2
import Hsmc.Macros.Codegen

/-
  What lowering and resolving establish about the `Ir`.

  * `TreeOk`: the states form a tree numbered so that a parent comes before its children, and
    the stored depths count the levels modulo 256.
  * `HandlersOk`: every event id is interned, and a state owns exactly the timers it handles.
  * `Ir.WellFormed`: these two, and every target and every default names a state. It holds of
    every `Ir` that `buildIr` and `resolveTransitions` return, as long as the number of states
    fits a `u16` (`resolved_wellFormed`).
-/

namespace Hsmc

/-! ## The tree of states -/

/-- What lowering never changes in a state once it is allocated. -/
def StateIr.skeleton (s : StateIr) : Nat × Ident × Option Nat × Nat :=
  (s.id, s.name, s.parent, s.depth)

/-- A parent comes before its children, and is one level higher. -/
structure TreeOk (states : List StateIr) : Prop where
  id_eq : ∀ (i : Nat) (s : StateIr), states[i]? = some s → s.id = i
  root : ∀ s : StateIr, states[0]? = some s → s.parent = none ∧ s.depth = 0
  child : ∀ (i : Nat) (s : StateIr), states[i]? = some s → i ≠ 0 →
    ∃ (p : Nat) (q : StateIr), s.parent = some p ∧ p < i ∧ states[p]? = some q ∧
      s.depth = (q.depth + 1) % 256

theorem skeleton_getElem? {states states' : List StateIr} {i : Nat} {s' : StateIr}
    (h : states'.map StateIr.skeleton = states.map StateIr.skeleton) (hs : states'[i]? = some s') :
    ∃ s, states[i]? = some s ∧ s.skeleton = s'.skeleton := by
  have := congrArg (·[i]?) h
  simp only [List.getElem?_map, hs, Option.map_some] at this
  obtain ⟨s, hs, he⟩ := Option.map_eq_some_iff.mp this.symm
  exact ⟨s, hs, he⟩

theorem TreeOk.of_skeleton {states states' : List StateIr}
    (h : states'.map StateIr.skeleton = states.map StateIr.skeleton) (ht : TreeOk states) :
    TreeOk states' where
  id_eq i s' hs' := by
    obtain ⟨s, hs, he⟩ := skeleton_getElem? h hs'
    simp only [StateIr.skeleton, Prod.mk.injEq] at he
    rw [← he.1]; exact ht.id_eq i s hs
  root s' hs' := by
    obtain ⟨s, hs, he⟩ := skeleton_getElem? h hs'
    simp only [StateIr.skeleton, Prod.mk.injEq] at he
    rw [← he.2.2.1, ← he.2.2.2]; exact ht.root s hs
  child i s' hs' hi := by
    obtain ⟨s, hs, he⟩ := skeleton_getElem? h hs'
    simp only [StateIr.skeleton, Prod.mk.injEq] at he
    obtain ⟨p, q, hp, hlt, hq, hd⟩ := ht.child i s hs hi
    obtain ⟨q', hq', heq⟩ := skeleton_getElem? h.symm hq
    simp only [StateIr.skeleton, Prod.mk.injEq] at heq
    exact ⟨p, q', by rw [← he.2.2.1, hp], hlt, hq', by rw [← he.2.2.2, hd, heq.2.2.2]⟩

theorem map_skeleton_modify {f : StateIr → StateIr} (hf : ∀ s, (f s).skeleton = s.skeleton)
    (states : List StateIr) (i : Nat) :
    (states.modify i f).map StateIr.skeleton = states.map StateIr.skeleton := by
  apply List.ext_getElem?
  intro j
  simp only [List.getElem?_map, List.getElem?_modify]
  cases states[j]? with
  | none => simp
  | some s =>
      by_cases hij : i = j
      · simp [hij, hf]
      · simp [hij]

theorem depthOf_of_skeleton {states states' : List StateIr}
    (h : states.map StateIr.skeleton <+: states'.map StateIr.skeleton) {i : Nat}
    (hi : i < states.length) : depthOf states' i = depthOf states i := by
  obtain ⟨t, ht⟩ := h
  have := congrArg (·[i]?) ht
  rw [List.getElem?_append_left (by simpa using hi), List.getElem?_map, List.getElem?_map] at this
  obtain ⟨s, hs⟩ : ∃ s, states[i]? = some s := ⟨states[i], List.getElem?_eq_getElem hi⟩
  rw [hs] at this
  obtain ⟨s', hs', he⟩ := Option.map_eq_some_iff.mp this.symm
  simp only [StateIr.skeleton, Prod.mk.injEq] at he
  simp [depthOf, hs, hs', he.2.2.2]

theorem asU16_lt (x : Nat) : asU16 x < 65536 := Nat.mod_lt x (by decide)

theorem asU16_of_lt {x : Nat} (h : x < 65536) : asU16 x = x := Nat.mod_eq_of_lt h

@[simp] theorem length_allocState (states : List StateIr) (name : Ident) (parent : Option Nat)
    (depth : Nat) : (allocState states name parent depth).1.length = states.length + 1 := by
  simp [allocState]

theorem treeOk_allocRoot (name : Ident) : TreeOk (allocState [] name none 0).1 where
  id_eq i s h := by
    cases i with
    | zero => simp [allocState, asU16] at h; simp [← h]
    | succ i => simp [allocState] at h
  root s h := by simp [allocState] at h; simp [← h]
  child i s h hi := by
    cases i with
    | zero => exact absurd rfl hi
    | succ i => simp [allocState] at h

theorem TreeOk.allocChild {states : List StateIr} (ht : TreeOk states) {p : Nat}
    (hp : p < states.length) (hlen : states.length < 65536) (name : Ident) :
    TreeOk (allocState states name (some p) ((depthOf states p + 1) % 256)).1 := by
  obtain ⟨q, hq⟩ : ∃ q, states[p]? = some q := ⟨states[p], List.getElem?_eq_getElem hp⟩
  have hold : ∀ {i : Nat} {s : StateIr}, i ≠ states.length →
      (allocState states name (some p) ((depthOf states p + 1) % 256)).1[i]? = some s →
      states[i]? = some s := by
    intro i s hne h
    rcases Nat.lt_or_ge i states.length with hi | hi
    · rwa [allocState, List.getElem?_append_left hi] at h
    · rw [allocState, List.getElem?_append_right hi] at h
      obtain ⟨k, hk⟩ : ∃ k, i - states.length = k + 1 := ⟨i - states.length - 1, by omega⟩
      simp [hk] at h
  have hnew : ∀ {s : StateIr},
      (allocState states name (some p) ((depthOf states p + 1) % 256)).1[states.length]? =
        some s → s.id = states.length ∧ s.parent = some p ∧
        s.depth = (depthOf states p + 1) % 256 := by
    intro s h
    simp [allocState, asU16_of_lt hlen] at h
    simp [← h]
  have hkeep : ∀ {i : Nat} {s : StateIr}, states[i]? = some s →
      (allocState states name (some p) ((depthOf states p + 1) % 256)).1[i]? = some s := by
    intro i s h
    have hi : i < states.length := (List.getElem?_eq_some_iff.mp h).1
    rw [allocState, List.getElem?_append_left hi, h]
  constructor
  · intro i s h
    by_cases hi : i = states.length
    · subst hi; exact (hnew h).1
    · exact ht.id_eq i s (hold hi h)
  · intro s h
    exact ht.root s (hold (by omega) h)
  · intro i s h hi
    by_cases he : i = states.length
    · subst he
      exact ⟨p, q, (hnew h).2.1, hp, hkeep hq, by simp [(hnew h).2.2, depthOf, hq]⟩
    · obtain ⟨p', q', h1, h2, h3, h4⟩ := ht.child i s (hold he h) hi
      exact ⟨p', q', h1, h2, hkeep h3, h4⟩

/-! ## Handlers and timers -/

/-- Interning only adds events and duration triggers. -/
structure Symbols.Extends (syms syms' : Symbols) : Prop where
  events : syms.eventVariants.length ≤ syms'.eventVariants.length
  durations : syms.durationTriggers.length ≤ syms'.durationTriggers.length

theorem Symbols.Extends.refl (syms : Symbols) : syms.Extends syms := ⟨le_rfl, le_rfl⟩

theorem Symbols.Extends.trans {a b d : Symbols} (h : a.Extends b) (h' : b.Extends d) :
    a.Extends d :=
  ⟨h.events.trans h'.events, h.durations.trans h'.durations⟩

/-- The trigger was interned. -/
def TriggerIr.Interned (syms : Symbols) : TriggerIr → Prop
  | .event id _ _ => id < syms.eventVariants.length
  | .duration _ => 0 < syms.durationTriggers.length

theorem TriggerIr.Interned.mono {syms syms' : Symbols} (he : syms.Extends syms') :
    ∀ {t : TriggerIr}, t.Interned syms → t.Interned syms'
  | .event .., h => lt_of_lt_of_le h he.events
  | .duration _, h => lt_of_lt_of_le h he.durations

/-- What lowering establishes about one state's handlers. -/
structure HandlersOk (syms : Symbols) (s : StateIr) : Prop where
  interned : ∀ h ∈ s.handlers, h.trigger.Interned syms
  owned_iff : ∀ t, t ∈ s.ownedTimers ↔ ∃ h ∈ s.handlers, h.trigger = .duration t
  owned_nodup : s.ownedTimers.Nodup
  no_slot : ∀ h ∈ s.handlers, ∀ name slot, h.kind = .transition name slot → slot = none
  no_default : s.defaultChild = none

theorem HandlersOk.mono {syms syms' : Symbols} (he : syms.Extends syms') {s : StateIr}
    (h : HandlersOk syms s) : HandlersOk syms' s :=
  { h with interned := fun x hx => (h.interned x hx).mono he }

theorem asU16_le (x : Nat) : asU16 x ≤ x := Nat.mod_le _ _

theorem position_lt {α : Type} {p : α → Bool} {l : List α} {i : Nat} (h : position p l = some i) :
    i < l.length := by
  unfold position at h
  rw [List.findIdx?_eq_some_iff_getElem] at h
  exact h.1

theorem internEvent_spec {events events' : List EventVariantIr} {i : Ident}
    {payload : Option EventPayload} {id : Nat}
    (h : internEvent events i payload = .ok (events', id)) :
    events.length ≤ events'.length ∧ id < events'.length := by
  unfold internEvent at h
  simp only at h
  split at h
  · rename_i p hp
    have hlt := position_lt hp
    have hid := asU16_le p
    split at h
    · rw [Except.bind_eq_ok] at h
      obtain ⟨e', -, h⟩ := h
      cases h
      simp only [List.length_set]
      omega
    · cases h
      exact ⟨le_rfl, by omega⟩
  · cases h
    have := asU16_le events.length
    simp only [List.length_append, List.length_singleton]
    omega

theorem internDuration_spec (durs : List DurationTrigger) (expr : Expr) (key : String)
    (repeats : Bool) : durs.length ≤ (internDuration durs expr key repeats).1.length ∧
      0 < (internDuration durs expr key repeats).1.length := by
  unfold internDuration
  simp only
  split
  · rename_i dt hdt
    exact ⟨le_rfl, List.length_pos_of_mem (List.mem_of_find?_eq_some hdt)⟩
  · simp

theorem internActions_extends {syms syms' : Symbols} {is : List Ident} {aids : List Nat}
    (h : internActions syms is = .ok (syms', aids)) : syms.Extends syms' := by
  induction is generalizing syms syms' aids with
  | nil => cases h; exact .refl syms
  | cons i is ih =>
      unfold internActions at h
      rw [Except.bind_eq_ok] at h
      obtain ⟨⟨actions, aid⟩, -, h⟩ := h
      rw [Except.bind_eq_ok] at h
      obtain ⟨⟨syms₁, aids₁⟩, h₁, h⟩ := h
      cases h
      have := ih h₁
      exact ⟨this.events, this.durations⟩

theorem classifyTarget_spec {syms syms' : Symbols} {target : Ident} {trig : TriggerIr}
    {names : List Ident} {kind : HandlerKindIr}
    (h : classifyTarget syms target trig names = .ok (syms', kind)) :
    syms.Extends syms' ∧ ∀ name slot, kind = .transition name slot → slot = none := by
  unfold classifyTarget at h
  split at h
  · split at h
    · cases h
    · split at h
      · cases h
      · cases h
        refine ⟨.refl syms, ?_⟩
        rintro _ _ ⟨⟩; rfl
  · rw [Except.bind_eq_ok] at h
    obtain ⟨⟨actions, aid⟩, -, h⟩ := h
    cases h
    refine ⟨⟨le_rfl, le_rfl⟩, ?_⟩
    rintro _ _ ⟨⟩

theorem lowerTrigger_spec {syms syms' : Symbols} {owned owned' : List Nat} {t : Trigger}
    {trig : TriggerIr} (h : lowerTrigger syms owned t = .ok (syms', owned', trig)) :
    syms.Extends syms' ∧ trig.Interned syms' ∧
      (∀ x, x ∈ owned' ↔ x ∈ owned ∨ trig = .duration x) ∧ (owned.Nodup → owned'.Nodup) := by
  unfold lowerTrigger at h
  split at h
  · rw [Except.bind_eq_ok] at h
    obtain ⟨⟨events, id⟩, he, h⟩ := h
    cases h
    obtain ⟨h1, h2⟩ := internEvent_spec he
    exact ⟨⟨h1, le_rfl⟩, h2, by simp, fun h => h⟩
  · rename_i expr key repeats
    simp only at h
    cases h
    obtain ⟨h1, h2⟩ := internDuration_spec syms.durationTriggers expr key repeats
    refine ⟨⟨le_rfl, h1⟩, h2, ?_, ?_⟩
    · intro x
      by_cases hc : (internDuration syms.durationTriggers expr key repeats).2 ∈ owned
      · simp only [List.contains_iff_mem, hc, ↓reduceIte, TriggerIr.duration.injEq, iff_self_or]
        rintro rfl; exact hc
      · simp [hc, eq_comm]
    · intro hn
      by_cases hc : (internDuration syms.durationTriggers expr key repeats).2 ∈ owned
      · simpa [hc] using hn
      · simp only [List.contains_iff_mem, hc, ↓reduceIte]
        exact hn.append (List.nodup_singleton _) (by simpa using hc)

/-- What lowering a list of handlers establishes about it. -/
structure HandlersLowered (syms : Symbols) (owned : List Nat) (syms' : Symbols)
    (owned' : List Nat) (hs : List HandlerIr) : Prop where
  extends_ : syms.Extends syms'
  interned : ∀ x ∈ hs, x.trigger.Interned syms'
  owned_iff : ∀ t, t ∈ owned' ↔ t ∈ owned ∨ ∃ x ∈ hs, x.trigger = .duration t
  nodup : owned.Nodup → owned'.Nodup
  no_slot : ∀ x ∈ hs, ∀ name slot, x.kind = .transition name slot → slot = none

theorem lowerHandlers_inv {names : List Ident} {x : Handler} {hs : List Handler}
    {syms syms' : Symbols} {owned owned' : List Nat} {hs' : List HandlerIr}
    (h : lowerHandlers names syms owned (x :: hs) = .ok (syms', owned', hs')) :
    ∃ syms₁ owned₁ trigger syms₂ kind rest,
      lowerTrigger syms owned x.trigger = .ok (syms₁, owned₁, trigger) ∧
      classifyTarget syms₁ x.target trigger names = .ok (syms₂, kind) ∧
      lowerHandlers names syms₂ owned₁ hs = .ok (syms', owned', rest) ∧
      hs' = { trigger, kind, declIndex := x.declIndex } :: rest := by
  unfold lowerHandlers at h
  obtain ⟨⟨syms₁, owned₁, trigger⟩, h₁, h⟩ := Except.bind_eq_ok.mp h
  obtain ⟨⟨syms₂, kind⟩, h₂, h⟩ := Except.bind_eq_ok.mp h
  obtain ⟨⟨syms₃, owned₃, rest⟩, h₃, h⟩ := Except.bind_eq_ok.mp h
  cases h
  exact ⟨syms₁, owned₁, trigger, syms₂, kind, rest, h₁, h₂, h₃, rfl⟩

theorem lowerHandlers_spec {names : List Ident} {hs : List Handler} {syms syms' : Symbols}
    {owned owned' : List Nat} {hs' : List HandlerIr}
    (h : lowerHandlers names syms owned hs = .ok (syms', owned', hs')) :
    HandlersLowered syms owned syms' owned' hs' := by
  induction hs generalizing syms owned syms' owned' hs' with
  | nil =>
      cases h
      exact ⟨.refl syms, by simp, by simp, fun h => h, by simp⟩
  | cons x hs ih =>
      obtain ⟨syms₁, owned₁, trigger, syms₂, kind, rest, h₁, h₂, h₃, rfl⟩ := lowerHandlers_inv h
      obtain ⟨g1, g2, g3, g4⟩ := lowerTrigger_spec h₁
      obtain ⟨e₂, e₃⟩ := classifyTarget_spec h₂
      have k := ih h₃
      refine ⟨g1.trans (e₂.trans k.extends_), ?_, ?_, fun hn => k.nodup (g4 hn), ?_⟩
      · intro y hy
        rcases List.mem_cons.mp hy with rfl | hy
        · exact g2.mono (e₂.trans k.extends_)
        · exact k.interned y hy
      · intro t
        simp only [k.owned_iff, g3, List.mem_cons, exists_eq_or_imp, or_assoc]
      · intro y hy name slot he
        rcases List.mem_cons.mp hy with rfl | hy
        · exact e₃ name slot he
        · exact k.no_slot y hy name slot he

/-! ## Lowering the whole tree -/

theorem lowerBody_inv {names : List Ident} {name : Ident} {body : StateBody}
    {children : List StateDecl} {syms syms' : Symbols} {states states' : List StateIr} {sid : Nat}
    (h : lowerBody names syms states sid (.mk name body children) = .ok (syms', states')) :
    ∃ syms₁ entries syms₂ exits syms₃ owned handlers states₁ ids,
      internActions syms body.entries = .ok (syms₁, entries) ∧
      internActions syms₁ body.exits = .ok (syms₂, exits) ∧
      lowerHandlers names syms₂ [] body.handlers = .ok (syms₃, owned, handlers) ∧
      lowerChildren names syms₃ (states.modify sid fun s =>
          { s with entries, exits, ownedTimers := owned, handlers, durings := body.durings })
        sid (depthOf (states.modify sid fun s =>
          { s with entries, exits, ownedTimers := owned, handlers, durings := body.durings }) sid)
        children = .ok (syms', states₁, ids) ∧
      states' = states₁.modify sid fun s =>
        { s with children := ids, defaultTargetIdent := body.defaultChild } := by
  unfold lowerBody at h
  obtain ⟨⟨syms₁, entries⟩, h₁, h⟩ := Except.bind_eq_ok.mp h
  obtain ⟨⟨syms₂, exits⟩, h₂, h⟩ := Except.bind_eq_ok.mp h
  obtain ⟨⟨syms₃, owned, handlers⟩, h₃, h⟩ := Except.bind_eq_ok.mp h
  obtain ⟨⟨syms₄, states₁, ids⟩, h₄, h⟩ := Except.bind_eq_ok.mp h
  cases h
  exact ⟨syms₁, entries, syms₂, exits, syms₃, owned, handlers, states₁, ids, h₁, h₂, h₃, h₄, rfl⟩

theorem lowerChildren_inv {names : List Ident} {c : StateDecl} {cs : List StateDecl}
    {syms syms' : Symbols} {states states' : List StateIr} {sid depth : Nat} {ids : List Nat}
    (h : lowerChildren names syms states sid depth (c :: cs) = .ok (syms', states', ids)) :
    ∃ syms₁ states₁ rest,
      lowerBody names syms (allocState states c.name (some sid) ((depth + 1) % 256)).1
        (asU16 states.length) c = .ok (syms₁, states₁) ∧
      lowerChildren names syms₁ states₁ sid depth cs = .ok (syms', states', rest) ∧
      ids = asU16 states.length :: rest := by
  unfold lowerChildren at h
  obtain ⟨⟨syms₁, states₁⟩, h₁, h⟩ := Except.bind_eq_ok.mp h
  obtain ⟨⟨syms₂, states₂, rest⟩, h₂, h⟩ := Except.bind_eq_ok.mp h
  cases h
  exact ⟨syms₁, states₁, rest, h₁, h₂, rfl⟩

/-- What lowering a part of the tree does to the interned events and the states: events and
    states are only added, and added states are well formed when the ids have not wrapped. -/
structure Lowered (syms : Symbols) (states : List StateIr) (syms' : Symbols)
    (states' : List StateIr) : Prop where
  prefix_skeleton : states.map StateIr.skeleton <+: states'.map StateIr.skeleton
  extends_ : syms.Extends syms'
  inv : states'.length ≤ 65536 → TreeOk states →
    (∀ s ∈ states, HandlersOk syms s) →
    TreeOk states' ∧ ∀ s ∈ states', HandlersOk syms' s

theorem Lowered.length_le {syms syms' : Symbols} {states states' : List StateIr}
    (h : Lowered syms states syms' states') : states.length ≤ states'.length := by
  simpa using h.prefix_skeleton.length_le

theorem Lowered.refl (syms : Symbols) (states : List StateIr) : Lowered syms states syms states :=
  ⟨List.prefix_rfl, .refl syms, fun _ ht hh => ⟨ht, hh⟩⟩

theorem Lowered.trans {syms syms₁ syms₂ : Symbols} {states states₁ states₂ : List StateIr}
    (h : Lowered syms states syms₁ states₁) (h' : Lowered syms₁ states₁ syms₂ states₂) :
    Lowered syms states syms₂ states₂ where
  prefix_skeleton := h.prefix_skeleton.trans h'.prefix_skeleton
  extends_ := h.extends_.trans h'.extends_
  inv hlen ht hh := by
    obtain ⟨ht₁, hh₁⟩ := h.inv (h'.length_le.trans hlen) ht hh
    exact h'.inv hlen ht₁ hh₁

/-- Rewriting one state, skeleton apart, to one with well-formed handlers. -/
theorem Lowered.modify {syms syms' : Symbols} (states : List StateIr) (i : Nat)
    {f : StateIr → StateIr} (hf : ∀ s, (f s).skeleton = s.skeleton)
    (he : syms.Extends syms')
    (hh : ∀ s, HandlersOk syms s →
      HandlersOk syms' (f s)) :
    Lowered syms states syms' (states.modify i f) where
  prefix_skeleton := by simp [map_skeleton_modify hf]
  extends_ := he
  inv _ ht hs := by
    refine ⟨TreeOk.of_skeleton (map_skeleton_modify hf states i) ht, ?_⟩
    intro s hs'
    obtain ⟨j, hj⟩ := List.mem_iff_getElem?.mp hs'
    rw [List.getElem?_modify] at hj
    obtain ⟨a, ha, hj⟩ := Option.map_eq_some_iff.mp hj
    have hok := hs a (List.mem_of_getElem? ha)
    by_cases hij : i = j
    · rw [if_pos hij] at hj
      rw [← hj]; exact hh a hok
    · rw [if_neg hij] at hj
      rw [← hj]; exact hok.mono he

theorem Lowered.alloc (syms : Symbols) {states : List StateIr} {p : Nat} (hp : p < states.length)
    (name : Ident) : Lowered syms states syms
      (allocState states name (some p) ((depthOf states p + 1) % 256)).1 where
  prefix_skeleton := by simp [allocState]
  extends_ := .refl syms
  inv hlen ht hh := by
    have hlen' : states.length < 65536 := by
      rw [length_allocState] at hlen
      omega
    refine ⟨ht.allocChild hp hlen' name, ?_⟩
    intro s hs
    simp only [allocState, List.mem_append, List.mem_singleton] at hs
    rcases hs with hs | rfl
    · exact hh s hs
    · exact ⟨by simp, by simp, List.nodup_nil, by simp, rfl⟩

/-- The handlers of one body, written into its state. -/
theorem lowered_handlers {names : List Ident} {body : StateBody} {syms syms₁ syms₂ syms₃ : Symbols}
    {entries exits owned : List Nat} {handlers : List HandlerIr} (states : List StateIr)
    (sid : Nat) (h₁ : internActions syms body.entries = .ok (syms₁, entries))
    (h₂ : internActions syms₁ body.exits = .ok (syms₂, exits))
    (h₃ : lowerHandlers names syms₂ [] body.handlers = .ok (syms₃, owned, handlers)) :
    Lowered syms states syms₃ (states.modify sid fun s =>
      { s with entries, exits, ownedTimers := owned, handlers, durings := body.durings }) := by
  have k := lowerHandlers_spec h₃
  have he := ((internActions_extends h₁).trans (internActions_extends h₂)).trans k.extends_
  refine Lowered.modify states sid (fun _ => rfl) he ?_
  intro s hs
  exact ⟨k.interned, by simpa using k.owned_iff, k.nodup List.nodup_nil, k.no_slot, hs.no_default⟩

mutual

theorem lowerBody_lowered (names : List Ident) : ∀ (d : StateDecl) {syms syms' : Symbols}
    {states states' : List StateIr} {sid : Nat}, sid < states.length →
    lowerBody names syms states sid d = .ok (syms', states') → Lowered syms states syms' states'
  | .mk _ body children, syms, syms', states, states', sid, hsid, h => by
      obtain ⟨syms₁, entries, syms₂, exits, syms₃, owned, handlers, states₄, ids, h₁, h₂, h₃, h₄,
        rfl⟩ := lowerBody_inv h
      have hsid' : sid < (states.modify sid fun s =>
          { s with
            entries, exits, ownedTimers := owned, handlers, durings := body.durings }).length := by
        simpa using hsid
      have e₁ := lowered_handlers states sid h₁ h₂ h₃
      have e₂ := lowerChildren_lowered names children hsid' rfl h₄
      have e₃ : Lowered syms' states₄ syms' (states₄.modify sid fun s =>
          { s with children := ids, defaultTargetIdent := body.defaultChild }) :=
        Lowered.modify states₄ sid (fun _ => rfl) (.refl _)
          (fun _ hs => ⟨hs.interned, hs.owned_iff, hs.owned_nodup, hs.no_slot, hs.no_default⟩)
      exact (e₁.trans e₂).trans e₃

theorem lowerChildren_lowered (names : List Ident) : ∀ (cs : List StateDecl) {syms syms' : Symbols}
    {states states' : List StateIr} {sid depth : Nat} {ids : List Nat}, sid < states.length →
    depthOf states sid = depth →
    lowerChildren names syms states sid depth cs = .ok (syms', states', ids) →
    Lowered syms states syms' states'
  | [], syms, syms', states, states', sid, depth, ids, _, _, h => by
      unfold lowerChildren at h
      cases h
      exact Lowered.refl _ _
  | c :: cs, syms, syms', states, states', sid, depth, ids, hsid, hd, h => by
      obtain ⟨syms₁, states₁, ids₂, h₁, h₂, rfl⟩ := lowerChildren_inv h
      subst hd
      have e₀ := Lowered.alloc syms hsid c.name
      -- the fresh state is the last one unless its id wrapped, and then it is an earlier one
      have hcid : asU16 states.length <
          (allocState states c.name (some sid) ((depthOf states sid + 1) % 256)).1.length := by
        have := asU16_le states.length
        rw [length_allocState]
        omega
      have e₁ := lowerBody_lowered names c hcid h₁
      have hpre := e₀.trans e₁
      have e₂ := lowerChildren_lowered names cs (hsid.trans_le hpre.length_le)
        (depthOf_of_skeleton hpre.prefix_skeleton hsid) h₂
      exact hpre.trans e₂

end

/-! ## The resolved `Ir` -/

/-- What holds of the `Ir` that code generation receives. -/
structure Ir.WellFormed (ir : Ir) : Prop where
  tree : TreeOk ir.states
  nonempty : 0 < ir.states.length
  interned : ∀ s ∈ ir.states, ∀ h ∈ s.handlers, h.trigger.Interned ir.symbols
  owned_iff : ∀ s ∈ ir.states, ∀ t, t ∈ s.ownedTimers ↔ ∃ h ∈ s.handlers, h.trigger = .duration t
  owned_nodup : ∀ s ∈ ir.states, s.ownedTimers.Nodup
  target_lt : ∀ s ∈ ir.states, ∀ h ∈ s.handlers, ∀ name slot, h.kind = .transition name slot →
    ∃ t, slot = some t ∧ t < ir.states.length
  default_lt : ∀ s ∈ ir.states, ∀ t, s.defaultChild = some t → t < ir.states.length

theorem internTerminate_extends {syms syms' : Symbols} {t : Option Ident}
    (h : internTerminate syms t = .ok syms') : syms.Extends syms' := by
  cases t with
  | none => cases h; exact .refl syms
  | some t =>
      unfold internTerminate at h
      rw [Except.bind_eq_ok] at h
      obtain ⟨⟨events, id⟩, he, h⟩ := h
      cases h
      exact ⟨(internEvent_spec he).1, le_rfl⟩

theorem buildIr_inv {input : StatechartInput} {ir : Ir} (h : buildIr input = .ok ir) : ∃ syms,
    lowerBody (input.name :: collectStateNames input.root) {} (allocState [] "__Root" none 0).1
      (asU16 0) input.root = .ok (syms, ir.states) ∧
    internTerminate syms input.body.terminate = .ok ir.symbols ∧ ir.name = input.name := by
  unfold buildIr at h
  split at h
  · cases h
  · obtain ⟨⟨syms, states⟩, h₁, h⟩ := Except.bind_eq_ok.mp h
    obtain ⟨syms', h₂, h⟩ := Except.bind_eq_ok.mp h
    cases h
    exact ⟨syms, h₁, h₂, rfl⟩

theorem buildIr_spec {input : StatechartInput} {ir : Ir} (h : buildIr input = .ok ir)
    (hlen : ir.states.length ≤ 65536) :
    TreeOk ir.states ∧ 0 < ir.states.length ∧
      ∀ s ∈ ir.states, HandlersOk ir.symbols s := by
  obtain ⟨syms, h₁, h₂, -⟩ := buildIr_inv h
  have hle := internTerminate_extends h₂
  have hroot : asU16 0 < (allocState [] "__Root" none 0).1.length := by decide
  have e := lowerBody_lowered _ _ hroot h₁
  have hpos : 0 < ir.states.length := lt_of_lt_of_le (by decide) e.length_le
  obtain ⟨ht, hh⟩ := e.inv hlen (treeOk_allocRoot _) (by
    intro s hs
    have : s = { id := asU16 0, name := "__Root", parent := none, depth := 0 } := by
      simpa [allocState] using hs
    subst this
    exact ⟨by simp, by simp, List.nodup_nil, by simp, rfl⟩)
  exact ⟨ht, hpos, fun s hs => (hh s hs).mono hle⟩

/-- Every id the name map holds is the id of a state. -/
theorem mem_nameMap {ir : Ir} (ht : TreeOk ir.states) {name : Ident} {id : Nat}
    (h : (nameMap ir).lookup name = some id) : id < ir.states.length := by
  have hmem : (name, id) ∈ nameMap ir := by
    obtain ⟨l, l', hl, -⟩ := List.lookup_eq_some_iff.mp h
    simp [hl]
  have hlt : ∀ s ∈ ir.states, s.id < ir.states.length := by
    intro s hs
    obtain ⟨i, hi⟩ := List.mem_iff_getElem?.mp hs
    rw [ht.id_eq i s hi]
    exact (List.getElem?_eq_some_iff.mp hi).1
  unfold nameMap at hmem
  rw [List.mem_append, List.mem_reverse, List.mem_map] at hmem
  rcases hmem with hmem | ⟨s, hs, he⟩
  · split at hmem
    · rename_i root hroot
      simp only [List.mem_singleton, Prod.mk.injEq] at hmem
      rw [hmem.2]
      exact hlt root (List.mem_of_find?_eq_some hroot)
    · cases hmem
  · cases he
    exact hlt s (List.mem_of_mem_filter hs)

/-! ### Resolving -/

theorem resolveKind_spec {map : List (Ident × Nat)} {kind kind' : HandlerKindIr}
    (hr : resolveKind map kind = .ok kind')
    (hslot : ∀ name slot, kind = .transition name slot → slot = none) :
    ∀ name slot, kind' = .transition name slot → ∃ t, slot = some t ∧ map.lookup name = some t := by
  cases kind with
  | action aid name => cases hr; rintro _ _ ⟨⟩
  | transition name slot =>
      cases hslot name slot rfl
      unfold resolveKind at hr
      simp only at hr
      split at hr
      · rename_i id hid
        cases hr
        rintro _ _ ⟨⟩
        exact ⟨id, rfl, hid⟩
      · cases hr

/-- Resolving keeps everything of a handler but an unresolved slot. -/
theorem resolveHandler_spec {map : List (Ident × Nat)} {h h' : HandlerIr}
    (hr : resolveHandler map h = .ok h')
    (hslot : ∀ name slot, h.kind = .transition name slot → slot = none) :
    h'.trigger = h.trigger ∧ ∀ name slot, h'.kind = .transition name slot →
      ∃ t, slot = some t ∧ map.lookup name = some t := by
  unfold resolveHandler at hr
  rw [Except.bind_eq_ok] at hr
  obtain ⟨kind, hk, hr⟩ := hr
  cases hr
  exact ⟨rfl, resolveKind_spec hk hslot⟩

/-- What resolving does to one state. -/
structure Resolved (map : List (Ident × Nat)) (s s' : StateIr) : Prop where
  skeleton : s'.skeleton = s.skeleton
  owned : s'.ownedTimers = s.ownedTimers
  handlers : List.Forall₂ (fun h h' => resolveHandler map h = .ok h') s.handlers s'.handlers
  default_ : s'.defaultChild = s.defaultChild ∨
    ∃ name t, s'.defaultChild = some t ∧ map.lookup name = some t

theorem resolveHandlers_spec {map : List (Ident × Nat)} {s s' : StateIr}
    (hr : resolveHandlers map s = .ok s') : Resolved map s s' := by
  unfold resolveHandlers at hr
  rw [Except.bind_eq_ok] at hr
  obtain ⟨hs, h, hr⟩ := hr
  cases hr
  exact ⟨rfl, rfl, Except.mapM_forall₂ h, .inl rfl⟩

theorem resolveDefault_spec {map : List (Ident × Nat)} {s₀ s s' : StateIr}
    (h : Resolved map s₀ s) (hr : resolveDefault map s = .ok s') : Resolved map s₀ s' := by
  unfold resolveDefault at hr
  split at hr
  · cases hr; exact h
  · split at hr
    · rename_i name _ id hid
      cases hr
      exact ⟨h.skeleton, h.owned, h.handlers, .inr ⟨_, id, rfl, hid⟩⟩
    · cases hr

theorem resolved_of_forall₂ {map : List (Ident × Nat)} {states₀ states states' : List StateIr}
    (h : List.Forall₂ (fun s s' => resolveHandlers map s = .ok s') states₀ states)
    (h' : List.Forall₂ (fun s s' => resolveDefault map s = .ok s') states states') :
    List.Forall₂ (Resolved map) states₀ states' := by
  induction h generalizing states' with
  | nil => cases h'; exact .nil
  | cons hs _ ih =>
      cases h' with
      | cons hs' h' => exact .cons (resolveDefault_spec (resolveHandlers_spec hs) hs') (ih h')

theorem resolveTransitions_spec {ir ir' : Ir} (hr : resolveTransitions ir = .ok ir') :
    ir'.symbols = ir.symbols ∧ List.Forall₂ (Resolved (nameMap ir)) ir.states ir'.states := by
  unfold resolveTransitions at hr
  simp only at hr
  rw [Except.bind_eq_ok] at hr
  obtain ⟨states, h₁, hr⟩ := hr
  rw [Except.bind_eq_ok] at hr
  obtain ⟨states', h₂, hr⟩ := hr
  cases hr
  exact ⟨rfl, resolved_of_forall₂ (Except.mapM_forall₂ h₁) (Except.mapM_forall₂ h₂)⟩

theorem map_skeleton_of_resolved {map : List (Ident × Nat)} {states states' : List StateIr}
    (h : List.Forall₂ (Resolved map) states states') :
    states'.map StateIr.skeleton = states.map StateIr.skeleton := by
  induction h with
  | nil => rfl
  | cons hs _ ih => simp only [List.map_cons, hs.skeleton, ih]

/-- Every `Ir` that reaches code generation is well formed, unless the state ids have wrapped. -/
theorem resolved_wellFormed {input : StatechartInput} {ir₀ ir : Ir}
    (hb : buildIr input = .ok ir₀) (hr : resolveTransitions ir₀ = .ok ir)
    (hlen : ir.states.length ≤ 65536) : ir.WellFormed := by
  obtain ⟨hsyms, hstates⟩ := resolveTransitions_spec hr
  have hlen₀ : ir₀.states.length = ir.states.length := hstates.length_eq
  obtain ⟨ht, hpos, hh⟩ := buildIr_spec hb (by omega)
  have hmap : ∀ {name : Ident} {t : Nat}, (nameMap ir₀).lookup name = some t →
      t < ir.states.length := by
    intro name t h
    rw [← hlen₀]; exact mem_nameMap ht h
  -- each handler after resolving comes from one before it
  have hfrom : ∀ s ∈ ir.states, ∀ h ∈ s.handlers, ∃ s₀ ∈ ir₀.states, ∃ h₀ ∈ s₀.handlers,
      resolveHandler (nameMap ir₀) h₀ = .ok h := by
    intro s hs h hh'
    obtain ⟨s₀, hs₀, hres⟩ := hstates.exists_of_mem_right hs
    obtain ⟨h₀, hh₀, hrh⟩ := hres.handlers.exists_of_mem_right hh'
    exact ⟨s₀, hs₀, h₀, hh₀, hrh⟩
  constructor
  · exact TreeOk.of_skeleton (map_skeleton_of_resolved hstates) ht
  · omega
  · intro s hs h hh'
    obtain ⟨s₀, hs₀, h₀, hh₀, hrh⟩ := hfrom s hs h hh'
    rw [hsyms, (resolveHandler_spec hrh ((hh s₀ hs₀).no_slot h₀ hh₀)).1]
    exact (hh s₀ hs₀).interned h₀ hh₀
  · intro s hs t
    obtain ⟨s₀, hs₀, hres⟩ := hstates.exists_of_mem_right hs
    rw [hres.owned, (hh s₀ hs₀).owned_iff]
    constructor
    · rintro ⟨h₀, hh₀, ht₀⟩
      obtain ⟨h, hh', hrh⟩ := hres.handlers.exists_of_mem_left hh₀
      exact ⟨h, hh', by rw [(resolveHandler_spec hrh ((hh s₀ hs₀).no_slot h₀ hh₀)).1, ht₀]⟩
    · rintro ⟨h, hh', ht'⟩
      obtain ⟨h₀, hh₀, hrh⟩ := hres.handlers.exists_of_mem_right hh'
      exact ⟨h₀, hh₀, by rw [← (resolveHandler_spec hrh ((hh s₀ hs₀).no_slot h₀ hh₀)).1, ht']⟩
  · intro s hs
    obtain ⟨s₀, hs₀, hres⟩ := hstates.exists_of_mem_right hs
    rw [hres.owned]; exact (hh s₀ hs₀).owned_nodup
  · intro s hs h hh' name slot he
    obtain ⟨s₀, hs₀, h₀, hh₀, hrh⟩ := hfrom s hs h hh'
    obtain ⟨t, hslot, hlook⟩ :=
      (resolveHandler_spec hrh ((hh s₀ hs₀).no_slot h₀ hh₀)).2 name slot he
    exact ⟨t, hslot, hmap hlook⟩
  · intro s hs t he
    obtain ⟨s₀, hs₀, hres⟩ := hstates.exists_of_mem_right hs
    rcases hres.default_ with h | ⟨name, t', h, hlook⟩
    · rw [(hh s₀ hs₀).no_default, he] at h; cases h
    · rw [he] at h; cases h
      exact hmap hlook

end Hsmc
