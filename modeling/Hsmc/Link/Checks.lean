import Hsmc.Link.Defaults
import Hsmc.Link.Lowers
import Hsmc.Link.Names
import Hsmc.Link.Order

/-
  What each stage of the compiler checks.

  One statement for a stage says when it succeeds: `validateParseTree_ok_iff`, `buildIr_ok_iff`,
  `resolveTransitions_ok_iff` and `validate_ok_iff`. The last needs the states to be where they
  were declared, which holds up to 65536 of them. From the next one on, a state stays as it was
  allocated (`buildIr_unfilled`), and `validate` takes it for empty.
-/

namespace Hsmc

/-! ## The parse tree -/

/-- What `validateItems` asks of a body. -/
structure ItemsOk (p : Placed) : Prop where
  default_ : p.decl.body.defaultCount ≤ 1
  terminate : p.decl.body.terminateCount ≤ 1
  nested : p.parent.isSome → p.decl.body.terminate = none

theorem validateItems_ok_iff {parent : Option Nat} {name : Ident} {body : StateBody}
    {children : List StateDecl} :
    validateItems body parent.isNone name = .ok () ↔ ItemsOk ⟨parent, .mk name body children⟩ := by
  have hiff : ItemsOk ⟨parent, .mk name body children⟩ ↔ body.defaultCount ≤ 1 ∧
      body.terminateCount ≤ 1 ∧ (parent.isSome → body.terminate = none) :=
    ⟨fun h => ⟨h.default_, h.terminate, h.nested⟩, fun h => ⟨h.1, h.2.1, h.2.2⟩⟩
  rw [hiff]
  unfold validateItems
  by_cases hd : body.defaultCount > 1
  · rw [if_pos hd]
    exact iff_of_false (fun h => (nomatch h)) (fun h => absurd h.1 (by omega))
  rw [if_neg hd]
  by_cases ht : body.terminateCount > 1
  · rw [if_pos ht]
    exact iff_of_false (fun h => (nomatch h)) (fun h => absurd h.2.1 (by omega))
  rw [if_neg ht, and_iff_right (by omega), and_iff_right (by omega)]
  cases parent <;> cases body.terminate <;> simp

mutual

theorem validateBody_ok_iff : ∀ (d : StateDecl) (parent : Option Nat) (id : Nat),
    validateBody parent.isNone d = .ok () ↔ ∀ p ∈ d.place parent id, ItemsOk p
  | .mk name body children, parent, id => by
      unfold validateBody StateDecl.place
      rw [List.forall_mem_cons, ← validateItems_ok_iff, ← validateChildren_ok_iff children]
      exact Except.check_bind_eq_ok

theorem validateChildren_ok_iff : ∀ (cs : List StateDecl) (parent next : Nat),
    validateChildren cs = .ok () ↔ ∀ p ∈ placeAll parent next cs, ItemsOk p
  | [], parent, next => by
      unfold validateChildren placeAll
      exact iff_of_true rfl (List.forall_mem_nil _)
  | c :: cs, parent, next => by
      unfold validateChildren placeAll
      rw [List.forall_mem_append, ← validateBody_ok_iff c, ← validateChildren_ok_iff cs]
      exact Except.check_bind_eq_ok

end

theorem validateParseTree_ok_iff {input : StatechartInput} :
    validateParseTree input = .ok () ↔ ∀ p ∈ input.layout, ItemsOk p :=
  validateBody_ok_iff input.root none 0

/-! ## Lowering -/

section

variable {input : StatechartInput} {ir : Ir}

theorem internTerminate_ok (syms : Symbols) (t : Option Ident) :
    ∃ syms', internTerminate syms t = .ok syms' := by
  cases t with
  | none => exact ⟨syms, rfl⟩
  | some t =>
      have hshape : ∀ e ∈ syms.eventVariants, e.name = t → e.kind ≠ .unit →
          ∀ p, (none : Option EventPayload) = some p → e.BoundAs p :=
        fun _ _ _ _ _ hp => (nomatch hp)
      obtain ⟨events, id, hi, -⟩ := internEvent_ok hshape
      refine ⟨{ syms with eventVariants := events }, ?_⟩
      unfold internTerminate
      simp only [hi, Except.ok_bind_eq]

theorem buildIr_ok_iff (hctx : input.body.contextTy.isSome)
    (hagree : Agree input.stateNames input.root.uses) : (∃ ir, buildIr input = .ok ir) ↔
      input.root.uses.Pairwise (Use.Before input.stateNames) ∧
        ∀ u ∈ input.root.uses, u.Fires input.stateNames (timersOf input.root.uses) := by
  rw [← uses_ok_iff hagree]
  obtain ⟨ty, hty⟩ := Option.isSome_iff_exists.mp hctx
  have huses := @lowerBody_uses input.stateNames input.root {} (allocState [] "__Root" none 0).1
    (allocState [] "__Root" none 0).2
  have hbuild : buildIr input = lowerBody input.stateNames {} (allocState [] "__Root" none 0).1
      (allocState [] "__Root" none 0).2 input.root >>= fun r =>
        internTerminate r.1 input.body.terminate >>= fun syms => .ok
          { name := input.name, eventsOmitted := input.body.eventTy.isNone
            terminateEvent := input.body.terminate, states := r.2, symbols := syms } := by
    unfold buildIr
    rw [hty]
    rfl
  rw [← huses, hbuild]
  cases lowerBody input.stateNames {} (allocState [] "__Root" none 0).1
      (allocState [] "__Root" none 0).2 input.root with
  | error e => exact iff_of_false (fun ⟨_, h⟩ => (nomatch h)) (fun ⟨_, h⟩ => (nomatch h))
  | ok r =>
      obtain ⟨syms, hsyms⟩ := internTerminate_ok r.1 input.body.terminate
      refine iff_of_true ?_ ⟨r.1, rfl⟩
      rw [Except.ok_bind_eq, hsyms]
      exact ⟨_, rfl⟩

/-- The symbols of a chart are those of its uses and its terminate event. -/
theorem buildIr_uses (h : buildIr input = .ok ir) : ∃ syms,
    input.root.uses.foldlM (applyUse input.stateNames) {} = .ok syms ∧
      internTerminate syms input.body.terminate = .ok ir.symbols := by
  obtain ⟨syms, h₁, h₂, -⟩ := buildIr_inv h
  exact ⟨syms, foldlM_uses_of_ok (lowerBody_uses _ _ _ _) h₁, h₂⟩

theorem internTerminate_timers {syms syms' : Symbols} {t : Option Ident}
    (h : internTerminate syms t = .ok syms') : syms'.durationTriggers = syms.durationTriggers := by
  cases t with
  | none =>
      cases h
      rfl
  | some t =>
      obtain ⟨⟨events, id⟩, -, h⟩ := Except.bind_eq_ok.mp h
      cases h
      rfl

/-- What the table of timers holds in the end. -/
theorem buildIr_timers (h : buildIr input = .ok ir) :
    timerRows ir.symbols.durationTriggers = keyed (timersOf input.root.uses) := by
  obtain ⟨syms, hs, ht⟩ := buildIr_uses h
  rw [internTerminate_timers ht]
  exact uses_timers hs

theorem buildIr_length (h : buildIr input = .ok ir) :
    ir.states.length = input.stateNames.length := by
  obtain ⟨syms, h₁, -, -⟩ := buildIr_inv h
  rw [lowerBody_length _ _ h₁, Nat.add_comm]
  rfl

end

/-! ## Beyond 65536 states -/

/-- A state below the root with nothing in it. -/
structure StateIr.Blank (s : StateIr) : Prop where
  parent : s.parent.isSome
  entries : s.entries = []
  exits : s.exits = []
  handlers : s.handlers = []
  children : s.children = []
  durings : s.durings = []

/-- From place 65536 on the states are as they were allocated. -/
def Unfilled (states : List StateIr) : Prop :=
  ∀ (i : Nat) (s : StateIr), 65536 ≤ i → states[i]? = some s → s.Blank

theorem Unfilled.modify {states : List StateIr} (h : Unfilled states) {sid : Nat}
    (hsid : sid < 65536) (f : StateIr → StateIr) : Unfilled (states.modify sid f) := by
  intro i s hi hs
  have hne : sid ≠ i := by omega
  rw [List.getElem?_modify_ne _ _ hne] at hs
  exact h i s hi hs

theorem Unfilled.alloc {states : List StateIr} (h : Unfilled states) (name : Ident)
    (parent depth : Nat) : Unfilled (allocState states name (some parent) depth).1 := by
  intro i s hi hs
  rcases Nat.lt_or_ge i states.length with hlt | hge
  · unfold allocState at hs
    rw [List.getElem?_append_left hlt] at hs
    exact h i s hi hs
  · have hmem := List.mem_of_getElem? hs
    unfold allocState at hs hmem
    rw [List.getElem?_append_right hge] at hs
    rw [List.mem_singleton.mp (List.mem_of_getElem? hs)]
    exact ⟨rfl, rfl, rfl, rfl, rfl, rfl⟩

mutual

/-- Lowering fills in states by their `u16`. -/
theorem lowerBody_unfilled (names : List Ident) : ∀ (d : StateDecl) {syms syms' : Symbols}
    {states states' : List StateIr} {sid : Nat}, sid < 65536 → Unfilled states →
    lowerBody names syms states sid d = .ok (syms', states') → Unfilled states'
  | .mk _ body children, syms, syms', states, states', sid, hsid, hu, h => by
      obtain ⟨_, _, _, _, _, _, _, _, _, -, -, -, h₄, rfl⟩ := lowerBody_inv h
      exact (lowerChildren_unfilled names children (hu.modify hsid _) h₄).modify hsid _

theorem lowerChildren_unfilled (names : List Ident) : ∀ (cs : List StateDecl)
    {syms syms' : Symbols} {states states' : List StateIr} {parent depth : Nat} {ids : List Nat},
    Unfilled states → lowerChildren names syms states parent depth cs = .ok (syms', states', ids) →
    Unfilled states'
  | [], syms, syms', states, states', parent, depth, ids, hu, h => by
      unfold lowerChildren at h
      cases h
      exact hu
  | c :: cs, syms, syms', states, states', parent, depth, ids, hu, h => by
      obtain ⟨syms₁, states₁, ids₂, h₁, h₂, rfl⟩ := lowerChildren_inv h
      have hu₁ := lowerBody_unfilled names c (asU16_lt _) (hu.alloc c.name parent _) h₁
      exact lowerChildren_unfilled names cs hu₁ h₂

end

theorem buildIr_unfilled {input : StatechartInput} {ir : Ir} (h : buildIr input = .ok ir) :
    Unfilled ir.states := by
  obtain ⟨syms, h₁, -, -⟩ := buildIr_inv h
  refine lowerBody_unfilled _ _ (asU16_lt _) ?_ h₁
  -- the root alone is not that far back
  intro i s hi hs
  have hlt := (List.getElem?_eq_some_iff.mp hs).1
  rw [length_allocState, List.length_nil] at hlt
  omega

theorem StateIr.Blank.resolved {map : List (Ident × Nat)} {s s₁ s' : StateIr} (hs : s.Blank)
    (h₁ : resolveHandlers map s = .ok s₁) (h₂ : resolveDefault map s₁ = .ok s') : s'.Blank := by
  have hb₁ : s₁.Blank := by
    unfold resolveHandlers at h₁
    rw [hs.handlers, List.mapM_nil] at h₁
    cases h₁
    exact ⟨hs.parent, hs.entries, hs.exits, rfl, hs.children, hs.durings⟩
  unfold resolveDefault at h₂
  split at h₂
  · cases h₂
    exact hb₁
  · split at h₂ <;> cases h₂
    exact ⟨hb₁.parent, hb₁.entries, hb₁.exits, hb₁.handlers, hb₁.children, hb₁.durings⟩

theorem checkEmptyState_ok_iff {s : StateIr} : checkEmptyState s = .ok () ↔ ¬ s.Blank := by
  have hblank : s.Blank ↔ (s.parent.isSome && s.entries.isEmpty && s.exits.isEmpty &&
      s.handlers.isEmpty && s.children.isEmpty && s.durings.isEmpty) = true := by
    simp only [Bool.and_eq_true, List.isEmpty_iff]
    exact ⟨fun h => ⟨⟨⟨⟨⟨h.parent, h.entries⟩, h.exits⟩, h.handlers⟩, h.children⟩, h.durings⟩,
      fun ⟨⟨⟨⟨⟨h₁, h₂⟩, h₃⟩, h₄⟩, h₅⟩, h₆⟩ => ⟨h₁, h₂, h₃, h₄, h₅, h₆⟩⟩
  rw [hblank]
  unfold checkEmptyState
  split <;> simp_all

/-! ## Resolving -/

/-- A declared name can be looked up, unless a state is called as the root is inside. -/
theorem lookup_isSome_iff {input : StatechartInput} {ir : Ir} (ht : TreeOk ir.states)
    (hpos : 0 < ir.states.length) (hname : ir.name = input.name)
    (hnames : ir.states.map (·.name) = "__Root" :: collectStateNames input.root) {x : Ident}
    (hx : x ∈ input.stateNames) :
    ((nameMap ir).lookup x).isSome ↔ (x = "__Root" → input.name = "__Root") := by
  by_cases hself : x = ir.name
  · rw [hself, lookup_name ht hpos, hname]
    exact iff_of_true rfl id
  · constructor
    · rintro hsome rfl
      obtain ⟨id, hid⟩ := Option.isSome_iff_exists.mp hsome
      exact absurd rfl (mem_of_lookup ht hpos hself hid).1
    · intro hroot
      have hne : x ≠ "__Root" := fun he => hself (by rw [he, hname, hroot he])
      have hmem : x ∈ ir.states.map (·.name) := by
        rw [hnames]
        refine List.mem_cons_of_mem _ ((List.mem_cons.mp hx).resolve_left ?_)
        rwa [← hname]
      obtain ⟨s, hs, rfl⟩ := List.mem_map.mp hmem
      exact isSome_lookup ht hpos hs hne

theorem resolveHandler_ok_iff {names : List Ident} {map : List (Ident × Nat)} {syms : Symbols}
    {h : Handler} {h' : HandlerIr} (hl : LaidHandler names syms h h') :
    (∃ y, resolveHandler map h' = .ok y) ↔ (h.target ∈ names → (map.lookup h.target).isSome) := by
  have hkind := hl.kind
  unfold resolveHandler
  revert hkind
  generalize h'.kind = kind
  intro hkind
  cases hkind with
  | transition hmem _ _ =>
      simp only [resolveKind, hmem, forall_const]
      cases map.lookup h.target with
      | none => simp [bind, Except.bind]
      | some id => simp [bind, Except.bind]
  | action hmem _ => exact iff_of_true ⟨_, rfl⟩ fun hin => absurd hin hmem

theorem resolveState_ok_iff {names : List Ident} {map : List (Ident × Nat)} {syms : Symbols}
    {p : Placed} {s : StateIr} (hl : LaidState names syms p s) :
    (∃ s₁ s', resolveHandlers map s = .ok s₁ ∧ resolveDefault map s₁ = .ok s') ↔
      (∀ h ∈ p.decl.body.handlers, h.target ∈ names → (map.lookup h.target).isSome) ∧
        ∀ x, p.decl.body.defaultChild = some x → (map.lookup x).isSome := by
  have hhandlers : (∃ hs, s.handlers.mapM (resolveHandler map) = .ok hs) ↔
      ∀ h ∈ p.decl.body.handlers, h.target ∈ names → (map.lookup h.target).isSome :=
    Except.mapM_ok_iff.trans
      (hl.body.handlers.forall_mem_iff fun _ _ h => (resolveHandler_ok_iff h).symm).symm
  have hdefault : ∀ hs, (∃ s', resolveDefault map { s with handlers := hs } = .ok s') ↔
      ∀ x, p.decl.body.defaultChild = some x → (map.lookup x).isSome := by
    intro hs
    unfold resolveDefault
    simp only
    rw [hl.body.default_]
    cases p.decl.body.defaultChild with
    | none => simp
    | some x =>
        simp only [Option.some.injEq, forall_eq']
        cases map.lookup x <;> simp
  rw [← hhandlers]
  unfold resolveHandlers
  constructor
  · rintro ⟨s₁, s', h₁, h₂⟩
    obtain ⟨hs, hhs, h₁⟩ := Except.bind_eq_ok.mp h₁
    cases h₁
    exact ⟨⟨hs, hhs⟩, (hdefault hs).mp ⟨s', h₂⟩⟩
  · rintro ⟨⟨hs, hhs⟩, hdef⟩
    obtain ⟨s', h₂⟩ := (hdefault hs).mpr hdef
    exact ⟨{ s with handlers := hs }, s', by rw [hhs]; rfl, h₂⟩

theorem resolveTransitions_ok_iff {input : StatechartInput} {ir : Ir}
    (hlaid : List.Forall₂ (LaidState input.stateNames ir.symbols) input.layout ir.states) :
    (∃ ir', resolveTransitions ir = .ok ir') ↔ ∀ p ∈ input.layout,
      (∀ h ∈ p.decl.body.handlers, h.target ∈ input.stateNames →
        ((nameMap ir).lookup h.target).isSome) ∧
      ∀ x, p.decl.body.defaultChild = some x → ((nameMap ir).lookup x).isSome := by
  rw [hlaid.forall_mem_iff fun _ _ h => (resolveState_ok_iff h).symm, ← Except.mapM_mapM_ok_iff]
  unfold resolveTransitions
  simp only [Except.bind_eq_ok]
  constructor
  · rintro ⟨ir', states₁, h₁, states₂, h₂, -⟩
    exact ⟨states₁, states₂, h₁, h₂⟩
  · rintro ⟨states₁, states₂, h₁, h₂⟩
    exact ⟨_, states₁, h₁, states₂, h₂, rfl⟩

/-! ## Validating -/

/-- One turn of a scan that remembers what it has seen. -/
theorem nodup_fresh_cons {α : Type} {x : α} {l seen : List α} (hx : x ∉ seen) :
    (l.Nodup ∧ ∀ y ∈ l, y ∉ x :: seen) ↔ (x :: l).Nodup ∧ ∀ y ∈ x :: l, y ∉ seen := by
  rw [List.nodup_cons, List.forall_mem_cons]
  constructor
  · rintro ⟨hnd, hnot⟩
    exact ⟨⟨fun hmem => hnot x hmem List.mem_cons_self, hnd⟩, hx,
      fun y hy hs => hnot y hy (List.mem_cons_of_mem _ hs)⟩
  · rintro ⟨⟨hfirst, hnd⟩, -, hnot⟩
    refine ⟨hnd, fun y hy hs => ?_⟩
    rcases List.mem_cons.mp hs with rfl | hs
    · exact hfirst hy
    · exact hnot y hy hs

/-- The check for duplicates sees every name but `__Root`. -/
theorem checkDuplicateNames_ok_iff : ∀ {states : List StateIr} {seen : List Ident},
    checkDuplicateNames seen states = .ok () ↔
      ((states.map (·.name)).filter (· != "__Root")).Nodup ∧
        ∀ x ∈ (states.map (·.name)).filter (· != "__Root"), x ∉ seen
  | [], seen => iff_of_true rfl (by simp)
  | s :: states, seen => by
      unfold checkDuplicateNames
      by_cases hroot : s.name = "__Root"
      · have hskip : ((s :: states).map (·.name)).filter (· != "__Root") =
            (states.map (·.name)).filter (· != "__Root") := by simp [hroot]
        rw [if_pos (by simpa using hroot), hskip]
        exact checkDuplicateNames_ok_iff
      · have hkeep : ((s :: states).map (·.name)).filter (· != "__Root") =
            s.name :: (states.map (·.name)).filter (· != "__Root") := by simp [hroot]
        rw [if_neg (by simpa using hroot), hkeep]
        by_cases hseen : s.name ∈ seen
        · rw [if_pos (by simpa using hseen)]
          exact iff_of_false (fun h => (nomatch h)) fun h => h.2 _ List.mem_cons_self hseen
        · rw [if_neg (by simpa using hseen), checkDuplicateNames_ok_iff, nodup_fresh_cons hseen]

theorem checkDuringFields_ok_iff {fnName : Ident} : ∀ {fields seen : List Ident},
    checkDuringFields fnName seen fields = .ok () ↔ fields.Nodup ∧ ∀ f ∈ fields, f ∉ seen
  | [], seen => iff_of_true rfl (by simp)
  | f :: fields, seen => by
      unfold checkDuringFields
      by_cases hseen : f ∈ seen
      · rw [if_pos (by simpa using hseen)]
        exact iff_of_false (fun h => (nomatch h)) fun h => h.2 _ List.mem_cons_self hseen
      · rw [if_neg (by simpa using hseen), checkDuringFields_ok_iff, nodup_fresh_cons hseen]

theorem checkFieldOwners_ok_iff {stateName : Ident} : ∀ {l owner : List (Ident × Ident)},
    checkFieldOwners stateName owner l = .ok () ↔
      (l.map (·.1)).Nodup ∧ ∀ f ∈ l.map (·.1), f ∉ owner.map (·.1)
  | [], owner => iff_of_true rfl (by simp)
  | (f, fnName) :: l, owner => by
      unfold checkFieldOwners
      cases hlook : owner.lookup f with
      | some prev =>
          have hseen : f ∈ owner.map (·.1) := by
            obtain ⟨l₁, l₂, howner, -⟩ := List.lookup_eq_some_iff.mp hlook
            rw [howner]
            simp
          exact iff_of_false (fun h => (nomatch h)) fun h => h.2 _ List.mem_cons_self hseen
      | none =>
          have hseen : f ∉ owner.map (·.1) := by
            intro hmem
            obtain ⟨⟨f, prev⟩, hp, rfl⟩ := List.mem_map.mp hmem
            simpa using List.lookup_eq_none_iff.mp hlook _ hp
          exact checkFieldOwners_ok_iff.trans (nodup_fresh_cons hseen)

/-- No field stands twice in the durings of a state. -/
theorem checkDurings_ok_iff {s : StateIr} :
    checkDurings s = .ok () ↔ (s.durings.flatMap (·.fields)).Nodup := by
  have hmap : (s.durings.flatMap fun d => d.fields.map fun f => (f, d.fnName)).map (·.1) =
      s.durings.flatMap (·.fields) := by simp [List.map_flatMap, Function.comp_def]
  unfold checkDurings
  simp only [Except.check_bind_eq_ok, Except.forM_eq_ok, checkDuringFields_ok_iff,
    checkFieldOwners_ok_iff, hmap, List.map_nil, List.not_mem_nil, not_false_eq_true, implies_true,
    and_true]
  exact and_iff_right_of_imp fun h => (List.nodup_flatMap.mp h).1

theorem checkState_ok_iff {ir : Ir} {s : StateIr} : checkState ir s = .ok () ↔
    ¬ s.Blank ∧ (s.durings.flatMap (·.fields)).Nodup ∧
      ∃ seen, s.handlers.foldlM (checkHandler ir s) {} = .ok seen := by
  unfold checkState
  simp only [Except.check_bind_eq_ok, checkEmptyState_ok_iff, checkDurings_ok_iff]
  simp only [Except.bind_eq_ok, and_true]

/-- What `validate` asks of resolved states. -/
theorem validate_ok_iff {ir : Ir}
    (hr : ∀ s t, defaultChildOf ir.states s = some t → t < ir.states.length) :
    validate ir = .ok () ↔ (∀ l, ¬ IsCycle (defaultChildOf ir.states) l) ∧
      ((ir.states.map (·.name)).filter (· != "__Root")).Nodup ∧
      ∀ s ∈ ir.states, ¬ s.Blank ∧ (s.durings.flatMap (·.fields)).Nodup ∧
        ∃ seen, s.handlers.foldlM (checkHandler ir s) {} = .ok seen := by
  have hgraph : validateDefaultGraph ir = .ok () ↔ ∀ l, ¬ IsCycle (defaultChildOf ir.states) l := by
    refine ⟨fun h => Ends.not_isCycle (ends_of_validateDefaultGraph h), fun hno => ?_⟩
    cases hv : validateDefaultGraph ir with
    | ok _ => rfl
    | error msg =>
        obtain ⟨l, hl, -⟩ := validateDefaultGraph_error hr hv
        exact absurd hl (hno l)
  unfold validate
  simp only [Except.check_bind_eq_ok, Except.forM_eq_ok, checkState_ok_iff,
    checkDuplicateNames_ok_iff, hgraph, List.not_mem_nil, not_false_eq_true, implies_true, and_true]

/-- A chart of more than 65536 states has a blank one. -/
theorem not_validate_of_many {input : StatechartInput} {ir₀ ir : Ir}
    (hb : buildIr input = .ok ir₀) (hr : resolveTransitions ir₀ = .ok ir)
    (hmany : 65536 < input.stateNames.length) : validate ir ≠ .ok () := by
  rw [← buildIr_length hb] at hmany
  unfold resolveTransitions at hr
  obtain ⟨states₁, h₁, hr⟩ := Except.bind_eq_ok.mp hr
  obtain ⟨states₂, h₂, hr⟩ := Except.bind_eq_ok.mp hr
  cases hr
  have hs := List.getElem?_eq_getElem hmany
  obtain ⟨s₁, hs₁, hres₁⟩ := (Except.mapM_forall₂ h₁).exists_of_getElem? hs
  obtain ⟨s₂, hs₂, hres₂⟩ := (Except.mapM_forall₂ h₂).exists_of_getElem? hs₁
  have hblank : s₂.Blank := (buildIr_unfilled hb _ _ le_rfl hs).resolved hres₁ hres₂
  intro hv
  unfold validate at hv
  simp only [Except.check_bind_eq_ok, Except.forM_eq_ok, checkState_ok_iff] at hv
  exact (hv.2.2 s₂ (List.mem_of_getElem? hs₂)).1 hblank

end Hsmc
