import Hsmc.Link.Uses

/-
  Where lowering puts the declared states.

  `StatechartInput.layout` lists the declarations in the order of their state ids, each with
  the id of its parent. `buildIr_lays` says that the lowered states are this list, item by
  item: `LaidState` names everything a lowered state takes from its declaration.
-/

namespace Hsmc

/-- A declaration and the state it is declared in. -/
structure Placed where
  parent : Option Nat
  decl : StateDecl

mutual

/-- A declaration and those within it, numbered from `id` on. -/
def StateDecl.place (parent : Option Nat) (id : Nat) : StateDecl → List Placed
  | .mk name body children =>
      { parent, decl := .mk name body children } :: placeAll id (id + 1) children

def placeAll (parent next : Nat) : List StateDecl → List Placed
  | [] => []
  | c :: cs =>
      c.place (some parent) next ++ placeAll parent (next + (c.place (some parent) next).length) cs

end

/-- The declared states in the order of their ids; the root, named after the chart, is first. -/
def StatechartInput.layout (input : StatechartInput) : List Placed := input.root.place none 0

/-! ## The lowered state of a declaration -/

structure LaidHandler (names : List Ident) (syms : Symbols) (h : Handler) (h' : HandlerIr) :
    Prop where
  trigger : syms.TriggerAt h.trigger h'.trigger
  kind : syms.KindAt names h h'.trigger h'.kind
  declIndex : h'.declIndex = h.declIndex

/-- What a state takes from the items of its body. -/
structure LaidBody (names : List Ident) (syms : Symbols) (d : StateDecl) (s : StateIr) : Prop where
  entries : List.Forall₂ (fun i aid => syms.ActionAt i none aid) d.body.entries s.entries
  exits : List.Forall₂ (fun i aid => syms.ActionAt i none aid) d.body.exits s.exits
  handlers : List.Forall₂ (LaidHandler names syms) d.body.handlers s.handlers
  durings : s.durings = d.body.durings
  default_ : s.defaultTargetIdent = d.body.defaultChild
  children : s.children.length = d.children.length
  unresolved : s.defaultChild = none

structure LaidState (names : List Ident) (syms : Symbols) (p : Placed) (s : StateIr) : Prop where
  name : s.name = if p.parent.isNone then "__Root" else p.decl.name
  parent : s.parent = p.parent
  body : LaidBody names syms p.decl s

section

variable {names : List Ident} {syms syms' : Symbols}

theorem LaidHandler.mono (hg : syms.Grows syms') {h : Handler} {h' : HandlerIr}
    (hl : LaidHandler names syms h h') : LaidHandler names syms' h h' :=
  ⟨hl.trigger.mono hg, hl.kind.mono hg hl.trigger, hl.declIndex⟩

theorem LaidBody.mono (hg : syms.Grows syms') {d : StateDecl} {s : StateIr}
    (hl : LaidBody names syms d s) : LaidBody names syms' d s :=
  { hl with
    entries := hl.entries.imp fun _ _ h => h.mono hg
    exits := hl.exits.imp fun _ _ h => h.mono hg
    handlers := hl.handlers.imp fun _ _ h => h.mono hg }

theorem LaidState.mono (hg : syms.Grows syms') {p : Placed} {s : StateIr}
    (hl : LaidState names syms p s) : LaidState names syms' p s :=
  { hl with body := hl.body.mono hg }

/-! ## Lowering a body -/

theorem internActions_laid : ∀ {is : List Ident} {syms syms' : Symbols} {aids : List Nat},
    syms.Ok → internActions syms is = .ok (syms', aids) →
    syms.Grows syms' ∧ syms'.Ok ∧ List.Forall₂ (fun i aid => syms'.ActionAt i none aid) is aids
  | [], syms, _, _, hok, h => by
      cases h
      exact ⟨.refl syms, hok, .nil⟩
  | i :: is, syms, syms', aids, hok, h => by
      unfold internActions at h
      obtain ⟨⟨actions, aid⟩, h₁, h⟩ := Except.bind_eq_ok.mp h
      obtain ⟨⟨syms₂, aids₂⟩, h₂, h⟩ := Except.bind_eq_ok.mp h
      cases h
      have ha := internActionUnit_answers hok h₁
      obtain ⟨hg, hok', hrest⟩ := internActions_laid ha.ok h₂
      exact ⟨ha.grows.trans hg, hok', .cons (ha.answer.mono hg) hrest⟩

theorem lowerHandlers_laid : ∀ {hs : List Handler} {syms syms' : Symbols}
    {owned owned' : List Nat} {hs' : List HandlerIr}, syms.Ok →
    lowerHandlers names syms owned hs = .ok (syms', owned', hs') →
    syms.Grows syms' ∧ syms'.Ok ∧ List.Forall₂ (LaidHandler names syms') hs hs'
  | [], syms, _, _, _, _, hok, h => by
      cases h
      exact ⟨.refl syms, hok, .nil⟩
  | x :: hs, syms, syms', owned, owned', hs', hok, h => by
      obtain ⟨syms₁, owned₁, trigger, syms₂, kind, rest, h₁, h₂, h₃, rfl⟩ := lowerHandlers_inv h
      obtain ⟨g₁, ok₁, hat⟩ := lowerTrigger_answers hok h₁
      obtain ⟨g₂, ok₂, hkind⟩ := classifyTarget_kind ok₁ hat h₂
      obtain ⟨g₃, ok₃, hrest⟩ := lowerHandlers_laid ok₂ h₃
      have hlaid : LaidHandler names syms₂ x { trigger, kind, declIndex := x.declIndex } :=
        ⟨hat.mono g₂, hkind, rfl⟩
      exact ⟨(g₁.trans g₂).trans g₃, ok₃, .cons (hlaid.mono g₃) hrest⟩

theorem modify_concat {α : Type} (pre : List α) (a : α) (suf : List α) (f : α → α) :
    (pre ++ a :: suf).modify pre.length f = pre ++ f a :: suf := by
  rw [List.modify_eq_take_cons_drop (by simp)]
  simp

end

/-! ## Lowering the tree -/

mutual

/-- Lowering allocates one state for each name declared within. -/
theorem lowerBody_length (names : List Ident) : ∀ (d : StateDecl) {syms syms' : Symbols}
    {states states' : List StateIr} {sid : Nat},
    lowerBody names syms states sid d = .ok (syms', states') →
    states'.length = states.length + (collectStateNames d).length
  | .mk _ body children, syms, syms', states, states', sid, h => by
      obtain ⟨_, _, _, _, _, _, _, _, _, -, -, -, h₄, rfl⟩ := lowerBody_inv h
      have hlen := lowerChildren_length names children h₄
      rw [List.length_modify] at hlen ⊢
      exact hlen

theorem lowerChildren_length (names : List Ident) : ∀ (cs : List StateDecl)
    {syms syms' : Symbols} {states states' : List StateIr} {parent depth : Nat} {ids : List Nat},
    lowerChildren names syms states parent depth cs = .ok (syms', states', ids) →
    states'.length = states.length + (collectChildNames cs).length
  | [], syms, syms', states, states', parent, depth, ids, h => by
      unfold lowerChildren at h
      cases h
      rfl
  | c :: cs, syms, syms', states, states', parent, depth, ids, h => by
      obtain ⟨syms₁, states₁, ids₂, h₁, h₂, rfl⟩ := lowerChildren_inv h
      have hlen₁ := lowerBody_length names c h₁
      have hlen₂ := lowerChildren_length names cs h₂
      rw [length_allocState] at hlen₁
      unfold collectChildNames
      rw [List.cons_append, List.length_cons, List.length_append]
      omega

end

mutual

/-- Lowering the last allocated state fills it in and puts the states within it behind it. -/
theorem lowerBody_lays (names : List Ident) : ∀ (d : StateDecl) {syms syms' : Symbols}
    {pre : List StateIr} {s₀ : StateIr} {states' : List StateIr}, syms.Ok →
    s₀.defaultChild = none →
    lowerBody names syms (pre ++ [s₀]) pre.length d = .ok (syms', states') →
    states'.length ≤ 65536 →
    ∃ s new, states' = pre ++ s :: new ∧ s.skeleton = s₀.skeleton ∧ LaidBody names syms' d s ∧
      List.Forall₂ (LaidState names syms') (placeAll pre.length (pre.length + 1) d.children) new
  | .mk name body children, syms, syms', pre, s₀, states', hok, hdef, h, hlen => by
      obtain ⟨syms₁, entries, syms₂, exits, syms₃, owned, handlers, states₄, ids, h₁, h₂, h₃, h₄,
        rfl⟩ := lowerBody_inv h
      obtain ⟨g₁, ok₁, hentries⟩ := internActions_laid hok h₁
      obtain ⟨g₂, ok₂, hexits⟩ := internActions_laid ok₁ h₂
      obtain ⟨g₃, ok₃, hhandlers⟩ := lowerHandlers_laid ok₂ h₃
      obtain ⟨g₄, -⟩ := lowerChildren_grows ok₃ h₄
      rw [modify_concat] at h₄
      rw [List.length_modify] at hlen
      obtain ⟨⟨new, rfl, hnew⟩, hids⟩ := lowerChildren_lays names children ok₃ h₄ hlen
      rw [List.append_assoc, List.singleton_append, modify_concat]
      rw [List.length_append, List.length_singleton] at hnew
      refine ⟨_, new, rfl, rfl, ?_, hnew⟩
      exact {
        entries := hentries.imp fun _ _ ha => ((ha.mono g₂).mono g₃).mono g₄
        exits := hexits.imp fun _ _ ha => (ha.mono g₃).mono g₄
        handlers := hhandlers.imp fun _ _ hl => hl.mono g₄
        durings := rfl
        default_ := rfl
        children := hids
        unresolved := hdef }

theorem lowerChildren_lays (names : List Ident) : ∀ (cs : List StateDecl) {syms syms' : Symbols}
    {states states' : List StateIr} {parent depth : Nat} {ids : List Nat}, syms.Ok →
    lowerChildren names syms states parent depth cs = .ok (syms', states', ids) →
    states'.length ≤ 65536 →
    (∃ new, states' = states ++ new ∧
      List.Forall₂ (LaidState names syms') (placeAll parent states.length cs) new) ∧
      ids.length = cs.length
  | [], syms, syms', states, states', parent, depth, ids, hok, h, hlen => by
      unfold lowerChildren at h
      cases h
      exact ⟨⟨[], by simp, by unfold placeAll; exact .nil⟩, rfl⟩
  | c :: cs, syms, syms', states, states', parent, depth, ids, hok, h, hlen => by
      obtain ⟨syms₁, states₁, ids₂, h₁, h₂, rfl⟩ := lowerChildren_inv h
      obtain ⟨g₁, ok₁⟩ := lowerBody_grows hok h₁
      obtain ⟨g₂, -⟩ := lowerChildren_grows ok₁ h₂
      have hlen₁ := lowerBody_length names c h₁
      have hlen₂ := lowerChildren_length names cs h₂
      rw [length_allocState] at hlen₁
      have hid : asU16 states.length = states.length := asU16_of_lt (by omega)
      rw [hid] at h₁
      obtain ⟨s, new₁, rfl, hskel, hbody, hnew₁⟩ :=
        lowerBody_lays names c hok rfl h₁ (by omega)
      obtain ⟨⟨new₂, rfl, hnew₂⟩, hids⟩ := lowerChildren_lays names cs ok₁ h₂ hlen
      simp only [StateIr.skeleton, Prod.mk.injEq] at hskel
      have hs : LaidState names syms₁ ⟨some parent, c⟩ s :=
        ⟨by rw [hskel.2.1]; rfl, hskel.2.2.1, hbody⟩
      -- the subtree of `c`, then what its siblings add
      obtain ⟨name, body, children⟩ := c
      have hplace : List.Forall₂ (LaidState names syms₁)
          ((StateDecl.mk name body children).place (some parent) states.length) (s :: new₁) := by
        unfold StateDecl.place
        exact .cons hs hnew₁
      refine ⟨⟨s :: new₁ ++ new₂, by simp, ?_⟩, by rw [List.length_cons, hids, List.length_cons]⟩
      unfold placeAll
      refine List.rel_append (hplace.imp fun _ _ hl => hl.mono g₂) ?_
      rw [hplace.length_eq]
      simpa using hnew₂

end

/-! ## The whole chart -/

/-- The names that `on(..) => name` reads as states. -/
def StatechartInput.stateNames (input : StatechartInput) : List Ident :=
  input.name :: collectStateNames input.root

theorem internTerminate_grows {syms syms' : Symbols} (hok : syms.Ok) {t : Option Ident}
    (h : internTerminate syms t = .ok syms') : syms.Grows syms' ∧ syms'.Ok := by
  cases t with
  | none =>
      cases h
      exact ⟨.refl syms, hok⟩
  | some t =>
      unfold internTerminate at h
      obtain ⟨⟨events, id⟩, he, h⟩ := Except.bind_eq_ok.mp h
      cases h
      obtain ⟨hg, hok', -⟩ := internEvent_answers hok he
      exact ⟨hg, hok'⟩

/-- The lowered states are the declared states, item by item. -/
theorem buildIr_lays {input : StatechartInput} {ir : Ir} (h : buildIr input = .ok ir)
    (hlen : ir.states.length ≤ 65536) : ir.name = input.name ∧ ir.symbols.Ok ∧
      List.Forall₂ (LaidState input.stateNames ir.symbols) input.layout ir.states := by
  obtain ⟨syms, h₁, h₂, hname⟩ := buildIr_inv h
  obtain ⟨-, hok⟩ := lowerBody_grows Symbols.ok_empty h₁
  obtain ⟨g₂, hok₂⟩ := internTerminate_grows hok h₂
  obtain ⟨s, new, hstates, hskel, hbody, hnew⟩ :=
    @lowerBody_lays input.stateNames input.root {} syms [] _ ir.states Symbols.ok_empty rfl h₁ hlen
  simp only [StateIr.skeleton, Prod.mk.injEq] at hskel
  refine ⟨hname, hok₂, ?_⟩
  rw [hstates]
  unfold StatechartInput.layout StatechartInput.root StateDecl.place
  refine .cons ⟨?_, hskel.2.2.1, hbody.mono g₂⟩ (hnew.imp fun _ _ hl => hl.mono g₂)
  rw [hskel.2.1]
  rfl

/-! ## Names and parents in the layout -/

mutual

theorem map_name_place : ∀ (d : StateDecl) (parent : Option Nat) (id : Nat),
    (d.place parent id).map (·.decl.name) = d.name :: collectStateNames d
  | .mk name body children, parent, id => by
      unfold StateDecl.place collectStateNames
      rw [List.map_cons, map_name_placeAll children id (id + 1)]

theorem map_name_placeAll : ∀ (cs : List StateDecl) (parent next : Nat),
    (placeAll parent next cs).map (·.decl.name) = collectChildNames cs
  | [], _, _ => by
      unfold placeAll collectChildNames
      rfl
  | c :: cs, parent, next => by
      unfold placeAll collectChildNames
      rw [List.map_append, map_name_place c, map_name_placeAll cs]

end

mutual

theorem parent_isSome_place : ∀ (d : StateDecl) (parent id : Nat),
    ∀ p ∈ d.place (some parent) id, p.parent.isSome = true
  | .mk name body children, parent, id => by
      unfold StateDecl.place
      exact List.forall_mem_cons.mpr ⟨rfl, parent_isSome_placeAll children id (id + 1)⟩

theorem parent_isSome_placeAll : ∀ (cs : List StateDecl) (parent next : Nat),
    ∀ p ∈ placeAll parent next cs, p.parent.isSome = true
  | [], _, _ => by
      unfold placeAll
      exact List.forall_mem_nil _
  | c :: cs, parent, next => by
      unfold placeAll
      exact List.forall_mem_append.mpr
        ⟨parent_isSome_place c parent next, parent_isSome_placeAll cs _ _⟩

end

theorem StatechartInput.layout_eq (input : StatechartInput) :
    input.layout = ⟨none, input.root⟩ :: placeAll 0 1 input.children := by
  unfold layout StatechartInput.root StateDecl.place
  rfl

/-- The names of laid-out states: the root is renamed. -/
theorem map_name_of_layout {R : Placed → StateIr → Prop} {input : StatechartInput}
    {states : List StateIr}
    (hR : ∀ p s, R p s → s.name = if p.parent.isNone then "__Root" else p.decl.name)
    (h : List.Forall₂ R input.layout states) :
    states.map (·.name) = "__Root" :: collectStateNames input.root := by
  rw [input.layout_eq] at h
  cases h with
  | @cons _ s _ rest hroot hrest =>
      have hnames : rest.map (·.name) = (placeAll 0 1 input.children).map (·.decl.name) := by
        have hpar := parent_isSome_placeAll input.children 0 1
        generalize placeAll 0 1 input.children = l at hrest hpar ⊢
        induction hrest with
        | nil => rfl
        | cons hab _ ih =>
            obtain ⟨hp, hpar⟩ := List.forall_mem_cons.mp hpar
            rw [List.map_cons, List.map_cons, ih hpar, hR _ _ hab,
              if_neg (by simpa [Option.isSome_iff_ne_none] using hp)]
      rw [List.map_cons, hR _ _ hroot, hnames, map_name_placeAll]
      unfold StatechartInput.root collectStateNames
      rfl

mutual

/-- The uses of a chart, state by state. -/
theorem uses_place : ∀ (d : StateDecl) (parent : Option Nat) (id : Nat),
    d.uses = (d.place parent id).flatMap (·.decl.body.uses)
  | .mk name body children, parent, id => by
      unfold StateDecl.place StateDecl.uses
      rw [List.flatMap_cons, uses_placeAll children id (id + 1)]
      rfl

theorem uses_placeAll : ∀ (cs : List StateDecl) (parent next : Nat),
    usesAll cs = (placeAll parent next cs).flatMap (·.decl.body.uses)
  | [], _, _ => by
      unfold placeAll usesAll
      rfl
  | c :: cs, parent, next => by
      unfold placeAll usesAll
      rw [List.flatMap_append, ← uses_place c, ← uses_placeAll cs]

end

theorem mem_handler_uses {input : StatechartInput} {h : Handler} :
    Use.handler h ∈ input.root.uses ↔ ∃ p ∈ input.layout, h ∈ p.decl.body.handlers := by
  rw [uses_place input.root none 0, List.mem_flatMap]
  refine exists_congr fun p => and_congr_right fun _ => ?_
  simp [StateBody.uses]

end Hsmc
