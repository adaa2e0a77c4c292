import Hsmc.Abstract.Picture
import Hsmc.Link.Walks

/-
  The recursion of `render_state` over ids draws the declarations.

  `lowerChildren_offspring` says which ids the children of a state get, `Planted` says where
  the declarations below a state stand in the layout, and `renderState_picture` follows the
  recursion down the tree.
-/

namespace Hsmc

/-! ## The ids of the children -/

theorem length_place (d : StateDecl) (parent : Option Nat) (id : Nat) :
    (d.place parent id).length = (collectStateNames d).length + 1 := by
  have h := congrArg List.length (map_name_place d parent id)
  rwa [List.length_map, List.length_cons] at h

/-- The ids of these declarations, when they are placed from `next` on. -/
def childIds (next : Nat) : List StateDecl → List Nat
  | [] => []
  | c :: cs => next :: childIds (next + ((collectStateNames c).length + 1)) cs

/-- The states from `next` on have the ids of their declarations' children. -/
def Offspring (next : Nat) (ps : List Placed) (states : List StateIr) : Prop :=
  List.Forall₂ (fun (p : Placed × Nat) s => s.children = childIds (p.2 + 1) p.1.decl.children)
    (ps.zipIdx next) states

theorem Offspring.append {next : Nat} {ps ps' : List Placed} {states states' : List StateIr}
    (h : Offspring next ps states) (h' : Offspring (next + ps.length) ps' states') :
    Offspring next (ps ++ ps') (states ++ states') := by
  unfold Offspring
  rw [List.zipIdx_append]
  exact List.rel_append h h'

mutual

theorem lowerBody_offspring (names : List Ident) : ∀ (d : StateDecl) (parent : Option Nat)
    {syms syms' : Symbols} {pre : List StateIr} {s₀ : StateIr} {states' : List StateIr},
    lowerBody names syms (pre ++ [s₀]) pre.length d = .ok (syms', states') →
    states'.length ≤ 65536 →
    ∃ new, states' = pre ++ new ∧ Offspring pre.length (d.place parent pre.length) new
  | .mk name body children, parent, syms, syms', pre, s₀, states', h, hlen => by
      obtain ⟨_, _, _, _, _, _, _, states₁, ids, -, -, -, hc, rfl⟩ := lowerBody_inv h
      rw [modify_concat] at hc
      rw [List.length_modify] at hlen
      obtain ⟨⟨new, rfl, hnew⟩, hids⟩ := lowerChildren_offspring names children hc hlen
      rw [List.length_append, List.length_singleton] at hnew hids
      refine ⟨_, by rw [List.append_assoc, List.singleton_append, modify_concat], ?_⟩
      unfold StateDecl.place Offspring
      rw [List.zipIdx_cons]
      exact .cons hids hnew

theorem lowerChildren_offspring (names : List Ident) : ∀ (cs : List StateDecl)
    {syms syms' : Symbols} {states states' : List StateIr} {parent depth : Nat} {ids : List Nat},
    lowerChildren names syms states parent depth cs = .ok (syms', states', ids) →
    states'.length ≤ 65536 →
    (∃ new, states' = states ++ new ∧
      Offspring states.length (placeAll parent states.length cs) new) ∧
      ids = childIds states.length cs
  | [], syms, syms', states, states', parent, depth, ids, h, hlen => by
      unfold lowerChildren at h
      cases h
      exact ⟨⟨[], by simp, .nil⟩, rfl⟩
  | c :: cs, syms, syms', states, states', parent, depth, ids, h, hlen => by
      obtain ⟨syms₁, states₁, ids₂, h₁, h₂, rfl⟩ := lowerChildren_inv h
      have hlen₁ := lowerBody_length names c h₁
      have hlen₂ := lowerChildren_length names cs h₂
      rw [length_allocState] at hlen₁
      have hid : asU16 states.length = states.length := asU16_of_lt (by omega)
      rw [hid] at h₁ ⊢
      obtain ⟨new₁, rfl, hnew₁⟩ := lowerBody_offspring names c (some parent) h₁ (by omega)
      obtain ⟨⟨new₂, rfl, hnew₂⟩, hids⟩ := lowerChildren_offspring names cs h₂ hlen
      have hnext : (states ++ new₁).length =
          states.length + ((collectStateNames c).length + 1) := by
        rw [hlen₁]
        omega
      rw [hnext] at hnew₂ hids
      refine ⟨⟨new₁ ++ new₂, List.append_assoc _ _ _, ?_⟩, by rw [childIds, hids]⟩
      rw [← length_place c (some parent) states.length] at hnew₂
      unfold placeAll
      exact hnew₁.append hnew₂

end

theorem Offspring.congr {next : Nat} {ps : List Placed} {states states' : List StateIr}
    (h : Offspring next ps states)
    (hs : List.Forall₂ (fun s s' : StateIr => s'.children = s.children) states states') :
    Offspring next ps states' :=
  (h.comp hs).imp fun _ _ ⟨_, h, he⟩ => he.trans h

theorem resolveTransitions_children {ir ir' : Ir} (h : resolveTransitions ir = .ok ir') :
    List.Forall₂ (fun s s' : StateIr => s'.children = s.children) ir.states ir'.states := by
  unfold resolveTransitions at h
  obtain ⟨states₁, h₁, h⟩ := Except.bind_eq_ok.mp h
  obtain ⟨states₂, h₂, h⟩ := Except.bind_eq_ok.mp h
  cases h
  refine ((Except.mapM_forall₂ h₁).comp (Except.mapM_forall₂ h₂)).imp ?_
  rintro s s' ⟨t, ht, hs⟩
  unfold resolveHandlers at ht
  obtain ⟨handlers, -, ht⟩ := Except.bind_eq_ok.mp ht
  cases ht
  unfold resolveDefault at hs
  split at hs
  · cases hs
    rfl
  · split at hs <;> cases hs
    rfl

theorem Accepted.offspring {input : StatechartInput} {c : Chart} {ir : Ir}
    (ha : Accepted input c ir) : Offspring 0 input.layout ir.states := by
  obtain ⟨ir₀, h₀, h₁⟩ := Except.bind_eq_ok.mp ha.resolved
  obtain ⟨syms, hbody, -, -⟩ := buildIr_inv h₀
  have hkids := resolveTransitions_children h₁
  have hle := ha.nStates_le
  rw [← hkids.length_eq] at hle
  obtain ⟨new, hnew, hoff⟩ :=
    @lowerBody_offspring _ input.root none _ _ [] _ _ hbody (by omega)
  rw [List.nil_append] at hnew
  rw [hnew] at hkids
  exact hoff.congr hkids

/-! ## Lines -/

theorem elementAt_eq_ok {α : Type} {l : List α} {i : Nat} {a : α} (h : l[i]? = some a) :
    elementAt l i = .ok a := by
  unfold elementAt
  rw [h]

theorem firstPart_durationKey (key : String) (repeats : Bool) :
    firstPart (durationKey key repeats) = firstPart key := by
  unfold firstPart durationKey
  rw [String.toList_append, String.toList_append, List.append_assoc]
  refine congrArg String.ofList ?_
  induction key.toList with
  | nil => rfl
  | cons ch l ih =>
      rw [List.cons_append, List.takeWhile_cons, List.takeWhile_cons]
      split
      · rw [ih]
      · rfl

theorem indented_append (pre : String) (l l' : List String) :
    indented pre (l ++ l') = indented pre l ++ indented pre l' := by
  unfold indented
  rw [List.map_append, String.join_append]

section

variable {ir : Ir} {names : List Ident} {map : List (Ident × Nat)}

theorem renderActions_eq (hn : ir.symbols.actions.length ≤ 65536) {is : List Ident}
    {aids : List Nat} (h : List.Forall₂ (fun i aid => ir.symbols.ActionAt i none aid) is aids)
    (pre label : String) :
    renderActions ir pre label aids = .ok (indented pre (is.map (label ++ ·))) := by
  have hlines : List.Forall₂ (fun aid line => (do
      let action ← elementAt ir.symbols.actions aid
      .ok (pre ++ label ++ action.name ++ "\n") : Except String String) = .ok line)
      aids (is.map fun i => pre ++ (label ++ i) ++ "\n") := by
    rw [List.forall₂_map_right_iff]
    refine h.flip.imp ?_
    rintro aid i ⟨p, a, ha, hname, rfl, -⟩
    have hp : p < ir.symbols.actions.length := (List.getElem?_eq_some_iff.mp ha).1
    rw [asU16_of_lt (by omega), elementAt_eq_ok ha, Except.ok_bind_eq, hname]
    simp only [String.append_assoc]
  unfold renderActions
  rw [Except.mapM_eq_ok hlines, Except.ok_bind_eq]
  unfold indented
  rw [List.map_map]
  rfl

theorem renderTrigger_eq (hn : ir.symbols.durationTriggers.length ≤ 65536) {t : Trigger}
    {t' : TriggerIr} (h : ir.symbols.TriggerAt t t') : renderTrigger ir t' = .ok t.picture := by
  rcases h.inv with ⟨variant, payload, id, rfl, rfl, -⟩ | ⟨expr, key, repeats, id, rfl, rfl, hat⟩
  · rfl
  · obtain ⟨p, d, hd, hkey, hrep, rfl⟩ := hat
    have hp : p < ir.symbols.durationTriggers.length := (List.getElem?_eq_some_iff.mp hd).1
    rw [asU16_of_lt (by omega), renderTrigger, elementAt_eq_ok hd, Except.ok_bind_eq, hkey, hrep,
      firstPart_durationKey]
    rfl

theorem renderHandlers_eq (hn : ir.symbols.durationTriggers.length ≤ 65536) {hs : List Handler}
    {hs' : List HandlerIr} (h : List.Forall₂ (ResolvedHandler names map ir.symbols) hs hs')
    (pre : String) : hs'.mapM (renderHandler ir pre) =
      .ok (hs.map fun h => pre ++ h.picture names ++ "\n") := by
  refine Except.mapM_eq_ok ?_
  rw [List.forall₂_map_right_iff]
  refine h.flip.imp ?_
  intro h' h hh
  have htarget : renderTarget h'.kind = (if h.target ∈ names then "→ " else "⇒ ") ++ h.target := by
    have hk := hh.kind
    revert hk
    generalize h'.kind = k
    intro hk
    cases hk with
    | transition hmem => rw [if_pos hmem]; rfl
    | action hmem => rw [if_neg hmem]; rfl
  unfold renderHandler Handler.picture
  rw [renderTrigger_eq hn hh.trigger, Except.ok_bind_eq, htarget]
  simp only [String.append_assoc]

theorem renderDurings_eq (pre : String) (ds : List During) :
    String.join (ds.map (renderDuring pre)) = indented pre (ds.map During.picture) := by
  unfold indented
  rw [List.map_map]
  refine congrArg String.join (List.map_congr_left fun d _ => ?_)
  unfold renderDuring
  simp only [Function.comp_apply, During.picture, String.append_assoc]
  rfl

end

/-! ## States -/

/-- The declaration stands at `id` in the layout, below some state. -/
def Planted (layout : List Placed) (id : Nat) (d : StateDecl) : Prop :=
  ∃ parent pre post, layout = pre ++ (d.place (some parent) id ++ post) ∧ pre.length = id

/-- The declarations stand from `next` on. -/
def PlantedAll (layout : List Placed) (next : Nat) (cs : List StateDecl) : Prop :=
  ∃ parent pre post, layout = pre ++ (placeAll parent next cs ++ post) ∧ pre.length = next

section

variable {layout : List Placed} {id next : Nat}

theorem Planted.get {d : StateDecl} (h : Planted layout id d) :
    ∃ parent, layout[id]? = some ⟨some parent, d⟩ := by
  obtain ⟨parent, pre, post, rfl, rfl⟩ := h
  obtain ⟨name, body, children⟩ := d
  refine ⟨parent, ?_⟩
  rw [List.getElem?_append_right (Nat.le_refl _), Nat.sub_self]
  rfl

theorem Planted.children {name : Ident} {body : StateBody} {children : List StateDecl}
    (h : Planted layout id (.mk name body children)) : PlantedAll layout (id + 1) children := by
  obtain ⟨parent, pre, post, rfl, rfl⟩ := h
  refine ⟨pre.length, pre ++ [⟨some parent, .mk name body children⟩], post, ?_, by simp⟩
  rw [StateDecl.place, List.append_assoc]
  rfl

theorem PlantedAll.head {d : StateDecl} {cs : List StateDecl}
    (h : PlantedAll layout next (d :: cs)) : Planted layout next d := by
  obtain ⟨parent, pre, post, rfl, rfl⟩ := h
  refine ⟨parent, pre,
    placeAll parent (pre.length + (d.place (some parent) pre.length).length) cs ++ post, ?_, rfl⟩
  rw [placeAll, List.append_assoc]

theorem PlantedAll.tail {d : StateDecl} {cs : List StateDecl}
    (h : PlantedAll layout next (d :: cs)) :
    PlantedAll layout (next + ((collectStateNames d).length + 1)) cs := by
  obtain ⟨parent, pre, post, rfl, rfl⟩ := h
  refine ⟨parent, pre ++ d.place (some parent) pre.length, post, ?_, ?_⟩
  · rw [placeAll, length_place]
    simp only [List.append_assoc]
  · rw [List.length_append, length_place]

end

section

variable {input : StatechartInput} {c : Chart} {ir : Ir}

/-- What is lowered from a planted declaration. -/
theorem Accepted.planted (ha : Accepted input c ir) {id : Nat} {d : StateDecl}
    (h : Planted input.layout id d) : ∃ s, ir.states[id]? = some s ∧ s.name = d.name ∧
      s.children = childIds (id + 1) d.children ∧ id < c.nStates ∧ input.declAt id = d ∧
      ∃ parent, ResolvedState input.stateNames (nameMap ir) ir.symbols ⟨parent, d⟩ s := by
  obtain ⟨parent, hp⟩ := h.get
  have hlt : id < c.nStates := by
    rw [(generate_spec ha.generated).nStates, ← ha.laid.states.length_eq]
    exact (List.getElem?_eq_some_iff.mp hp).1
  obtain ⟨p, s, hp', hs, hdecl, hr⟩ := ha.placed hlt
  rw [hp] at hp'
  cases hp'
  obtain ⟨s', hs', hkids⟩ := ha.offspring.exists_of_getElem? (i := id) (a := (⟨some parent, d⟩, id))
    (by rw [List.getElem?_zipIdx, hp]; simp)
  rw [hs] at hs'
  cases hs'
  exact ⟨s, hs, hr.name, hkids, hlt, hdecl, some parent, hr⟩

/-- The default child of a state is the one with the declared name. -/
theorem Accepted.default_iff (ha : Accepted input c ir) (hnd : input.stateNames.Nodup) {p : Placed}
    {s : StateIr} (hr : ResolvedState input.stateNames (nameMap ir) ir.symbols p s) {id : Nat}
    (hid : id < c.nStates) :
    (some id == s.defaultChild) = (p.decl.body.defaultChild == some (input.declAt id).name) := by
  have hd := hr.default_
  rw [Bool.eq_iff_iff, beq_iff_eq, beq_iff_eq]
  cases hx : p.decl.body.defaultChild with
  | none =>
      rw [hx] at hd
      simp [hd]
  | some x =>
      rw [hx] at hd
      obtain ⟨t, hlook, hst⟩ := hd
      obtain ⟨ht, hname⟩ := ha.name_of_lookup hlook
      rw [hst, Option.some.injEq, Option.some.injEq, ← hname]
      constructor
      · rintro rfl
        rfl
      · exact fun h => (ha.declAt_inj hnd ht hid h).symm

mutual

theorem renderState_picture (ha : Accepted input c ir) (hnd : input.stateNames.Nodup)
    (hact : ir.symbols.actions.length ≤ 65536)
    (hdur : ir.symbols.durationTriggers.length ≤ 65536) : ∀ (d : StateDecl) {fuel id : Nat}
    (pre : String) (isLast isDefault : Bool), Planted input.layout id d →
    (collectStateNames d).length < fuel →
    renderState ir fuel id pre isLast isDefault =
      .ok (d.picture input.stateNames pre isLast isDefault)
  | .mk name body children, 0, id, pre, isLast, isDefault, _, hf => absurd hf (Nat.not_lt_zero _)
  | .mk name body children, fuel + 1, id, pre, isLast, isDefault, h, hf => by
      obtain ⟨s, hs, hname, hkids, -, -, parent, hr⟩ := ha.planted h
      obtain ⟨parts, hparts, hjoin⟩ := renderAll_picture ha hnd hact hdur children
        (pre ++ if isLast then "    " else "│   ") s body.defaultChild 0 h.children
        (Nat.le_of_lt_succ hf) (by rw [hr.children, Nat.zero_add]; rfl)
        (fun hi => ha.default_iff hnd hr hi)
      unfold renderState renderChildren
      rw [elementAt_eq_ok hs, Except.ok_bind_eq]
      simp only [renderActions_eq hact hr.entries, renderActions_eq hact hr.exits,
        renderHandlers_eq hdur hr.handlers, Except.ok_bind_eq, hr.durings, renderDurings_eq]
      have hlines : String.join (body.handlers.map fun h =>
            (pre ++ if isLast then "    " else "│   ") ++ h.picture input.stateNames ++ "\n") =
          indented (pre ++ if isLast then "    " else "│   ")
            (body.handlers.map (Handler.picture input.stateNames)) := by
        rw [indented, List.map_map]
        rfl
      simp only [hkids, hname, StateDecl.children, StateDecl.body, StateDecl.name, hparts,
        Except.ok_bind_eq, hjoin, hlines]
      simp only [StateDecl.picture, StateBody.picture, indented_append, String.append_assoc]

theorem renderAll_picture (ha : Accepted input c ir) (hnd : input.stateNames.Nodup)
    (hact : ir.symbols.actions.length ≤ 65536)
    (hdur : ir.symbols.durationTriggers.length ≤ 65536) : ∀ (cs : List StateDecl) {fuel next : Nat}
    (pre : String) (s : StateIr) (default : Option Ident) (k : Nat),
    PlantedAll input.layout next cs →
    (collectChildNames cs).length ≤ fuel → s.children.length = k + cs.length →
    (∀ {i}, i < c.nStates →
      (some i == s.defaultChild) = (default == some (input.declAt i).name)) →
    ∃ parts, ((childIds next cs).zipIdx k).mapM
        (renderChild (fun cid => renderState ir fuel cid pre) s) = .ok parts ∧
      String.join parts = pictureAll input.stateNames pre default cs
  | [], fuel, next, pre, s, default, k, _, _, _, _ => ⟨[], by rw [childIds]; rfl, by
      rw [String.join_nil, pictureAll]⟩
  | d :: cs, fuel, next, pre, s, default, k, h, hf, hlen, hdef => by
      obtain ⟨-, -, -, -, hlt, hdecl, -⟩ := ha.planted h.head
      rw [collectChildNames, List.cons_append, List.length_cons, List.length_append] at hf
      rw [List.length_cons] at hlen
      have hd := renderState_picture ha hnd hact hdur d pre cs.isEmpty (default == some d.name)
        h.head (show _ < fuel by omega)
      obtain ⟨parts, hparts, hjoin⟩ := renderAll_picture ha hnd hact hdur cs pre s default (k + 1)
        h.tail (show _ ≤ fuel by omega) (by omega) hdef
      have hlast : (k + 1 == s.children.length) = cs.isEmpty := by
        rw [hlen]
        cases cs <;> simp
      refine ⟨d.picture input.stateNames pre cs.isEmpty (default == some d.name) :: parts, ?_, ?_⟩
      · rw [childIds, List.zipIdx_cons, List.mapM_cons, hparts]
        unfold renderChild
        dsimp only
        rw [hlast, hdef hlt, hdecl, hd]
        rfl
      · rw [String.join_cons, hjoin, pictureAll]

end

end

end Hsmc
