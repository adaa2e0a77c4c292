import Hsmc.Lib.Slices
import Hsmc.Link.Tree

/-
  The handler tables.

  Code generation groups the handlers of a state twice: by event for the dispatch table
  (`stateHandlers`) and by trigger for the match arms (`stateHandlerArms`). Both are one fold,
  and what they hold under a key is the group of the handlers with that key, in order
  (`lookup_groups`), so they agree (`lookup_stateHandlers`).

  `bubble_eq` and `computeEventDispatch_spec` then say that an entry of the dispatch table is
  the group of the first state on the walk to the root that has one.
-/

namespace Hsmc

/-! ## Grouping handlers -/

theorem lookup_upsert {κ : Type} [DecidableEq κ] [BEq κ] [LawfulBEq κ] (key : κ)
    (f : Group → Group) (k : κ) :
    ∀ m : List (κ × Group), (upsert key f m).lookup k =
      if k = key then some (f ((m.lookup k).getD ([], none))) else m.lookup k
  | [] => by
      by_cases hk : k = key
      · simp [upsert, hk]
      · have hb : (k == key) = false := by simpa using hk
        simp [upsert, hk, List.lookup_cons, hb]
  | (k', g) :: rest => by
      unfold upsert
      by_cases hk' : k' = key
      · subst hk'
        by_cases hk : k = k'
        · simp [hk]
        · have hb : (k == k') = false := by simpa using hk
          simp [hk, List.lookup_cons, hb]
      · by_cases hk : k = k'
        · subst hk
          simp [hk']
        · have hb : (k == k') = false := by simpa using hk
          simp only [if_neg hk', List.lookup_cons, hb]
          exact lookup_upsert key f k rest

/-- One group: the actions in order, and the last target. -/
def groupFrom (g : Option Group) (hs : List HandlerIr) : Option Group :=
  hs.foldl (fun g h => some (addKind h.kind (g.getD ([], none)))) g

/-- The fold behind both tables; handlers without a key are left out. -/
def groups {κ : Type} [DecidableEq κ] (key : HandlerIr → Option κ) (m : List (κ × Group))
    (hs : List HandlerIr) : List (κ × Group) :=
  hs.foldl (fun m h => match key h with
    | some k => upsert k (addKind h.kind) m
    | none => m) m

/-- What is filed under a key is the group of the handlers with that key. -/
theorem lookup_groups {κ : Type} [DecidableEq κ] [BEq κ] [LawfulBEq κ]
    (key : HandlerIr → Option κ) (k : κ) :
    ∀ (hs : List HandlerIr) (m : List (κ × Group)), (groups key m hs).lookup k =
      groupFrom (m.lookup k) (hs.filter fun h => decide (key h = some k))
  | [], _ => rfl
  | h :: hs, m => by
      have ih := lookup_groups key k hs
      unfold groups at ih ⊢
      rw [List.foldl_cons, ih]
      cases hk : key h with
      | none => simp [hk]
      | some k' =>
          simp only [lookup_upsert]
          by_cases he : k = k'
          · subst he
            simp [hk, groupFrom]
          · simp [hk, he, Ne.symm he]

def eventKey (h : HandlerIr) : Option Nat :=
  match h.trigger with
  | .event id _ _ => some id
  | .duration _ => none

theorem stateHandlers_eq (s : StateIr) :
    stateHandlers s = groups eventKey [] (sortHandlers s.handlers) := by
  unfold stateHandlers groups
  congr 1
  funext m h
  unfold eventKey
  cases h.trigger <;> rfl

theorem stateHandlerArms_eq (s : StateIr) : stateHandlerArms s =
    groups (fun h => some (triggerKindId h.trigger)) [] (sortHandlers s.handlers) := rfl

/-- The two tables agree on events. -/
theorem lookup_stateHandlers (s : StateIr) (v : Nat) :
    (stateHandlers s).lookup v = (stateHandlerArms s).lookup (0, v) := by
  rw [stateHandlers_eq, stateHandlerArms_eq, lookup_groups, lookup_groups]
  congr 1
  apply List.filter_congr
  intro h _
  unfold eventKey triggerKindId
  cases h.trigger <;> simp

/-! ## What a group holds -/

theorem mem_sortHandlers {h : HandlerIr} {hs : List HandlerIr} : h ∈ sortHandlers hs ↔ h ∈ hs :=
  (List.perm_insertionSort _ _).mem_iff

/-- The action a handler runs. -/
def HandlerKindIr.actionId : HandlerKindIr → Option Nat
  | .action aid _ => some aid
  | .transition .. => none

/-- The state a handler leads to. -/
def HandlerKindIr.targetId : HandlerKindIr → Option Nat
  | .transition _ slot => slot
  | .action .. => none

/-- A group holds the actions of its handlers in order, and the last of their targets. -/
theorem groupFrom_some (g : Group) (hs : List HandlerIr) : groupFrom (some g) hs =
    some (g.1 ++ hs.filterMap (·.kind.actionId),
      (hs.filterMap (·.kind.targetId)).getLast?.or g.2) := by
  induction hs generalizing g with
  | nil => simp [groupFrom]
  | cons h hs ih =>
      show groupFrom (some (addKind h.kind g)) hs = _
      rw [ih]
      cases hk : h.kind with
      | action aid name => simp [addKind, hk, HandlerKindIr.actionId, HandlerKindIr.targetId]
      | transition name slot =>
          cases slot with
          | none => simp [addKind, hk, HandlerKindIr.actionId, HandlerKindIr.targetId]
          | some t =>
              simp [addKind, hk, HandlerKindIr.actionId, HandlerKindIr.targetId,
                List.getLast?_cons]

theorem groupFrom_none {hs : List HandlerIr} (hne : hs ≠ []) : groupFrom none hs =
    some (hs.filterMap (·.kind.actionId), (hs.filterMap (·.kind.targetId)).getLast?) := by
  have heq : groupFrom none hs = groupFrom (some ([], none)) hs := by
    cases hs with
    | nil => exact absurd rfl hne
    | cons h hs => rfl
  rw [heq, groupFrom_some]
  simp

theorem groupFrom_eq_some {hs : List HandlerIr} {g : Group} :
    groupFrom none hs = some g ↔ hs ≠ [] ∧ g.1 = hs.filterMap (·.kind.actionId) ∧
      g.2 = (hs.filterMap (·.kind.targetId)).getLast? := by
  cases hs with
  | nil => simp [groupFrom]
  | cons h hs =>
      rw [groupFrom_none (List.cons_ne_nil h hs), Option.some.injEq, Prod.ext_iff, eq_comm,
        @eq_comm _ _ g.2]
      simp

/-- The group of a key that some handler has is not empty, once targets are resolved. -/
theorem groupFrom_ne_empty {hs : List HandlerIr} (hne : hs ≠ [])
    (hres : ∀ h ∈ hs, ∀ name slot, h.kind = .transition name slot → slot.isSome) :
    ∃ g, groupFrom none hs = some g ∧ (g.1 ≠ [] ∨ g.2.isSome) := by
  refine ⟨_, groupFrom_none hne, ?_⟩
  obtain ⟨h, hh⟩ := List.exists_mem_of_ne_nil hs hne
  cases hk : h.kind with
  | action aid name =>
      refine Or.inl (List.ne_nil_of_mem (a := aid) (List.mem_filterMap.mpr ⟨h, hh, ?_⟩))
      rw [hk]
      rfl
  | transition name slot =>
      obtain ⟨t, rfl⟩ := Option.isSome_iff_exists.mp (hres h hh name slot hk)
      have hmem : t ∈ hs.filterMap (·.kind.targetId) :=
        List.mem_filterMap.mpr ⟨h, hh, by rw [hk]; rfl⟩
      exact Or.inr (List.getLast?_isSome.mpr (List.ne_nil_of_mem hmem))

/-- A target of a group is the target of one of its handlers. -/
theorem groupFrom_target {hs : List HandlerIr} {g : Group} (h : groupFrom none hs = some g)
    {t : Nat} (ht : g.2 = some t) : ∃ h ∈ hs, ∃ name, h.kind = .transition name (some t) := by
  obtain ⟨-, -, hlast⟩ := groupFrom_eq_some.mp h
  obtain ⟨h, hh, hk⟩ := List.mem_filterMap.mp (List.mem_of_getLast? (hlast.symm.trans ht))
  refine ⟨h, hh, ?_⟩
  cases hkind : h.kind with
  | action aid name =>
      rw [hkind] at hk
      cases hk
  | transition name slot =>
      rw [hkind] at hk
      exact ⟨name, congrArg _ hk⟩

/-- An action of a group is the action of one of its handlers. -/
theorem groupFrom_action {hs : List HandlerIr} {g : Group} (h : groupFrom none hs = some g)
    {aid : Nat} (ha : aid ∈ g.1) : ∃ h ∈ hs, ∃ name, h.kind = .action aid name := by
  obtain ⟨-, hactions, -⟩ := groupFrom_eq_some.mp h
  rw [hactions] at ha
  obtain ⟨h, hh, hk⟩ := List.mem_filterMap.mp ha
  refine ⟨h, hh, ?_⟩
  cases hkind : h.kind with
  | action aid' name =>
      rw [hkind] at hk
      exact ⟨name, by rw [Option.some.inj hk]⟩
  | transition name slot =>
      rw [hkind] at hk
      cases hk

theorem isSome_groupFrom {hs : List HandlerIr} {g : Group} (h : groupFrom none hs = some g) :
    hs ≠ [] := by
  rintro rfl
  cases h

/-! ## Match arms keyed by the state id -/

theorem lookup_arms {β : Type} (f : StateIr → β) : ∀ (l : List StateIr) (k i : Nat),
    (∀ j s, l[j]? = some s → s.id = k + j) →
    (l.map fun s => (s.id, f s)).lookup (k + i) = (l[i]?).map f
  | [], _, _, _ => by simp
  | s :: l, k, i, hid => by
      have hs := hid 0 s rfl
      rw [Nat.add_zero] at hs
      rw [List.map_cons, List.lookup_cons, hs]
      cases i with
      | zero => simp
      | succ i =>
          have hb : (k + (i + 1) == k) = false := by simp
          rw [hb, List.getElem?_cons_succ, show k + (i + 1) = (k + 1) + i by omega]
          exact lookup_arms f l (k + 1) i fun j s h => by
            rw [hid (j + 1) s h]; omega

/-- In a numbered list of states, an arm is found at the state's index. -/
theorem TreeOk.lookup_arms {states : List StateIr} (ht : TreeOk states) {β : Type}
    (f : StateIr → β) (i : Nat) :
    (states.map fun s => (s.id, f s)).lookup i = (states[i]?).map f := by
  have := Hsmc.lookup_arms f states 0 i fun j s h => by rw [ht.id_eq j s h, Nat.zero_add]
  rwa [Nat.zero_add] at this

/-- The arms from index `k` on. -/
theorem lookup_zipIdx {α β : Type} (f : α → β) {i : Nat} (hi : i < 65536) :
    ∀ (l : List α) {k : Nat}, k ≤ i →
      ((l.zipIdx k).map fun (x, j) => (asU16 j, f x)).lookup i = (l[i - k]?).map f
  | [], _, _ => by simp
  | x :: l, k, hk => by
      rw [List.zipIdx_cons, List.map_cons, List.lookup_cons, asU16_of_lt (by omega)]
      rcases Nat.eq_or_lt_of_le hk with rfl | hlt
      · simp
      · have hb : (i == k) = false := by simpa using hlt.ne'
        rw [hb, show i - k = i - (k + 1) + 1 by omega, List.getElem?_cons_succ]
        exact lookup_zipIdx f hi l hlt

/-- Of the arms with the same id the first is found, and its index is the id. -/
theorem lookup_indexArms {α β : Type} (f : α → β) (l : List α) {i : Nat} (hi : i < 65536) :
    (indexArms f l).lookup i = (l[i]?).map f :=
  lookup_zipIdx f hi l (Nat.zero_le i)

/-! ## Bubbling -/

/-- What state `s` itself handles for event `v`. -/
def ownHandler (states : List StateIr) (v s : Nat) : Option Group :=
  (states[s]?).bind fun x => (stateHandlerArms x).lookup (0, v)

theorem bubble_eq {states : List StateIr} (T : StateTree states) (v : Nat) : ∀ (fuel s : Nat),
    T.level s < fuel → bubble states v fuel (some s) =
      (T.tree.up s).findSome? fun h => (ownHandler states v h).map fun g => (h, g.1, g.2)
  | 0, _, h => by omega
  | fuel + 1, s, h => by
      have hown : ((states[s]?).map stateHandlers).bind (·.lookup v) = ownHandler states v s := by
        unfold ownHandler
        cases states[s]? with
        | none => rfl
        | some x => simp [lookup_stateHandlers]
      unfold bubble
      rw [hown]
      obtain ⟨l, hl⟩ := T.tree.up_eq_cons s
      cases hg : ownHandler states v s with
      | some g =>
          obtain ⟨actions, target⟩ := g
          simp [hl, hg]
      | none =>
          simp only
          cases hp : parentOf states s with
          | none =>
              rw [T.tree.up_of_root hp]
              cases fuel <;> simp [bubble, hg]
          | some p =>
              have hlev := T.level_parent hp
              rw [bubble_eq T v fuel p (by omega), T.tree.up_of_parent hp, List.findSome?_cons, hg]
              rfl

/-- An entry of the dispatch table is the result of the search up the tree. -/
theorem computeEventDispatch_spec {ir : Ir} (T : StateTree ir.states)
    (hn : ir.states.length < 65536) (hv : ir.symbols.eventVariants.length < 65536) {s v : Nat}
    (hs : s < ir.states.length) (hvlt : v < ir.symbols.eventVariants.length) :
    (computeEventDispatch ir)[s * ir.symbols.eventVariants.length + v]? =
      some (((T.tree.up s).findSome? fun h =>
        (ownHandler ir.states v h).map fun g => (h, g.1, g.2)).getD (u16Max, [], none)) := by
  unfold computeEventDispatch
  rw [asU16_of_lt hv, getElem?_product _ hs hvlt, asU16_of_lt (by omega)]
  have := T.level_lt hs
  rw [bubble_eq T v _ s (by omega)]

theorem length_computeEventDispatch (ir : Ir) : (computeEventDispatch ir).length =
    ir.states.length * asU16 ir.symbols.eventVariants.length :=
  length_product _ _ _

end Hsmc
