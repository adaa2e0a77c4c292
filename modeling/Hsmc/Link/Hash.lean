import Hsmc.Lib.Codes
import Hsmc.Link.Build
import Hsmc.Macros.Codegen

/-
  The bytes that the chart hash is computed from.

  `Ir.fed` is the part of a chart that `compute_chart_hash` reads. With ids below 65280, whose
  high byte is not the mark, it can be read back from the bytes (`hashBytes_inj`): an id takes
  three bytes, a separator two, and no byte of a name is the mark.
-/

namespace Hsmc

/-- One `feed` call: the bytes, then the mark. -/
def mark (bytes : List Nat) : List Nat := bytes ++ [0xff]

/-- All bytes that go into the hash, in order. -/
def hashBytes (ir : Ir) : List Nat := (chartFeeds ir).flatMap mark

theorem foldl_mark : ∀ (feeds : List (List Nat)) (h : Nat), (feeds.flatMap mark).foldl fnvByte h =
    feeds.foldl (fun h bytes => fnvByte (bytes.foldl fnvByte h) 0xff) h
  | [], _ => rfl
  | bytes :: feeds, h => by
      rw [List.flatMap_cons, List.foldl_append, foldl_mark feeds, mark, List.foldl_append,
        List.foldl_cons, List.foldl_cons, List.foldl_nil]

/-- The hash is FNV-1a of these bytes. -/
theorem computeChartHash_eq (ir : Ir) :
    computeChartHash ir = (hashBytes ir).foldl fnvByte 0xcbf29ce484222325 := by
  unfold computeChartHash hashBytes
  rw [foldl_mark]

/-! ## What is fed -/

structure FedHandler where
  trigger : Nat
  /-- The event variant; a timer has none. -/
  variant : Option Ident
  kind : HandlerKindIr
deriving DecidableEq

structure FedState where
  id : Nat
  name : Ident
  parent : Option Nat
  depth : Nat
  defaultChild : Option Nat
  entries : List Nat
  exits : List Nat
  handlers : List FedHandler
  ownedTimers : List Nat
  durings : Nat
deriving DecidableEq

structure FedChart where
  name : Ident
  states : List FedState
  /-- The actions, with the number of their parameters. -/
  actions : List (Ident × Nat)
  events : List Ident
deriving DecidableEq

def HandlerIr.fed (h : HandlerIr) : FedHandler :=
  match h.trigger with
  | .event id ident _ => ⟨id, some ident, h.kind⟩
  | .duration id => ⟨id, none, h.kind⟩

def StateIr.fed (s : StateIr) : FedState where
  id := s.id
  name := s.name
  parent := s.parent
  depth := s.depth
  defaultChild := s.defaultChild
  entries := s.entries
  exits := s.exits
  handlers := s.handlers.map HandlerIr.fed
  ownedTimers := s.ownedTimers
  durings := asU16 s.durings.length

def Ir.fed (ir : Ir) : FedChart where
  name := ir.name
  states := ir.states.map StateIr.fed
  actions := ir.symbols.actions.map fun a => (a.name, asU16 a.params.length)
  events := ir.symbols.eventVariants.map (·.name)

def FedHandler.triggerBytes (h : FedHandler) : List Nat :=
  match h.variant with
  | some v => mark [0x01] ++ (mark (leBytes16 h.trigger) ++ mark (nameBytes v))
  | none => mark [0x02] ++ mark (leBytes16 h.trigger)

def FedHandler.kindBytes (h : FedHandler) : List Nat :=
  match h.kind with
  | .transition name slot =>
      mark [0x10] ++ (mark (nameBytes name) ++ mark (leBytes16 (slot.getD u16Max)))
  | .action aid name => mark [0x11] ++ (mark (leBytes16 aid) ++ mark (nameBytes name))

def FedHandler.bytes (h : FedHandler) : List Nat := h.triggerBytes ++ h.kindBytes

def idBytes (x : Nat) : List Nat := mark (leBytes16 x)

def FedState.bytes (s : FedState) : List Nat :=
  idBytes s.id ++ (mark (nameBytes s.name) ++ (mark (leBytes16 (s.parent.getD u16Max)) ++
  (mark [s.depth] ++ (mark (leBytes16 (s.defaultChild.getD u16Max)) ++
  (s.entries.flatMap idBytes ++ (mark [0xee] ++ (s.exits.flatMap idBytes ++ (mark [0xff] ++
  (s.handlers.flatMap FedHandler.bytes ++ (mark [0xfe] ++ (s.ownedTimers.flatMap idBytes ++
  (mark [0xfd] ++ idBytes s.durings))))))))))))

def actionBytes (a : Ident × Nat) : List Nat := mark (nameBytes a.1) ++ idBytes a.2

def FedChart.bytes (x : FedChart) : List Nat :=
  mark (nameBytes x.name) ++ (x.states.flatMap FedState.bytes ++ (mark [0xfc] ++
  (x.actions.flatMap actionBytes ++ (mark [0xfb] ++
  x.events.flatMap fun e => mark (nameBytes e)))))

theorem bytes_handler (h : HandlerIr) : h.fed.bytes = (feedHandler h).flatMap mark := by
  unfold FedHandler.bytes FedHandler.triggerBytes FedHandler.kindBytes HandlerIr.fed feedHandler
  cases h.trigger <;> cases h.kind <;> simp

theorem bytes_state (s : StateIr) : s.fed.bytes = (feedState s).flatMap mark := by
  unfold FedState.bytes StateIr.fed feedState
  simp only [List.flatMap_append, List.flatMap_cons, List.flatMap_nil, List.append_nil,
    List.flatMap_map, List.flatMap_assoc, List.append_assoc, bytes_handler]
  rfl

/-- The bytes depend on nothing else. -/
theorem hashBytes_eq (ir : Ir) : hashBytes ir = ir.fed.bytes := by
  unfold hashBytes chartFeeds FedChart.bytes Ir.fed
  simp only [List.flatMap_append, List.flatMap_cons, List.flatMap_nil, List.append_nil,
    List.flatMap_map, List.flatMap_assoc, List.append_assoc, bytes_state]
  rfl

/-! ## The bytes of names and ids -/

/-- No byte of a name is the mark, or a separator. -/
theorem nameBytes_lt {s : Ident} : ∀ b ∈ nameBytes s, b < 0xf8 := by
  intro b hb
  obtain ⟨ch, -, hb⟩ := List.mem_flatMap.mp hb
  obtain ⟨x, hx, rfl⟩ := List.mem_map.mp hb
  have hle : ∀ y, (UInt8.ofNat y).toNat ≤ y := fun y => by
    rw [UInt8.toNat_ofNat']
    exact Nat.mod_le _ _
  -- a first byte is below 0xf8, the others are below 0xc0
  have hbyte : ∃ y, x = UInt8.ofNat y ∧ y < 0xf8 := by
    unfold String.utf8EncodeChar at hx
    simp only at hx
    split at hx
    · obtain rfl := List.mem_singleton.mp hx
      exact ⟨_, rfl, by omega⟩
    · split at hx
      · simp only [List.mem_cons, List.not_mem_nil, or_false] at hx
        rcases hx with rfl | rfl <;> exact ⟨_, rfl, by omega⟩
      · split at hx
        · simp only [List.mem_cons, List.not_mem_nil, or_false] at hx
          rcases hx with rfl | rfl | rfl <;> exact ⟨_, rfl, by omega⟩
        · simp only [List.mem_cons, List.not_mem_nil, or_false] at hx
          rcases hx with rfl | rfl | rfl | rfl <;> exact ⟨_, rfl, by omega⟩
  obtain ⟨y, rfl, hy⟩ := hbyte
  exact (hle y).trans_lt hy

theorem nameBytes_inj {s s' : Ident} (h : nameBytes s = nameBytes s') : s = s' := by
  unfold nameBytes at h
  simp only [← List.map_flatMap] at h
  have hbytes := List.map_injective_iff.mpr (fun _ _ => UInt8.toNat_inj.mp) h
  rw [← String.toByteArray_inj, ← String.utf8Encode_toList, ← String.utf8Encode_toList,
    List.utf8Encode, List.utf8Encode, hbytes]

theorem prefixFree_name : PrefixFree (fun _ => True) fun s : Ident => mark (nameBytes s) :=
  .close (fun _ _ hmem => absurd (nameBytes_lt _ hmem) (by decide))
    fun _ _ _ _ h => nameBytes_inj h

theorem leBytes16_inj {x y : Nat} (hx : x < 65536) (hy : y < 65536)
    (h : leBytes16 x = leBytes16 y) : x = y := by
  simp only [leBytes16, List.cons.injEq, and_true] at h
  omega

theorem prefixFree_id : PrefixFree (· < 65536) idBytes :=
  .of_length (n := 3) (fun _ _ => rfl) fun _ _ hx hy h =>
    leBytes16_inj hx hy (List.append_cancel_right h)

theorem prefixFree_option : PrefixFree (fun o : Option Nat => ∀ x ∈ o, x < 65280)
    fun o => mark (leBytes16 (o.getD u16Max)) := by
  refine .of_length (n := 3) (fun _ _ => rfl) fun o o' ho ho' h => ?_
  have hlt : ∀ {o : Option Nat}, (∀ x ∈ o, x < 65280) → o.getD u16Max < 65536 := by
    rintro (_ | x) hx
    · decide
    · exact (hx x rfl).trans (by decide)
  have h := leBytes16_inj (hlt ho) (hlt ho') (List.append_cancel_right h)
  cases o with
  | none =>
      cases o' with
      | none => rfl
      | some y =>
          have hy := ho' y rfl
          have h : u16Max = y := h
          unfold u16Max at h
          omega
  | some x =>
      cases o' with
      | none =>
          have hx := ho x rfl
          have h : x = u16Max := h
          unfold u16Max at h
          omega
      | some y => exact congrArg some h

theorem prefixFree_depth : PrefixFree (fun _ => True) fun d : Nat => mark [d] :=
  .of_length (n := 2) (fun _ _ => rfl) fun _ _ _ _ h => by simpa [mark] using h

/-- The high byte of a small id is not the mark, so no id reads like a separator. -/
theorem idBytes_ne {x sep : Nat} (hx : x < 65280) (r r' : List Nat) :
    idBytes x ++ r ≠ mark [sep] ++ r' := by
  simp only [idBytes, mark, leBytes16, List.cons_append, List.nil_append, ne_eq, List.cons.injEq,
    not_and]
  omega

theorem nameBytes_ne {s : Ident} {sep : Nat} (hsep : 0xf8 ≤ sep) (hne : sep ≠ 0xff)
    (r r' : List Nat) : mark (nameBytes s) ++ r ≠ mark [sep] ++ r' := by
  have hlt := nameBytes_lt (s := s)
  unfold mark
  cases hb : nameBytes s with
  | nil => simp [Ne.symm hne]
  | cons b l =>
      have := hlt b (by rw [hb]; exact List.mem_cons_self)
      simp only [List.cons_append, ne_eq, List.cons.injEq, not_and]
      omega

/-! ## Reading the bytes back -/

/-- The ids are below 65280. -/
structure FedHandler.Narrow (h : FedHandler) : Prop where
  trigger : h.trigger < 65280
  slot : ∀ name slot, h.kind = .transition name slot → ∀ t ∈ slot, t < 65280
  action : ∀ aid name, h.kind = .action aid name → aid < 65280

structure FedState.Narrow (s : FedState) : Prop where
  id : s.id < 65280
  parent : ∀ p ∈ s.parent, p < 65280
  defaultChild : ∀ t ∈ s.defaultChild, t < 65280
  entries : ∀ a ∈ s.entries, a < 65280
  exits : ∀ a ∈ s.exits, a < 65280
  handlers : ∀ h ∈ s.handlers, h.Narrow
  ownedTimers : ∀ t ∈ s.ownedTimers, t < 65280
  durings : s.durings < 65536

structure FedChart.Narrow (x : FedChart) : Prop where
  states : ∀ s ∈ x.states, s.Narrow
  actions : ∀ a ∈ x.actions, a.2 < 65536

theorem prefixFree_handler : PrefixFree FedHandler.Narrow FedHandler.bytes := by
  rintro ⟨t, v, k⟩ ⟨t', v', k'⟩ r r' ha hb he
  have hkind : ∀ {r r' : List Nat}, (FedHandler.mk t v k).kindBytes ++ r =
      (FedHandler.mk t' v' k').kindBytes ++ r' → k = k' ∧ r = r' := by
    intro r r' he
    unfold FedHandler.kindBytes at he
    cases k with
    | transition name slot =>
        cases k' with
        | transition name' slot' =>
            simp only [List.append_assoc, List.append_cancel_left_eq] at he
            obtain ⟨rfl, h₁⟩ := prefixFree_name _ _ _ _ trivial trivial he
            obtain ⟨rfl, h₂⟩ := prefixFree_option _ _ _ _ (ha.slot _ _ rfl) (hb.slot _ _ rfl) h₁
            exact ⟨rfl, h₂⟩
        | action _ _ => simp [mark] at he
    | action aid name =>
        cases k' with
        | transition _ _ => simp [mark] at he
        | action aid' name' =>
            simp only [List.append_assoc, List.append_cancel_left_eq] at he
            have haid := (ha.action _ _ rfl).trans (by decide : 65280 < 65536)
            have haid' := (hb.action _ _ rfl).trans (by decide : 65280 < 65536)
            obtain ⟨rfl, h₁⟩ := prefixFree_id _ _ _ _ haid haid' he
            obtain ⟨rfl, h₂⟩ := prefixFree_name _ _ _ _ trivial trivial h₁
            exact ⟨rfl, h₂⟩
  have ht := ha.trigger.trans (by decide : 65280 < 65536)
  have ht' := hb.trigger.trans (by decide : 65280 < 65536)
  unfold FedHandler.bytes FedHandler.triggerBytes at he
  cases v with
  | none =>
      cases v' with
      | none =>
          simp only [List.append_assoc, List.append_cancel_left_eq] at he
          obtain ⟨rfl, h₁⟩ := prefixFree_id _ _ _ _ ht ht' he
          obtain ⟨rfl, h₂⟩ := hkind h₁
          exact ⟨rfl, h₂⟩
      | some v' => simp [mark] at he
  | some v =>
      cases v' with
      | none => simp [mark] at he
      | some v' =>
          simp only [List.append_assoc, List.append_cancel_left_eq] at he
          obtain ⟨rfl, h₁⟩ := prefixFree_id _ _ _ _ ht ht' he
          obtain ⟨rfl, h₂⟩ := prefixFree_name _ _ _ _ trivial trivial h₁
          obtain ⟨rfl, h₃⟩ := hkind h₂
          exact ⟨rfl, h₃⟩

theorem handlerBytes_ne (h : FedHandler) (r r' : List Nat) : h.bytes ++ r ≠ mark [0xfe] ++ r' := by
  unfold FedHandler.bytes FedHandler.triggerBytes
  cases h.variant <;> simp [mark]

theorem prefixFree_state : PrefixFree FedState.Narrow FedState.bytes := by
  intro a b r r' ha hb he
  have hsmall : ∀ x : Nat, x < 65280 → x < 65536 := fun x hx => hx.trans (by decide)
  have hids : PrefixFree (· < 65280) idBytes :=
    fun x y r r' hx hy => prefixFree_id x y r r' (hsmall x hx) (hsmall y hy)
  unfold FedState.bytes at he
  simp only [List.append_assoc] at he
  obtain ⟨hid, he⟩ := hids _ _ _ _ ha.id hb.id he
  obtain ⟨hname, he⟩ := prefixFree_name _ _ _ _ trivial trivial he
  obtain ⟨hparent, he⟩ := prefixFree_option _ _ _ _ ha.parent hb.parent he
  obtain ⟨hdepth, he⟩ := prefixFree_depth _ _ _ _ trivial trivial he
  obtain ⟨hdef, he⟩ := prefixFree_option _ _ _ _ ha.defaultChild hb.defaultChild he
  obtain ⟨hen, he⟩ := hids.upTo (fun _ r r' hx => idBytes_ne hx r r') ha.entries hb.entries he
  obtain ⟨hex, he⟩ := hids.upTo (fun _ r r' hx => idBytes_ne hx r r') ha.exits hb.exits he
  obtain ⟨hh, he⟩ := prefixFree_handler.upTo (fun h r r' _ => handlerBytes_ne h r r')
    ha.handlers hb.handlers he
  obtain ⟨ht, he⟩ := hids.upTo (fun _ r r' hx => idBytes_ne hx r r') ha.ownedTimers
    hb.ownedTimers he
  obtain ⟨hdur, he⟩ := prefixFree_id _ _ _ _ ha.durings hb.durings he
  refine ⟨?_, he⟩
  cases a
  cases b
  simp only at hid hname hparent hdepth hdef hen hex hh ht hdur
  subst hid hname hparent hdepth hdef hen hex hh ht hdur
  rfl

theorem stateBytes_ne {s : FedState} (hs : s.Narrow) (r r' : List Nat) :
    s.bytes ++ r ≠ mark [0xfc] ++ r' := by
  unfold FedState.bytes
  rw [List.append_assoc]
  exact idBytes_ne hs.id _ _

theorem prefixFree_action : PrefixFree (fun a : Ident × Nat => a.2 < 65536) actionBytes := by
  intro a b r r' ha hb he
  unfold actionBytes at he
  simp only [List.append_assoc] at he
  obtain ⟨hname, he⟩ := prefixFree_name _ _ _ _ trivial trivial he
  obtain ⟨hparams, he⟩ := prefixFree_id _ _ _ _ ha hb he
  exact ⟨Prod.ext hname hparams, he⟩

/-- Charts with the same bytes are the same, as far as the hash reads them. -/
theorem FedChart.bytes_inj {x y : FedChart} (hx : x.Narrow) (hy : y.Narrow)
    (h : x.bytes = y.bytes) : x = y := by
  unfold FedChart.bytes at h
  obtain ⟨hname, h⟩ := prefixFree_name _ _ _ _ trivial trivial h
  obtain ⟨hstates, h⟩ := prefixFree_state.upTo (fun _ r r' hs => stateBytes_ne hs r r')
    hx.states hy.states h
  obtain ⟨hactions, h⟩ := prefixFree_action.upTo (fun a r r' _ => by
    unfold actionBytes
    rw [List.append_assoc]
    exact nameBytes_ne (by decide) (by decide) _ _) hx.actions hy.actions h
  have hevents := prefixFree_name.toEnd (fun _ _ => by simp [mark]) (fun _ _ => trivial)
    (fun _ _ => trivial) h
  cases x
  cases y
  simp only at hname hstates hactions hevents
  subst hname hstates hactions hevents
  rfl

end Hsmc
