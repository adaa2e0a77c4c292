import Hsmc.Lib.Countdown
import Hsmc.Link.TimerOps

/-
  A timer table is a map from (state, trigger) to the time left.

  `TimerOp.Spec` says what a call does to the map, and what it may answer. A table `Represents`
  a map when its entries are the graph of it; every call on a table that has room does what the
  specification says (`Represents.apply`), and so does every sequence of calls
  (`table_refines_map`).
-/

namespace Hsmc

/-- What a call does to the running timers, and what it answers. -/
def TimerOp.Spec (op : TimerOp) (m : Countdown (Nat × Nat)) (answer : Option (Nat × Nat))
    (m' : Countdown (Nat × Nat)) : Prop :=
  match op with
  | .start s k d => answer = none ∧ m' = m.arm (s, k) d
  | .cancelState s => answer = none ∧ m' = m.cancel (·.1 = s)
  | .cancelOne s k => answer = none ∧ m' = m.cancel (· = (s, k))
  | .decrement e => answer = none ∧ m' = m.elapse e
  | .popExpired depth =>
      match answer with
      | none => m.due = ∅ ∧ m' = m
      | some x => x ∈ m.due ∧ (∀ y ∈ m.due, depth.getD y.1 0 ≤ depth.getD x.1 0) ∧
          m' = m.cancel (· = x)

/-- The same for a sequence of calls. -/
inductive TimerOp.Specs : List TimerOp → Countdown (Nat × Nat) → List (Option (Nat × Nat)) →
    Countdown (Nat × Nat) → Prop where
  | nil {m : Countdown (Nat × Nat)} : Specs [] m [] m
  | concat {ops : List TimerOp} {answers : List (Option (Nat × Nat))} {op : TimerOp}
      {answer : Option (Nat × Nat)} {m m₁ m' : Countdown (Nat × Nat)} :
      Specs ops m answers m₁ → op.Spec m₁ answer m' →
      Specs (ops ++ [op]) m (answers ++ [answer]) m'

/-- A duration that `u64` nanoseconds can hold. -/
def TimerOp.Below : TimerOp → Prop
  | .start _ _ d => d < 2 ^ 64
  | .decrement e => e < 2 ^ 64
  | _ => True

namespace TimerTable

variable {n : Nat} {t : TimerTable n} {m : Countdown (Nat × Nat)}

structure Represents (t : TimerTable n) (m : Countdown (Nat × Nat)) : Prop where
  nodup : t.keys.Nodup
  graph : ∀ x r, m x = some r ↔ ⟨x.1, x.2, r⟩ ∈ t.entries.items

theorem represents_new : (new : TimerTable n).Represents .empty :=
  ⟨nodup_keys_new, fun x r => by simp [new, Bounded.empty, Countdown.empty]⟩

theorem Represents.mem_due (h : t.Represents m) {x : Nat × Nat} :
    x ∈ m.due ↔ ∃ e ∈ t.expired, e.key = x := by
  refine (h.graph x 0).trans ⟨fun he => ⟨_, mem_expired.mpr ⟨he, rfl⟩, rfl⟩, ?_⟩
  rintro ⟨⟨s, k, r⟩, he, rfl⟩
  obtain ⟨he, rfl⟩ := mem_expired.mp he
  exact he

theorem Represents.mem_live (h : t.Represents m) {x : Nat × Nat} : x ∈ m.live ↔ x ∈ t.keys := by
  rw [Countdown.mem_live, mem_keys_iff]
  refine ⟨fun ⟨r, hr⟩ => ⟨_, (h.graph x r).mp hr, rfl, rfl⟩, ?_⟩
  rintro ⟨⟨s, k, r⟩, he, rfl, rfl⟩
  exact ⟨r, (h.graph _ r).mpr he⟩

theorem asU64_of_lt {d : Nat} (h : d < 2 ^ 64) : asU64 d = d := Nat.mod_eq_of_lt h

theorem represents_start (h : t.Represents m) {s k d : Nat} (hroom : t.Room s k)
    (hd : d < 2 ^ 64) : (t.start s k d).Represents (m.arm (s, k) d) where
  nodup := nodup_keys_start h.nodup s k d
  graph x r := by
    obtain ⟨a, b⟩ := x
    rw [Countdown.arm_eq_some_iff, mem_start h.nodup hroom, h.graph, asU64_of_lt hd]
    simp only [TimerEntry.key, TimerEntry.mk.injEq, Prod.mk.injEq, ne_eq]
    tauto

theorem represents_cancelState (h : t.Represents m) (s : Nat) :
    (t.cancelState s).Represents (m.cancel (·.1 = s)) where
  nodup := nodup_keys_apply h.nodup (.cancelState s)
  graph x r := by
    rw [Countdown.cancel_eq_some_iff, mem_cancelState, h.graph, and_comm]

theorem represents_cancelOne (h : t.Represents m) (s k : Nat) :
    (t.cancelOne s k).Represents (m.cancel (· = (s, k))) where
  nodup := nodup_keys_apply h.nodup (.cancelOne s k)
  graph x r := by
    rw [Countdown.cancel_eq_some_iff, mem_cancelOne, h.graph, and_comm]
    rfl

theorem represents_decrement (h : t.Represents m) {e : Nat} (he : e < 2 ^ 64) :
    (t.decrement e).Represents (m.elapse e) where
  nodup := nodup_keys_apply h.nodup (.decrement e)
  graph x r := by
    rw [Countdown.elapse_eq_some_iff, mem_decrement, asU64_of_lt he]
    constructor
    · rintro ⟨r₀, hr₀, rfl⟩
      exact ⟨_, (h.graph x r₀).mp hr₀, rfl⟩
    · rintro ⟨⟨s, k, r₀⟩, he₀, heq⟩
      cases heq
      exact ⟨r₀, (h.graph x r₀).mpr he₀, rfl⟩

theorem Represents.due_eq_empty_iff (h : t.Represents m) : m.due = ∅ ↔ t.expired = [] := by
  rw [Set.eq_empty_iff_forall_notMem, List.eq_nil_iff_forall_not_mem]
  refine ⟨fun hm e he => hm e.key (h.mem_due.mpr ⟨e, he, rfl⟩), fun ht x hx => ?_⟩
  obtain ⟨e, he, -⟩ := h.mem_due.mp hx
  exact ht e he

theorem represents_popExpired (h : t.Represents m) (depth : List Nat) :
    ∃ m', (TimerOp.popExpired depth).Spec m (t.apply (.popExpired depth)).1 m' ∧
      (t.apply (.popExpired depth)).2.Represents m' := by
  cases hpop : t.popExpired depth with
  | none =>
      rw [apply_popExpired_none hpop]
      exact ⟨m, ⟨h.due_eq_empty_iff.mpr (popExpired_eq_none_iff.mp hpop), rfl⟩, h⟩
  | some p =>
      obtain ⟨x, t'⟩ := p
      have hnd := nodup_keys_apply h.nodup (.popExpired depth)
      rw [apply_popExpired_some hpop] at hnd ⊢
      obtain ⟨hx, hmem⟩ := mem_popExpired h.nodup hpop
      obtain ⟨i, b, hb, hkey, -⟩ := popExpired_first hpop
      refine ⟨_, ⟨(h.graph x 0).mpr hx, fun y hy => ?_, rfl⟩, hnd, fun y r => ?_⟩
      · obtain ⟨e, he, rfl⟩ := h.mem_due.mp hy
        obtain ⟨he, h0⟩ := mem_expired.mp he
        obtain ⟨j, hj⟩ := List.mem_iff_getElem?.mp he
        rw [← hkey]
        exact hb.deepest j e (List.getElem?_eq_some_iff.mp hj).1 hj h0
      · rw [Countdown.cancel_eq_some_iff, hmem, h.graph, and_comm]
        rfl

/-- A call on a table with room does what is specified. -/
theorem Represents.apply (h : t.Represents m) {op : TimerOp} (hbelow : op.Below)
    (hroom : ∀ s k d, op = .start s k d → t.Room s k) :
    ∃ m', op.Spec m (t.apply op).1 m' ∧ (t.apply op).2.Represents m' := by
  cases op with
  | start s k d => exact ⟨_, ⟨rfl, rfl⟩, represents_start h (hroom s k d rfl) hbelow⟩
  | cancelState s => exact ⟨_, ⟨rfl, rfl⟩, represents_cancelState h s⟩
  | cancelOne s k => exact ⟨_, ⟨rfl, rfl⟩, represents_cancelOne h s k⟩
  | decrement e => exact ⟨_, ⟨rfl, rfl⟩, represents_decrement h hbelow⟩
  | popExpired depth => exact represents_popExpired h depth

/-! ## The next deadline -/

theorem Represents.isNext (h : t.Represents m) : m.IsNext t.minRemaining := by
  unfold minRemaining
  cases hmin : (t.entries.items.map (·.remainingNs)).min? with
  | none =>
      have hnil : t.entries.items = [] := by simpa using hmin
      refine Countdown.eq_empty_iff.mpr fun x r hr => ?_
      have he := (h.graph x r).mp hr
      rw [hnil] at he
      cases he
  | some r =>
      obtain ⟨hmem, hleast⟩ := List.min?_eq_some_iff.mp hmin
      obtain ⟨⟨s, k, r⟩, he, rfl⟩ := List.mem_map.mp hmem
      exact ⟨⟨(s, k), (h.graph _ r).mpr he⟩,
        fun x r' hr' => hleast r' (List.mem_map.mpr ⟨_, (h.graph x r').mp hr', rfl⟩)⟩

/-- `min_remaining` is the time until the next timer is due. -/
def DeadlineExact (t : TimerTable n) (m : Countdown (Nat × Nat)) : Prop :=
  (t.minRemaining = none ↔ m = .empty) ∧ ∀ r, t.minRemaining = some r → ∀ e, e < 2 ^ 64 →
    ∀ depth, (((t.decrement e).popExpired depth).isSome = true ↔ r ≤ e)

theorem Represents.deadlineExact (h : t.Represents m) : t.DeadlineExact m := by
  have hnext := h.isNext
  refine ⟨⟨fun hnone => by rwa [hnone] at hnext, ?_⟩, fun r hr e he depth => ?_⟩
  · rintro rfl
    cases hmin : t.minRemaining with
    | none => rfl
    | some r =>
        rw [hmin] at hnext
        obtain ⟨⟨k, hk⟩, -⟩ := hnext
        cases hk
  · rw [hr] at hnext
    rw [← Countdown.nonempty_due_elapse_iff hnext, Set.nonempty_iff_ne_empty, ne_eq,
      (represents_decrement h he).due_eq_empty_iff, ← popExpired_eq_none_iff,
      Option.isSome_iff_ne_none]

/-! ## Sequences of calls -/

/-- At no time do more than `n` timers run: neither in the map after the calls nor after some of
    them, if the pops answer as the table's do. -/
def Fits (n : Nat) (ops : List TimerOp) : Prop :=
  ∀ p m, p <+: ops → TimerOp.Specs p .empty ((new : TimerTable n).applyAll p).1 m →
    m.live.encard ≤ n

theorem room_of_encard_le (h : t.Represents m) {s k d : Nat}
    (hle : (m.arm (s, k) d).live.encard ≤ n) : t.Room s k := by
  by_cases hmem : (s, k) ∈ t.keys
  · exact .inl hmem
  · have hlive : (((s, k) :: t.keys).toFinset : Set (Nat × Nat)) ⊆ (m.arm (s, k) d).live := by
      rw [Countdown.live_arm]
      intro x hx
      rcases List.mem_cons.mp (List.mem_toFinset.mp hx) with rfl | hx
      · exact Set.mem_insert _ _
      · exact Set.mem_insert_of_mem _ (h.mem_live.mpr hx)
    have hcard := (Set.encard_le_encard hlive).trans hle
    rw [Set.encard_coe_eq_coe_finsetCard, List.toFinset_card_of_nodup
      (List.nodup_cons.mpr ⟨hmem, h.nodup⟩), List.length_cons, Nat.cast_le] at hcard
    exact .inr hcard

/-- Every sequence of calls that fits the table does to the running timers what is specified, the
    table represents them, and its next deadline is exact. -/
theorem table_refines_map {ops : List TimerOp} (hbelow : ∀ op ∈ ops, op.Below)
    (hfits : Fits n ops) :
    ∃ m, TimerOp.Specs ops .empty ((new : TimerTable n).applyAll ops).1 m ∧
      ((new : TimerTable n).applyAll ops).2.Represents m ∧
      ((new : TimerTable n).applyAll ops).2.DeadlineExact m := by
  suffices h : ∃ m, TimerOp.Specs ops .empty ((new : TimerTable n).applyAll ops).1 m ∧
      ((new : TimerTable n).applyAll ops).2.Represents m by
    obtain ⟨m, hspecs, hrep⟩ := h
    exact ⟨m, hspecs, hrep, hrep.deadlineExact⟩
  induction ops using List.reverseRecOn with
  | nil => exact ⟨.empty, .nil, represents_new⟩
  | append_singleton ops op ih =>
      obtain ⟨m₁, hspecs, hrep⟩ := ih (fun x hx => hbelow x (List.mem_append_left _ hx))
        (fun p m hp => hfits p m (hp.trans (List.prefix_append _ _)))
      rw [applyAll_append]
      obtain ⟨m', hspec, hrep'⟩ := hrep.apply (hbelow op (by simp)) fun s k d hop => by
        subst hop
        refine room_of_encard_le (d := d) hrep (hfits _ _ List.prefix_rfl ?_)
        rw [applyAll_append]
        exact .concat hspecs ⟨rfl, rfl⟩
      exact ⟨m', .concat hspecs hspec, hrep'⟩

/-! ## Enough places -/

theorem live_of_spec {op : TimerOp} {answer : Option (Nat × Nat)} {m' : Countdown (Nat × Nat)}
    (h : op.Spec m answer m') {x : Nat × Nat} (hx : x ∈ m'.live) :
    x ∈ m.live ∨ ∃ d, op = .start x.1 x.2 d := by
  cases op with
  | start s k d =>
      obtain ⟨-, rfl⟩ := h
      rw [Countdown.live_arm] at hx
      rcases hx with rfl | hx
      · exact .inr ⟨d, rfl⟩
      · exact .inl hx
  | cancelState s =>
      obtain ⟨-, rfl⟩ := h
      exact .inl (m.live_cancel_subset _ hx)
  | cancelOne s k =>
      obtain ⟨-, rfl⟩ := h
      exact .inl (m.live_cancel_subset _ hx)
  | decrement e =>
      obtain ⟨-, rfl⟩ := h
      exact .inl (by simpa using hx)
  | popExpired depth =>
      cases answer with
      | none =>
          obtain ⟨-, rfl⟩ := h
          exact .inl hx
      | some y =>
          obtain ⟨-, -, rfl⟩ := h
          exact .inl (m.live_cancel_subset _ hx)

/-- Calls that start no more than `n` different timers fit the table. -/
theorem fits_of_started {ops : List TimerOp} {l : List (Nat × Nat)} (hlen : l.length ≤ n)
    (hl : ∀ s k d, .start s k d ∈ ops → (s, k) ∈ l) : Fits n ops := by
  intro p m hp hspecs
  have hsub : m.live ⊆ (l.toFinset : Set (Nat × Nat)) := by
    have hstart : ∀ x ∈ m.live, ∃ d, TimerOp.start x.1 x.2 d ∈ p := by
      clear hp
      generalize hm₀ : (Countdown.empty : Countdown (Nat × Nat)) = m₀ at hspecs
      generalize ((new : TimerTable n).applyAll p).1 = answers at hspecs
      induction hspecs with
      | nil =>
          subst hm₀
          exact fun x hx => by cases hx
      | concat _ hspec ih =>
          intro x hx
          rcases live_of_spec hspec hx with hx | ⟨d, rfl⟩
          · obtain ⟨d, hd⟩ := ih hm₀ x hx
            exact ⟨d, List.mem_append_left _ hd⟩
          · exact ⟨d, by simp⟩
    intro x hx
    obtain ⟨d, hd⟩ := hstart x hx
    exact List.mem_toFinset.mpr (hl x.1 x.2 d (hp.subset hd))
  refine (Set.encard_le_encard hsub).trans ?_
  rw [Set.encard_coe_eq_coe_finsetCard, Nat.cast_le]
  exact (List.toFinset_card_le l).trans hlen

/-- Two timers, of which the second runs out first. -/
def twoTimers : List TimerOp :=
  [.start 1 0 5, .start 2 0 3, .decrement 3, .popExpired [0, 1, 2], .start 2 0 3]

theorem table_refines_map_two :
    ∃ m, TimerOp.Specs twoTimers .empty [none, none, none, some (2, 0), none] m ∧
      ((new : TimerTable 2).applyAll twoTimers).2.Represents m ∧
      ((new : TimerTable 2).applyAll twoTimers).2.DeadlineExact m :=
  @table_refines_map 2 twoTimers (by simp [twoTimers, TimerOp.Below])
    (fits_of_started (l := [(1, 0), (2, 0)]) le_rfl (by simp [twoTimers]; omega))

end TimerTable

end Hsmc
