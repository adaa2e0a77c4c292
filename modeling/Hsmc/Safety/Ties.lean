import Hsmc.Link.TimerOps

/-
  Timers that expire together.

  Of the expired timers of the deepest state the scan takes the first in the vector, which is to
  be the one inserted first. But `swap_remove` moves the last entry into the hole, so a pop
  keeps the order of insertion only when at most one entry stands behind the one it removes
  (`KeepsOrder`). `pops_in_order` is about the runs whose pops do; a table with three places has
  others (`order_broken`).
-/

namespace Hsmc

/-- The live pairs in the order of their insertion, after a call on a table with `n` places. -/
def TimerOp.order (n : Nat) (o : List (Nat × Nat)) (op : TimerOp) (answer : Option (Nat × Nat)) :
    List (Nat × Nat) :=
  match op with
  | .start s k _ => if (s, k) ∈ o ∨ n ≤ o.length then o else o ++ [(s, k)]
  | .cancelState s => o.filter fun x => x.1 != s
  | .cancelOne s k => o.filter fun x => x != (s, k)
  | .decrement _ => o
  | .popExpired _ =>
      match answer with
      | some x => o.erase x
      | none => o

namespace TimerTable

variable {n : Nat} {t : TimerTable n} {o : List (Nat × Nat)}

/-- `x` is expired, no expired timer is deeper, and none as deep was inserted before it. -/
def IsDue (depth : List Nat) (t : TimerTable n) (o : List (Nat × Nat)) (x : Nat × Nat) : Prop :=
  ∃ e ∈ t.expired, e.key = x ∧ ∀ e' ∈ t.expired,
    depth.getD e'.state 0 < depth.getD e.state 0 ∨
      (depth.getD e'.state 0 = depth.getD e.state 0 ∧ o.idxOf x ≤ o.idxOf e'.key)

/-- A pop returns the timer that is due. -/
def PopsInOrder (depth : List Nat) (t : TimerTable n) (o : List (Nat × Nat)) : Prop :=
  match (t.apply (.popExpired depth)).1 with
  | some x => IsDue depth t o x
  | none => t.expired = []

/-- The tables, and the orders of insertion, that calls with `P` lead to. -/
inductive InsertionRun (P : TimerTable n → List (Nat × Nat) → TimerOp → Prop) :
    TimerTable n → List (Nat × Nat) → Prop where
  | new : InsertionRun P new []
  | call {t : TimerTable n} {o : List (Nat × Nat)} {op : TimerOp} : InsertionRun P t o →
      P t o op → InsertionRun P (t.apply op).2 (op.order n o (t.apply op).1)

/-- A pop with at most one live entry that was inserted after the one due. -/
def KeepsOrder (t : TimerTable n) (o : List (Nat × Nat)) (op : TimerOp) : Prop :=
  ∀ depth x, op = .popExpired depth → IsDue depth t o x → o.length ≤ o.idxOf x + 2

/-! ## The vector is in the order of insertion -/

/-- The entry that is popped from a table in the order of insertion. -/
theorem isDue_of_bestOf (hnd : t.keys.Nodup) {depth : List Nat} {i : Nat} {b : TimerEntry}
    (hb : BestOf depth t.entries.items t.entries.items.length i b) :
    IsDue depth t t.keys b.key ∧ t.keys.idxOf b.key = i := by
  have hidx : ∀ {j e}, t.entries.items[j]? = some e → t.keys.idxOf e.key = j := by
    intro j e he
    obtain ⟨hj, rfl⟩ := List.getElem?_eq_some_iff.mp he
    have hj' : j < t.keys.length := by rwa [length_keys]
    have hget : t.keys[j] = (t.entries.items[j]).key := List.getElem_map _
    rw [← hget, hnd.idxOf_getElem]
  refine ⟨⟨b, mem_expired.mpr ⟨List.mem_of_getElem? hb.get, hb.expired⟩, rfl, ?_⟩, hidx hb.get⟩
  intro e' he'
  obtain ⟨he', h0⟩ := mem_expired.mp he'
  obtain ⟨j, hj⟩ := List.mem_iff_getElem?.mp he'
  have hle := hb.deepest j e' (List.getElem?_eq_some_iff.mp hj).1 hj h0
  rw [hidx hb.get, hidx hj]
  rcases Nat.lt_or_eq_of_le hle with hlt | heq
  · exact .inl hlt
  · refine .inr ⟨heq, Nat.le_of_not_lt fun hji => ?_⟩
    exact absurd heq (hb.first j e' hji hj h0).ne

theorem popsInOrder_of_keys (hnd : t.keys.Nodup) (depth : List Nat) :
    PopsInOrder depth t t.keys := by
  unfold PopsInOrder
  cases hpop : t.popExpired depth with
  | none =>
      rw [apply_popExpired_none hpop]
      exact popExpired_eq_none_iff.mp hpop
  | some p =>
      obtain ⟨x, t'⟩ := p
      obtain ⟨i, b, hb, rfl, -⟩ := popExpired_first hpop
      rw [apply_popExpired_some hpop]
      exact (isDue_of_bestOf hnd hb).1

theorem keys_apply (hnd : t.keys.Nodup) {op : TimerOp} (hkeeps : KeepsOrder t t.keys op) :
    (t.apply op).2.keys = op.order n t.keys (t.apply op).1 := by
  cases op with
  | start s k d =>
      show (t.start s k d).keys = if (s, k) ∈ t.keys ∨ n ≤ t.keys.length then _ else _
      by_cases hmem : (s, k) ∈ t.keys
      · rw [if_pos (.inl hmem), keys_start_of_mem hmem]
      · rcases Nat.lt_or_ge t.keys.length n with hlt | hge
        · rw [if_neg (by simp [hmem, hlt]), keys_start_of_lt hmem hlt]
        · rw [if_pos (.inr hge), start_of_not_room (by simp [Room, hmem, hge])]
  | cancelState s => exact keys_cancelState t s
  | cancelOne s k => exact keys_cancelOne t s k
  | decrement e => exact keys_decrement t e
  | popExpired depth =>
      cases hpop : t.popExpired depth with
      | none =>
          rw [apply_popExpired_none hpop]
          rfl
      | some p =>
          obtain ⟨x, t'⟩ := p
          obtain ⟨i, b, hb, rfl, rfl⟩ := popExpired_first hpop
          rw [apply_popExpired_some hpop]
          obtain ⟨hdue, hidx⟩ := isDue_of_bestOf hnd hb
          have hlast := hkeeps depth b.key rfl hdue
          rw [hidx, length_keys] at hlast
          show List.map _ (t.entries.swapRemove i).items = t.keys.erase b.key
          rw [Bounded.items_swapRemove_of_last hb.lt hlast, ← List.eraseIdx_map]
          obtain ⟨hi, rfl⟩ := List.getElem?_eq_some_iff.mp hb.get
          have hi' : i < t.keys.length := by rwa [length_keys]
          rw [show (t.entries.items[i]).key = t.keys[i] from (List.getElem_map _).symm,
            hnd.erase_getElem]
          rfl

theorem InsertionRun.keys_eq (h : InsertionRun KeepsOrder t o) : t.keys.Nodup ∧ t.keys = o := by
  induction h with
  | new => exact ⟨nodup_keys_new, rfl⟩
  | call _ hkeeps ih =>
      obtain ⟨hnd, rfl⟩ := ih
      exact ⟨nodup_keys_apply hnd _, keys_apply hnd hkeeps⟩

/-! ## A pop that changes the order -/

theorem popExpired_of_best {depth : List Nat} {i : Nat} {e : TimerEntry}
    (hbest : bestExpired depth t.entries.items = some i) (he : t.entries.items[i]? = some e) :
    t.popExpired depth = some (e.key, ⟨t.entries.swapRemove i⟩) := by
  unfold popExpired
  rw [hbest, Option.bind_some, he, Option.map_some]

/-- A timer that is new to a table with a place for it goes to the end. -/
theorem InsertionRun.start_new {l : List TimerEntry} (ht : t.entries.items = l)
    (h : InsertionRun (fun _ _ _ => True) t (l.map TimerEntry.key)) {s k d : Nat}
    (hno : (s, k) ∉ l.map TimerEntry.key) (hlt : l.length < n) :
    ∃ t' : TimerTable n, t'.entries.items = l ++ [⟨s, k, asU64 d⟩] ∧
      InsertionRun (fun _ _ _ => True) t'
        ((l ++ [(⟨s, k, asU64 d⟩ : TimerEntry)]).map TimerEntry.key) := by
  subst ht
  refine ⟨t.start s k d, ?_, ?_⟩
  · rcases start_cases t s k d with ⟨hmem, -⟩ | ⟨-, -, hitems⟩ | ⟨-, hge, -⟩
    · exact absurd hmem hno
    · exact hitems
    · rw [length_keys] at hge
      omega
  · have hnext : InsertionRun _ (t.apply (.start s k d)).2 _ := h.call trivial
    rw [show TimerOp.order n _ (.start s k d) _ = _ from
      if_neg (by simpa [hlt] using hno)] at hnext
    rw [List.map_append]
    exact hnext

/-- Three timers of one state; when the first is popped, the third moves in front of the second,
    and both run out. -/
theorem order_broken (hn : 3 ≤ n) :
    ∃ t o, InsertionRun (fun _ _ _ => True) (t : TimerTable n) o ∧ ¬ PopsInOrder [] t o := by
  obtain ⟨t₁, i₁, h₁⟩ := InsertionRun.start_new (t := (new : TimerTable n)) (l := []) (s := 0)
    (k := 0) (d := 0) rfl .new (by decide) (Nat.lt_of_lt_of_le (by decide) hn)
  obtain ⟨t₂, i₂, h₂⟩ := InsertionRun.start_new (s := 0) (k := 1) (d := 1) i₁ h₁ (by decide)
    (Nat.lt_of_lt_of_le (by decide) hn)
  obtain ⟨t₃, i₃, h₃⟩ := InsertionRun.start_new (s := 0) (k := 2) (d := 1) i₂ h₂ (by decide)
    (Nat.lt_of_lt_of_le (by decide) hn)
  have hpop : t₃.popExpired [] = some ((0, 0), ⟨t₃.entries.swapRemove 0⟩) :=
    popExpired_of_best (e := ⟨0, 0, 0⟩) (by rw [i₃]; decide) (by rw [i₃]; rfl)
  have h₄ : InsertionRun _ (t₃.apply (.popExpired [])).2 _ := h₃.call trivial
  rw [apply_popExpired_some hpop] at h₄
  have i₅ : ((⟨t₃.entries.swapRemove 0⟩ : TimerTable n).decrement 1).entries.items =
      [⟨0, 2, 0⟩, ⟨0, 1, 0⟩] := by
    show (t₃.entries.swapRemove 0).items.map _ = _
    rw [Bounded.items_swapRemove i₃]
    rfl
  have h₅ : InsertionRun _ (apply ⟨t₃.entries.swapRemove 0⟩ (.decrement 1)).2 _ :=
    h₄.call trivial
  refine ⟨_, _, h₅, ?_⟩
  show ¬ PopsInOrder [] ((⟨t₃.entries.swapRemove 0⟩ : TimerTable n).decrement 1)
    [(0, 1), (0, 2)]
  generalize (⟨t₃.entries.swapRemove 0⟩ : TimerTable n).decrement 1 = t at i₅
  have hlast : t.popExpired [] = some ((0, 2), ⟨t.entries.swapRemove 0⟩) :=
    popExpired_of_best (e := ⟨0, 2, 0⟩) (by rw [i₅]; decide) (by rw [i₅]; rfl)
  unfold PopsInOrder
  rw [apply_popExpired_some hlast]
  rintro ⟨e, -, hkey, hfirst⟩
  rcases hfirst ⟨0, 1, 0⟩ (by simp [expired, i₅]) with hlt | ⟨-, hle⟩
  · simp at hlt
  · exact absurd hle (by decide)

/-- In a run whose pops keep the order, every pop returns the timer that is due. All runs of a
    table are like this when it has at most two places, and only then. -/
theorem pops_in_order :
    (∀ t o, InsertionRun KeepsOrder (t : TimerTable n) o → ∀ depth, PopsInOrder depth t o) ∧
    ((∀ t o, InsertionRun (fun _ _ _ => True) (t : TimerTable n) o →
      ∀ depth, PopsInOrder depth t o) ↔ n ≤ 2) := by
  have hrun : ∀ t o, InsertionRun KeepsOrder (t : TimerTable n) o →
      ∀ depth, PopsInOrder depth t o := by
    intro t o h depth
    obtain ⟨hnd, rfl⟩ := h.keys_eq
    exact popsInOrder_of_keys hnd depth
  refine ⟨hrun, fun h => ?_, fun hn t o h => hrun t o ?_⟩
  · by_contra hn
    obtain ⟨t, o, hto, hbad⟩ := order_broken (n := n) (by omega)
    exact hbad (h t o hto [])
  · induction h with
    | new => exact .new
    | @call t o op _ _ ih =>
        refine ih.call fun depth x _ _ => ?_
        obtain ⟨-, rfl⟩ := ih.keys_eq
        have := t.entries.length_le
        rw [length_keys]
        omega

/-- With three timers in the table, of which the first runs out last, a pop keeps the order: the
    one that is due has only one entry behind it. -/
theorem keepsOrder_three : KeepsOrder
    ((new : TimerTable 3).applyAll [.start 0 7 9, .start 0 3 5, .start 0 1 5, .decrement 5]).2
      [(0, 7), (0, 3), (0, 1)] (.popExpired [0]) := by
  rintro depth x - ⟨e, he, rfl, -⟩
  have hall : ∀ e ∈ ((new : TimerTable 3).applyAll
      [.start 0 7 9, .start 0 3 5, .start 0 1 5, .decrement 5]).2.expired,
      3 ≤ List.idxOf e.key [(0, 7), (0, 3), (0, 1)] + 2 := by
    decide
  exact hall e he

theorem pops_in_order_two : PopsInOrder [0]
    ((new : TimerTable 2).applyAll [.start 0 7 5, .start 0 3 5, .decrement 5]).2
      [(0, 7), (0, 3)] ∧
    PopsInOrder [0] ((new : TimerTable 3).applyAll
      [.start 0 7 9, .start 0 3 5, .start 0 1 5, .decrement 5, .popExpired [0], .decrement 4]).2
      [(0, 7), (0, 1)] := by
  constructor
  · let P : TimerTable 2 → List (Nat × Nat) → TimerOp → Prop := fun _ _ _ => True
    have h₁ := @InsertionRun.call 2 P _ _ (.start 0 7 5) .new trivial
    have h₂ := @InsertionRun.call 2 P _ _ (.start 0 3 5) h₁ trivial
    have h₃ := @InsertionRun.call 2 P _ _ (.decrement 5) h₂ trivial
    exact pops_in_order.2.mpr le_rfl _ _ h₃ [0]
  · have h₁ := @InsertionRun.call 3 KeepsOrder _ _ (.start 0 7 9) .new nofun
    have h₂ := @InsertionRun.call 3 KeepsOrder _ _ (.start 0 3 5) h₁ nofun
    have h₃ := @InsertionRun.call 3 KeepsOrder _ _ (.start 0 1 5) h₂ nofun
    have h₄ := @InsertionRun.call 3 KeepsOrder _ _ (.decrement 5) h₃ nofun
    have h₅ := @InsertionRun.call 3 KeepsOrder _ _ (.popExpired [0]) h₄ keepsOrder_three
    have h₆ := @InsertionRun.call 3 KeepsOrder _ _ (.decrement 4) h₅ nofun
    exact pops_in_order.1 _ _ h₆ [0]

/-- Trigger 1 is started before trigger 2, both run out at once, and 2 is popped first. -/
theorem ties_out_of_order :
    ((new : TimerTable 3).applyAll [.start 0 0 0, .start 0 1 1, .start 0 2 1, .popExpired [0],
      .decrement 1, .popExpired [0], .popExpired [0]]).1 =
      [none, none, none, some (0, 0), none, some (0, 2), some (0, 1)] ∧
    ¬ ∀ t o, InsertionRun (fun _ _ _ => True) (t : TimerTable 3) o →
      ∀ depth, PopsInOrder depth t o := by
  refine ⟨by decide, fun h => ?_⟩
  obtain ⟨t, o, hto, hbad⟩ := order_broken (n := 3) le_rfl
  exact hbad (h t o hto [])

end TimerTable

end Hsmc
