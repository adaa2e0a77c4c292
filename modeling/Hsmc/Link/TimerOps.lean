import Mathlib.Algebra.Order.Group.Nat
import Hsmc.Link.Timers

/-
  What each call on a timer table does to the entries.

  With distinct keys an operation is known by the entries after it: `mem_start`,
  `mem_cancelState`, `mem_cancelOne`, `mem_decrement` and `mem_popExpired` say which these are,
  and `nodup_keys_apply` that the keys stay distinct. `popExpired_first` adds which expired
  entry is popped: the deepest, and of these the first in the vector.
-/

namespace Hsmc

namespace TimerTable

variable {n : Nat} {t t' : TimerTable n} {s k d : Nat}

/-- There is an entry or a place for the timer. -/
def Room (t : TimerTable n) (s k : Nat) : Prop := (s, k) ∈ t.keys ∨ t.keys.length < n

instance (t : TimerTable n) (s k : Nat) : Decidable (t.Room s k) :=
  inferInstanceAs (Decidable (_ ∨ _))

/-! ## Entries -/

/-- With distinct keys, an entry is found by its key. -/
theorem eq_of_key (hnd : t.keys.Nodup) {e e' : TimerEntry} (h : e ∈ t.entries.items)
    (h' : e' ∈ t.entries.items) (hkey : e.key = e'.key) : e = e' :=
  List.inj_on_of_nodup_map hnd h h' hkey

/-- Starting a timer leaves the others alone. -/
theorem mem_start_of_ne {e : TimerEntry} (he : e ∈ t.entries.items) (hkey : e.key ≠ (s, k)) :
    e ∈ (t.start s k d).entries.items := by
  rcases start_cases t s k d with ⟨-, hup⟩ | ⟨-, -, hitems⟩ | ⟨-, -, ht⟩
  · exact Bounded.mem_updateFirst_of_not (by simpa [TimerEntry.key] using hkey) hup he
  · rw [hitems]
    exact List.mem_append_left _ he
  · rwa [ht]

theorem mem_start_self (hroom : t.Room s k) :
    ⟨s, k, asU64 d⟩ ∈ (t.start s k d).entries.items := by
  rcases start_cases t s k d with ⟨-, hup⟩ | ⟨-, -, hitems⟩ | ⟨hno, hge, -⟩
  · obtain ⟨a, -, hp, ha⟩ := Bounded.exists_mem_of_updateFirst hup
    obtain ⟨rfl, rfl⟩ : a.state = s ∧ a.trigger = k := by simpa using hp
    exact ha
  · rw [hitems]
    simp
  · exact absurd hroom (by simp [Room, hno, hge])

theorem mem_start (hnd : t.keys.Nodup) (hroom : t.Room s k) {e : TimerEntry} :
    e ∈ (t.start s k d).entries.items ↔
      e = ⟨s, k, asU64 d⟩ ∨ (e ∈ t.entries.items ∧ e.key ≠ (s, k)) := by
  refine ⟨mem_items_start hnd, ?_⟩
  rintro (rfl | ⟨he, hkey⟩)
  · exact mem_start_self hroom
  · exact mem_start_of_ne he hkey

theorem start_of_not_room (hroom : ¬ t.Room s k) : t.start s k d = t := by
  rcases start_cases t s k d with ⟨hmem, -⟩ | ⟨-, hlt, -⟩ | ⟨-, -, ht⟩
  · exact absurd (.inl hmem) hroom
  · exact absurd (.inr hlt) hroom
  · exact ht

theorem mem_cancelState {e : TimerEntry} :
    e ∈ (t.cancelState s).entries.items ↔ e ∈ t.entries.items ∧ e.state ≠ s := by
  simp [cancelState, Bounded.filter]

theorem mem_cancelOne {e : TimerEntry} :
    e ∈ (t.cancelOne s k).entries.items ↔ e ∈ t.entries.items ∧ e.key ≠ (s, k) := by
  simp [cancelOne, Bounded.filter, TimerEntry.key, imp_iff_not_or]

theorem mem_decrement {e : TimerEntry} :
    e ∈ (t.decrement d).entries.items ↔
      ∃ e₀ ∈ t.entries.items, e = { e₀ with remainingNs := e₀.remainingNs - asU64 d } := by
  simp [decrement, eq_comm]

/-- Popping takes out one expired entry. -/
theorem mem_popExpired (hnd : t.keys.Nodup) {depth : List Nat} {x : Nat × Nat}
    (h : t.popExpired depth = some (x, t')) : ⟨x.1, x.2, 0⟩ ∈ t.entries.items ∧
      ∀ e, e ∈ t'.entries.items ↔ e ∈ t.entries.items ∧ e.key ≠ x := by
  obtain ⟨a, rfl, h0, hperm⟩ := popExpired_spec h
  have ha : a ∈ t.entries.items := hperm.subset List.mem_cons_self
  have hnd' : (a.key :: t'.keys).Nodup := (perm_keys_popExpired h).nodup_iff.mpr hnd
  refine ⟨?_, fun e => ⟨fun he => ⟨hperm.subset (List.mem_cons_of_mem _ he), ?_⟩, ?_⟩⟩
  · rw [← h0]
    exact ha
  · intro hkey
    exact (List.nodup_cons.mp hnd').1 (hkey ▸ key_mem_keys he)
  · rintro ⟨he, hkey⟩
    rcases List.mem_cons.mp (hperm.symm.subset he) with rfl | he
    · exact absurd rfl hkey
    · exact he

/-! ## Keys -/

@[simp] theorem keys_cancelOne (t : TimerTable n) (s k : Nat) :
    (t.cancelOne s k).keys = t.keys.filter fun x => x != (s, k) := by
  unfold keys cancelOne
  rw [List.filter_map]
  rfl

theorem apply_popExpired_some {depth : List Nat} {x : Nat × Nat}
    (h : t.popExpired depth = some (x, t')) : t.apply (.popExpired depth) = (some x, t') := by
  simp [apply, h]

theorem apply_popExpired_none {depth : List Nat} (h : t.popExpired depth = none) :
    t.apply (.popExpired depth) = (none, t) := by
  simp [apply, h]

theorem applyAll_cons (t : TimerTable n) (op : TimerOp) (ops : List TimerOp) :
    t.applyAll (op :: ops) =
      ((t.apply op).1 :: ((t.apply op).2.applyAll ops).1, ((t.apply op).2.applyAll ops).2) := rfl

theorem nodup_keys_apply (hnd : t.keys.Nodup) (op : TimerOp) : (t.apply op).2.keys.Nodup := by
  cases op with
  | start s k d => exact nodup_keys_start hnd s k d
  | cancelState s =>
      simp only [apply, keys_cancelState]
      exact hnd.filter _
  | cancelOne s k =>
      simp only [apply, keys_cancelOne]
      exact hnd.filter _
  | decrement d =>
      simp only [apply, keys_decrement]
      exact hnd
  | popExpired depth =>
      cases h : t.popExpired depth with
      | none =>
          rw [apply_popExpired_none h]
          exact hnd
      | some r =>
          obtain ⟨x, t'⟩ := r
          rw [apply_popExpired_some h]
          exact (List.nodup_cons.mp ((perm_keys_popExpired h).nodup_iff.mpr hnd)).2

theorem nodup_keys_applyAll : ∀ (ops : List TimerOp) {t : TimerTable n}, t.keys.Nodup →
    (t.applyAll ops).2.keys.Nodup
  | [], _, hnd => hnd
  | op :: ops, _, hnd => nodup_keys_applyAll ops (nodup_keys_apply hnd op)

theorem nodup_keys_new : (new : TimerTable n).keys.Nodup := List.nodup_nil

theorem applyAll_append (t : TimerTable n) (ops ops' : List TimerOp) :
    t.applyAll (ops ++ ops') = ((t.applyAll ops).1 ++ ((t.applyAll ops).2.applyAll ops').1,
      ((t.applyAll ops).2.applyAll ops').2) := by
  induction ops generalizing t with
  | nil => rfl
  | cons op ops ih =>
      rw [List.cons_append, applyAll_cons, applyAll_cons, ih]
      rfl

/-! ## Which entry is popped -/

/-- `b`, at index `i`, is the best of the first `m` entries. -/
structure BestOf (depth : List Nat) (l : List TimerEntry) (m i : Nat) (b : TimerEntry) : Prop where
  lt : i < m
  get : l[i]? = some b
  expired : b.remainingNs = 0
  deepest : ∀ j e, j < m → l[j]? = some e → e.remainingNs = 0 →
    depth.getD e.state 0 ≤ depth.getD b.state 0
  first : ∀ j e, j < i → l[j]? = some e → e.remainingNs = 0 →
    depth.getD e.state 0 < depth.getD b.state 0

/-- What the scan has found after `m` entries. -/
def Scanned (depth : List Nat) (l : List TimerEntry) (m : Nat) : Option Nat → Prop
  | none => ∀ j e, j < m → l[j]? = some e → e.remainingNs ≠ 0
  | some i => ∃ b, BestOf depth l m i b

theorem scanned_step {depth : List Nat} {l : List TimerEntry} {m : Nat} {e : TimerEntry}
    {best : Option Nat} (h : Scanned depth l m best) (he : l[m]? = some e) :
    Scanned depth l (m + 1) (scanExpired depth l best (e, m)) := by
  have hlast : ∀ {j x}, j < m + 1 → l[j]? = some x → j < m ∨ (j = m ∧ x = e) := by
    intro j x hj hx
    rcases Nat.lt_or_ge j m with hlt | hge
    · exact .inl hlt
    · obtain rfl : j = m := by omega
      rw [he] at hx
      cases hx
      exact .inr ⟨rfl, rfl⟩
  unfold scanExpired
  simp only
  by_cases h0 : e.remainingNs = 0
  · rw [if_pos h0]
    cases best with
    | none =>
        refine ⟨e, Nat.lt_succ_self m, he, h0, ?_, fun j x hj hx hx0 => absurd hx0 (h j x hj hx)⟩
        intro j x hj hx hx0
        rcases hlast hj hx with hlt | ⟨-, rfl⟩
        · exact absurd hx0 (h j x hlt hx)
        · exact le_rfl
    | some i =>
        obtain ⟨b, hb⟩ := h
        simp only [hb.get, Option.map_some, Option.getD_some]
        split
        · rename_i hdeep
          refine ⟨e, Nat.lt_succ_self m, he, h0, ?_, fun j x hj hx hx0 =>
            (hb.deepest j x hj hx hx0).trans_lt hdeep⟩
          intro j x hj hx hx0
          rcases hlast hj hx with hlt | ⟨-, rfl⟩
          · exact (hb.deepest j x hlt hx hx0).trans hdeep.le
          · exact le_rfl
        · rename_i hdeep
          refine ⟨b, hb.lt.trans (Nat.lt_succ_self m), hb.get, hb.expired, ?_, hb.first⟩
          intro j x hj hx hx0
          rcases hlast hj hx with hlt | ⟨-, rfl⟩
          · exact hb.deepest j x hlt hx hx0
          · exact Nat.le_of_not_gt hdeep
  · rw [if_neg h0]
    cases best with
    | none =>
        intro j x hj hx
        rcases hlast hj hx with hlt | ⟨-, rfl⟩
        · exact h j x hlt hx
        · exact h0
    | some i =>
        obtain ⟨b, hb⟩ := h
        refine ⟨b, hb.lt.trans (Nat.lt_succ_self m), hb.get, hb.expired, ?_, hb.first⟩
        intro j x hj hx hx0
        rcases hlast hj hx with hlt | ⟨-, rfl⟩
        · exact hb.deepest j x hlt hx hx0
        · exact absurd hx0 h0

theorem scanned_bestExpired (depth : List Nat) (l : List TimerEntry) :
    Scanned depth l l.length (bestExpired depth l) := by
  have htake : ∀ m, m ≤ l.length →
      Scanned depth l m ((l.zipIdx.take m).foldl (scanExpired depth l) none) := by
    intro m
    induction m with
    | zero => exact fun _ j e hj => absurd hj (Nat.not_lt_zero j)
    | succ m ih =>
        intro hm
        have hget : l.zipIdx[m]? = some (l[m], m) := by simp
        rw [List.take_add_one, hget, Option.toList_some, List.foldl_append]
        exact scanned_step (ih (by omega)) (List.getElem?_eq_getElem hm)
  have h := htake l.length le_rfl
  rwa [List.take_of_length_le (by simp)] at h

/-- The popped entry, its index, and why it was chosen. -/
theorem popExpired_first {depth : List Nat} {x : Nat × Nat}
    (h : t.popExpired depth = some (x, t')) : ∃ i b,
      BestOf depth t.entries.items t.entries.items.length i b ∧ b.key = x ∧
        t' = ⟨t.entries.swapRemove i⟩ := by
  unfold popExpired at h
  obtain ⟨i, hi, h⟩ := Option.bind_eq_some_iff.mp h
  obtain ⟨e, he, h⟩ := Option.map_eq_some_iff.mp h
  cases h
  have hscan := scanned_bestExpired depth t.entries.items
  rw [hi] at hscan
  obtain ⟨b, hb⟩ := hscan
  have hbe := hb.get
  rw [he] at hbe
  cases hbe
  exact ⟨i, e, hb, rfl, rfl⟩

end TimerTable

end Hsmc
