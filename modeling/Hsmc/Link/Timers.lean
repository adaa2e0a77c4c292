import Mathlib.Data.List.Nodup
import Hsmc.Runtime.Timers

/-
  What the timer operations do to the keys and to the entries of the table.

  A table with distinct keys keeps them distinct under every operation. `start` puts a timer in
  the table unless the table is full (`start_cases`); `popExpired` takes out one entry, whose
  time has run out (`popExpired_spec`), and nothing only when no entry is `expired`.
-/

namespace Hsmc

namespace TimerTable

variable {n : Nat} {t t' : TimerTable n} {s k d : Nat}

theorem length_keys : t.keys.length = t.entries.items.length := List.length_map _

theorem key_mem_keys {e : TimerEntry} (h : e ∈ t.entries.items) : e.key ∈ t.keys :=
  List.mem_map_of_mem h

theorem mem_keys_iff : (s, k) ∈ t.keys ↔ ∃ e ∈ t.entries.items, e.state = s ∧ e.trigger = k := by
  unfold keys TimerEntry.key
  simp

/-! ## `start` -/

/-- The three cases of `start`: the entry is there, it is added, or the table is full. -/
theorem start_cases (t : TimerTable n) (s k d : Nat) :
    ((s, k) ∈ t.keys ∧ Bounded.updateFirst (fun e => e.state == s && e.trigger == k)
        (fun e : TimerEntry => { e with remainingNs := asU64 d }) t.entries.items =
          some (t.start s k d).entries.items) ∨
      ((s, k) ∉ t.keys ∧ t.keys.length < n ∧
        (t.start s k d).entries.items = t.entries.items ++ [⟨s, k, asU64 d⟩]) ∨
      ((s, k) ∉ t.keys ∧ n ≤ t.keys.length ∧ t.start s k d = t) := by
  unfold start
  cases hup : t.entries.update (fun e => e.state == s && e.trigger == k)
      (fun e => { e with remainingNs := asU64 d }) with
  | some entries =>
      refine Or.inl ⟨?_, by simp only [hup]; exact Bounded.items_of_update hup⟩
      obtain ⟨e, he, hp, -⟩ := Bounded.exists_mem_of_updateFirst (Bounded.items_of_update hup)
      exact mem_keys_iff.mpr ⟨e, he, by simpa using hp⟩
  | none =>
      have hno : (s, k) ∉ t.keys := by
        rw [mem_keys_iff]
        rintro ⟨e, he, hs, hk⟩
        have := Bounded.update_eq_none_iff.mp hup e he
        simp [hs, hk] at this
      right
      rcases Nat.lt_or_ge t.entries.items.length n with hlt | hge
      · obtain ⟨b, hb, hitems⟩ := Bounded.push_of_lt (⟨s, k, asU64 d⟩ : TimerEntry) hlt
        exact Or.inl ⟨hno, by rwa [length_keys], by simp only [hup, hb]; exact hitems⟩
      · refine Or.inr ⟨hno, by rwa [length_keys], ?_⟩
        simp only [hup, Bounded.push_of_full _ hge]

theorem keys_start_of_mem (h : (s, k) ∈ t.keys) (d : Nat) : (t.start s k d).keys = t.keys := by
  rcases start_cases t s k d with ⟨-, hup⟩ | ⟨hno, -⟩ | ⟨hno, -⟩
  · exact Bounded.map_of_updateFirst (f := fun e => { e with remainingNs := asU64 d })
      (fun _ _ => rfl) hup
  · exact absurd h hno
  · exact absurd h hno

theorem keys_start_of_lt (h : (s, k) ∉ t.keys) (hlt : t.keys.length < n) (d : Nat) :
    (t.start s k d).keys = t.keys ++ [(s, k)] := by
  rcases start_cases t s k d with ⟨hmem, -⟩ | ⟨-, -, hitems⟩ | ⟨-, hge, -⟩
  · exact absurd hmem h
  · unfold keys
    rw [hitems, List.map_append]
    rfl
  · omega

/-- The keys after `start` are those before, and perhaps the new one. -/
theorem keys_start_cases (t : TimerTable n) (s k d : Nat) :
    (t.start s k d).keys = t.keys ∨
      ((s, k) ∉ t.keys ∧ (t.start s k d).keys = t.keys ++ [(s, k)]) := by
  rcases start_cases t s k d with ⟨hmem, -⟩ | ⟨hno, hlt, -⟩ | ⟨-, -, he⟩
  · exact Or.inl (keys_start_of_mem hmem d)
  · exact Or.inr ⟨hno, keys_start_of_lt hno hlt d⟩
  · exact Or.inl (by rw [he])

theorem nodup_keys_start (h : t.keys.Nodup) (s k d : Nat) : (t.start s k d).keys.Nodup := by
  rcases keys_start_cases t s k d with he | ⟨hno, he⟩ <;> rw [he]
  · exact h
  · simpa using List.Nodup.concat hno h

theorem mem_of_mem_keys_start {x : Nat × Nat} (h : x ∈ (t.start s k d).keys) :
    x ∈ t.keys ∨ x = (s, k) := by
  rcases keys_start_cases t s k d with he | ⟨-, he⟩ <;> rw [he] at h
  · exact Or.inl h
  · simpa using h

/-- With distinct keys, every entry after `start` is the new one or an old one of another key. -/
theorem mem_items_start (hnd : t.keys.Nodup) {e : TimerEntry}
    (h : e ∈ (t.start s k d).entries.items) :
    e = ⟨s, k, asU64 d⟩ ∨ (e ∈ t.entries.items ∧ e.key ≠ (s, k)) := by
  by_cases hkey : e.key = (s, k)
  · left
    rcases start_cases t s k d with ⟨-, hup⟩ | ⟨hno, -, hitems⟩ | ⟨hno, -, he⟩
    · obtain ⟨a, -, hp, ha⟩ := Bounded.exists_mem_of_updateFirst hup
      obtain ⟨rfl, rfl⟩ : a.state = s ∧ a.trigger = k := by simpa using hp
      have hnd' := nodup_keys_start hnd a.state a.trigger d
      exact List.inj_on_of_nodup_map hnd' h ha hkey
    · rw [hitems, List.mem_append, List.mem_singleton] at h
      exact h.resolve_left fun h => hno (hkey ▸ key_mem_keys h)
    · rw [he] at h
      exact absurd (hkey ▸ key_mem_keys h) hno
  · right
    refine ⟨?_, hkey⟩
    rcases start_cases t s k d with ⟨-, hup⟩ | ⟨-, -, hitems⟩ | ⟨-, -, he⟩
    · rcases Bounded.mem_of_updateFirst hup h with h | ⟨a, -, hp, rfl⟩
      · exact h
      · have hp : a.state = s ∧ a.trigger = k := by simpa using hp
        exact absurd (by simp [TimerEntry.key, hp]) hkey
    · rw [hitems, List.mem_append, List.mem_singleton] at h
      refine h.resolve_right ?_
      rintro rfl
      exact hkey rfl
    · rwa [he] at h

/-! ## The other operations -/

@[simp] theorem keys_cancelState (t : TimerTable n) (s : Nat) :
    (t.cancelState s).keys = t.keys.filter fun x => x.1 != s := by
  unfold keys cancelState
  rw [List.filter_map]
  rfl

@[simp] theorem keys_decrement (t : TimerTable n) (elapsed : Nat) :
    (t.decrement elapsed).keys = t.keys := by
  unfold keys decrement
  rw [Bounded.items_map, List.map_map]
  rfl

/-- The scan only ever selects an entry whose time has run out. -/
theorem bestExpired_spec {depth : List Nat} {l : List TimerEntry} {i : Nat}
    (h : bestExpired depth l = some i) : ∃ e, l[i]? = some e ∧ e.remainingNs = 0 := by
  have hscan : ∀ (items : List (TimerEntry × Nat)) (best : Option Nat),
      (∀ x ∈ items, l[x.2]? = some x.1) →
      (∀ j, best = some j → ∃ e, l[j]? = some e ∧ e.remainingNs = 0) →
      ∀ j, items.foldl (scanExpired depth l) best = some j →
        ∃ e, l[j]? = some e ∧ e.remainingNs = 0 := by
    intro items
    induction items with
    | nil => exact fun best _ hbest => hbest
    | cons x items ih =>
        intro best hitems hbest
        refine ih _ (fun y hy => hitems y (List.mem_cons_of_mem _ hy)) ?_
        intro j hj
        have hx := hitems x List.mem_cons_self
        unfold scanExpired at hj
        simp only at hj
        split at hj
        · rename_i h0
          split at hj
          · cases hj
            exact ⟨x.1, hx, h0⟩
          · split at hj
            · cases hj
              exact ⟨x.1, hx, h0⟩
            · exact hbest j hj
        · exact hbest j hj
  refine hscan l.zipIdx none ?_ (by simp) i h
  rintro ⟨e, j⟩ hx
  exact List.mem_zipIdx_iff_getElem?.mp hx

/-- What is popped was in the table with no time left, and the rest stays. -/
theorem popExpired_spec {depth : List Nat} {x : Nat × Nat} (h : t.popExpired depth = some (x, t')) :
    ∃ e, e.key = x ∧ e.remainingNs = 0 ∧ (e :: t'.entries.items).Perm t.entries.items := by
  unfold popExpired at h
  obtain ⟨i, hi, h⟩ := Option.bind_eq_some_iff.mp h
  obtain ⟨e, he, h⟩ := Option.map_eq_some_iff.mp h
  cases h
  obtain ⟨e', he', h0⟩ := bestExpired_spec hi
  rw [he] at he'
  cases he'
  obtain ⟨hlt, rfl⟩ := List.getElem?_eq_some_iff.mp he
  exact ⟨_, rfl, h0, Bounded.perm_swapRemove hlt⟩

theorem perm_keys_popExpired {depth : List Nat} {x : Nat × Nat}
    (h : t.popExpired depth = some (x, t')) : (x :: t'.keys).Perm t.keys := by
  obtain ⟨e, rfl, -, hperm⟩ := popExpired_spec h
  exact hperm.map TimerEntry.key

/-! ## Expired entries -/

/-- The entries whose time has run out. -/
def expired (t : TimerTable n) : List TimerEntry :=
  t.entries.items.filter fun e => e.remainingNs == 0

theorem mem_expired {e : TimerEntry} :
    e ∈ t.expired ↔ e ∈ t.entries.items ∧ e.remainingNs = 0 := by
  simp [expired]

/-- A timer with time to run is not expired when it starts. -/
theorem length_expired_start_le (hd : asU64 d ≠ 0) :
    (t.start s k d).expired.length ≤ t.expired.length := by
  unfold expired
  rcases start_cases t s k d with ⟨-, hup⟩ | ⟨-, -, hitems⟩ | ⟨-, -, he⟩
  · exact (Bounded.filter_sublist_of_updateFirst (fun _ => by simpa using hd) hup).length_le
  · rw [hitems, List.filter_append]
    simp [hd]
  · exact Nat.le_of_eq (by rw [he])

theorem length_expired_cancelState_le (s : Nat) :
    (t.cancelState s).expired.length ≤ t.expired.length :=
  (List.filter_sublist.filter _).length_le

@[simp] theorem decrement_zero (t : TimerTable n) : t.decrement 0 = t := by
  have hmap : t.entries.items.map (fun e : TimerEntry =>
      { e with remainingNs := e.remainingNs - asU64 0 }) = t.entries.items := List.map_id _
  obtain ⟨⟨items, hle⟩⟩ := t
  unfold decrement Bounded.map
  simp only [TimerTable.mk.injEq, Bounded.mk.injEq]
  exact hmap

theorem length_expired_popExpired {depth : List Nat} {x : Nat × Nat}
    (h : t.popExpired depth = some (x, t')) : t'.expired.length + 1 = t.expired.length := by
  obtain ⟨e, -, h0, hperm⟩ := popExpired_spec h
  have := (hperm.filter fun e => e.remainingNs == 0).length_eq
  rw [List.filter_cons, h0, if_pos (by simp), List.length_cons] at this
  exact this

theorem scanExpired_foldl_eq_none_iff {depth : List Nat} {l : List TimerEntry} :
    ∀ {items : List (TimerEntry × Nat)} {best : Option Nat},
      items.foldl (scanExpired depth l) best = none ↔
        best = none ∧ ∀ x ∈ items, x.1.remainingNs ≠ 0
  | [], best => by simp
  | (e, i) :: items, best => by
      rw [List.foldl_cons, scanExpired_foldl_eq_none_iff, List.forall_mem_cons]
      unfold scanExpired
      by_cases h0 : e.remainingNs = 0
      · cases best with
        | none => simp [h0]
        | some bi =>
            simp only [h0, ↓reduceIte]
            split <;> simp
      · simp [h0]

/-- Nothing is popped exactly when nothing is expired. -/
theorem popExpired_eq_none_iff {depth : List Nat} : t.popExpired depth = none ↔ t.expired = [] := by
  have hbest : bestExpired depth t.entries.items = none ↔ t.expired = [] := by
    unfold bestExpired expired
    rw [scanExpired_foldl_eq_none_iff, List.filter_eq_nil_iff]
    simp only [true_and, beq_iff_eq]
    refine ⟨fun h e he => ?_, fun h x hx => h _ (List.fst_mem_of_mem_zipIdx hx)⟩
    obtain ⟨i, hi⟩ := List.mem_iff_getElem?.mp he
    exact h (e, i) (List.mem_zipIdx_iff_getElem?.mpr hi)
  rw [← hbest]
  unfold popExpired
  cases hb : bestExpired depth t.entries.items with
  | none => simp
  | some i =>
      obtain ⟨e, he, -⟩ := bestExpired_spec hb
      simp [he]

end TimerTable

end Hsmc
