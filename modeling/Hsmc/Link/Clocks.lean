import Hsmc.Link.Glossary
import Hsmc.Link.TimerOps
import Hsmc.Safety.Timers

/-
  The timer table and the times left.

  `Clocks G st tt left`: the table `tt` holds timers of the states `st` only, and `left` is the
  table read with the names of the glossary. Each operation of the machine on its table is the
  operation of the same purpose on `left`: starting (`Clocks.arm`), cancelling a state
  (`Clocks.disarm`), the passing of time (`Clocks.tick`) and popping (`Clocks.fire`). Starting
  needs room in the table, which the states of one path have (`Glossary.room`).
-/

/-- The least element depends on the elements alone. -/
theorem List.min?_congr {l l' : List Nat} (h : ∀ r, r ∈ l ↔ r ∈ l') : l.min? = l'.min? := by
  cases hl : l.min? with
  | none =>
      rw [List.min?_eq_none_iff] at hl
      have hl' : l' = [] := List.eq_nil_iff_forall_not_mem.mpr fun r hr => by
        have := (h r).mpr hr
        rw [hl] at this
        cases this
      rw [hl', List.min?_nil]
  | some a =>
      rw [List.min?_eq_some_iff] at hl
      symm
      rw [List.min?_eq_some_iff]
      exact ⟨(h a).mp hl.1, fun b hb => hl.2 b ((h b).mpr hb)⟩

namespace Hsmc

variable {Ev Ctx Val : Type} {tn : Nat} {input : StatechartInput} {c : Chart} {n : TraceNames}
  {u : UserCode Ev Ctx Val}

/-- The table holds the timers of `st` that are live, each with the time it has left. -/
structure Clocks (G : Glossary input c n u) (st : List Nat) (tt : TimerTable tn)
    (left : Ident × Timer → Option Nat) : Prop where
  nodup : tt.keys.Nodup
  owned : ∀ e ∈ tt.entries.items, e.state ∈ st ∧ e.trigger ∈ c.ownedTimers e.state
  left_iff : ∀ {x t r}, left (x, t) = some r ↔ ∃ s ∈ st, (G.decl s).name = x ∧
    t ∈ (G.decl s).timers ∧ ⟨s, G.tid t, r⟩ ∈ tt.entries.items

/-- Timers of different names have different keys. -/
theorem Glossary.key_ne (G : Glossary input c n u) {s s' : Nat} (hs : s < c.nStates)
    (hs' : s' < c.nStates) {t t' : Timer} (ht : t ∈ (G.decl s).timers)
    (ht' : t' ∈ (G.decl s').timers) (hne : ((G.decl s').name, t') ≠ ((G.decl s).name, t)) :
    (s', G.tid t') ≠ (s, G.tid t) := by
  intro hk
  obtain ⟨rfl, htid⟩ := Prod.mk.inj hk
  have htt := G.tid_inj hs ht (G.timer hs' ht').1 htid.symm
  exact hne (by rw [htt])

namespace Clocks

variable {G : Glossary input c n u} {st : List Nat} {tt tt' : TimerTable tn}
  {left : Ident × Timer → Option Nat}

theorem new : Clocks G [] (TimerTable.new : TimerTable tn) fun _ => none where
  nodup := List.nodup_nil
  owned := by simp [TimerTable.new, Bounded.empty]
  left_iff := by simp

/-- A state that is about to be active has no timers yet. -/
theorem cons (h : Clocks G st tt left) (s : Nat) : Clocks G (s :: st) tt left where
  nodup := h.nodup
  owned e he := ⟨List.mem_cons_of_mem _ (h.owned e he).1, (h.owned e he).2⟩
  left_iff := by
    intro x t r
    rw [h.left_iff]
    constructor
    · rintro ⟨s', hs', hrest⟩
      exact ⟨s', List.mem_cons_of_mem _ hs', hrest⟩
    · rintro ⟨s', hs', hx, ht, he⟩
      exact ⟨s', (h.owned _ he).1, hx, ht, he⟩

section

variable (hst : ∀ x ∈ st, x < c.nStates)
include hst

/-- An entry of the table, by name. -/
theorem entry (h : Clocks G st tt left) {e : TimerEntry} (he : e ∈ tt.entries.items) :
    e.state ∈ st ∧ ∃ t ∈ (G.decl e.state).timers, e.trigger = G.tid t ∧
      left ((G.decl e.state).name, t) = some e.remainingNs := by
  obtain ⟨hmem, hown⟩ := h.owned e he
  rw [G.ownedTimers (hst _ hmem)] at hown
  obtain ⟨t, ht, htid⟩ := List.mem_map.mp hown
  refine ⟨hmem, t, ht, htid.symm, h.left_iff.mpr ⟨e.state, hmem, rfl, ht, ?_⟩⟩
  rw [htid]
  exact he

/-- The times left of an active state's timers. -/
theorem left_name (h : Clocks G st tt left) {s : Nat} (hs : s ∈ st) {t : Timer} {r : Nat} :
    left ((G.decl s).name, t) = some r ↔
      t ∈ (G.decl s).timers ∧ ⟨s, G.tid t, r⟩ ∈ tt.entries.items := by
  rw [h.left_iff]
  constructor
  · rintro ⟨s', hs', hname, ht, he⟩
    obtain rfl := G.decl_inj (hst _ hs') (hst _ hs) hname
    exact ⟨ht, he⟩
  · rintro ⟨ht, he⟩
    exact ⟨s, hs, rfl, ht, he⟩

theorem arm (h : Clocks G st tt left) {s : Nat} (hs : s ∈ st) {t : Timer}
    (ht : t ∈ (G.decl s).timers) (hroom : tt.Room s (G.tid t)) :
    Clocks G st (tt.start s (G.tid t) (durationFor c u (G.tid t)))
      (Function.update left ((G.decl s).name, t) (some (u.duration t.1))) := by
  have hn := (G.timer (hst _ hs) ht).2
  have hd : asU64 (durationFor c u (G.tid t)) = u.duration t.1 := by
    rw [hn.duration]
    exact Nat.mod_eq_of_lt hn.fits
  refine ⟨TimerTable.nodup_keys_start h.nodup _ _ _, fun e he => ?_, fun {x t' r} => ?_⟩
  · rcases (TimerTable.mem_start h.nodup hroom).mp he with rfl | ⟨he, -⟩
    · refine ⟨hs, ?_⟩
      rw [G.ownedTimers (hst _ hs)]
      exact List.mem_map_of_mem ht
    · exact h.owned e he
  · by_cases hx : (x, t') = ((G.decl s).name, t)
    · cases hx
      rw [Function.update_self, Option.some.injEq]
      constructor
      · rintro rfl
        exact ⟨s, hs, rfl, ht, (TimerTable.mem_start h.nodup hroom).mpr (Or.inl (by rw [hd]))⟩
      · rintro ⟨s', hs', hname, -, he⟩
        obtain rfl := G.decl_inj (hst _ hs') (hst _ hs) hname
        rcases (TimerTable.mem_start h.nodup hroom).mp he with heq | ⟨-, hne⟩
        · cases heq
          exact hd.symm
        · exact absurd rfl hne
    · rw [Function.update_of_ne hx, h.left_iff]
      refine exists_congr fun s' => and_congr_right fun hs' => and_congr_right fun hname =>
        and_congr_right fun ht' => ?_
      have hne := G.key_ne (hst _ hs) (hst _ hs') ht ht' (by rw [hname]; exact hx)
      rw [TimerTable.mem_start h.nodup hroom]
      constructor
      · exact fun he => Or.inr ⟨he, hne⟩
      · rintro (heq | ⟨he, -⟩)
        · exact absurd (congrArg TimerEntry.key heq) hne
        · exact he

omit hst in
theorem mem_cancelOwned (h : Clocks G st tt left) {s : Nat} {e : TimerEntry} :
    e ∈ (cancelOwned c s tt).entries.items ↔ e ∈ tt.entries.items ∧ e.state ≠ s := by
  unfold cancelOwned
  split
  · exact TimerTable.mem_cancelState
  · rename_i hno
    have hnil : tt.entries.items = [] := List.eq_nil_iff_forall_not_mem.mpr fun e he =>
      hno (G.sound.hasTimers_of_owned (h.owned e he).2)
    simp [hnil]

theorem disarm {s : Nat} (h : Clocks G (s :: st) tt left) (hs : s < c.nStates) (hnew : s ∉ st) :
    Clocks G st (cancelOwned c s tt) fun k => if k.1 = (G.decl s).name then none else left k := by
  refine ⟨nodup_keys_cancelOwned h.nodup, fun e he => ?_, fun {x t r} => ?_⟩
  · obtain ⟨he, hne⟩ := h.mem_cancelOwned.mp he
    obtain ⟨hmem, hown⟩ := h.owned e he
    exact ⟨(List.mem_cons.mp hmem).resolve_left hne, hown⟩
  · dsimp only
    split
    · rename_i hx
      refine iff_of_false (by simp) ?_
      rintro ⟨s', hs', hname, -, -⟩
      obtain rfl := G.decl_inj (hst _ hs') hs (hname.trans hx)
      exact hnew hs'
    · rename_i hx
      rw [h.left_iff]
      constructor
      · rintro ⟨s', hs', rfl, ht, he⟩
        have hne : s' ≠ s := fun heq => hx (by rw [heq])
        exact ⟨s', (List.mem_cons.mp hs').resolve_left hne, rfl, ht,
          h.mem_cancelOwned.mpr ⟨he, hne⟩⟩
      · rintro ⟨s', hs', hname, ht, he⟩
        exact ⟨s', List.mem_cons_of_mem _ hs', hname, ht, (h.mem_cancelOwned.mp he).1⟩

omit hst in
theorem tick {elapsed : Nat} (h : Clocks G st tt left) (hlt : elapsed < 2 ^ 64) :
    Clocks G st (if c.hasTimers then tt.decrement elapsed else tt)
      fun k => (left k).map (· - elapsed) := by
  have hmem : ∀ {s k r},
      ⟨s, k, r⟩ ∈ (if c.hasTimers then tt.decrement elapsed else tt).entries.items ↔
        ∃ r₀, ⟨s, k, r₀⟩ ∈ tt.entries.items ∧ r₀ - elapsed = r := by
    intro s k r
    split
    · rw [TimerTable.mem_decrement, show asU64 elapsed = elapsed from Nat.mod_eq_of_lt hlt]
      constructor
      · rintro ⟨e, he, heq⟩
        cases heq
        exact ⟨_, he, rfl⟩
      · rintro ⟨r₀, he, rfl⟩
        exact ⟨_, he, rfl⟩
    · rename_i hno
      have hnil : tt.entries.items = [] := List.eq_nil_iff_forall_not_mem.mpr fun e he =>
        hno (G.sound.hasTimers_of_owned (h.owned e he).2)
      simp [hnil]
  refine ⟨?_, ?_, fun {x t r} => ?_⟩
  · split
    · rw [TimerTable.keys_decrement]
      exact h.nodup
    · exact h.nodup
  · rintro ⟨s, k, r⟩ he
    obtain ⟨r₀, he, -⟩ := hmem.mp he
    exact h.owned ⟨s, k, r₀⟩ he
  · rw [Option.map_eq_some_iff]
    constructor
    · rintro ⟨r₀, hr₀, rfl⟩
      obtain ⟨s, hs, hname, ht, he⟩ := h.left_iff.mp hr₀
      exact ⟨s, hs, hname, ht, hmem.mpr ⟨r₀, he, rfl⟩⟩
    · rintro ⟨s, hs, hname, ht, he⟩
      obtain ⟨r₀, he₀, rfl⟩ := hmem.mp he
      exact ⟨r₀, h.left_iff.mpr ⟨s, hs, hname, ht, he₀⟩, rfl⟩

/-- The table without a popped timer. -/
theorem erase (h : Clocks G st tt left) {s : Nat} (hs : s ∈ st) {t : Timer}
    (ht : t ∈ (G.decl s).timers) (hpop : tt.popExpired c.depth = some ((s, G.tid t), tt')) :
    Clocks G st tt' (Function.update left ((G.decl s).name, t) none) := by
  obtain ⟨-, hmem⟩ := TimerTable.mem_popExpired h.nodup hpop
  refine ⟨?_, fun e he => h.owned e ((hmem e).mp he).1, fun {x t' r} => ?_⟩
  · exact (List.nodup_cons.mp ((TimerTable.perm_keys_popExpired hpop).nodup_iff.mpr h.nodup)).2
  · by_cases hx : (x, t') = ((G.decl s).name, t)
    · cases hx
      rw [Function.update_self]
      refine iff_of_false (by simp) ?_
      rintro ⟨s', hs', hname, -, he⟩
      obtain rfl := G.decl_inj (hst _ hs') (hst _ hs) hname
      exact ((hmem _).mp he).2 rfl
    · rw [Function.update_of_ne hx, h.left_iff]
      refine exists_congr fun s' => and_congr_right fun hs' => and_congr_right fun hname =>
        and_congr_right fun ht' => ?_
      have hne := G.key_ne (hst _ hs) (hst _ hs') ht ht' (by rw [hname]; exact hx)
      rw [hmem]
      exact ⟨fun he => ⟨he, hne⟩, And.left⟩

omit hst in
theorem noneDue (h : Clocks G st tt left) (hexp : tt.expired = []) (k : Ident × Timer) :
    left k ≠ some 0 := by
  intro hk
  obtain ⟨s, -, -, -, he⟩ := h.left_iff.mp hk
  have := TimerTable.mem_expired.mpr ⟨he, rfl⟩
  rw [hexp] at this
  cases this

omit hst in
/-- The timers of one path have room in the table. -/
theorem room {tt : TimerTable c.maxTimers} {s k : Nat} (hs : s < c.nStates)
    (h : Clocks G (G.sound.tree.up s) tt left) (hk : k ∈ c.ownedTimers s) : tt.Room s k := by
  by_cases hmem : (s, k) ∈ tt.keys
  · exact Or.inl hmem
  right
  let all := (G.sound.tree.up s).flatMap fun x => (c.ownedTimers x).map fun k => (x, k)
  have hall : all.length = ((G.sound.tree.up s).flatMap c.ownedTimers).length := by
    simp [all, List.length_flatMap]
  have hsub : (s, k) :: tt.keys ⊆ all := by
    intro x hx
    rw [List.mem_flatMap]
    rcases List.mem_cons.mp hx with rfl | hx
    · exact ⟨s, G.sound.tree.mem_up_self s, List.mem_map_of_mem hk⟩
    · obtain ⟨e, he, rfl⟩ := List.mem_map.mp hx
      obtain ⟨hmem, hown⟩ := h.owned e he
      exact ⟨e.state, hmem, List.mem_map_of_mem hown⟩
  have hle := (List.subperm_of_subset (List.nodup_cons.mpr ⟨hmem, h.nodup⟩) hsub).length_le
  have := G.room hs
  rw [List.length_cons] at hle
  omega

omit hst in
/-- A popped timer is one of the innermost state that has an expired one. -/
theorem due {cur s k : Nat} (hcur : cur < c.nStates) (h : Clocks G (G.sound.tree.up cur) tt left)
    (hpop : tt.popExpired c.depth = some ((s, k), tt')) : ∃ t ∈ (G.decl s).timers, k = G.tid t ∧
      left ((G.decl s).name, t) = some 0 ∧ ∃ inner outer,
        G.sound.tree.up cur = inner ++ s :: outer ∧
        ∀ x ∈ inner, ∀ t, left ((G.decl x).name, t) ≠ some 0 := by
  have hst : ∀ x ∈ G.sound.tree.up cur, x < c.nStates := fun x => G.sound.up_lt hcur
  obtain ⟨i, b, hbest, hkey, -⟩ := TimerTable.popExpired_first hpop
  obtain ⟨rfl, rfl⟩ := Prod.mk.inj hkey
  have hb := List.mem_of_getElem? hbest.get
  obtain ⟨hmem, t, ht, htid, hleft⟩ := h.entry hst hb
  rw [hbest.expired] at hleft
  obtain ⟨inner, outer, hup⟩ := List.append_of_mem hmem
  refine ⟨t, ht, htid, hleft, inner, outer, hup, fun x hx t' ht' => ?_⟩
  have hxup : x ∈ G.sound.tree.up cur := by
    rw [hup]
    exact List.mem_append_left _ hx
  obtain ⟨-, he⟩ := (h.left_name hst hxup).mp ht'
  obtain ⟨j, hj, hget⟩ := List.mem_iff_getElem.mp he
  have hle := hbest.deepest j _ hj (by rw [List.getElem?_eq_getElem hj, hget]) rfl
  -- `x` is within the state of the popped timer, so it is deeper
  have hlev := G.sound.tree.level_lt_of_inner hup hx
  rw [List.getD_eq_getElem?_getD, List.getD_eq_getElem?_getD, G.sound.depth_get (hst _ hxup),
    G.sound.depth_get (hst _ hmem)] at hle
  simp only [Option.getD_some] at hle
  omega

/-- The table answers with the least time left. -/
theorem minRemaining (h : Clocks G st tt left) : tt.minRemaining =
    ((st.map G.decl).flatMap fun d => d.timers.filterMap fun t => left (d.name, t)).min? := by
  refine List.min?_congr fun r => ?_
  simp only [List.mem_map, List.mem_flatMap, List.mem_filterMap, exists_exists_and_eq_and]
  constructor
  · rintro ⟨e, he, rfl⟩
    obtain ⟨hs, t, ht, -, hleft⟩ := h.entry hst he
    exact ⟨e.state, hs, t, ht, hleft⟩
  · rintro ⟨s, hs, t, ht, hleft⟩
    exact ⟨_, ((h.left_name hst hs).mp hleft).2, rfl⟩

end

end Clocks

end Hsmc
