import HelixCluster.Lib.MessagePassing

/-!
# Vector time

The vector time of Fidge and Mattern with unbounded counters.
-/

namespace HelixCluster.VectorTime

open MessagePassing

variable {ι κ : Type} [DecidableEq ι] [DecidableEq κ] {slot : ι → κ}

/-- Count one more event of a process. -/
def advance (slot : ι → κ) (i : ι) (v : κ → ℕ) : κ → ℕ :=
  Function.update v (slot i) (v (slot i) + 1)

/-- Vector time as a logical clock. -/
def object (slot : ι → κ) : ClockObject ι Unit (κ → ℕ) (κ → ℕ) where
  tick i _ v := (advance slot i v, advance slot i v)
  absorb i _ v m := (advance slot i (v ⊔ m), advance slot i (v ⊔ m))

omit [DecidableEq ι] in
theorem advance_self (i : ι) (v : κ → ℕ) : advance slot i v (slot i) = v (slot i) + 1 :=
  Function.update_self ..

omit [DecidableEq ι] in
theorem advance_ne {i : ι} {k : κ} (h : k ≠ slot i) (v : κ → ℕ) : advance slot i v k = v k :=
  Function.update_of_ne h ..

omit [DecidableEq ι] in
theorem lt_advance (i : ι) (v : κ → ℕ) : v < advance slot i v := by
  refine Pi.lt_def.mpr ⟨fun k => ?_, slot i, ?_⟩
  · by_cases hk : k = slot i
    · subst hk
      rw [advance_self]
      exact Nat.le_succ _
    · rw [advance_ne hk]
  · rw [advance_self]
    exact Nat.lt_succ_self _

omit [DecidableEq ι] in
theorem rules (slot : ι → κ) : Rules (object slot) (fun _ => True) id fun _ _ => True where
  inv_tick _ _ _ := id
  last_tick _ _ _ := rfl
  le_tick i _ v _ := (lt_advance i v).le
  lt_tick i _ v _ _ := lt_advance i v
  inv_absorb _ _ _ _ := id
  last_absorb _ _ _ _ := rfl
  le_absorb i _ _ _ _ := le_sup_left.trans (lt_advance i _).le
  lt_absorb i _ _ _ _ _ :=
    ⟨le_sup_left.trans_lt (lt_advance i _), le_sup_right.trans_lt (lt_advance i _)⟩

variable {w : World ι (κ → ℕ) (κ → ℕ)}

/-- Nobody counts more events of a process than the process itself. -/
structure Bounded (slot : ι → κ) (w : World ι (κ → ℕ) (κ → ℕ)) : Prop where
  count : ∀ p, w.clock p (slot p) = w.events.countP (·.process = p)
  clock_le : ∀ p q, w.clock q (slot p) ≤ w.clock p (slot p)
  stamp_le : ∀ p, ∀ b ∈ w.events, b.stamp (slot p) ≤ w.clock p (slot p)

variable {kind : Kind} {out : (κ → ℕ) × (κ → ℕ)}

theorem Bounded.outcome (hbound : Bounded slot w) {i : ι}
    (hout : Outcome (object slot) w i kind out) :
    out.1 = out.2 ∧ out.2 (slot i) = w.clock i (slot i) + 1 ∧ ∀ k ≠ slot i, ∀ n, n ≤ out.2 k ↔
        n ≤ w.clock i k ∨ ∃ d b, kind = .receive d ∧ w.events[d]? = some b ∧ n ≤ b.stamp k := by
  cases hout with
  | internal r | send r =>
    refine ⟨rfl, advance_self .., fun k hk n => ?_⟩
    simp [object, advance_ne hk]
  | @receive r m s hs _ =>
    refine ⟨rfl, ?_, fun k hk n => ?_⟩
    · have hle := hbound.stamp_le i s (List.mem_of_getElem? hs)
      simp [object, advance_self, hle]
    · simp [object, advance_ne hk, hs]

section

variable (hslot : Function.Injective slot)

include hslot

theorem Bounded.emit (hbound : Bounded slot w) {i : ι}
    (hout : Outcome (object slot) w i kind out) : Bounded slot (w.emit i kind out) := by
  obtain ⟨hlast, hown, hother⟩ := hbound.outcome hout
  have hgrows : ∀ p, w.clock p (slot p) ≤ (w.emit i kind out).clock p (slot p) := by
    intro p
    rcases eq_or_ne p i with rfl | hp
    · rw [World.emit_clock_self, hlast, hown]
      exact Nat.le_succ _
    · rw [w.emit_clock_ne hp]
  -- the new stamp counts no more events of `p` than `p` itself
  have hnew : ∀ p, out.2 (slot p) ≤ (w.emit i kind out).clock p (slot p) := by
    intro p
    rcases eq_or_ne p i with rfl | hp
    · rw [World.emit_clock_self, hlast]
    rw [w.emit_clock_ne hp]
    rcases (hother _ (hslot.ne hp) _).mp le_rfl with hle | ⟨d, b, -, hb, hle⟩
    · exact hle.trans (hbound.clock_le p i)
    · exact hle.trans (hbound.stamp_le p b (List.mem_of_getElem? hb))
  refine ⟨fun p => ?_, fun p q => ?_, fun p b hb => ?_⟩
  · rcases eq_or_ne p i with rfl | hp
    · rw [World.emit_clock_self, hlast, hown, hbound.count]
      simp
    · rw [w.emit_clock_ne hp, hbound.count]
      simp [Ne.symm hp]
  · rcases eq_or_ne q i with rfl | hq
    · rw [World.emit_clock_self, hlast]
      exact hnew p
    · rw [w.emit_clock_ne hq]
      exact (hbound.clock_le p q).trans (hgrows p)
  rcases List.mem_append.mp hb with hb | hb
  · exact (hbound.stamp_le p b hb).trans (hgrows p)
  · obtain rfl := List.mem_singleton.mp hb
    exact hnew p

theorem bounded_of_reachable (hw : Reachable (object slot) (fun _ _ => 0) w) : Bounded slot w := by
  induction hw with
  | start => exact ⟨by simp [World.start], by simp [World.start], by simp [World.start]⟩
  | emit i _ hout ih => exact ih.emit hslot hout

/-- The entries of the process of an event tell which clocks and stamps have seen the event. -/
structure Exact (slot : ι → κ) (w : World ι (κ → ℕ) (κ → ℕ)) : Prop where
  clock : ∀ {e a}, w.events[e]? = some a → ∀ q,
    a.stamp (slot a.process) ≤ w.clock q (slot a.process) ↔
      ∃ d b, w.events[d]? = some b ∧ b.process = q ∧ (e = d ∨ HappensBefore w.events e d)
  stamp : ∀ {e f a b}, w.events[e]? = some a → w.events[f]? = some b →
    (a.stamp (slot a.process) ≤ b.stamp (slot a.process) ↔ e = f ∨ HappensBefore w.events e f)

variable {a : Event ι (κ → ℕ)}

theorem Exact.outcome (hexact : Exact slot w)
    (hbound : Bounded slot w) (hw : Reachable (object slot) (fun _ _ => 0) w) {i : ι}
    (hout : Outcome (object slot) w i kind out) {e : ℕ} (ha : w.events[e]? = some a) :
    a.stamp (slot a.process) ≤ out.2 (slot a.process) ↔
      HappensBefore (w.emit i kind out).events e w.events.length := by
  obtain ⟨-, hown, hother⟩ := hbound.outcome hout
  rw [hw.happensBefore_emit_new hout]
  by_cases hprocess : a.process = i
  · refine iff_of_true ?_ ⟨e, a, ha, .inl hprocess, .inl rfl⟩
    have hle := hbound.stamp_le i a (List.mem_of_getElem? ha)
    rw [hprocess, hown]
    omega
  rw [hother _ (hslot.ne hprocess), hexact.clock ha]
  constructor
  · intro h
    rcases h with ⟨d, b, hb, hq, hseen⟩ | ⟨d, b, hkind, hb, hle⟩
    · exact ⟨d, b, hb, .inl hq, hseen⟩
    · exact ⟨d, b, hb, .inr hkind, (hexact.stamp ha hb).mp hle⟩
  intro h
  rcases h with ⟨d, b, hb, hq | hkind, hseen⟩
  · exact .inl ⟨d, b, hb, hq, hseen⟩
  · exact .inr ⟨d, b, hkind, hb, (hexact.stamp ha hb).mpr hseen⟩

variable {b : Event ι (κ → ℕ)}

theorem Exact.stamp_emit (hexact : Exact slot w)
    (hw : Reachable (object slot) (fun _ _ => 0) w) {i : ι}
    (hout : Outcome (object slot) w i kind out) {e f : ℕ}
    (ha : (w.emit i kind out).events[e]? = some a) (hb : (w.emit i kind out).events[f]? = some b) :
    a.stamp (slot a.process) ≤ b.stamp (slot a.process) ↔
      e = f ∨ HappensBefore (w.emit i kind out).events e f := by
  have hbound := bounded_of_reachable hslot hw
  rcases getElem_concat ha with ⟨he, ha⟩ | ⟨rfl, rfl⟩ <;>
    rcases getElem_concat hb with ⟨hf, hb⟩ | ⟨rfl, rfl⟩
  · rw [hw.happensBefore_emit_old hf]
    exact hexact.stamp ha hb
  · rw [hexact.outcome hslot hbound hw hout ha]
    exact (or_iff_right he.ne).symm
  -- no old stamp has seen the new event
  · have hle := hbound.stamp_le i b (List.mem_of_getElem? hb)
    obtain ⟨-, hown, -⟩ := hbound.outcome hout
    refine iff_of_false (by simp only [hown]; omega) ?_
    intro h
    rcases h with rfl | hbefore
    · exact Nat.lt_irrefl _ hf
    · exact Nat.lt_asymm hf ((hw.emit i hout).happensBefore_lt hbefore)
  · exact iff_of_true le_rfl (.inl rfl)

theorem Exact.clock_emit (hexact : Exact slot w)
    (hw : Reachable (object slot) (fun _ _ => 0) w) {i : ι}
    (hout : Outcome (object slot) w i kind out) {e : ℕ}
    (ha : (w.emit i kind out).events[e]? = some a) (q : ι) :
    a.stamp (slot a.process) ≤ (w.emit i kind out).clock q (slot a.process) ↔
      ∃ d b, (w.emit i kind out).events[d]? = some b ∧ b.process = q ∧
        (e = d ∨ HappensBefore (w.emit i kind out).events e d) := by
  have hbound := bounded_of_reachable hslot hw
  obtain ⟨hlast, hown, -⟩ := hbound.outcome hout
  have hnew := w.getElem_emit_new i kind out
  by_cases hq : q = i
  -- the new event is the last one of its process
  · subst hq
    rw [World.emit_clock_self, hlast, hexact.stamp_emit hslot hw hout ha hnew]
    constructor
    · intro hseen
      exact ⟨_, _, hnew, rfl, hseen⟩
    intro h
    obtain ⟨d, b, hb, hprocess, hseen⟩ := h
    rcases getElem_concat hb with ⟨hd, -⟩ | ⟨rfl, -⟩
    · have hstep : Direct (w.emit q kind out).events d w.events.length :=
        ⟨b, _, hb, hnew, .inl ⟨hprocess, hd⟩⟩
      rcases hseen with rfl | hbefore
      · exact .inr (.single hstep)
      · exact .inr (.tail hbefore hstep)
    · exact hseen
  · rw [w.emit_clock_ne hq]
    rcases getElem_concat ha with ⟨he, ha⟩ | ⟨rfl, rfl⟩
    · rw [hexact.clock ha]
      constructor
      · intro h
        obtain ⟨d, b, hb, hprocess, hseen⟩ := h
        have hd := (List.getElem?_eq_some_iff.mp hb).1
        exact ⟨d, b, World.getElem_emit_old hb .., hprocess,
          hseen.imp_right (hw.happensBefore_emit_old hd).mpr⟩
      intro h
      obtain ⟨d, b, hb, hprocess, hseen⟩ := h
      rcases getElem_concat hb with ⟨hd, hb⟩ | ⟨-, rfl⟩
      · exact ⟨d, b, hb, hprocess, hseen.imp_right (hw.happensBefore_emit_old hd).mp⟩
      · exact absurd hprocess.symm hq
    -- no other clock has seen the new event
    · have hle := hbound.clock_le i q
      refine iff_of_false (by simp only [hown]; omega) ?_
      intro h
      obtain ⟨d, b, hb, hprocess, hseen⟩ := h
      rcases getElem_concat hb with ⟨hd, -⟩ | ⟨-, rfl⟩
      · rcases hseen with rfl | hbefore
        · exact Nat.lt_irrefl _ hd
        · exact Nat.lt_asymm hd ((hw.emit i hout).happensBefore_lt hbefore)
      · exact hq hprocess.symm

end

section

variable (hslot : Function.Injective slot) (hw : Reachable (object slot) (fun _ _ => 0) w)

include hslot hw

theorem exact_of_reachable : Exact slot w := by
  induction hw with
  | start => exact ⟨by simp [World.start], by simp [World.start]⟩
  | emit i hw hout ih => exact ⟨ih.clock_emit hslot hw hout, ih.stamp_emit hslot hw hout⟩

theorem happensBefore_iff {e f : ℕ} (ha : w.events[e]? = some a)
    (hb : w.events[f]? = some b) : HappensBefore w.events e f ↔ a.stamp < b.stamp := by
  constructor
  · intro h
    exact (rules slot).stamp_lt (fun _ => trivial) hw (fun _ _ => trivial) h ha hb
  intro h
  rcases ((exact_of_reachable hslot hw).stamp ha hb).mp (h.le _) with rfl | hbefore
  · cases ha.symm.trans hb
    exact absurd h (lt_irrefl _)
  · exact hbefore

theorem stamp_injective {e f : ℕ} (ha : w.events[e]? = some a)
    (hb : w.events[f]? = some b) (h : a.stamp = b.stamp) : e = f := by
  rcases ((exact_of_reachable hslot hw).stamp ha hb).mp (h ▸ le_rfl) with rfl | hbefore
  · rfl
  · exact absurd ((happensBefore_iff hslot hw ha hb).mp hbefore) (h ▸ lt_irrefl _)

end

end HelixCluster.VectorTime
