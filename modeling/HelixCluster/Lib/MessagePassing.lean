import Mathlib

/-!
# Logical clocks in message-passing runs

Processes take internal, send and receive events in any interleaving.
-/

namespace HelixCluster

open List

/-- A clock of state `σ` with stamps `τ`. It may consult an input `ρ` of the environment. -/
structure ClockObject (ι ρ σ τ : Type) where
  tick : ι → ρ → σ → σ × τ
  absorb : ι → ρ → σ → τ → σ × τ

namespace MessagePassing

variable {ι ρ σ τ : Type} [DecidableEq ι]

/-- The kind of an event. A receive event names the number of its send event. -/
inductive Kind where
  | internal
  | send
  | receive (sent : ℕ)
  deriving DecidableEq

/-- An event with its stamp. -/
structure Event (ι τ : Type) where
  process : ι
  kind : Kind
  stamp : τ

/-- The clocks of the processes and the events so far. -/
structure World (ι σ τ : Type) where
  clock : ι → σ
  events : List (Event ι τ)

variable {i : ι} {b : Event ι τ}

namespace World

/-- The world before the first event. -/
def start (init : ι → σ) : World ι σ τ where
  clock := init
  events := []

/-- The world after an event that leaves this clock and has this stamp. -/
def emit (w : World ι σ τ) (i : ι) (kind : Kind) (out : σ × τ) : World ι σ τ where
  clock := Function.update w.clock i out.1
  events := w.events ++ [⟨i, kind, out.2⟩]

@[simp] theorem emit_events (w : World ι σ τ) (i : ι) (kind : Kind) (out : σ × τ) :
    (w.emit i kind out).events = w.events ++ [⟨i, kind, out.2⟩] := rfl

@[simp] theorem emit_clock_self (w : World ι σ τ) (i : ι) (kind : Kind) (out : σ × τ) :
    (w.emit i kind out).clock i = out.1 := Function.update_self ..

theorem emit_clock_ne (w : World ι σ τ) {j : ι} (h : j ≠ i) (kind : Kind) (out : σ × τ) :
    (w.emit i kind out).clock j = w.clock j := Function.update_of_ne h ..

theorem getElem_emit_old {w : World ι σ τ} {d : ℕ} (hb : w.events[d]? = some b)
    (i : ι) (kind : Kind) (out : σ × τ) : (w.emit i kind out).events[d]? = some b := by
  rw [emit_events, List.getElem?_append_left (List.getElem?_eq_some_iff.mp hb).1, hb]

theorem getElem_emit_new (w : World ι σ τ) (i : ι) (kind : Kind) (out : σ × τ) :
    (w.emit i kind out).events[w.events.length]? = some ⟨i, kind, out.2⟩ := by
  simp

end World

/-- The kinds and outcomes that the next event of a process can have. -/
inductive Outcome (obj : ClockObject ι ρ σ τ) (w : World ι σ τ) (i : ι) : Kind → σ × τ → Prop where
  | internal (r : ρ) : Outcome obj w i .internal (obj.tick i r (w.clock i))
  | send (r : ρ) : Outcome obj w i .send (obj.tick i r (w.clock i))
  | receive (r : ρ) {m : ℕ} {s : Event ι τ} : w.events[m]? = some s → s.kind = .send →
      Outcome obj w i (.receive m) (obj.absorb i r (w.clock i) s.stamp)

/-- The worlds reached by events of the processes. -/
inductive Reachable (obj : ClockObject ι ρ σ τ) (init : ι → σ) : World ι σ τ → Prop where
  | start : Reachable obj init (World.start init)
  | emit {w : World ι σ τ} (i : ι) {kind : Kind} {out : σ × τ} : Reachable obj init w →
      Outcome obj w i kind out → Reachable obj init (w.emit i kind out)

/-! ## Happens-before -/

/-- Program order, or the delivery of a message. -/
def Direct (events : List (Event ι τ)) (e f : ℕ) : Prop :=
  ∃ a b, events[e]? = some a ∧ events[f]? = some b ∧
    ((a.process = b.process ∧ e < f) ∨ b.kind = .receive e)

/-- Lamport's happens-before relation on the events of a run. -/
def HappensBefore (events : List (Event ι τ)) : ℕ → ℕ → Prop := Relation.TransGen (Direct events)

variable {obj : ClockObject ι ρ σ τ} {init : ι → σ} {w : World ι σ τ}

variable {f : ℕ}

omit [DecidableEq ι] in
theorem getElem_concat {events : List (Event ι τ)} {last : Event ι τ}
    (hb : (events ++ [last])[f]? = some b) :
    (f < events.length ∧ events[f]? = some b) ∨ (f = events.length ∧ b = last) := by
  rw [List.getElem?_append] at hb
  split_ifs at hb with hf
  · exact .inl ⟨hf, hb⟩
  · obtain ⟨hzero, rfl⟩ : f - events.length = 0 ∧ last = b := by
      simpa [List.getElem?_singleton] using hb
    exact .inr ⟨by omega, rfl⟩

theorem Reachable.sent_lt (hw : Reachable obj init w) {m : ℕ}
    (hb : w.events[f]? = some b) (hkind : b.kind = .receive m) : m < f := by
  induction hw with
  | start => simp [World.start] at hb
  | @emit w i kind out _ hout ih =>
    rcases getElem_concat hb with ⟨-, hb⟩ | ⟨rfl, rfl⟩
    · exact ih hb
    cases hout with
    | internal => exact nomatch hkind
    | send => exact nomatch hkind
    | receive r hs _ =>
      obtain rfl := Kind.receive.inj hkind
      exact (List.getElem?_eq_some_iff.mp hs).1

variable {e : ℕ}

theorem Reachable.direct_lt (hw : Reachable obj init w) (h : Direct w.events e f) :
    e < f := by
  obtain ⟨a, b, -, hb, ⟨-, hlt⟩ | hkind⟩ := h
  · exact hlt
  · exact hw.sent_lt hb hkind

theorem Reachable.happensBefore_lt (hw : Reachable obj init w)
    (h : HappensBefore w.events e f) : e < f := by
  induction h with
  | single h => exact hw.direct_lt h
  | tail _ h ih => exact Nat.lt_trans ih (hw.direct_lt h)

variable {out : σ × τ} {kind : Kind}

theorem Reachable.happensBefore_emit_old (hw : Reachable obj init w)
    (hf : f < w.events.length) :
    HappensBefore (w.emit i kind out).events e f ↔ HappensBefore w.events e f := by
  have hdirect {d g : ℕ} (hg : g < w.events.length)
      (h : Direct (w.emit i kind out).events d g) : Direct w.events d g := by
    obtain ⟨a, b, ha, hb, hcase⟩ := h
    rw [World.emit_events, List.getElem?_append_left hg] at hb
    have hd : d < g := hcase.elim And.right (hw.sent_lt hb)
    rw [World.emit_events, List.getElem?_append_left (Nat.lt_trans hd hg)] at ha
    exact ⟨a, b, ha, hb, hcase⟩
  constructor
  · intro h
    induction h with
    | single h => exact .single (hdirect hf h)
    | tail _ h ih =>
      have h := hdirect hf h
      exact .tail (ih (Nat.lt_trans (hw.direct_lt h) hf)) h
  · intro h
    refine Relation.TransGen.mono (fun d g h => ?_) _ _ h
    obtain ⟨a, b, ha, hb, hcase⟩ := h
    exact ⟨a, b, World.getElem_emit_old ha .., World.getElem_emit_old hb .., hcase⟩

/-- Before the new event are those of its process and the send it receives, with all before them. -/
theorem Reachable.happensBefore_emit_new (hw : Reachable obj init w)
    (hout : Outcome obj w i kind out) (e : ℕ) :
    HappensBefore (w.emit i kind out).events e w.events.length ↔
      ∃ d b, w.events[d]? = some b ∧ (b.process = i ∨ kind = .receive d) ∧
        (e = d ∨ HappensBefore w.events e d) := by
  have hnew := w.getElem_emit_new i kind out
  have hdirect (d : ℕ) : Direct (w.emit i kind out).events d w.events.length ↔
      ∃ b, w.events[d]? = some b ∧ (b.process = i ∨ kind = .receive d) := by
    constructor
    · intro h
      have hd := (hw.emit i hout).direct_lt h
      obtain ⟨a, b, ha, hb, hcase⟩ := h
      cases hnew.symm.trans hb
      rw [World.emit_events, List.getElem?_append_left hd] at ha
      exact ⟨a, ha, hcase.imp_left And.left⟩
    intro h
    obtain ⟨b, hb, hcase⟩ := h
    have hd := (List.getElem?_eq_some_iff.mp hb).1
    exact ⟨b, _, World.getElem_emit_old hb .., hnew, hcase.imp_left fun h => ⟨h, hd⟩⟩
  constructor
  · intro h
    rcases Relation.TransGen.tail'_iff.mp h with ⟨d, hed, hdn⟩
    obtain ⟨b, hb, hcase⟩ := (hdirect d).mp hdn
    refine ⟨d, b, hb, hcase, ?_⟩
    rcases Relation.reflTransGen_iff_eq_or_transGen.mp hed with heq | hlt
    · exact .inl heq.symm
    · exact .inr ((hw.happensBefore_emit_old (List.getElem?_eq_some_iff.mp hb).1).mp hlt)
  intro h
  rcases h with ⟨d, b, hb, hcase, rfl | hlt⟩
  · exact .single ((hdirect e).mpr ⟨b, hb, hcase⟩)
  · have hd := (List.getElem?_eq_some_iff.mp hb).1
    exact .tail ((hw.happensBefore_emit_old hd).mpr hlt) ((hdirect d).mpr ⟨b, hb, hcase⟩)

/-! ## Simulation -/

section Simulation

variable {σ' τ' : Type}

/-- The same event with another stamp. -/
def Event.map (g : τ → τ') (a : Event ι τ) : Event ι τ' where
  process := a.process
  kind := a.kind
  stamp := g a.stamp

/-- The same run with other clocks and stamps. -/
def World.map (f : σ → σ') (g : τ → τ') (w : World ι σ τ) : World ι σ' τ' where
  clock i := f (w.clock i)
  events := w.events.map (Event.map g)

theorem World.map_emit (f : σ → σ') (g : τ → τ') (w : World ι σ τ) (i : ι) (kind : Kind)
    (out : σ × τ) : (w.emit i kind out).map f g = (w.map f g).emit i kind (f out.1, g out.2) := by
  refine World.mk.injEq .. |>.mpr ⟨funext fun j => ?_, by simp [Event.map, World.map]⟩
  exact Function.apply_update (fun _ => f) w.clock i out.1 j

omit [DecidableEq ι] in
theorem Outcome.map {obj' : ClockObject ι ρ σ' τ'} {f : σ → σ'} {g : τ → τ'} (hout : Outcome obj w i kind out)
    (htick : ∀ r, obj'.tick i r (f (w.clock i)) =
      (f (obj.tick i r (w.clock i)).1, g (obj.tick i r (w.clock i)).2))
    (habsorb : ∀ r, ∀ s ∈ w.events, obj'.absorb i r (f (w.clock i)) (g s.stamp) =
      (f (obj.absorb i r (w.clock i) s.stamp).1, g (obj.absorb i r (w.clock i) s.stamp).2)) :
    Outcome obj' (w.map f g) i kind (f out.1, g out.2) := by
  cases hout with
  | internal r =>
    rw [← htick]
    exact .internal r
  | send r =>
    rw [← htick]
    exact .send r
  | @receive r m s hs hkind =>
    rw [← habsorb r s (mem_of_getElem? hs)]
    exact .receive (s := s.map g) r (by simp [World.map, hs]) hkind

omit [DecidableEq ι] in
theorem happensBefore_map (g : τ → τ') (events : List (Event ι τ)) :
    HappensBefore (events.map (Event.map g)) = HappensBefore events := by
  have hdirect : Direct (events.map (Event.map g)) = Direct events := by
    funext e f
    simp only [Direct, List.getElem?_map, Option.map_eq_some_iff, eq_iff_iff]
    constructor
    · intro h
      obtain ⟨_, _, ⟨a, ha, rfl⟩, ⟨b, hb, rfl⟩, h⟩ := h
      exact ⟨a, b, ha, hb, h⟩
    intro h
    obtain ⟨a, b, ha, hb, h⟩ := h
    exact ⟨_, _, ⟨a, ha, rfl⟩, ⟨b, hb, rfl⟩, h⟩
  unfold HappensBefore
  rw [hdirect]

end Simulation

/-! ## The clock condition -/

/-- The clock remembers its last stamp, never goes back, and passes it and a received one if the
stamp is good. -/
structure Rules [Preorder τ] (obj : ClockObject ι ρ σ τ) (inv : σ → Prop) (last : σ → τ)
    (good : ι → τ → Prop) : Prop where
  inv_tick : ∀ i r s, inv s → inv (obj.tick i r s).1
  last_tick : ∀ i r s, last (obj.tick i r s).1 = (obj.tick i r s).2
  le_tick : ∀ i r s, inv s → last s ≤ (obj.tick i r s).2
  lt_tick : ∀ i r s, inv s → good i (obj.tick i r s).2 → last s < (obj.tick i r s).2
  inv_absorb : ∀ i r s t, inv s → inv (obj.absorb i r s t).1
  last_absorb : ∀ i r s t, last (obj.absorb i r s t).1 = (obj.absorb i r s t).2
  le_absorb : ∀ i r s t, inv s → last s ≤ (obj.absorb i r s t).2
  lt_absorb : ∀ i r s t, inv s → good i (obj.absorb i r s t).2 →
    last s < (obj.absorb i r s t).2 ∧ t < (obj.absorb i r s t).2

section Clocks

variable [Preorder τ] {inv : σ → Prop} {last : σ → τ} {good : ι → τ → Prop} {a : Event ι τ}

section

variable (hrules : Rules obj inv last good)

include hrules

omit [DecidableEq ι] in
theorem Rules.outcome
    (hinv : inv (w.clock i)) (hout : Outcome obj w i kind out) :
    inv out.1 ∧ last out.1 = out.2 ∧ last (w.clock i) ≤ out.2 ∧
      (good i out.2 → last (w.clock i) < out.2 ∧
        ∀ m s, kind = .receive m → w.events[m]? = some s → s.stamp < out.2) := by
  cases hout with
  | internal r | send r =>
    exact ⟨hrules.inv_tick _ _ _ hinv, hrules.last_tick .., hrules.le_tick _ _ _ hinv,
      fun hgood => ⟨hrules.lt_tick _ _ _ hinv hgood, fun _ _ hkind => nomatch hkind⟩⟩
  | receive r hs _ =>
    refine ⟨hrules.inv_absorb _ _ _ _ hinv, hrules.last_absorb .., hrules.le_absorb _ _ _ _ hinv,
      fun hgood => ?_⟩
    obtain ⟨hlast, hreceived⟩ := hrules.lt_absorb _ _ _ _ hinv hgood
    refine ⟨hlast, fun m s hkind hs' => ?_⟩
    obtain rfl := Kind.receive.inj hkind
    cases hs.symm.trans hs'
    exact hreceived

section

variable (hinit : ∀ i, inv (init i)) (hw : Reachable obj init w)

include hinit hw

theorem Rules.clock :
    (∀ i, inv (w.clock i)) ∧ ∀ a ∈ w.events, a.stamp ≤ last (w.clock a.process) := by
  induction hw with
  | start => exact ⟨hinit, by simp [World.start]⟩
  | @emit w i kind out _ hout ih =>
    obtain ⟨hinv, hlast, hle, -⟩ := hrules.outcome (ih.1 i) hout
    refine ⟨fun j => ?_, fun a ha => ?_⟩
    · rcases eq_or_ne j i with rfl | hj
      · rwa [World.emit_clock_self]
      · rw [w.emit_clock_ne hj]
        exact ih.1 j
    rcases mem_append.mp ha with ha | ha
    · by_cases hprocess : a.process = i
      · rw [hprocess, World.emit_clock_self, hlast]
        exact (hprocess ▸ ih.2 a ha).trans hle
      · rw [w.emit_clock_ne hprocess]
        exact ih.2 a ha
    · obtain rfl := mem_singleton.mp ha
      rw [World.emit_clock_self, hlast]

theorem Rules.stamp_le :
    w.events.Pairwise fun a b => a.process = b.process → a.stamp ≤ b.stamp := by
  induction hw with
  | start => exact List.Pairwise.nil
  | @emit w i kind out hw hout ih =>
    obtain ⟨hinv, hbehind⟩ := hrules.clock hinit hw
    refine pairwise_append.mpr ⟨ih, pairwise_singleton _ _, fun a ha b hb hab => ?_⟩
    obtain rfl := mem_singleton.mp hb
    have hle := hbehind a ha
    rw [show a.process = i from hab] at hle
    exact hle.trans (hrules.outcome (hinv i) hout).2.2.1

theorem Rules.stamp_lt_of_direct (hgood : ∀ a ∈ w.events, good a.process a.stamp) (ha : w.events[e]? = some a) (hb : w.events[f]? = some b)
    (h : (a.process = b.process ∧ e < f) ∨ b.kind = .receive e) : a.stamp < b.stamp := by
  induction hw with
  | start => simp [World.start] at ha
  | @emit w i kind out hw hout ih =>
    rcases getElem_concat hb with ⟨hf, hb⟩ | ⟨rfl, rfl⟩
    · have he : e < f := h.elim And.right (hw.sent_lt hb)
      rw [World.emit_events, List.getElem?_append_left (by omega)] at ha
      exact ih (fun x hx => hgood x (mem_append_left _ hx)) ha hb
    have he : e < w.events.length :=
      h.elim And.right fun hkind => (hw.emit i hout).sent_lt hb hkind
    rw [World.emit_events, List.getElem?_append_left he] at ha
    obtain ⟨hinv, hbehind⟩ := hrules.clock hinit hw
    obtain ⟨-, -, -, hlt⟩ := hrules.outcome (hinv i) hout
    obtain ⟨hown, hreceived⟩ := hlt (hgood _ (mem_append_right _ mem_cons_self))
    rcases h with ⟨hprocess, -⟩ | hkind
    · have hle := hbehind a (mem_of_getElem? ha)
      rw [show a.process = i from hprocess] at hle
      exact hle.trans_lt hown
    · exact hreceived e a hkind ha

theorem Rules.stamp_lt (hgood : ∀ a ∈ w.events, good a.process a.stamp)
    (h : HappensBefore w.events e f) (ha : w.events[e]? = some a)
    (hb : w.events[f]? = some b) : a.stamp < b.stamp := by
  induction h generalizing b with
  | single h =>
    obtain ⟨a', b', ha', hb', hdirect⟩ := h
    cases ha.symm.trans ha'
    cases hb.symm.trans hb'
    exact hrules.stamp_lt_of_direct hinit hw hgood ha hb hdirect
  | tail _ h ih =>
    obtain ⟨c, b', hc, hb', hdirect⟩ := h
    cases hb.symm.trans hb'
    exact (ih hc).trans (hrules.stamp_lt_of_direct hinit hw hgood hc hb hdirect)

end

end

end Clocks

end MessagePassing

end HelixCluster
