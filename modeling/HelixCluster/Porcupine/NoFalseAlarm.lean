import HelixCluster.Lib.GoInt
import HelixCluster.Porcupine.Recorder

/-!
# Recorded histories cause no false alarm

A linearizable object is recorded by any number of clients.
-/

namespace HelixCluster.Porcupine

open List

variable {σ ι ο : Type}

variable {α : Type} {l : List α} {k : Nat}

variable {a : α} {β : Type} {f : α → Option β} {b : α} {p : α → Bool}

section

variable (h : l[k]? = some a)

include h

theorem cons_set_perm (b : α) : (a :: l.set k b).Perm (b :: l) := by
  obtain ⟨hk, rfl⟩ := List.getElem?_eq_some_iff.mp h
  obtain ⟨l₁, l₂, hl, -, hset⟩ : ∃ l₁ l₂, l = l₁ ++ l[k] :: l₂ ∧ l₁.length = k ∧
      l.set k b = l₁ ++ b :: l₂ := exists_of_set hk
  rw [hset]
  calc l[k] :: (l₁ ++ b :: l₂)
      _ |>.Perm (l[k] :: b :: (l₁ ++ l₂)) := perm_middle.cons _
      _ |>.Perm (b :: l[k] :: (l₁ ++ l₂)) := .swap _ _ _
      _ |>.Perm (b :: (l₁ ++ l[k] :: l₂)) := perm_middle.symm.cons _
      _ |>.Perm (b :: l) := .of_eq (congrArg (b :: ·) hl.symm)

theorem flatMap_set_perm {f : α → List β} (extra : List β)
    (hf : f b = f a ++ extra) : ((l.set k b).flatMap f).Perm (extra ++ l.flatMap f) := by
  have hperm := (cons_set_perm h b).flatMap_right f
  rw [flatMap_cons, flatMap_cons, hf, append_assoc] at hperm
  exact (perm_append_left_iff _).mp hperm

theorem filterMap_set_perm (b : α) {old : List β}
    (new : List β) (ha : (f a).toList = old) (hb : (f b).toList = new) :
    (old ++ (l.set k b).filterMap f).Perm (new ++ l.filterMap f) := by
  have hperm := (cons_set_perm h b).filterMap f
  simp only [filterMap_eq_flatMap_toList, flatMap_cons, ha, hb] at hperm ⊢
  exact hperm

theorem filterMap_set_of_eq
    (hf : f a = f b) : (l.filterMap f).Perm ((l.set k b).filterMap f) := by
  have hperm := filterMap_set_perm h b _ (congrArg Option.toList hf) rfl
  exact ((perm_append_left_iff _).mp hperm).symm

theorem countP_set_of_eq (hp : p a = p b) :
    (l.set k b).countP p = l.countP p := by
  have hcount := (cons_set_perm h b).countP_eq p
  rw [countP_cons, countP_cons, hp] at hcount
  exact Nat.add_right_cancel hcount

theorem countP_set_of_new (ha : p a = false)
    (hb : p b = true) : (l.set k b).countP p = l.countP p + 1 := by
  have hcount := (cons_set_perm h b).countP_eq p
  rwa [countP_cons_of_neg (by simp [ha]), countP_cons_of_pos hb] at hcount

end

theorem finalize_clock (r : Recorder ι ο) (token : Int64) (output : ο) (ret : Int64) :
    (r.finalize token output ret).clock = r.clock := by
  unfold Recorder.finalize
  split <;> rfl

theorem finalize_nextTok (r : Recorder ι ο) (token : Int64) (output : ο) (ret : Int64) :
    (r.finalize token output ret).nextTok = r.nextTok := by
  unfold Recorder.finalize
  split <;> rfl

variable {model : Model σ ι ο} {s t : Recording σ ι ο} {points : List (Point σ)}

namespace Recording

theorem Moves.length_le (h : Moves model s t) : s.calls.length ≤ t.calls.length := by
  cases h <;> simp [setPhase]

/-! ### Timestamps and tokens do not wrap -/

/-- The clock counts the timestamps taken, and `nextTok` the tokens handed out. -/
structure Counted (s : Recording σ ι ο) : Prop where
  clock : s.recorder.clock.toInt = s.calls.length + s.calls.countP (fun c => c.phase.ret.isSome)
  nextTok : s.recorder.nextTok.toInt = s.calls.countP (fun c => c.phase.stored)

theorem Counted.clock_lt (h : Counted s) (hfew : s.calls.length < 2 ^ 62) :
    s.recorder.clock.toInt < 2 ^ 63 - 1 := by
  have hclock := h.clock
  have hreturned := countP_le_length (p := fun c : Call ι ο => c.phase.ret.isSome) (l := s.calls)
  omega

theorem Counted.step (h : Counted s) (hfew : s.calls.length < 2 ^ 62) (hmoves : Moves model s t) :
    Counted t := by
  obtain ⟨hclock, htok⟩ := h
  have hstored := countP_le_length (p := fun c : Call ι ο => c.phase.stored) (l := s.calls)
  have htick := toInt_add_one_of_lt (Counted.clock_lt ⟨hclock, htok⟩ hfew)
  cases hmoves with
  | stays => exact ⟨hclock, htok⟩
  | begins clientID input =>
    refine ⟨?_, ?_⟩
    · simp [htick, hclock, Phase.ret]
      omega
    · simp [htok, Phase.stored]
  | @begun k c hcall hphase =>
    have hnext : (s.recorder.nextTok + 1).toInt = s.recorder.nextTok.toInt + 1 :=
      toInt_add_one_of_lt (by omega)
    refine ⟨?_, ?_⟩
    · rw [setPhase, length_set, countP_set_of_eq hcall (by simp [hphase, Phase.ret])]
      exact hclock
    · rw [setPhase, countP_set_of_new hcall (by simp [hphase, Phase.stored]) rfl]
      exact hnext.trans (by omega)
  | effective output next hcall hphase hanswer =>
    refine ⟨?_, ?_⟩
    · rw [setPhase, length_set, countP_set_of_eq hcall (by simp [hphase, Phase.ret])]
      exact hclock
    · rw [setPhase, countP_set_of_eq hcall (by simp [hphase, Phase.stored])]
      exact htok
  | ends hcall hphase =>
    refine ⟨?_, ?_⟩
    · rw [setPhase, length_set, countP_set_of_new hcall (by simp [hphase, Phase.ret]) rfl]
      exact htick.trans (by omega)
    · rw [setPhase, countP_set_of_eq hcall (by simp [hphase, Phase.stored])]
      exact htok
  | ended hcall hphase =>
    refine ⟨?_, ?_⟩
    · rw [setPhase, length_set, countP_set_of_eq hcall (by simp [hphase, Phase.ret]),
        finalize_clock]
      exact hclock
    · rw [setPhase, countP_set_of_eq hcall (by simp [hphase, Phase.stored]), finalize_nextTok]
      exact htok

variable {c d : Call ι ο}

variable {phase : Phase ο}

theorem getElem?_setPhase {j : Nat} (hcall : s.calls[k]? = some c) :
    (s.setPhase k c phase)[j]? = some d ↔
      (j = k ∧ d = { c with phase }) ∨ (j ≠ k ∧ s.calls[j]? = some d) := by
  obtain ⟨hk, -⟩ := List.getElem?_eq_some_iff.mp hcall
  by_cases hj : j = k
  · subst hj
    simp [setPhase, List.getElem?_set_self hk, eq_comm]
  · simp [setPhase, List.getElem?_set_ne (Ne.symm hj), hj]

/-- The client, the input, the first timestamp and the answer stay, and a new second one is the
next. -/
structure Advances (clock : Int64) (c d : Call ι ο) : Prop where
  pending : d.pending = c.pending
  output : ∀ output, c.phase.output = some output → d.phase.output = some output
  ret : d.phase.ret = c.phase.ret ∨ d.phase.ret = some (clock + 1)

theorem Advances.refl (clock : Int64) (c : Call ι ο) : Advances clock c c :=
  ⟨rfl, fun _ h => h, .inl rfl⟩

variable {clock : Int64}

theorem advances_setPhase (hcall : s.calls[k]? = some c)
    (hadvances : Advances clock c { c with phase }) {j : Nat} (hd : s.calls[j]? = some d) :
    ∃ d', (s.setPhase k c phase)[j]? = some d' ∧ Advances clock d d' := by
  by_cases hj : j = k
  · subst hj
    obtain rfl : c = d := Option.some.inj (hcall.symm.trans hd)
    exact ⟨_, (getElem?_setPhase hcall).mpr (.inl ⟨rfl, rfl⟩), hadvances⟩
  · exact ⟨d, (getElem?_setPhase hcall).mpr (.inr ⟨hj, hd⟩), .refl _ d⟩

theorem Moves.advances (h : Moves model s t) (hc : s.calls[k]? = some c) :
    ∃ d, t.calls[k]? = some d ∧ Advances s.recorder.clock c d := by
  cases h with
  | stays => exact ⟨c, hc, .refl _ c⟩
  | begins clientID input =>
    obtain ⟨hk, -⟩ := List.getElem?_eq_some_iff.mp hc
    exact ⟨c, (List.getElem?_append_left hk).trans hc, .refl _ c⟩
  | begun hcall hphase =>
    refine advances_setPhase hcall ?_ hc
    exact ⟨rfl, by simp [hphase, Phase.output], .inl (by simp [hphase, Phase.ret])⟩
  | effective output next hcall hphase hanswer =>
    refine advances_setPhase hcall ?_ hc
    exact ⟨rfl, by simp [hphase, Phase.output], .inl (by simp [hphase, Phase.ret])⟩
  | ends hcall hphase =>
    refine advances_setPhase hcall ?_ hc
    exact ⟨rfl, by simp [hphase, Phase.output], .inr rfl⟩
  | ended hcall hphase =>
    refine advances_setPhase hcall ?_ hc
    exact ⟨rfl, by simp [hphase, Phase.output], .inl (by simp [hphase, Phase.ret])⟩

theorem Moves.fresh (h : Moves model s t) (hk : s.calls.length ≤ k) (hd : t.calls[k]? = some d) :
    d.call = s.recorder.clock + 1 ∧ t.recorder.clock = s.recorder.clock + 1 ∧
      d.phase = .begins := by
  have habsurd : t.calls.length = s.calls.length → False := by
    intro hlength
    obtain ⟨hlt, -⟩ := List.getElem?_eq_some_iff.mp hd
    omega
  cases h with
  | begins clientID input =>
    rw [List.getElem?_append_right hk, List.getElem?_singleton] at hd
    split at hd
    · cases hd
      exact ⟨rfl, rfl, rfl⟩
    · contradiction
  | stays => exact (habsurd rfl).elim
  | begun | effective | ends | ended => exact (habsurd (by simp [setPhase])).elim

/-! ### Timestamps are distinct -/

/-- All timestamps taken so far. -/
def stamps (s : Recording σ ι ο) : List Int64 := s.calls.flatMap Call.stamps

theorem Moves.stamps (h : Moves model s t) :
    (t.recorder.clock = s.recorder.clock ∧ t.stamps.Perm s.stamps) ∨
      (t.recorder.clock = s.recorder.clock + 1 ∧
        t.stamps.Perm ((s.recorder.clock + 1) :: s.stamps)) := by
  cases h with
  | stays => exact .inl ⟨rfl, .refl _⟩
  | begins clientID input =>
    refine .inr ⟨rfl, ?_⟩
    simp [Recording.stamps, Call.stamps, Phase.ret]
  | begun hcall hphase =>
    exact .inl ⟨rfl, flatMap_set_perm hcall [] (by simp [Call.stamps, hphase, Phase.ret])⟩
  | effective output next hcall hphase hanswer =>
    exact .inl ⟨rfl, flatMap_set_perm hcall [] (by simp [Call.stamps, hphase, Phase.ret])⟩
  | ends hcall hphase =>
    exact .inr ⟨rfl, flatMap_set_perm hcall [_] (by simp [Call.stamps, hphase, Phase.ret])⟩
  | ended hcall hphase =>
    exact .inl ⟨finalize_clock .., flatMap_set_perm hcall []
      (by simp [Call.stamps, hphase, Phase.ret])⟩

/-- The timestamps are distinct and not after the clock, and those of a call are in order. -/
structure Stamped (s : Recording σ ι ο) : Prop where
  bound : ∀ x ∈ s.stamps, x.toInt ≤ s.recorder.clock.toInt
  distinct : s.stamps.Nodup
  window : ∀ c ∈ s.calls, ∀ ret, c.phase.ret = some ret → c.call.toInt < ret.toInt

theorem Stamped.call_le (h : Stamped s) (hc : c ∈ s.calls) :
    c.call.toInt ≤ s.recorder.clock.toInt :=
  h.bound _ (mem_flatMap.mpr ⟨c, hc, mem_cons_self⟩)

section

variable (h : Stamped s) (htick : (s.recorder.clock + 1).toInt = s.recorder.clock.toInt + 1)
  (hmoves : Moves model s t)

include h htick hmoves

theorem Stamped.window_step :
    ∀ d ∈ t.calls, ∀ ret, d.phase.ret = some ret → d.call.toInt < ret.toInt := by
  intro d hd ret hret
  obtain ⟨k, hk⟩ := mem_iff_getElem?.mp hd
  rcases lt_or_ge k s.calls.length with hlt | hge
  · obtain ⟨d', hd', hadvances⟩ := hmoves.advances (List.getElem?_eq_getElem hlt)
    obtain rfl : d' = d := Option.some.inj (hd'.symm.trans hk)
    have hmem := getElem_mem hlt
    have hcall : d'.call = s.calls[k].call := congrArg Pending.call hadvances.pending
    rw [hcall]
    rcases hadvances.ret with hold | hnew
    · exact h.window _ hmem ret (hold.symm.trans hret)
    obtain rfl : s.recorder.clock + 1 = ret := Option.some.inj (hnew.symm.trans hret)
    have := h.call_le hmem
    omega
  · rw [(hmoves.fresh hge hk).2.2] at hret
    contradiction

theorem Stamped.step : Stamped t := by
  refine ⟨?_, ?_, h.window_step htick hmoves⟩
  · intro x hx
    rcases hmoves.stamps with ⟨hclock, hperm⟩ | ⟨hclock, hperm⟩
    · rw [hclock]
      exact h.bound x (hperm.mem_iff.mp hx)
    rw [hclock, htick]
    rcases mem_cons.mp (hperm.mem_iff.mp hx) with rfl | hx
    · exact htick.le
    · have := h.bound x hx
      omega
  rcases hmoves.stamps with ⟨hclock, hperm⟩ | ⟨hclock, hperm⟩
  · exact hperm.nodup_iff.mpr h.distinct
  · refine hperm.nodup_iff.mpr (nodup_cons.mpr ⟨fun hmem => ?_, h.distinct⟩)
    have := h.bound _ hmem
    omega

end

/-! ### Each `End` finds its operation -/

/-- The recorder holds the pending operations by their tokens, and the completed ones. -/
structure Paired (s : Recording σ ι ο) : Prop where
  pending : s.recorder.pending.entries.Perm (s.calls.filterMap Call.entry)
  tokens : ∀ token ∈ s.recorder.pending, token.toInt < s.recorder.nextTok.toInt
  ops : s.recorder.ops.Perm (s.calls.filterMap Call.operation)

theorem Paired.lookup (h : Paired s) {token : Int64} (hcall : s.calls[k]? = some c)
    (htoken : c.phase.token = some token) : s.recorder.pending.lookup token = some c.pending := by
  refine AList.mem_lookup_iff.mpr (h.pending.mem_iff.mpr (mem_filterMap.mpr ⟨c, ?_, ?_⟩))
  · exact mem_of_getElem? hcall
  · simp [Call.entry, htoken]

theorem Paired.step (h : Paired s)
    (hnext : (s.recorder.nextTok + 1).toInt = s.recorder.nextTok.toInt + 1)
    (hmoves : Moves model s t) : Paired t := by
  obtain ⟨hpending, htokens, hops⟩ := h
  cases hmoves with
  | stays => exact ⟨hpending, htokens, hops⟩
  | begins clientID input =>
    refine ⟨?_, htokens, ?_⟩
    · rwa [filterMap_append, filterMap_cons_none rfl, filterMap_nil, append_nil]
    · rwa [filterMap_append, filterMap_cons_none rfl, filterMap_nil, append_nil]
  | @begun k c hcall hphase =>
    have hentry : (Call.entry c).toList = [] := by rw [Call.entry, hphase]; rfl
    have hdone : Call.operation c = none := by rw [Call.operation, hphase]
    have hfresh : s.recorder.nextTok ∉ s.recorder.pending := fun hmem =>
      lt_irrefl _ (htokens _ hmem)
    refine ⟨?_, ?_, hops.trans (filterMap_set_of_eq hcall hdone)⟩
    · show (s.recorder.pending.insert s.recorder.nextTok c.pending).entries.Perm _
      rw [AList.entries_insert_of_notMem hfresh]
      refine (hpending.cons _).trans (List.Perm.symm ?_)
      exact filterMap_set_perm hcall _ [_] hentry rfl
    intro token hmem
    show token.toInt < (s.recorder.nextTok + 1).toInt
    rcases (AList.mem_insert _).mp hmem with rfl | hmem
    · omega
    · have := htokens token hmem
      omega
  | effective output next hcall hphase hanswer =>
    refine ⟨hpending.trans (filterMap_set_of_eq hcall ?_), htokens,
      hops.trans (filterMap_set_of_eq hcall ?_)⟩
    · rw [Call.entry, hphase]
      rfl
    · rw [Call.operation, hphase]
      rfl
  | ends hcall hphase =>
    refine ⟨hpending.trans (filterMap_set_of_eq hcall ?_), htokens,
      hops.trans (filterMap_set_of_eq hcall ?_)⟩
    · rw [Call.entry, hphase]
      rfl
    · rw [Call.operation, hphase]
      rfl
  | @ended k c token ret output hcall hphase =>
    have htoken : c.phase.token = some token := by rw [hphase]; rfl
    have hlookup := Paired.lookup ⟨hpending, htokens, hops⟩ hcall htoken
    have hentry : (Call.entry c).toList = [⟨token, c.pending⟩] := by rw [Call.entry, hphase]; rfl
    have hdone : (Call.operation c).toList = [] := by rw [Call.operation, hphase]; rfl
    have hrest : s.recorder.pending.entries.Perm (⟨token, c.pending⟩ ::
        (s.setPhase k c (.ended output ret)).filterMap Call.entry) :=
      hpending.trans (filterMap_set_perm hcall _ [] hentry rfl).symm
    rw [Recorder.finalize, hlookup]
    refine ⟨?_, fun j hj => htokens j (AList.mem_erase.mp hj).2, ?_⟩
    · have hkerase := hrest.kerase (a := token) s.recorder.pending.nodupKeys
      exact hkerase.trans (.of_eq (kerase_cons_eq rfl))
    · refine (perm_append_comm.trans (hops.cons _)).trans (List.Perm.symm ?_)
      exact filterMap_set_perm hcall _ [_] hdone rfl

/-! ### Linearization points -/

/-- The point lies between the timestamps of the call, and the specification allows the answer. -/
structure Explains (model : Model σ ι ο) (p : Point σ) (c : Call ι ο) : Prop where
  called : c.call.toInt ≤ p.time.toInt
  returned : ∀ ret, c.phase.ret = some ret → p.time.toInt < ret.toInt
  answered : ∃ output, c.phase.output = some output ∧
    model.step p.before c.input output = (true, p.after)

/-- The points lead from one state of the object to another. -/
def Path : σ → List (Point σ) → σ → Prop
  | start, [], finish => start = finish
  | start, p :: points, finish => p.before = start ∧ Path p.after points finish

theorem Path.concat {start finish next : σ}
    (h : Path start points finish) (k : Nat) (time : Int64) :
    Path start (points ++ [⟨k, time, finish, next⟩]) next := by
  induction points generalizing start with
  | nil => exact ⟨h.symm, rfl⟩
  | cons p points ih => exact ⟨h.1, ih h.2⟩

/-- The points of the calls that have taken effect lead to the state of the object. -/
structure Linearized (model : Model σ ι ο) (s : Recording σ ι ο) : Prop where
  path : Path model.init s.points s.object
  nodup : (s.points.map Point.call).Nodup
  sorted : s.points.Pairwise fun p q => p.time.toInt ≤ q.time.toInt
  recent : ∀ p ∈ s.points, p.time.toInt ≤ s.recorder.clock.toInt
  sound : ∀ p ∈ s.points, ∃ c, s.calls[p.call]? = some c ∧ Explains model p c
  complete : ∀ k c, s.calls[k]? = some c → c.phase.output.isSome → k ∈ s.points.map Point.call

theorem Explains.advances {p : Point σ} (h : Explains model p c) (hadvances : Advances clock c d)
    (hrecent : p.time.toInt < (clock + 1).toInt) : Explains model p d := by
  have hcall : d.call = c.call := congrArg Pending.call hadvances.pending
  have hinput : d.input = c.input := congrArg Pending.input hadvances.pending
  refine ⟨hcall ▸ h.called, ?_, ?_⟩
  · intro ret hret
    rcases hadvances.ret with hold | hnew
    · exact h.returned ret (hold.symm.trans hret)
    · obtain rfl : clock + 1 = ret := Option.some.inj (hnew.symm.trans hret)
      exact hrecent
  · obtain ⟨output, houtput, hanswer⟩ := h.answered
    exact ⟨output, hadvances.output output houtput, hinput ▸ hanswer⟩

theorem Moves.clock_le (h : Moves model s t)
    (htick : (s.recorder.clock + 1).toInt = s.recorder.clock.toInt + 1) :
    s.recorder.clock.toInt ≤ t.recorder.clock.toInt := by
  rcases h.stamps with ⟨hclock, -⟩ | ⟨hclock, -⟩ <;> rw [hclock]
  omega

section

variable (h : Linearized model s)
  (htick : (s.recorder.clock + 1).toInt = s.recorder.clock.toInt + 1) (hmoves : Moves model s t)

include h htick hmoves

theorem Linearized.sound_step {p : Point σ} (hp : p ∈ s.points) :
    ∃ d, t.calls[p.call]? = some d ∧ Explains model p d := by
  obtain ⟨c, hc, hexplains⟩ := h.sound p hp
  obtain ⟨d, hd, hadvances⟩ := hmoves.advances hc
  have hrecent := h.recent p hp
  exact ⟨d, hd, hexplains.advances hadvances (by omega)⟩

theorem Linearized.keep (hpoints : t.points = s.points) (hobject : t.object = s.object)
    (houtput : ∀ (k : Nat) (d : Call ι ο), t.calls[k]? = some d → d.phase.output.isSome →
      ∃ c : Call ι ο, s.calls[k]? = some c ∧ c.phase.output.isSome) : Linearized model t where
  path := by rw [hpoints, hobject]; exact h.path
  nodup := by rw [hpoints]; exact h.nodup
  sorted := by rw [hpoints]; exact h.sorted
  recent := by
    rw [hpoints]
    exact fun p hp => (h.recent p hp).trans (hmoves.clock_le htick)
  sound := by
    rw [hpoints]
    exact fun p hp => h.sound_step htick hmoves hp
  complete := by
    rw [hpoints]
    intro k d hd hsome
    obtain ⟨c, hc, hsome⟩ := houtput k d hd hsome
    exact h.complete k c hc hsome

end

theorem output_setPhase (hcall : s.calls[k]? = some c) (houtput : phase.output = c.phase.output)
    (j : Nat) (d : Call ι ο) (hd : (s.setPhase k c phase)[j]? = some d)
    (hsome : d.phase.output.isSome) : ∃ c, s.calls[j]? = some c ∧ c.phase.output.isSome := by
  rcases (getElem?_setPhase hcall).mp hd with ⟨rfl, rfl⟩ | ⟨-, hd⟩
  · exact ⟨c, hcall, houtput ▸ hsome⟩
  · exact ⟨d, hd, hsome⟩

theorem Linearized.step (h : Linearized model s) (hstamped : Stamped s)
    (htick : (s.recorder.clock + 1).toInt = s.recorder.clock.toInt + 1)
    (hmoves : Moves model s t) : Linearized model t := by
  have hcases := hmoves
  cases hcases with
  | stays => exact h
  | begins clientID input =>
    refine h.keep htick hmoves rfl rfl ?_
    intro k d hd hsome
    rcases lt_or_ge k s.calls.length with hlt | hge
    · exact ⟨d, (List.getElem?_append_left hlt).symm.trans hd, hsome⟩
    · rw [(hmoves.fresh hge hd).2.2] at hsome
      contradiction
  | begun hcall hphase =>
    exact h.keep htick hmoves rfl rfl (output_setPhase hcall (by rw [hphase]; rfl))
  | @effective k c token output next hcall hphase hanswer =>
    have hnew : k ∉ s.points.map Point.call := by
      intro hmem
      obtain ⟨p, hp, rfl⟩ := mem_map.mp hmem
      obtain ⟨d, hd, hexplains⟩ := h.sound p hp
      obtain rfl : c = d := Option.some.inj (hcall.symm.trans hd)
      obtain ⟨o, ho, -⟩ := hexplains.answered
      rw [hphase] at ho
      contradiction
    have hcalled : c.call.toInt ≤ s.recorder.clock.toInt := hstamped.call_le (mem_of_getElem? hcall)
    refine ⟨h.path.concat k s.recorder.clock, ?_, ?_, ?_, ?_, ?_⟩
    · rw [map_append, map_singleton, ← concat_eq_append]
      exact h.nodup.concat hnew
    · exact pairwise_append.mpr ⟨h.sorted, pairwise_singleton .., by simpa using h.recent⟩
    · simpa [or_imp, forall_and] using h.recent
    · intro p hp
      rcases mem_append.mp hp with hp | hp
      · exact h.sound_step htick hmoves hp
      obtain rfl := mem_singleton.mp hp
      exact ⟨_, (getElem?_setPhase hcall).mpr (.inl ⟨rfl, rfl⟩), hcalled,
        fun ret hret => by contradiction, output, rfl, hanswer⟩
    intro j d hd hsome
    rw [map_append, mem_append]
    rcases (getElem?_setPhase hcall).mp hd with ⟨rfl, -⟩ | ⟨-, hd⟩
    · exact .inr (mem_singleton_self _)
    · exact .inl (h.complete j d hd hsome)
  | ends hcall hphase =>
    exact h.keep htick hmoves rfl rfl (output_setPhase hcall (by rw [hphase]; rfl))
  | ended hcall hphase =>
    exact h.keep htick hmoves rfl rfl (output_setPhase hcall (by rw [hphase]; rfl))

/-! ### The history is a linearization -/

/-- The operation has the input, the answer and the timestamps, and one not yet taken is after the
clock. -/
structure Shows (clock : Int64) (c : Call ι ο) (op : Operation ι ο) : Prop where
  input : op.input = c.input
  output : c.phase.output = some op.output
  call : op.call = c.call
  ret : c.phase.ret = some op.ret ∨ clock.toInt < op.ret.toInt

/-- Operations may be left out if they did not change the state, or nothing is kept after them. -/
theorem accepts_filterMap {start finish : σ}
    {f : Point σ → Option (Operation ι ο)} (hpath : Path start points finish)
    (hanswer : ∀ p ∈ points, ∀ op, f p = some op →
      model.step p.before op.input op.output = (true, p.after))
    (hkept : points.Pairwise fun p q => (f p).isSome ∨ p.after = p.before ∨ (f q).isNone) :
    Accepts model start (points.filterMap f) := by
  induction points generalizing start with
  | nil => trivial
  | cons p points ih =>
    obtain ⟨rfl, hpath⟩ := hpath
    obtain ⟨hfirst, hkept⟩ := pairwise_cons.mp hkept
    obtain ⟨hp, hanswer⟩ := forall_mem_cons.mp hanswer
    have hrest := ih hpath hanswer hkept
    cases hf : f p with
    | some op =>
      rw [filterMap_cons_some hf]
      simp only [Accepts, hp op hf, true_and]
      exact hrest
    | none =>
      rw [filterMap_cons_none hf]
      by_cases hsame : p.after = p.before
      · exact hsame ▸ hrest
      have hnone : points.filterMap f = [] := by
        refine filterMap_eq_nil_iff.mpr fun q hq => ?_
        simpa [hf, hsame] using hfirst q hq
      rw [hnone]
      trivial

theorem perm_filterMap_getElem? {order : List Nat}
    (hnodup : order.Nodup) (hcomplete : ∀ k a, l[k]? = some a → (f a).isSome → k ∈ order) :
    (order.filterMap fun k => l[k]?.bind f).Perm (l.filterMap f) := by
  have hrange : (List.range l.length).map (fun k => l[k]?) = l.map some := by
    refine ext_getElem (by simp) fun i hi _ => ?_
    simp_all
  have hlist : l.filterMap f = (List.range l.length).filterMap fun k => l[k]?.bind f := by
    rw [← Function.comp_def (fun a : Option α => a.bind f), ← filterMap_map, hrange, filterMap_map]
    rfl
  have hfilter : ∀ order : List Nat, (order.filterMap fun k => l[k]?.bind f) =
      (order.filter fun k => (l[k]?.bind f).isSome).filterMap fun k => l[k]?.bind f := by
    intro order
    rw [filterMap_filter]
    refine filterMap_congr fun k _ => ?_
    cases l[k]?.bind f <;> simp
  rw [hlist, hfilter, hfilter (List.range _)]
  refine List.Perm.filterMap _ ((perm_ext_iff_of_nodup (hnodup.filter _)
    (nodup_range.filter _)).mpr fun k => ?_)
  simp only [mem_filter, mem_range, and_congr_left_iff]
  intro hsome
  obtain ⟨b, hb⟩ := Option.isSome_iff_exists.mp hsome
  obtain ⟨a, ha, hfa⟩ := Option.bind_eq_some_iff.mp hb
  refine iff_of_true (hcomplete k a ha (by simp [hfa])) ?_
  exact (List.getElem?_eq_some_iff.mp ha).1

theorem Linearized.linearizable (h : Linearized model s) {f : Call ι ο → Option (Operation ι ο)}
    (hf : ∀ c op, f c = some op → Shows s.recorder.clock c op)
    (hkept : s.points.Pairwise fun p q => (s.calls[p.call]?.bind f).isSome ∨
      p.after = p.before ∨ (s.calls[q.call]?.bind f).isNone) :
    Linearizable model (s.calls.filterMap f) := by
  have hshows : ∀ p ∈ s.points, ∀ op, s.calls[p.call]?.bind f = some op →
      ∃ c, Explains model p c ∧ Shows s.recorder.clock c op := by
    intro p hp op hop
    obtain ⟨c, hc, hexplains⟩ := h.sound p hp
    rw [hc] at hop
    exact ⟨c, hexplains, hf c op hop⟩
  refine ⟨s.points.filterMap fun p => s.calls[p.call]?.bind f, ?_, ?_, ?_⟩
  · rw [← Function.comp_def (fun k : Nat => s.calls[k]?.bind f), ← filterMap_map]
    refine perm_filterMap_getElem? h.nodup fun k c hc hsome => ?_
    obtain ⟨op, hop⟩ := Option.isSome_iff_exists.mp hsome
    exact h.complete k c hc (by simp [(hf c op hop).output])
  · refine pairwise_filterMap.mpr (h.sorted.imp_of_mem ?_)
    intro p q hp hq hle a ha b hb
    obtain ⟨c, hexplains, hshow⟩ := hshows p hp a ha
    obtain ⟨d, hlast, hlater⟩ := hshows q hq b hb
    have hcalled := hexplains.called
    have hrecent := h.recent q hq
    rw [Precedes, Int64.lt_iff_toInt_lt, hshow.call]
    rcases hlater.ret with hret | hret
    · have := hlast.returned _ hret
      omega
    · omega
  refine accepts_filterMap h.path (fun p hp op hop => ?_) hkept
  obtain ⟨c, hexplains, hshow⟩ := hshows p hp op hop
  obtain ⟨output, houtput, hanswer⟩ := hexplains.answered
  obtain rfl : op.output = output := Option.some.inj (hshow.output.symm.trans houtput)
  rw [hshow.input]
  exact hanswer

/-! ### Runs -/

/-- The invariant of a run. -/
structure Consistent (model : Model σ ι ο) (s : Recording σ ι ο) : Prop where
  counted : Counted s
  stamped : Stamped s
  paired : Paired s
  linearized : Linearized model s

theorem consistent_start (model : Model σ ι ο) : Consistent model (start model) where
  counted := ⟨rfl, rfl⟩
  stamped := ⟨by simp [Recording.stamps, start], by simp [Recording.stamps, start], by simp [start]⟩
  paired := ⟨.refl _, by simp [start, newRecorder], .refl _⟩
  linearized := ⟨rfl, .nil, .nil, by simp [start], by simp [start], by simp [start]⟩

theorem Consistent.tick (h : Consistent model s) (hfew : s.calls.length < 2 ^ 62) :
    (s.recorder.clock + 1).toInt = s.recorder.clock.toInt + 1 :=
  toInt_add_one_of_lt (h.counted.clock_lt hfew)

theorem Consistent.step (h : Consistent model s) (hfew : s.calls.length < 2 ^ 62)
    (hmoves : Moves model s t) : Consistent model t := by
  have htick := h.tick hfew
  have hnext : (s.recorder.nextTok + 1).toInt = s.recorder.nextTok.toInt + 1 := by
    have htok := h.counted.nextTok
    have hstored := countP_le_length (p := fun c : Call ι ο => c.phase.stored) (l := s.calls)
    exact toInt_add_one_of_lt (by omega)
  exact ⟨h.counted.step hfew hmoves, h.stamped.step htick hmoves, h.paired.step hnext hmoves,
    h.linearized.step h.stamped htick hmoves⟩

/-- What holds after a state `s` of a run: the calls that began since have later timestamps. -/
structure Since (model : Model σ ι ο) (s t : Recording σ ι ο) : Prop where
  consistent : Consistent model t
  clock_le : s.recorder.clock.toInt ≤ t.recorder.clock.toInt
  later : ∀ (k : Nat) (c : Call ι ο), s.calls.length ≤ k → t.calls[k]? = some c →
    s.recorder.clock.toInt < c.call.toInt

theorem Since.step {u : Recording σ ι ο} (h : Since model s t) (hfew : t.calls.length < 2 ^ 62)
    (hmoves : Moves model t u) : Since model s u := by
  have htick := h.consistent.tick hfew
  have hclock := h.clock_le
  refine ⟨h.consistent.step hfew hmoves, hclock.trans (hmoves.clock_le htick), ?_⟩
  intro k d hk hd
  rcases lt_or_ge k t.calls.length with hlt | hge
  · obtain ⟨d', hd', hadvances⟩ := hmoves.advances (List.getElem?_eq_getElem hlt)
    obtain rfl : d' = d := Option.some.inj (hd'.symm.trans hd)
    have hcall : d'.call = t.calls[k].call := congrArg Pending.call hadvances.pending
    rw [hcall]
    exact h.later k _ hk (List.getElem?_eq_getElem hlt)
  · rw [(hmoves.fresh hge hd).1]
    omega

/-- The state after a run. -/
def run (model : Model σ ι ο) (es : List (Event ι ο)) : Recording σ ι ο :=
  es.foldl (Recording.step model) (start model)

theorem Consistent.since (h : Consistent model s) : Since model s s := by
  refine ⟨h, le_rfl, fun k c hk hc => ?_⟩
  rw [List.getElem?_eq_none hk] at hc
  contradiction

theorem Consistent.foldl (h : Consistent model s) (es : List (Event ι ο))
    (hfew : (es.foldl (Recording.step model) s).calls.length < 2 ^ 62) :
    Since model s (es.foldl (Recording.step model) s) := by
  refine forall_states (I := fun t => t.calls.length < 2 ^ 62 → Since model s t) ?_
    (fun _ => h.since) es _ (foldl_mem_states s es) hfew
  intro t e ht hfew
  have hmoves := step_moves model t e
  have hfew : t.calls.length < 2 ^ 62 := lt_of_le_of_lt hmoves.length_le hfew
  exact (ht hfew).step hfew hmoves

/-! ### The history -/

theorem history_perm (h : Consistent model s) (sorting : SortSlice (@callLess ι ο)) :
    (s.recorder.history sorting).Perm (s.calls.filterMap Call.operation) :=
  (sorting.perm _).trans h.paired.ops

variable {op : Operation ι ο}

theorem operation_eq_some (h : c.operation = some op) :
    ∃ output ret, c.phase = .ended output ret ∧ op = ⟨c.clientID, c.input, output, c.call, ret⟩ := by
  unfold Call.operation at h
  split at h
  · next output ret hphase => exact ⟨output, ret, hphase, (Option.some.inj h).symm⟩
  · contradiction

theorem operation_shows (h : c.operation = some op) : Shows clock c op := by
  obtain ⟨output, ret, hphase, rfl⟩ := operation_eq_some h
  exact ⟨rfl, by rw [hphase]; rfl, rfl, .inl (by rw [hphase]; rfl)⟩

variable {late : Int64}

theorem unended_shows (hlate : clock.toInt < late.toInt) (h : c.unended late = some op) :
    Shows clock c op := by
  unfold Call.unended at h
  split at h
  · next token output hphase =>
    cases h
    exact ⟨rfl, by rw [hphase]; rfl, rfl, .inr hlate⟩
  · next token output ret hphase =>
    cases h
    exact ⟨rfl, by rw [hphase]; rfl, rfl, .inl (by rw [hphase]; rfl)⟩
  · contradiction

theorem Stamped.call_lt_ret (h : Stamped s) (hc : c ∈ s.calls)
    (hshows : Shows s.recorder.clock c op) : op.call < op.ret := by
  rw [Int64.lt_iff_toInt_lt, hshows.call]
  rcases hshows.ret with hret | hret
  · exact h.window c hc _ hret
  · exact lt_of_le_of_lt (h.call_le hc) hret

theorem stamps_operations (calls : List (Call ι ο)) :
    ((calls.filterMap Call.operation).flatMap fun op => [op.call, op.ret]).Sublist
      (calls.flatMap Call.stamps) := by
  induction calls with
  | nil => exact .slnil
  | cons c calls ih =>
    rw [flatMap_cons]
    cases hop : c.operation with
    | none =>
      rw [filterMap_cons_none hop]
      exact ih.trans (sublist_append_right _ _)
    | some op =>
      obtain ⟨output, ret, hphase, rfl⟩ := operation_eq_some hop
      rw [filterMap_cons_some hop, flatMap_cons]
      refine List.Sublist.append ?_ ih
      rw [Call.stamps, hphase]
      exact .refl _

/-- The operation of a call that has taken effect. -/
def completed (late : Int64) (c : Call ι ο) : Option (Operation ι ο) :=
  c.operation.or (c.unended late)

theorem completed_shows (hlate : clock.toInt < late.toInt) (h : completed late c = some op) :
    Shows clock c op := by
  rcases Option.or_eq_some_iff.mp h with hop | ⟨-, hop⟩
  · exact operation_shows hop
  · exact unended_shows hlate hop

theorem completed_isSome (h : c.phase.output.isSome) : (completed late c).isSome := by
  obtain ⟨clientID, input, call, phase⟩ := c
  cases phase <;> first | rfl | contradiction

theorem filterMap_completed (late : Int64) (calls : List (Call ι ο)) :
    (calls.filterMap Call.operation ++ calls.filterMap (Call.unended late)).Perm
      (calls.filterMap (completed late)) := by
  induction calls with
  | nil => exact .refl _
  | cons c calls ih =>
    obtain ⟨clientID, input, call, phase⟩ := c
    cases phase with
    | begins | begun => exact ih
    | ended => exact ih.cons _
    | effective | ends => exact perm_middle.trans (ih.cons _)

theorem Linearized.linearizable_completed (h : Linearized model s)
    (hlate : s.recorder.clock.toInt < late.toInt) :
    Linearizable model (s.calls.filterMap (completed late)) := by
  refine h.linearizable (fun c op hop => completed_shows hlate hop) ?_
  refine pairwise_of_forall_mem_list fun p hp q hq => .inl ?_
  obtain ⟨c, hc, hexplains⟩ := h.sound p hp
  obtain ⟨output, houtput, -⟩ := hexplains.answered
  rw [hc]
  exact completed_isSome (by simp [houtput])

theorem Since.ret_lt_call (h : Since model s t) (hs : Consistent model s) {a b : Operation ι ο}
    (hc : c ∈ s.calls) (ha : c.operation = some a) (hd : d ∈ t.calls.drop s.calls.length)
    (hb : d.operation = some b) : a.ret < b.call := by
  obtain ⟨output, ret, hphase, rfl⟩ := operation_eq_some ha
  obtain ⟨_, _, -, rfl⟩ := operation_eq_some hb
  obtain ⟨k, hk⟩ := mem_iff_getElem?.mp hd
  rw [List.getElem?_drop] at hk
  have hlater := h.later _ d (Nat.le_add_right _ _) hk
  have hbound : ret.toInt ≤ s.recorder.clock.toInt := by
    refine hs.stamped.bound ret (mem_flatMap.mpr ⟨c, hc, ?_⟩)
    simp [Call.stamps, hphase, Phase.ret]
  exact Int64.lt_iff_toInt_lt.mpr (lt_of_le_of_lt hbound hlater)

end Recording

open Recording

/-- The history has the ended operations in real time, and is accepted with those in effect, or
without them if they are harmless. -/
theorem recorded_history_accepted (sorting : SortSlice (@callLess ι ο))
    (checking : SortSlice (@opLess ι ο)) (model : Model σ ι ο) (hlawful : model.Lawful)
    (past future : List (Event ι ο))
    (hfew : (run model (past ++ future)).calls.length < 2 ^ 62) :
    let s := run model past
    let t := run model (past ++ future)
    let history := t.recorder.history sorting
    history.Perm (t.calls.filterMap Call.operation) ∧
      (history.flatMap fun op => [op.call, op.ret]).Nodup ∧
      (∀ op ∈ history, op.call < op.ret) ∧
      (∀ a ∈ s.recorder.history sorting,
        ∀ b ∈ (t.calls.drop s.calls.length).filterMap Call.operation, a.ret < b.call) ∧
      (∀ late, t.recorder.clock < late →
        checkOperations checking model (history ++ t.unended late) = true) ∧
      (t.Harmless → checkOperations checking model history = true) := by
  intro s t history
  have ht : t = future.foldl (Recording.step model) s := foldl_append ..
  have hs : Consistent model s := by
    have hgrows := forall_states (I := fun t => s.calls.length ≤ t.calls.length)
      (fun t e ht => ht.trans (step_moves model t e).length_le) le_rfl future _ (foldl_mem_states s future)
    rw [← ht] at hgrows
    exact ((consistent_start model).foldl past (hgrows.trans_lt hfew)).consistent
  have hsince : Since model s t := ht ▸ hs.foldl future (ht ▸ hfew)
  have hperm : history.Perm (t.calls.filterMap Call.operation) :=
    history_perm hsince.consistent sorting
  have hstamped := hsince.consistent.stamped
  have hwindow : ∀ op ∈ history, op.call < op.ret := by
    intro op hop
    obtain ⟨c, hc, hop⟩ := mem_filterMap.mp (hperm.mem_iff.mp hop)
    exact hstamped.call_lt_ret hc (operation_shows hop)
  refine ⟨hperm, ?_, hwindow, ?_, ?_, ?_⟩
  · refine (hperm.flatMap_right _).nodup_iff.mpr ?_
    exact (stamps_operations t.calls).nodup hstamped.distinct
  · intro a ha b hb
    obtain ⟨c, hc, ha⟩ := mem_filterMap.mp ((history_perm hs sorting).mem_iff.mp ha)
    obtain ⟨d, hd, hb⟩ := mem_filterMap.mp hb
    exact hsince.ret_lt_call hs hc ha hd hb
  · intro late hlate
    rw [Int64.lt_iff_toInt_lt] at hlate
    have hcompleted := (hperm.append_right (t.unended late)).trans (filterMap_completed late t.calls)
    rw [check_operations_iff checking model _ hlawful, linearizable_perm hcompleted]
    · exact hsince.consistent.linearized.linearizable_completed hlate
    intro op hop
    obtain ⟨c, hc, hop⟩ := mem_filterMap.mp (hcompleted.mem_iff.mp hop)
    exact hstamped.call_lt_ret hc (completed_shows hlate hop)
  intro hharmless
  rw [check_operations_iff checking model _ hlawful hwindow, linearizable_perm hperm]
  exact hsince.consistent.linearized.linearizable (fun c op hop => operation_shows hop) hharmless

/-- Insertion sort implements `sort.Slice` for the comparison of `History`. -/
def callSort : SortSlice (@callLess ι ο) :=
  .insertionSort callLess
    (fun a b c => by
      simp only [callLess, decide_eq_false_iff_not, Int64.lt_iff_toInt_lt]
      omega)
    (fun a b => by
      simp only [callLess, decide_eq_false_iff_not, Int64.lt_iff_toInt_lt]
      omega)

/-- A client writes 1 to the register. -/
def writeOne : List (Event RegOp Int) :=
  [.tickBegin 0 (.write 1), .proceed 0 .storeBegin, .proceed 0 (.takeEffect 0)]

/-- A client ends the write, while another one has read the value without ending its call. -/
def readUnended : List (Event RegOp Int) :=
  [.tickBegin 1 .read, .proceed 1 .storeBegin, .proceed 1 (.takeEffect 1), .proceed 0 .tickEnd,
    .proceed 0 .storeEnd]

/-- A client reads 1 and ends its call. -/
def readOne : List (Event RegOp Int) :=
  [.tickBegin 1 .read, .proceed 1 .storeBegin, .proceed 1 (.takeEffect 1), .proceed 1 .tickEnd,
    .proceed 1 .storeEnd]

theorem recorded_write_accepted : checkOperations opSort registerModel
      ((run registerModel (writeOne ++ readUnended)).recorder.history callSort) = true :=
  (recorded_history_accepted callSort opSort registerModel registerModel_lawful writeOne readUnended
    (by decide)).2.2.2.2.2 (by decide)

/-- The read of a write that has not ended is rejected: the history does not have the write. -/
theorem read_of_unended_write_rejected :
    registerModel.Lawful ∧ (run registerModel (writeOne ++ readOne)).object = 1 ∧
      checkOperations opSort registerModel
        ((run registerModel (writeOne ++ readOne)).recorder.history callSort) = false :=
  ⟨registerModel_lawful, by decide, by decide⟩

end HelixCluster.Porcupine
