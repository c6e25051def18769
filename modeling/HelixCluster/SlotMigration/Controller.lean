import HelixCluster.Lib.GoMap
import HelixCluster.Lib.Runs

/-!
# Atomic slot migration

The `Controller` of `pkg/slotmigration`: a four-phase migration of a slot and its session. The owner
changes at the commit only, unless the slot is seeded in flight (`ownership_atomic_iff`).
-/

namespace HelixCluster.SlotMigration

inductive Phase where
  | idle
  | prepare
  | transfer
  | committed
  | aborted
  deriving DecidableEq

/-- The errors of the controller. -/
inductive Error where
  | busy
  | noMigration
  | emptyArg
  | sameNode
  | unowned
  deriving DecidableEq

structure Migration where
  slot : Str
  session : Str
  src : Str
  dst : Str
  startTick : Int64
  transferTick : Int64
  failAtTransfer : Bool
  deriving DecidableEq

structure Controller where
  owner : GoMap Str Str
  alive : GoMap Str Bool
  phase : Phase
  transferBudget : Int64
  mig : Option Migration

def newController (transferTicks : Int64) : Controller where
  owner := ∅
  alive := ∅
  phase := .idle
  transferBudget := if transferTicks < 1 then 1 else transferTicks
  mig := none

/-- What a call returns: its error, and the phase if it is a step. -/
structure Answer where
  error : Option Error
  phase : Option Phase
  deriving DecidableEq

/-- The answer of a call that succeeds. -/
def Answer.ok : Answer := ⟨none, none⟩

/-- The answer of a call that fails. -/
def Answer.fail (e : Error) : Answer := ⟨some e, none⟩

/-- A call, with the tick that the clock returns to it. -/
inductive Call where
  | seed (slot session owner : Str)
  | startMigration (slot session src dst : Str) (now : Int64)
  | injectTransferFailure
  | step (now : Int64)
  | abort

namespace Controller

/-- `Owner`. -/
def ownerOf (c : Controller) (slot : Str) : Option Str :=
  (c.owner.lookup slot).filter (· ≠ [])

def seed (c : Controller) (slot session owner : Str) : Controller × Answer :=
  if slot = [] ∨ session = [] ∨ owner = [] then (c, .fail .emptyArg)
  else
    ({ c with owner := c.owner.insert slot owner, alive := c.alive.insert session true }, .ok)

def startMigration (c : Controller) (slot session src dst : Str) (now : Int64) :
    Controller × Answer :=
  if slot = [] ∨ session = [] ∨ src = [] ∨ dst = [] then (c, .fail .emptyArg)
  else if src = dst then (c, .fail .sameNode)
  else if c.phase = .prepare ∨ c.phase = .transfer then (c, .fail .busy)
  else if c.owner.lookup slot ≠ some src then (c, .fail .unowned)
  else
    ({ c with
        mig := some ⟨slot, session, src, dst, now, -1, false⟩
        alive := c.alive.insert session true
        phase := .prepare }, .ok)

def injectTransferFailure (c : Controller) : Controller × Answer :=
  match c.mig with
  | none => (c, .fail .noMigration)
  | some m =>
    if c.phase ≠ .prepare ∧ c.phase ≠ .transfer then (c, .fail .noMigration)
    else ({ c with mig := some { m with failAtTransfer := true } }, .ok)

def commitNow (c : Controller) (m : Migration) : Controller :=
  { c with
    owner := c.owner.insert m.slot m.dst
    alive := c.alive.insert m.session true
    phase := .committed }

def abortNow (c : Controller) (m : Migration) : Controller :=
  { c with
    owner := c.owner.insert m.slot m.src
    alive := c.alive.insert m.session true
    phase := .aborted }

def step (c : Controller) (now : Int64) : Controller × Answer :=
  match c.mig, c.phase with
  | none, phase => (c, ⟨some .noMigration, some phase⟩)
  | some m, .prepare =>
    if m.failAtTransfer then (c.abortNow m, ⟨none, some .aborted⟩)
    else
      ({ c with
          mig := some { m with transferTick := now + c.transferBudget }
          phase := .transfer }, ⟨none, some .transfer⟩)
  | some m, .transfer =>
    if m.failAtTransfer then (c.abortNow m, ⟨none, some .aborted⟩)
    else if now ≥ m.transferTick then (c.commitNow m, ⟨none, some .committed⟩)
    else (c, ⟨none, some .transfer⟩)
  | some _, phase => (c, ⟨some .noMigration, some phase⟩)

def abort (c : Controller) : Controller × Answer :=
  match c.mig with
  | none => (c, .fail .noMigration)
  | some m =>
    if c.phase ≠ .prepare ∧ c.phase ≠ .transfer then (c, .fail .noMigration)
    else (c.abortNow m, .ok)

def perform (c : Controller) : Call → Controller × Answer
  | .seed slot session owner => c.seed slot session owner
  | .startMigration slot session src dst now => c.startMigration slot session src dst now
  | .injectTransferFailure => c.injectTransferFailure
  | .step now => c.step now
  | .abort => c.abort

/-- The migration `m` is in `PREPARE` or `TRANSFER`. -/
def InFlight (c : Controller) (m : Migration) : Prop :=
  c.mig = some m ∧ (c.phase = .prepare ∨ c.phase = .transfer)

variable {c : Controller} {slot owner : Str}

theorem ownerOf_of_insert {c' : Controller} (h : c'.owner = c.owner.insert slot owner)
    (howner : owner ≠ []) (other : Str) :
    c'.ownerOf other = if other = slot then some owner else c.ownerOf other := by
  unfold ownerOf
  rw [h, GoMap.lookup_insert_if]
  split
  · simp [howner]
  · rfl

theorem ownerOf_of_lookup (h : c.owner.lookup slot = some owner) (howner : owner ≠ []) :
    c.ownerOf slot = some owner := by
  simp [ownerOf, h, howner]

/-! ## What a call can do -/

/-- The effects of a call: it fails, seeds, starts a migration, or drives the one in flight. -/
inductive Effect (c : Controller) : Call → Controller → Answer → Prop where
  | fails {call : Call} {answer : Answer} (herror : answer.error ≠ none) : Effect c call c answer
  | seeds {slot session owner : Str} (hslot : slot ≠ []) (hsession : session ≠ [])
      (howner : owner ≠ []) :
      Effect c (.seed slot session owner)
        { c with owner := c.owner.insert slot owner, alive := c.alive.insert session true } .ok
  | starts {slot session src dst : Str} {now : Int64} (hidle : ∀ m, ¬ c.InFlight m)
      (howner : c.owner.lookup slot = some src) (hsrc : src ≠ []) (hdst : dst ≠ [])
      (hne : src ≠ dst) :
      Effect c (.startMigration slot session src dst now)
        { c with
          mig := some ⟨slot, session, src, dst, now, -1, false⟩
          alive := c.alive.insert session true
          phase := .prepare } .ok
  | goesOn {call : Call} {m m' : Migration} {phase : Phase} {answer : Answer}
      (hcall : call = .injectTransferFailure ∨ ∃ now, call = .step now) (hm : c.InFlight m)
      (hsame : m'.slot = m.slot ∧ m'.src = m.src ∧ m'.dst = m.dst)
      (hphase : phase = .prepare ∨ phase = .transfer) (herror : answer.error = none)
      (hanswer : answer.phase ≠ some .committed) :
      Effect c call { c with mig := some m', phase } answer
  | aborts {call : Call} {m : Migration} {answer : Answer}
      (hcall : call = .abort ∨ ∃ now, call = .step now) (hm : c.InFlight m)
      (herror : answer.error = none) (hanswer : answer.phase ≠ some .committed) :
      Effect c call (c.abortNow m) answer
  | commits {m : Migration} {now : Int64} (hm : c.InFlight m) :
      Effect c (.step now) (c.commitNow m) ⟨none, some .committed⟩

theorem effect_step (c : Controller) (now : Int64) :
    Effect c (.step now) (c.step now).1 (c.step now).2 := by
  unfold step
  split
  · exact .fails (by simp)
  · next m hm hphase =>
    have hflight : c.InFlight m := ⟨hm, .inl hphase⟩
    split
    · exact .aborts (.inr ⟨now, rfl⟩) hflight rfl (by simp)
    · exact .goesOn (.inr ⟨now, rfl⟩) hflight ⟨rfl, rfl, rfl⟩ (.inr rfl) rfl (by simp)
  · next m hm hphase =>
    have hflight : c.InFlight m := ⟨hm, .inr hphase⟩
    split
    · exact .aborts (.inr ⟨now, rfl⟩) hflight rfl (by simp)
    split
    · exact .commits hflight
    have hsame : c = { c with mig := some m, phase := .transfer } := by
      rw [← hm, ← hphase]
    nth_rewrite 2 [hsame]
    exact .goesOn (.inr ⟨now, rfl⟩) hflight ⟨rfl, rfl, rfl⟩ (.inr rfl) rfl (by simp)
  · exact .fails (by simp)

theorem effect_abort (c : Controller) : Effect c .abort c.abort.1 c.abort.2 := by
  unfold abort
  split
  · exact .fails (by simp [Answer.fail])
  · next m hm =>
    split_ifs with hphase
    · exact .fails (by simp [Answer.fail])
    · have hflight : c.phase = .prepare ∨ c.phase = .transfer := by
        by_contra h
        exact hphase (not_or.mp h)
      exact .aborts (.inl rfl) ⟨hm, hflight⟩ rfl nofun

theorem effect_perform (c : Controller) (call : Call) :
    Effect c call (c.perform call).1 (c.perform call).2 := by
  cases call with
  | seed slot session owner =>
    rw [perform]
    unfold seed
    split_ifs with h
    · exact .fails (by simp [Answer.fail])
    · simp only [not_or] at h
      exact .seeds h.1 h.2.1 h.2.2
  | startMigration slot session src dst now =>
    rw [perform]
    unfold startMigration
    split
    · exact .fails (by simp [Answer.fail])
    split
    · exact .fails (by simp [Answer.fail])
    split
    · exact .fails (by simp [Answer.fail])
    split
    · exact .fails (by simp [Answer.fail])
    · next hempty hne hbusy howner =>
      simp only [not_or] at hempty
      exact .starts (fun m hm => hbusy hm.2) (not_not.mp howner) hempty.2.2.1 hempty.2.2.2 hne
  | injectTransferFailure =>
    rw [perform]
    unfold injectTransferFailure
    split
    · exact .fails (by simp [Answer.fail])
    · next m hm =>
      split_ifs with hphase
      · exact .fails (by simp [Answer.fail])
      · have hflight : c.phase = .prepare ∨ c.phase = .transfer := by
          by_contra h
          exact hphase (not_or.mp h)
        exact .goesOn (m := m) (.inl rfl) ⟨hm, hflight⟩ ⟨rfl, rfl, rfl⟩ hflight rfl nofun
  | step now => exact c.effect_step now
  | abort => exact c.effect_abort

end Controller

/-! ## Runs -/

/-- A controller, with the owner at the start of the last migration. -/
structure World where
  controller : Controller
  ownerAtStart : Option Str

namespace World

/-- A new controller. -/
def start (transferTicks : Int64) : World := ⟨newController transferTicks, none⟩

/-- The owner that a call notes down, which is the present one if it starts a migration. -/
def noted (w : World) : Call → Option Str
  | .startMigration slot session src dst now =>
    if (w.controller.startMigration slot session src dst now).2.error = none then
      w.controller.ownerOf slot
    else w.ownerAtStart
  | _ => w.ownerAtStart

def step (w : World) (call : Call) : World := ⟨(w.controller.perform call).1, w.noted call⟩

/-- The source owns the slot in flight, the destination exactly after `COMMITTED`, the owner at the
start after an abort, and a failed call changes nothing. -/
structure Atomic (w : World) (call : Call) : Prop where
  source : ∀ m, (w.step call).controller.InFlight m →
    (w.step call).controller.ownerOf m.slot = some m.src
  commit : ∀ m, w.controller.InFlight m → ((w.step call).controller.ownerOf m.slot = some m.dst ↔
      (∃ now, call = .step now) ∧ (w.controller.perform call).2 = ⟨none, some .committed⟩)
  abort : ∀ m, w.controller.InFlight m → (w.step call).controller.phase = .aborted →
    (w.step call).controller.ownerOf m.slot = w.ownerAtStart
  failure : (w.controller.perform call).2.error ≠ none →
    (w.step call).controller.owner = w.controller.owner ∧
      (w.step call).controller.alive = w.controller.alive ∧
      (w.step call).controller.phase = w.controller.phase

/-- A `Seed` of the slot of the migration in flight, with no empty argument, names the source. -/
def SeedsSource (w : World) : Call → Prop
  | .seed slot session owner => slot ≠ [] → session ≠ [] → owner ≠ [] →
    ∀ m, w.controller.InFlight m → m.slot = slot → owner = m.src
  | _ => True

/-- The source of the migration in flight owns its slot, as it did at the start. -/
def SourceOwns (w : World) : Prop :=
  ∀ m, w.controller.InFlight m →
    w.controller.ownerOf m.slot = some m.src ∧ w.ownerAtStart = some m.src ∧ m.dst ≠ [] ∧
      m.src ≠ m.dst

variable {w : World} {call : Call}

theorem noted_of_error (h : (w.controller.perform call).2.error ≠ none) :
    w.noted call = w.ownerAtStart := by
  cases call with
  | startMigration slot session src dst now => exact if_neg h
  | _ => rfl

theorem sourceOwns_step (h : w.SourceOwns) (hseeds : w.SeedsSource call) :
    (w.step call).SourceOwns := by
  have heffect := w.controller.effect_perform call
  have hnoted : (w.controller.perform call).2.error ≠ none → w.noted call = w.ownerAtStart :=
    noted_of_error
  unfold SourceOwns World.step
  generalize hresult : w.controller.perform call = result at *
  obtain ⟨c, answer⟩ := result
  intro m hm
  cases heffect with
  | fails herror =>
    rw [hnoted herror]
    exact h m hm
  | @seeds slot session owner hnonempty hsession howner =>
    obtain ⟨hsource, hstart⟩ := h m hm
    refine ⟨?_, hstart⟩
    rw [Controller.ownerOf_of_insert rfl howner]
    split
    · next hslot => rw [hseeds hnonempty hsession howner m hm hslot]
    · exact hsource
  | starts hidle howner hsrc hdst hne =>
    cases hm.1
    have hsource := Controller.ownerOf_of_lookup howner hsrc
    refine ⟨hsource, ?_, hdst, hne⟩
    have herror := congrArg (fun result => result.2.error) hresult
    exact (if_pos herror).trans hsource
  | goesOn hcall hold hsame hphase herror hanswer =>
    cases hm.1
    rw [hsame.1, hsame.2.1, hsame.2.2]
    rcases hcall with rfl | ⟨now, rfl⟩ <;> exact h _ hold
  | aborts hcall hold herror hanswer =>
    rcases hm.2 with hphase | hphase <;> cases hphase
  | commits hold =>
    rcases hm.2 with hphase | hphase <;> cases hphase

/-- A call leaves the slot in flight with its source, unless it is the step that commits. -/
theorem owner_step (h : w.SourceOwns) (hseeds : w.SeedsSource call) {m : Migration}
    (hm : w.controller.InFlight m) : (w.step call).controller.ownerOf m.slot = some m.src ∧
        (w.controller.perform call).2 ≠ ⟨none, some .committed⟩ ∨
      (w.step call).controller.ownerOf m.slot = some m.dst ∧
        (w.step call).controller.phase = .committed ∧ (∃ now, call = .step now) ∧
        (w.controller.perform call).2 = ⟨none, some .committed⟩ := by
  have heffect := w.controller.effect_perform call
  obtain ⟨hsource, _, hdst, _⟩ := h m hm
  unfold World.step
  generalize w.controller.perform call = result at *
  obtain ⟨c, answer⟩ := result
  cases heffect with
  | fails herror => exact .inl ⟨hsource, fun hanswer => herror (congrArg Answer.error hanswer)⟩
  | @seeds slot session owner hnonempty hsession howner =>
    refine .inl ⟨?_, by simp⟩
    rw [Controller.ownerOf_of_insert rfl howner]
    split
    · next hslot => rw [hseeds hnonempty hsession howner m hm hslot]
    · exact hsource
  | starts hidle => exact absurd hm (hidle m)
  | goesOn hcall hold hsame hphase herror hanswer =>
    exact .inl ⟨hsource, fun hcommitted => hanswer (congrArg Answer.phase hcommitted)⟩
  | aborts hcall hold herror hanswer =>
    cases hold.1.symm.trans hm.1
    refine .inl ⟨?_, fun hcommitted => hanswer (congrArg Answer.phase hcommitted)⟩
    rw [Controller.ownerOf_of_insert rfl (by simpa using (Option.filter_eq_some_iff.mp hsource).2), if_pos rfl]
  | @commits _ now hold =>
    cases hold.1.symm.trans hm.1
    refine .inr ⟨?_, rfl, ⟨now, rfl⟩, rfl⟩
    rw [Controller.ownerOf_of_insert rfl hdst, if_pos rfl]

theorem unchanged_of_error (herror : (w.controller.perform call).2.error ≠ none) :
    (w.step call).controller = w.controller := by
  have heffect := w.controller.effect_perform call
  unfold World.step
  generalize w.controller.perform call = result at *
  obtain ⟨c, answer⟩ := result
  cases heffect with
  | fails _ => rfl
  | seeds _ => exact absurd rfl herror
  | starts _ _ _ _ _ => exact absurd rfl herror
  | goesOn _ _ _ _ hnone _ => exact absurd hnone herror
  | aborts _ _ hnone _ => exact absurd hnone herror
  | commits _ => exact absurd rfl herror

theorem seedsSource_of_atomic (h : w.Atomic call) : w.SeedsSource call := by
  cases call with
  | seed slot session owner =>
    rintro hslot hsession howner m hm rfl
    have hseeded : w.controller.perform (.seed m.slot session owner) =
        ({ w.controller with
            owner := w.controller.owner.insert m.slot owner
            alive := w.controller.alive.insert session true }, .ok) :=
      if_neg (not_or.mpr ⟨hslot, not_or.mpr ⟨hsession, howner⟩⟩)
    have hsource := h.source m
    unfold World.step at hsource
    rw [hseeded, Controller.ownerOf_of_insert rfl howner, if_pos rfl] at hsource
    exact Option.some.inj (hsource hm)
  | _ => trivial

theorem atomic_iff (h : w.SourceOwns) : w.Atomic call ↔ w.SeedsSource call := by
  refine ⟨seedsSource_of_atomic, fun hseeds => ?_⟩
  refine ⟨fun m hm => (sourceOwns_step h hseeds m hm).1, fun m hm => ?_, fun m hm haborted => ?_,
    fun herror => ?_⟩
  · rcases owner_step h hseeds hm with ⟨howner, hanswer⟩ | ⟨howner, _, hstep⟩
    · rw [howner]
      exact iff_of_false (fun heq => (h m hm).2.2.2 (Option.some.inj heq)) fun hstep => hanswer hstep.2
    · exact iff_of_true howner hstep
  · rcases owner_step h hseeds hm with ⟨howner, _⟩ | ⟨_, hphase, _⟩
    · exact howner.trans (h m hm).2.1.symm
    · cases hphase.symm.trans haborted
  · rw [unchanged_of_error herror]
    exact ⟨rfl, rfl, rfl⟩

end World

/-- **Ownership changes at the commit only**, exactly if no call seeds the slot in flight with
another owner. -/
theorem ownership_atomic_iff (transferTicks : Int64) (calls : List Call) :
    Along World.step World.Atomic (.start transferTicks) calls ↔
      Along World.step World.SeedsSource (.start transferTicks) calls :=
  along_congr (I := World.SourceOwns) (fun _ _ h hseeds => World.sourceOwns_step h hseeds)
    (fun _ _ h => World.atomic_iff h) (fun _ hm => by cases hm.1) calls

/-- Slot `s` is seeded with owner `c` while it is migrating from `a` to `b`, and then committed. -/
theorem seed_in_flight_moves_slot :
    let started := (((World.start 1).step (.seed [115] [120] [97])).step
      (.startMigration [115] [120] [97] [98] 0))
    let seeded := started.step (.seed [115] [121] [99])
    let committed := (seeded.step (.step 1)).step (.step 2)
    started.controller.ownerOf [115] = some [97] ∧ seeded.controller.phase = .prepare ∧
      seeded.controller.ownerOf [115] = some [99] ∧ committed.controller.phase = .committed ∧
      committed.controller.ownerOf [115] = some [98] := by
  decide

end HelixCluster.SlotMigration
