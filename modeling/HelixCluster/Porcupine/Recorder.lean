import HelixCluster.Lib.Runs
import HelixCluster.Porcupine.Correctness

/-!
# The history recorder

`Begin` and `End` of the `Recorder` of `pkg/porcupine` take their timestamp from an atomic counter
before they lock the mutex.
-/

namespace HelixCluster.Porcupine

variable {σ ι ο : Type}

/-- The fields of an operation that are set between `Begin` and `End`. -/
structure Pending (ι : Type) where
  clientID : Int
  input : ι
  call : Int64

/-- The recorder. A token identifies a pending operation. -/
structure Recorder (ι ο : Type) where
  clock : Int64
  ops : List (Operation ι ο)
  pending : GoMap Int64 (Pending ι)
  nextTok : Int64

def newRecorder : Recorder ι ο where
  clock := 0
  ops := []
  pending := ∅
  nextTok := 0

namespace Recorder

/-- The next logical timestamp. -/
def tick (r : Recorder ι ο) : Int64 × Recorder ι ο := (r.clock + 1, { r with clock := r.clock + 1 })

/-- The critical section of `Begin`, which returns the token. -/
def storePending (r : Recorder ι ο) (clientID : Int) (input : ι) (call : Int64) :
    Int64 × Recorder ι ο :=
  (r.nextTok,
    { r with
      nextTok := r.nextTok + 1
      pending := r.pending.insert r.nextTok ⟨clientID, input, call⟩ })

/-- The critical section of `End`. An unknown token changes nothing. -/
def finalize (r : Recorder ι ο) (token : Int64) (output : ο) (ret : Int64) : Recorder ι ο :=
  match r.pending.lookup token with
  | none => r
  | some op =>
    { r with
      pending := r.pending.erase token
      ops := r.ops ++ [⟨op.clientID, op.input, output, op.call, ret⟩] }

end Recorder

/-- The comparison that `History` gives to `sort.Slice`. -/
def callLess (a b : Operation ι ο) : Bool := a.call < b.call

/-- The finalized operations by call time. -/
def Recorder.history (sorting : SortSlice (@callLess ι ο)) (r : Recorder ι ο) :
    List (Operation ι ο) :=
  sorting.sort r.ops

/-- How far a client has come with one recorded operation. -/
inductive Phase (ο : Type) where
  /-- `Begin` has its timestamp and waits for the mutex. -/
  | begins
  /-- `Begin` has returned the token. -/
  | begun (token : Int64)
  /-- The object has taken effect and answered. -/
  | effective (token : Int64) (output : ο)
  /-- `End` has its timestamp and waits for the mutex. -/
  | ends (token : Int64) (output : ο) (ret : Int64)
  /-- `End` has returned. -/
  | ended (output : ο) (ret : Int64)

namespace Phase

/-- The token of an operation that is pending in the recorder. -/
def token : Phase ο → Option Int64
  | begun token | effective token _ | ends token _ _ => some token
  | begins | ended _ _ => none

/-- `Begin` has returned. -/
def stored : Phase ο → Bool
  | begins => false
  | begun _ | effective _ _ | ends _ _ _ | ended _ _ => true

/-- The answer of the object. -/
def output : Phase ο → Option ο
  | effective _ output | ends _ output _ | ended output _ => some output
  | begins | begun _ => none

/-- The timestamp of `End`. -/
def ret : Phase ο → Option Int64
  | ends _ _ ret | ended _ ret => some ret
  | begins | begun _ | effective _ _ => none

end Phase

/-- One recorded operation as its client sees it. -/
structure Call (ι ο : Type) where
  clientID : Int
  input : ι
  call : Int64
  phase : Phase ο

namespace Call

/-- What the recorder keeps of the operation while it is pending. -/
def pending (c : Call ι ο) : Pending ι := ⟨c.clientID, c.input, c.call⟩

/-- The entry of the operation in the recorder's map, while it is pending. -/
def entry (c : Call ι ο) : Option (Sigma fun _ : Int64 => Pending ι) :=
  c.phase.token.map fun token => ⟨token, c.pending⟩

/-- The timestamps taken so far. -/
def stamps (c : Call ι ο) : List Int64 := c.call :: c.phase.ret.toList

/-- The completed operation, once `End` has returned. -/
def operation (c : Call ι ο) : Option (Operation ι ο) :=
  match c.phase with
  | .ended output ret => some ⟨c.clientID, c.input, output, c.call, ret⟩
  | _ => none

/-- An operation in effect whose `End` has not returned, with the return time it has taken or is
given. -/
def unended (late : Int64) (c : Call ι ο) : Option (Operation ι ο) :=
  match c.phase with
  | .effective _ output => some ⟨c.clientID, c.input, output, c.call, late⟩
  | .ends _ output ret => some ⟨c.clientID, c.input, output, c.call, ret⟩
  | _ => none

end Call

/-- A linearization point: the call, the logical time, and the states before and after. -/
structure Point (σ : Type) where
  call : Nat
  time : Int64
  before : σ
  after : σ

/-- A recorder, the object, and the calls of all clients in the order in which they began. -/
structure Recording (σ ι ο : Type) where
  recorder : Recorder ι ο
  object : σ
  calls : List (Call ι ο)
  points : List (Point σ)

/-- What the client of a call does next, after it has its first timestamp. -/
inductive Action (ο : Type) where
  | storeBegin
  | takeEffect (output : ο)
  | tickEnd
  | storeEnd

/-- A step of a client: a new call starts, or call `k` goes on. -/
inductive Event (ι ο : Type) where
  | tickBegin (clientID : Int) (input : ι)
  | proceed (k : Nat) (action : Action ο)

namespace Recording

def start (model : Model σ ι ο) : Recording σ ι ο where
  recorder := newRecorder
  object := model.init
  calls := []
  points := []

/-- The calls after call `k`, which is `c`, has entered the given phase. -/
def setPhase (s : Recording σ ι ο) (k : Nat) (c : Call ι ο) (phase : Phase ο) : List (Call ι ο) :=
  s.calls.set k { c with phase }

/-- Call `k`, which is `c`, goes on, if its phase and the specification allow it. -/
def proceed (model : Model σ ι ο) (s : Recording σ ι ο) (k : Nat) (c : Call ι ο)
    (action : Action ο) : Recording σ ι ο :=
  match action, c.phase with
  | .storeBegin, .begins =>
    let (token, recorder) := s.recorder.storePending c.clientID c.input c.call
    { s with recorder, calls := s.setPhase k c (.begun token) }
  | .takeEffect output, .begun token =>
    let (ok, next) := model.step s.object c.input output
    if ok then
      { s with
        object := next
        calls := s.setPhase k c (.effective token output)
        points := s.points ++ [⟨k, s.recorder.clock, s.object, next⟩] }
    else s
  | .tickEnd, .effective token output =>
    let (ret, recorder) := s.recorder.tick
    { s with recorder, calls := s.setPhase k c (.ends token output ret) }
  | .storeEnd, .ends token output ret =>
    { s with
      recorder := s.recorder.finalize token output ret
      calls := s.setPhase k c (.ended output ret) }
  | _, _ => s

/-- One step of one client. -/
def step (model : Model σ ι ο) (s : Recording σ ι ο) : Event ι ο → Recording σ ι ο
  | .tickBegin clientID input =>
    let (call, recorder) := s.recorder.tick
    { s with recorder, calls := s.calls ++ [⟨clientID, input, call, .begins⟩] }
  | .proceed k action =>
    match s.calls[k]? with
    | none => s
    | some c => s.proceed model k c action

/-- The operation of call `k`, once its `End` has returned. -/
def operation (s : Recording σ ι ο) (k : Nat) : Option (Operation ι ο) :=
  s.calls[k]?.bind Call.operation

/-- The operations that have taken effect while their `End` has not returned. -/
def unended (s : Recording σ ι ο) (late : Int64) : List (Operation ι ο) :=
  s.calls.filterMap (Call.unended late)

/-- After an operation that has changed the state and not ended, no ended one took effect. -/
def Harmless (s : Recording σ ι ο) : Prop :=
  s.points.Pairwise fun p q =>
    (s.operation p.call).isSome ∨ p.after = p.before ∨ (s.operation q.call).isNone

instance decidableHarmless [DecidableEq σ] (s : Recording σ ι ο) : Decidable s.Harmless := by
  unfold Harmless
  infer_instance

/-- What one step can do. -/
inductive Moves (model : Model σ ι ο) (s : Recording σ ι ο) : Recording σ ι ο → Prop where
  | stays : Moves model s s
  | begins (clientID : Int) (input : ι) :
      Moves model s
        { s with
          recorder := { s.recorder with clock := s.recorder.clock + 1 }
          calls := s.calls ++ [⟨clientID, input, s.recorder.clock + 1, .begins⟩] }
  | begun {k : Nat} {c : Call ι ο} (hcall : s.calls[k]? = some c) (hphase : c.phase = .begins) :
      Moves model s
        { s with
          recorder := (s.recorder.storePending c.clientID c.input c.call).2
          calls := s.setPhase k c (.begun s.recorder.nextTok) }
  | effective {k : Nat} {c : Call ι ο} {token : Int64} (output : ο) (next : σ)
      (hcall : s.calls[k]? = some c) (hphase : c.phase = .begun token)
      (hanswer : model.step s.object c.input output = (true, next)) :
      Moves model s
        { s with
          object := next
          calls := s.setPhase k c (.effective token output)
          points := s.points ++ [⟨k, s.recorder.clock, s.object, next⟩] }
  | ends {k : Nat} {c : Call ι ο} {token : Int64} {output : ο}
      (hcall : s.calls[k]? = some c) (hphase : c.phase = .effective token output) :
      Moves model s
        { s with
          recorder := { s.recorder with clock := s.recorder.clock + 1 }
          calls := s.setPhase k c (.ends token output (s.recorder.clock + 1)) }
  | ended {k : Nat} {c : Call ι ο} {token ret : Int64} {output : ο}
      (hcall : s.calls[k]? = some c) (hphase : c.phase = .ends token output ret) :
      Moves model s
        { s with
          recorder := s.recorder.finalize token output ret
          calls := s.setPhase k c (.ended output ret) }

theorem proceed_moves {model : Model σ ι ο} {s : Recording σ ι ο} {k : Nat} {c : Call ι ο}
    (hcall : s.calls[k]? = some c) (action : Action ο) :
    Moves model s (s.proceed model k c action) := by
  unfold proceed
  split
  · next hphase => exact .begun hcall hphase
  · next output token hphase =>
    generalize hanswer : model.step s.object c.input output = answer
    obtain ⟨ok, next⟩ := answer
    cases ok with
    | true => exact .effective output next hcall hphase hanswer
    | false => exact .stays
  · next hphase => exact .ends hcall hphase
  · next hphase => exact .ended hcall hphase
  · exact .stays

theorem step_moves (model : Model σ ι ο) (s : Recording σ ι ο) (e : Event ι ο) :
    Moves model s (s.step model e) := by
  cases e with
  | tickBegin clientID input => exact .begins clientID input
  | proceed k action =>
    dsimp only [step]
    split
    · exact .stays
    · next c hcall => exact proceed_moves hcall action

end Recording

end HelixCluster.Porcupine
