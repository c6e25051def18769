import HelixCluster.Lib.GoMap
import HelixCluster.Lib.Text

/-!
# The edge gateway

The routing core of `edge/gateway`: the envelopes with their topics, the table of the connections,
and `Route`.
-/

namespace HelixCluster.EdgeGateway

open List

/-! ### Envelopes -/

inductive Kind where
  | dispatch
  | status
  | other (name : Str)
  deriving DecidableEq

structure Envelope where
  id : Str
  kind : Kind
  source : Str
  dest : Str
  topic : Str
  payload : Str
  issuedAt : ℤ
  deriving DecidableEq

def topicRoot : Str := literal "helix/edge"

def dispatchSegment : Str := literal "dispatch"

def statusSegment : Str := literal "status"

/-- The byte `/`. -/
def topicSeparator : UInt8 := 47

def dispatchTopic (nodeID : Str) : Str :=
  topicRoot ++ topicSeparator :: (nodeID ++ topicSeparator :: dispatchSegment)

def statusTopic (nodeID : Str) : Str :=
  topicRoot ++ topicSeparator :: (nodeID ++ topicSeparator :: statusSegment)

def Envelope.routeTopic (e : Envelope) : Str :=
  if e.topic ≠ [] then e.topic
  else
    match e.kind with
    | .status => statusTopic e.dest
    | _ => dispatchTopic e.dest

/-- The errors of `Validate`. -/
inductive EnvelopeError where
  | missingID
  | invalidKind (id : Str) (kind : Kind)
  | noDestination (id : Str)
  deriving DecidableEq

def Envelope.validate (e : Envelope) : Except EnvelopeError Unit :=
  if e.id = [] then .error .missingID
  else if e.kind ≠ .dispatch ∧ e.kind ≠ .status then .error (.invalidKind e.id e.kind)
  else if e.kind = .dispatch ∧ e.dest = [] ∧ e.topic = [] then .error (.noDestination e.id)
  else .ok ()

def nodeFromTopic (topic : Str) : Str :=
  match after (topicRoot ++ [topicSeparator]) topic with
  | none => []
  | some rest =>
    match rest.splitOn topicSeparator with
    | node :: _ :: _ => node
    | _ => []

/-- The ID up to its first `/`. -/
def beforeSeparator (nodeID : Str) : Str := nodeID.takeWhile (· ≠ topicSeparator)

theorem nodeFromTopic_dispatchTopic (nodeID : Str) :
    nodeFromTopic (dispatchTopic nodeID) = beforeSeparator nodeID := by
  have htopic : dispatchTopic nodeID =
      (topicRoot ++ [topicSeparator]) ++ (nodeID ++ topicSeparator :: dispatchSegment) := by
    rw [dispatchTopic, append_assoc, singleton_append]
  obtain ⟨second, rest, hsplit⟩ := splitOn_append_separator topicSeparator nodeID dispatchSegment
  simp only [nodeFromTopic, htopic, after_append, hsplit]
  rfl

theorem beforeSeparator_eq_self_iff {nodeID : Str} :
    beforeSeparator nodeID = nodeID ↔ topicSeparator ∉ nodeID := by
  rw [beforeSeparator, takeWhile_eq_self_iff]
  constructor
  · intro h hmem
    simpa using h topicSeparator hmem
  · intro h c hc
    simpa using fun hsep : c = topicSeparator => h (hsep ▸ hc)

/-! ### The table -/

structure Conn (κ : Type) where
  key : κ
  nodeID : Str
  deriving DecidableEq

variable {κ : Type}

structure RoutingTable (κ : Type) where
  byNode : GoMap Str (List (Conn κ))
  totalConns : ℤ
  maxConns : ℤ
  maxNodes : ℤ

/-- The errors of `Register`. -/
inductive RegisterError where
  | closed
  | tooManyConns
  | tooManyNodes
  deriving DecidableEq

def RoutingTable.add (t : RoutingTable κ) (c : Conn κ) : Except RegisterError (RoutingTable κ) :=
  if t.maxConns ≤ t.totalConns then .error .tooManyConns
  else if c.nodeID ∉ t.byNode ∧ t.maxNodes ≤ t.byNode.len then .error .tooManyNodes
  else
    .ok { t with
      byNode := t.byNode.insert c.nodeID (t.byNode.read c.nodeID [] ++ [c])
      totalConns := t.totalConns + 1 }

def RoutingTable.remove [DecidableEq κ] (t : RoutingTable κ) (c : Conn κ) : RoutingTable κ :=
  let conns := (t.byNode.read c.nodeID []).erase c
  { t with
    byNode := if conns = [] then t.byNode.erase c.nodeID else t.byNode.insert c.nodeID conns
    totalConns := if c ∈ t.byNode.read c.nodeID [] then t.totalConns - 1 else t.totalConns }

def RoutingTable.lookup (t : RoutingTable κ) (nodeID : Str) : List (Conn κ) := t.byNode.read nodeID []

/-! ### The gateway -/

structure Config where
  maxConns : ℤ
  maxNodes : ℤ

/-- `Gateway`, without its transports. -/
structure Gateway (κ : Type) where
  table : RoutingTable κ
  closed : Bool

def defaultMaxConns : ℤ := 4096

def defaultMaxNodes : ℤ := 4096

def newWithConfig (cfg : Config) : Gateway κ where
  table :=
    { byNode := ∅
      totalConns := 0
      maxConns := if cfg.maxConns ≤ 0 then defaultMaxConns else cfg.maxConns
      maxNodes := if cfg.maxNodes ≤ 0 then defaultMaxNodes else cfg.maxNodes }
  closed := false

def Gateway.register (g : Gateway κ) (c : Conn κ) : Except RegisterError (Gateway κ) :=
  if g.closed then .error .closed else (g.table.add c).map fun table => { g with table }

def Gateway.unregister [DecidableEq κ] (g : Gateway κ) (c : Conn κ) : Gateway κ :=
  { g with table := g.table.remove c }

/-- The errors of `Route`, with those of `Send`. -/
inductive RouteError (ε : Type) where
  | noRoute
  | closed
  | invalid (e : EnvelopeError)
  | send (e : ε)
  deriving DecidableEq

/-- The calls to `Send`, and what `Route` returns. -/
structure Routed (κ ε : Type) where
  sent : List (Conn κ × Envelope)
  err : Option (RouteError ε)

variable {ε : Type}

/-- The loop over the targets, which goes on after an error and keeps the first one. -/
def sendAll (send : Conn κ → Envelope → Option ε) (env : Envelope) (targets : List (Conn κ)) :
    List (Conn κ × Envelope) × Option ε :=
  targets.foldl (fun r c => (r.1 ++ [(c, env)], r.2.or (send c env))) ([], none)

/-- The end of `Route` and of `fanStatus`. -/
def deliver (send : Conn κ → Envelope → Option ε) (env : Envelope) (targets : List (Conn κ)) : Routed κ ε :=
  if targets = [] then ⟨[], some .noRoute⟩
  else ⟨(sendAll send env targets).1, (sendAll send env targets).2.map .send⟩

def Gateway.fanStatus (g : Gateway κ) (send : Conn κ → Envelope → Option ε) (env : Envelope) : Routed κ ε :=
  let others := g.table.byNode.entries.filter fun entry => entry.1 ≠ env.source
  deliver send env (others.flatMap fun entry => entry.2)

/-- The node that `Route` looks up. -/
def Envelope.target (env : Envelope) : Str :=
  if env.dest = [] then nodeFromTopic env.routeTopic else env.dest

def Gateway.route (g : Gateway κ) (send : Conn κ → Envelope → Option ε) (env : Envelope) : Routed κ ε :=
  if g.closed then ⟨[], some .closed⟩
  else
    match env.validate with
    | .error e => ⟨[], some (.invalid e)⟩
    | .ok () =>
      if env.kind = .status ∧ env.target = [] then g.fanStatus send env
      else deliver send env (g.table.lookup env.target)

/-! ### What is sent -/

theorem sendAll_sent (send : Conn κ → Envelope → Option ε) (env : Envelope) (targets : List (Conn κ)) :
    (sendAll send env targets).1 = targets.map fun c => (c, env) := by
  suffices hfold : ∀ r : List (Conn κ × Envelope) × Option ε,
      (targets.foldl (fun r c => (r.1 ++ [(c, env)], r.2.or (send c env))) r).1 =
        r.1 ++ targets.map fun c => (c, env) from hfold ([], none)
  induction targets with
  | nil => exact fun r => (append_nil _).symm
  | cons c targets ih =>
    intro r
    rw [foldl_cons, ih, map_cons, append_assoc, singleton_append]

variable {send : Conn κ → Envelope → Option ε}

theorem sendAll_err (hsend : ∀ c e, send c e = none) (env : Envelope) (targets : List (Conn κ)) :
    (sendAll send env targets).2 = none := by
  suffices hfold : ∀ r : List (Conn κ × Envelope) × Option ε,
      (targets.foldl (fun r c => (r.1 ++ [(c, env)], r.2.or (send c env))) r).2 = r.2 from hfold ([], none)
  induction targets with
  | nil => exact fun r => rfl
  | cons c targets ih =>
    intro r
    rw [foldl_cons, ih, hsend, Option.or_none]

theorem deliver_eq (hsend : ∀ c e, send c e = none) (env : Envelope) (targets : List (Conn κ)) :
    deliver send env targets =
      ⟨targets.map fun c => (c, env), if targets = [] then some .noRoute else none⟩ := by
  unfold deliver
  split_ifs with h
  · rw [h, map_nil]
  · rw [sendAll_sent, sendAll_err hsend, Option.map_none]

theorem route_dispatch {g : Gateway κ} {env : Envelope} (hopen : g.closed = false)
    (hvalid : env.validate = .ok ()) (hkind : env.kind = .dispatch) :
    g.route send env = deliver send env (g.table.lookup env.target) := by
  have hstatus : ¬(env.kind = .status ∧ env.target = []) := by
    rintro ⟨hstatus, -⟩
    exact absurd (hkind.symm.trans hstatus) (by decide)
  simp only [Gateway.route, hopen, hvalid, if_neg hstatus, Bool.false_eq_true, if_false]

end HelixCluster.EdgeGateway
