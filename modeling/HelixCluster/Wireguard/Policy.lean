import HelixCluster.Lib.GoMap
import HelixCluster.Lib.Text

/-!
# The segmentation policy engine

The `PolicyEngine` of `pkg/wireguard`.
-/

namespace HelixCluster.Wireguard

/-- `Action`; the source has an integer with two constants. -/
inductive Action where
  | allow
  | deny
  | unknown (n : Int64)
  deriving DecidableEq

def Action.string : Action → Str
  | allow => literal "ALLOW"
  | deny => literal "DENY"
  | unknown _ => literal "UNKNOWN"

structure LabelSelector where
  matchLabels : GoMap Str Str

/-- `Matches`. -/
def LabelSelector.selects (s : LabelSelector) (labels : GoMap Str Str) : Bool :=
  s.matchLabels.entries.all fun e => labels.read e.1 [] = e.2

structure NetworkPolicy where
  name : Str
  action : Action
  fromSelector : LabelSelector
  toSelector : LabelSelector
  ports : List UInt16

def NetworkPolicy.matchesPort (p : NetworkPolicy) (port : UInt16) : Bool :=
  p.ports.length = 0 ∨ port ∈ p.ports

/-- `Node`; its WireGuard address is not used by the engine. -/
structure Node where
  id : Str
  labels : GoMap Str Str

/-- The policy is about packets from one node to the other. -/
def NetworkPolicy.covers (p : NetworkPolicy) (src dst : Node) : Bool :=
  p.fromSelector.selects src.labels && p.toSelector.selects dst.labels

/-- The errors of the engine, with the values that their texts name. -/
inductive Error where
  | nilNode
  | emptyNodeID
  | duplicateNodeID (id : Str)
  | nilPolicy (index : ℕ)
  | emptyPolicyName (index : ℕ)
  | sourceNotFound (id : Str)
  | destinationNotFound (id : Str)
  | nodeNotFound (id : Str)

/-- `PolicyEngine`. Its nodes are filed under their IDs. -/
structure PolicyEngine where
  policies : List NetworkPolicy
  nodes : GoMap Str Node
  filed : ∀ id node, nodes.lookup id = some node → node.id = id

/-! ### NewPolicyEngine -/

/-- The nodes by ID, each filed under its own. -/
abbrev NodeMap := { nodes : GoMap Str Node // ∀ id node, nodes.lookup id = some node → node.id = id }

/-- No nodes. -/
def NodeMap.empty : NodeMap :=
  ⟨∅, fun id node h => by
    rw [AList.lookup_empty] at h
    cases h⟩

/-- Files a node. -/
def NodeMap.file (m : NodeMap) (n : Node) : NodeMap :=
  ⟨m.1.insert n.id n, fun id node h => by
    rw [GoMap.lookup_insert_if] at h
    split_ifs at h with heq
    · cases h
      exact heq.symm
    · exact m.2 id node h⟩

/-- The loop over the nodes; a nil pointer is `none`. -/
def fileNodes : NodeMap → List (Option Node) → Except Error NodeMap
  | m, [] => .ok m
  | _, none :: _ => .error .nilNode
  | m, some n :: ns =>
    if n.id = [] then .error .emptyNodeID
    else if n.id ∈ m.1 then .error (.duplicateNodeID n.id)
    else fileNodes (m.file n) ns

/-- The loop over the policies, from an index on. -/
def checkPolicies : ℕ → List (Option NetworkPolicy) → Except Error (List NetworkPolicy)
  | _, [] => .ok []
  | i, none :: _ => .error (.nilPolicy i)
  | i, some p :: ps =>
    if p.name = [] then .error (.emptyPolicyName i)
    else (checkPolicies (i + 1) ps).map (p :: ·)

def newPolicyEngine (policies : List (Option NetworkPolicy)) (nodes : List (Option Node)) :
    Except Error PolicyEngine := do
  let nodes ← fileNodes .empty nodes
  let policies ← checkPolicies 0 policies
  return ⟨policies, nodes.1, nodes.2⟩

namespace PolicyEngine

/-! ### Decide -/

/-- The loop of `Decide`. -/
def anyDeny (src dst : Node) (port : UInt16) : List NetworkPolicy → Bool
  | [] => false
  | p :: ps =>
    if !p.fromSelector.selects src.labels then anyDeny src dst port ps
    else if !p.toSelector.selects dst.labels then anyDeny src dst port ps
    else if !p.matchesPort port then anyDeny src dst port ps
    else if p.action = .deny then true
    else anyDeny src dst port ps

def decide (e : PolicyEngine) (srcNodeID dstNodeID : Str) (port : UInt16) : Except Error Action :=
  match e.nodes.lookup srcNodeID with
  | none => .error (.sourceNotFound srcNodeID)
  | some src =>
    match e.nodes.lookup dstNodeID with
    | none => .error (.destinationNotFound dstNodeID)
    | some dst => .ok (if anyDeny src dst port e.policies then .deny else .allow)

/-! ### GenerateEnforcementRuleset -/

/-- The lines in front of the rules, and the break after the last of them. -/
def header (nodeID : Str) : Str :=
  literal "# WireGuard segmentation ruleset for node: " ++ nodeID ++ [10] ++
  (literal "# Generated by PolicyEngine — do not edit by hand." ++ [10]) ++
  (literal "# CLAUDE-2: apply via 'pfctl -f <file>' (macOS) or equivalent nftables (Linux)." ++ [10]) ++
  (literal "#" ++ [10])

/-- `affectsThisNode`: the packets are between the node and another one. -/
def affects (e : PolicyEngine) (nodeID : Str) (node : Node) (p : NetworkPolicy) : Bool :=
  e.nodes.entries.any fun other =>
    other.2.id ≠ nodeID ∧ (p.covers node other.2 ∨ p.covers other.2 node)

end PolicyEngine

namespace NetworkPolicy

/-- The ports of a rule. -/
def portStr (p : NetworkPolicy) : Str :=
  if p.ports.length > 0 then join 44 (p.ports.map fun port => formatUint port.toNat 10)
  else literal "any"

/-- The comment in front of a rule. -/
def comment (p : NetworkPolicy) : Str :=
  literal "# policy: " ++ p.name ++ literal " action=" ++ p.action.string

/-- The verb of a rule. -/
def verb (p : NetworkPolicy) : Str :=
  if p.action = .deny then literal "block" else literal "pass"

/-- The rule of a policy. -/
def ruleLine (p : NetworkPolicy) : Str :=
  p.verb ++ literal " on wg0 proto tcp from any to any port " ++ p.portStr

/-- What `GenerateEnforcementRuleset` writes for a policy. -/
def ruleBlock (p : NetworkPolicy) : Str := p.comment ++ [10] ++ (p.ruleLine ++ [10])

end NetworkPolicy

namespace PolicyEngine

/-- `GenerateEnforcementRuleset`: the text of the ruleset. -/
def generateEnforcementRuleset (e : PolicyEngine) (nodeID : Str) : Except Error Str :=
  match e.nodes.lookup nodeID with
  | none => .error (.nodeNotFound nodeID)
  | some node =>
    .ok (header nodeID ++ (e.policies.filter (e.affects nodeID node)).flatMap NetworkPolicy.ruleBlock)

/-- `GenerateFullMeshRuleset`: the rulesets by node ID. -/
def generateFullMeshRuleset (e : PolicyEngine) : Except Error (GoMap Str Str) :=
  (e.nodes.keys.insertionSort (· ≤ ·)).foldlM
    (fun out id => (e.generateEnforcementRuleset id).map fun rs => out.insert id rs) ∅

/-! ### What `Decide` comes to -/

/-- Some DENY policy is about the packet. -/
def Denied (e : PolicyEngine) (src dst : Node) (port : UInt16) : Prop :=
  ∃ p ∈ e.policies, p.action = .deny ∧ p.covers src dst = true ∧ p.matchesPort port = true

theorem anyDeny_iff {src dst : Node} {port : UInt16} {ps : List NetworkPolicy} :
    anyDeny src dst port ps = true ↔
      ∃ p ∈ ps, p.action = .deny ∧ p.covers src dst = true ∧ p.matchesPort port = true := by
  induction ps with
  | nil => simp [anyDeny]
  | cons p ps ih =>
    rw [anyDeny, List.exists_mem_cons_iff, ← ih, NetworkPolicy.covers]
    cases p.fromSelector.selects src.labels <;> cases p.toSelector.selects dst.labels <;>
      cases p.matchesPort port <;> by_cases hdeny : p.action = .deny <;> simp [hdeny]

variable {e : PolicyEngine}

theorem decide_eq_deny_iff {srcNodeID dstNodeID : Str} {src dst : Node} {port : UInt16}
    (hsrc : e.nodes.lookup srcNodeID = some src) (hdst : e.nodes.lookup dstNodeID = some dst) :
    e.decide srcNodeID dstNodeID port = .ok .deny ↔ e.Denied src dst port := by
  rw [Denied, ← anyDeny_iff]
  simp only [decide, hsrc, hdst, Except.ok.injEq]
  split_ifs with h
  · simp [h]
  · simp [h]

end PolicyEngine

end HelixCluster.Wireguard
