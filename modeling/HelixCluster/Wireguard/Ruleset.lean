import HelixCluster.Wireguard.Policy

/-!
# What the generated ruleset blocks

The text of `GenerateEnforcementRuleset` read the way pf(4) reads it: the last rule that concerns a
packet decides, and a packet that no rule concerns passes. `enforces_iff_enforceable` says when this
is what `Decide` decides, and `enforceable_iff_of_unbroken` in which orders of the policies it is.
-/

namespace HelixCluster.Wireguard

open GoMap List

/-! ### The packet filter -/

/-- A rule of the packet filter; it is about any port if it has no list of ports. -/
structure Rule where
  block : Bool
  ports : Option (List ℕ)
  deriving DecidableEq

def Rule.concerns (r : Rule) (port : UInt16) : Bool :=
  match r.ports with
  | none => true
  | some ports => port.toNat ∈ ports

def parsePorts (s : Str) : Option (Option (List ℕ)) :=
  if s = literal "any" then some none else ((s.splitOn 44).mapM parseDecimal).map some

def parseVerb (line : Str) : Option (Bool × Str) :=
  match after (literal "block") line with
  | some rest => some (true, rest)
  | none => (after (literal "pass") line).map fun rest => (false, rest)

/-- Reads a rule. Comments and empty lines are not rules. -/
def parseRule (line : Str) : Option Rule := do
  let (block, rest) ← parseVerb line
  let ports ← after (literal " on wg0 proto tcp from any to any port ") rest
  return ⟨block, ← parsePorts ports⟩

/-- The rules of a text. -/
def rules (text : Str) : List Rule := (lines text).filterMap parseRule

/-- The packet filter blocks a TCP packet to the port: the last rule that concerns it is a block
rule. -/
def blocks (rs : List Rule) (port : UInt16) : Bool :=
  rs.foldl (fun verdict r => if r.concerns port then r.block else verdict) false

section

variable {α β : Type}

/-- The last of the elements that are concerned is a block. -/
def LastBlocks (concerned block : α → Bool) (xs : List α) : Prop :=
  ∃ before x after, xs = before ++ x :: after ∧ concerned x = true ∧ block x = true ∧
    ∀ y ∈ after, concerned y = true → block y = true

theorem not_lastBlocks_nil (concerned block : α → Bool) : ¬ LastBlocks concerned block [] := by
  rintro ⟨before, x, after, heq, -⟩
  cases before <;> cases heq

theorem lastBlocks_append_singleton {concerned block : α → Bool} (xs : List α) (x : α) :
    LastBlocks concerned block (xs ++ [x]) ↔
      if concerned x then block x = true else LastBlocks concerned block xs := by
  constructor
  · rintro ⟨before, y, after, heq, hy, hblock, hafter⟩
    cases after using List.reverseRecOn with
    | nil =>
      obtain ⟨rfl, hxy⟩ := append_inj' heq rfl
      cases hxy
      rwa [if_pos hy]
    | append_singleton after z =>
      rw [← cons_append, ← append_assoc] at heq
      obtain ⟨rfl, hxz⟩ := append_inj' heq rfl
      cases hxz
      obtain ⟨hafter, hlast⟩ := forall_mem_append.mp hafter
      split_ifs with hx
      · exact hlast x mem_cons_self hx
      · exact ⟨before, y, after, rfl, hy, hblock, hafter⟩
  intro h
  split_ifs at h with hx
  · exact ⟨xs, x, [], rfl, hx, h, by simp⟩
  · obtain ⟨before, y, after, rfl, hy, hblock, hafter⟩ := h
    refine ⟨before, y, after ++ [x], by simp, hy, hblock, forall_mem_append.mpr ⟨hafter, ?_⟩⟩
    exact fun z hz hconcerned => absurd (mem_singleton.mp hz ▸ hconcerned) hx

theorem lastBlocks_map_filter {concerned block : β → Bool} (keep : α → Bool) (f : α → β)
    (xs : List α) : LastBlocks concerned block ((xs.filter keep).map f) ↔
      LastBlocks (fun x => keep x && concerned (f x)) (block ∘ f) xs := by
  induction xs using List.reverseRecOn with
  | nil => exact iff_of_false (not_lastBlocks_nil _ _) (not_lastBlocks_nil _ _)
  | append_singleton xs x ih =>
    rw [lastBlocks_append_singleton, filter_append, map_append, filter_singleton]
    cases hkeep : keep x with
    | false => simpa using ih
    | true => simp [lastBlocks_append_singleton, ih]

end

theorem blocks_iff_lastBlocks (rs : List Rule) (port : UInt16) :
    blocks rs port = true ↔ LastBlocks (·.concerns port) Rule.block rs := by
  induction rs using List.reverseRecOn with
  | nil => exact iff_of_false Bool.false_ne_true (not_lastBlocks_nil _ _)
  | append_singleton rs r ih =>
    rw [blocks, foldl_append, foldl_cons, foldl_nil, lastBlocks_append_singleton]
    split
    · rfl
    · exact ih

theorem rules_append (a b : Str) : rules (a ++ 10 :: b) = rules a ++ rules b := by
  rw [rules, lines_append, filterMap_append, rules, rules]

/-! ### The rules of the text -/

namespace NetworkPolicy

/-- The rule of a policy, as the packet filter has it. -/
def rule (p : NetworkPolicy) : Rule :=
  ⟨p.action = .deny, if p.ports.length > 0 then some (p.ports.map UInt16.toNat) else none⟩

variable (p : NetworkPolicy)

theorem concerns_rule (port : UInt16) : p.rule.concerns port = p.matchesPort port := by
  unfold rule Rule.concerns matchesPort
  by_cases hports : p.ports.length = 0
  · simp [hports]
  · rw [if_pos (Nat.pos_of_ne_zero hports)]
    simp only [hports, false_or, mem_map, UInt16.toNat_inj, exists_eq_right]

theorem ten_notMem_portStr : 10 ∉ p.portStr := by
  intro hmem
  unfold portStr at hmem
  split at hmem
  · rcases mem_join hmem with h | ⟨part, hpart, h⟩
    · exact absurd h (by decide)
    · obtain ⟨port, -, rfl⟩ := mem_map.mp hpart
      exact absurd (formatUint_decimal h).1 (by decide)
  · exact absurd hmem (by decide)

theorem ten_notMem_ruleLine : 10 ∉ p.ruleLine := by
  intro hmem
  rw [ruleLine, mem_append, mem_append] at hmem
  rcases hmem with (hverb | htext) | hports
  · unfold verb at hverb
    split at hverb <;> exact absurd hverb (by decide)
  · exact absurd htext (by decide)
  · exact p.ten_notMem_portStr hports

theorem parsePorts_portStr : parsePorts p.portStr = some p.rule.ports := by
  unfold parsePorts portStr rule
  by_cases hports : p.ports.length > 0
  · have hvalues : p.ports.map UInt16.toNat ≠ [] := by
      simpa using ne_nil_of_length_pos hports
    have hparse := mapM_parseDecimal_join (by decide : (44 : UInt8).toNat < 48) hvalues
    rw [map_map, Function.comp_def] at hparse
    have hany : join 44 (p.ports.map fun port => formatUint port.toNat 10) ≠ literal "any" := by
      intro heq
      have hnone : ((literal "any").splitOn 44).mapM parseDecimal = none := by decide
      rw [heq, hnone] at hparse
      cases hparse
    simp only [if_pos hports, if_neg hany, hparse, Option.map_some]
  · simp only [if_neg hports, if_pos]

theorem parseVerb_verb (rest : Str) :
    parseVerb (p.verb ++ rest) = some (p.rule.block, rest) := by
  unfold verb rule
  by_cases hdeny : p.action = .deny
  · simp [hdeny, parseVerb, after_append]
  · have hnone : after (literal "block") (literal "pass" ++ rest) = none := rfl
    simp [hdeny, parseVerb, hnone, after_append]

theorem rules_ruleLine : rules p.ruleLine = [p.rule] := by
  have hparse : parseRule p.ruleLine = some p.rule := by
    simp only [parseRule, ruleLine, append_assoc, parseVerb_verb, Option.bind_eq_bind,
      Option.bind_some, after_append, parsePorts_portStr]
    rfl
  rw [rules, lines_of_notMem p.ten_notMem_ruleLine, filterMap_cons_some hparse, filterMap_nil]

/-- What the packet filter reads in the lines of a policy: its rule, and what its name hides behind a line
break. -/
def rulesWritten (p : NetworkPolicy) : List Rule := rules p.comment ++ [p.rule]

theorem rules_ruleBlock (text : Str) :
    rules (p.ruleBlock ++ text) = p.rulesWritten ++ rules text := by
  rw [ruleBlock, append_assoc, append_assoc, append_assoc, singleton_append,
    singleton_append, rules_append, rules_append, rules_ruleLine, rulesWritten, append_assoc]

end NetworkPolicy

namespace PolicyEngine

/-- The line of the header that names the node. -/
def title (nodeID : Str) : Str :=
  literal "# WireGuard segmentation ruleset for node: " ++ nodeID

/-- The rules that a node gets: what its name hides behind a line break, and those of the policies that
affect it. -/
def rulesWritten (e : PolicyEngine) (nodeID : Str) (node : Node) : List Rule :=
  rules (title nodeID) ++ (e.policies.filter (e.affects nodeID node)).flatMap NetworkPolicy.rulesWritten

theorem rules_header (nodeID text : Str) :
    rules (header nodeID ++ text) = rules (title nodeID) ++ rules text := by
  have hgenerated : rules (literal "# Generated by PolicyEngine — do not edit by hand.") = [] := by decide
  have happly : rules (literal
      "# CLAUDE-2: apply via 'pfctl -f <file>' (macOS) or equivalent nftables (Linux).") = [] := by
    decide
  have hempty : rules (literal "#") = [] := by decide
  simp only [header, append_assoc, cons_append, nil_append]
  rw [← append_assoc, rules_append, rules_append, rules_append, rules_append, hgenerated, happly,
    hempty, nil_append, nil_append, nil_append, title]

theorem rules_flatMap_ruleBlock (ps : List NetworkPolicy) :
    rules (ps.flatMap NetworkPolicy.ruleBlock) = ps.flatMap NetworkPolicy.rulesWritten := by
  induction ps with
  | nil => rfl
  | cons p ps ih => rw [flatMap_cons, NetworkPolicy.rules_ruleBlock, ih, flatMap_cons]

variable {e : PolicyEngine} {nodeID : Str} {node : Node}

/-! ### What the rules enforce -/

/-- A policy denies packets with the port between the node and some other one. -/
def Concerned (e : PolicyEngine) (nodeID : Str) (node : Node) (port : UInt16) : Prop :=
  ∃ id peer, e.nodes.lookup id = some peer ∧ id ≠ nodeID ∧
    (e.Denied node peer port ∨ e.Denied peer node port)

/-- A ruleset does on a node what `Decide` decides for the packets to and from it. -/
def Enforces (e : PolicyEngine) (nodeID text : Str) : Prop :=
  ∀ srcNodeID ∈ e.nodes, ∀ dstNodeID ∈ e.nodes, ∀ port,
    srcNodeID = nodeID ∨ dstNodeID = nodeID → srcNodeID ≠ dstNodeID →
      (blocks (rules text) port = true ↔ e.decide srcNodeID dstNodeID port = .ok .deny)

/-- One verdict per port is right for the node, and the last word on the port is that verdict. -/
structure Enforceable (e : PolicyEngine) (nodeID : Str) (node : Node) : Prop where
  /-- A port that is denied for one peer and one direction is denied for all of them. -/
  shared : ∀ port, e.Concerned nodeID node port → ∀ id peer, e.nodes.lookup id = some peer →
    id ≠ nodeID → e.Denied node peer port ∧ e.Denied peer node port
  /-- The last rule on a port is a block rule exactly if the port is denied. -/
  last : (∃ id ∈ e.nodes, id ≠ nodeID) → ∀ port,
    LastBlocks (·.concerns port) Rule.block (e.rulesWritten nodeID node) ↔
      e.Concerned nodeID node port

theorem enforces_iff {text : Str} (hnode : e.nodes.lookup nodeID = some node) :
    e.Enforces nodeID text ↔ ∀ id peer port, e.nodes.lookup id = some peer → id ≠ nodeID →
      (blocks (rules text) port = true ↔ e.Denied node peer port) ∧
      (blocks (rules text) port = true ↔ e.Denied peer node port) := by
  have hmem : nodeID ∈ e.nodes := mem_of_lookup hnode
  constructor
  · intro h id peer port hpeer hne
    have hid : id ∈ e.nodes := mem_of_lookup hpeer
    exact ⟨(h nodeID hmem id hid port (.inl rfl) hne.symm).trans (decide_eq_deny_iff hnode hpeer),
      (h id hid nodeID hmem port (.inr rfl) hne).trans (decide_eq_deny_iff hpeer hnode)⟩
  intro h src hsrc dst hdst port hends hne
  rcases hends with rfl | rfl
  · obtain ⟨peer, hpeer⟩ := exists_lookup_of_mem hdst
    exact (h dst peer port hpeer hne.symm).1.trans (decide_eq_deny_iff hnode hpeer).symm
  · obtain ⟨peer, hpeer⟩ := exists_lookup_of_mem hsrc
    exact (h src peer port hpeer hne).2.trans (decide_eq_deny_iff hpeer hnode).symm

/-- The ruleset enforces `Decide` exactly if one verdict per port is right and is that of the last
rule. -/
theorem enforces_iff_enforceable (e : PolicyEngine) (nodeID : Str) (node : Node)
    (hnode : e.nodes.lookup nodeID = some node) :
    (∃ text, e.generateEnforcementRuleset nodeID = .ok text ∧ e.Enforces nodeID text) ↔
      e.Enforceable nodeID node := by
  have htext : e.generateEnforcementRuleset nodeID =
      .ok (header nodeID ++ (e.policies.filter (e.affects nodeID node)).flatMap NetworkPolicy.ruleBlock) := by
    rw [generateEnforcementRuleset, hnode]
  simp only [htext, Except.ok.injEq, exists_eq_left', enforces_iff hnode, rules_header, rules_flatMap_ruleBlock]
  rw [← rulesWritten]
  simp only [blocks_iff_lastBlocks]
  constructor
  · intro h
    refine ⟨fun port hconcerned id peer hpeer hne => ?_, fun hpeers port => ⟨fun hblocks => ?_, ?_⟩⟩
    · obtain ⟨id', peer', hpeer', hne', hdenied⟩ := hconcerned
      have hblocks : LastBlocks (·.concerns port) Rule.block (e.rulesWritten nodeID node) :=
        hdenied.elim (h id' peer' port hpeer' hne').1.mpr (h id' peer' port hpeer' hne').2.mpr
      exact (h id peer port hpeer hne).imp (fun hiff => hiff.mp hblocks) (fun hiff => hiff.mp hblocks)
    · obtain ⟨id, hid, hne⟩ := hpeers
      obtain ⟨peer, hpeer⟩ := exists_lookup_of_mem hid
      exact ⟨id, peer, hpeer, hne, .inl ((h id peer port hpeer hne).1.mp hblocks)⟩
    · rintro ⟨id, peer, hpeer, hne, hdenied⟩
      exact hdenied.elim (h id peer port hpeer hne).1.mpr (h id peer port hpeer hne).2.mpr
  intro h id peer port hpeer hne
  have hid : id ∈ e.nodes := mem_of_lookup hpeer
  have hlast := h.last ⟨id, hid, hne⟩ port
  exact ⟨⟨fun hblocks => (h.shared port (hlast.mp hblocks) id peer hpeer hne).1,
      fun hdenied => hlast.mpr ⟨id, peer, hpeer, hne, .inl hdenied⟩⟩,
    ⟨fun hblocks => (h.shared port (hlast.mp hblocks) id peer hpeer hne).2,
      fun hdenied => hlast.mpr ⟨id, peer, hpeer, hne, .inr hdenied⟩⟩⟩

/-! ### Names without line breaks -/

theorem rules_comment_of_notMem {s : Str} (h : 10 ∉ s) : rules (35 :: s) = [] := by
  have hlines : 10 ∉ (35 :: s : Str) := by
    rw [mem_cons]
    exact not_or.mpr ⟨by decide, h⟩
  rw [rules, lines_of_notMem hlines]
  rfl

theorem ten_notMem_string (action : Action) : 10 ∉ action.string := by
  cases action with
  | allow => decide
  | deny => decide
  | unknown n =>
    show 10 ∉ literal "UNKNOWN"
    decide

theorem rulesWritten_policy_of_unbroken {p : NetworkPolicy} (hname : 10 ∉ p.name) :
    p.rulesWritten = [p.rule] := by
  have hcomment : rules p.comment = [] := by
    refine rules_comment_of_notMem (s := literal " policy: " ++ p.name ++ _ ++ _) fun hmem => ?_
    rw [mem_append, mem_append, mem_append] at hmem
    rcases hmem with ((htext | hmem) | htext) | haction
    · exact absurd htext (by decide)
    · exact hname hmem
    · exact absurd htext (by decide)
    · exact ten_notMem_string p.action haction
  rw [NetworkPolicy.rulesWritten, hcomment, nil_append]

theorem rulesWritten_of_unbroken (hID : 10 ∉ nodeID) (hnames : ∀ p ∈ e.policies, 10 ∉ p.name) :
    e.rulesWritten nodeID node = (e.policies.filter (e.affects nodeID node)).map NetworkPolicy.rule := by
  have htitle : rules (title nodeID) = [] := by
    refine rules_comment_of_notMem (s := _ ++ nodeID) fun hmem => ?_
    exact (mem_append.mp hmem).elim (by decide) hID
  have hpolicies : ∀ p ∈ e.policies.filter (e.affects nodeID node), p.rulesWritten = [p.rule] :=
    fun p hp => rulesWritten_policy_of_unbroken (hnames p (mem_of_mem_filter hp))
  rw [rulesWritten, htitle, nil_append, flatMap_congr hpolicies, map_eq_flatMap]

/-- Without line breaks, exactly if each port of a DENY is denied to all, and no other policy for the
port that affects the node stands behind the last such DENY. -/
theorem enforceable_iff_of_unbroken (hID : 10 ∉ nodeID) (hnames : ∀ p ∈ e.policies, 10 ∉ p.name) :
    e.Enforceable nodeID node ↔ ∀ port, e.Concerned nodeID node port →
      (∀ id peer, e.nodes.lookup id = some peer → id ≠ nodeID →
        e.Denied node peer port ∧ e.Denied peer node port) ∧
      ∃ before p after, e.policies = before ++ p :: after ∧ p.action = .deny ∧
        e.affects nodeID node p = true ∧ p.matchesPort port = true ∧
        ∀ q ∈ after, e.affects nodeID node q = true → q.matchesPort port = true →
          q.action = .deny := by
  have horder : ∀ port, LastBlocks (·.concerns port) Rule.block (e.rulesWritten nodeID node) ↔
      ∃ before p after, e.policies = before ++ p :: after ∧ p.action = .deny ∧
        e.affects nodeID node p = true ∧ p.matchesPort port = true ∧
        ∀ q ∈ after, e.affects nodeID node q = true → q.matchesPort port = true →
          q.action = .deny := by
    intro port
    rw [rulesWritten_of_unbroken hID hnames, lastBlocks_map_filter]
    have hblock : ∀ p : NetworkPolicy, p.rule.block = true ↔ p.action = .deny :=
      fun p => decide_eq_true_iff
    simp only [LastBlocks, NetworkPolicy.concerns_rule, Bool.and_eq_true, Function.comp_apply,
      hblock, and_imp]
    grind
  constructor
  · intro h port hconcerned
    obtain ⟨id, peer, hpeer, hne, -⟩ := id hconcerned
    have hid : id ∈ e.nodes := mem_of_lookup hpeer
    exact ⟨h.shared port hconcerned,
      (horder port).mp ((h.last ⟨id, hid, hne⟩ port).mpr hconcerned)⟩
  intro h
  refine ⟨fun port hconcerned => (h port hconcerned).1, fun _ port => ⟨fun hlast => ?_,
    fun hconcerned => (horder port).mpr (h port hconcerned).2⟩⟩
  -- the DENY that has the last word is about some peer
  obtain ⟨before, p, after, heq, hdeny, haffects, hport, -⟩ := (horder port).mp hlast
  have hpolicy : p ∈ e.policies := heq ▸ mem_append_right before mem_cons_self
  simp only [PolicyEngine.affects, any_eq_true, decide_eq_true_eq] at haffects
  obtain ⟨⟨id, peer⟩, hmem, hother, hcovers⟩ := haffects
  have hpeer := AList.mem_lookup_iff.mpr hmem
  exact ⟨id, peer, hpeer, e.filed id peer hpeer ▸ hother,
    hcovers.imp (fun hc => ⟨p, hpolicy, hdeny, hc, hport⟩) (fun hc => ⟨p, hpolicy, hdeny, hc, hport⟩)⟩

/-! ### Rulesets on two nodes -/

/-- A policy on all packets. -/
def onAll (name : Str) (action : Action) : NetworkPolicy := ⟨name, action, ⟨∅⟩, ⟨∅⟩, []⟩

/-- Two nodes without labels. -/
def nodeA : Node := ⟨literal "a", ∅⟩
def nodeB : Node := ⟨literal "b", ∅⟩

/-- An engine on the two nodes. -/
def onTwoNodes (policies : List NetworkPolicy) : PolicyEngine :=
  ⟨policies, ((NodeMap.empty.file nodeA).file nodeB).1, ((NodeMap.empty.file nodeA).file nodeB).2⟩

/-- An ALLOW in front of a DENY: the engine denies the packets, and the ruleset blocks them. -/
theorem deny_behind_allow_enforced :
    let e := onTwoNodes [onAll (literal "allow") .allow, onAll (literal "deny") .deny]
    ∃ text, e.generateEnforcementRuleset (literal "a") = .ok text ∧
      e.Enforces (literal "a") text := by
  intro e
  refine (enforces_iff_enforceable _ _ nodeA rfl).mpr ?_
  refine (enforceable_iff_of_unbroken (by decide) (by decide)).mpr fun port _ => ⟨?_, ?_⟩
  · intro id peer _ _
    have hdenied : ∀ src dst : Node, e.Denied src dst port :=
      fun src dst => ⟨_, mem_cons_of_mem _ (mem_singleton_self _), rfl, rfl, rfl⟩
    exact ⟨hdenied nodeA peer, hdenied peer nodeA⟩
  · exact ⟨[onAll (literal "allow") .allow], onAll (literal "deny") .deny, [], rfl, rfl, rfl, rfl,
      by simp⟩

/-- An ALLOW behind a DENY: the engine denies the packet, and the ruleset passes it. -/
theorem allow_behind_deny_passes :
    newPolicyEngine [some (onAll (literal "deny") .deny), some (onAll (literal "allow") .allow)]
        [some nodeA, some nodeB] =
      .ok (onTwoNodes [onAll (literal "deny") .deny, onAll (literal "allow") .allow]) ∧
    (onTwoNodes [onAll (literal "deny") .deny, onAll (literal "allow") .allow]).decide
        (literal "a") (literal "b") 80 = .ok .deny ∧
    ((onTwoNodes [onAll (literal "deny") .deny, onAll (literal "allow") .allow]).generateEnforcementRuleset
        (literal "a")).map (fun text => blocks (rules text) 80) = .ok false :=
  ⟨rfl, rfl, rfl⟩

end PolicyEngine

end HelixCluster.Wireguard
