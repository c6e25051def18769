import HelixCluster.EdgeGateway.Route
import HelixCluster.Lib.Runs

/-!
# Isolation of dispatches

The table mirrors the connections that are registered, over every history of calls in which none is
registered twice at a time.
-/

namespace HelixCluster.EdgeGateway

open GoMap List

variable {κ : Type}

/-- The calls. -/
inductive Call (κ : Type) where
  | register (c : Conn κ)
  | unregister (c : Conn κ)

/-- The gateway, and the connections that are registered, in order. -/
structure World (κ : Type) where
  gateway : Gateway κ
  registered : List (Conn κ)

namespace World

/-- The connections that are registered under the node. -/
def under (w : World κ) (nodeID : Str) : List (Conn κ) := w.registered.filter fun c => c.nodeID = nodeID

/-- The numbers of connections and of nodes. -/
structure Counted (w : World κ) : Prop where
  total : w.gateway.table.totalConns = w.registered.length
  conns : w.gateway.table.totalConns ≤ w.gateway.table.maxConns
  nodes : ((w.registered.map Conn.nodeID).dedup.length : ℤ) ≤ w.gateway.table.maxNodes

/-- The envelope is sent once to each connection under the node and to no other. -/
structure Delivered {ε : Type} (w : World κ) (r : Routed κ ε) (env : Envelope) (nodeID : Str) : Prop where
  once : r.sent.Nodup
  exact : ∀ c e, (c, e) ∈ r.sent ↔ e = env ∧ c ∈ w.registered ∧ c.nodeID = nodeID
  no_route : r.err = if w.under nodeID = [] then some .noRoute else none

/-- The table has what is registered. -/
structure Mirrors (w : World κ) : Prop where
  lookup : ∀ nodeID, w.gateway.table.byNode.lookup nodeID =
    if w.under nodeID = [] then none else some (w.under nodeID)
  total : w.gateway.table.totalConns = w.registered.length
  conns : w.gateway.table.totalConns ≤ w.gateway.table.maxConns
  nodes : (w.gateway.table.byNode.len : ℤ) ≤ w.gateway.table.maxNodes
  nodup : w.registered.Nodup
  isOpen : w.gateway.closed = false

variable {w : World κ}

theorem Mirrors.read (h : w.Mirrors) (nodeID : Str) :
    w.gateway.table.byNode.read nodeID [] = w.under nodeID := by
  rw [GoMap.read, h.lookup]
  split_ifs with hempty
  · exact hempty.symm
  · rfl

variable {nodeID : Str}

theorem mem_under {c : Conn κ} : c ∈ w.under nodeID ↔ c ∈ w.registered ∧ c.nodeID = nodeID := by
  rw [under, mem_filter, decide_eq_true_iff]

theorem Mirrors.nodup_under (h : w.Mirrors) : (w.under nodeID).Nodup := h.nodup.filter _

theorem Mirrors.mem_byNode_iff (h : w.Mirrors) :
    nodeID ∈ w.gateway.table.byNode ↔ w.under nodeID ≠ [] := by
  rw [← AList.lookup_isSome, h.lookup]
  split_ifs with hempty
  · exact iff_of_false Bool.false_ne_true (not_not_intro hempty)
  · exact iff_of_true rfl hempty

theorem Mirrors.counted (h : w.Mirrors) : w.Counted where
  total := h.total
  conns := h.conns
  nodes := by
    have hsub : (w.registered.map Conn.nodeID).dedup ⊆ w.gateway.table.byNode.keys := by
      intro nodeID hmem
      obtain ⟨c, hc, rfl⟩ := mem_map.mp (mem_dedup.mp hmem)
      have hne : w.under c.nodeID ≠ [] := ne_nil_of_mem (mem_under.mpr ⟨hc, rfl⟩)
      exact AList.mem_keys.mp (h.mem_byNode_iff.mpr hne)
    have hle := ((nodup_dedup _).subperm hsub).length_le
    have hnodes := h.nodes
    rw [GoMap.len] at hnodes
    omega

theorem mirrors_start (cfg : Config) : (⟨newWithConfig cfg, []⟩ : World κ).Mirrors where
  lookup nodeID := rfl
  total := rfl
  conns := by
    show (0 : ℤ) ≤ if cfg.maxConns ≤ 0 then defaultMaxConns else cfg.maxConns
    split_ifs
    · decide
    · omega
  nodes := by
    show (0 : ℤ) ≤ if cfg.maxNodes ≤ 0 then defaultMaxNodes else cfg.maxNodes
    split_ifs
    · decide
    · omega
  nodup := nodup_nil
  isOpen := rfl

/-! ### Registration -/

theorem under_append (w : World κ) (g : Gateway κ) (c : Conn κ) (nodeID : Str) :
    under ⟨g, w.registered ++ [c]⟩ nodeID =
      if c.nodeID = nodeID then w.under nodeID ++ [c] else w.under nodeID := by
  show (w.registered ++ [c]).filter _ = _
  rw [filter_append, filter_singleton]
  split_ifs with h
  · simp [h, under]
  · simp [h, under]

theorem Mirrors.add (h : w.Mirrors) {c : Conn κ} {t : RoutingTable κ} (hc : c ∉ w.registered)
    (hadd : w.gateway.table.add c = .ok t) :
    Mirrors ⟨{ w.gateway with table := t }, w.registered ++ [c]⟩ := by
  unfold RoutingTable.add at hadd
  split_ifs at hadd with hconns hnodes
  cases hadd
  constructor
  · intro nodeID
    rw [under_append]
    show (w.gateway.table.byNode.insert c.nodeID _).lookup nodeID = _
    rw [lookup_insert_if, h.read, h.lookup]
    rcases eq_or_ne c.nodeID nodeID with rfl | hsame
    · rw [if_pos rfl, if_pos rfl, if_neg (append_ne_nil_of_right_ne_nil _ (cons_ne_nil _ _))]
    · rw [if_neg (Ne.symm hsame), if_neg hsame]
  · show w.gateway.table.totalConns + 1 = ((w.registered ++ [c]).length : ℤ)
    rw [h.total, length_append, length_singleton]
    push_cast
    rfl
  · show w.gateway.table.totalConns + 1 ≤ w.gateway.table.maxConns
    omega
  · show (GoMap.len (w.gateway.table.byNode.insert c.nodeID _) : ℤ) ≤ w.gateway.table.maxNodes
    have hle := h.nodes
    rw [len_insert]
    split_ifs with hknown
    · exact hle
    have hroom : ¬w.gateway.table.maxNodes ≤ w.gateway.table.byNode.len := fun hfull => hnodes ⟨hknown, hfull⟩
    push_cast
    omega
  · exact nodup_append_comm.mp (nodup_cons.mpr ⟨hc, h.nodup⟩)
  · exact h.isOpen

/-! ### Unregistration -/

variable [DecidableEq κ]

theorem Mirrors.under_erase (h : w.Mirrors) (g : Gateway κ) (c : Conn κ) (nodeID : Str) :
    under ⟨g, w.registered.erase c⟩ nodeID =
      if c.nodeID = nodeID then (w.under nodeID).erase c else w.under nodeID := by
  show (w.registered.erase c).filter _ = _
  rw [h.nodup.erase_eq_filter, filter_filter]
  split_ifs with hsame
  · rw [h.nodup_under.erase_eq_filter, under, filter_filter]
    exact filter_congr fun d _ => Bool.and_comm _ _
  refine filter_congr fun d _ => ?_
  by_cases hd : d.nodeID = nodeID
  · have hne : d ≠ c := fun heq => hsame (heq ▸ hd)
    simp [hd, hne]
  · simp [hd]

theorem Mirrors.remove (h : w.Mirrors) (c : Conn κ) :
    Mirrors ⟨w.gateway.unregister c, w.registered.erase c⟩ := by
  have hread := h.read c.nodeID
  have hmem : c ∈ w.gateway.table.byNode.read c.nodeID [] ↔ c ∈ w.registered := by
    rw [hread, mem_under, and_iff_left rfl]
  constructor
  · intro nodeID
    rw [h.under_erase]
    show (if _ then w.gateway.table.byNode.erase c.nodeID else w.gateway.table.byNode.insert c.nodeID _).lookup
      nodeID = _
    rw [hread]
    rcases eq_or_ne c.nodeID nodeID with rfl | hsame
    · rw [if_pos rfl]
      split_ifs with hempty
      · rw [lookup_erase_if, if_pos rfl]
      · rw [lookup_insert_if, if_pos rfl]
    rw [if_neg hsame, ← h.lookup]
    split_ifs with hempty
    · rw [lookup_erase_if, if_neg (Ne.symm hsame)]
    · rw [lookup_insert_if, if_neg (Ne.symm hsame)]
  · show (if c ∈ w.gateway.table.byNode.read c.nodeID [] then w.gateway.table.totalConns - 1
      else w.gateway.table.totalConns) = ((w.registered.erase c).length : ℤ)
    rw [h.total, length_erase]
    by_cases hc : c ∈ w.registered
    · have hpos := length_pos_of_mem hc
      rw [if_pos (hmem.mpr hc), if_pos hc]
      omega
    · rw [if_neg (hmem.not.mpr hc), if_neg hc]
  · show (if c ∈ w.gateway.table.byNode.read c.nodeID [] then w.gateway.table.totalConns - 1
      else w.gateway.table.totalConns) ≤ w.gateway.table.maxConns
    have hle := h.conns
    split_ifs <;> omega
  · show (GoMap.len (if _ then w.gateway.table.byNode.erase c.nodeID
      else w.gateway.table.byNode.insert c.nodeID _) : ℤ) ≤ w.gateway.table.maxNodes
    have hle := h.nodes
    rw [hread]
    split_ifs with hempty
    · have herase := len_erase_le w.gateway.table.byNode c.nodeID
      omega
    have hknown : c.nodeID ∈ w.gateway.table.byNode := by
      rw [h.mem_byNode_iff]
      rintro hnil
      exact hempty (by rw [hnil, erase_nil])
    rw [len_insert, if_pos hknown]
    exact hle
  · exact h.nodup.erase c
  · exact h.isOpen

/-! ### Runs -/

def step (w : World κ) : Call κ → World κ
  | .register c =>
    match w.gateway.register c with
    | .ok g => ⟨g, w.registered ++ [c]⟩
    | .error _ => w
  | .unregister c => ⟨w.gateway.unregister c, w.registered.erase c⟩

/-- A connection that is registered is not registered again. -/
def RegistersOnce (w : World κ) : Call κ → Prop
  | .register c => c ∉ w.registered
  | .unregister _ => True

instance (w : World κ) : DecidablePred w.RegistersOnce
  | .register c => inferInstanceAs (Decidable (c ∉ w.registered))
  | .unregister _ => .isTrue trivial

theorem Mirrors.step (h : w.Mirrors) (call : Call κ) (hcall : w.RegistersOnce call) :
    (w.step call).Mirrors := by
  cases call with
  | register c =>
    have hregister : w.gateway.register c = (w.gateway.table.add c).map fun table => { w.gateway with table } :=
      if_neg (by simp [h.isOpen])
    simp only [World.step, hregister]
    cases hadd : w.gateway.table.add c with
    | error e => exact h
    | ok t => exact h.add hcall hadd
  | unregister c => exact h.remove c

/-! ### Dispatches -/

omit [DecidableEq κ] in
theorem Mirrors.delivered_iff {ε : Type} (h : w.Mirrors) (env : Envelope) (looked nodeID : Str) :
    Delivered (ε := ε) w
        ⟨(w.under looked).map fun c => (c, env), if w.under looked = [] then some .noRoute else none⟩ env nodeID ↔
      looked = nodeID ∨ ∀ c ∈ w.registered, c.nodeID ≠ nodeID ∧ c.nodeID ≠ looked := by
  have hsent : ∀ c e, (c, e) ∈ (w.under looked).map (fun c => (c, env)) ↔
      e = env ∧ c ∈ w.registered ∧ c.nodeID = looked := by
    intro c e
    rw [mem_map]
    constructor
    · rintro ⟨d, hd, heq⟩
      cases heq
      exact ⟨rfl, mem_under.mp hd⟩
    · rintro ⟨rfl, hc⟩
      exact ⟨c, mem_under.mpr hc, rfl⟩
  constructor
  · intro hdelivered
    by_contra hwrong
    obtain ⟨hne, hsome⟩ := not_or.mp hwrong
    refine hsome fun c hc => ⟨?_, ?_⟩
    · intro hnode
      have hlooked := ((hsent c env).mp ((hdelivered.exact c env).mpr ⟨rfl, hc, hnode⟩)).2.2
      exact hne (hlooked.symm.trans hnode)
    intro hlooked
    have hnode := ((hdelivered.exact c env).mp ((hsent c env).mpr ⟨rfl, hc, hlooked⟩)).2.2
    exact hne (hlooked.symm.trans hnode)
  rintro (rfl | hnone)
  · exact ⟨h.nodup_under.map fun c d heq => (Prod.mk.inj heq).1, hsent, rfl⟩
  · have hempty : ∀ n, n = nodeID ∨ n = looked → w.under n = [] := by
      intro n hn
      refine filter_eq_nil_iff.mpr fun c hc => ?_
      obtain rfl | rfl := hn
      · simpa using (hnone c hc).1
      · simpa using (hnone c hc).2
    rw [hempty looked (.inr rfl)]
    refine ⟨nodup_nil, fun c e => iff_of_false not_mem_nil ?_, ?_⟩
    · rintro ⟨-, hc, hnode⟩
      exact (hnone c hc).1 hnode
    · rw [hempty nodeID (.inl rfl)]

/-- The dispatch is addressed to the node, by its `Dest` or by its topic. -/
def Addressed (env : Envelope) (nodeID : Str) : Prop :=
  env.dest = nodeID ∧ nodeID ≠ [] ∨ env.dest = [] ∧ env.topic = dispatchTopic nodeID

/-- The table counts the connections, and a dispatch reaches those of its node alone, unless a topic
cuts the ID at a `/`. -/
theorem dispatch_isolated_iff {ε : Type} (cfg : Config) (calls : List (Call κ))
    (honce : Along step RegistersOnce ⟨newWithConfig cfg, []⟩ calls) {send : Conn κ → Envelope → Option ε}
    (hsend : ∀ c e, send c e = none) : ∀ w ∈ states step ⟨newWithConfig cfg, []⟩ calls, w.Counted ∧
      ∀ (nodeID : Str) (env : Envelope), env.validate = .ok () → env.kind = .dispatch →
        Addressed env nodeID → (w.Delivered (w.gateway.route send env) env nodeID ↔
            env.dest ≠ [] ∨ topicSeparator ∉ nodeID ∨
              ∀ c ∈ w.registered, c.nodeID ≠ nodeID ∧ c.nodeID ≠ beforeSeparator nodeID) := by
  intro w hw
  have hmirrors : w.Mirrors :=
    forall_states_of_along (fun w call h => h.step call) (mirrors_start cfg) honce w hw
  refine ⟨hmirrors.counted, fun nodeID env hvalid hkind haddressed => ?_⟩
  rw [route_dispatch hmirrors.isOpen hvalid hkind, deliver_eq hsend, RoutingTable.lookup, hmirrors.read,
    hmirrors.delivered_iff]
  obtain ⟨rfl, hne⟩ | ⟨hdest, htopic⟩ := haddressed
  · exact iff_of_true (.inl (if_neg hne)) (.inl hne)
  have htarget : env.target = beforeSeparator nodeID := by
    have hne : env.topic ≠ [] := by
      rw [htopic]
      exact append_ne_nil_of_right_ne_nil _ (cons_ne_nil _ _)
    rw [Envelope.target, if_pos hdest, Envelope.routeTopic, if_pos hne, htopic, nodeFromTopic_dispatchTopic]
  rw [htarget, beforeSeparator_eq_self_iff, or_iff_right (not_not_intro hdest)]

/-- The connections of the nodes `a` and `a/b`. -/
def twoConns : List (Call ℕ) := [.register ⟨0, literal "a"⟩, .register ⟨1, literal "a/b"⟩]

/-- A dispatch by topic. -/
def byTopic (nodeID : Str) : Envelope :=
  ⟨literal "1", .dispatch, [], [], dispatchTopic nodeID, [], 0⟩

theorem twoConns_dispatch_a :
    let w := twoConns.foldl step ⟨newWithConfig ⟨0, 0⟩, []⟩
    w.Counted ∧ w.Delivered (w.gateway.route (ε := Empty) (fun _ _ => none) (byTopic (literal "a")))
      (byTopic (literal "a")) (literal "a") := by
  intro w
  obtain ⟨hcounted, hdelivered⟩ :=
    dispatch_isolated_iff ⟨0, 0⟩ twoConns (by decide) (fun _ _ => rfl) w (foldl_mem_states _ _)
  exact ⟨hcounted, (hdelivered _ _ (by decide) rfl (.inr ⟨rfl, rfl⟩)).mpr (.inr (.inl (by decide)))⟩

/-- The dispatch for `a/b` is sent to the connection of `a`. -/
theorem twoConns_dispatch_misrouted : ¬∀ w ∈ states step ⟨newWithConfig ⟨0, 0⟩, []⟩ twoConns,
      w.Delivered (w.gateway.route (ε := Empty) (fun _ _ => none) (byTopic (literal "a/b")))
        (byTopic (literal "a/b")) (literal "a/b") := by
  intro h
  have hlast := h _ (foldl_mem_states _ _)
  have hsent := (hlast.exact ⟨0, literal "a"⟩ (byTopic (literal "a/b"))).mp (by decide)
  exact absurd hsent.2.2 (by decide)

end World

end HelixCluster.EdgeGateway
