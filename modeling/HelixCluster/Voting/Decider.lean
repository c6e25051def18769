import HelixCluster.Lib.GoMap

/-!
# Quorum decisions

The `QuorumDecider` of `pkg/voting`.
-/

namespace HelixCluster.Voting

open List hiding set

inductive TiebreakMode where
  | tiebreakNone
  | tiebreakLowestID
  | tiebreakWitness
  deriving DecidableEq

inductive Reason where
  | hasMajority
  | lostQuorum
  | tieWon
  | tieLost
  deriving DecidableEq

/-- The errors of `NewQuorumDecider` and `Decide`. -/
inductive Error where
  | noLocalID
  | noMembers
  | emptyMember
  | selfNotMember
  | noWitness
  | unknownWitness
  | selfNotReachable
  deriving DecidableEq

structure Decision where
  canLeadPrimary : Bool
  reason : Reason
  reachable : ℕ
  total : ℕ
  quorum : ℕ
  deriving DecidableEq

structure Config where
  localID : Str
  members : List Str
  tiebreak : TiebreakMode
  witnessID : Str

/-- `QuorumDecider`. The members are the keys of `memberOf` in ascending order. -/
structure QuorumDecider where
  localID : Str
  members : List Str
  memberOf : GoMap Str Unit
  tiebreak : TiebreakMode
  witness : Str
  sorted : members.Pairwise (· < ·)
  mem_members : ∀ m, m ∈ members ↔ m ∈ memberOf
  localID_mem : localID ∈ memberOf
  witness_mem : tiebreak = .tiebreakWitness → witness ∈ memberOf

/-- The set of the members, none of which is empty. -/
def memberSet (members : List Str) : Except Error (GoMap Str Unit) :=
  members.foldlM (fun set m => if m = [] then .error .emptyMember else .ok (set.insert m ())) ∅

theorem pairwise_lt_sort (set : GoMap Str Unit) :
    (set.keys.insertionSort (· ≤ ·)).Pairwise (· < ·) := by
  have hnodup : (set.keys.insertionSort (· ≤ ·)).Nodup :=
    (perm_insertionSort _ _).nodup_iff.mpr set.keys_nodup
  exact ((pairwise_insertionSort (· ≤ ·) set.keys).and hnodup).imp fun h =>
    lt_of_le_of_ne h.1 h.2

def newQuorumDecider (cfg : Config) : Except Error QuorumDecider :=
  if cfg.localID = [] then .error .noLocalID
  else if cfg.members = [] then .error .noMembers
  else
    match memberSet cfg.members with
    | .error err => .error err
    | .ok set =>
      if hself : cfg.localID ∉ set then .error .selfNotMember
      else if cfg.tiebreak = .tiebreakWitness ∧ cfg.witnessID = [] then .error .noWitness
      else if hwitness : cfg.tiebreak = .tiebreakWitness ∧ cfg.witnessID ∉ set then
        .error .unknownWitness
      else
        .ok
          { localID := cfg.localID
            members := set.keys.insertionSort (· ≤ ·)
            memberOf := set
            tiebreak := cfg.tiebreak
            witness := cfg.witnessID
            sorted := pairwise_lt_sort set
            mem_members := fun m => by rw [mem_insertionSort, AList.mem_keys]
            localID_mem := not_not.mp hself
            witness_mem := fun htiebreak =>
              by_contra fun hmem => hwitness ⟨htiebreak, hmem⟩ }

/-- The loop state of `Decide`: the members reached, and whether the node itself was. -/
structure Reached where
  seen : GoMap Str Unit
  selfReachable : Bool
  count : ℕ

namespace QuorumDecider

def quorum (d : QuorumDecider) : ℕ := d.members.length / 2 + 1

/-- The loop body of `Decide`. -/
def reach (d : QuorumDecider) (acc : Reached) (r : Str) : Reached :=
  let acc := { acc with selfReachable := if r = d.localID then true else acc.selfReachable }
  if r ∉ d.memberOf then acc
  else if r ∈ acc.seen then acc
  else { acc with seen := acc.seen.insert r (), count := acc.count + 1 }

def tiebreakWins (d : QuorumDecider) (reachableSet : GoMap Str Unit) : Bool :=
  match d.tiebreak with
  | .tiebreakLowestID => d.members.getD 0 [] ∈ reachableSet
  | .tiebreakWitness => d.witness ∈ reachableSet
  | .tiebreakNone => false

def decide (d : QuorumDecider) (reachable : List Str) : Except Error Decision :=
  let n := d.members.length
  let reached := reachable.foldl d.reach ⟨∅, false, 0⟩
  if ¬ reached.selfReachable then .error .selfNotReachable
  else if reached.count ≥ d.quorum then
    .ok ⟨true, .hasMajority, reached.count, n, d.quorum⟩
  else if n % 2 = 0 ∧ reached.count = n / 2 then
    if d.tiebreakWins reached.seen then .ok ⟨true, .tieWon, reached.count, n, d.quorum⟩
    else .ok ⟨false, .tieLost, reached.count, n, d.quorum⟩
  else .ok ⟨false, .lostQuorum, reached.count, n, d.quorum⟩

def canLeadPrimary (d : QuorumDecider) (reachable : List Str) : Bool :=
  match d.decide reachable with
  | .error _ => false
  | .ok dec => dec.canLeadPrimary

end QuorumDecider

/-- The verdict of a node, which builds its decider from its configuration. -/
def verdict (cfg : Config) (reachable : List Str) : Bool :=
  match newQuorumDecider cfg with
  | .error _ => false
  | .ok d => d.canLeadPrimary reachable

/-! ## The abstract rule -/

/-- The member that breaks a tie. -/
def Anchor (members : List Str) (witness : Str) : TiebreakMode → Str → Prop
  | .tiebreakNone, _ => False
  | .tiebreakLowestID, a => IsLeast {m | m ∈ members} a
  | .tiebreakWitness, a => a = witness

/-- A strict majority, or half of the cluster with the anchor in it. -/
def Primary (cfg : Config) (side : Finset Str) : Prop :=
  cfg.members.toFinset.card < 2 * side.card ∨ 2 * side.card = cfg.members.toFinset.card ∧
      ∃ a ∈ side, Anchor cfg.members cfg.witnessID cfg.tiebreak a

/-! ## What a node decides -/

theorem mem_of_memberSet {members : List Str} {set : GoMap Str Unit}
    (h : memberSet members = .ok set) (m : Str) : m ∈ set ↔ m ∈ members := by
  suffices hloop : ∀ init : GoMap Str Unit,
      members.foldlM (fun set m => if m = [] then .error .emptyMember else .ok (set.insert m ()))
        init = (.ok set : Except Error _) → (m ∈ set ↔ m ∈ init ∨ m ∈ members) by
    simpa using hloop ∅ h
  clear h
  induction members with
  | nil =>
    intro init h
    obtain rfl : init = set := Except.ok.inj h
    simp
  | cons other members ih =>
    intro init h
    rw [foldlM_cons] at h
    split at h
    · cases h
    · rw [ih (init.insert other ()) h, AList.mem_insert, mem_cons]
      tauto

variable {cfg : Config} {d : QuorumDecider} {reachable : List Str}

theorem of_newQuorumDecider (h : newQuorumDecider cfg = .ok d) :
    d.localID = cfg.localID ∧ d.tiebreak = cfg.tiebreak ∧ d.witness = cfg.witnessID ∧
      ∀ m, m ∈ d.memberOf ↔ m ∈ cfg.members := by
  unfold newQuorumDecider at h
  split at h
  · cases h
  split at h
  · cases h
  split at h
  · cases h
  · next set hset =>
    split at h
    · cases h
    split at h
    · cases h
    split at h
    · cases h
    · cases h
      exact ⟨rfl, rfl, rfl, mem_of_memberSet hset⟩

theorem length_members (hmembers : ∀ m, m ∈ d.memberOf ↔ m ∈ cfg.members) :
    d.members.length = cfg.members.toFinset.card := by
  have hnodup : d.members.Nodup := d.sorted.imp ne_of_lt
  rw [← toFinset_card_of_nodup hnodup]
  congr 1
  ext m
  rw [mem_toFinset, mem_toFinset, d.mem_members, hmembers]

theorem reach_spec (d : QuorumDecider) {acc : Reached} (r : Str)
    (hcount : acc.count = acc.seen.len) :
    (∀ m, m ∈ (d.reach acc r).seen ↔ m ∈ acc.seen ∨ m = r ∧ m ∈ d.memberOf) ∧
      ((d.reach acc r).selfReachable = true ↔ acc.selfReachable = true ∨ d.localID = r) ∧
      (d.reach acc r).count = (d.reach acc r).seen.len := by
  have hself : (if r = d.localID then true else acc.selfReachable) = true ↔
      acc.selfReachable = true ∨ d.localID = r := by
    split
    · next heq => simp [heq]
    · next hne => simp [Ne.symm hne]
  unfold QuorumDecider.reach
  dsimp only
  split
  · exact ⟨fun m => by grind, hself, hcount⟩
  split
  · exact ⟨fun m => by grind, hself, hcount⟩
  · next hnew =>
    refine ⟨fun m => ?_, hself, ?_⟩
    · rw [AList.mem_insert]
      grind
    · rw [GoMap.len_insert, if_neg hnew, hcount]

theorem foldl_reach (d : QuorumDecider) (reachable : List Str) {acc : Reached}
    (hcount : acc.count = acc.seen.len) :
    (∀ m, m ∈ (reachable.foldl d.reach acc).seen ↔ m ∈ acc.seen ∨ m ∈ reachable ∧ m ∈ d.memberOf) ∧
      ((reachable.foldl d.reach acc).selfReachable = true ↔
        acc.selfReachable = true ∨ d.localID ∈ reachable) ∧
      (reachable.foldl d.reach acc).count = (reachable.foldl d.reach acc).seen.len := by
  induction reachable generalizing acc with
  | nil => simp [hcount]
  | cons r reachable ih =>
    obtain ⟨hseen, hself, hcount'⟩ := reach_spec d r hcount
    obtain ⟨ihseen, ihself, ihcount⟩ := ih hcount'
    refine ⟨fun m => ?_, ?_, ihcount⟩
    · rw [foldl_cons, ihseen, hseen, mem_cons]
      tauto
    · rw [foldl_cons, ihself, hself, mem_cons]
      tauto

/-- The members that a node reaches. -/
def sideOf (cfg : Config) (reachable : List Str) : Finset Str :=
  cfg.members.toFinset.filter (· ∈ reachable)

theorem mem_sideOf {m : Str} : m ∈ sideOf cfg reachable ↔ m ∈ cfg.members ∧ m ∈ reachable := by
  rw [sideOf, Finset.mem_filter, mem_toFinset]

theorem isLeast_members (hmembers : ∀ m, m ∈ d.memberOf ↔ m ∈ cfg.members) :
    IsLeast {m | m ∈ cfg.members} (d.members.getD 0 []) := by
  have hmem : ∀ m, m ∈ d.members ↔ m ∈ cfg.members := fun m => (d.mem_members m).trans (hmembers m)
  have hsorted := d.sorted
  have hlocal := (d.mem_members _).mpr d.localID_mem
  generalize d.members = members at hmem hsorted hlocal
  cases members with
  | nil => cases hlocal
  | cons first rest =>
    refine ⟨(hmem first).mp mem_cons_self, fun m hm => ?_⟩
    rcases mem_cons.mp ((hmem m).mpr hm) with rfl | hrest
    · exact le_refl _
    · exact le_of_lt ((pairwise_cons.mp hsorted).1 m hrest)

theorem tiebreakWins_iff (h : newQuorumDecider cfg = .ok d) {seen : GoMap Str Unit}
    (hseen : ∀ m, m ∈ seen ↔ m ∈ sideOf cfg reachable) : d.tiebreakWins seen = true ↔
      ∃ a ∈ sideOf cfg reachable, Anchor cfg.members cfg.witnessID cfg.tiebreak a := by
  obtain ⟨_, htiebreak, hwitness, hmembers⟩ := of_newQuorumDecider h
  unfold QuorumDecider.tiebreakWins
  rw [← htiebreak, ← hwitness]
  cases d.tiebreak with
  | tiebreakNone => simp [Anchor]
  | tiebreakWitness => simp [Anchor, hseen]
  | tiebreakLowestID =>
    have hleast := isLeast_members hmembers
    simp only [decide_eq_true_eq, hseen, Anchor]
    constructor
    · exact fun hside => ⟨_, hside, hleast⟩
    · rintro ⟨a, hside, ha⟩
      rwa [hleast.unique ha]

theorem canLeadPrimary_iff (h : newQuorumDecider cfg = .ok d) : d.canLeadPrimary reachable = true ↔
      cfg.localID ∈ reachable ∧ Primary cfg (sideOf cfg reachable) := by
  obtain ⟨hlocal, _, _, hmembers⟩ := of_newQuorumDecider h
  have hnone : (⟨∅, false, 0⟩ : Reached).count = (⟨∅, false, 0⟩ : Reached).seen.len := rfl
  obtain ⟨hseen, hself, hcount⟩ := foldl_reach d reachable hnone
  have hside : ∀ m, m ∈ (reachable.foldl d.reach ⟨∅, false, 0⟩).seen ↔
      m ∈ sideOf cfg reachable := by
    intro m
    rw [hseen, mem_sideOf, ← hmembers]
    simp [and_comm]
  have hcard : (reachable.foldl d.reach ⟨∅, false, 0⟩).count = (sideOf cfg reachable).card := by
    rw [hcount, GoMap.len, ← toFinset_card_of_nodup (AList.keys_nodup _)]
    congr 1
    ext m
    rw [mem_toFinset, ← AList.mem_keys, hside]
  have hlength := length_members hmembers
  have hwins := tiebreakWins_iff h hside
  rw [hlocal] at hself
  unfold QuorumDecider.canLeadPrimary QuorumDecider.decide QuorumDecider.quorum Primary
  dsimp only
  rw [hcard, hlength]
  by_cases hlocalR : cfg.localID ∈ reachable
  · rw [if_neg (by simp [hself, hlocalR]), and_iff_right hlocalR]
    split_ifs with hmajority htie hwin
    · exact iff_of_true rfl (.inl (by omega))
    · exact iff_of_true rfl (.inr ⟨by omega, hwins.mp hwin⟩)
    · exact iff_of_false not_false fun hprimary =>
        hprimary.elim (by omega) fun htied => hwin (hwins.mpr htied.2)
    · exact iff_of_false not_false (by omega)
  · rw [if_pos (by simp [hself, hlocalR])]
    exact iff_of_false Bool.false_ne_true fun hleads => hlocalR hleads.1

/-! ## At most one primary side -/

theorem Primary.exists_mem {left right : Finset Str} (hleft : Primary cfg left)
    (hright : Primary cfg right) (hleftSub : left ⊆ cfg.members.toFinset)
    (hrightSub : right ⊆ cfg.members.toFinset) : ∃ m ∈ left, m ∈ right := by
  by_contra hnone
  have hdisjoint : Disjoint left right := Finset.disjoint_left.mpr fun m hl hr => hnone ⟨m, hl, hr⟩
  have hcard : left.card + right.card ≤ cfg.members.toFinset.card := by
    rw [← Finset.card_union_of_disjoint hdisjoint]
    exact Finset.card_le_card (Finset.union_subset hleftSub hrightSub)
  rcases hleft with hleft | ⟨hleft, a, ha, hanchor⟩
  · rcases hright with hright | ⟨hright, _⟩ <;> omega
  rcases hright with hright | ⟨hright, b, hb, hanchor'⟩
  · omega
  -- Both sides are half of the cluster, and there is one anchor.
  have heq : a = b := by
    revert hanchor hanchor'
    cases cfg.tiebreak with
    | tiebreakNone => exact fun hfalse _ => hfalse.elim
    | tiebreakLowestID => exact fun hleast hleast' => hleast.unique hleast'
    | tiebreakWitness => exact fun hwitness hwitness' => hwitness.trans hwitness'.symm
  exact hnone ⟨a, ha, heq ▸ hb⟩

/-- The members of the group with the given label. -/
def group {ι : Type} [DecidableEq ι] (members : List Str) (label : Str → ι) (g : ι) :
    Finset Str :=
  members.toFinset.filter fun m => label m = g

/-- **At most one side is the primary**, and one is if a group is a majority or half of the cluster
with the anchor. -/
theorem one_primary_side {ι : Type} [DecidableEq ι] (members : List Str)
    (tiebreak : TiebreakMode) (witness : Str) (label : Str → ι)
    (reachable : Str → List Str)
    (hconfig : ∀ m ∈ members, (newQuorumDecider ⟨m, members, tiebreak, witness⟩).isOk = true)
    (hreachable : ∀ m ∈ members, ∀ other ∈ members, other ∈ reachable m ↔ label other = label m) :
    (∀ a ∈ members, ∀ b ∈ members, label a = label b →
      verdict ⟨a, members, tiebreak, witness⟩ (reachable a) =
        verdict ⟨b, members, tiebreak, witness⟩ (reachable b)) ∧
    (∀ a ∈ members, ∀ b ∈ members, verdict ⟨a, members, tiebreak, witness⟩ (reachable a) = true →
        verdict ⟨b, members, tiebreak, witness⟩ (reachable b) = true → label a = label b) ∧
    (((∃ g, members.toFinset.card < 2 * (group members label g).card) ∨
        ∃ a ∈ members, Anchor members witness tiebreak a ∧
          2 * (group members label (label a)).card = members.toFinset.card) →
      ∃! g, ∃ m ∈ members, label m = g ∧
        verdict ⟨m, members, tiebreak, witness⟩ (reachable m) = true) := by
  have hverdict : ∀ m ∈ members, verdict ⟨m, members, tiebreak, witness⟩ (reachable m) = true ↔
        Primary ⟨[], members, tiebreak, witness⟩ (group members label (label m)) := by
    intro m hm
    have hself : m ∈ reachable m := (hreachable m hm m hm).mpr rfl
    have hgroup : sideOf ⟨m, members, tiebreak, witness⟩ (reachable m) =
        group members label (label m) := by
      ext other
      rw [mem_sideOf, group, Finset.mem_filter, mem_toFinset]
      exact and_congr_right fun hother => hreachable m hm other hother
    have hok := hconfig m hm
    unfold verdict
    cases hd : newQuorumDecider ⟨m, members, tiebreak, witness⟩ with
    | error err =>
      rw [hd] at hok
      cases hok
    | ok d =>
      refine (canLeadPrimary_iff hd).trans ((and_iff_right hself).trans ?_)
      rw [hgroup]
      rfl
  have hsub : ∀ g, group members label g ⊆ members.toFinset := fun g => Finset.filter_subset _ _
  have hone : ∀ a ∈ members, ∀ b ∈ members,
      verdict ⟨a, members, tiebreak, witness⟩ (reachable a) = true →
        verdict ⟨b, members, tiebreak, witness⟩ (reachable b) = true → label a = label b := by
    intro a ha b hb hleadsA hleadsB
    obtain ⟨m, hmA, hmB⟩ := ((hverdict a ha).mp hleadsA).exists_mem ((hverdict b hb).mp hleadsB)
      (hsub _) (hsub _)
    exact (Finset.mem_filter.mp hmA).2.symm.trans (Finset.mem_filter.mp hmB).2
  refine ⟨fun a ha b hb hlabel => ?_, hone, fun hprimary => ?_⟩
  · rw [Bool.eq_iff_iff, hverdict a ha, hverdict b hb, hlabel]
  -- In both cases some group is a primary side, and it has a member.
  obtain ⟨m, hm, hleads⟩ : ∃ m ∈ members,
      verdict ⟨m, members, tiebreak, witness⟩ (reachable m) = true := by
    rcases hprimary with ⟨g, hmajority⟩ | ⟨a, hmember, hanchor, hhalf⟩
    · obtain ⟨m, hm⟩ := Finset.card_pos.mp (by omega : 0 < (group members label g).card)
      obtain ⟨hmember, rfl⟩ := Finset.mem_filter.mp hm
      have hmember := mem_toFinset.mp hmember
      exact ⟨m, hmember, (hverdict m hmember).mpr (.inl hmajority)⟩
    · refine ⟨a, hmember, (hverdict a hmember).mpr (.inr ⟨hhalf, a, ?_, hanchor⟩)⟩
      exact Finset.mem_filter.mpr ⟨mem_toFinset.mpr hmember, rfl⟩
  refine ⟨label m, ⟨m, hm, rfl, hleads⟩, ?_⟩
  rintro g ⟨other, hother, rfl, hleadsOther⟩
  exact hone other hother m hm hleadsOther hleads

/-- `a` and `b` fall apart, `b` with a stranger and twice. The side of the lowest ID leads. -/
theorem lowest_of_two_leads :
    let members : List Str := [[98], [97], [98]]
    let reachable : Str → List Str := fun m =>
      if m = [98] then [[98], [120], [98]] else [[97]]
    verdict ⟨[97], members, .tiebreakLowestID, []⟩ (reachable [97]) = true ∧
      ∃! g, ∃ m ∈ members, m = g ∧
        verdict ⟨m, members, .tiebreakLowestID, []⟩ (reachable m) = true := by
  intro members reachable
  refine ⟨by decide, (one_primary_side members .tiebreakLowestID [] id reachable
    (by decide) (by decide)).2.2 (.inr ⟨[97], by decide, ⟨by decide, ?_⟩, by decide⟩)⟩
  have hlowest : ∀ m ∈ members, [97] ≤ m := by decide
  exact fun m hm => hlowest m hm

end HelixCluster.Voting
