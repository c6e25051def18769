import HelixCluster.Mvcc.Btree

/-!
# The B-tree as an ordered list

The abstract view of a node is `inorder`, the list of its entries from left to right.
-/

namespace HelixCluster.Mvcc

open List

variable {α : Type}

/-- Strictly ascending keys. -/
def Sorted (entries : List (Entry α)) : Prop := entries.Pairwise fun a b => a.key < b.key

/-- The in-order list of an inner node from its entries and the lists of its children. -/
def weave : List (Entry α) → List (List (Entry α)) → List (Entry α)
  | _, [] => []
  | [], list :: _ => list
  | e :: entries, list :: lists => list ++ e :: weave entries lists

/-- The part of `weave` up to the last of the entries given. -/
def weaveBefore : List (Entry α) → List (List (Entry α)) → List (Entry α)
  | e :: entries, list :: lists => list ++ e :: weaveBefore entries lists
  | _, _ => []

/-- The part of `weave` from the first of the entries given on. -/
def weaveAfter : List (Entry α) → List (List (Entry α)) → List (Entry α)
  | e :: entries, list :: lists => e :: list ++ weaveAfter entries lists
  | _, _ => []

namespace Node

mutual
/-- The entries of the subtree from left to right. -/
def inorder : Node α → List (Entry α)
  | .mk leaf entries children => if leaf then entries else weave entries (inorderChildren children)

/-- The in-order lists of the children. -/
def inorderChildren : List (Node α) → List (List (Entry α))
  | [] => []
  | child :: rest => inorder child :: inorderChildren rest
end

variable (children : List (Node α))

theorem inorderChildren_eq_map : inorderChildren children = children.map inorder := by
  induction children with
  | nil => rfl
  | cons child rest ih => rw [inorderChildren, ih, map_cons]

@[simp] theorem inorder_leaf (entries : List (Entry α)) (children : List (Node α)) :
    (Node.mk true entries children).inorder = entries := rfl

@[simp] theorem inorder_inner (entries : List (Entry α)) (children : List (Node α)) :
    (Node.mk false entries children).inorder = weave entries (children.map inorder) := by
  rw [← inorderChildren_eq_map]
  rfl

theorem getChild_eq (key : Str) (children : List (Node α)) (idx : Nat) :
    getChild key children idx = children[idx]?.bind (get key) := by
  induction children generalizing idx with
  | nil => rfl
  | cons child rest ih =>
    cases idx with
    | zero => rfl
    | succ idx => rw [getChild, ih, List.getElem?_cons_succ]

theorem height_child_lt {children : List (Node α)} {child : Node α} (h : child ∈ children)
    (leaf : Bool) (entries : List (Entry α)) :
    child.height < (Node.mk leaf entries children).height := by
  have hle : child.height ≤ heightChildren children := by
    induction children with
    | nil => simp at h
    | cons first rest ih =>
      rw [heightChildren]
      rcases mem_cons.mp h with rfl | h
      · exact Nat.le_max_left _ _
      · exact Nat.le_trans (ih h) (Nat.le_max_right _ _)
  rw [height]
  omega

end Node

/-! ## Taking an inner node apart -/

theorem weave_nil_left (entries : List (Entry α)) (list : List (Entry α))
    (lists : List (List (Entry α))) (hlength : lists.length = entries.length) :
    weave entries (list :: lists) = list ++ weaveAfter entries lists := by
  induction entries generalizing list lists with
  | nil => simp [weave, weaveAfter]
  | cons e entries ih =>
    cases lists with
    | nil => simp at hlength
    | cons next lists =>
      rw [weave, ih next lists (by simpa using hlength), weaveAfter]
      simp

variable {left right : List (Entry α)} {before after : List (List (Entry α))}

theorem weave_split (list : List (Entry α)) (hleft : before.length = left.length)
    (hright : after.length = right.length) : weave (left ++ right) (before ++ list :: after) =
      weaveBefore left before ++ list ++ weaveAfter right after := by
  induction left generalizing before with
  | nil =>
    obtain rfl : before = [] := by simpa using hleft
    simpa [weaveBefore] using weave_nil_left right list after hright
  | cons e left ih =>
    cases before with
    | nil => simp at hleft
    | cons first before =>
      rw [cons_append, cons_append, weave, ih (by simpa using hleft), weaveBefore]
      simp

theorem weave_append (median : Entry α) (hleft : before.length = left.length + 1) :
    weave (left ++ median :: right) (before ++ after) =
      weave left before ++ median :: weave right after := by
  induction left generalizing before with
  | nil =>
    obtain ⟨list, rfl⟩ := length_eq_one_iff.mp hleft
    simp [weave]
  | cons e left ih =>
    cases before with
    | nil => simp at hleft
    | cons first before =>
      rw [cons_append, cons_append, weave, ih (by simpa using hleft), weave]
      simp

theorem mem_weaveAfter (hlength : after.length = right.length) {e : Entry α} (he : e ∈ right) :
    e ∈ weaveAfter right after := by
  induction right generalizing after with
  | nil => simp at he
  | cons first right ih =>
    cases after with
    | nil => simp at hlength
    | cons list after =>
      rw [weaveAfter]
      rcases mem_cons.mp he with rfl | he
      · simp
      · simp [ih (by simpa using hlength) he]

variable {key : Str}

theorem lt_of_mem_weaveBefore (hsorted : Sorted (weaveBefore left before))
    (hleft : ∀ e ∈ left, e.key < key) : ∀ e ∈ weaveBefore left before, e.key < key := by
  induction left generalizing before with
  | nil => simp [weaveBefore]
  | cons first left ih =>
    cases before with
    | nil => simp [weaveBefore]
    | cons list before =>
      rw [weaveBefore] at hsorted ⊢
      obtain ⟨-, htail, hlist⟩ := pairwise_append.mp hsorted
      have hfirst : first.key < key := hleft first (by simp)
      intro e he
      rcases mem_append.mp he with he | he
      · exact lt_trans (hlist e he first (by simp)) hfirst
      rcases mem_cons.mp he with rfl | he
      · exact hfirst
      · exact ih (pairwise_cons.mp htail).2 (fun x hx => hleft x (by simp [hx])) e he

theorem lt_of_mem_weaveAfter (hsorted : Sorted (weaveAfter right after))
    (hright : ∀ e ∈ right, key < e.key) : ∀ e ∈ weaveAfter right after, key < e.key := by
  induction right generalizing after with
  | nil => simp [weaveAfter]
  | cons first right ih =>
    cases after with
    | nil => simp [weaveAfter]
    | cons list after =>
      rw [weaveAfter] at hsorted ⊢
      obtain ⟨hhead, htail, -⟩ := pairwise_append.mp hsorted
      have hfirst : key < first.key := hright first (by simp)
      intro e he
      rcases mem_append.mp he with he | he
      · rcases mem_cons.mp he with rfl | he
        · exact hfirst
        · exact lt_trans hfirst ((pairwise_cons.mp hhead).1 e he)
      · exact ih htail (fun x hx => hright x (by simp [hx])) e he

/-! ## The shape invariant -/

/-- `node` is the root of a B-tree of minimum degree `t` with all leaves `h` levels below. -/
inductive Balanced (t : Nat) : Nat → Node α → Prop where
  | leaf (entries) : entries.length ≤ 2 * t - 1 → Balanced t 0 (.mk true entries [])
  | inner (h entries children) :
      children.length = entries.length + 1 → entries.length ≤ 2 * t - 1 →
      (∀ child ∈ children, Balanced t h child) →
      (∀ child ∈ children, t - 1 ≤ child.entries.length) →
      Balanced t (h + 1) (.mk false entries children)

variable {node : Node α}

theorem Balanced.entries_le {t h : Nat} (hbalanced : Balanced t h node) :
    node.entries.length ≤ 2 * t - 1 := by
  cases hbalanced with
  | leaf entries hmax => exact hmax
  | inner h entries children _ hmax => exact hmax

theorem Balanced.lt_height {t h : Nat} (hbalanced : Balanced t h node) : h < node.height := by
  induction hbalanced with
  | leaf => simp [Node.height]
  | inner h entries children hlength _ _ _ ih =>
    obtain ⟨child, hchild⟩ := exists_mem_of_length_pos (show 0 < children.length by omega)
    exact Nat.lt_of_le_of_lt (ih child hchild) (Node.height_child_lt hchild false entries)

/-! ## Searching a node -/

variable {entries : List (Entry α)}

theorem search_split (hsorted : Sorted entries) (key : Str) :
    ∃ left right, entries = left ++ right ∧ left.length = (search entries key).1 ∧
      (∀ e ∈ left, e.key < key) ∧
      (((search entries key).2 = true ∧ ∃ e rest, right = e :: rest ∧ e.key = key) ∨
        ((search entries key).2 = false ∧ ∀ e ∈ right, key < e.key)) := by
  have hmono : entries.Pairwise fun a b =>
      decide (b.key < key) = true → decide (a.key < key) = true :=
    hsorted.imp fun hab hb => decide_eq_true (lt_trans hab (of_decide_eq_true hb))
  obtain ⟨left, right, hsplit, hlength, hleft, hright⟩ := searchSlice_split hmono
  have hindex : entries[searchSlice entries fun e => decide (e.key < key)]? = right.head? := by
    rw [← hlength, hsplit, List.getElem?_append_right (Nat.le_refl _), Nat.sub_self,
      List.head?_eq_getElem?]
  simp only [search, hindex]
  refine ⟨left, right, hsplit, ?_, fun e he => of_decide_eq_true (hleft e he), ?_⟩
  · rw [hlength]
    cases right <;> rfl
  cases right with
  | nil => exact Or.inr ⟨rfl, by simp⟩
  | cons e rest =>
    by_cases hkey : e.key = key
    · exact Or.inl ⟨by simp [hkey], e, rest, rfl, hkey⟩
    refine Or.inr ⟨by simp [hkey], ?_⟩
    have hge := of_decide_eq_false (hright e (by simp))
    have hfirst : key < e.key := lt_of_le_of_ne (not_lt.mp hge) (Ne.symm hkey)
    intro x hx
    rcases mem_cons.mp hx with rfl | hx
    · exact hfirst
    · have hpair := (pairwise_append.mp (hsplit ▸ hsorted)).2.1
      exact lt_trans hfirst ((pairwise_cons.mp hpair).1 x hx)

theorem sorted_entries {lists : List (List (Entry α))} (hlength : lists.length = entries.length + 1)
    (hsorted : Sorted (weave entries lists)) : Sorted entries := by
  induction entries generalizing lists with
  | nil => exact List.Pairwise.nil
  | cons e entries ih =>
    cases lists with
    | nil => simp at hlength
    | cons list lists =>
      rw [weave] at hsorted
      have htail := (pairwise_append.mp hsorted).2.1
      obtain ⟨hfirst, hrest⟩ := pairwise_cons.mp htail
      have hlength : lists.length = entries.length + 1 := by simpa using hlength
      refine pairwise_cons.mpr ⟨fun x hx => hfirst x ?_, ih hlength hrest⟩
      cases lists with
      | nil => simp at hlength
      | cons next lists =>
        rw [weave_nil_left _ _ _ (by simpa using hlength)]
        exact mem_append_right _ (mem_weaveAfter (by simpa using hlength) hx)

variable {children : List (Node α)}

theorem exists_child (hlength : children.length = entries.length + 1)
    (hsplit : entries = left ++ right) :
    ∃ before child after, children = before ++ child :: after ∧ before.length = left.length ∧
      after.length = right.length ∧ children[left.length]? = some child := by
  have hle : left.length < children.length := by
    rw [hlength, hsplit, length_append]
    omega
  refine ⟨children.take left.length, children[left.length], children.drop (left.length + 1),
    ?_, ?_, ?_, List.getElem?_eq_getElem hle⟩
  · simp
  · simp only [length_take]
    omega
  · simp only [length_drop, hlength, hsplit, length_append]
    omega

/-! ## Reading -/

/-- What an ordered list of entries holds for a key. -/
def lookupEntry (entries : List (Entry α)) (key : Str) : Option α :=
  (entries.find? fun e => e.key = key).map Entry.hist

theorem find_none_of_ne (h : ∀ e ∈ entries, e.key ≠ key) :
    (entries.find? fun e => e.key = key) = none := by
  rw [List.find?_eq_none]
  simpa using h

theorem Balanced.get_eq {t h : Nat} (hbalanced : Balanced t h node) (hsorted : Sorted node.inorder)
    (key : Str) : node.get key = some (lookupEntry node.inorder key) := by
  induction hbalanced with
  | leaf entries _ =>
    obtain ⟨left, right, hsplit, hlength, hleft, hright⟩ := search_split hsorted key
    have hnone := find_none_of_ne fun e he => (hleft e he).ne
    rw [Node.inorder_leaf] at *
    rcases hright with ⟨hfound, e, rest, rfl, hkey⟩ | ⟨hfound, hright⟩
    · simp only [Node.get, lookupEntry, hfound, if_true, ← hlength]
      rw [hsplit, List.find?_append, hnone]
      simp [hkey]
    have hnone' := find_none_of_ne fun e he => (hright e he).ne'
    simp only [Node.get, lookupEntry, hfound, Bool.false_eq_true, if_false, if_true]
    rw [hsplit, List.find?_append, hnone, hnone']
    rfl
  | inner h entries children hchildren hmax hbal hmin ih =>
    rw [Node.inorder_inner] at hsorted ⊢
    have hlists : (children.map Node.inorder).length = entries.length + 1 := by simpa
    obtain ⟨left, right, hsplit, hlength, hleft, hright⟩ :=
      search_split (sorted_entries hlists hsorted) key
    obtain ⟨before, child, after, rfl, hbefore, hafter, hchild⟩ := exists_child hchildren hsplit
    subst hsplit
    rw [map_append, map_cons,
      weave_split _ (by simpa using hbefore) (by simpa using hafter)] at hsorted ⊢
    obtain ⟨hfront, hback, hcross⟩ := pairwise_append.mp hsorted
    obtain ⟨hfirst, hmiddle, -⟩ := pairwise_append.mp hfront
    have hnone := find_none_of_ne fun e he => (lt_of_mem_weaveBefore hfirst hleft e he).ne
    rcases hright with ⟨hfound, e, rest, rfl, hkey⟩ | ⟨hfound, hright⟩
    · -- the key is a separator, so it is not in the child before it
      have hmem : e ∈ weaveAfter (e :: rest) (after.map Node.inorder) :=
        mem_weaveAfter (by simpa using hafter) (by simp)
      have hnone' := find_none_of_ne fun x hx =>
        (hkey ▸ hcross x (mem_append_right _ hx) e hmem : x.key < key).ne
      obtain ⟨next, tail, rfl⟩ := exists_cons_of_length_eq_add_one hafter
      rw [Node.get]
      simp only [hfound, if_true, ← hlength, lookupEntry]
      rw [append_assoc, List.find?_append, hnone, List.find?_append, hnone', map_cons, weaveAfter]
      simp [hkey]
    have hnone' := find_none_of_ne fun e he => (lt_of_mem_weaveAfter hback hright e he).ne'
    rw [Node.get]
    simp only [hfound, Bool.false_eq_true, if_false, Node.getChild_eq, ← hlength, hchild,
      Option.bind_some]
    rw [ih child (by simp) hmiddle]
    unfold lookupEntry
    rw [append_assoc, List.find?_append, hnone, List.find?_append, hnone']
    simp

/-- The key lies in the interval `[start, stop)`, where an empty `stop` is no bound. -/
def InInterval (start stop key : Str) : Prop := start ≤ key ∧ (stop = [] ∨ key < stop)

instance (start stop key : Str) : Decidable (InInterval start stop key) :=
  inferInstanceAs (Decidable (_ ∧ _))

/-- The keys of the entries in the interval, in the order of the list. -/
def keysIn (start stop : Str) (entries : List (Entry α)) : List Str :=
  (entries.filter fun e => InInterval start stop e.key).map Entry.key

theorem keysIn_append (start stop : Str) (left right : List (Entry α)) :
    keysIn start stop (left ++ right) = keysIn start stop left ++ keysIn start stop right := by
  simp [keysIn]

theorem keysIn_cons (start stop : Str) (e : Entry α) (entries : List (Entry α)) :
    keysIn start stop (e :: entries) =
      (if InInterval start stop e.key then [e.key] else []) ++ keysIn start stop entries := by
  unfold keysIn
  rw [filter_cons]
  split <;> simp_all

theorem rangeWalkChildren_eq {start stop : Str}
    (hlength : children.length = entries.length + 1) (hwalk : ∀ child ∈ children,
      child.rangeWalk start stop = some (keysIn start stop child.inorder)) :
    Node.rangeWalkChildren start stop entries children =
      some (keysIn start stop (weave entries (children.map Node.inorder))) := by
  induction entries generalizing children with
  | nil =>
    obtain ⟨child, rfl⟩ := length_eq_one_iff.mp hlength
    rw [Node.rangeWalkChildren, hwalk child (by simp)]
    rfl
  | cons e entries ih =>
    cases children with
    | nil => simp at hlength
    | cons child children =>
      rw [Node.rangeWalkChildren, hwalk child (by simp),
        ih (by simpa using hlength) fun c hc => hwalk c (by simp [hc]), map_cons, weave,
        keysIn_append, keysIn_cons]
      simp only [Option.bind_eq_bind, Option.bind_some, append_assoc]
      congr 3

theorem Balanced.rangeWalk_eq {t h : Nat} (hbalanced : Balanced t h node) (start stop : Str) :
    node.rangeWalk start stop = some (keysIn start stop node.inorder) := by
  induction hbalanced with
  | leaf entries _ =>
    rw [Node.rangeWalk, if_pos rfl, Node.inorder_leaf, keysIn]
    congr 2
    apply filter_congr
    intro e _
    have hstart : decide (e.key < start) = !decide (start ≤ e.key) := by
      rw [← decide_not, decide_eq_decide, not_le]
    have hend : decide (stop ≤ e.key) = !decide (e.key < stop) := by
      rw [← decide_not, decide_eq_decide, not_lt]
    by_cases hstop : stop = []
    · simp [InInterval, hstop, hstart]
    · simp [InInterval, hstop, hstart, hend]
  | inner h entries children hlength _ _ _ ih =>
    rw [Node.rangeWalk, if_neg (by simp), Node.inorder_inner]
    exact rangeWalkChildren_eq hlength ih

theorem historiesChildren_eq
    (hlength : children.length = entries.length + 1)
    (hwalk : ∀ child ∈ children, child.histories = some (child.inorder.map Entry.hist)) :
    Node.historiesChildren entries children =
      some ((weave entries (children.map Node.inorder)).map Entry.hist) := by
  induction entries generalizing children with
  | nil =>
    obtain ⟨child, rfl⟩ := length_eq_one_iff.mp hlength
    rw [Node.historiesChildren, hwalk child (by simp)]
    rfl
  | cons e entries ih =>
    cases children with
    | nil => simp at hlength
    | cons child children =>
      rw [Node.historiesChildren, hwalk child (by simp),
        ih (by simpa using hlength) fun c hc => hwalk c (by simp [hc]), map_cons, weave]
      simp

theorem Balanced.histories_eq {t h : Nat} (hbalanced : Balanced t h node) :
    node.histories = some (node.inorder.map Entry.hist) := by
  induction hbalanced with
  | leaf entries _ => rfl
  | inner h entries children hlength _ _ _ ih =>
    rw [Node.histories, if_neg (by simp), Node.inorder_inner]
    exact historiesChildren_eq hlength ih

end HelixCluster.Mvcc
