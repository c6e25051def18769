import HelixCluster.Mvcc.BtreeInvariant

/-!
# Insertion into the B-tree

`insertNonFull_inserts` is the induction over the levels.
-/

namespace HelixCluster.Mvcc

open List

variable {α : Type}

/-- An entry goes between the smaller and the larger keys, and nothing happens if its key is
present. -/
inductive Inserted (e : Entry α) : List (Entry α) → List (Entry α) → Prop where
  | present (list) : (∃ x ∈ list, x.key = e.key) → Inserted e list list
  | placed (left right) : (∀ x ∈ left, x.key < e.key) → (∀ x ∈ right, e.key < x.key) →
      Inserted e (left ++ right) (left ++ e :: right)

variable {e : Entry α} {list list' : List (Entry α)}

theorem Inserted.sorted (hinserted : Inserted e list list') (hsorted : Sorted list) :
    Sorted list' := by
  cases hinserted with
  | present => exact hsorted
  | placed left right hleft hright =>
    obtain ⟨hl, hr, hcross⟩ := pairwise_append.mp hsorted
    refine pairwise_append.mpr ⟨hl, pairwise_cons.mpr ⟨hright, hr⟩, ?_⟩
    intro a ha b hb
    rcases mem_cons.mp hb with rfl | hb
    · exact hleft a ha
    · exact hcross a ha b hb

theorem Inserted.context {before after : List (Entry α)} (hinserted : Inserted e list list')
    (hbefore : ∀ x ∈ before, x.key < e.key) (hafter : ∀ x ∈ after, e.key < x.key) :
    Inserted e (before ++ list ++ after) (before ++ list' ++ after) := by
  cases hinserted with
  | present _ hpresent =>
    obtain ⟨x, hx, hkey⟩ := hpresent
    exact .present _ ⟨x, by simp [hx], hkey⟩
  | placed left right hleft hright =>
    have hplaced := Inserted.placed (e := e) (before ++ left) (right ++ after)
      (fun x hx => (mem_append.mp hx).elim (hbefore x) (hleft x))
      (fun x hx => (mem_append.mp hx).elim (hright x) (hafter x))
    simpa using hplaced

theorem insertIdx_append_length {β : Type} (left right : List β) (x : β) :
    (left ++ right).insertIdx left.length x = left ++ x :: right := by
  induction left with
  | nil => simp
  | cons first left ih => simp [ih]

theorem set_append_length {β : Type} (left right : List β) (x y : β) :
    (left ++ x :: right).set left.length y = left ++ y :: right := by
  induction left with
  | nil => simp
  | cons first left ih => simp [ih]

/-! ## Splitting a full child -/

/-- The two halves of a full node and the median between them. -/
structure Halves (t h : Nat) (full lower upper : Node α) (median : Entry α) : Prop where
  lower_balanced : Balanced t h lower
  upper_balanced : Balanced t h upper
  lower_length : lower.entries.length = t - 1
  upper_length : upper.entries.length = t - 1
  inorder : full.inorder = lower.inorder ++ median :: upper.inorder

variable {entries : List (Entry α)}

variable {t : Nat}

theorem halves_leaf (ht : 2 ≤ t) (hfull : entries.length = 2 * t - 1)
    (hmid : t - 1 < entries.length) :
    Halves t 0 (.mk true entries []) (.mk true (entries.take (t - 1)) [])
      (.mk true (entries.drop (t - 1 + 1)) []) entries[t - 1] := by
  refine ⟨.leaf _ ?_, .leaf _ ?_, ?_, ?_, ?_⟩
  · simp only [length_take]
    omega
  · simp only [length_drop]
    omega
  · simp only [Node.entries_mk, length_take]
    omega
  · simp only [Node.entries_mk, length_drop]
    omega
  · simp

variable {h : Nat} {children : List (Node α)}

theorem halves_inner (ht : 2 ≤ t)
    (hbalanced : Balanced t (h + 1) (.mk false entries children))
    (hfull : entries.length = 2 * t - 1) (hmid : t - 1 < entries.length) :
    Halves t (h + 1) (.mk false entries children)
      (.mk false (entries.take (t - 1)) (children.take (t - 1 + 1)))
      (.mk false (entries.drop (t - 1 + 1)) (children.drop (t - 1 + 1))) entries[t - 1] := by
  cases hbalanced with
  | inner _ _ _ hlength hmax hbal hmin =>
    refine ⟨.inner h _ _ ?_ ?_ ?_ ?_, .inner h _ _ ?_ ?_ ?_ ?_, ?_, ?_, ?_⟩
    · simp only [length_take]
      omega
    · simp only [length_take]
      omega
    · exact fun child hchild => hbal child (mem_of_mem_take hchild)
    · exact fun child hchild => hmin child (mem_of_mem_take hchild)
    · simp only [length_drop]
      omega
    · simp only [length_drop]
      omega
    · exact fun child hchild => hbal child (mem_of_mem_drop hchild)
    · exact fun child hchild => hmin child (mem_of_mem_drop hchild)
    · simp only [Node.entries_mk, length_take]
      omega
    · simp only [Node.entries_mk, length_drop]
      omega
    · have hentries : entries.take (t - 1) ++ entries[t - 1] :: entries.drop (t - 1 + 1) =
          entries := by
        simp
      rw [Node.inorder_inner, Node.inorder_inner, Node.inorder_inner, ← weave_append, hentries,
        ← map_append, take_append_drop]
      simp only [length_map, length_take]
      omega

variable {left : List (Entry α)} {before : List (Node α)} {full : Node α}

theorem splitChild_eq (ht : 2 ≤ t) (hbefore : before.length = left.length)
    (hbalanced : Balanced t h full) (hfull : full.entries.length = 2 * t - 1) (leaf : Bool)
    (right : List (Entry α)) (after : List (Node α)) :
    ∃ lower upper median, Halves t h full lower upper median ∧
      (Node.mk leaf (left ++ right) (before ++ full :: after)).splitChild left.length t =
        some (.mk leaf (left ++ median :: right) (before ++ lower :: upper :: after)) := by
  have hmid : t - 1 < full.entries.length := by omega
  have hindex : (before ++ full :: after)[left.length]? = some full := by
    rw [← hbefore]
    simp
  have hchildren (lower upper : Node α) :
      ((before ++ full :: after).set left.length lower).insertIdx (left.length + 1) upper =
        before ++ lower :: upper :: after := by
    rw [← hbefore, set_append_length]
    have := insertIdx_append_length (before ++ [lower]) after upper
    simpa using this
  have hnode := hbalanced
  cases hbalanced with
  | leaf entries hmax =>
    refine ⟨_, _, _, halves_leaf ht hfull hmid, ?_⟩
    simp only [Node.entries_mk] at hmid
    simp [Node.splitChild, hindex, List.getElem?_eq_getElem hmid, insertIdx_append_length,
      hchildren]
  | inner h entries children hlength hmax hbal hmin =>
    refine ⟨_, _, _, halves_inner ht hnode hfull hmid, ?_⟩
    simp only [Node.entries_mk] at hmid
    simp [Node.splitChild, hindex, List.getElem?_eq_getElem hmid, insertIdx_append_length,
      hchildren]
    omega

/-! ## Descending -/

/-- What an insertion into a node of height `h` has to deliver. -/
structure Inserts (t h : Nat) (e : Entry α) (node node' : Node α) : Prop where
  balanced : Balanced t h node'
  entries_le : node.entries.length ≤ node'.entries.length
  inorder : Inserted e node.inorder node'.inorder

/-- The insertion does what it has to on the nodes of height `h` that are not full. -/
def WorksAt (t h : Nat) (e : Entry α) (insert : Node α → Option (Node α)) : Prop :=
  ∀ node, Balanced t h node → node.entries.length < 2 * t - 1 → Sorted node.inorder →
    ∃ node', insert node = some node' ∧ Inserts t h e node node'

variable {right : List (Entry α)} {after : List (Node α)} {child : Node α}

theorem sorted_child (hbefore : before.length = left.length)
    (hafter : after.length = right.length)
    (hsorted : Sorted (Node.mk false (left ++ right) (before ++ child :: after)).inorder) :
    Sorted child.inorder := by
  rw [Node.inorder_inner, map_append, map_cons,
    weave_split _ (by simpa using hbefore) (by simpa using hafter)] at hsorted
  exact (pairwise_append.mp (pairwise_append.mp hsorted).1).2.1

theorem mem_inorder_separator {rest : List (Entry α)} (x : Entry α) (child : Node α)
    (hbefore : before.length = left.length) (hafter : after.length = (x :: rest).length) :
    x ∈ (Node.mk false (left ++ x :: rest) (before ++ child :: after)).inorder := by
  rw [Node.inorder_inner, map_append, map_cons,
    weave_split _ (by simpa using hbefore) (by simpa using hafter)]
  exact mem_append_right _ (mem_weaveAfter (by simpa using hafter) (by simp))

variable {insert : Node α → Option (Node α)}

theorem descend_inserts (hworks : WorksAt t h e insert)
    (hbalanced : Balanced t (h + 1) (.mk false (left ++ right) (before ++ child :: after)))
    (hsorted : Sorted (Node.mk false (left ++ right) (before ++ child :: after)).inorder)
    (hbefore : before.length = left.length) (hleft : ∀ x ∈ left, x.key < e.key)
    (hright : ∀ x ∈ right, e.key < x.key) (hroom : child.entries.length < 2 * t - 1) :
    ∃ node', Node.descend insert (.mk false (left ++ right) (before ++ child :: after))
        left.length = some node' ∧
      Inserts t (h + 1) e (.mk false (left ++ right) (before ++ child :: after)) node' := by
  cases hbalanced with
  | inner _ _ _ hlength hmax hbal hmin =>
    have hafter : after.length = right.length := by
      simp only [length_append, length_cons] at hlength
      omega
    obtain ⟨child', hinsert, hchild⟩ := hworks child (hbal child (by simp)) hroom
      (sorted_child hbefore hafter hsorted)
    have hmem {c : Node α} (hc : c ∈ before ++ child' :: after) :
        c ∈ before ++ child :: after ∨ c = child' := by
      simp only [mem_append, mem_cons] at hc ⊢
      tauto
    refine ⟨.mk false (left ++ right) (before ++ child' :: after), ?_, ?_, Nat.le_refl _, ?_⟩
    · simp [Node.descend, ← hbefore, hinsert]
    · refine .inner h _ _ (by simpa using hlength) hmax ?_ ?_
      · intro c hc
        rcases hmem hc with hc | rfl
        · exact hbal c hc
        · exact hchild.balanced
      · intro c hc
        rcases hmem hc with hc | rfl
        · exact hmin c hc
        · exact Nat.le_trans (hmin child (by simp)) hchild.entries_le
    have hsplit (list : List (Entry α)) :
        weave (left ++ right) (before.map Node.inorder ++ list :: after.map Node.inorder) = _ :=
      weave_split list (by simpa using hbefore) (by simpa using hafter)
    simp only [Node.inorder_inner, map_append, map_cons, hsplit] at hsorted ⊢
    obtain ⟨hfront, hback, -⟩ := pairwise_append.mp hsorted
    exact hchild.inorder.context
      (lt_of_mem_weaveBefore (pairwise_append.mp hfront).1 hleft)
      (lt_of_mem_weaveAfter hback hright)

variable {lower upper : Node α} {median : Entry α}

theorem balanced_split
    (hbalanced : Balanced t (h + 1) (.mk false (left ++ right) (before ++ full :: after)))
    (hroom : (left ++ right).length < 2 * t - 1) (hbefore : before.length = left.length)
    (hhalves : Halves t h full lower upper median) : Balanced t (h + 1)
        (.mk false (left ++ median :: right) (before ++ lower :: upper :: after)) ∧
      (Node.mk false (left ++ median :: right) (before ++ lower :: upper :: after)).inorder =
        (Node.mk false (left ++ right) (before ++ full :: after)).inorder := by
  cases hbalanced with
  | inner _ _ _ hlength hmax hbal hmin =>
    have hafter : after.length = right.length := by
      simp only [length_append, length_cons] at hlength
      omega
    have hmem {c : Node α} (hc : c ∈ before ++ lower :: upper :: after) :
        c ∈ before ++ full :: after ∨ c = lower ∨ c = upper := by
      simp only [mem_append, mem_cons] at hc ⊢
      tauto
    refine ⟨.inner h _ _ ?_ ?_ ?_ ?_, ?_⟩
    · simp only [length_append, length_cons] at hlength ⊢
      omega
    · simp only [length_append, length_cons] at hroom ⊢
      omega
    · intro c hc
      rcases hmem hc with hc | rfl | rfl
      · exact hbal c hc
      · exact hhalves.lower_balanced
      · exact hhalves.upper_balanced
    · intro c hc
      rcases hmem hc with hc | rfl | rfl
      · exact hmin c hc
      · exact hhalves.lower_length.ge
      · exact hhalves.upper_length.ge
    simp only [Node.inorder_inner, map_append, map_cons]
    rw [weave_split _ (by simpa using hbefore) (by simpa using hafter),
      weave_split _ (by simpa using hbefore) (by simpa using hafter), hhalves.inorder,
      weaveAfter]
    simp

theorem split_inserts (ht : 2 ≤ t) (hworks : WorksAt t h e insert)
    (hhalves : Halves t h full lower upper median) {node : Node α}
    (hnode : node = .mk false (left ++ median :: right) (before ++ lower :: upper :: after))
    (hbalanced : Balanced t (h + 1) node) (hsorted : Sorted node.inorder)
    (hbefore : before.length = left.length) (hafter : after.length = right.length)
    (hleft : ∀ x ∈ left, x.key < e.key) (hright : ∀ x ∈ right, e.key < x.key) :
    ∃ node', (if e.key > median.key then node.descend insert (left.length + 1)
        else if e.key = median.key then some node
        else node.descend insert left.length) = some node' ∧ Inserts t (h + 1) e node node' := by
  split
  · next habove =>
    have hshape : node = .mk false ((left ++ [median]) ++ right)
        ((before ++ [lower]) ++ upper :: after) := by simp [hnode]
    have hidx : left.length + 1 = (left ++ [median]).length := by simp
    rw [hshape] at hbalanced hsorted ⊢
    rw [hidx]
    refine descend_inserts hworks hbalanced hsorted (by simpa using hbefore) ?_ hright ?_
    · intro x hx
      rcases mem_append.mp hx with hx | hx
      · exact hleft x hx
      · obtain rfl := mem_singleton.mp hx
        exact habove
    · rw [hhalves.upper_length]
      omega
  · next habove =>
    subst hnode
    split
    · next hequal =>
      have hmem : median ∈ (Node.mk false (left ++ median :: right)
          (before ++ lower :: upper :: after)).inorder :=
        mem_inorder_separator median lower hbefore (by simpa using hafter)
      exact ⟨_, rfl, hbalanced, Nat.le_refl _, .present _ ⟨median, hmem, hequal.symm⟩⟩
    · next hequal =>
      have hbelow : e.key < median.key := lt_of_le_of_ne (not_lt.mp habove) hequal
      refine descend_inserts hworks hbalanced hsorted hbefore hleft ?_ ?_
      · simpa using ⟨hbelow, hright⟩
      · rw [hhalves.lower_length]
        omega

theorem leaf_inserts (e : Entry α) (hroom : entries.length < 2 * t - 1) (hsorted : Sorted entries)
    (levels : Nat) :
    ∃ node', (Node.mk true entries []).insertNonFull t e.key e.hist (levels + 1) = some node' ∧
      Inserts t 0 e (.mk true entries []) node' := by
  obtain ⟨left, right, hsplit, hlength, hleft, hright⟩ := search_split hsorted e.key
  rcases hright with ⟨hfound, x, rest, rfl, hkey⟩ | ⟨hfound, hright⟩
  · exact ⟨.mk true entries [], by simp [Node.insertNonFull, hfound], .leaf _ (by omega),
      Nat.le_refl _, .present _ ⟨x, by simp [hsplit], hkey⟩⟩
  refine ⟨.mk true (left ++ e :: right) [], ?_, .leaf _ ?_, ?_, ?_⟩
  · simp only [Node.insertNonFull, Node.entries_mk, hfound, Node.leaf_mk, ← hlength]
    simp [hsplit, insertIdx_append_length]
  · simp only [hsplit, length_append, length_cons] at hroom ⊢
    omega
  · simp only [hsplit, Node.entries_mk, length_append, length_cons]
    omega
  · simpa [hsplit] using Inserted.placed left right hleft hright

theorem inner_inserts {levels : Nat} (ht : 2 ≤ t)
    (hworks : WorksAt t h e (Node.insertNonFull t e.key e.hist levels))
    (hbalanced : Balanced t (h + 1) (.mk false entries children))
    (hroom : entries.length < 2 * t - 1) (hsorted : Sorted (Node.mk false entries children).inorder) :
    ∃ node', (Node.mk false entries children).insertNonFull t e.key e.hist (levels + 1) =
        some node' ∧ Inserts t (h + 1) e (.mk false entries children) node' := by
  have hnode := hbalanced
  cases hbalanced with
  | inner _ _ _ hchildren hmax hbal hmin =>
    have hlists : (children.map Node.inorder).length = entries.length + 1 := by simpa
    have hentries := sorted_entries hlists (by simpa using hsorted)
    obtain ⟨left, right, hsplit, hlength, hleft, hright⟩ := search_split hentries e.key
    obtain ⟨before, child, after, rfl, hbefore, hafter, hchild⟩ := exists_child hchildren hsplit
    subst hsplit
    simp only [Node.insertNonFull, Node.entries_mk, Node.leaf_mk, Node.children_mk]
    rcases hright with ⟨hfound, x, rest, rfl, hkey⟩ | ⟨hfound, hright⟩
    · have hx := mem_inorder_separator x child hbefore hafter
      exact ⟨_, by simp [hfound], hnode, Nat.le_refl _, .present _ ⟨x, hx, hkey⟩⟩
    simp only [hfound, Bool.false_eq_true, if_false, ← hlength, hchild, Option.bind_eq_bind,
      Option.bind_some]
    have hchildBalanced := hbal child (by simp)
    split_ifs with hfull
    · obtain ⟨lower, upper, median, hhalves, hsplitChild⟩ :=
        splitChild_eq ht hbefore hchildBalanced hfull false right after
      obtain ⟨hnode', hinorder⟩ := balanced_split hnode hroom hbefore hhalves
      have hmedian : (left ++ median :: right)[left.length]? = some median := by simp
      simp only [hsplitChild, Option.bind_some, Node.entries_mk, hmedian]
      obtain ⟨node', hresult, hinserts⟩ := split_inserts ht hworks hhalves rfl hnode'
        (hinorder ▸ hsorted) hbefore hafter hleft hright
      refine ⟨node', hresult, hinserts.balanced, ?_, hinorder ▸ hinserts.inorder⟩
      exact Nat.le_trans (by simp) hinserts.entries_le
    · exact descend_inserts hworks hnode hsorted hbefore hleft hright
        (Nat.lt_of_le_of_ne hchildBalanced.entries_le hfull)

theorem insertNonFull_inserts (ht : 2 ≤ t) (e : Entry α) {levels : Nat} (hlevels : h < levels) :
    WorksAt t h e (Node.insertNonFull t e.key e.hist levels) := by
  induction h generalizing levels with
  | zero =>
    obtain ⟨levels, rfl⟩ := Nat.exists_eq_add_one_of_ne_zero (by omega : levels ≠ 0)
    intro node hbalanced hroom hsorted
    cases hbalanced with
    | leaf entries _ => exact leaf_inserts e hroom (by simpa using hsorted) levels
  | succ h ih =>
    obtain ⟨levels, rfl⟩ := Nat.exists_eq_add_one_of_ne_zero (by omega : levels ≠ 0)
    intro node hbalanced hroom hsorted
    have hnode := hbalanced
    cases hbalanced with
    | inner => exact inner_inserts ht (ih (Nat.lt_of_succ_lt_succ hlevels)) hnode hroom hsorted

/-! ## The whole tree -/

/-- A degree of at least two, a balanced root, and strictly ascending keys. -/
structure Btree.Valid (tree : Btree α) : Prop where
  degree : 2 ≤ tree.degree
  balanced : ∃ h, Balanced tree.degree h tree.root
  sorted : Sorted tree.root.inorder

theorem newBtree_valid (degree : Int) : (newBtree degree : Btree α).Valid where
  degree := by
    simp only [newBtree]
    split <;> omega
  balanced := ⟨0, .leaf _ (by simp)⟩
  sorted := List.Pairwise.nil

theorem Halves.balanced_root (ht : 2 ≤ t) (hhalves : Halves t h full lower upper median) :
    Balanced t (h + 1) (.mk false [median] [lower, upper]) := by
  refine .inner h _ _ rfl (by simp; omega) ?_ ?_
  · simpa using ⟨hhalves.lower_balanced, hhalves.upper_balanced⟩
  intro child hchild
  rcases mem_pair.mp hchild with rfl | rfl
  · exact hhalves.lower_length.ge
  · exact hhalves.upper_length.ge

theorem Btree.Valid.insert_spec {tree : Btree α} (hvalid : tree.Valid) (key : Str) (hist : α) :
    ∃ tree', tree.insert key hist = some tree' ∧ tree'.Valid ∧
      Inserted ⟨key, hist⟩ tree.root.inorder tree'.root.inorder := by
  obtain ⟨ht, ⟨h, hbalanced⟩, hsorted⟩ := hvalid
  -- a root that is not full, with the in-order list of the old root
  obtain ⟨root, h', hroot, hbalanced', hroom, hinorder⟩ : ∃ root h',
      (if tree.root.entries.length = 2 * tree.degree - 1 then
        (Node.mk false [] [tree.root]).splitChild 0 tree.degree
      else some tree.root) = some root ∧ Balanced tree.degree h' root ∧
      root.entries.length < 2 * tree.degree - 1 ∧ root.inorder = tree.root.inorder := by
    split_ifs with hfull
    · obtain ⟨lower, upper, median, hhalves, hsplitChild⟩ :=
        splitChild_eq ht (length_nil.trans length_nil.symm) hbalanced hfull false [] []
      exact ⟨_, h + 1, hsplitChild, hhalves.balanced_root ht, by simp; omega,
        by simp [hhalves.inorder, weave]⟩
    · exact ⟨_, h, rfl, hbalanced, Nat.lt_of_le_of_ne hbalanced.entries_le hfull, rfl⟩
  rw [← hinorder] at hsorted ⊢
  obtain ⟨root', hinsert, hinserts⟩ :=
    insertNonFull_inserts ht ⟨key, hist⟩ hbalanced'.lt_height _ hbalanced' hroom hsorted
  refine ⟨{ tree with root := root' }, ?_,
    ⟨ht, ⟨h', hinserts.balanced⟩, hinserts.inorder.sorted hsorted⟩, hinserts.inorder⟩
  unfold Btree.insert
  split_ifs at hroot with hfull
  · simp [hfull, hroot, hinsert]
  · cases hroot
    simp [hfull, hinsert]

/-! ## Lookups in an ordered list -/

theorem lookupEntry_eq_some (hsorted : Sorted entries) {key : Str} {hist : α} :
    lookupEntry entries key = some hist ↔ ⟨key, hist⟩ ∈ entries := by
  constructor
  · intro hlookup
    obtain ⟨e, hfind, rfl⟩ := Option.map_eq_some_iff.mp hlookup
    have hkey : e.key = key := by simpa using List.find?_some hfind
    exact hkey ▸ mem_of_find?_eq_some hfind
  intro hmem
  induction entries with
  | nil => simp at hmem
  | cons first rest ih =>
    obtain ⟨hfirst, hrest⟩ := pairwise_cons.mp hsorted
    rw [lookupEntry, List.find?_cons]
    rcases mem_cons.mp hmem with rfl | hmem
    · simp
    have hne : first.key ≠ key := (hfirst _ hmem).ne
    have hlookup := ih hrest hmem
    rw [lookupEntry] at hlookup
    simpa [hne] using hlookup

theorem lookupEntry_eq_none {key : Str} :
    lookupEntry entries key = none ↔ ∀ e ∈ entries, e.key ≠ key := by
  simp [lookupEntry]

theorem Inserted.perm (hinserted : Inserted e list list') (habsent : ∀ x ∈ list, x.key ≠ e.key) :
    list'.Perm (e :: list) := by
  cases hinserted with
  | present _ hpresent =>
    obtain ⟨y, hy, hkey⟩ := hpresent
    exact absurd hkey (habsent y hy)
  | placed left right => exact perm_middle

end HelixCluster.Mvcc
