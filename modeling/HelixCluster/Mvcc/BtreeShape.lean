import HelixCluster.Mvcc.BtreeInsert

/-!
# The shape of the B-tree

What `Btree.Valid` says of the nodes of a tree, one by one: the order of the entries, the bounds on
their number, the number of the children, the range of the keys below each child, and the depth of
the leaves (`Shape`).
-/

namespace HelixCluster.Mvcc

open List

variable {α : Type}

namespace Node

/-- The nodes of a subtree, with their depths in it. -/
inductive At : Node α → ℕ → Node α → Prop
  | here (node : Node α) : At node 0 node
  | down {node child below : Node α} {d : ℕ} (hchild : child ∈ node.children) (hbelow : At child d below) :
      At node (d + 1) below

/-- The entry is in some node of the subtree. -/
def Holds (node : Node α) (e : Entry α) : Prop := ∃ d below, At node d below ∧ e ∈ below.entries

end Node

/-- The shape of a B-tree of minimum degree `t`. -/
structure Shape (t : ℕ) (root : Node α) : Prop where
  ascending : ∀ d node, root.At d node → Sorted node.entries
  size : ∀ d node, root.At (d + 1) node → t - 1 ≤ node.entries.length ∧ node.entries.length ≤ 2 * t - 1
  children : ∀ d node, root.At d node → node.leaf = false → node.children.length = node.entries.length + 1
  leaves : ∀ d node, root.At d node → node.leaf = true → node.children = []
  between : ∀ d node, root.At d node → ∀ i child, node.children[i]? = some child → ∀ e, child.Holds e →
    (∀ j separator, j + 1 = i → node.entries[j]? = some separator → separator.key < e.key) ∧
      ∀ separator, node.entries[i]? = some separator → e.key < separator.key
  depth : ∃ h, ∀ d node, root.At d node → node.leaf = true → d = h

/-! ### From the in-order list -/

variable {entries : List (Entry α)} {children : List (Node α)}

variable {child : Node α}

theorem weave_child (hlength : children.length = entries.length + 1) {i : ℕ}
    (hchild : children[i]? = some child) :
    ∃ before after, weave entries (children.map Node.inorder) =
        weaveBefore (entries.take i) before ++ child.inorder ++ weaveAfter (entries.drop i) after ∧
      before.length = (entries.take i).length ∧ after.length = (entries.drop i).length := by
  have hi : i < children.length := (List.getElem?_eq_some_iff.mp hchild).1
  have htake : (entries.take i).length = i := by
    rw [length_take]
    omega
  obtain ⟨before, child', after, hsplit, hbefore, hafter, hget⟩ :=
    exists_child hlength (take_append_drop i entries).symm
  rw [htake, hchild] at hget
  cases hget
  refine ⟨before.map Node.inorder, after.map Node.inorder, ?_, ?_, ?_⟩
  · rw [hsplit, map_append, map_cons]
    conv_lhs => rw [← take_append_drop i entries]
    exact weave_split _ (by rw [length_map, hbefore]) (by rw [length_map, hafter])
  · rw [length_map, hbefore]
  · rw [length_map, hafter]

theorem mem_weaveBefore {left : List (Entry α)} {before : List (List (Entry α))}
    (hlength : before.length = left.length) {e : Entry α} (he : e ∈ left) : e ∈ weaveBefore left before := by
  induction left generalizing before with
  | nil => simp at he
  | cons first left ih =>
    cases before with
    | nil => simp at hlength
    | cons list before =>
      rw [weaveBefore, mem_append, mem_cons]
      rcases mem_cons.mp he with rfl | he
      · exact .inr (.inl rfl)
      · exact .inr (.inr (ih (by simpa using hlength) he))

theorem mem_weave_iff {lists : List (List (Entry α))} (hlength : lists.length = entries.length + 1)
    {e : Entry α} : e ∈ weave entries lists ↔ e ∈ entries ∨ ∃ list ∈ lists, e ∈ list := by
  induction entries generalizing lists with
  | nil =>
    obtain ⟨list, rfl⟩ := length_eq_one_iff.mp hlength
    simp [weave]
  | cons first entries ih =>
    cases lists with
    | nil => simp at hlength
    | cons list lists =>
      rw [weave, mem_append, mem_cons, ih (by simpa using hlength), mem_cons]
      simp only [mem_cons, exists_eq_or_imp]
      tauto

section

variable (hlength : children.length = entries.length + 1) (hsorted : Sorted (weave entries (children.map Node.inorder)))

include hlength hsorted

theorem between_of_sorted {i : ℕ}
    (hchild : children[i]? = some child) {e : Entry α} (he : e ∈ child.inorder) :
    (∀ j separator, j + 1 = i → entries[j]? = some separator → separator.key < e.key) ∧
      ∀ separator, entries[i]? = some separator → e.key < separator.key := by
  obtain ⟨before, after, hweave, hbefore, hafter⟩ := weave_child hlength hchild
  rw [hweave] at hsorted
  obtain ⟨hleft, -, hright⟩ := pairwise_append.mp hsorted
  constructor
  · intro j separator hj hseparator
    have hmem : separator ∈ entries.take i :=
      mem_of_getElem? ((List.getElem?_take_of_lt (by omega)).trans hseparator)
    exact (pairwise_append.mp hleft).2.2 separator (mem_weaveBefore hbefore hmem) e he
  intro separator hseparator
  have hmem : separator ∈ entries.drop i := by
    refine mem_of_getElem? (i := 0) ?_
    rw [List.getElem?_drop]
    exact hseparator
  exact hright e (mem_append_right _ he) separator (mem_weaveAfter hafter hmem)

theorem sorted_of_mem_children (hchild : child ∈ children) : Sorted child.inorder := by
  obtain ⟨i, hget⟩ := mem_iff_getElem?.mp hchild
  obtain ⟨before, after, hweave, -, -⟩ := weave_child hlength hget
  rw [hweave] at hsorted
  exact (pairwise_append.mp (pairwise_append.mp hsorted).1).2.1

end

/-! ### The nodes of a balanced tree -/

namespace Balanced

variable {t h : ℕ} {root : Node α}

variable {node : Node α}

section

variable (hbalanced : Balanced t h root)

include hbalanced

theorem balanced_at {d : ℕ} (hat : root.At d node) : ∃ k, d + k = h ∧ Balanced t k node := by
  induction hat generalizing h with
  | here node => exact ⟨h, Nat.zero_add h, hbalanced⟩
  | @down node child below d hchild _ ih =>
    cases hbalanced with
    | leaf entries => exact absurd hchild not_mem_nil
    | inner h entries children _ _ hchildren _ =>
      obtain ⟨k, hk, hbelow⟩ := ih (hchildren child hchild)
      exact ⟨k, by omega, hbelow⟩

theorem size {d : ℕ} (hat : root.At (d + 1) node) : t - 1 ≤ node.entries.length := by
  induction d generalizing h root with
  | zero =>
    cases hat with
    | down hchild hbelow =>
      cases hbelow
      cases hbalanced with
      | leaf entries => exact absurd hchild not_mem_nil
      | inner h entries children _ _ _ hsize => exact hsize node hchild
  | succ d ih =>
    cases hat with
    | down hchild hbelow =>
      cases hbalanced with
      | leaf entries => exact absurd hchild not_mem_nil
      | inner h entries children _ _ hchildren _ => exact ih (hchildren _ hchild) hbelow

theorem sorted_below (hsorted : Sorted root.inorder) {d : ℕ}
    (hat : root.At d node) : Sorted node.inorder := by
  induction hat generalizing h with
  | here node => exact hsorted
  | @down node child below d hchild _ ih =>
    cases hbalanced with
    | leaf entries => exact absurd hchild not_mem_nil
    | inner h entries children hlength _ hchildren _ =>
      rw [Node.inorder_inner] at hsorted
      exact ih (hchildren child hchild) (sorted_of_mem_children hlength hsorted hchild)

theorem holds_iff {e : Entry α} : root.Holds e ↔ e ∈ root.inorder := by
  induction hbalanced with
  | leaf entries _ =>
    rw [Node.inorder_leaf]
    constructor
    · rintro ⟨d, below, hat, he⟩
      cases hat with
      | here => exact he
      | down hchild _ => exact absurd hchild not_mem_nil
    · intro he
      exact ⟨0, _, .here _, he⟩
  | inner h entries children hlength _ _ _ ih =>
    rw [Node.inorder_inner, mem_weave_iff (by rw [length_map, hlength])]
    constructor
    · rintro ⟨d, below, hat, he⟩
      cases hat with
      | here => exact .inl he
      | @down _ child _ d hchild hbelow =>
        refine .inr ⟨child.inorder, mem_map_of_mem hchild, ?_⟩
        exact (ih child hchild).mp ⟨d, below, hbelow, he⟩
    rintro (he | ⟨list, hlist, he⟩)
    · exact ⟨0, _, .here _, he⟩
    · obtain ⟨child, hchild, rfl⟩ := mem_map.mp hlist
      obtain ⟨d, below, hat, he⟩ := (ih child hchild).mpr he
      exact ⟨d + 1, below, .down hchild hat, he⟩

theorem shape (hsorted : Sorted root.inorder) : Shape t root where
  ascending d node hat := by
    obtain ⟨k, -, hnode⟩ := hbalanced.balanced_at hat
    have hinorder := hbalanced.sorted_below hsorted hat
    cases hnode with
    | leaf entries => exact hinorder
    | inner k entries children hlength =>
      rw [Node.inorder_inner] at hinorder
      have hlists : (children.map Node.inorder).length = entries.length + 1 := by
        rw [length_map, hlength]
      exact sorted_entries hlists hinorder
  size d node hat := by
    obtain ⟨k, -, hnode⟩ := hbalanced.balanced_at hat
    exact ⟨hbalanced.size hat, hnode.entries_le⟩
  children d node hat hleaf := by
    obtain ⟨k, -, hnode⟩ := hbalanced.balanced_at hat
    cases hnode with
    | leaf entries => cases hleaf
    | inner k entries children hlength => exact hlength
  leaves d node hat hleaf := by
    obtain ⟨k, -, hnode⟩ := hbalanced.balanced_at hat
    cases hnode with
    | leaf entries => rfl
    | inner k entries children hlength => cases hleaf
  between d node hat i child hchild e he := by
    obtain ⟨k, -, hnode⟩ := hbalanced.balanced_at hat
    have hinorder := hbalanced.sorted_below hsorted hat
    cases hnode with
    | leaf entries => simp at hchild
    | inner k entries children hlength _ hchildren _ =>
      rw [Node.inorder_inner] at hinorder
      have hmem := (hchildren child (mem_of_getElem? hchild)).holds_iff.mp he
      exact between_of_sorted hlength hinorder hchild hmem
  depth := by
    refine ⟨h, fun d node hat hleaf => ?_⟩
    obtain ⟨k, hk, hnode⟩ := hbalanced.balanced_at hat
    cases hnode with
    | leaf entries => omega
    | inner k entries children hlength => cases hleaf

end

end Balanced

/-! ### Inserts -/

namespace Btree

theorem degree_insert {tree tree' : Btree α} {key : Str} {hist : α}
    (h : tree.insert key hist = some tree') : tree'.degree = tree.degree := by
  have hrest {root : Node α} (h : (do
      let root ← root.insertNonFull tree.degree key hist root.height
      some { tree with root }) = some tree') : tree'.degree = tree.degree := by
    obtain ⟨root', -, h⟩ := Option.bind_eq_some_iff.mp h
    cases h
    rfl
  unfold insert at h
  dsimp only at h
  split at h
  · obtain ⟨root, -, h⟩ := Option.bind_eq_some_iff.mp h
    exact hrest h
  · exact hrest h

/-- Inserts one after the other. -/
def insertAll (tree : Btree α) (inserts : List (Entry α)) : Option (Btree α) :=
  inserts.foldlM (fun tree e => tree.insert e.key e.hist) tree

theorem Valid.insertAll {tree : Btree α} (hvalid : tree.Valid) (inserts : List (Entry α)) :
    ∃ tree', tree.insertAll inserts = some tree' ∧ tree'.Valid ∧ tree'.degree = tree.degree := by
  induction inserts generalizing tree with
  | nil => exact ⟨tree, rfl, hvalid, rfl⟩
  | cons e inserts ih =>
    obtain ⟨tree₁, hinsert, hvalid₁, -⟩ := hvalid.insert_spec e.key e.hist
    obtain ⟨tree₂, hrest, hvalid₂, hdegree⟩ := ih hvalid₁
    refine ⟨tree₂, ?_, hvalid₂, hdegree.trans (degree_insert hinsert)⟩
    rw [Btree.insertAll, foldlM_cons, hinsert]
    exact hrest

theorem Valid.holds_insert {tree : Btree α} (hvalid : tree.Valid) (key : Str) (hist : α) :
    ∃ tree', tree.insert key hist = some tree' ∧ ((∀ e, tree.root.Holds e → e.key ≠ key) →
        ∀ e, tree'.root.Holds e ↔ e = ⟨key, hist⟩ ∨ tree.root.Holds e) ∧
      ((∃ e, tree.root.Holds e ∧ e.key = key) → ∀ e, tree'.root.Holds e ↔ tree.root.Holds e) := by
  obtain ⟨tree', hinsert, hvalid', hinserted⟩ := hvalid.insert_spec key hist
  obtain ⟨h, hbalanced⟩ := hvalid.balanced
  obtain ⟨h', hbalanced'⟩ := hvalid'.balanced
  refine ⟨tree', hinsert, fun habsent e => ?_, fun hpresent e => ?_⟩
  · have hperm := hinserted.perm fun x hx => habsent x (hbalanced.holds_iff.mpr hx)
    rw [hbalanced'.holds_iff, hbalanced.holds_iff, hperm.mem_iff, mem_cons]
  obtain ⟨x, hx, hkey⟩ := hpresent
  have hmem := hbalanced.holds_iff.mp hx
  rw [hbalanced'.holds_iff, hbalanced.holds_iff]
  generalize tree.root.inorder = list at hinserted hmem
  generalize tree'.root.inorder = list' at hinserted
  cases hinserted with
  | present => exact Iff.rfl
  | placed left right hleft hright =>
    rcases mem_append.mp hmem with hx | hx
    · exact absurd hkey (hleft x hx).ne
    · exact absurd hkey (hright x hx).ne'

end Btree

/-- Inserts succeed and keep the shape. One adds its entry alone, or nothing if the key is there. -/
theorem inserts_keep_shape (t : ℕ) (ht : 2 ≤ t) (inserts : List (Entry α)) :
    ∃ tree, (newBtree t).insertAll inserts = some tree ∧ Shape t tree.root ∧
      ∀ key hist, ∃ tree', tree.insert key hist = some tree' ∧
        ((∀ e, tree.root.Holds e → e.key ≠ key) →
          ∀ e, tree'.root.Holds e ↔ e = ⟨key, hist⟩ ∨ tree.root.Holds e) ∧
        ((∃ e, tree.root.Holds e ∧ e.key = key) → ∀ e, tree'.root.Holds e ↔ tree.root.Holds e) := by
  obtain ⟨tree, hinserts, hvalid, hdegree⟩ := (newBtree_valid (t : ℤ)).insertAll inserts
  obtain ⟨h, hbalanced⟩ := hvalid.balanced
  have ht' : tree.degree = t := by
    rw [hdegree]
    show (if (t : ℤ) < 2 then 2 else (t : ℤ).toNat) = t
    rw [if_neg (by omega), Int.toNat_natCast]
  rw [ht'] at hbalanced
  exact ⟨tree, hinserts, hbalanced.shape hvalid.sorted, fun key hist => hvalid.holds_insert key hist⟩

/-- Four keys in a tree of degree two, which splits the root. -/
theorem four_inserts_keep_shape :
    ∃ tree : Btree ℕ, (newBtree 2).insertAll [⟨[4], 0⟩, ⟨[2], 1⟩, ⟨[3], 2⟩, ⟨[1], 3⟩] = some tree ∧
      Shape 2 tree.root := by
  obtain ⟨tree, hinserts, hshape, -⟩ := inserts_keep_shape 2 (Nat.le_refl 2)
    [⟨[4], 0⟩, ⟨[2], 1⟩, ⟨[3], 2⟩, (⟨[1], 3⟩ : Entry ℕ)]
  exact ⟨tree, hinserts, hshape⟩

end HelixCluster.Mvcc
