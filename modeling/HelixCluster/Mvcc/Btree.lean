import HelixCluster.Lib.BinarySearch
import HelixCluster.Lib.GoString

/-!
# The B-tree key index

The B-tree of `pkg/mvcc/btree.go`. An entry pairs a key with a pointer to the history of the key.
-/

namespace HelixCluster.Mvcc

variable {α : Type}

/-- A key with the pointer stored for it. -/
structure Entry (α : Type) where
  key : Str
  hist : α
  deriving DecidableEq

/-- A node: the leaf flag, the entries in ascending order of their keys, and the children. -/
inductive Node (α : Type) where
  | mk (leaf : Bool) (entries : List (Entry α)) (children : List (Node α))

namespace Node

/-- The leaf flag. -/
def leaf : Node α → Bool
  | .mk leaf _ _ => leaf

/-- The entries. -/
def entries : Node α → List (Entry α)
  | .mk _ entries _ => entries

/-- The children. -/
def children : Node α → List (Node α)
  | .mk _ _ children => children

section

variable (leaf : Bool) (entries : List (Entry α)) (children : List (Node α))

@[simp] theorem leaf_mk :
    (Node.mk leaf entries children).leaf = leaf := rfl

@[simp] theorem entries_mk :
    (Node.mk leaf entries children).entries = entries := rfl

@[simp] theorem children_mk : (Node.mk leaf entries children).children = children := rfl

end

mutual
/-- The number of levels of the subtree. -/
def height : Node α → Nat
  | .mk _ _ children => heightChildren children + 1

/-- The number of levels of the highest child. -/
def heightChildren : List (Node α) → Nat
  | [] => 0
  | child :: rest => max (height child) (heightChildren rest)
end

end Node

/-- The ordered index: a root and the minimum degree. -/
structure Btree (α : Type) where
  root : Node α
  degree : Nat

/-- The minimum degree of the store's index. -/
def defaultDegree : Int := 4

def newBtree (degree : Int) : Btree α where
  root := .mk true [] []
  degree := if degree < 2 then 2 else degree.toNat

/-- `node.search`: the index of the key or where it would be inserted, and whether it was found. -/
def search (entries : List (Entry α)) (key : Str) : Nat × Bool :=
  let lo := searchSlice entries fun e => e.key < key
  match entries[lo]? with
  | some e => (lo, e.key = key)
  | none => (lo, false)

namespace Node

mutual
/-- The descent of `btree.get` from a node. The inner `none` is the nil pointer. -/
def get (key : Str) : Node α → Option (Option α)
  | .mk leaf entries children =>
    let (idx, found) := search entries key
    if found then entries[idx]?.map fun e => some e.hist
    else if leaf then some none
    else getChild key children idx

/-- The descent into the child with this index. -/
def getChild (key : Str) : List (Node α) → Nat → Option (Option α)
  | [], _ => none
  | child :: _, 0 => get key child
  | _ :: rest, idx + 1 => getChild key rest idx
end

/-- The median entry of the full child `i` moves up, and the child is divided around it. -/
def splitChild (node : Node α) (i degree : Nat) : Option (Node α) := do
  let full ← node.children[i]?
  let mid := degree - 1
  let median ← full.entries[mid]?
  if full.leaf = false ∧ full.children.length < mid + 1 then none
  else
    let right := .mk full.leaf (full.entries.drop (mid + 1))
      (if full.leaf then [] else full.children.drop (mid + 1))
    let left := .mk full.leaf (full.entries.take mid)
      (if full.leaf then full.children else full.children.take (mid + 1))
    some (.mk node.leaf (node.entries.insertIdx i median)
      ((node.children.set i left).insertIdx (i + 1) right))

/-- Replace the child `idx` by what the recursive call makes of it. -/
def descend (insert : Node α → Option (Node α)) (node : Node α) (idx : Nat) :
    Option (Node α) := do
  let child ← node.children[idx]?
  let child ← insert child
  some (.mk node.leaf node.entries (node.children.set idx child))

/-- `insertNonFull` on a subtree of at most this many levels. -/
def insertNonFull (degree : Nat) (key : Str) (hist : α) : Nat → Node α → Option (Node α)
  | 0, _ => none
  | levels + 1, node =>
    let (idx, found) := search node.entries key
    if found then some node
    else if node.leaf then
      some (.mk node.leaf (node.entries.insertIdx idx ⟨key, hist⟩) node.children)
    else do
      let child ← node.children[idx]?
      if child.entries.length = 2 * degree - 1 then
        let node ← node.splitChild idx degree
        let median ← node.entries[idx]?
        if key > median.key then
          descend (insertNonFull degree key hist levels) node (idx + 1)
        else if key = median.key then some node
        else descend (insertNonFull degree key hist levels) node idx
      else descend (insertNonFull degree key hist levels) node idx

mutual
/-- The closure `walk` of `rangeKeys`. -/
def rangeWalk (start stop : Str) : Node α → Option (List Str)
  | .mk leaf entries children =>
    if leaf then
      some ((entries.filter fun e =>
        !(e.key < start) && !(stop ≠ [] && stop ≤ e.key)).map Entry.key)
    else rangeWalkChildren start stop entries children

/-- The loop of `walk` over the entries of an inner node, with the last child after it. -/
def rangeWalkChildren (start stop : Str) :
    List (Entry α) → List (Node α) → Option (List Str)
  | _, [] => none
  | [], child :: _ => rangeWalk start stop child
  | e :: entries, child :: children => do
    let left ← rangeWalk start stop child
    let right ← rangeWalkChildren start stop entries children
    let here := if start ≤ e.key ∧ (stop = [] ∨ e.key < stop) then [e.key] else []
    some (left ++ here ++ right)
end

mutual
/-- The closure `walk` of `allHistories`. -/
def histories : Node α → Option (List α)
  | .mk leaf entries children =>
    if leaf then some (entries.map Entry.hist) else historiesChildren entries children

/-- The loop of `walk` over the entries of an inner node, with the last child after it. -/
def historiesChildren : List (Entry α) → List (Node α) → Option (List α)
  | _, [] => none
  | [], child :: _ => histories child
  | e :: entries, child :: children => do
    let left ← histories child
    let right ← historiesChildren entries children
    some (left ++ e.hist :: right)
end

end Node

namespace Btree

def get (tree : Btree α) (key : Str) : Option (Option α) := tree.root.get key

def insert (tree : Btree α) (key : Str) (hist : α) : Option (Btree α) := do
  let root ←
    if tree.root.entries.length = 2 * tree.degree - 1 then
      (Node.mk false [] [tree.root]).splitChild 0 tree.degree
    else some tree.root
  let root ← root.insertNonFull tree.degree key hist root.height
  some { tree with root }

def rangeKeys (tree : Btree α) (start stop : Str) : Option (List Str) :=
  tree.root.rangeWalk start stop

def allHistories (tree : Btree α) : Option (List α) := tree.root.histories

end Btree

end HelixCluster.Mvcc
