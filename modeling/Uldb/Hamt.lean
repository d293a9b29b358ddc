/-
The hash array mapped trie (`tx/hamt.rs`).

A trie node is a leaf or a branch; a branch keeps its children densely, in the
order of the set bits of a 32-bit bitmap.  The functions follow the source:
`Node.get` is the lookup loop, `Node.insertNode` and `Node.removeNode` are the
two recursive updates, `Node.collectLeaves` is the iteration.

* `insertNode` returns `none` where the source does not return: two different
  keys whose digits agree on every level reach level 13, where the shift of the
  64-bit hash overflows (a panic with overflow checks, and an endless recursion
  without them, since equal hashes agree on every level).
* `removeNode` returns `none` where the source returns `None`: nothing is left
  of the node.

The map operations of `Hamt` are in the structure `Raw`; `HamtValid.lean` adds
the trie invariant and the type of the valid tries.
-/
import Uldb.Basic
import Uldb.Lib.SparseArray

namespace Uldb

open SparseArray

/-- Number of bits consumed per trie level. -/
def bitsPerLevel : ℕ := 5

/-- Mask for extracting one level's index. -/
def levelMask : UInt64 := 31

/-- The levels whose shift `level * 5` stays below 64. -/
def maxLevels : ℕ := 13

/-- A trie node: a leaf, or a branch with a bitmap and its dense children. -/
inductive Node where
  | leaf (hash : UInt64) (key value : Bytes)
  | branch (bitmap : UInt32) (children : List Node)

/-- Bit index of a hash at a given trie level. -/
def bitIndex (hash : UInt64) (level : ℕ) : ℕ :=
  ((hash >>> (level * bitsPerLevel).toUInt64) &&& levelMask).toNat

/-- Position of a bit in the dense child array. -/
def sparseIndex (bitmap : UInt32) (bit : ℕ) : ℕ := rank bitmap bit

namespace Node

mutual

/-- The lookup loop of `Hamt::get`, from a node at some level. -/
def get (key : Bytes) (hash : UInt64) : Node → ℕ → Option Bytes
  | .leaf _ k value, _ => if k = key then some value else none
  | .branch bitmap children, level =>
    let bit := bitIndex hash level
    if bitmap &&& flag bit = 0 then none
    else getAt key hash children (sparseIndex bitmap bit) (level + 1)

/-- `get` in the child at a dense position. -/
def getAt (key : Bytes) (hash : UInt64) : List Node → ℕ → ℕ → Option Bytes
  | [], _, _ => none
  | child :: _, 0, level => get key hash child level
  | _ :: children, i + 1, level => getAt key hash children i level

end

/-- Insertion into a leaf: replace the value of the same key, or branch at the
first level on which the two hashes differ.  The fuel is the number of levels
left. -/
def insertLeaf (existingHash : UInt64) (existingKey existingValue : Bytes)
    (hash : UInt64) (key value : Bytes) : ℕ → ℕ → Option Node
  | fuel, level =>
    if existingKey = key then some (.leaf hash key value)
    else
      match fuel with
      -- Level 13: the shift overflows, and the call does not return.
      | 0 => none
      | fuel + 1 =>
        let oldBit := bitIndex existingHash level
        let newBit := bitIndex hash level
        let oldLeaf := Node.leaf existingHash existingKey existingValue
        let newLeaf := Node.leaf hash key value
        if oldBit = newBit then do
          -- Still colliding at this level, go deeper.
          let deeper ← insertLeaf existingHash existingKey existingValue hash key value
            fuel (level + 1)
          some (.branch (flag oldBit) [deeper])
        else if oldBit < newBit then
          some (.branch (flag oldBit ||| flag newBit) [oldLeaf, newLeaf])
        else
          some (.branch (flag oldBit ||| flag newBit) [newLeaf, oldLeaf])

mutual

/-- Recursive insert into an existing node. -/
def insertNode (hash : UInt64) (key value : Bytes) : Node → ℕ → Option Node
  | .leaf existingHash existingKey existingValue, level =>
    insertLeaf existingHash existingKey existingValue hash key value (maxLevels - level) level
  | .branch bitmap children, level =>
    let bit := bitIndex hash level
    let idx := sparseIndex bitmap bit
    if bitmap &&& flag bit = 0 then
      -- New child slot.
      some (.branch (bitmap ||| flag bit) (children.insertIdx idx (.leaf hash key value)))
    else do
      -- Existing child: recurse.
      let child ← insertAt hash key value children idx (level + 1)
      some (.branch bitmap (children.set idx child))

/-- `insertNode` in the child at a dense position. -/
def insertAt (hash : UInt64) (key value : Bytes) : List Node → ℕ → ℕ → Option Node
  | [], _, _ => none
  | child :: _, 0, level => insertNode hash key value child level
  | _ :: children, i + 1, level => insertAt hash key value children i level

end

mutual

/-- Recursive remove; `none` when nothing is left of the node. -/
def removeNode (hash : UInt64) (key : Bytes) : Node → ℕ → Option Node
  | .leaf h k value, _ => if k = key then none else some (.leaf h k value)
  | .branch bitmap children, level =>
    let bit := bitIndex hash level
    let idx := sparseIndex bitmap bit
    if bitmap &&& flag bit = 0 then some (.branch bitmap children)
    else
      match removeAt hash key children idx (level + 1) with
      | none =>
        if children.length = 1 then none
        else some (.branch (bitmap &&& ~~~flag bit) (children.eraseIdx idx))
      | some child => some (.branch bitmap (children.set idx child))

/-- `removeNode` in the child at a dense position. -/
def removeAt (hash : UInt64) (key : Bytes) : List Node → ℕ → ℕ → Option Node
  | [], _, _ => none
  | child :: _, 0, level => removeNode hash key child level
  | _ :: children, i + 1, level => removeAt hash key children i level

end

mutual

/-- The key-value pairs of a node, in child order. -/
def collectLeaves : Node → List (Bytes × Bytes)
  | .leaf _ key value => [(key, value)]
  | .branch _ children => collectAll children

/-- The pairs of all children, in order. -/
def collectAll : List Node → List (Bytes × Bytes)
  | [] => []
  | child :: children => collectLeaves child ++ collectAll children

end

end Node

/-- `insert_node` on an optional node, as the root is. -/
def insertRoot (hash : UInt64) (key value : Bytes) : Option Node → Option Node
  | none => some (.leaf hash key value)
  | some n => n.insertNode hash key value 0

/-! ### The map -/

/-- The fields of the source's `Hamt`. -/
structure Hamt.Raw where
  root : Option Node
  len : ℕ

namespace Hamt.Raw

def new : Raw := ⟨none, 0⟩

def get (h : Raw) (key : Bytes) : Option Bytes :=
  h.root.bind fun n => n.get key (fnv1a key) 0

/-- Insert or update a key; `none` when the insertion does not return. -/
def put (h : Raw) (key value : Bytes) : Option Raw := do
  let root ← insertRoot (fnv1a key) key value h.root
  some ⟨some root, if (h.get key).isSome then h.len else h.len + 1⟩

/-- Delete a key; the trie is unchanged when the key is absent. -/
def delete (h : Raw) (key : Bytes) : Raw :=
  if (h.get key).isNone then h
  else ⟨h.root.bind fun n => n.removeNode (fnv1a key) key 0, h.len - 1⟩

/-- All key-value pairs. -/
def iter (h : Raw) : List (Bytes × Bytes) :=
  match h.root with
  | none => []
  | some n => n.collectLeaves

end Hamt.Raw

end Uldb
