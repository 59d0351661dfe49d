/-
# `datastruct/Issaquah/tree.c` and `existence.c`

A search tree whose leaves carry the data, between two sentinels; deletion
unlinks a leaf and leaves the internal nodes above it. A leaf may have an
existence pointer, to the outgoing or the incoming half of an existence group,
and then the group's switch decides whether it exists.

One thread runs here, so taking and releasing a lock do nothing. Each function
that has a `retry` label is one pass through its body: `retry` says that the
pass ends at a `goto retry`. A loop gets the number of nodes as fuel; `stuck` is
a loop that ran out of it, a `NULL` that was dereferenced or a `BUG_ON`. `malloc` returns a
node that was never used before, or fails, as its argument says (freed nodes
wait for a grace period). Tracing and the node caches are left out.

Key definitions: `Info`, `Heap`, `Root`, `Out`, `treeAlloc`, `treeLookupNode`, `treeLookup`,
`treeLookupRelaxed`, `treeInsertExistence`, `treeDeleteExistence`, `treeMap`, `treeAtomicMove`.
-/
import Mathlib.Algebra.Group.Int.Defs
import Mathlib.Data.Int.Notation
import Mathlib.Order.Basic
import Mathlib.Order.Lattice
import Perfbook.Bst.Tree

namespace Perfbook
namespace Issaquah

open Bst

def intMin : ℤ := -2 ^ 31

def intMax : ℤ := 2 ^ 31 - 1

/-- `int`. -/
abbrev Key := {k : ℤ // intMin ≤ k ∧ k ≤ intMax}

instance : DecidableLE Key := fun a b => Int.decLe a.1 b.1

instance : DecidableLT Key := fun a b => Int.decLt a.1 b.1

def keyMin : Key := ⟨intMin, by decide⟩

def keyMax : Key := ⟨intMax, by decide⟩

/-- A node, and an existence group, by the number of its allocation. -/
abbrev Addr := ℕ

/-- The two halves of an existence group; the offset is 0 or 1. -/
inductive Half
  | outgoing
  | incoming
deriving DecidableEq

def Half.offset : Half → ℕ
  | outgoing => 0
  | incoming => 1

/-- A `struct existence *`. -/
structure Existence where
  group : Addr
  half : Half
deriving DecidableEq

/-- `struct treenode`, less its links and its lock. -/
structure Info (D : Type) where
  key : Key
  perm : Bool
  deleted : Bool
  data : Option D
  existence : Option Existence

abbrev Node (D : Type) := Cell Addr (Info D)

/-- The memory: the nodes, the switches of the existence groups (the index
into `existence_array` they point to), and what was never allocated. -/
structure Heap (D : Type) where
  node : Addr → Node D
  fresh : Addr
  existenceSwitch : Addr → ℕ
  freshGroup : Addr

/-- `struct treeroot`. -/
structure Root where
  min : Addr
  max : Addr
deriving DecidableEq

/-- How a pass through a function ends. -/
inductive Out (α : Type)
  | ret (x : α)
  | retry
  | stuck

/-- What the functions return. -/
inductive Code
  | ok
  | enomem
  | enoent
  | eexist
  | ebusy
deriving DecidableEq

variable {D : Type}

namespace Heap

/-- A store to a link of a node. -/
def setChild (h : Heap D) (a : Addr) (d : Side) (p : Option Addr) : Heap D :=
  { h with node := Function.update h.node a ((h.node a).setChild d p) }

/-- A store to another field of a node. -/
def setInfo (h : Heap D) (a : Addr) (i : Info D) : Heap D :=
  { h with node := Function.update h.node a { h.node a with info := i } }

/-- A new node. -/
def new (h : Heap D) (n : Node D) : Heap D :=
  { h with node := Function.update h.node h.fresh n, fresh := h.fresh + 1 }

end Heap

/-! ### Existence -/

/-- `existence_array`. -/
def existenceArray : ℕ → ℕ
  | 0 => 1
  | 1 => 0
  | 2 => 0
  | _ => 1

/-- `_existence_exists`. -/
def existenceExistsOf (sw : Addr → ℕ) (ep : Existence) : Bool :=
  existenceArray (sw ep.group + ep.half.offset) ≠ 0

/-- `existence_exists`. -/
def existenceExists (sw : Addr → ℕ) : Option Existence → Bool
  | none => true
  | some ep => existenceExistsOf sw ep

/-- `existence_alloc`. -/
def existenceAlloc (ok : Bool) (h : Heap D) : Option (Heap D × Addr) :=
  if ok then
    some ({ h with existenceSwitch := Function.update h.existenceSwitch h.freshGroup 0
                   freshGroup := h.freshGroup + 1 }, h.freshGroup)
  else none

/-- `existence_switch`. -/
def existenceSwitch (h : Heap D) (egp : Addr) : Heap D :=
  { h with existenceSwitch := Function.update h.existenceSwitch egp 2 }

/-! ### Nodes -/

/-- `init_treenode`. -/
def initTreenode (key : Key) : Node D := ⟨⟨key, false, false, none, none⟩, none, none⟩

/-- A sentinel: `init_treenode`, `perm`, and the left child. -/
def sentinel (key : Key) (lc : Option Addr) : Node D :=
  { (initTreenode key : Node D) with
    info := { (initTreenode key : Node D).info with perm := true }
    lc := lc }

/-- `tree_alloc`, when `malloc` succeeds: `max` has `min` as its left child. -/
def treeAlloc (h : Heap D) : Heap D × Root :=
  ((h.new (sentinel keyMin none)).new (sentinel keyMax (some h.fresh)), ⟨h.fresh, h.fresh + 1⟩)

/-- `alloc_treenode`. -/
def allocTreenode (ok : Bool) (h : Heap D) (key : Key) (data : Option D)
    (existence : Option Existence) : Option (Heap D × Addr) :=
  if ok then some (h.new ⟨⟨key, false, false, data, existence⟩, none, none⟩, h.fresh) else none

/-- `new_internal_node`. -/
def newInternalNode (ok : Bool) (h : Heap D) (key : Key) (cur new : Addr) :
    Option (Heap D × Addr) :=
  match allocTreenode ok h key none none with
  | none => none
  | some (h, newint) =>
    if (h.node cur).info.key ≤ key then
      some (((h.setInfo newint { (h.node newint).info with key := (h.node cur).info.key }).setChild
        newint .left (some cur)).setChild newint .right (some new), newint)
    else some ((h.setChild newint .left (some new)).setChild newint .right (some cur), newint)

/-- `tree_empty_node`. -/
def treeEmptyNode (n : Node D) : Bool := n.lc.isNone && n.rc.isNone && n.info.data.isNone

/-- `tree_leaf_node`. -/
def treeLeafNode (n : Node D) : Bool := n.lc.isNone && n.rc.isNone && n.info.data.isSome

/-- `parent_insert`; `none` if a `NULL` would be dereferenced. -/
def parentInsert (ok : Bool) (h : Heap D) (key : Key) (par new : Addr) : Option (Heap D × Code) :=
  let p := h.node par
  if p.lc = none ∧ key ≤ p.info.key then some (h.setChild par .left (some new), .ok)
  else if p.rc = none ∧ p.info.key < key then some (h.setChild par .right (some new), .ok)
  else
    let curp := if key ≤ p.info.key then Side.left else Side.right
    match p.child curp with
    | none => none
    | some old =>
      match newInternalNode ok h key old new with
      | none => some (h, .enomem)
      | some (h, newint) => some (h.setChild par curp (some newint), .ok)

/-! ### Lookup -/

/-- The loop of `_tree_lookup`: the node where the search ends, after its parent. -/
def lookupLoop (h : Heap D) (key : Key) : ℕ → Addr → Addr → Option (Addr × Addr)
  | 0, _, _ => none
  | fuel + 1, par, cur =>
    let c := h.node cur
    if c.info.key = key ∧ c.lc = none ∧ c.rc = none then some (par, cur)
    else if key ≤ c.info.key then
      match c.lc with
      | none => some (par, cur)
      | some l => lookupLoop h key fuel cur l
    else
      match c.rc with
      | none => some (par, cur)
      | some r => lookupLoop h key fuel cur r

/-- `_tree_lookup`. -/
def treeLookupNode (h : Heap D) (trp : Root) (key : Key) : Option (Addr × Addr) :=
  lookupLoop h key h.fresh trp.max trp.min

/-- `tree_lookup`, with no function to call. -/
def treeLookup (h : Heap D) (trp : Root) (key : Key) : Out (Option D) :=
  match treeLookupNode h trp key with
  | none => .stuck
  | some (_, cur) =>
    let c := h.node cur
    if c.info.deleted then .retry
    else if !treeLeafNode c || c.info.key ≠ key then .ret none
    else if c.info.existence ≠ none then .retry
    else .ret c.info.data

/-- `tree_lookup_relaxed`. -/
def treeLookupRelaxed (h : Heap D) (trp : Root) (key : Key) : Out (Option D) :=
  match treeLookupNode h trp key with
  | none => .stuck
  | some (_, cur) =>
    let c := h.node cur
    if treeLeafNode c && c.info.key = key && !c.info.deleted &&
        existenceExists h.existenceSwitch c.info.existence then .ret c.info.data
    else .ret none

/-! ### Insertion and deletion -/

/-- `tree_grew`. -/
def treeGrew (c : Node D) (key : Key) : Bool :=
  (key ≤ c.info.key && c.lc.isSome) || (c.info.key < key && c.rc.isSome)

/-- The test after the locks of `par` and `cur` are taken. -/
def raced (h : Heap D) (par cur : Addr) : Bool :=
  (h.node par).info.deleted || (h.node cur).info.deleted ||
    ((h.node par).lc ≠ some cur && (h.node par).rc ≠ some cur)

def Out.ofOption {α : Type} : Option α → Out α
  | some x => .ret x
  | none => .stuck

/-- `tree_insert_existence`; `okNew` and `okInt` say whether the leaf and an
internal node can be allocated. -/
def treeInsertExistence (okNew okInt : Bool) (h : Heap D) (trp : Root) (key : Key) (data : D)
    (nodeExistence : Option Existence) (wait : Bool) : Out (Heap D × Code) :=
  match allocTreenode okNew h key (some data) nodeExistence with
  | none => .ret (h, .enomem)
  | some (h, new) =>
    match treeLookupNode h trp key with
    | none => .stuck
    | some (par, cur) =>
      let c := h.node cur
      if raced h par cur then .retry
      else if treeLeafNode c then
        if c.info.key = key then
          if c.info.existence ≠ none then if wait then .retry else .ret (h, .ebusy)
          else .ret (h, .eexist)
        else .ofOption (parentInsert okInt h key par new)
      else if treeGrew c key then .retry
      else .ofOption (parentInsert okInt h key cur new)

/-- `tree_insert`. -/
def treeInsert (okNew okInt : Bool) (h : Heap D) (trp : Root) (key : Key) (data : D) :
    Out (Heap D × Code) :=
  treeInsertExistence okNew okInt h trp key data none true

/-- The stores of a deletion: the link to `cur`, then `deleted`. -/
def unlink (h : Heap D) (par cur : Addr) : Option (Heap D) :=
  if (h.node par).lc = some cur then some (h.setChild par .left none)
  else if (h.node par).rc = some cur then some (h.setChild par .right none)
  else none

def markDeleted (h : Heap D) (cur : Addr) : Heap D :=
  h.setInfo cur { (h.node cur).info with deleted := true }

/-- `tree_delete_existence`. -/
def treeDeleteExistence (h : Heap D) (trp : Root) (key : Key) (matchexistence : Option Existence)
    (wait : Bool) : Out (Heap D × Code × Option D) :=
  match treeLookupNode h trp key with
  | none => .stuck
  | some (par, cur) =>
    let c := h.node cur
    if raced h par cur then .retry
    else if treeEmptyNode c then .ret (h, .enoent, none)
    else if c.info.existence ≠ matchexistence then
      if matchexistence = none then if wait then .retry else .ret (h, .ebusy, none)
      else .ret (h, .enoent, none)
    else if !treeLeafNode c || c.info.key ≠ key then
      if treeGrew c key then .retry else .ret (h, .enoent, none)
    else
      match unlink h par cur with
      | none => .retry
      | some h => .ret (markDeleted h cur, .ok, c.info.data)

/-- `tree_delete`. -/
def treeDelete (h : Heap D) (trp : Root) (key : Key) : Out (Heap D × Code × Option D) :=
  treeDeleteExistence h trp key none true

/-! ### Mapping -/

/-- `tree_map_node`: the leaves that the function is called for, in order. -/
def treeMapNode (h : Heap D) : ℕ → Option Addr → Option (List Addr)
  | _, none => some []
  | 0, some _ => none
  | fuel + 1, some cur =>
    let c := h.node cur
    if treeLeafNode c then
      some (if !c.info.deleted && !existenceExists h.existenceSwitch c.info.existence then [cur] else [])
    else
      match treeMapNode h fuel c.lc, treeMapNode h fuel c.rc with
      | some l, some r => some (l ++ r)
      | _, _ => none

/-- `tree_map` and `tree_map_relaxed`, which differ in a lock only. -/
def treeMap (h : Heap D) (trp : Root) : Out (List Addr) :=
  .ofOption (treeMapNode h (h.fresh + 1) (some trp.max))

/-! ### Moves -/

/-- `tree_change_existence_find`: the leaf, if the code is `ok`. -/
def treeChangeExistenceFind (h : Heap D) (trp : Root) (key : Key) (ep : Option Existence) :
    Out (Code × Option Addr) :=
  match treeLookupNode h trp key with
  | none => .stuck
  | some (_, cur) =>
    let c := h.node cur
    if c.info.deleted then .retry
    else if !treeLeafNode c || c.info.key ≠ key then .ret (.enoent, none)
    else if ep = c.info.existence then .ret (.ok, some cur)
    else .ret (.ebusy, none)

/-- `existence_set`, of a pointer that must be `NULL`. -/
def existenceSet (h : Heap D) (cur : Addr) (ep : Existence) : Out (Heap D) :=
  if (h.node cur).info.existence ≠ none then .stuck
  else .ret (h.setInfo cur { (h.node cur).info with existence := some ep })

/-- `existence_clear`, of a pointer that must not be `NULL`. -/
def existenceClear (h : Heap D) (cur : Addr) : Out (Heap D) :=
  if (h.node cur).info.existence = none then .stuck
  else .ret (h.setInfo cur { (h.node cur).info with existence := none })

def Out.bind {α β : Type} : Out α → (α → Out β) → Out β
  | .ret x, f => f x
  | .retry, _ => .retry
  | .stuck, _ => .stuck

/-- `tree_existence_add`: the code, and the data of the leaf. -/
def treeExistenceAdd (h : Heap D) (trp : Root) (key : Key) (ep : Existence) :
    Out (Heap D × Code × Option D) :=
  (treeChangeExistenceFind h trp key none).bind fun
    | (code, none) => .ret (h, code, none)
    | (code, some cur) => (existenceSet h cur ep).bind fun h' => .ret (h', code, (h.node cur).info.data)

/-- `tree_existence_remove`. -/
def treeExistenceRemove (h : Heap D) (trp : Root) (key : Key) (ep : Existence) :
    Out (Heap D × Code) :=
  (treeChangeExistenceFind h trp key (some ep)).bind fun
    | (code, none) => .ret (h, code)
    | (code, some cur) => (existenceClear h cur).bind fun h' => .ret (h', code)

/-- What is not under the control of a move: which allocations succeed, and
which of the two random failures of debugging happen. -/
structure Chance where
  group : Bool
  leaf : Bool
  internal : Bool
  failFind : Bool
  failInsert : Bool

/-- How a move ends: the memory, what it returns, what it passes back, and the
memory after each of its steps. -/
structure Moved (D : Type) where
  heap : Heap D
  code : Code
  data : Option D
  steps : List (Heap D)

/-- `existence_end_ret`. -/
def moveUndo (h : Heap D) (srcp : Root) (key : Key) (egp : Addr) (code : Code)
    (steps : List (Heap D)) : Out (Moved D) :=
  (treeExistenceRemove h srcp key ⟨egp, .outgoing⟩).bind fun
    | (h', .ok) => .ret ⟨h', code, none, steps ++ [h']⟩
    | _ => .stuck

/-- `tree_atomic_move` after the insertion into the destination. -/
def moveFinish (h : Heap D) (srcp dstp : Root) (key : Key) (egp : Addr) (steps : List (Heap D)) :
    Out (Moved D) :=
  let h₁ := existenceSwitch h egp
  (treeDeleteExistence h₁ srcp key (some ⟨egp, .outgoing⟩) false).bind fun
    | (h₂, .ok, data) =>
      (treeExistenceRemove h₂ dstp key ⟨egp, .incoming⟩).bind fun
        | (h₃, .ok) => .ret ⟨h₃, .ok, data, steps ++ [h₁, h₂, h₃]⟩
        | _ => .stuck
    | _ => .stuck

/-- `tree_atomic_move` after the source is marked. -/
def moveInsert (ch : Chance) (h : Heap D) (srcp dstp : Root) (key : Key) (egp : Addr) (data : D)
    (steps : List (Heap D)) : Out (Moved D) :=
  if ch.failInsert then moveUndo h srcp key egp .eexist steps
  else
    (treeInsertExistence ch.leaf ch.internal h dstp key data (some ⟨egp, .incoming⟩) false).bind fun
      | (h', .ok) => moveFinish h' srcp dstp key egp (steps ++ [h'])
      | (h', code) => moveUndo h' srcp key egp code (steps ++ [h'])

/-- `tree_atomic_move`; `existence_free` waits for a grace period. -/
def treeAtomicMove (ch : Chance) (h : Heap D) (srcp dstp : Root) (key : Key) : Out (Moved D) :=
  match existenceAlloc ch.group h with
  | none => .ret ⟨h, .enomem, none, []⟩
  | some (h₁, egp) =>
    if ch.failFind then .ret ⟨h₁, .ebusy, none, [h₁]⟩
    else
      (treeExistenceAdd h₁ srcp key ⟨egp, .outgoing⟩).bind fun
        | (h₂, .ok, some data) => moveInsert ch h₂ srcp dstp key egp data [h₁, h₂]
        | (_, .ok, none) => .stuck
        | (h₂, code, _) => .ret ⟨h₂, code, none, [h₁, h₂]⟩

end Issaquah
end Perfbook
