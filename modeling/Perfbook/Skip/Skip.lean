/-
# `datastruct/skiplist`: skiplists with a lock for each node, and with one lock

`skiplist.c` and `skiplist_glock.c` keep the same structure: a node is on the
levels up to its `sl_toplevel`, and each level is a list from the head on,
sorted by key. The search for a key goes from the top level down (`walk`) and
notes in `update` where the key would be on each level.

In `skiplist.c` an update locks the nodes that it has noted, and looks again at
what it has read without the lock: if that has changed it unlocks them and
starts again, which `retries` counts. `skiplist_glock.c` has the lock of the
head only.

`none` is an `assert` or a `BUG_ON` that fails, a lock that is taken twice or
released twice, or a loop that needs more than `fuel` steps. `toplevel` has no
negative values, so `assert(toplevel >= 0)` is left out.

Key definitions: `Mem`, `walk`, `fsck`, `Fine.insert`, `Fine.delete`, `Global.insert`,
`Global.delete`.
-/
import Mathlib.Algebra.Group.Nat.Defs
import Mathlib.Data.List.Basic
import Mathlib.Order.Compare
import Mathlib.Order.Lattice

namespace Perfbook
namespace Skip

def maxLevels : ℕ := 8

/-- The nodes in memory, and the head. `sl_seq` and `sl_cmp` are those of the head. -/
structure Mem (ν K : Type) where
  key : ν → K
  toplevel : ν → ℕ
  deleted : ν → Bool
  head : ν → Option ν
  next : ν → ℕ → Option ν
  locked : ν → Bool
  seq : ℕ
  retries : ℕ

variable {ν K : Type} [DecidableEq ν] [LinearOrder K]

namespace Mem

variable (s : Mem ν K)

/-- The sign of `sl_cmp(slp, key)`. -/
def slCmp (slp : ν) (key : K) : Ordering := compare (s.key slp) key

/-- `skiplist_lock`. -/
def lock (slp : ν) : Option (Mem ν K) :=
  if s.locked slp then none else some { s with locked := Function.update s.locked slp true }

/-- `skiplist_unlock`. -/
def unlock (slp : ν) : Option (Mem ν K) :=
  if s.locked slp then some { s with locked := Function.update s.locked slp false } else none

def setNext (slp : ν) (level : ℕ) (q : Option ν) : Mem ν K :=
  { s with next := Function.update s.next slp (Function.update (s.next slp) level q) }

/-- `skiplist_unlock_update`, for the levels that are left and the node unlocked last. -/
def unlockLevels (update : ℕ → Option ν) : List ℕ → Option ν → Mem ν K → Option (Mem ν K)
  | [], _, s => some s
  | level :: ls, slpLast, s =>
    match update level with
    | none => unlockLevels update ls slpLast s
    | some slp =>
      if some slp ≠ slpLast then do
        let s ← s.unlock slp
        unlockLevels update ls (some slp) s
      else unlockLevels update ls slpLast s

def unlockUpdate (update : ℕ → Option ν) (toplevel : ℕ) : Option (Mem ν K) :=
  unlockLevels update (List.range (toplevel + 1)) none s

end Mem

/-- `skiplist_init`. -/
def init (s : Mem ν K) (slp : ν) : Mem ν K :=
  { s with
    toplevel := Function.update s.toplevel slp (maxLevels - 1)
    locked := Function.update s.locked slp false
    deleted := Function.update s.deleted slp false
    head := Function.update s.head slp (some slp)
    seq := 0
    next := Function.update s.next slp fun i => if i < maxLevels then none else s.next slp i
    retries := 0 }

/-- The `while` loop of all searches, from `slp` on a level: the last node before `key`, the next
one, and the last result of a comparison. -/
def walk (s : Mem ν K) (key : K) (level : ℕ) : ℕ → ν → Ordering → Option (ν × Option ν × Ordering)
  | 0, _, _ => none
  | fuel + 1, slp, result =>
    match s.next slp level with
    | none => some (slp, none, result)
    | some slpNext =>
      if s.slCmp slpNext key = .lt then walk s key level fuel slpNext .lt
      else some (slp, some slpNext, s.slCmp slpNext key)

/-- The stores that link a new node on the levels `ls`, after the assertion. -/
def linkLevels (new : ν) (update : ℕ → Option ν) : List ℕ → Mem ν K → Option (Mem ν K)
  | [], s => some s
  | level :: ls, s => do
    let slp ← update level
    let s := s.setNext new level (s.next slp level)
    if s.toplevel slp < level then none
    else linkLevels new update ls (s.setNext slp level (some new))

/-- The fields of a new node, except for the links that it gets. -/
def initNode (s : Mem ν K) (new headSlp : ν) (toplevel : ℕ) : Mem ν K :=
  { s with
    toplevel := Function.update s.toplevel new toplevel
    locked := Function.update s.locked new false
    deleted := Function.update s.deleted new false
    head := Function.update s.head new (some headSlp) }

/-- The loop that clears the links above `toplevel`. -/
def clearAbove (s : Mem ν K) (new : ν) (toplevel : ℕ) : Mem ν K :=
  { s with next := Function.update s.next new fun level =>
      if toplevel < level ∧ level < maxLevels then none else s.next new level }

/-! ### `skiplist_fsck` -/

/-- The `while` loop of `skiplist_fsck_one`, from `slp` to `target` on level 0. -/
def fsckWalk (s : Mem ν K) (target : Option ν) : ℕ → Option ν → Option Unit
  | 0, _ => none
  | fuel + 1, slp =>
    if slp = target then some ()
    else do
      let slp ← slp
      fsckWalk s target fuel (s.next slp 0)

/-- The first loop of `skiplist_fsck_one`, for the levels `ls`. -/
def fsckLevels (fuel : ℕ) (s : Mem ν K) (first : ν) : List ℕ → Option ν → Option Unit
  | [], _ => some ()
  | i :: ls, slp => do
    fsckWalk s (s.next first i) fuel slp
    if (s.next first i).any fun slp => s.toplevel slp < i then none
    else fsckLevels fuel s first ls (s.next first i)

def fsckOne (fuel : ℕ) (s : Mem ν K) (first : ν) : Option Unit := do
  fsckLevels fuel s first (List.range' 1 (s.toplevel first)) (s.next first 0)
  if (List.range' (s.toplevel first + 1) (maxLevels - (s.toplevel first + 1))).all
    fun i => s.next first i = none then some () else none

/-- The loop of `skiplist_fsck`. -/
def fsckFrom (fuel : ℕ) (s : Mem ν K) (headSlp : ν) : ℕ → Option ν → Option Unit
  | _, none => some ()
  | 0, some _ => none
  | n + 1, some slp => do
    fsckOne fuel s slp
    if s.head slp ≠ some headSlp then none else fsckFrom fuel s headSlp n (s.next slp 0)

def fsck (fuel : ℕ) (s : Mem ν K) (headSlp : ν) : Option Unit := fsckFrom fuel s headSlp fuel (some headSlp)

/-- What a call returns: 0, `-EEXIST`, or a pointer. -/
inductive Ret (ν : Type)
  | ok
  | eexist
  | ptr (slp : Option ν)
deriving DecidableEq

/-! ### `skiplist.c` -/

namespace Fine

/-- The locals of `skiplist_delete`. -/
structure Locals (ν : Type) where
  prev : ν
  last : Option ν
  cur : Option ν
  result : Ordering
  update : ℕ → Option ν

/-- The first loop of `skiplist_delete`, for the levels below `level`. The result says whether it
has gone to `retry`. -/
def deleteSearch (fuel : ℕ) (key : K) : ℕ → Mem ν K → Locals ν → Option (Mem ν K × Locals ν × Bool)
  | 0, s, v => some (s, v, false)
  | level + 1, s, v => do
    let (prev, cur, result) ← walk s key level fuel v.prev v.result
    match cur with
    | none =>
      deleteSearch fuel key level s ⟨prev, v.last, none, result, Function.update v.update level none⟩
    | some slpCur =>
      if result ≠ .eq then
        deleteSearch fuel key level s
          ⟨prev, v.last, some slpCur, result, Function.update v.update level none⟩
      else if some prev ≠ v.last then do
        let update := Function.update v.update level (some prev)
        let s ← s.lock prev
        if some slpCur ≠ s.next prev level ∨
            (level < s.toplevel prev ∧ s.next prev level = s.next prev (level + 1)) then
          let s ← s.unlockUpdate (fun i => if i < level then none else update i) (s.toplevel slpCur)
          some (s, ⟨prev, v.last, some slpCur, result, update⟩, true)
        else deleteSearch fuel key level s ⟨prev, some prev, some slpCur, result, update⟩
      else
        deleteSearch fuel key level s
          ⟨prev, v.last, some slpCur, result, Function.update v.update level (some prev)⟩

/-- The loop that unlinks `slpCur` on the levels below `level`. -/
def unlink (update : ℕ → Option ν) (slpCur : ν) : ℕ → Mem ν K → Mem ν K
  | 0, s => s
  | level + 1, s =>
    match update level with
    | none => unlink update slpCur level s
    | some slp => unlink update slpCur level (s.setNext slp level (s.next slpCur level))

/-- `skiplist_delete` up to the next `goto retry`, which returns `none`. -/
def deletePass (fuel : ℕ) (s : Mem ν K) (headSlp : ν) (key : K) : Option (Mem ν K × Option (Ret ν)) := do
  let toplevel := s.toplevel headSlp
  let (s, v, retry) ← deleteSearch fuel key (toplevel + 1) s ⟨headSlp, none, none, .eq, fun _ => none⟩
  if retry then some (s, none)
  else match v.cur with
    | none => do
      let s ← s.unlockUpdate v.update toplevel
      some (s, some (.ptr none))
    | some slpCur =>
      if v.result ≠ .eq then do
        let s ← s.unlockUpdate v.update toplevel
        some (s, some (.ptr none))
      else if (List.range (s.toplevel slpCur + 1)).any fun level =>
          (v.update level).any fun slp => s.deleted slp || s.next slp level ≠ some slpCur then do
        let s ← s.unlockUpdate v.update (s.toplevel slpCur)
        some (s, none)
      else do
        let s ← s.lock slpCur
        let s := unlink v.update slpCur (s.toplevel slpCur + 1) s
        let s := { s with deleted := Function.update s.deleted slpCur true }
        let s ← s.unlockUpdate v.update (s.toplevel slpCur)
        let s ← s.unlock slpCur
        some (s, some (.ptr (some slpCur)))

/-- The first loop of `skiplist_insert_lock`, for the levels below `level`. -/
def insertSearch (fuel : ℕ) (key : K) (toplevel : ℕ) :
    ℕ → Mem ν K → ν → (ℕ → Option ν) → Option (Mem ν K × (ℕ → Option ν) × Bool)
  | 0, s, _, update => some (s, update, false)
  | level + 1, s, slp, update => do
    let (slp, slpNext, _) ← walk s key level fuel slp .lt
    let update' := Function.update update level (some slp)
    if level > toplevel then
      insertSearch fuel key toplevel level s slp (Function.update update level none)
    else if level = toplevel ∨ update' level ≠ update' (level + 1) then do
      let s ← s.lock slp
      if slpNext ≠ s.next slp level ∨ (level < s.toplevel slp ∧ level < toplevel ∧
          s.next slp level = s.next slp (level + 1)) then
        let s ← s.unlockUpdate (fun i => if i < level then none else update' i) toplevel
        some (s, update', true)
      else insertSearch fuel key toplevel level s slp update'
    else insertSearch fuel key toplevel level s slp update'

/-- What the second loop of `skiplist_insert_lock` finds on the levels that are left. -/
def insertStale (s : Mem ν K) (key : K) (update : ℕ → Option ν) : List ℕ → Option Bool
  | [] => some false
  | level :: ls => do
    let slp ← update level
    if s.deleted slp ∨ (s.next slp level).any fun q => s.slCmp q key = .lt then some true
    else insertStale s key update ls

/-- `skiplist_insert_lock` up to the next `goto retry`, which returns `none`: then `update` if the
locks are held, or `none` for -1. -/
def insertLock (fuel : ℕ) (s : Mem ν K) (headSlp : ν) (key : K) (toplevel : ℕ) :
    Option (Mem ν K × Option (Option (ℕ → Option ν))) := do
  let (s, update, retry) ←
    insertSearch fuel key toplevel (s.toplevel headSlp + 1) s headSlp fun _ => none
  if retry then some (s, none)
  else if ← insertStale s key update (List.range (toplevel + 1)) then do
    let s ← s.unlockUpdate update toplevel
    some (s, none)
  else do
    let slp ← update 0
    match s.next slp 0 with
    | none => some (s, some (some update))
    | some q =>
      if s.slCmp q key = .gt then some (s, some (some update))
      else do
        let s ← s.unlockUpdate update toplevel
        some (s, some none)

/-- `skiplist_insert` up to the next `goto retry`, which returns `none`. -/
def insertPass (fuel : ℕ) (s : Mem ν K) (new headSlp : ν) (key : K) (toplevel : ℕ) :
    Option (Mem ν K × Option (Ret ν)) := do
  match ← insertLock fuel s headSlp key toplevel with
  | (s, none) => some (s, none)
  | (s, some none) => some (s, some .eexist)
  | (s, some (some update)) =>
    let s ← (initNode s new headSlp toplevel).lock new
    let s ← linkLevels new update (List.range (toplevel + 1)) (clearAbove s new toplevel)
    let s ← s.unlockUpdate update toplevel
    let s ← s.unlock new
    some (s, some .ok)

/-- A pass is made again after `goto retry`. -/
def again (pass : Mem ν K → Option (Mem ν K × Option (Ret ν))) : ℕ → Mem ν K → Option (Mem ν K × Ret ν)
  | 0, _ => none
  | fuel + 1, s => do
    match ← pass s with
    | (s, some r) => some (s, r)
    | (s, none) => again pass fuel { s with retries := s.retries + 1 }

def delete (fuel : ℕ) (s : Mem ν K) (headSlp : ν) (key : K) : Option (Mem ν K × Ret ν) :=
  again (deletePass fuel · headSlp key) fuel s

def insert (fuel : ℕ) (s : Mem ν K) (new headSlp : ν) (key : K) (toplevel : ℕ) :
    Option (Mem ν K × Ret ν) :=
  again (insertPass fuel · new headSlp key toplevel) fuel s

end Fine

/-! ### `skiplist_glock.c` -/

namespace Global

/-- `sl_seq` is an `unsigned long`. -/
def nextSeq (s : Mem ν K) : Mem ν K := { s with seq := (s.seq + 1) % 2 ^ 64 }

def startWriter (s : Mem ν K) : Option (Mem ν K) :=
  let s := nextSeq s
  if s.seq % 2 = 0 then none else some s

def endWriter (s : Mem ν K) : Option (Mem ν K) :=
  let s := nextSeq s
  if s.seq % 2 = 0 then some s else none

/-- The first loop of `skiplist_delete`, for the levels below `level`. -/
def deleteSearch (fuel : ℕ) (key : K) (s : Mem ν K) :
    ℕ → ν → Ordering → (ℕ → Option ν) → Option (ν × (ℕ → Option ν))
  | 0, slp, _, update => some (slp, update)
  | level + 1, slp, result, update => do
    let (slp, _, result) ← walk s key level fuel slp result
    deleteSearch fuel key s level slp result
      (Function.update update level (if result ≠ .eq then none else some slp))

/-- The loop that unlinks `slp` on the levels below `level`. -/
def unlink (update : ℕ → Option ν) (slp : ν) : ℕ → Mem ν K → Option (Mem ν K)
  | 0, s => some s
  | level + 1, s =>
    match update level with
    | some p => unlink update slp level (s.setNext p level (s.next slp level))
    | none =>
      if level < s.toplevel slp ∧ update (level + 1) ≠ none then none
      else unlink update slp level s

def delete (fuel : ℕ) (s : Mem ν K) (headSlp : ν) (key : K) : Option (Mem ν K × Ret ν) := do
  let s ← s.lock headSlp
  let s ← startWriter s
  let (slp, update) ← deleteSearch fuel key s (s.toplevel headSlp + 1) headSlp .eq fun _ => none
  match s.next slp 0 with
  | none => do
    let s ← endWriter s
    let s ← s.unlock headSlp
    some (s, .ptr none)
  | some slp =>
    if s.slCmp slp key ≠ .eq then do
      let s ← endWriter s
      let s ← s.unlock headSlp
      some (s, .ptr none)
    else do
      let s ← unlink update slp (s.toplevel slp + 1) s
      if s.deleted slp then none
      else do
        let s ← endWriter { s with deleted := Function.update s.deleted slp true }
        let s ← s.unlock headSlp
        some (s, .ptr (some slp))

/-- The first loop of `skiplist_insert`, for the levels below `level`. -/
def insertSearch (fuel : ℕ) (key : K) (toplevel : ℕ) (s : Mem ν K) :
    ℕ → ν → (ℕ → Option ν) → Option (ν × (ℕ → Option ν))
  | 0, slp, update => some (slp, update)
  | level + 1, slp, update => do
    let (slp, _, _) ← walk s key level fuel slp .lt
    insertSearch fuel key toplevel s level slp
      (Function.update update level (if level > toplevel then none else some slp))

def insert (fuel : ℕ) (s : Mem ν K) (new headSlp : ν) (key : K) (toplevel : ℕ) :
    Option (Mem ν K × Ret ν) := do
  let s ← s.lock headSlp
  let (slp, update) ← insertSearch fuel key toplevel s (s.toplevel headSlp + 1) headSlp fun _ => none
  if (s.next slp 0).any fun q => s.slCmp q key = .eq then do
    let s ← s.unlock headSlp
    some (s, .eexist)
  else do
    let s ← linkLevels new update (List.range (toplevel + 1))
      (clearAbove (initNode s new headSlp toplevel) new toplevel)
    let s ← s.unlock headSlp
    some (s, .ok)

end Global

end Skip
end Perfbook
