/-
# `skiplist_lookup_relaxed` among insertions and deletions

The threads of `skiplist.c` insert and delete, and a reader looks up a key. Each
of its looks at a link or at `sl_deleted` is a step.

`on` is history: a node is linked on a level from the store that links it there
to the one that unlinks it. So are `kept` and `met`: the nodes that were linked on
all their levels, and not deleted, ever since the lookup has started, and those
that were linked at some time since then.

Key definitions: `Reader`, `LSt`, `LSt.look`, `sys`, `Act.Fits`, `Returns`.
-/
import Perfbook.Skip.ParKeep

namespace Perfbook
namespace Skip
namespace Relaxed

open Par

/-- Where the lookup is, with the locals it still needs. -/
inductive Reader (ν K : Type)
  | idle
  /-- before `slp->sl_next[level]` in `skiplist_lookup_help` -/
  | walk (key : K) (level : ℕ) (slp : ν)
  /-- before `slp->sl_next[0]` in `skiplist_lookup_relaxed`; `next` was behind `slp` in the search -/
  | again (key : K) (slp : ν) (next : Option ν)
  /-- before `slp->sl_deleted` -/
  | deleted (key : K) (slp : ν)
  | returned (key : K) (r : Option ν)
deriving DecidableEq

structure LSt (n : ℕ) (ν K : Type) where
  par : St n ν K
  on : ν → ℕ → Bool
  reader : Reader ν K
  kept : ν → Bool
  met : ν → Bool

variable {n : ℕ} {ν K : Type} [DecidableEq ν] [LinearOrder K]

def setOn (on : ν → ℕ → Bool) (slp : ν) (level : ℕ) (b : Bool) : ν → ℕ → Bool :=
  Function.update on slp (Function.update (on slp) level b)

/-- What the next store of a thread links or unlinks. -/
def linksTo (on : ν → ℕ → Bool) : Loc ν K → ν → ℕ → Bool
  | .linkStore new _ level _ _ => setOn on new level true
  | .unlinkStore cur level _ _ _ => setOn on cur level false
  | _ => on

namespace LSt

variable (head : ν) (s : LSt n ν K)

/-- The node is linked on all its levels, and not deleted. -/
def whole (p : ν) : Bool := !s.par.deleted p && (List.range (s.par.toplevel p + 1)).all (s.on p)

def watch : LSt n ν K :=
  { s with kept := fun p => s.kept p && s.whole p, met := fun p => s.met p || s.on p 0 }

/-- A thread takes its next step. -/
def stepThread (t : Fin n) : Option (LSt n ν K) :=
  (Par.stepThread head s.par t).map fun par => { s with par, on := linksTo s.on (s.par.loc t) }.watch

/-- A thread starts an insertion or a deletion. -/
def start (t : Fin n) (c : Call ν K) : Option (LSt n ν K) :=
  match c with
  | .insert _ _ _ | .delete _ => (Par.start head s.par t c).map fun par => { s with par }
  | _ => none

/-- The lookup starts. -/
def lookup (key : K) : Option (LSt n ν K) :=
  match s.reader with
  | .idle | .returned _ _ =>
    some { s with
      reader := .walk key (s.par.toplevel head) head
      kept := s.whole
      met := fun p => s.on p 0 }
  | _ => none

/-- The lookup goes on. -/
def goto (r : Reader ν K) : LSt n ν K := { s with reader := r }

/-- After the last link of a level. -/
def down (key : K) (level : ℕ) (slp : ν) (next : Option ν) : Reader ν K :=
  match level with
  | 0 => .again key slp next
  | level + 1 => .walk key level slp

/-- The next step of the lookup. -/
def look : Option (LSt n ν K) :=
  match s.reader with
  | .idle | .returned _ _ => none
  | .walk key level slp =>
    match s.par.next slp level with
    | none => some (s.goto (down key level slp none))
    | some q => some (s.goto (if s.par.key q < key then .walk key level q else down key level slp (some q)))
  | .again key slp _ =>
    match s.par.next slp 0 with
    | none => some (s.goto (.returned key none))
    | some q => some (s.goto (if q = head then .returned key none else .deleted key q))
  | .deleted key slp =>
    some (s.goto (.returned key (if s.par.deleted slp = false ∧ s.par.key slp = key then some slp else none)))

end LSt

inductive Act (n : ℕ) (ν K : Type)
  | call (t : Fin n) (c : Call ν K)
  | step (t : Fin n)
  | lookup (key : K)
  | look

structure Init (head : ν) (s : LSt n ν K) : Prop where
  par : Par.Init head s.par
  on : ∀ p level, s.on p level = true ↔ p = head ∧ level < maxLevels
  reader : s.reader = .idle

def sys (n : ℕ) (ν K : Type) [DecidableEq ν] [LinearOrder K] (head : ν) : Conc.Sys (LSt n ν K) (Act n ν K) :=
  ⟨Init head, fun a s => match a with
    | .call t c => s.start head t c
    | .step t => s.stepThread head t
    | .lookup key => s.lookup head key
    | .look => s.look head⟩

/-- A deletion that is about to unlink a node has noted a node for each of its levels. -/
def NotesAll (s : St n ν K) (t : Fin n) : Prop :=
  match s.loc t with
  | .unlinkTop cur v => ∀ level < s.toplevel cur + 1, v.update level ≠ none
  | _ => True

instance (s : St n ν K) (t : Fin n) : Decidable (NotesAll s t) := by
  unfold NotesAll
  induction s.loc t using Loc.casesOn <;> infer_instance

/-- The second look at `slp->sl_next[0]` finds what the search has found there. -/
def SameLink (s : LSt n ν K) : Prop :=
  match s.reader with
  | .again _ slp next => s.par.next slp 0 = next
  | _ => True

instance (s : LSt n ν K) : Decidable (SameLink s) := by
  unfold SameLink
  split <;> infer_instance

/-- The deletions unlink nodes on all levels, and the link does not change between the two looks. -/
def Act.Fits : Act n ν K → LSt n ν K → Prop
  | .step t, s => NotesAll s.par t
  | .look, s => SameLink s
  | _, _ => True

instance : (a : Act n ν K) → (s : LSt n ν K) → Decidable (a.Fits s)
  | .call _ _, _ | .lookup _, _ => .isTrue trivial
  | .step t, s => inferInstanceAs (Decidable (NotesAll s.par t))
  | .look, s => inferInstanceAs (Decidable (SameLink s))

/-- **What a lookup returns**: the node with the key, when it was linked and not deleted from the start of
the lookup on, and `NULL`, when no node with the key was linked since then. -/
def Returns (head : ν) (s : LSt n ν K) : Prop :=
  ∀ key r, s.reader = .returned key r →
    (∀ x, x ≠ head → s.par.key x = key → s.kept x = true → r = some x) ∧
    ((∀ x, x ≠ head → s.met x = true → s.par.key x ≠ key) → r = none)

end Relaxed
end Skip
end Perfbook
