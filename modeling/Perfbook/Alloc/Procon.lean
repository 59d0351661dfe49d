/-
# `datastruct/existence/procon.h`: a producer/consumer pool

One thread takes blocks from `pm_head` on, and leaves the last one there; or it takes
those that it has given back itself (`procon_unalloc`). Another thread frees blocks into
a local buffer, and when it is full links it behind the last block of the pool: it
exchanges `pm_tail`, and then stores to the link that this has designated.

Each access to `pm_head`, to `pm_tail` and to a link that both threads may use is a step. A
pointer to a block is in a `Link`. What memory that `pm_alloc` returns has in its link is
what `mem` has there (`calloc` has nothing there, see `Zeroed`). The statistics are left out.

`known`, `allocated` and `freed` are history: the blocks that `pm_alloc` has returned, those
that a user has, and those that were passed to `procon_free` and not handed out since. A
block is freed or unallocated by a user who has it, and users do not touch its link.

Key definitions: `Link`, `Alloc`, `Free`, `St`, `stepAlloc`, `stepFree`, `next`, `sys`, `OneOwner`, `WellFormed`.
-/
import Perfbook.Conc.Linked
import Perfbook.Conc.Sys

namespace Perfbook
namespace Procon

open Conc

def PROCON_MAX_BUF : ℕ := 128

/-- A `struct procon_mblock *` in memory. -/
inductive Link
  | pmHead
  | pmUnalloc
  | pbHead
  /-- `pm_next` of a block -/
  | next (b : ℕ)
deriving DecidableEq

/-- Where the allocating thread is in `procon_alloc`. -/
inductive Alloc
  | idle
  /-- before the test, with `pmbp = pm_head` -/
  | test (pmbp : Option ℕ)
  /-- before `pm_alloc()` -/
  | fresh
  /-- before `pmp->pm_unalloc != NULL` -/
  | out (pmbp : Option ℕ)
  /-- before `pm_head = next` -/
  | head (pmbp : ℕ) (next : Option ℕ)
  /-- before `pmbp->pm_next = NULL` and the return -/
  | clear (pmbp : ℕ)
deriving DecidableEq

/-- Where the freeing thread is in `procon_free`. -/
inductive Free
  | idle
  /-- before `__atomic_exchange_n` -/
  | exchange
  /-- before `*oldtail = pb_head` -/
  | link (oldtail : Link)
deriving DecidableEq

structure St where
  mem : Link → Option ℕ
  pmTail : Link
  pbTail : Option Link
  pbCount : ℕ
  alloc : Alloc
  free : Free
  known : ℕ → Bool
  allocated : ℕ → Bool
  freed : ℕ → Bool

inductive Act
  /-- a call of `procon_alloc` -/
  | alloc
  | stepAlloc
  /-- `pm_alloc` returns a block that is new, or `NULL` -/
  | pmAlloc (b : Option ℕ)
  | unalloc (b : ℕ)
  /-- a call of `procon_free` -/
  | free (b : ℕ)
  | stepFree
deriving DecidableEq

variable (s : St)

def setLink (l : Link) (v : Option ℕ) : Link → Option ℕ := Function.update s.mem l v

/-- `pmbp == NULL || pmbp->pm_next == NULL`. -/
def isLast : Option ℕ → Bool
  | none => true
  | some b => decide (s.mem (.next b) = none)

/-- The next step of `procon_alloc`. -/
def stepAlloc : Option St :=
  match s.alloc with
  | .test pmbp =>
    some { s with alloc := if isLast s pmbp = true ∧ s.mem .pmUnalloc = none then .fresh else .out pmbp }
  | .out pmbp =>
    match s.mem .pmUnalloc, pmbp with
    | some b, _ => some { s with mem := setLink s .pmUnalloc (s.mem (.next b)), alloc := .clear b }
    | none, some b => some { s with alloc := .head b (s.mem (.next b)) }
    | none, none => none
  | .head b next => some { s with mem := setLink s .pmHead next, alloc := .clear b }
  | .clear b =>
    some { s with
      mem := setLink s (.next b) none
      allocated := Function.update s.allocated b true
      freed := Function.update s.freed b false
      alloc := .idle }
  | _ => none

/-- The next step of `procon_free`. -/
def stepFree : Option St :=
  match s.free, s.pbTail with
  | .exchange, some tail => some { s with pmTail := tail, free := .link s.pmTail }
  | .link oldtail, _ =>
    some { s with
      mem := Function.update (setLink s oldtail (s.mem .pbHead)) .pbHead none
      pbTail := some .pbHead
      pbCount := 0
      free := .idle }
  | _, _ => none

def next : Act → Option St
  | .alloc => if s.alloc = .idle then some { s with alloc := .test (s.mem .pmHead) } else none
  | .stepAlloc => stepAlloc s
  | .pmAlloc b =>
    match s.alloc, b with
    | .fresh, none => some { s with alloc := .idle }
    | .fresh, some b =>
      if s.known b then none
      else some { s with
        known := Function.update s.known b true
        allocated := Function.update s.allocated b true
        alloc := .idle }
    | _, _ => none
  | .unalloc b =>
    if s.alloc = .idle ∧ s.allocated b = true then
      some { s with
        mem := Function.update (setLink s (.next b) (s.mem .pmUnalloc)) .pmUnalloc (some b)
        allocated := Function.update s.allocated b false }
    else none
  | .free b =>
    if s.free = .idle ∧ s.allocated b = true then
      some { s with
        mem := setLink s (s.pbTail.getD .pbHead) (some b)
        pbTail := some (.next b)
        pbCount := s.pbCount + 1
        free := if s.pbCount + 1 < PROCON_MAX_BUF then .idle else .exchange
        allocated := Function.update s.allocated b false
        freed := Function.update s.freed b true }
    else none
  | .stepFree => stepFree s

/-- After `procon_init`. -/
structure Init (s : St) : Prop where
  pmHead : s.mem .pmHead = none
  pmUnalloc : s.mem .pmUnalloc = none
  pbHead : s.mem .pbHead = none
  pmTail : s.pmTail = .pmHead
  pbTail : s.pbTail = none
  pbCount : s.pbCount = 0
  alloc : s.alloc = .idle
  free : s.free = .idle
  known : ∀ b, s.known b = false
  allocated : ∀ b, s.allocated b = false
  freed : ∀ b, s.freed b = false

/-- What `pm_alloc` returns is filled with zeros. -/
def Zeroed (s : St) : Prop := ∀ b, s.known b = false → s.mem (.next b) = none

def sys (init : St → Prop) : Sys St Act := ⟨fun s => Init s ∧ init s, fun a s => next s a⟩

/-- The block that `procon_alloc` is about to return. -/
def Alloc.taken : Alloc → List ℕ
  | .clear b => [b]
  | _ => []

/-- Where a link leads to. -/
def St.link (l : Link) : Option Link := (s.mem l).map .next

/-- The links of blocks. -/
def cells (l : List ℕ) : List Link := l.map .next

/-- **What is promised.** A block that no user has is at one place: it is published, in the buffer
(which is the chain that
is half published, in `.link`), unallocated, or about to be returned; and no other block is there. The chain from
`pm_head` comes to the link that `pm_tail` designates, and ends, unless a publication is half done. The block of that
link is not handed out, and no thread comes to a `NULL` pointer. -/
structure OneOwner (s : St) : Prop where
  places : ∃ pub buf un : List ℕ, (pub ++ buf ++ un ++ s.alloc.taken).Nodup ∧
    (∀ b, b ∈ pub ++ buf ++ un ++ s.alloc.taken ↔ s.known b = true ∧ s.allocated b = false) ∧
    Linked s.link .pmHead (cells pub) ∧ Through s.link .pbHead (cells buf) ∧ Linked s.link .pmUnalloc (cells un) ∧
    buf.length = s.pbCount ∧ s.pbCount ≤ PROCON_MAX_BUF ∧
    match s.free with
      | .link oldtail => oldtail = before .pmHead (cells pub) ∧ s.pmTail = before .pbHead (cells buf)
      | _ => s.pmTail = before .pmHead (cells pub)
  known : ∀ b, s.allocated b = true → s.known b = true
  last : ∀ b, s.pmTail = .next b → s.allocated b = false ∧ s.alloc ≠ .clear b
  runs : s.alloc ≠ .idle → s.alloc ≠ .fresh → (stepAlloc s).isSome = true
  frees : s.free ≠ .idle → (stepFree s).isSome = true

/-- **The pool** when no call frees a block: the chain from `pm_head` has blocks that were freed, and ends at the link
that `pm_tail` designates; and `procon_alloc` returns no block that a user has. -/
structure WellFormed (s : St) : Prop where
  pool : s.free = .idle → ∃ pub : List ℕ, Linked s.link .pmHead (cells pub) ∧ s.pmTail = before .pmHead (cells pub) ∧
    ∀ b ∈ pub, s.freed b = true ∧ s.allocated b = false
  clear : ∀ b, s.alloc = .clear b → s.known b = true ∧ s.allocated b = false

/-- One call at a time. -/
def OneCall (a : Act) (s : St) : Prop :=
  match a with
  | .free _ | .stepFree => s.alloc = .idle
  | _ => s.free = .idle

/-- The block that fills the buffer has nothing in its link. -/
def FillsWithNull (a : Act) (s : St) : Prop :=
  match a with
  | .free b => s.pbCount + 1 < PROCON_MAX_BUF ∨ s.mem (.next b) = none
  | _ => True

end Procon
end Perfbook
