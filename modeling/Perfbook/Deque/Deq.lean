/-
# The single deque of `SMPdesign`

`lockhdeq.c`, `locktdeq.c` and `lockrwdeq.c` build their parallel deques from
the same `struct deq`, a circular list with a head (liburcu's
`cds_list_head`): the left end is at the head's `prev`, the right end at its
`next`. Under a lock such a list is the list of its elements, here from left
to right. liburcu is not part of the repository: what its list functions do to
that list is taken from their documentation, and nobody else looks at the links
meanwhile. (Where others do, under a reader-writer lock, the functions are a
parameter: `CdsList` in `Deque/Rw.lean`.)

Key definitions: `deqPopL`, `deqPushL`, `deqPopR`, `deqPushR`, `listSplice`.
-/
import Mathlib.Data.List.Basic

namespace Perfbook
namespace Deque

variable {E : Type}

/-- `deq_pop_l`: `chain.prev`, unlinked, or `NULL` if the list is empty. -/
def deqPopL (d : List E) : Option E × List E := (d.head?, d.tail)

/-- `deq_push_l`: `cds_list_add_tail`. -/
def deqPushL (e : E) (d : List E) : List E := e :: d

/-- `deq_pop_r`: `chain.next`, unlinked, or `NULL` if the list is empty. -/
def deqPopR (d : List E) : Option E × List E := (d.getLast?, d.dropLast)

/-- `deq_push_r`: `cds_list_add`. -/
def deqPushR (e : E) (d : List E) : List E := d ++ [e]

/-- `cds_list_splice`: the elements of `add` go behind the head, to the right end. -/
def listSplice (add head : List E) : List E := head ++ add

end Deque
end Perfbook
