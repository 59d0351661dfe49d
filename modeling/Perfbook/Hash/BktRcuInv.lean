/-
# What holds in every run of `hash_bkt_rcu.c`

What a lookup under way would find, if nothing were to change any more, is what the map has had
for its key at some instant since the call (`Look`), and it comes past elements of its bucket
only that are not freed before it has left its section (`Safe`). Each key is there once, since
`zoo_add` looks for it first, so the element that `zoo_del` unlinks is the first one of its key.

Key definitions: `Safe`, `Near`, `Look`, `LocInv`, `InvOf`, `Kept`.
Key theorems: `LocInv.step`, `Kept.look`, `Passed.keep`.
-/
import Perfbook.Conc.Finds
import Perfbook.Conc.Glimpse
import Perfbook.Conc.Lock
import Perfbook.Hash.BktRcu

namespace Perfbook
namespace Hash
namespace BktRcu

open Conc

variable {n : ℕ} {K : Type}

/-- The element was added, and it is not freed before `t` has left its section. -/
def Safe (m : Heap n K) (t : Fin n) (a : ℕ) : Prop :=
  (∃ u, m.status a = .table u) ∨ (∃ u, m.status a = .removed u) ∨ m.status a = .queued ∧ m.wait a t = true

variable [DecidableEq K] (htp : Hashtab K)

/-- It was added to this bucket. -/
def Near (m : Heap n K) (t : Fin n) (b a : ℕ) : Prop := Safe m t a ∧ htp.bkt (m.key a) = b

/-- The element has the key. -/
def Heap.has (m : Heap n K) (key : K) (a : ℕ) : Bool := m.key a == key

/-- A lookup that has come to the cell will return what it saw, unless something changes. -/
def Look (m : Heap n K) (t : Fin n) (saw : TableRes → Prop) (key : K) (c : Cell) : Prop :=
  ∃ r, Finds Cell.elem (.head (htp.bkt key)) m.links.next (m.has key) (Near htp m t (htp.bkt key)) c r ∧
    saw (.found r)

/-- `hashtab_lookup` under the lock has come past these elements. -/
def Passed (m : Heap n K) (live : ℕ → List ℕ) (key : K) (l₁ l₂ : List ℕ) : Prop :=
  live (htp.bkt key) = l₁ ++ l₂ ∧ ∀ a ∈ l₁, m.key a ≠ key

/-- What is known of a thread from where it is. -/
def LocInv (m : Heap n K) (live : ℕ → List ℕ) (saw : TableRes → Prop) (t : Fin n) : Loc K → Prop
  | .readNext key (.head b) => b = htp.bkt key
  | .readNext key (.elem htep) => m.key htep ≠ key ∧ Look htp m t saw key (.elem htep)
  | .readHash key htep | .readKey key htep => Look htp m t saw key (.elem htep)
  | .readCheck key htep | .readName key htep => m.key htep = key ∧ Safe m t htep ∧ saw (.found (some htep))
  | .readUnlock _ r | .readRet _ r => saw (.found r)
  | .aborted => False
  | .addLock key zhep => m.status zhep = .own t ∧ m.key zhep = key
  | .addNext key zhep c => (m.status zhep = .own t ∧ m.key zhep = key) ∧
    ∃ l₁ l₂, Passed htp m live key l₁ l₂ ∧ c = last Cell.elem (.head (htp.bkt key)) l₁
  | .addHash key zhep htep | .addKey key zhep htep => (m.status zhep = .own t ∧ m.key zhep = key) ∧
    ∃ l₁ l₂, Passed htp m live key l₁ (htep :: l₂)
  | .addStore key zhep => (m.status zhep = .own t ∧ m.key zhep = key) ∧ ∃ l₁, Passed htp m live key l₁ []
  | .addLink key zhep => (m.status zhep = .own t ∧ m.key zhep = key) ∧ (∃ l₁, Passed htp m live key l₁ []) ∧
    m.hteHash zhep = htp.hash key
  | .delLock key zhep | .delUnlink key zhep => m.status zhep = .table t ∧ m.key zhep = key
  | .delUnlock _ zhep | .deferDel zhep => m.status zhep = .removed t
  | _ => True

/-- The lock of this key's bucket is held. -/
def Loc.locked : Loc K → Option K
  | .addNext key _ _ | .addHash key _ _ | .addKey key _ _ | .addBug key | .addStore key _ | .addLink key _
  | .addUnlock key | .delUnlink key _ | .delUnlock key _ => some key
  | _ => none

/-- The bucket whose lock is held. -/
def held (l : Loc K) (b : ℕ) : Prop := ∃ key, l.locked = some key ∧ htp.bkt key = b

/-- The key that a lookup under way looks for. -/
def looks (l : Loc K) : Option K :=
  match pend l with
  | .called (.lookup key) => some key
  | _ => none

/-- The element was added. -/
def Status.added : Status n → Bool
  | .table _ | .removed _ | .queued => true
  | _ => false

/-- The invariant: the elements of the buckets, and what the lookups under way saw. -/
structure InvOf (s : St n K) (live : ℕ → List ℕ) (saw : Fin n → TableRes → Prop) : Prop where
  ring : ∀ b, Ring Cell.elem (.head b) s.links (live b)
  table : ∀ b a, a ∈ live b ↔ (∃ t, s.status a = .table t) ∧ htp.bkt (s.key a) = b
  once : ∀ a b t u, s.status a = .table t → s.status b = .table u → s.key a = s.key b → a = b
  hash : ∀ a, (s.status a).added = true → s.hteHash a = htp.hash (s.key a)
  lock : LocksBy True (held htp) s.lock s.loc
  now : ∀ t key, looks (s.loc t) = some key → saw t (.found (s.toHeap.lookup htp live key))
  loc : ∀ t, LocInv htp s.toHeap live (saw t) t (s.loc t)
  seen : Seen (BktRcu.table K) s.hist (fun t => pend (s.loc t)) saw (s.toHeap.lookup htp live)

/-- What a step leaves as it is for a thread that is at `l`. -/
structure Kept (m m' : Heap n K) (u : Fin n) (l : Loc K) : Prop where
  key : ∀ a, m.status a ≠ .unused → m'.key a = m.key a
  hash : ∀ a, Safe m u a ∨ m.status a = .own u → m'.hteHash a = m.hteHash a
  safe : l.reads = true → ∀ a, Safe m u a → Safe m' u a
  own : ∀ a, m.status a = .own u → m'.status a = .own u
  table : ∀ a, m.status a = .table u → m'.status a = .table u
  removed : ∀ a, m.status a = .removed u → m'.status a = .removed u

variable {m m' : Heap n K} {s s' : St n K} {live live' : ℕ → List ℕ} {l₁ l₂ : List ℕ} {saw₁ saw₁' : TableRes → Prop}
  {saw saw' : Fin n → TableRes → Prop} {t u : Fin n} {l : Loc K} {key : K} {zhep a b : ℕ} {c : Cell} {r : Option ℕ}
  {next : Cell → Cell}

theorem elem_injective : Function.Injective Cell.elem := fun _ _ => Cell.elem.inj

theorem elem_ne_head (b a : ℕ) : Cell.elem a ≠ .head b := nofun

omit [DecidableEq K] in
theorem Safe.used (h : Safe m t a) : m.status a ≠ .unused := by
  intro hx
  unfold Safe at h
  rw [hx] at h
  rcases h with ⟨u, h⟩ | ⟨u, h⟩ | ⟨h, -⟩ <;> cases h

omit [DecidableEq K] in
theorem Safe.added (h : Safe m t a) : (m.status a).added = true := by
  rcases h with ⟨u, h⟩ | ⟨u, h⟩ | ⟨h, -⟩ <;> rw [h] <;> rfl

variable {htp}

/-- The next element of a search is safe. -/
theorem Look.near (h : Look htp m t saw₁ key (.elem a)) : Near htp m t (htp.bkt key) a := by
  obtain ⟨r, hr, -⟩ := h
  exact (hr.at_cell elem_injective (elem_ne_head _)).1

section Step

variable (hk : Kept m m' u l)
include hk

theorem Kept.finds (hl : l.reads = true)
    (hr : Finds Cell.elem (.head b) next (m.has key) (Near htp m u b) c r) :
    Finds Cell.elem (.head b) next (m'.has key) (Near htp m' u b) c r :=
  hr.congr fun a ha => by
    have hkey := hk.key a ha.1.used
    exact ⟨⟨hk.safe hl a ha.1, hkey ▸ ha.2⟩, by rw [Heap.has, Heap.has, hkey], rfl⟩

theorem Kept.look (hl : l.reads = true) (hsaw : ∀ r, saw₁ r → saw₁' r)
    (hlinks : ∀ a, Near htp m u (htp.bkt key) a → m'.links.next (.elem a) = m.links.next (.elem a))
    (h : Look htp m u saw₁ key c) : Look htp m' u saw₁' key c := by
  obtain ⟨r, hr, hv⟩ := h
  exact ⟨r, hk.finds hl (hr.congr fun a ha => ⟨ha, rfl, hlinks a ha⟩), hsaw _ hv⟩

variable (hlive : ∀ b, ∀ a ∈ live b, ∃ v, m.status a = .table v)

omit hk [DecidableEq K] in
include hlive in
theorem used_of_live (ha : a ∈ live b) : m.status a ≠ .unused := by
  obtain ⟨v, hv⟩ := hlive b a ha
  rw [hv]
  nofun

include hlive

omit [DecidableEq K] in
theorem Passed.keep (hb : live' (htp.bkt key) = live (htp.bkt key)) (h : Passed htp m live key l₁ l₂) :
    Passed htp m' live' key l₁ l₂ :=
  ⟨hb.trans h.1, fun a ha => by
    rw [hk.key a (used_of_live hlive (h.1 ▸ List.mem_append_left _ ha))]
    exact h.2 a ha⟩

omit hlive [DecidableEq K] in
theorem Kept.added (h : m.status zhep = .own u ∧ m.key zhep = key) : m'.status zhep = .own u ∧ m'.key zhep = key :=
  ⟨hk.own zhep h.1, (hk.key zhep (by rw [h.1]; nofun)).trans h.2⟩

/-- **Another thread's step**, seen from where a thread is. -/
theorem LocInv.step (hsaw : ∀ r, saw₁ r → saw₁' r)
    (hlook : l.reads = true → ∀ key c, looks l = some key → Look htp m u saw₁ key c → Look htp m' u saw₁' key c)
    (hwalk : ∀ key, l.locked = some key → live' (htp.bkt key) = live (htp.bkt key))
    (h : LocInv htp m live saw₁ u l) : LocInv htp m' live' saw₁' u l := by
  cases l with
  | readNext key c =>
    cases c with
    | head b => exact h
    | elem htep =>
      obtain ⟨hne, hl⟩ := h
      refine ⟨?_, hlook rfl key _ rfl hl⟩
      rwa [hk.key htep hl.near.1.used]
  | readHash key htep | readKey key htep => exact hlook rfl key _ rfl h
  | readCheck key htep | readName key htep =>
    obtain ⟨hkey, hs, hv⟩ := h
    exact ⟨(hk.key htep hs.used).trans hkey, hk.safe rfl htep hs, hsaw _ hv⟩
  | readUnlock key r | readRet key r => exact hsaw _ h
  | aborted => exact h
  | addLock key zhep => exact hk.added h
  | addNext key zhep c =>
    obtain ⟨ho, l₁, l₂, hp, hc⟩ := h
    exact ⟨hk.added ho, l₁, l₂, hp.keep hk hlive (hwalk key rfl), hc⟩
  | addHash key zhep htep | addKey key zhep htep =>
    obtain ⟨ho, l₁, l₂, hp⟩ := h
    exact ⟨hk.added ho, l₁, l₂, hp.keep hk hlive (hwalk key rfl)⟩
  | addStore key zhep =>
    obtain ⟨ho, l₁, hp⟩ := h
    exact ⟨hk.added ho, l₁, hp.keep hk hlive (hwalk key rfl)⟩
  | addLink key zhep =>
    obtain ⟨ho, ⟨l₁, hp⟩, hx⟩ := h
    exact ⟨hk.added ho, ⟨l₁, hp.keep hk hlive (hwalk key rfl)⟩, (hk.hash zhep (.inr ho.1)).trans hx⟩
  | delLock key zhep | delUnlink key zhep =>
    obtain ⟨hs, hkey⟩ := h
    exact ⟨hk.table zhep hs, (hk.key zhep (by rw [hs]; nofun)).trans hkey⟩
  | delUnlock key zhep | deferDel zhep => exact hk.removed zhep h
  | _ => trivial

end Step

/-! ### What the steps keep -/

section Heap

omit [DecidableEq K]

theorem Kept.refl (m : Heap n K) (u : Fin n) (l : Loc K) : Kept m m u l :=
  ⟨fun _ _ => rfl, fun _ _ => rfl, fun _ _ => id, fun _ => id, fun _ => id, fun _ => id⟩

/-- The status of one element changes. -/
theorem Kept.of_status {x : Status n} (hstatus : m'.status = Function.update m.status zhep x)
    (hkey : ∀ a, m.status a ≠ .unused → m'.key a = m.key a) (hhash : m'.hteHash = m.hteHash)
    (hwait : l.reads = true → ∀ a, a ≠ zhep → m.wait a u = true → m'.wait a u = true)
    (hsafe : l.reads = true → Safe m u zhep → Safe m' u zhep)
    (hown : m.status zhep ≠ .own u) (htable : m.status zhep ≠ .table u)
    (hremoved : m.status zhep ≠ .removed u) : Kept m m' u l where
  key := hkey
  hash a _ := by rw [hhash]
  safe hl a ha := by
    by_cases haz : a = zhep
    · rw [haz] at ha ⊢
      exact hsafe hl ha
    · unfold Safe
      rw [hstatus, Function.update_of_ne haz]
      exact ha.imp_right fun ha => ha.imp_right fun ha => ⟨ha.1, hwait hl a haz ha.2⟩
  own a ha := by
    have haz : a ≠ zhep := fun hx => hown (hx ▸ ha)
    rw [hstatus, Function.update_of_ne haz, ha]
  table a ha := by
    have haz : a ≠ zhep := fun hx => htable (hx ▸ ha)
    rw [hstatus, Function.update_of_ne haz, ha]
  removed a ha := by
    have haz : a ≠ zhep := fun hx => hremoved (hx ▸ ha)
    rw [hstatus, Function.update_of_ne haz, ha]

theorem Kept.alloc (hs : m.status zhep = .unused) : Kept m (m.alloc t zhep key) u l := by
  refine .of_status rfl (fun a ha => ?_) rfl (fun _ _ _ => id) (fun _ h => absurd hs h.used) (by rw [hs]; nofun)
    (by rw [hs]; nofun) (by rw [hs]; nofun)
  have haz : a ≠ zhep := fun hx => ha (hx ▸ hs)
  exact Function.update_of_ne haz ..

/-- `hte_hash` is stored before the element is linked. -/
theorem Kept.setHash {hash : ℕ} (hs : m.status zhep = .own t) (hu : u ≠ t) : Kept m (m.setHash zhep hash) u l where
  key _ _ := rfl
  hash a ha := by
    have haz : a ≠ zhep := by
      rintro rfl
      unfold Safe at ha
      rw [hs] at ha
      rcases ha with (⟨v, ha⟩ | ⟨v, ha⟩ | ⟨ha, -⟩) | ha
      · cases ha
      · cases ha
      · cases ha
      · exact hu (Status.own.inj ha).symm
    exact Function.update_of_ne haz ..
  safe _ _ := id
  own _ := id
  table _ := id
  removed _ := id

theorem Kept.link (hs : m.status zhep = .own t) (hu : u ≠ t) : Kept m (m.link t b zhep) u l := by
  refine .of_status rfl (fun _ _ => rfl) rfl (fun _ _ _ => id) (fun _ _ => .inl ⟨t, Function.update_self ..⟩) ?_
    (by rw [hs]; nofun) (by rw [hs]; nofun)
  rw [hs]
  exact fun hx => hu (Status.own.inj hx).symm

theorem Kept.unlink (hs : m.status zhep = .table t) (hu : u ≠ t) : Kept m (m.unlink t zhep) u l := by
  refine .of_status rfl (fun _ _ => rfl) rfl (fun _ _ _ => id) (fun _ _ => .inr (.inl ⟨t, Function.update_self ..⟩))
    (by rw [hs]; nofun) ?_ (by rw [hs]; nofun)
  rw [hs]
  exact fun hx => hu (Status.table.inj hx).symm

/-- `call_rcu` waits for those that read. -/
theorem Kept.queue {reads : Fin n → Bool} (hs : m.status zhep = .removed t) (hu : u ≠ t)
    (hreads : l.reads = true → reads u = true) : Kept m (m.queue zhep reads) u l := by
  refine .of_status rfl (fun _ _ => rfl) rfl (fun _ a ha hw => ?_)
    (fun hl _ => .inr (.inr ⟨Function.update_self .., ?_⟩)) (by rw [hs]; nofun) (by rw [hs]; nofun) ?_
  · show Function.update m.wait zhep reads a u = true
    rwa [Function.update_of_ne ha]
  · show Function.update m.wait zhep reads zhep u = true
    rw [Function.update_self]
    exact hreads hl
  · rw [hs]
    exact fun hx => hu (Status.removed.inj hx).symm

theorem Kept.unlock (hu : u ≠ t) : Kept m (m.unlock t) u l where
  key _ _ := rfl
  hash _ _ := rfl
  safe _ a ha := by
    refine ha.imp_right fun ha => ha.imp_right fun ha => ⟨ha.1, ?_⟩
    show Function.update (m.wait a) t false u = true
    rw [Function.update_of_ne hu]
    exact ha.2
  own _ := id
  table _ := id
  removed _ := id

/-- What the callback frees is not safe for anyone. -/
theorem Kept.free (hs : m.status zhep = .queued) (hw : ∀ u, m.wait zhep u = false) :
    Kept m (m.setStatus zhep .unused) u l := by
  refine .of_status rfl (fun _ _ => rfl) rfl (fun _ _ _ => id) (fun _ h => ?_) (by rw [hs]; nofun)
    (by rw [hs]; nofun) (by rw [hs]; nofun)
  unfold Safe at h
  rw [hs, hw] at h
  rcases h with ⟨v, h⟩ | ⟨v, h⟩ | ⟨-, h⟩ <;> cases h

end Heap

end BktRcu
end Hash
end Perfbook
