/-
# What holds in every run of `route_rcu.c`

What a lookup under way would find, if nothing were to change any more, is what the table has
answered at some instant since the call (`Look`), and it comes past entries only that are not
freed before it has left its section (`Safe`). A step changes this neither for the entry that
it adds, nor for the one that it unlinks, since `route_del` unlinks the first of its address.

Key definitions: `Safe`, `Look`, `LocInv`, `InvOf`, `Kept`.
Key theorems: `LocInv.step`, `Kept.look`, `Passed.keep`.
-/
import Perfbook.Conc.Finds
import Perfbook.Conc.Glimpse
import Perfbook.Conc.Lock
import Perfbook.Defer.RouteRcu

namespace Perfbook
namespace RouteRcu

open Conc Routes

variable {n : ℕ}

/-- The entry is not freed before `t` has left its section. -/
def Safe (m : Heap n) (t : Fin n) (a : ℕ) : Prop :=
  m.status a = .table ∨ (∃ u, m.status a = .removed u) ∨ m.status a = .queued ∧ m.wait a t = true

/-- The entry has the address. -/
def Heap.has (m : Heap n) (addr a : ℕ) : Bool := m.addr a == addr

/-- What `route_lookup` returns for the entry that it has found. -/
def Heap.value (m : Heap n) (r : Option ℕ) : ℤ := (r.map m.iface).getD ULONG_MAX

/-- A lookup that has come to the cell will return what it saw, unless something changes. -/
def Look (m : Heap n) (t : Fin n) (saw : ℤ → Prop) (addr : ℕ) (c : Cell) : Prop :=
  ∃ r, Finds Cell.entry .head m.links.next (m.has addr) (Safe m t) c r ∧ saw (m.value r)

/-- `route_del(addr)` has come past these entries. -/
def Passed (m : Heap n) (live : List ℕ) (addr : ℕ) (l₁ l₂ : List ℕ) : Prop :=
  live = l₁ ++ l₂ ∧ ∀ a ∈ l₁, m.addr a ≠ addr

/-- What is known of a thread from where it is. -/
def LocInv (m : Heap n) (live : List ℕ) (saw : ℤ → Prop) (t : Fin n) : Loc → Prop
  | .readNext addr (.entry rep) => m.addr rep ≠ addr ∧ Look m t saw addr (.entry rep)
  | .readAddr addr rep => Look m t saw addr (.entry rep)
  | .readIface _ rep => Safe m t rep ∧ saw (m.iface rep)
  | .readFreed _ rep ret => Safe m t rep ∧ saw ret
  | .readUnlock _ ret | .readRet _ ret => saw ret
  | .aborted => False
  | .addLock addr iface rep | .addLink addr iface rep =>
    m.status rep = .own t ∧ m.addr rep = addr ∧ m.iface rep = iface
  | .delNext addr c => ∃ l₁ l₂, Passed m live addr l₁ l₂ ∧ c = last Cell.entry .head l₁
  | .delAddr addr rep => ∃ l₁ l₂, Passed m live addr l₁ (rep :: l₂)
  | .delUnlink addr rep => (∃ l₁ l₂, Passed m live addr l₁ (rep :: l₂)) ∧ m.addr rep = addr
  | .delUnlock (some rep) | .callRcu rep => m.status rep = .removed t
  | _ => True

/-- The lock is held. -/
def locks : Loc → Bool
  | .addLink _ _ _ | .addUnlock | .delNext _ _ | .delAddr _ _ | .delUnlink _ _ | .delUnlock _ => true
  | _ => false

/-- The address that a lookup under way looks for. -/
def looks (l : Loc) : Option ℕ :=
  match pend l with
  | .called (.lookup addr) => some addr
  | _ => none

/-- The invariant: the entries of the list, and what the lookups under way saw. -/
structure InvOf (s : St n) (live : List ℕ) (saw : Fin n → ℤ → Prop) : Prop where
  ring : Ring Cell.entry .head s.links live
  table : ∀ a, a ∈ live ↔ s.status a = .table
  lock : LockedBy locks s.routelock s.loc
  freed : ∀ a, s.freed a = true → s.status a = .unused ∨ s.status a = .freeing
  now : ∀ t addr, looks (s.loc t) = some addr → saw t (answer (s.rows live) addr)
  loc : ∀ t, LocInv s.toHeap live (saw t) t (s.loc t)
  seen : Seen routes s.hist (fun t => pend (s.loc t)) saw (s.rows live)

/-- What a step leaves as it is for a thread that is at `l`. -/
structure Kept (m m' : Heap n) (u : Fin n) (l : Loc) : Prop where
  data : ∀ a, m.status a ≠ .unused → m'.addr a = m.addr a ∧ m'.iface a = m.iface a
  safe : l.reads = true → ∀ a, Safe m u a → Safe m' u a
  own : ∀ a, m.status a = .own u → m'.status a = .own u
  removed : ∀ a, m.status a = .removed u → m'.status a = .removed u

variable {m m' : Heap n} {s s' : St n} {live live' l₁ l₂ : List ℕ} {saw₁ saw₁' : ℤ → Prop}
  {saw saw' : Fin n → ℤ → Prop} {t u : Fin n} {l : Loc} {addr rep a : ℕ} {iface ret : ℤ} {c : Cell} {r : Option ℕ}
  {next : Cell → Cell}

theorem entry_injective : Function.Injective Cell.entry := fun _ _ => Cell.entry.inj

theorem entry_ne_head (a : ℕ) : Cell.entry a ≠ .head := nofun

/-- The list answers as the table does. -/
theorem value_find? (m : Heap n) (live : List ℕ) (addr : ℕ) :
    m.value (live.find? (m.has addr)) = answer (m.rows live) addr := by
  unfold answer Heap.rows Heap.value
  rw [List.find?_map, Option.map_map]
  rfl

theorem Safe.used (h : Safe m t a) : m.status a ≠ .unused := by
  intro hx
  unfold Safe at h
  rw [hx] at h
  rcases h with h | ⟨u, h⟩ | ⟨h, -⟩ <;> cases h

/-- The next entry of a search is safe. -/
theorem Look.safe (h : Look m t saw₁ addr (.entry a)) : Safe m t a := by
  obtain ⟨r, hr, -⟩ := h
  exact (hr.at_cell entry_injective entry_ne_head).1

section Step

variable (hk : Kept m m' u l)
include hk

/-- An entry that is found is safe, so it keeps its interface. -/
theorem Kept.value (hr : Finds Cell.entry .head next (m.has addr) (Safe m u) c r) :
    m'.value r = m.value r := by
  cases r with
  | none => rfl
  | some a => exact (hk.data a (hr.found rfl).1.used).2

theorem Kept.finds (hl : l.reads = true)
    (hr : Finds Cell.entry .head next (m.has addr) (Safe m u) c r) :
    Finds Cell.entry .head next (m'.has addr) (Safe m' u) c r :=
  hr.congr fun a ha => ⟨hk.safe hl a ha, by rw [Heap.has, Heap.has, (hk.data a ha.used).1], rfl⟩

theorem Kept.look (hl : l.reads = true) (hlinks : m'.links = m.links) (hsaw : ∀ v, saw₁ v → saw₁' v)
    (h : Look m u saw₁ addr c) : Look m' u saw₁' addr c := by
  obtain ⟨r, hr, hv⟩ := h
  exact ⟨r, hlinks ▸ hk.finds hl hr, hsaw _ (hk.value hr ▸ hv)⟩

variable (hlive : ∀ a ∈ live, m.status a ≠ .unused)

include hlive

theorem Passed.keep (h : Passed m live addr l₁ l₂) : Passed m' live addr l₁ l₂ :=
  ⟨h.1, fun a ha => by
    rw [(hk.data a (hlive a (h.1 ▸ List.mem_append_left _ ha))).1]
    exact h.2 a ha⟩

/-- **Another thread's step**, seen from where a thread is. -/
theorem LocInv.step (hsaw : ∀ v, saw₁ v → saw₁' v)
    (hlook : l.reads = true → ∀ addr c, looks l = some addr → Look m u saw₁ addr c → Look m' u saw₁' addr c)
    (hwalk : live' = live ∨ locks l = false) (h : LocInv m live saw₁ u l) : LocInv m' live' saw₁' u l := by
  cases l with
  | readNext addr c =>
    cases c with
    | head => trivial
    | entry rep =>
      obtain ⟨hne, hl⟩ := h
      refine ⟨?_, hlook rfl addr _ rfl hl⟩
      rwa [(hk.data rep hl.safe.used).1]
  | readAddr addr rep => exact hlook rfl addr _ rfl h
  | readIface addr rep =>
    obtain ⟨hs, hv⟩ := h
    exact ⟨hk.safe rfl rep hs, hsaw _ ((hk.data rep hs.used).2 ▸ hv)⟩
  | readFreed addr rep ret => exact ⟨hk.safe rfl rep h.1, hsaw _ h.2⟩
  | readUnlock addr ret | readRet addr ret => exact hsaw _ h
  | aborted => exact h
  | addLock addr iface rep | addLink addr iface rep =>
    obtain ⟨ho, ha, hi⟩ := h
    obtain ⟨ha', hi'⟩ := hk.data rep (by rw [ho]; nofun)
    exact ⟨hk.own rep ho, ha'.trans ha, hi'.trans hi⟩
  | delNext addr c =>
    obtain rfl := hwalk.resolve_right nofun
    obtain ⟨l₁, l₂, hp, hc⟩ := h
    exact ⟨l₁, l₂, hp.keep hk hlive, hc⟩
  | delAddr addr rep =>
    obtain rfl := hwalk.resolve_right nofun
    obtain ⟨l₁, l₂, hp⟩ := h
    exact ⟨l₁, l₂, hp.keep hk hlive⟩
  | delUnlink addr rep =>
    obtain rfl := hwalk.resolve_right nofun
    obtain ⟨⟨l₁, l₂, hp⟩, ha⟩ := h
    have hmem : rep ∈ live' := by simp [hp.1]
    exact ⟨⟨l₁, l₂, hp.keep hk hlive⟩, (hk.data rep (hlive rep hmem)).1.trans ha⟩
  | delUnlock rep =>
    cases rep with
    | none => trivial
    | some rep => exact hk.removed rep h
  | callRcu rep => exact hk.removed rep h
  | _ => trivial

end Step

/-! ### What the steps keep -/

section Heap

theorem Kept.refl (m : Heap n) (u : Fin n) (l : Loc) : Kept m m u l :=
  ⟨fun _ _ => ⟨rfl, rfl⟩, fun _ _ => id, fun _ => id, fun _ => id⟩

/-- The status of one entry changes. -/
theorem Kept.of_status {x : Status n} (hstatus : m'.status = Function.update m.status rep x)
    (hdata : ∀ a, m.status a ≠ .unused → m'.addr a = m.addr a ∧ m'.iface a = m.iface a)
    (hwait : l.reads = true → ∀ a, a ≠ rep → m.wait a u = true → m'.wait a u = true)
    (hsafe : l.reads = true → Safe m u rep → Safe m' u rep)
    (hown : m.status rep ≠ .own u) (hremoved : m.status rep ≠ .removed u) : Kept m m' u l where
  data := hdata
  safe hl a ha := by
    by_cases har : a = rep
    · rw [har] at ha ⊢
      exact hsafe hl ha
    · unfold Safe
      rw [hstatus, Function.update_of_ne har]
      exact ha.imp_right fun ha => ha.imp_right fun ha => ⟨ha.1, hwait hl a har ha.2⟩
  own a ha := by
    have har : a ≠ rep := fun hx => hown (hx ▸ ha)
    rw [hstatus, Function.update_of_ne har, ha]
  removed a ha := by
    have har : a ≠ rep := fun hx => hremoved (hx ▸ ha)
    rw [hstatus, Function.update_of_ne har, ha]

theorem Kept.alloc (hs : m.status rep = .unused) : Kept m (m.alloc t rep addr iface) u l := by
  refine .of_status rfl (fun a ha => ?_) (fun _ _ _ => id) (fun _ h => absurd hs h.used) (by rw [hs]; nofun)
    (by rw [hs]; nofun)
  have har : a ≠ rep := fun hx => ha (hx ▸ hs)
  exact ⟨Function.update_of_ne har .., Function.update_of_ne har ..⟩

theorem Kept.link (hs : m.status rep = .own t) (hu : u ≠ t) : Kept m (m.link rep) u l := by
  refine .of_status rfl (fun _ _ => ⟨rfl, rfl⟩) (fun _ _ _ => id)
    (fun _ _ => .inl (Function.update_self ..)) ?_ (by rw [hs]; nofun)
  rw [hs]
  exact fun hx => hu (Status.own.inj hx).symm

theorem Kept.unlink (hs : m.status rep = .table) : Kept m (m.unlink t rep) u l :=
  .of_status rfl (fun _ _ => ⟨rfl, rfl⟩) (fun _ _ _ => id)
    (fun _ _ => .inr (.inl ⟨t, Function.update_self ..⟩)) (by rw [hs]; nofun) (by rw [hs]; nofun)

/-- `call_rcu` waits for those that read. -/
theorem Kept.queue {reads : Fin n → Bool} (hs : m.status rep = .removed t) (hu : u ≠ t)
    (hreads : l.reads = true → reads u = true) : Kept m (m.queue rep reads) u l := by
  refine .of_status rfl (fun _ _ => ⟨rfl, rfl⟩) (fun _ a ha hw => ?_)
    (fun hl _ => .inr (.inr ⟨Function.update_self .., ?_⟩)) (by rw [hs]; nofun) ?_
  · show Function.update m.wait rep reads a u = true
    rwa [Function.update_of_ne ha]
  · show Function.update m.wait rep reads rep u = true
    rw [Function.update_self]
    exact hreads hl
  · rw [hs]
    exact fun hx => hu (Status.removed.inj hx).symm

theorem Kept.unlock (hu : u ≠ t) : Kept m (m.unlock t) u l where
  data _ _ := ⟨rfl, rfl⟩
  safe _ a ha := by
    refine ha.imp_right fun ha => ha.imp_right fun ha => ⟨ha.1, ?_⟩
    show Function.update (m.wait a) t false u = true
    rw [Function.update_of_ne hu]
    exact ha.2
  own _ := id
  removed _ := id

/-- What `route_cb` frees is not safe for anyone. -/
theorem Kept.mark (hs : m.status rep = .queued) (hw : ∀ u, m.wait rep u = false) : Kept m (m.mark rep) u l := by
  refine .of_status rfl (fun _ _ => ⟨rfl, rfl⟩) (fun _ _ _ => id) (fun _ h => ?_) (by rw [hs]; nofun)
    (by rw [hs]; nofun)
  unfold Safe at h
  rw [hs, hw] at h
  rcases h with h | ⟨v, h⟩ | ⟨-, h⟩ <;> cases h

theorem Kept.free (hs : m.status rep = .freeing) : Kept m (m.setStatus rep .unused) u l := by
  refine .of_status rfl (fun _ _ => ⟨rfl, rfl⟩) (fun _ _ _ => id) (fun _ h => ?_) (by rw [hs]; nofun)
    (by rw [hs]; nofun)
  unfold Safe at h
  rw [hs] at h
  rcases h with h | ⟨v, h⟩ | ⟨h, -⟩ <;> cases h

end Heap

end RouteRcu
end Perfbook
