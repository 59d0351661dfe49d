/-
# What holds in every run of `route_seqlock.c`

While `seq` is the number that a lookup has taken, it is even, so no write section runs, and the
lookup walks over entries of the table that stay as they are (`Reads`). As soon as it is not, the
lookup may be anywhere, and what it finds is thrown away. What `route_add` and `route_del` do with
an entry outside of the section is not seen by the others.

Key definitions: `Reads`, `Passed`, `LocInv`, `InvOf`, `Kept`.
Key theorems: `LocInv.step`, `InvOf.of_step`.
-/
import Perfbook.Conc.Lock
import Perfbook.Defer.RouteSeqlock

namespace Perfbook
namespace RouteSeqlock

open Conc Routes

variable {n : ℕ}

/-- A lookup that has taken `k`: as long as `seq` is `k`, this holds. -/
def Reads (seq k : ℕ) (P : Prop) : Prop := k ≤ seq ∧ k % 2 = 0 ∧ (seq = k → P)

/-- The entries before `l₂` have other addresses. -/
def Passed (m : Heap n) (q : List Cell) (addr : ℕ) (l₁ l₂ : List Cell) : Prop :=
  q = l₁ ++ l₂ ∧ ∀ c ∈ l₁, m.addr c ≠ addr

/-- The entry is the one of this `route_add`. -/
def Owned (m : Heap n) (t : Fin n) (addr : ℕ) (iface : ℤ) (rep : Cell) : Prop :=
  m.status rep = .own t ∧ m.addr rep = addr ∧ m.iface rep = iface

/-- The entries that `route_clear` has still to free. -/
def Rest (m : Heap n) (t : Fin n) (rep : Option Cell) (l : List Cell) : Prop :=
  l.head? = rep ∧ l.Nodup ∧ (∀ c ∈ l, m.status c = .removed t) ∧ ∀ c l', l = c :: l' → Linked m.next c l'

def Update.Ready (m : Heap n) (t : Fin n) : Update → Prop
  | .add addr iface rep => Owned m t addr iface rep
  | _ => True

def After.Ready (m : Heap n) (t : Fin n) : After → Prop
  | .mark rep => m.status rep = .removed t
  | .ret _ => True

/-- What is known of a thread from where it is. -/
def LocInv (m : Heap n) (seq : ℕ) (q : List Cell) (t : Fin n) : Loc → Prop
  | .load addr k repp => Reads seq k (∃ l₁ l₂, Passed m q addr l₁ l₂ ∧ repp = before .head l₁)
  | .readAddr addr k rep => Reads seq k (∃ l₁ l₂, Passed m q addr l₁ (rep :: l₂))
  | .readFreed addr k rep | .readIface addr k rep =>
    Reads seq k ((∃ l₁ l₂, Passed m q addr l₁ (rep :: l₂)) ∧ m.addr rep = addr)
  | .retry addr k ret => Reads seq k (ret = answer (m.rows q) addr)
  | .aborted _ k => k < seq
  | .lock k => k.Ready m t
  | .lockRead k => seq % 2 = 0 ∧ k.Ready m t
  | .lockStore k s => seq = s ∧ seq % 2 = 0 ∧ k.Ready m t
  | .addLoad addr iface rep => Owned m t addr iface rep
  | .addStore addr iface rep x => Owned m t addr iface rep ∧ x = m.next .head
  | .addLink addr iface rep => Owned m t addr iface rep ∧ m.next rep = m.next .head
  | .delLoad addr repp => ∃ l₁ l₂, Passed m q addr l₁ l₂ ∧ repp = before .head l₁
  | .delAddr addr repp rep => ∃ l₁ l₂, Passed m q addr l₁ (rep :: l₂) ∧ repp = before .head l₁
  | .delRead addr repp rep => (∃ l₁ l₂, Passed m q addr l₁ (rep :: l₂) ∧ repp = before .head l₁) ∧ m.addr rep = addr
  | .unlink addr repp rep x => (∃ l₁ l₂, Passed m q addr l₁ (rep :: l₂) ∧ repp = before .head l₁) ∧
    m.addr rep = addr ∧ x = m.next rep
  | .clearStore rep => rep = m.next .head
  | .clearLoop rep => ∃ l, Rest m t rep l
  | .clearFree rep rep1 => ∃ l, Rest m t (some rep) (rep :: l) ∧ l.head? = rep1
  | .unlockRead k => k.Ready m t
  | .unlockStore k s => seq = s ∧ k.Ready m t
  | .unlock k => seq % 2 = 0 ∧ k.Ready m t
  | .mark rep | .free rep => m.status rep = .removed t
  | _ => True

/-- A write section runs. -/
def writes : Loc → Bool
  | .addLoad _ _ _ | .addStore _ _ _ _ | .addLink _ _ _ | .delLoad _ _ | .delAddr _ _ _ | .delRead _ _ _
  | .unlink _ _ _ _ | .clearLoad | .clearStore _ | .clearLoop _ | .clearFree _ _ | .unlockRead _
  | .unlockStore _ _ => true
  | _ => false

/-- The lock is held. -/
def locks : Loc → Bool
  | .lockRead _ | .lockStore _ _ | .unlock _ => true
  | l => writes l

/-- The invariant, with the entries of the list. -/
structure InvOf (s : St n) (q : List Cell) : Prop where
  path : Linked s.next .head q
  nodup : (Cell.head :: q).Nodup
  table : ∀ c, c ∈ q ↔ s.status c = .table
  head : s.status .head = .unused
  freed : ∀ c, s.status c = .table ∨ (∃ t, s.status c = .own t) → s.freed c = false
  lock : LockedBy locks s.lock s.loc
  even : s.lock = none → s.seq % 2 = 0
  odd : ∀ t, writes (s.loc t) = true → s.seq % 2 = 1
  loc : ∀ t, LocInv s.toHeap s.seq q t (s.loc t)
  lin : ∃ S, Lin routes s.hist S (fun t => pend (s.loc t)) (s.rows q)

/-- The entry is as it was. -/
structure Same (m m' : Heap n) (c : Cell) : Prop where
  next : m'.next c = m.next c
  addr : m'.addr c = m.addr c
  iface : m'.iface c = m.iface c
  status : m'.status c = m.status c

/-- What a step of another thread leaves as it is for a thread that is at `l`: the entries that
the thread owns, and the table or else no lookup can succeed. -/
structure Kept (m m' : Heap n) (seq seq' : ℕ) (q q' : List Cell) (u : Fin n) (l : Loc) : Prop where
  mine : ∀ c, m.status c = .own u ∨ m.status c = .removed u → Same m m' c
  table : (seq' = seq ∧ q' = q ∧ ∀ c ∈ Cell.head :: q, Same m m' c) ∨
    (seq ≤ seq' ∧ locks l = false ∧ ∀ k, k % 2 = 0 → k ≤ seq → seq' ≠ k)

variable {m m' : Heap n} {s s' : St n} {seq seq' k : ℕ} {q q' l₁ l₂ : List Cell} {t u : Fin n} {l : Loc} {addr : ℕ}
  {iface : ℤ} {rep c : Cell} {x o : Option Cell} {P P' : Prop} {L : List Cell}

theorem locks_of_writes (h : writes l = true) : locks l = true := by
  cases l <;> first | exact h | cases h

theorem Same.refl (m : Heap n) (c : Cell) : Same m m c := ⟨rfl, rfl, rfl, rfl⟩

theorem Passed.rows_ne (h : Passed m q addr l₁ l₂) : ∀ x ∈ m.rows l₁, x.1 ≠ addr := by
  intro x hx
  obtain ⟨c, hc, rfl⟩ := List.mem_map.mp hx
  exact h.2 c hc

theorem rows_append (m : Heap n) (l₁ l₂ : List Cell) : m.rows (l₁ ++ l₂) = m.rows l₁ ++ m.rows l₂ := List.map_append

theorem rows_cons (m : Heap n) (c : Cell) (l : List Cell) : m.rows (c :: l) = (m.addr c, m.iface c) :: m.rows l := rfl

/-- The first entry of the address is the answer. -/
theorem Passed.answer (h : Passed m q addr l₁ (rep :: l₂)) (ha : m.addr rep = addr) :
    m.iface rep = answer (m.rows q) addr := by
  rw [h.1, rows_append, answer_append h.rows_ne, rows_cons, ha, answer_cons]

theorem Passed.no_answer (h : Passed m q addr l₁ []) : ULONG_MAX = Routes.answer (m.rows q) addr := by
  rw [h.1, rows_append, answer_append h.rows_ne]
  rfl

theorem rows_same (h : ∀ c ∈ Cell.head :: q, Same m m' c) : m'.rows q = m.rows q :=
  List.map_congr_left fun c hc => by
    have := h c (List.mem_cons_of_mem _ hc)
    rw [this.addr, this.iface]

theorem Passed.same (hs : ∀ c ∈ Cell.head :: q, Same m m' c) (h : Passed m q addr l₁ l₂) : Passed m' q addr l₁ l₂ :=
  ⟨h.1, fun c hc => by
    rw [(hs c (List.mem_cons_of_mem _ (h.1 ▸ List.mem_append_left _ hc))).addr]
    exact h.2 c hc⟩

theorem Passed.mem (h : Passed m q addr l₁ (rep :: l₂)) : rep ∈ q := by
  rw [h.1]
  simp

section Step

variable (hk : Kept m m' seq seq' q q' u l)
include hk

/-- What a lookup knows while its number is current is kept, or the number is not current any more. -/
theorem Kept.reads (h : Reads seq k P) (hP : (∀ c ∈ Cell.head :: q, Same m m' c) → q' = q → P → P') :
    Reads seq' k P' := by
  obtain ⟨hle, heven, hp⟩ := h
  rcases hk.table with ⟨hseq, hq, hs⟩ | ⟨hseq, -, hne⟩
  · exact ⟨hseq ▸ hle, heven, fun he => hP hs hq (hp (hseq ▸ he))⟩
  · exact ⟨hle.trans hseq, heven, fun he => absurd he (hne k heven hle)⟩

theorem Kept.held (hl : locks l = true) : seq' = seq ∧ q' = q ∧ ∀ c ∈ Cell.head :: q, Same m m' c :=
  hk.table.resolve_right fun h => by
    rw [hl] at h
    exact Bool.false_ne_true h.2.1.symm

theorem Kept.owned (h : Owned m u addr iface rep) : Owned m' u addr iface rep := by
  have hs := hk.mine rep (.inl h.1)
  exact ⟨hs.status.trans h.1, hs.addr.trans h.2.1, hs.iface.trans h.2.2⟩

theorem Kept.removed (h : m.status rep = .removed u) : m'.status rep = .removed u :=
  (hk.mine rep (.inr h)).status.trans h

theorem Kept.rest (h : Rest m u o L) : Rest m' u o L := by
  obtain ⟨hhead, hnd, hs, hlink⟩ := h
  refine ⟨hhead, hnd, fun c hc => hk.removed (hs c hc), fun c l' hl => ?_⟩
  exact (hlink c l' hl).congr fun c' hc => (hk.mine c' (.inr (hs c' (hl ▸ hc)))).next

theorem Kept.update {k : Update} (h : k.Ready m u) : k.Ready m' u := by
  cases k with
  | add addr iface rep => exact hk.owned h
  | _ => trivial

theorem Kept.after {k : After} (h : k.Ready m u) : k.Ready m' u := by
  cases k with
  | mark rep => exact hk.removed h
  | ret v => trivial

/-- **Another thread's step**, seen from where a thread is. -/
theorem LocInv.step (h : LocInv m seq q u l) : LocInv m' seq' q' u l := by
  cases l with
  | load addr k repp =>
    refine hk.reads h fun hs hq hp => ?_
    obtain ⟨l₁, l₂, hp, hc⟩ := hp
    exact ⟨l₁, l₂, hq ▸ hp.same hs, hc⟩
  | readAddr addr k rep =>
    refine hk.reads h fun hs hq hp => ?_
    obtain ⟨l₁, l₂, hp⟩ := hp
    exact ⟨l₁, l₂, hq ▸ hp.same hs⟩
  | readFreed addr k rep | readIface addr k rep =>
    refine hk.reads h fun hs hq hp => ?_
    obtain ⟨⟨l₁, l₂, hp⟩, ha⟩ := hp
    exact ⟨⟨l₁, l₂, hq ▸ hp.same hs⟩, (hs rep (List.mem_cons_of_mem _ hp.mem)).addr.trans ha⟩
  | retry addr k ret =>
    refine hk.reads h fun hs hq hp => ?_
    rw [hq, rows_same hs]
    exact hp
  | aborted addr k =>
    rcases hk.table with ⟨hseq, -, -⟩ | ⟨hseq, -, -⟩
    · exact hseq ▸ h
    · exact Nat.lt_of_lt_of_le h hseq
  | lock k => exact hk.update h
  | lockRead k => exact ⟨(hk.held rfl).1 ▸ h.1, hk.update h.2⟩
  | lockStore k s => exact ⟨(hk.held rfl).1.trans h.1, (hk.held rfl).1 ▸ h.2.1, hk.update h.2.2⟩
  | addLoad addr iface rep => exact hk.owned h
  | addStore addr iface rep x =>
    exact ⟨hk.owned h.1, h.2.trans ((hk.held rfl).2.2 _ List.mem_cons_self).next.symm⟩
  | addLink addr iface rep =>
    exact ⟨hk.owned h.1, (hk.mine rep (.inl h.1.1)).next.trans
      (h.2.trans ((hk.held rfl).2.2 _ List.mem_cons_self).next.symm)⟩
  | delLoad addr repp | delAddr addr repp rep =>
    obtain ⟨-, hq, hs⟩ := hk.held rfl
    obtain ⟨l₁, l₂, hp, hc⟩ := h
    exact ⟨l₁, l₂, hq ▸ hp.same hs, hc⟩
  | delRead addr repp rep =>
    obtain ⟨-, hq, hs⟩ := hk.held rfl
    obtain ⟨⟨l₁, l₂, hp, hc⟩, ha⟩ := h
    exact ⟨⟨l₁, l₂, hq ▸ hp.same hs, hc⟩, (hs rep (List.mem_cons_of_mem _ hp.mem)).addr.trans ha⟩
  | unlink addr repp rep x =>
    obtain ⟨-, hq, hs⟩ := hk.held rfl
    obtain ⟨⟨l₁, l₂, hp, hc⟩, ha, hx⟩ := h
    have hrep := hs rep (List.mem_cons_of_mem _ hp.mem)
    exact ⟨⟨l₁, l₂, hq ▸ hp.same hs, hc⟩, hrep.addr.trans ha, hx.trans hrep.next.symm⟩
  | clearStore rep => exact h.trans ((hk.held rfl).2.2 _ List.mem_cons_self).next.symm
  | clearLoop rep =>
    obtain ⟨L, h⟩ := h
    exact ⟨L, hk.rest h⟩
  | clearFree rep rep1 =>
    obtain ⟨L, h, h1⟩ := h
    exact ⟨L, hk.rest h, h1⟩
  | unlockRead k => exact hk.after h
  | unlockStore k s => exact ⟨(hk.held rfl).1.trans h.1, hk.after h.2⟩
  | unlock k => exact ⟨(hk.held rfl).1 ▸ h.1, hk.after h.2⟩
  | mark rep | free rep => exact hk.removed h
  | _ => trivial

end Step

/-- Entries change that are nobody else's. -/
theorem Kept.aside (hs : ∀ c, Same m m' c ∨ c ∉ Cell.head :: q ∧ m.status c ≠ .own u ∧ m.status c ≠ .removed u) :
    Kept m m' seq seq q q u l where
  mine c hc := (hs c).resolve_right fun h => hc.elim h.2.1 h.2.2
  table := .inl ⟨rfl, rfl, fun c hc => (hs c).resolve_right fun h => h.1 hc⟩

namespace InvOf

variable (h : InvOf s q)
include h

theorem not_mem (hc : s.status c ≠ .table) (hh : c ≠ .head) : c ∉ Cell.head :: q := fun hm =>
  (List.mem_cons.mp hm).elim hh fun hm => hc ((h.table c).mp hm)

theorem ne_head (hc : s.status c ≠ .unused) : c ≠ .head := by
  rintro rfl
  exact hc h.head

/-- A thread takes a step, and the others are kept. -/
theorem of_step (hloc : s'.loc = Function.update s.loc t l) (hpath : Linked s'.next .head q')
    (hnodup : (Cell.head :: q').Nodup) (htable : ∀ c, c ∈ q' ↔ s'.status c = .table)
    (hhead : s'.status .head = .unused)
    (hfreed : ∀ c, s'.status c = .table ∨ (∃ t, s'.status c = .own t) → s'.freed c = false)
    (hlock : LockedBy locks s'.lock s'.loc) (heven : s'.lock = none → s'.seq % 2 = 0)
    (hseq : s'.seq = s.seq ∨ locks (s.loc t) = true) (hodd : writes l = true → s'.seq % 2 = 1)
    (hk : ∀ u, u ≠ t → Kept s.toHeap s'.toHeap s.seq s'.seq q q' u (s.loc u))
    (hl : LocInv s'.toHeap s'.seq q' t l)
    (hlin : ∃ S, Lin routes s'.hist S (fun t => pend (s'.loc t)) (s'.rows q')) : InvOf s' q' where
  path := hpath
  nodup := hnodup
  table := htable
  head := hhead
  freed := hfreed
  lock := hlock
  even := heven
  odd := forall_update (P := fun _ x => writes x = true → s'.seq % 2 = 1) hloc hodd fun u hu hw => by
    rcases hseq with hseq | ht
    · rw [hseq]
      exact h.odd u hw
    · exact absurd (h.lock.eq ht (locks_of_writes hw)) hu
  loc := forall_update (P := fun u x => LocInv s'.toHeap s'.seq q' u x) hloc hl fun u hu => (h.loc u).step (hk u hu)
  lin := hlin

/-- A thread goes on with the lock it has. -/
theorem goto (hp : pend l = pend (s.loc t)) (hL : locks l = locks (s.loc t))
    (hw : writes l = true → writes (s.loc t) = true) (hl : LocInv s.toHeap s.seq q t l) : InvOf (s.goto t l) q := by
  obtain ⟨S, hlin⟩ := h.lin
  exact h.of_step rfl h.path h.nodup h.table h.head h.freed (h.lock.stay rfl hL) h.even (.inl rfl)
    (fun hx => h.odd t (hw hx)) (fun _ _ => .aside fun c => .inl (.refl _ c)) hl ⟨S, hlin.stay rfl hp⟩

/-- The table is not changed, and the call has taken effect. -/
theorem decided {w : RouteOp} {v : ℤ} (ho : pend (s.loc t) = .called w)
    (ha : routes.apply w (s.rows q) = (s.rows q, v)) (hp : pend l = .done v) (hL : locks l = locks (s.loc t))
    (hw : writes l = true → writes (s.loc t) = true) (hl : LocInv s.toHeap s.seq q t l) : InvOf (s.goto t l) q := by
  obtain ⟨S, hlin⟩ := h.lin
  exact h.of_step rfl h.path h.nodup h.table h.head h.freed (h.lock.stay rfl hL) h.even (.inl rfl)
    (fun hx => h.odd t (hw hx)) (fun _ _ => .aside fun c => .inl (.refl _ c)) hl ⟨_, hlin.effect rfl ho ha hp⟩

/-- A call begins. -/
theorem calls {op : RouteOp} (hidle : s.loc t = .idle) (hp : pend l = .called op) (hL : locks l = false)
    (hl : LocInv s.toHeap s.seq q t l) : InvOf (s.call t op l) q := by
  obtain ⟨S, hlin⟩ := h.lin
  refine h.of_step rfl h.path h.nodup h.table h.head h.freed (h.lock.stay rfl (by rw [hidle, hL]; rfl)) h.even
    (.inl rfl) (fun hx => ?_) (fun _ _ => .aside fun c => .inl (.refl _ c)) hl
    ⟨S, hlin.called rfl (by rw [hidle]; rfl) hp⟩
  rw [locks_of_writes hx] at hL
  cases hL

/-- A call ends. -/
theorem returns {v : ℤ} (hp : pend (s.loc t) = .done v) (hL : locks (s.loc t) = false) : InvOf (s.return' t v) q := by
  obtain ⟨S, hlin⟩ := h.lin
  exact h.of_step rfl h.path h.nodup h.table h.head h.freed (h.lock.stay rfl (by rw [hL]; rfl)) h.even (.inl rfl)
    nofun (fun _ _ => .aside fun c => .inl (.refl _ c)) trivial ⟨S, hlin.returned rfl hp rfl⟩

end InvOf

end RouteSeqlock
end Perfbook
