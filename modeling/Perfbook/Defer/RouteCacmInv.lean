/-
# What the table of `route_cacm.c` keeps

A lookup sees the entries of the table, and those that were removed while it ran
(`Visible`); the call that has removed these waits for it. A link of an entry that it sees
leads to one that it sees (`InvOf.closed`), also when the entry is off the list: what it
linked to has been removed later, and so while the lookup ran. An entry is freed when no
lookup sees it.

Key definitions: `Visible`, `Leads`, `Removes`, `LocInv`, `InvOf`.
Key theorems: `InvOf.lookups`, `InvOf.doSomething`, `LocInv.frame`, `LocInv.other`, `InvOf.move`.
-/
import Perfbook.Conc.Lock
import Perfbook.Defer.RouteCacm

namespace Perfbook
namespace RouteCacm

open Conc

variable {n : ℕ}

/-- The thread holds `routelock`. -/
def holdsRoute : Loc n → Bool
  | .addLoad _ | .addStore _ _ | .addLink _ | .addUnlock | .delTest _ _ | .delLoad _ _ | .delAddr _ _ _ | .delNext _ _
  | .delEntryLock _ _ | .delRemoved _ _ | .delEntryUnlock _ _ | .delRead _ _ | .unlink _ _ _ | .delUnlock _ => true
  | .clearLoad | .clearStore _ => true
  | l => clears l

/-- The thread holds `rcu_gp_lock`. -/
def holdsGp : Loc n → Bool
  | .scan _ _ | .wait _ _ | .syncUnlock _ => true
  | _ => false

/-- The thread holds the lock of the entry. -/
def holdsEntry (c : Cell) : Loc n → Bool
  | .readRemoved rep _ | .doSomething rep _ | .entryUnlock rep _ | .delRemoved _ rep | .delEntryUnlock _ rep =>
    decide (rep = c)
  | _ => false

/-- The thread is between `rcu_read_lock` and `rcu_read_unlock`. -/
def inSection : Loc n → Bool
  | .load _ _ | .readAddr _ _ | .readIface _ | .readFreed _ _ | .entryLock _ _ | .readRemoved _ _ | .doSomething _ _
  | .entryUnlock _ _ | .readUnlock _ | .aborted => true
  | _ => false

/-- A lookup of the thread runs. -/
def looksUp : Loc n → Bool
  | .readLock _ => true
  | l => inSection l

/-- What the call has removed and is going to free. -/
def pending : Loc n → Option After
  | .delUnlock (some rep) | .free rep => some (.del rep)
  | .syncLock k | .scan k _ | .wait k _ | .syncUnlock k => some k
  | .clearLoop o => some (.clear o)
  | .clearFree rep _ => some (.clear (some rep))
  | _ => none

/-- The lookup of `u` may come to the entry. -/
def Visible (s : St n) (u : Fin n) (c : Cell) : Prop :=
  c = .head ∨ s.status c = .table ∨ ∃ t, s.status c = .removed t ∧ s.sec.pre t u = true

/-- From a pointer, `next` leads through the entries. -/
def Leads (next : Cell → Option Cell) : Option Cell → List Cell → Prop
  | none, l => l = []
  | some r, l => ∃ l', l = r :: l' ∧ Linked next r l'

/-- What the call of `t` has removed is what it is going to free. -/
def Removes (s : St n) (t : Fin n) : Option After → Prop
  | none => ∀ c, s.status c ≠ .removed t
  | some (.del rep) => ∀ c, s.status c = .removed t ↔ c = rep
  | some (.clear o) => ∃ l : List Cell, Leads s.next o l ∧ l.Nodup ∧ ∀ c, s.status c = .removed t ↔ c ∈ l

/-- `repp` is a link of the list, and leads to `rep`. -/
def At (q : List Cell) (repp rep : Cell) : Prop := ∃ l l', q = l ++ rep :: l' ∧ before .head l = repp

/-- What holds at each place of the code. -/
def LocInv (fresh : Bool) (s : St n) (q : List Cell) (t : Fin n) : Loc n → Prop
  | .aborted => False
  | .readAddr _ rep | .readIface rep | .readFreed rep _ | .entryUnlock rep _ => rep ≠ .head
  | .entryLock rep _ | .readRemoved rep _ => rep ≠ .head ∧ fresh = true
  | .doSomething rep _ => rep ≠ .head ∧ fresh = true ∧ s.removed rep = false
  | .addLock rep | .addLoad rep => s.status rep = .own t
  | .addStore rep x => s.status rep = .own t ∧ s.next .head = x
  | .addLink rep => s.status rep = .own t ∧ s.next rep = s.next .head
  | .delTest _ repp => ∃ l l', q = l ++ l' ∧ before .head l = repp
  | .delLoad _ repp | .delNext _ repp => ∃ rep, At q repp rep
  | .delAddr _ repp rep => At q repp rep
  | .delEntryLock repp rep | .delRemoved repp rep => At q repp rep ∧ fresh = true
  | .delEntryUnlock repp rep => At q repp rep ∧ s.removed rep = true
  | .delRead repp rep => At q repp rep ∧ (fresh = true → s.removed rep = true)
  | .unlink repp rep x => At q repp rep ∧ (fresh = true → s.removed rep = true) ∧ s.next rep = x
  | .clearStore o => s.next .head = o
  | .scan _ i | .wait _ i => ∀ u, s.sec.pre t u = true → i.val ≤ u.val
  | .syncUnlock _ | .free _ | .clearLoop _ => s.sec.Waited t
  | .clearFree rep x => s.sec.Waited t ∧ s.next rep = x
  | _ => True

/-- The invariant; `q` are the entries of the table. -/
structure InvOf (fresh : Bool) (s : St n) (q : List Cell) : Prop where
  path : Linked s.next .head q
  nodup : q.Nodup
  table : ∀ c, c ∈ q ↔ s.status c = .table
  head : s.status .head = .unused
  unfreed : ∀ c, s.status c ≠ .unused → s.freed c = false
  lock : LockedBy holdsRoute s.routelock s.loc
  gp : LockedBy holdsGp s.rcuGpLock s.loc
  entry : fresh = true → ∀ c, s.status c ≠ .unused → LockedBy (holdsEntry c) (s.routeEntryLock c) s.loc
  sec : s.sec.Ok
  depth : ∀ t, s.sec.depth t = if inSection (s.loc t) then 1 else 0
  here : ∀ t, looksUp (s.loc t) = true → s.rcuHere t = true
  closed : ∀ u c d, 0 < s.sec.depth u → Visible s u c → s.next c = some d → d ≠ .head ∧ Visible s u d
  reads : ∀ u c, uses (s.loc u) = some c → Visible s u c
  gone : fresh = true → ∀ c t, s.status c = .removed t → s.removed c = true ∨ clears (s.loc t) = true
  removes : ∀ t, Removes s t (pending (s.loc t))
  loc : ∀ t, LocInv fresh s q t (s.loc t)

variable {fresh : Bool} {s s' : St n} {q q' l : List Cell} {t u : Fin n} {L : Loc n} {c d p rep : Cell}
  {o : Option Cell}

/-- A thread that empties the table goes on. -/
theorem clears_goto (hloc : s'.loc = Function.update s.loc t L) (hclears : clears (s.loc t) = true → clears L = true) :
    clears (s.loc u) = true → clears (s'.loc u) = true :=
  forall_update (P := fun u x => clears (s.loc u) = true → clears x = true) hloc hclears (fun _ _ => id) u

namespace InvOf

variable (hi : InvOf fresh s q)
include hi

theorem head_not_mem : .head ∉ q := fun hm => by
  have := (hi.table .head).mp hm
  rw [hi.head] at this
  cases this

theorem nodup_head : (.head :: q).Nodup := List.nodup_cons.mpr ⟨hi.head_not_mem, hi.nodup⟩

theorem visible_of_mem (hc : c ∈ .head :: q) : Visible s u c := by
  rcases List.mem_cons.mp hc with rfl | hc
  · exact .inl rfl
  · exact .inr (.inl ((hi.table c).mp hc))

omit hi in
/-- What a lookup sees is allocated. -/
theorem visible_used (hv : Visible s u c) (hc : c ≠ .head) : s.status c ≠ .unused := by
  rcases hv with h | h | ⟨t, h, -⟩
  · exact absurd h hc
  · rw [h]
    nofun
  · rw [h]
    nofun

theorem lookups (hu : uses (s.loc t) = some c) (hc : c ≠ .head) : s.status c ≠ .unused ∧ s.freed c = false :=
  have h := visible_used (hi.reads t c hu) hc
  ⟨h, hi.unfreed c h⟩

/-- What is done with is not removed by a `route_del`. -/
theorem doSomething {rep : Cell} {ret : ℤ} (hl : s.loc t = .doSomething rep ret) :
    s.removed rep = false ∧ (s.status rep = .table ∨ ∃ u, s.status rep = .removed u ∧ clears (s.loc u) = true) := by
  have hloc := hi.loc t
  rw [hl] at hloc
  obtain ⟨hc, hf, hrem⟩ := hloc
  refine ⟨hrem, ?_⟩
  rcases hi.reads t rep (by rw [hl]; rfl) with h | h | ⟨u, h, -⟩
  · exact absurd h hc
  · exact .inl h
  · refine .inr ⟨u, h, (hi.gone hf rep u h).resolve_left ?_⟩
    rw [hrem]
    nofun

end InvOf

/-! ### Steps that change neither links nor entries -/

theorem At.mem (h : At q p rep) : rep ∈ q ∧ p ∈ .head :: q := by
  obtain ⟨l, l', rfl, rfl⟩ := h
  refine ⟨List.mem_append_right _ List.mem_cons_self, ?_⟩
  rw [← List.cons_append]
  exact List.mem_append_left _ before_mem

/-- What a place relies on, when the list stays. -/
theorem LocInv.frame (h : LocInv fresh s q u L) (hnext : s'.next = s.next)
    (hstatus : ∀ c, s.status c = .own u → s'.status c = .own u)
    (hremoved : ∀ c, c ∈ q ∨ uses L = some c → s'.removed c = s.removed c)
    (hpre : ∀ v, s'.sec.pre u v = true → s.sec.pre u v = true) : LocInv fresh s' q u L := by
  have hwait : s.sec.Waited u → s'.sec.Waited u := fun hw => hw.mono hpre
  cases L with
  | scan k i | wait k i => exact fun v hv => h v (hpre v hv)
  | syncUnlock k | free rep | clearLoop o => exact hwait h
  | clearFree rep o => exact ⟨hwait h.1, by rw [hnext]; exact h.2⟩
  | doSomething rep ret => exact ⟨h.1, h.2.1, (hremoved rep (.inr rfl)).trans h.2.2⟩
  | addLock rep | addLoad rep => exact hstatus rep h
  | addStore rep o => exact ⟨hstatus rep h.1, by rw [hnext]; exact h.2⟩
  | addLink rep => exact ⟨hstatus rep h.1, by rw [hnext]; exact h.2⟩
  | delEntryUnlock p rep => exact ⟨h.1, (hremoved rep (.inl h.1.mem.1)).trans h.2⟩
  | delRead p rep => exact ⟨h.1, fun hf => (hremoved rep (.inl h.1.mem.1)).trans (h.2 hf)⟩
  | unlink p rep o =>
    exact ⟨h.1, fun hf => (hremoved rep (.inl h.1.mem.1)).trans (h.2.1 hf), by rw [hnext]; exact h.2.2⟩
  | clearStore o =>
    change s'.next .head = o
    rw [hnext]
    exact h
  | _ => exact h

theorem LocInv.keep (h : LocInv fresh s q u L) (hnext : s'.next = s.next) (hstatus : s'.status = s.status)
    (hremoved : s'.removed = s.removed) (hpre : ∀ v, s'.sec.pre u v = true → s.sec.pre u v = true) :
    LocInv fresh s' q u L :=
  h.frame hnext (fun _ hc => by rwa [hstatus]) (fun _ _ => by rw [hremoved]) hpre

/-- What a place relies on, when another thread has `routelock`. -/
theorem LocInv.other (h : LocInv fresh s q u L) (hno : holdsRoute L = false)
    (hstatus : ∀ c, s.status c = .own u → s'.status c = .own u)
    (hremoved : ∀ rep ret, L = .doSomething rep ret → s.removed rep = false → s'.removed rep = false)
    (hpre : ∀ v, s'.sec.pre u v = true → s.sec.pre u v = true) : LocInv fresh s' q' u L := by
  have hwait : s.sec.Waited u → s'.sec.Waited u := fun hw => hw.mono hpre
  cases L with
  | scan k i | wait k i => exact fun v hv => h v (hpre v hv)
  | syncUnlock k | free rep => exact hwait h
  | doSomething rep ret => exact ⟨h.1, h.2.1, hremoved rep ret rfl h.2.2⟩
  | addLock rep => exact hstatus rep h
  | addLoad _ | addStore _ _ | addLink _ | delTest _ _ | delLoad _ _ | delAddr _ _ _ | delNext _ _ | delEntryLock _ _
  | delRemoved _ _ | delEntryUnlock _ _ | delRead _ _ | unlink _ _ _ | clearStore _ | clearLoop _ | clearFree _ _ =>
    cases hno
  | _ => exact h

theorem Removes.keep {k : Option After} (h : Removes s u k)
    (hnext : ∀ c, s.status c = .removed u → s'.next c = s.next c)
    (hstatus : ∀ c, s'.status c = .removed u ↔ s.status c = .removed u) : Removes s' u k := by
  cases k with
  | none => exact fun c hc => h c ((hstatus c).mp hc)
  | some k =>
    cases k with
    | del rep => exact fun c => (hstatus c).trans (h c)
    | clear o =>
      obtain ⟨l, hl, hnd, hmem⟩ := h
      refine ⟨l, ?_, hnd, fun c => (hstatus c).trans (hmem c)⟩
      cases o with
      | none => exact hl
      | some r =>
        obtain ⟨l', rfl, hl'⟩ := hl
        exact ⟨l', rfl, hl'.congr fun c hc => hnext c ((hmem c).mpr hc)⟩

/-- What a lookup sees depends on the entries and on who waits for it. -/
theorem visible_congr (hstatus : s'.status = s.status) (hpre : ∀ t, s'.sec.pre t u = s.sec.pre t u) :
    Visible s' u c ↔ Visible s u c := by
  simp only [Visible, hstatus, hpre]

/-- **A thread goes on.** -/
theorem InvOf.move (h : InvOf fresh s q) (hloc : s'.loc = Function.update s.loc t L) (hnext : s'.next = s.next)
    (hstatus : s'.status = s.status) (hremoved : s'.removed = s.removed) (hfreed : s'.freed = s.freed)
    (hsec : s'.sec = s.sec) (hhere : ∀ u, s.rcuHere u = true → looksUp (s.loc u) = true → s'.rcuHere u = true)
    (hlock : LockedBy holdsRoute s'.routelock s'.loc) (hgp : LockedBy holdsGp s'.rcuGpLock s'.loc)
    (hentry : fresh = true → ∀ c, s.status c ≠ .unused → LockedBy (holdsEntry c) (s'.routeEntryLock c) s'.loc)
    (hin : inSection L = inSection (s.loc t)) (hlook : looksUp L = true → s'.rcuHere t = true)
    (huses : ∀ c, uses L = some c → Visible s t c) (hpending : pending L = pending (s.loc t))
    (hclears : clears (s.loc t) = true → clears L = true) (hl : LocInv fresh s q t L) : InvOf fresh s' q where
  path := by rw [hnext]; exact h.path
  nodup := h.nodup
  table := by rw [hstatus]; exact h.table
  head := by rw [hstatus]; exact h.head
  unfreed := by rw [hstatus, hfreed]; exact h.unfreed
  lock := hlock
  gp := hgp
  entry hf c hc := hentry hf c (by rwa [hstatus] at hc)
  sec := hsec ▸ h.sec
  depth := by
    rw [hsec]
    exact forall_update (P := fun u x => s.sec.depth u = if inSection x then 1 else 0) hloc
      (by rw [hin]; exact h.depth t) fun u _ => h.depth u
  here := forall_update (P := fun u x => looksUp x = true → s'.rcuHere u = true) hloc hlook
    fun u _ hu => hhere u (h.here u hu) hu
  closed u c d hd hv hn := by
    rw [hsec] at hd
    rw [hnext] at hn
    rw [visible_congr hstatus fun _ => by rw [hsec]] at hv ⊢
    exact h.closed u c d hd hv hn
  reads := by
    refine forall_update (P := fun u x => ∀ c, uses x = some c → Visible s' u c) hloc
      (fun c hc => ?_) fun u _ c hc => ?_
    · exact (visible_congr hstatus fun _ => by rw [hsec]).mpr (huses c hc)
    · exact (visible_congr hstatus fun _ => by rw [hsec]).mpr (h.reads u c hc)
  gone hf c u hc := by
    rw [hstatus] at hc
    rw [hremoved]
    exact (h.gone hf c u hc).imp_right (clears_goto hloc hclears)
  removes := by
    refine forall_update (P := fun u x => Removes s' u (pending x)) hloc ?_ fun u _ => ?_
    · rw [hpending]
      exact (h.removes t).keep (fun c _ => by rw [hnext]) fun c => by rw [hstatus]
    · exact (h.removes u).keep (fun c _ => by rw [hnext]) fun c => by rw [hstatus]
  loc := forall_update (P := fun u x => LocInv fresh s' q u x) hloc
    (hl.keep hnext hstatus hremoved fun _ => by rw [hsec]; exact id)
    fun u _ => (h.loc u).keep hnext hstatus hremoved fun _ => by rw [hsec]; exact id

/-- A thread goes on, and takes or releases no lock. -/
theorem InvOf.goto {L₀ : Loc n} (h : InvOf fresh s q) (hl : s.loc t = L₀) (hlock : holdsRoute L = holdsRoute L₀)
    (hgp : holdsGp L = holdsGp L₀) (hentry : ∀ c, holdsEntry c L = holdsEntry c L₀) (hin : inSection L = inSection L₀)
    (hlook : looksUp L = true → s.rcuHere t = true) (huses : ∀ c, uses L = some c → Visible s t c)
    (hpending : pending L = pending L₀) (hclears : clears L₀ = true → clears L = true) (hloc : LocInv fresh s q t L) :
    InvOf fresh (s.goto t L) q := by
  subst hl
  exact h.move rfl rfl rfl rfl rfl rfl (fun _ hu _ => hu) (h.lock.stay rfl hlock) (h.gp.stay rfl hgp)
    (fun hf c hc => (h.entry hf c hc).stay rfl (hentry c)) hin hlook huses hpending hclears hloc

end RouteCacm
end Perfbook
