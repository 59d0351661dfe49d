/-
# Each step of `count_end_rcu.c` keeps the invariant

A step of a thread that only goes on keeps all that it does not move (`Inv.goes`), and
a step of a reader changes what this reader knows and nothing else (`Inv.reads`). The
steps that are left are those that write: the pointer of a thread that registers,
its count, its array and the pointer to it.

Key theorems: `Inv.goes`, `Inv.reads`, `Inv.unregAssign`, `Inv.next`, `read_count_bounded`.
-/
import Perfbook.Count.EndRcuInv

namespace Perfbook
namespace Count
namespace EndRcu

open Conc

variable {n m : ℕ} {s s' : St n m} {nrThreads a i sum : ℕ} {t u : Fin n} {r : Fin m}

/-! ### Steps that only go on -/

/-- From `l` to `l'`, between the registration and the exit, and not over the store of the pointer or of the array. -/
structure Loc.Move (l l' : Loc) : Prop where
  new : l ≠ .new ∧ l' ≠ .new
  live : l ≠ .exited
  reg : l'.reg = l.reg
  past : l'.past = l.past
  counts : l'.counts = false → l.counts = false
  capold : ∀ a, l'.capold = some a → l.capold = some a

/-- Neither end of the move is a store, and the array at hand stays. -/
structure Loc.Onward (l l' : Loc) : Prop extends Loc.Move l l' where
  store : ∀ c, l' ≠ .store c
  cap : ∀ a, l'.cap = some a → l.cap = some a
  assign : ∀ a, l' ≠ .unregAssign a

namespace Loc.Onward

theorem regLock : Loc.Onward .regLock .regSet :=
  ⟨⟨⟨nofun, nofun⟩, nofun, rfl, rfl, fun _ => rfl, nofun⟩, nofun, nofun, nofun⟩

theorem regUnlock : Loc.Onward .regUnlock .idle :=
  ⟨⟨⟨nofun, nofun⟩, nofun, rfl, rfl, fun _ => rfl, nofun⟩, nofun, nofun, nofun⟩

theorem unregLock {a : ℕ} : Loc.Onward (.unregLock a) (.unregFill a) :=
  ⟨⟨⟨nofun, nofun⟩, nofun, rfl, rfl, nofun, nofun⟩, nofun, fun _ => id, nofun⟩

theorem unregUnlock {a : ℕ} : Loc.Onward (.unregUnlock a) (.sync a) :=
  ⟨⟨⟨nofun, nofun⟩, nofun, rfl, rfl, nofun, fun _ => id⟩, nofun, nofun, nofun⟩

theorem sync {a : ℕ} : Loc.Onward (.sync a) (.wait a) :=
  ⟨⟨⟨nofun, nofun⟩, nofun, rfl, rfl, nofun, fun _ => id⟩, nofun, nofun, nofun⟩

theorem wait {a : ℕ} : Loc.Onward (.wait a) (.free a) :=
  ⟨⟨⟨nofun, nofun⟩, nofun, rfl, rfl, nofun, fun _ => id⟩, nofun, nofun, nofun⟩

theorem free {a : ℕ} : Loc.Onward (.free a) .exited :=
  ⟨⟨⟨nofun, nofun⟩, nofun, rfl, rfl, nofun, nofun⟩, nofun, nofun, nofun⟩

end Loc.Onward

/-- A thread goes to another place, and neither counts nor changes an array that is published. -/
structure Goes (s s' : St n m) (t : Fin n) (l : Loc) : Prop where
  loc : s'.loc = Function.update s.loc t l
  move : (s.loc t).Move l
  counter : s'.counter = s.counter := by rfl
  completed : s'.completed = s.completed := by rfl
  idx : s'.idx = s.idx := by rfl
  countarrayp : s'.countarrayp = s.countarrayp := by rfl
  published : s'.published = s.published := by rfl
  reader : s'.reader = s.reader := by rfl
  base : s'.base = s.base := by rfl
  lock : LockedBy Loc.locks s'.lock s'.loc
  begun : ∀ u, s.begun u ≤ s'.begun u
  store : ∀ c, l = .store c → s.completed t < s'.begun t ∧ c = s.completed t
  used : ∀ a, s.used a = true → s'.used a = true
  cap : ∀ a, l.cap = some a → s'.used a = true ∧ s.published a = false ∧ ∀ u, u ≠ t → (s.loc u).cap ≠ some a
  array : ∀ a, s.published a = true → s'.array a = s.array a ∧ s'.gone a = s.gone a
  assign : ∀ u a, s'.loc u = .unregAssign a →
    s'.array a = (s.array s.countarrayp).without (s.idx u) (s.counter u) ∧
    s'.gone a = Function.update (s.gone s.countarrayp) u true
  freed : ∀ a, s'.freed a = true → s.freed a = true ∨ l = .exited ∧ (s.loc t).capold = some a
  waits : ∀ u r, (s.reader r).inside = true → Waits s u r → Waits s' u r

/-- The threads that are at no other place than before. -/
theorem waits_of_ne (hloc : s'.loc u = s.loc u) (hpre : s'.pre u = s.pre u) (hw : Waits s u r) : Waits s' u r := by
  rw [Waits] at hw ⊢
  rw [hloc, hpre]
  exact hw

theorem waits_goes {l : Loc} (hloc : s'.loc = Function.update s.loc t l) (hpre : s'.pre = s.pre)
    (ht : ∀ r, (s.reader r).inside = true → Waits s t r → Waits s' t r) (u : Fin n) (r : Fin m)
    (hin : (s.reader r).inside = true) (hw : Waits s u r) : Waits s' u r := by
  by_cases hut : u = t
  · subst hut
    exact ht r hin hw
  · exact waits_of_ne (update_ne hloc hut) (congrFun hpre u) hw

/-- What the place of a thread says does not change, if it does not where `t` goes. -/
theorem ne_goto {l k : Loc} {g : Fin n → Loc} (hloc : g = Function.update s.loc t l) (ht : s.loc t ≠ k) :
    ∀ u, g u ≠ k → s.loc u ≠ k :=
  forall_update (P := fun u x => x ≠ k → s.loc u ≠ k) hloc (fun _ => ht) fun _ _ => id

namespace Inv

variable (h : Inv s nrThreads)
include h

/-- No new array is published. -/
theorem capold_goto {l : Loc} {g : Fin n → Loc} (hloc : g = Function.update s.loc t l) (hl : l.capold = none) :
    ∀ u a, (g u).capold = some a → s.published a = true ∧ s.gone a u = false :=
  forall_update (P := fun u x => ∀ a, x.capold = some a → s.published a = true ∧ s.gone a u = false) hloc
    (fun a ha => by rw [hl] at ha; cases ha) fun u _ => h.capold u

/-- The threads that had an array that is freed have exited. -/
theorem freed_goto {l : Loc} {g : Fin n → Loc} (hloc : g = Function.update s.loc t l) (ht : s.loc t ≠ .exited)
    (ha : s.freed a = true) : s.published a = true ∧ ∃ u, g u = .exited ∧ s.gone a u = false := by
  obtain ⟨hp, u, hu, hg⟩ := h.freed a ha
  have hut : u ≠ t := fun hut => ht (hut ▸ hu)
  exact ⟨hp, u, (update_ne hloc hut).trans hu, hg⟩

theorem assign_goes {l : Loc} (hloc : s'.loc = Function.update s.loc t l) (hl : ∀ a, l ≠ .unregAssign a)
    (harray : s'.array = s.array := by rfl) (hgone : s'.gone = s.gone := by rfl) (u : Fin n) (a : ℕ)
    (hu : s'.loc u = .unregAssign a) :
    s'.array a = (s.array s.countarrayp).without (s.idx u) (s.counter u) ∧
      s'.gone a = Function.update (s.gone s.countarrayp) u true := by
  rw [harray, hgone]
  by_cases hut : u = t
  · subst hut
    exact absurd ((update_self hloc).symm.trans hu) (hl a)
  · exact h.assign u a ((update_ne hloc hut).symm.trans hu)

theorem goes {l : Loc} (hg : Goes s s' t l) : Inv s' nrThreads := by
  have hloc : ∀ u, u ≠ t → s'.loc u = s.loc u := fun u hu => update_ne hg.loc hu
  have hself : s'.loc t = l := update_self hg.loc
  have hnew := ne_goto hg.loc hg.move.new.1
  have hlive := ne_goto hg.loc hg.move.live
  have hreg := proj_update hg.loc Loc.reg hg.move.reg
  have hpast := proj_update hg.loc Loc.past hg.move.past
  have hcaps : ∀ u v a, u ≠ t → (s'.loc u).cap = some a → (s'.loc v).cap = some a → v = u := fun u v a hut hu hv => by
    rw [hloc u hut] at hu
    by_cases hvt : v = t
    · rw [hvt, hself] at hv
      exact absurd hu ((hg.cap a hv).2.2 u hut)
    · exact h.caps v u a (by rwa [hloc v hvt] at hv) hu
  exact {
    lock := hg.lock
    counter := fun u hu => by
      rw [hg.counter, hg.completed]
      exact h.counter u (hlive u hu)
    begun := fun u => by
      rw [hg.completed]
      refine ⟨(h.begun u).1.trans (hg.begun u), fun c hc => ?_⟩
      by_cases hut : u = t
      · subst hut
        exact hg.store c (hself.symm.trans hc)
      · obtain ⟨hlt, he⟩ := (h.begun u).2 c ((hloc u hut).symm.trans hc)
        exact ⟨hlt.trans_le (hg.begun u), he⟩
    fresh := fun u => forall_update (P := fun u (x : Loc) => x.counts = false → s'.completed u = 0) hg.loc
      (fun hc => (congrFun hg.completed t).trans (h.fresh t (hg.move.counts hc)))
      (fun u _ hc => (congrFun hg.completed u).trans (h.fresh u hc)) u
    idx := fun u hu => by
      rw [hg.idx]
      exact h.idx u (hnew u hu)
    ids := fun u v hu hu' hv hv' => by
      rw [hg.idx]
      exact h.ids u v (hnew u hu) (hlive u hu') (hnew v hv) (hlive v hv')
    used := fun a ha => hg.used a (h.used a (by rwa [hg.published] at ha))
    cur := by
      rw [hg.published, hg.countarrayp]
      exact h.cur
    array := fun a ha => by
      rw [hg.published] at ha
      obtain ⟨harr, hgone⟩ := hg.array a ha
      refine ⟨?_, fun u hu => ?_, fun i u hu => ?_⟩
      · rw [harr, hgone, hg.completed]
        exact (h.array a ha).total
      · rw [hgone] at hu
        exact (hpast u).trans ((h.array a ha).past u hu)
      · rw [harr] at hu
        rw [hg.idx, hgone, hreg]
        exact (h.array a ha).slot i u hu
    curGone := fun u hu => by
      rw [hg.countarrayp, (hg.array _ h.cur).2]
      exact h.curGone u ((hpast u).symm.trans hu)
    curSlot := fun u hu hp => by
      rw [hg.countarrayp, (hg.array _ h.cur).1, hg.idx]
      exact h.curSlot u ((hreg u).symm.trans hu) ((hpast u).symm.trans hp)
    cap := fun u a hu => by
      rw [hg.published]
      by_cases hut : u = t
      · subst hut
        rw [hself] at hu
        exact ⟨(hg.cap a hu).1, (hg.cap a hu).2.1⟩
      · rw [hloc u hut] at hu
        exact ⟨hg.used a (h.cap u a hu).1, (h.cap u a hu).2⟩
    caps := fun u v a hu hv => by
      by_cases hut : u = t
      · by_cases hvt : v = t
        · rw [hut, hvt]
        · exact hcaps v u a hvt hv hu
      · exact (hcaps u v a hut hu hv).symm
    assign := fun u a hu => by
      rw [hg.countarrayp, (hg.array _ h.cur).1, (hg.array _ h.cur).2, hg.idx, hg.counter]
      exact hg.assign u a hu
    capold := fun u a hu => by
      have hold : (s.loc u).capold = some a := by
        by_cases hut : u = t
        · subst hut
          rw [hself] at hu
          exact hg.move.capold a hu
        · rwa [hloc u hut] at hu
      obtain ⟨hp, hn⟩ := h.capold u a hold
      rw [hg.published, (hg.array a hp).2]
      exact ⟨hp, hn⟩
    freed := fun a ha => by
      rw [hg.published]
      rcases hg.freed a ha with ha | ⟨he, ha⟩
      · obtain ⟨hp, u, hu, hn⟩ := h.freed a ha
        rw [(hg.array a hp).2]
        exact ⟨hp, u, (hloc u fun hut => hg.move.live (hut ▸ hu)).trans hu, hn⟩
      · obtain ⟨hp, hn⟩ := h.capold t a ha
        rw [(hg.array a hp).2]
        exact ⟨hp, t, hself.trans he, hn⟩
    reader := fun r => by
      rw [hg.reader]
      refine (h.reader r).keeps (s := s) ⟨congrFun hg.base r, fun u => (congrFun hg.completed u).ge, fun a ha => ?_,
        fun a ha => (hg.array a ha).2, fun a i u ha hs => ?_, fun a i u ha hs => .inl ?_, fun u => .inl ?_,
        fun hin u hu => .inl ⟨(hpast u).symm.trans hu, hg.waits u r hin⟩⟩
      · rwa [hg.published]
      · rwa [(hg.array a ha).1]
      · rwa [(hg.array a ha).1] at hs
      · rw [hg.idx] }

/-- A step of a reader. -/
theorem reads {l : Reader n} {base : Fin m → Fin n → ℕ} {pre : Fin n → Fin m → Bool}
    (hbase : ∀ q, q ≠ r → base q = s.base q) (hpre : ∀ u q, q ≠ r → pre u q = s.pre u q)
    (hr : ReaderInv { s with reader := Function.update s.reader r l, base := base, pre := pre } nrThreads r l) :
    Inv { s with reader := Function.update s.reader r l, base := base, pre := pre } nrThreads where
  lock := h.lock
  counter := h.counter
  begun := h.begun
  fresh := h.fresh
  idx := h.idx
  ids := h.ids
  used := h.used
  cur := h.cur
  array a ha := ⟨(h.array a ha).total, (h.array a ha).past, (h.array a ha).slot⟩
  curGone := h.curGone
  curSlot := h.curSlot
  cap := h.cap
  caps := h.caps
  assign := h.assign
  capold := h.capold
  freed := h.freed
  reader q := by
    dsimp only
    by_cases hq : q = r
    · subst hq
      rw [Function.update_self]
      exact hr
    · have hk : Keeps s { s with reader := Function.update s.reader r l, base := base, pre := pre } q := by
        refine .goes (hbase q hq) rfl rfl rfl rfl rfl fun _ u hu => .inl ⟨hu, fun hw => ?_⟩
        rw [Waits] at hw ⊢
        dsimp only
        rw [hpre u q hq]
        exact hw
      rw [Function.update_of_ne hq]
      exact (h.reader q).keeps hk

/-! ### The steps of a reader -/

/-- The reader has loaded the current array. -/
theorem at_cur {base : Fin m → Fin n → ℕ} (hbase : base r = s.completed) :
    At { s with base := base } r s.countarrayp where
  published := h.cur
  le u := (congrFun hbase u).le
  seen u hu := by
    dsimp only at hu ⊢
    rw [hbase] at hu
    have hc : (s.loc u).counts = true := Bool.of_not_eq_false fun hc => hu.ne' (h.fresh u hc)
    by_cases hp : (s.loc u).past = true
    · exact .inl (h.curGone u hp)
    · refine .inr (h.curSlot u ?_ (Bool.eq_false_iff.mpr hp))
      revert hc
      cases s.loc u <;> first | exact fun _ => rfl | exact nofun
  waits u hu := .inl (h.curGone u hu)

/-- What is passed in the last step of the loop. -/
theorem passed_succ (ha : At s r a) (hs : (s.array a).counterp i = some u) :
    Finset.univ.filter (Passed s a (i + 1)) = insert u (Finset.univ.filter (Passed s a i)) ∧
      u ∉ Finset.univ.filter (Passed s a i) := by
  obtain ⟨hi, hg, -⟩ := (h.array a ha.published).slot i u hs
  refine ⟨?_, fun hu => ?_⟩
  · ext v
    simp only [Passed, Finset.mem_filter, Finset.mem_univ, true_and, Finset.mem_insert]
    constructor
    · rintro (hv | ⟨hv, hvs⟩)
      · exact .inr (.inl hv)
      · rcases Nat.lt_succ_iff_lt_or_eq.mp hv with hv | hv
        · exact .inr (.inr ⟨hv, hvs⟩)
        · rw [hv, hs] at hvs
          exact .inl (Option.some.inj hvs).symm
    · rintro (rfl | hv | ⟨hv, hvs⟩)
      · exact .inr ⟨hi ▸ Nat.lt_succ_self _, hi ▸ hs⟩
      · exact .inl hv
      · exact .inr ⟨Nat.lt_succ_of_lt hv, hvs⟩
  · simp only [Passed, Finset.mem_filter, Finset.mem_univ, true_and, hg, Bool.false_eq_true, false_or, hi] at hu
    exact absurd hu.1 (lt_irrefl _)

/-- **A counter is added up**, once, and while its thread is there. -/
theorem between_ctr (ha : At s r a) (hs : (s.array a).counterp i = some u) (hb : Between s r a i sum) :
    Between s r a (i + 1) (sum + s.counter u) := by
  obtain ⟨hset, hnot⟩ := h.passed_succ ha hs
  have hlive : s.loc u ≠ .exited := fun hu => by
    have hg := ((h.array a ha.published).slot i u hs).2.1
    rw [ha.gone hu] at hg
    cases hg
  rw [Between, hset, Finset.sum_insert hnot, Finset.sum_insert hnot, h.counter u hlive, add_comm sum]
  exact ⟨Nat.add_le_add (ha.le u) hb.1, Nat.add_le_add_left hb.2 _⟩

/-- At the end of the loop all are passed that had counted. -/
theorem bounds_of_between (ha : At s r a) (hi : nrThreads ≤ i) (hb : Between s r a i sum) :
    ∑ u, s.base r u ≤ sum ∧ sum ≤ ∑ u, s.completed u := by
  refine ⟨?_, hb.2.trans (Finset.sum_le_sum_of_subset (Finset.filter_subset _ _))⟩
  rw [← Finset.sum_subset (Finset.filter_subset (Passed s a i) _) fun u _ hu => ?_]
  · exact hb.1
  · simp only [Finset.mem_filter, Finset.mem_univ, true_and] at hu
    by_contra h0
    have hpos : 0 < s.base r u := Nat.pos_of_ne_zero h0
    rcases ha.seen u hpos with hg | hs
    · exact hu (.inl hg)
    · refine hu (.inr ⟨lt_of_lt_of_le (h.idx u fun hn => ?_) hi, hs⟩)
      have h0 := h.fresh u (by rw [hn]; rfl)
      exact absurd (ha.le u) (by omega)

theorem stepReader (hn : stepReader nrThreads s r = some s') : Inv s' nrThreads := by
  have hself := h.reader r
  cases hr : s.reader r with
  | idle | returned sum =>
    rw [EndRcu.stepReader, hr] at hn
    cases hn
  | deref =>
    rw [EndRcu.stepReader, hr] at hn
    cases hn
    refine h.reads (r := r) (fun q hq => Function.update_of_ne hq ..) (fun _ _ _ => rfl) ?_
    have hc : At { s with base := Function.update s.base r s.completed } r s.countarrayp :=
      h.at_cur (Function.update_self ..)
    exact ⟨hc.published, hc.le, hc.seen, hc.waits⟩
  | init a =>
    rw [EndRcu.stepReader, hr] at hn
    cases hn
    rw [hr] at hself
    have ha : At s r a := hself
    refine h.reads (r := r) (fun _ _ => rfl) (fun _ _ _ => rfl)
      ⟨⟨ha.published, ha.le, ha.seen, ha.waits⟩, Nat.zero_le _, ?_⟩
    have hset : Finset.univ.filter (Passed s a 0) = Finset.univ.filter (fun u => s.gone a u = true) := by
      ext u
      simp [Passed]
    have hb : Between s r a 0 (s.array a).total := by
      rw [Between, hset, (h.array a ha.published).total]
      exact ⟨Finset.sum_le_sum fun u _ => ha.le u, le_rfl⟩
    exact hb
  | ptr a i sum =>
    rw [hr] at hself
    obtain ⟨ha, hi, hb⟩ : At s r a ∧ i ≤ nrThreads ∧ Between s r a i sum := hself
    rw [EndRcu.stepReader, hr] at hn
    dsimp only at hn
    split at hn
    · next hlt =>
      split at hn
      · next hs =>
        cases hn
        have hset : Finset.univ.filter (Passed s a (i + 1)) = Finset.univ.filter (Passed s a i) := by
          ext u
          simp only [Passed, Finset.mem_filter, Finset.mem_univ, true_and]
          refine or_congr_right ⟨fun hu => ⟨?_, hu.2⟩, fun hu => ⟨Nat.lt_succ_of_lt hu.1, hu.2⟩⟩
          refine (Nat.lt_succ_iff_lt_or_eq.mp hu.1).resolve_right fun he => ?_
          rw [he, hs] at hu
          cases hu.2
        have hb' : Between s r a (i + 1) sum := by
          rw [Between, hset]
          exact hb
        exact h.reads (r := r) (fun _ _ => rfl) (fun _ _ _ => rfl)
          ⟨⟨ha.published, ha.le, ha.seen, ha.waits⟩, hlt, hb'⟩
      · next u hs =>
        cases hn
        exact h.reads (r := r) (fun _ _ => rfl) (fun _ _ _ => rfl)
          ⟨⟨ha.published, ha.le, ha.seen, ha.waits⟩, hlt, hb, hs⟩
    · next hlt =>
      cases hn
      exact h.reads (r := r) (fun _ _ => rfl) (fun _ _ _ => rfl) (h.bounds_of_between ha (not_lt.mp hlt) hb)
  | ctr a i sum u =>
    rw [hr] at hself
    obtain ⟨ha, hi, hb, hs⟩ : At s r a ∧ i < nrThreads ∧ Between s r a i sum ∧ (s.array a).counterp i = some u := hself
    rw [EndRcu.stepReader, hr] at hn
    cases hn
    exact h.reads (r := r) (fun _ _ => rfl) (fun _ _ _ => rfl)
      ⟨⟨ha.published, ha.le, ha.seen, ha.waits⟩, hi, h.between_ctr ha hs hb⟩
  | unlock sum =>
    rw [hr] at hself
    rw [EndRcu.stepReader, hr] at hn
    cases hn
    exact h.reads (r := r) (fun _ _ => rfl) (fun u q hq => Function.update_of_ne hq ..) hself

theorem read (hn : next nrThreads s (.read r) = some s') : Inv s' nrThreads := by
  rw [next] at hn
  split at hn
  · cases hn
  · cases hn
    exact h.reads (r := r) (fun _ _ => rfl) (fun _ _ _ => rfl) trivial

/-! ### The steps of a thread that write -/

/-- A thread that has registered and has not exited has its id for itself. -/
theorem idx_ne (ht : s.loc t ≠ .new) (ht' : s.loc t ≠ .exited) (hu : (s.loc u).reg = true)
    (hu' : (s.loc u).past = false) (hut : u ≠ t) : s.idx u ≠ s.idx t := fun hi => by
  refine hut (h.ids u t ?_ ?_ ht ht' hi)
  · intro he
    rw [he] at hu
    cases hu
  · intro he
    rw [he] at hu'
    cases hu'

theorem register (hn : next nrThreads s (.register t i) = some s') : Inv s' nrThreads := by
  rw [next] at hn
  split at hn
  · next hloc =>
    split at hn
    · next hg =>
      cases hn
      obtain ⟨hlt, hids⟩ := hg
      have hl : ∀ u, u ≠ t → Function.update s.loc t .regLock u = s.loc u := fun u hu => Function.update_of_ne hu ..
      have hi : ∀ u, u ≠ t → Function.update s.idx t i u = s.idx u := fun u hu => Function.update_of_ne hu ..
      have hself : Function.update s.loc t Loc.regLock t = .regLock := Function.update_self ..
      have hselfi : Function.update s.idx t i t = i := Function.update_self ..
      have hslot : ∀ a j, s.published a = true → (s.array a).counterp j ≠ some t := fun a j ha hs => by
        have hr := ((h.array a ha).slot j t hs).2.2
        rw [hloc] at hr
        cases hr
      have hpast : ∀ u, (Function.update s.loc t .regLock u).past = (s.loc u).past :=
        proj_update rfl Loc.past (by rw [hloc]; rfl)
      have hcap : ∀ u a, (Function.update s.loc t .regLock u).cap = some a → (s.loc u).cap = some a :=
        some_update rfl Loc.cap (.inr rfl)
      have hne : ∀ u, (Function.update s.loc t .regLock u).reg = true → u ≠ t := fun u hu hut => by
        rw [hut, hself] at hu
        cases hu
      refine ⟨h.lock.stay rfl (by rw [hloc]; rfl), fun u hu => ?_, fun u => ⟨(h.begun u).1, fun c hc => ?_⟩,
        fun u hu => ?_, fun u hu => ?_, fun u v hu hu' hv hv' huv => ?_, h.used, h.cur,
        fun a ha => ⟨(h.array a ha).total, fun u hu => ?_, fun j u hu => ?_⟩, fun u hu => ?_, fun u hu hp => ?_,
        fun u a hu => ?_, fun u v a hu hv => ?_, fun u a hu => ?_, fun u => ?_, fun a ha => ?_, fun r => ?_⟩
      · by_cases hut : u = t
        · subst hut
          exact h.counter u (by rw [hloc]; nofun)
        · exact h.counter u fun he => hu ((hl u hut).trans he)
      · by_cases hut : u = t
        · subst hut
          cases hself.symm.trans hc
        · exact (h.begun u).2 c ((hl u hut).symm.trans hc)
      · by_cases hut : u = t
        · subst hut
          exact h.fresh u (by rw [hloc]; rfl)
        · exact h.fresh u (by rw [← hl u hut]; exact hu)
      · by_cases hut : u = t
        · subst hut
          exact hselfi.trans_lt hlt
        · exact (hi u hut).trans_lt (h.idx u fun he => hu ((hl u hut).trans he))
      · change Function.update s.idx t i u = Function.update s.idx t i v at huv
        by_cases hut : u = t <;> by_cases hvt : v = t
        · rw [hut, hvt]
        · subst hut
          rw [hselfi, hi v hvt] at huv
          exact absurd huv.symm (hids v (fun he => hv ((hl v hvt).trans he)) fun he => hv' ((hl v hvt).trans he))
        · subst hvt
          rw [hselfi, hi u hut] at huv
          exact absurd huv (hids u (fun he => hu ((hl u hut).trans he)) fun he => hu' ((hl u hut).trans he))
        · rw [hi u hut, hi v hvt] at huv
          exact h.ids u v (fun he => hu ((hl u hut).trans he)) (fun he => hu' ((hl u hut).trans he))
            (fun he => hv ((hl v hvt).trans he)) (fun he => hv' ((hl v hvt).trans he)) huv
      · exact (hpast u).trans ((h.array a ha).past u hu)
      · obtain ⟨hj, hg, hr⟩ := (h.array a ha).slot j u hu
        have hut : u ≠ t := fun hut => hslot a j ha (hut ▸ hu)
        exact ⟨hj.trans (hi u hut).symm, hg, (congrArg Loc.reg (hl u hut)).trans hr⟩
      · exact h.curGone u ((hpast u).symm.trans hu)
      · have hut := hne u hu
        exact (congrArg _ (hi u hut)).trans
          (h.curSlot u ((congrArg Loc.reg (hl u hut)).symm.trans hu) ((hpast u).symm.trans hp))
      · exact h.cap u a (hcap u a hu)
      · exact h.caps u v a (hcap u a hu) (hcap v a hv)
      · by_cases hut : u = t
        · subst hut
          cases hself.symm.trans hu
        · have ha := h.assign u a ((hl u hut).symm.trans hu)
          rw [← hi u hut] at ha
          exact ha
      · exact h.capold_goto rfl rfl u
      · exact h.freed_goto rfl (by rw [hloc]; nofun) ha
      · refine (h.reader r).keeps (s := s) ⟨rfl, fun _ => le_rfl, fun _ => id, fun _ _ => rfl, fun _ _ _ _ => id,
          fun _ _ _ _ => .inl, fun u => ?_, fun _ u hu => .inl ⟨(hpast u).symm.trans hu, fun hw => ?_⟩⟩
        · by_cases hut : u = t
          · subst hut
            exact .inr ⟨fun a j ha => hslot a j ha, h.fresh u (by rw [hloc]; rfl)⟩
          · exact .inl (hi u hut).symm
        · have hut : u ≠ t := fun hut => by
            rw [hut, Waits, hloc] at hw
            exact hw
          rw [Waits] at hw ⊢
          dsimp only [St.goto]
          rw [hl u hut]
          exact hw
    · cases hn
  · cases hn

theorem inc (hn : next nrThreads s (.inc t) = some s') : Inv s' nrThreads := by
  rw [next] at hn
  split at hn
  · next hloc =>
    cases hn
    have hc : s.counter t = s.completed t := h.counter t (by rw [hloc]; nofun)
    have hbegun : ∀ u, s.begun u ≤ Function.update s.begun t (s.begun t + 1) u := fun u => by
      by_cases hut : u = t
      · subst hut
        rw [Function.update_self]
        exact Nat.le_succ _
      · rw [Function.update_of_ne hut]
    refine h.goes (t := t) (l := .store (s.counter t)) {
      loc := rfl
      move := hloc ▸ ⟨⟨nofun, nofun⟩, nofun, rfl, rfl, nofun, nofun⟩
      lock := h.lock.stay rfl (by rw [hloc]; rfl)
      begun := hbegun
      store := fun c hs => ?_
      used := fun _ => id
      cap := nofun
      array := fun _ _ => ⟨rfl, rfl⟩
      assign := h.assign_goes rfl nofun
      freed := fun _ => .inl
      waits := waits_goes rfl rfl fun r _ hw => by rw [Waits, hloc] at hw; exact hw.elim }
    cases hs
    refine ⟨?_, hc⟩
    have hle := (h.begun t).1
    change s.completed t < Function.update s.begun t (s.begun t + 1) t
    rw [Function.update_self]
    omega
  · cases hn

theorem unregister (hn : next nrThreads s (.unregister t a) = some s') : Inv s' nrThreads := by
  rw [next] at hn
  split at hn
  · next hloc =>
    split at hn
    · cases hn
    · next hused =>
      cases hn
      refine h.goes (t := t) (l := .unregLock a) {
        loc := rfl
        move := hloc ▸ ⟨⟨nofun, nofun⟩, nofun, rfl, rfl, nofun, nofun⟩
        lock := h.lock.stay rfl (by rw [hloc]; rfl)
        begun := fun _ => le_rfl
        store := nofun
        used := fun b hb => ?_
        cap := fun b hb => ?_
        array := fun _ _ => ⟨rfl, rfl⟩
        assign := h.assign_goes rfl nofun
        freed := fun _ => .inl
        waits := waits_goes rfl rfl fun r _ hw => by rw [Waits, hloc] at hw; exact hw.elim }
      · change Function.update s.used a true b = true
        by_cases hba : b = a
        · rw [hba, Function.update_self]
        · rwa [Function.update_of_ne hba]
      · cases hb
        refine ⟨Function.update_self .., ?_, fun u _ hu => hused (h.cap u _ hu).1⟩
        exact Bool.eq_false_iff.mpr fun hp => hused (h.used _ hp)
  · cases hn

/-- A step that takes the lock, releases it, or waits. -/
theorem onward {l : Loc} {lock : Option (Fin n)} {pre : Fin n → Fin m → Bool} {freed : ℕ → Bool}
    (hmove : (s.loc t).Onward l) (hlock : LockedBy Loc.locks lock (Function.update s.loc t l))
    (hpre : ∀ u, u ≠ t → pre u = s.pre u)
    (hfreed : ∀ a, freed a = true → s.freed a = true ∨ l = .exited ∧ (s.loc t).capold = some a)
    (hwaits : ∀ r, (s.reader r).inside = true → Waits s t r →
      Waits { s with loc := Function.update s.loc t l, pre := pre } t r) :
    Inv { s with loc := Function.update s.loc t l, lock := lock, pre := pre, freed := freed } nrThreads :=
  h.goes (t := t) (l := l) {
    loc := rfl
    move := hmove.toMove
    lock := hlock
    begun := fun _ => le_rfl
    store := fun c hc => absurd hc (hmove.store c)
    used := fun _ => id
    cap := fun a ha => ⟨(h.cap t a (hmove.cap a ha)).1, (h.cap t a (hmove.cap a ha)).2,
      fun u hu hua => hu (h.caps u t a hua (hmove.cap a ha))⟩
    array := fun _ _ => ⟨rfl, rfl⟩
    assign := h.assign_goes rfl hmove.assign
    freed := hfreed
    waits := fun u r hin hw => by
      by_cases hut : u = t
      · subst hut
        exact hwaits r hin hw
      · exact waits_of_ne (Function.update_of_ne hut ..) (hpre u hut) hw }

/-- The pointer of the thread is stored. -/
theorem regSet (hloc : s.loc t = .regSet) (hn : stepThread s t = some s') : Inv s' nrThreads := by
  rw [stepThread, hloc] at hn
  cases hn
  set c := s.countarrayp with hcdef
  set arr := Function.update s.array c
    { s.array c with counterp := Function.update (s.array c).counterp (s.idx t) (some t) } with harr
  have hl : ∀ u, u ≠ t → Function.update s.loc t .regUnlock u = s.loc u := fun u hu => Function.update_of_ne hu ..
  have hself : Function.update s.loc t Loc.regUnlock t = .regUnlock := Function.update_self ..
  have hpast : ∀ u, (Function.update s.loc t .regUnlock u).past = (s.loc u).past :=
    proj_update rfl Loc.past (by rw [hloc]; rfl)
  have hcap : ∀ u a, (Function.update s.loc t .regUnlock u).cap = some a → (s.loc u).cap = some a :=
    some_update rfl Loc.cap (.inr rfl)
  have hreg : ∀ u, (s.loc u).reg = true → (Function.update s.loc t .regUnlock u).reg = true :=
    forall_update (P := fun u (x : Loc) => (s.loc u).reg = true → x.reg = true) rfl (fun _ => rfl) fun _ _ => id
  have htotal : ∀ a, (arr a).total = (s.array a).total := fun a => by
    by_cases ha : a = c
    · rw [harr, ha, Function.update_self]
    · rw [harr, Function.update_of_ne ha]
  -- nobody else has a pointer there
  have hfree : ∀ u, (s.array c).counterp (s.idx t) ≠ some u := fun u hu => by
    obtain ⟨hi, hg, hr⟩ := (h.array c h.cur).slot _ u hu
    have hut : u ≠ t := fun hut => by
      rw [hut, hloc] at hr
      cases hr
    have hp : (s.loc u).past = false := Bool.eq_false_iff.mpr fun hp => by
      rw [h.curGone u hp] at hg
      cases hg
    exact h.idx_ne (by rw [hloc]; nofun) (by rw [hloc]; nofun) hr hp hut hi.symm
  have hslot : ∀ a i u, (arr a).counterp i = some u ↔
      (s.array a).counterp i = some u ∨ a = c ∧ i = s.idx t ∧ u = t := fun a i u => by
    by_cases ha : a = c
    · subst ha
      rw [harr, Function.update_self]
      dsimp only
      by_cases hi : i = s.idx t
      · subst hi
        rw [Function.update_self]
        exact ⟨fun he => .inr ⟨rfl, rfl, (Option.some.inj he).symm⟩,
          fun he => he.elim (fun he => absurd he (hfree u)) fun he => congrArg some he.2.2.symm⟩
      · rw [Function.update_of_ne hi]
        exact ⟨.inl, fun he => he.resolve_right fun he => hi he.2.1⟩
    · rw [harr, Function.update_of_ne ha]
      exact ⟨.inl, fun he => he.resolve_right fun he => ha he.1⟩
  have h0 : s.completed t = 0 := h.fresh t (by rw [hloc]; rfl)
  have hnew : ∀ u, Function.update s.loc t .regUnlock u ≠ .new → s.loc u ≠ .new :=
    ne_goto rfl (by rw [hloc]; nofun)
  have hlive : ∀ u, Function.update s.loc t .regUnlock u ≠ .exited → s.loc u ≠ .exited :=
    ne_goto rfl (by rw [hloc]; nofun)
  refine ⟨h.lock.stay rfl (by rw [hloc]; rfl), fun u hu => ?_, fun u => ⟨(h.begun u).1, fun d hd => ?_⟩, fun u hu => ?_,
    fun u hu => ?_, fun u v hu hu' hv hv' huv => ?_, h.used, h.cur, fun a ha => ⟨?_, fun u hu => ?_, fun i u hu => ?_⟩,
    fun u hu => ?_, fun u hu hp => ?_, fun u a hu => ?_, fun u v a hu hv => ?_, fun u a hu => ?_, fun u => ?_,
    fun a ha => ?_, fun r => ?_⟩
  · by_cases hut : u = t
    · subst hut
      exact h.counter u (by rw [hloc]; nofun)
    · exact h.counter u fun he => hu ((hl u hut).trans he)
  · by_cases hut : u = t
    · subst hut
      cases hself.symm.trans hd
    · exact (h.begun u).2 d ((hl u hut).symm.trans hd)
  · by_cases hut : u = t
    · exact hut ▸ h0
    · exact h.fresh u (by rw [← hl u hut]; exact hu)
  · exact h.idx u (hnew u hu)
  · exact h.ids u v (hnew u hu) (hlive u hu') (hnew v hv) (hlive v hv') huv
  · exact (htotal a).trans (h.array a ha).total
  · exact (hpast u).trans ((h.array a ha).past u hu)
  · rcases (hslot a i u).mp hu with hu | ⟨rfl, rfl, rfl⟩
    · obtain ⟨hi, hg, hr⟩ := (h.array a ha).slot i u hu
      exact ⟨hi, hg, hreg u hr⟩
    · refine ⟨rfl, Bool.eq_false_iff.mpr fun hg => ?_, congrArg Loc.reg hself⟩
      have hp := (h.array _ h.cur).past u hg
      rw [hloc] at hp
      cases hp
  · exact h.curGone u ((hpast u).symm.trans hu)
  · refine (hslot _ _ u).mpr ?_
    by_cases hut : u = t
    · exact .inr ⟨rfl, congrArg s.idx hut, hut⟩
    · exact .inl (h.curSlot u ((congrArg Loc.reg (hl u hut)).symm.trans hu) ((hpast u).symm.trans hp))
  · exact h.cap u a (hcap u a hu)
  · exact h.caps u v a (hcap u a hu) (hcap v a hv)
  · by_cases hut : u = t
    · subst hut
      cases hself.symm.trans hu
    · -- it would hold the lock too
      have hlu : (s.loc u).locks = true := by rw [(hl u hut).symm.trans hu]; rfl
      exact absurd (h.lock.eq (by rw [hloc]; rfl) hlu) hut
  · exact h.capold_goto rfl rfl u
  · exact h.freed_goto rfl (by rw [hloc]; nofun) ha
  · refine (h.reader r).keeps (s := s) ⟨rfl, fun _ => le_rfl, fun _ => id, fun _ _ => rfl,
      fun a i u _ hs => (hslot a i u).mpr (.inl hs), fun a i u _ hs => ?_, fun _ => .inl rfl,
      fun _ u hu => .inl ⟨(hpast u).symm.trans hu, fun hw => waits_of_ne (hl u fun hut => ?_) rfl hw⟩⟩
    · rcases (hslot a i u).mp hs with hs | ⟨-, -, rfl⟩
      · exact .inl hs
      · exact .inr h0
    · rw [hut, Waits, hloc] at hw
      exact hw

/-- **An increment is stored.** The thread is in no total yet. -/
theorem store {c : ℕ} (hloc : s.loc t = .store c) (hn : stepThread s t = some s') : Inv s' nrThreads := by
  rw [stepThread, hloc] at hn
  cases hn
  obtain ⟨hlt, hc⟩ := (h.begun t).2 c hloc
  have hl : ∀ u, u ≠ t → Function.update s.loc t .idle u = s.loc u := fun u hu => Function.update_of_ne hu ..
  have hself : Function.update s.loc t Loc.idle t = .idle := Function.update_self ..
  have hpast : ∀ u, (Function.update s.loc t .idle u).past = (s.loc u).past :=
    proj_update rfl Loc.past (by rw [hloc]; rfl)
  have hreg : ∀ u, (Function.update s.loc t .idle u).reg = (s.loc u).reg :=
    proj_update rfl Loc.reg (by rw [hloc]; rfl)
  have hcap : ∀ u a, (Function.update s.loc t .idle u).cap = some a → (s.loc u).cap = some a :=
    some_update rfl Loc.cap (.inr rfl)
  have hnew : ∀ u, Function.update s.loc t .idle u ≠ .new → s.loc u ≠ .new :=
    ne_goto rfl (by rw [hloc]; nofun)
  have hlive : ∀ u, Function.update s.loc t .idle u ≠ .exited → s.loc u ≠ .exited :=
    ne_goto rfl (by rw [hloc]; nofun)
  have hcomp : ∀ u, u ≠ t → Function.update s.completed t (s.completed t + 1) u = s.completed u :=
    fun u hu => Function.update_of_ne hu ..
  have hcompt : Function.update s.completed t (s.completed t + 1) t = s.completed t + 1 := Function.update_self ..
  have hnotgone : ∀ a u, s.published a = true → s.gone a u = true → u ≠ t := fun a u ha hu hut => by
    have hp := (h.array a ha).past u hu
    rw [hut, hloc] at hp
    cases hp
  refine ⟨h.lock.stay rfl (by rw [hloc]; rfl), fun u hu => ?_, fun u => ?_, fun u hu => ?_,
    fun u hu => h.idx u (hnew u hu),
    fun u v hu hu' hv hv' => h.ids u v (hnew u hu) (hlive u hu') (hnew v hv) (hlive v hv'), h.used, h.cur,
    fun a ha => ⟨?_, fun u hu => (hpast u).trans ((h.array a ha).past u hu), fun i u hu => ?_⟩,
    fun u hu => h.curGone u ((hpast u).symm.trans hu),
    fun u hu hp => h.curSlot u ((hreg u).symm.trans hu) ((hpast u).symm.trans hp),
    fun u a hu => h.cap u a (hcap u a hu), fun u v a hu hv => h.caps u v a (hcap u a hu) (hcap v a hv),
    fun u a hu => ?_, fun u => ?_, fun a ha => ?_, fun r => ?_⟩
  · change Function.update s.counter t (c + 1) u = Function.update s.completed t (s.completed t + 1) u
    by_cases hut : u = t
    · rw [hut, hcompt, Function.update_self, hc]
    · rw [hcomp u hut, Function.update_of_ne hut]
      exact h.counter u fun he => hu ((hl u hut).trans he)
  · change Function.update s.completed t (s.completed t + 1) u ≤ s.begun u ∧
      ∀ d, Function.update s.loc t .idle u = .store d →
      Function.update s.completed t (s.completed t + 1) u < s.begun u ∧
        d = Function.update s.completed t (s.completed t + 1) u
    by_cases hut : u = t
    · rw [hut, hcompt, hself]
      exact ⟨hlt, nofun⟩
    · rw [hcomp u hut, hl u hut]
      exact h.begun u
  · have hut : u ≠ t := fun hut => by
      change (Function.update s.loc t .idle u).counts = false at hu
      rw [hut, hself] at hu
      cases hu
    exact (hcomp u hut).trans (h.fresh u (by rw [← hl u hut]; exact hu))
  · refine (h.array a ha).total.trans (Finset.sum_congr rfl fun u hu => ?_)
    exact (hcomp u (hnotgone a u ha (Finset.mem_filter.mp hu).2)).symm
  · obtain ⟨hi, hg, hr⟩ := (h.array a ha).slot i u hu
    exact ⟨hi, hg, (hreg u).trans hr⟩
  · have hut : u ≠ t := fun hut => by
      subst hut
      cases hself.symm.trans hu
    have ha := h.assign u a ((hl u hut).symm.trans hu)
    change s.array a = (s.array s.countarrayp).without (s.idx u) (Function.update s.counter t (c + 1) u) ∧ _
    rw [Function.update_of_ne hut]
    exact ha
  · exact h.capold_goto rfl rfl u
  · exact h.freed_goto rfl (by rw [hloc]; nofun) ha
  · refine (h.reader r).keeps (s := s) ⟨rfl, fun u => ?_, fun _ => id, fun _ _ => rfl, fun _ _ _ _ => id,
      fun _ _ _ _ => .inl, fun _ => .inl rfl,
      fun _ u hu => .inl ⟨(hpast u).symm.trans hu, fun hw => waits_of_ne (hl u fun hut => ?_) rfl hw⟩⟩
    · change s.completed u ≤ Function.update s.completed t (s.completed t + 1) u
      by_cases hut : u = t
      · rw [hut, hcompt]
        exact Nat.le_succ _
      · rw [hcomp u hut]
    · rw [hut, Waits, hloc] at hw
      exact hw

/-- The new array is filled. -/
theorem unregFill (hloc : s.loc t = .unregFill a) (hn : stepThread s t = some s') : Inv s' nrThreads := by
  rw [stepThread, hloc] at hn
  cases hn
  obtain ⟨hused, hpub⟩ := h.cap t a (by rw [hloc]; rfl)
  have hne : ∀ b, s.published b = true → b ≠ a := fun b hb hba => by
    rw [hba, hpub] at hb
    cases hb
  refine h.goes (t := t) (l := .unregAssign a) {
    loc := rfl
    move := hloc ▸ ⟨⟨nofun, nofun⟩, nofun, rfl, rfl, nofun, nofun⟩
    lock := h.lock.stay rfl (by rw [hloc]; rfl)
    begun := fun _ => le_rfl
    store := nofun
    used := fun _ => id
    cap := fun b hb => ?_
    array := fun b hb => ⟨Function.update_of_ne (hne b hb) .., Function.update_of_ne (hne b hb) ..⟩
    assign := fun u b hu => ?_
    freed := fun _ => .inl
    waits := waits_goes rfl rfl fun r _ hw => by rw [Waits, hloc] at hw; exact hw.elim }
  · cases hb
    exact ⟨hused, hpub, fun u hu hua => hu (h.caps u t a hua (by rw [hloc]; rfl))⟩
  · by_cases hut : u = t
    · subst hut
      cases (Function.update_self u _ s.loc).symm.trans hu
      exact ⟨Function.update_self .., Function.update_self ..⟩
    · -- it would hold the lock too
      have hlu : (s.loc u).locks = true := by rw [(Function.update_of_ne hut _ s.loc).symm.trans hu]; rfl
      exact absurd (h.lock.eq (by rw [hloc]; rfl) hlu) hut

/-- What the new array has, when it is published. -/
theorem arrayInv_cap (hloc : s.loc t = .unregAssign a) : (s.array a).total = ∑ u with s.gone a u = true, s.completed u ∧
    (∀ u, s.gone a u = true → u = t ∨ (s.loc u).past = true) ∧
    ∀ i u, (s.array a).counterp i = some u → i = s.idx u ∧ s.gone a u = false ∧ (s.loc u).reg = true := by
  obtain ⟨harr, hgone⟩ := h.assign t a hloc
  have hcur := h.array _ h.cur
  have ht : s.gone s.countarrayp t = false := Bool.eq_false_iff.mpr fun ht => by
    have hp := hcur.past t ht
    rw [hloc] at hp
    cases hp
  have hgt : s.gone a t = true := by rw [hgone, Function.update_self]
  have hgu : ∀ u, u ≠ t → s.gone a u = s.gone s.countarrayp u := fun u hu => by rw [hgone, Function.update_of_ne hu]
  refine ⟨?_, fun u hu => ?_, fun i u hu => ?_⟩
  · have hset : Finset.univ.filter (fun u => s.gone a u = true) =
        insert t (Finset.univ.filter fun u => s.gone s.countarrayp u = true) := by
      ext u
      simp only [Finset.mem_filter, Finset.mem_univ, true_and, Finset.mem_insert]
      by_cases hut : u = t
      · simp [hut, hgt]
      · simp [hut, hgu u hut]
    have hnot : t ∉ Finset.univ.filter fun u => s.gone s.countarrayp u = true := by simp [ht]
    rw [hset, Finset.sum_insert hnot, harr, CountArray.without, hcur.total, h.counter t (by rw [hloc]; nofun), add_comm]
  · by_cases hut : u = t
    · exact .inl hut
    · rw [hgu u hut] at hu
      exact .inr (hcur.past u hu)
  · rw [harr, CountArray.without] at hu
    dsimp only at hu
    by_cases hi : i = s.idx t
    · rw [hi, Function.update_self] at hu
      cases hu
    · rw [Function.update_of_ne hi] at hu
      obtain ⟨hiu, hg, hr⟩ := hcur.slot i u hu
      have hut : u ≠ t := fun hut => hi (hut ▸ hiu)
      exact ⟨hiu, (hgu u hut).trans hg, hr⟩

/-- **The new array is published.** -/
theorem unregAssign (hloc : s.loc t = .unregAssign a) (hn : stepThread s t = some s') : Inv s' nrThreads := by
  rw [stepThread, hloc] at hn
  cases hn
  obtain ⟨harr, hgone⟩ := h.assign t a hloc
  obtain ⟨htotal, hpastcap, hslotcap⟩ := h.arrayInv_cap hloc
  obtain ⟨hused, hpub⟩ := h.cap t a (by rw [hloc]; rfl)
  set c := s.countarrayp with hc
  set pub := Function.update s.published a true with hpubdef
  have hpublished : ∀ b, s.published b = true → pub b = true := fun b hb => by
    by_cases hba : b = a
    · rw [hpubdef, hba, Function.update_self]
    · rwa [hpubdef, Function.update_of_ne hba]
  have hpublished' : ∀ b, pub b = true → b = a ∨ s.published b = true := fun b hb => by
    by_cases hba : b = a
    · exact .inl hba
    · rw [hpubdef, Function.update_of_ne hba] at hb
      exact .inr hb
  have hl : ∀ u, u ≠ t → Function.update s.loc t (.unregUnlock c) u = s.loc u := fun u hu => Function.update_of_ne hu ..
  have hself : Function.update s.loc t (Loc.unregUnlock c) t = .unregUnlock c := Function.update_self ..
  have hpast : ∀ u, (s.loc u).past = true → (Function.update s.loc t (.unregUnlock c) u).past = true :=
    forall_update (P := fun u (x : Loc) => (s.loc u).past = true → x.past = true) rfl (fun _ => rfl) fun _ _ => id
  have hreg : ∀ u, (Function.update s.loc t (.unregUnlock c) u).reg = (s.loc u).reg :=
    proj_update rfl Loc.reg (by rw [hloc]; rfl)
  have hnew : ∀ u, Function.update s.loc t (.unregUnlock c) u ≠ .new → s.loc u ≠ .new :=
    ne_goto rfl (by rw [hloc]; nofun)
  have hlive : ∀ u, Function.update s.loc t (.unregUnlock c) u ≠ .exited → s.loc u ≠ .exited :=
    ne_goto rfl (by rw [hloc]; nofun)
  have hcap : ∀ u b, (Function.update s.loc t (.unregUnlock c) u).cap = some b → u ≠ t ∧ (s.loc u).cap = some b :=
    fun u b hu => by
      by_cases hut : u = t
      · subst hut
        cases (congrArg Loc.cap hself).symm.trans hu
      · exact ⟨hut, (congrArg Loc.cap (hl u hut)).symm.trans hu⟩
  refine ⟨h.lock.stay rfl (by rw [hloc]; rfl), fun u hu => h.counter u (hlive u hu),
    fun u => ⟨(h.begun u).1, fun d hd => ?_⟩, fun u hu => ?_, fun u hu => h.idx u (hnew u hu),
    fun u v hu hu' hv hv' => h.ids u v (hnew u hu) (hlive u hu') (hnew v hv) (hlive v hv'), fun b hb => ?_,
    Function.update_self .., fun b hb => ?_, fun u hu => ?_, fun u hu hp => ?_, fun u b hu => ?_,
    fun u v b hu hv => h.caps u v b (hcap u b hu).2 (hcap v b hv).2, fun u b hu => ?_, fun u b hu => ?_, fun b hb => ?_,
    fun r => ?_⟩
  · by_cases hut : u = t
    · subst hut
      cases hself.symm.trans hd
    · exact (h.begun u).2 d ((hl u hut).symm.trans hd)
  · exact h.fresh u (forall_update (P := fun u (x : Loc) => x.counts = false → (s.loc u).counts = false) rfl
      (fun hc => by cases hc) (fun _ _ => id) u hu)
  · rcases hpublished' b hb with rfl | hb
    · exact hused
    · exact h.used b hb
  · rcases hpublished' b hb with rfl | hb
    · refine ⟨htotal, fun u hu => ?_, fun i u hu => ?_⟩
      · rcases hpastcap u hu with rfl | hp
        · exact congrArg Loc.past hself
        · exact hpast u hp
      · obtain ⟨hi, hg, hr⟩ := hslotcap i u hu
        exact ⟨hi, hg, (hreg u).trans hr⟩
    · refine ⟨(h.array b hb).total, fun u hu => hpast u ((h.array b hb).past u hu), fun i u hu => ?_⟩
      obtain ⟨hi, hg, hr⟩ := (h.array b hb).slot i u hu
      exact ⟨hi, hg, (hreg u).trans hr⟩
  · change s.gone a u = true
    rw [hgone]
    by_cases hut : u = t
    · rw [hut, Function.update_self]
    · rw [Function.update_of_ne hut]
      exact h.curGone u ((congrArg Loc.past (hl u hut)).symm.trans hu)
  · change (s.array a).counterp (s.idx u) = some u
    have hut : u ≠ t := fun hut => by
      subst hut
      cases (congrArg Loc.past hself).symm.trans hp
    have hr := (hreg u).symm.trans hu
    have hp := (congrArg Loc.past (hl u hut)).symm.trans hp
    have hi := h.idx_ne (by rw [hloc]; nofun) (by rw [hloc]; nofun) hr hp hut
    rw [harr, CountArray.without]
    exact (Function.update_of_ne hi ..).trans (h.curSlot u hr hp)
  · obtain ⟨hut, hu⟩ := hcap u b hu
    obtain ⟨hub, hpb⟩ := h.cap u b hu
    have hba : b ≠ a := fun hba => hut (h.caps u t a (hba ▸ hu) (by rw [hloc]; rfl))
    exact ⟨hub, (Function.update_of_ne hba ..).trans hpb⟩
  · have hut : u ≠ t := fun hut => by
      subst hut
      cases hself.symm.trans hu
    -- it would hold the lock too
    have hlu : (s.loc u).locks = true := by rw [(hl u hut).symm.trans hu]; rfl
    exact absurd (h.lock.eq (by rw [hloc]; rfl) hlu) hut
  · by_cases hut : u = t
    · subst hut
      cases (congrArg Loc.capold hself).symm.trans hu
      refine ⟨hpublished _ h.cur, Bool.eq_false_iff.mpr fun hg => ?_⟩
      have hp := (h.array _ h.cur).past u hg
      rw [hloc] at hp
      cases hp
    · obtain ⟨hp, hg⟩ := h.capold u b ((congrArg Loc.capold (hl u hut)).symm.trans hu)
      exact ⟨hpublished b hp, hg⟩
  · exact (h.freed_goto rfl (by rw [hloc]; nofun) hb).imp_left (hpublished b)
  · refine (h.reader r).keeps (s := s) ⟨rfl, fun _ => le_rfl, hpublished, fun _ _ => rfl, fun _ _ _ _ => id,
      fun _ _ _ _ => .inl, fun _ => .inl rfl, fun _ u hu => ?_⟩
    by_cases hut : u = t
    · refine .inr ?_
      subst hut
      simp only [Waits, St.goto, Function.update_self]
    · exact .inl ⟨(congrArg Loc.past (hl u hut)).symm.trans hu, fun hw => waits_of_ne (hl u hut) rfl hw⟩

theorem stepThread (hn : stepThread s t = some s') : Inv s' nrThreads := by
  cases hloc : s.loc t with
  | regSet => exact h.regSet hloc hn
  | store c => exact h.store hloc hn
  | unregFill a => exact h.unregFill hloc hn
  | unregAssign a => exact h.unregAssign hloc hn
  | new | idle | exited =>
    rw [EndRcu.stepThread, hloc] at hn
    cases hn
  | regLock =>
    rw [EndRcu.stepThread, hloc] at hn
    dsimp only at hn
    split at hn
    · next hnone =>
      cases hn
      exact h.onward (hloc ▸ .regLock) ((hnone ▸ h.lock).take rfl rfl) (fun _ _ => rfl) (fun _ => .inl)
        fun r _ hw => by
          rw [Waits, hloc] at hw
          exact hw.elim
    · cases hn
  | regUnlock =>
    rw [EndRcu.stepThread, hloc] at hn
    cases hn
    exact h.onward (hloc ▸ .regUnlock) (h.lock.drop rfl (by rw [hloc]; rfl) rfl) (fun _ _ => rfl) (fun _ => .inl)
      fun r _ hw => by
        rw [Waits, hloc] at hw
        exact hw.elim
  | unregLock a =>
    rw [EndRcu.stepThread, hloc] at hn
    dsimp only at hn
    split at hn
    · next hnone =>
      cases hn
      exact h.onward (hloc ▸ .unregLock) ((hnone ▸ h.lock).take rfl rfl) (fun _ _ => rfl) (fun _ => .inl)
        fun r _ hw => by
          rw [Waits, hloc] at hw
          exact hw.elim
    · cases hn
  | unregUnlock a =>
    rw [EndRcu.stepThread, hloc] at hn
    cases hn
    exact h.onward (hloc ▸ .unregUnlock) (h.lock.drop rfl (by rw [hloc]; rfl) rfl) (fun _ _ => rfl) (fun _ => .inl)
      fun r _ _ => by
        simp only [Waits, Function.update_self]
  | sync a =>
    rw [EndRcu.stepThread, hloc] at hn
    cases hn
    refine h.onward (hloc ▸ .sync) (h.lock.stay rfl (by rw [hloc]; rfl)) (fun u hu => Function.update_of_ne hu ..)
      (fun _ => .inl) fun r hin _ => ?_
    simp only [Waits, Function.update_self]
    exact hin
  | wait a =>
    rw [EndRcu.stepThread, hloc] at hn
    dsimp only at hn
    split at hn
    · next hall =>
      cases hn
      exact h.onward (hloc ▸ .wait) (h.lock.stay rfl (by rw [hloc]; rfl)) (fun _ _ => rfl) (fun _ => .inl)
        fun r _ hw => by
          rw [Waits, hloc] at hw
          exact Bool.noConfusion ((hall r).symm.trans hw)
    · cases hn
  | free a =>
    rw [EndRcu.stepThread, hloc] at hn
    cases hn
    refine h.onward (hloc ▸ .free) (h.lock.stay rfl (by rw [hloc]; rfl)) (fun _ _ => rfl) (fun b hb => ?_)
      fun r _ hw => by
        rw [Waits, hloc] at hw
        exact hw.elim
    by_cases hba : b = a
    · exact .inr ⟨rfl, by rw [hloc, hba]; rfl⟩
    · exact .inl ((Function.update_of_ne hba ..).symm.trans hb)

/-- The memory of a thread that has exited is used again. -/
theorem reuse {c : ℕ} (hn : next nrThreads s (.reuse t c) = some s') : Inv s' nrThreads := by
  rw [next] at hn
  split at hn
  · next hloc =>
    cases hn
    have hne : ∀ u, s.loc u ≠ .exited → Function.update s.counter t c u = s.counter u := fun u hu =>
      Function.update_of_ne (fun hut : u = t => hu (hut ▸ hloc)) ..
    refine ⟨h.lock, fun u hu => (hne u hu).trans (h.counter u hu), h.begun, h.fresh, h.idx, h.ids, h.used, h.cur,
      fun a ha => ⟨(h.array a ha).total, (h.array a ha).past, (h.array a ha).slot⟩, h.curGone, h.curSlot, h.cap, h.caps,
      fun u a hu => ?_, h.capold, h.freed, fun r => ?_⟩
    · change s.array a = (s.array s.countarrayp).without (s.idx u) (Function.update s.counter t c u) ∧ _
      have hlive : s.loc u ≠ .exited := fun he => nomatch he.symm.trans hu
      rw [hne u hlive]
      exact h.assign u a hu
    · exact (h.reader r).keeps (s := s) (.goes rfl rfl rfl rfl rfl rfl fun _ u hu => .inl ⟨hu, waits_of_ne rfl rfl⟩)
  · cases hn

theorem next {a : Act n m} (hn : next nrThreads s a = some s') : Inv s' nrThreads := by
  cases a with
  | register t i => exact h.register hn
  | inc t => exact h.inc hn
  | unregister t a => exact h.unregister hn
  | step t => exact h.stepThread hn
  | reuse t c => exact h.reuse hn
  | read r => exact h.read hn
  | stepReader r => exact h.stepReader hn

end Inv

/-! ### All runs -/

theorem inv_init (h : Init s) : Inv s nrThreads where
  lock t := by
    rw [h.lock, h.loc t]
    exact iff_of_false nofun nofun
  counter t _ := by rw [h.counter, h.completed]
  begun t := by
    rw [h.completed, h.loc t]
    exact ⟨Nat.zero_le _, nofun⟩
  fresh t _ := h.completed t
  idx t ht := absurd (h.loc t) ht
  ids t _ ht := absurd (h.loc t) ht
  used a ha := by
    rw [h.used, ← h.published]
    exact ha
  cur := by rw [h.published, decide_eq_true rfl]
  array a ha := by
    rw [h.published, decide_eq_true_iff] at ha
    subst ha
    refine ⟨?_, fun u hu => ?_, fun i u hu => ?_⟩
    · rw [h.array]
      simp [h.gone]
    · rw [h.gone] at hu
      cases hu
    · rw [h.array] at hu
      cases hu
  curGone t ht := by
    rw [h.loc t] at ht
    cases ht
  curSlot t ht := by
    rw [h.loc t] at ht
    cases ht
  cap t a ht := by
    rw [h.loc t] at ht
    cases ht
  caps t u a ht := by
    rw [h.loc t] at ht
    cases ht
  assign t a ht := by
    rw [h.loc t] at ht
    cases ht
  capold t a ht := by
    rw [h.loc t] at ht
    cases ht
  freed a ha := by
    rw [h.freed] at ha
    cases ha
  reader r := by
    rw [h.reader]
    trivial

/-- **`read_count` is bounded**, whatever threads come and go. -/
theorem read_count_bounded (h : (sys n m nrThreads).Reach Sys.always s) : Bounded s :=
  (h.inv (I := fun s => Inv s nrThreads) (fun _ => inv_init) fun _ _ _ hi _ hn => hi.next hn).bounded

/-- One thread that counts and one that reads, with the array at 0. -/
def start : St 1 1 where
  counter _ := 0
  array _ := ⟨0, fun _ => none⟩
  countarrayp := 0
  lock := none
  loc _ := .new
  idx _ := 0
  reader _ := .idle
  used a := decide (a = 0)
  pre _ _ := false
  begun _ := 0
  completed _ := 0
  base _ _ := 0
  gone _ _ := false
  published a := decide (a = 0)
  freed _ := false

/-- The reader has the old array, when the thread that has counted once publishes a new one. -/
def leaves : List (Act 1 1) :=
  [.register 0 0, .step 0, .step 0, .step 0, .inc 0, .step 0, .read 0, .stepReader 0, .unregister 0 1] ++
    List.replicate 5 (.step 0) ++ List.replicate 5 (.stepReader 0) ++ List.replicate 2 (.step 0)

theorem read_count_bounded_run : ∃ s, (sys 1 1 1).Reach Sys.always s ∧ s.reader 0 = .returned 1 ∧ s.loc 0 = .exited ∧
    s.freed 0 = true ∧ Bounded s := by
  have hrun : ((sys 1 1 1).run Sys.always leaves start).map (fun s => (s.reader 0, s.loc 0, s.freed 0)) =
      some (.returned 1, .exited, true) := by decide
  obtain ⟨s, hs, hd⟩ := Option.map_eq_some_iff.mp hrun
  obtain ⟨hr, hd⟩ := Prod.mk.inj hd
  obtain ⟨hl, hf⟩ := Prod.mk.inj hd
  have hinit : Init start := ⟨fun _ => rfl, rfl, rfl, fun _ => rfl, fun _ => rfl, fun _ => rfl, fun _ => rfl,
    fun _ => rfl, fun _ _ => rfl, fun _ => rfl, fun _ => rfl⟩
  have hreach := Sys.run_reach (.init hinit) hs
  exact ⟨s, hreach, hr, hl, hf, read_count_bounded hreach⟩

end EndRcu
end Count
end Perfbook
