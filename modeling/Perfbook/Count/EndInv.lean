/-
# `count_end.c` is an exact counter

While a reader has the lock, no thread comes or goes. The reader has added `finalcount` first, so
the threads that have left, and then goes through the ids: what it has not come to yet may still
grow, what it has passed may have grown since.

Key definitions: `seen`, `LocInv`, `InvOf`, `Kept`.
Key theorems: `LocInv.step`, `InvOf.of_step`, `InvOf.inv_step`, `inv_next`, `count_end_linearizable`.
-/
import Perfbook.Count.End

namespace Perfbook
namespace Count
namespace End

open Conc

variable {n N : ℕ}

/-- The threads that a reader has added when it comes to the id `i`. -/
def seen (s : St n) (i : ℕ) : Finset (Fin n) :=
  Finset.univ.filter fun u => s.stage u = .left ∨ s.stage u = .registered ∧ s.idx u < i

/-- A sum of a reader that was called when the total was `lo`. -/
def Sum (f : Fin n → ℕ) (lo : ℕ) (D : Finset (Fin n)) (sum : BitVec 64) : Prop :=
  ∃ acc, sum = BitVec.ofNat 64 acc ∧ Tally f D lo acc

/-- What is known of a thread from where it is, when `f` are the increments. -/
def LocInv (N : ℕ) (s : St n) (f : Fin n → ℕ) (lo : ℕ) (t : Fin n) : Loc n → Prop
  | .regLock | .regSet => s.stage t = .new ∧ s.idx t < N
  | .incLoad | .unregLock | .unregAdd => s.stage t = .registered
  | .incStore c => s.stage t = .registered ∧ c = BitVec.ofNat 64 (f t)
  | .unregNull => s.stage t = .left ∧ s.counterp (s.idx t) = some t
  | .readLock | .readInit => lo ≤ ∑ u, f u
  | .readPtr i sum => Sum f lo (seen s i) sum
  | .readCtr i sum u => Sum f lo (seen s i) sum ∧ s.counterp i = some u
  | .readUnlock sum | .readRet sum => Sum f lo Finset.univ sum
  | _ => True

/-- The lock is held. -/
def locks : Loc n → Bool
  | .regSet | .regUnlock | .unregAdd | .unregNull | .unregUnlock | .readInit | .readPtr _ _ | .readCtr _ _ _
  | .readUnlock _ => true
  | _ => false

/-- The invariant, with the increments and the totals at the calls. -/
structure InvOf (N : ℕ) (s : St n) (f lo : Fin n → ℕ) : Prop where
  counter : ∀ t, s.stage t ≠ .left → s.counter t = BitVec.ofNat 64 (f t)
  new : ∀ t, s.stage t = .new → f t = 0
  finalcount : s.finalcount = BitVec.ofNat 64 (∑ t with s.stage t = .left, f t)
  ptr : ∀ i t, s.counterp i = some t → s.idx t = i ∧ (s.stage t = .registered ∨ s.loc t = .unregNull)
  has : ∀ t, s.stage t = .registered → s.counterp (s.idx t) = some t ∧ s.idx t < N
  ids : ∀ t u, s.busy t → s.busy u → s.idx t = s.idx u → t = u
  lock : LockedBy locks s.lock s.loc
  loc : ∀ t, LocInv N s f (lo t) t (s.loc t)
  counting : Counting (BitVec.ofNat 64) s.hist (fun t => pend (s.loc t)) lo (∑ t, f t)
  counted : Counted s.hist (fun t => pend (s.loc t)) f

def Inv (N : ℕ) (s : St n) : Prop := ∃ f lo, InvOf N s f lo

/-- What a step of another thread leaves as it is for a thread that is at `l`. -/
structure Kept (s s' : St n) (f f' : Fin n → ℕ) (u : Fin n) (l : Loc n) : Prop where
  stage : s'.stage u = s.stage u
  idx : s'.idx u = s.idx u
  mine : f' u = f u
  grow : ∀ t, f t ≤ f' t
  table : s'.counterp = s.counterp ∧ (∀ i, seen s' i = seen s i) ∨ locks l = false

variable {s s' : St n} {f f' lo lo' : Fin n → ℕ} {t u : Fin n} {l : Loc n} {i k : ℕ} {c sum : BitVec 64}
  {D D' : Finset (Fin n)}

theorem Sum.grow (h : Sum f k D sum) (hf : ∀ t, f t ≤ f' t) : Sum f' k D sum := by
  obtain ⟨acc, hsum, ht⟩ := h
  exact ⟨acc, hsum, ht.grow hf⟩

theorem Sum.skip (h : Sum f k D sum) (hD : D ⊆ D') (h0 : ∀ t ∈ D', t ∉ D → f t = 0) : Sum f k D' sum := by
  obtain ⟨acc, hsum, ht⟩ := h
  exact ⟨acc, hsum, ht.skip hD h0⟩

theorem mem_seen : u ∈ seen s i ↔ s.stage u = .left ∨ s.stage u = .registered ∧ s.idx u < i := by
  simp [seen]

theorem Kept.held (h : Kept s s' f f' u l) (hl : locks l = true) : s'.counterp = s.counterp ∧ ∀ i, seen s' i = seen s i :=
  h.table.resolve_right fun hn => by
    rw [hl] at hn
    cases hn

/-- **Another thread's step**, seen from where a thread is. -/
theorem LocInv.step (hk : Kept s s' f f' u l) (h : LocInv N s f k u l) : LocInv N s' f' k u l := by
  cases l with
  | regLock | regSet => exact ⟨hk.stage.trans h.1, hk.idx ▸ h.2⟩
  | incLoad | unregLock | unregAdd => exact hk.stage.trans h
  | incStore c => exact ⟨hk.stage.trans h.1, h.2.trans (congrArg _ hk.mine.symm)⟩
  | unregNull =>
    refine ⟨hk.stage.trans h.1, ?_⟩
    rw [(hk.held rfl).1, hk.idx]
    exact h.2
  | readLock | readInit => exact le_trans h (Finset.sum_le_sum fun t _ => hk.grow t)
  | readPtr i sum =>
    have hs := Sum.grow h hk.grow
    rwa [← (hk.held rfl).2 i] at hs
  | readCtr i sum u =>
    have hs := Sum.grow h.1 hk.grow
    rw [← (hk.held rfl).2 i] at hs
    exact ⟨hs, (congrFun (hk.held rfl).1 i).trans h.2⟩
  | readUnlock sum | readRet sum => exact Sum.grow h hk.grow
  | _ => trivial

theorem busy_update (hstage : s'.stage = s.stage) (hloc : s'.loc = Function.update s.loc t l)
    (hb : l.moves = true → s.busy t) (u : Fin n) (hu : s'.busy u) : s.busy u := by
  unfold St.busy at hu
  rw [hstage, hloc] at hu
  by_cases hut : u = t
  · rw [hut, Function.update_self] at hu
    rw [hut]
    exact hu.elim .inl hb
  · rw [Function.update_of_ne hut] at hu
    exact hu

namespace InvOf

variable (h : InvOf N s f lo)
include h

theorem kept (hk : Kept s s' f f' u (s.loc u)) : LocInv N s' f' (lo u) u (s.loc u) := (h.loc u).step hk

/-- A thread goes on, and no thread comes or goes. -/
theorem of_step (hloc : s'.loc = Function.update s.loc t l) (hptr : s'.counterp = s.counterp) (hidx : s'.idx = s.idx)
    (hstage : s'.stage = s.stage) (hfinal : s'.finalcount = s.finalcount)
    (hcounter : ∀ t, s.stage t ≠ .left → s'.counter t = BitVec.ofNat 64 (f' t)) (hf : ∀ t, f t ≤ f' t)
    (hfu : ∀ u, u ≠ t ∨ s.stage t ≠ .registered → f' u = f u) (hne : s.loc t ≠ .unregNull) (hb : l.moves = true → s.busy t)
    (hlock : LockedBy locks s'.lock s'.loc) (hlo : ∀ u, u ≠ t → lo' u = lo u) (hl : LocInv N s f' (lo' t) t l)
    (hc : Counting (BitVec.ofNat 64) s'.hist (fun t => pend (s'.loc t)) lo' (∑ t, f' t))
    (hm : Counted s'.hist (fun t => pend (s'.loc t)) f') : InvOf N s' f' lo' := by
  have hseen : ∀ i, seen s' i = seen s i := fun i => by
    unfold seen
    rw [hstage, hidx]
  have hreg : ∀ u, s.stage u ≠ .registered → f' u = f u := fun u hu => hfu u (by
    by_cases hut : u = t
    · exact .inr (hut ▸ hu)
    · exact .inl hut)
  refine ⟨fun u hu => hcounter u (hstage ▸ hu), fun u hu => ?_, ?_, fun i u hu => ?_, fun u hu => ?_, fun u v hu hv he => ?_,
    hlock, ?_, hc, hm⟩
  · rw [hstage] at hu
    rw [hreg u (by rw [hu]; nofun)]
    exact h.new u hu
  · rw [hfinal, hstage, h.finalcount]
    refine congrArg _ (Finset.sum_congr rfl fun u hu => (hreg u ?_).symm)
    rw [(Finset.mem_filter.mp hu).2]
    nofun
  · rw [hptr] at hu
    rw [hidx, hstage, hloc]
    obtain ⟨hi, hu⟩ := h.ptr i u hu
    refine ⟨hi, hu.imp_right fun hu => ?_⟩
    have hut : u ≠ t := by
      rintro rfl
      exact hne hu
    rwa [Function.update_of_ne hut]
  · rw [hstage] at hu
    rw [hptr, hidx]
    exact h.has u hu
  · rw [hidx] at he
    exact h.ids u v (busy_update hstage hloc hb u hu) (busy_update hstage hloc hb v hv) he
  · have hself : LocInv N s' f' (lo' t) t l :=
      hl.step ⟨congrFun hstage t, congrFun hidx t, rfl, fun _ => le_rfl, .inl ⟨hptr, hseen⟩⟩
    refine forall_update (P := fun u x => LocInv N s' f' (lo' u) u x) hloc hself fun u hu => ?_
    rw [hlo u hu]
    exact h.kept ⟨congrFun hstage u, congrFun hidx u, hfu u (.inl hu), hf, .inl ⟨hptr, hseen⟩⟩

/-- A thread goes on with the lock it has. -/
theorem goto (hp : pend l = pend (s.loc t)) (hL : locks l = locks (s.loc t)) (hne : s.loc t ≠ .unregNull)
    (hb : l.moves = true → s.busy t) (hl : LocInv N s f (lo t) t l) : Inv N (s.goto t l) :=
  ⟨f, lo, h.of_step rfl rfl rfl rfl rfl h.counter (fun _ => le_rfl) (fun _ _ => rfl) hne hb (h.lock.stay rfl hL)
    (fun _ _ => rfl) hl (h.counting.stay rfl hp) (h.counted.stay rfl hp)⟩

theorem takes (hlock : s.lock = none) (hp : pend l = pend (s.loc t)) (hL : locks l = true) (hne : s.loc t ≠ .unregNull)
    (hb : l.moves = true → s.busy t) (hl : LocInv N s f (lo t) t l) : Inv N ({ s with lock := some t }.goto t l) := by
  have hfree := h.lock
  rw [hlock] at hfree
  exact ⟨f, lo, h.of_step rfl rfl rfl rfl rfl h.counter (fun _ => le_rfl) (fun _ _ => rfl) hne hb (hfree.take rfl hL)
    (fun _ _ => rfl) hl (h.counting.stay rfl hp) (h.counted.stay rfl hp)⟩

theorem drops (ht : locks (s.loc t) = true) (hp : pend l = pend (s.loc t)) (hL : locks l = false)
    (hne : s.loc t ≠ .unregNull) (hb : l.moves = true → s.busy t) (hl : LocInv N s f (lo t) t l) :
    Inv N ({ s with lock := none }.goto t l) :=
  ⟨f, lo, h.of_step rfl rfl rfl rfl rfl h.counter (fun _ => le_rfl) (fun _ _ => rfl) hne hb (h.lock.drop rfl ht hL)
    (fun _ _ => rfl) hl (h.counting.stay rfl hp) (h.counted.stay rfl hp)⟩

/-! ### Threads that come and go -/

theorem not_locks (ht : locks (s.loc t) = true) (hu : u ≠ t) : locks (s.loc u) = false := by
  rw [← Bool.not_eq_true]
  exact fun hx => hu (h.lock.eq ht hx)

/-- A new thread gets an id. -/
theorem register_step (hidle : s.loc t = .idle) (hnew : s.stage t = .new) (hi : i < N) (hfree : ∀ u, s.busy u → s.idx u ≠ i) :
    Inv N ((s.setIdx t i).goto t .regLock) := by
  have hidx : ∀ u, u ≠ t → Function.update s.idx t i u = s.idx u := fun u hu => Function.update_of_ne hu ..
  have hold : ∀ u, s.stage u ≠ .new → u ≠ t := by
    rintro u hu rfl
    exact hu hnew
  have hseen : ∀ j, seen ((s.setIdx t i).goto t .regLock) j = seen s j := fun j => by
    ext u
    rw [mem_seen, mem_seen]
    refine or_congr_right (and_congr_right fun hu => ?_)
    show Function.update s.idx t i u < j ↔ _
    rw [hidx u (hold u (by rw [show s.stage u = .registered from hu]; nofun))]
  have hbusy : ∀ u, u ≠ t → ((s.setIdx t i).goto t .regLock).busy u → s.busy u := fun u hu hb => by
    change s.stage u = .registered ∨ (Function.update s.loc t .regLock u).moves = true at hb
    rwa [Function.update_of_ne hu] at hb
  refine ⟨f, lo, h.counter, h.new, h.finalcount, fun j u hu => ?_, fun u hu => ?_, fun u v hu hv he => ?_,
    h.lock.stay rfl (by rw [hidle]; rfl), ?_, h.counting.stay rfl (by rw [hidle]; rfl),
    h.counted.stay rfl (by rw [hidle]; rfl)⟩
  · obtain ⟨hj, hs⟩ := h.ptr j u hu
    have hut : u ≠ t := by
      rintro rfl
      rcases hs with hs | hs
      · rw [hnew] at hs
        cases hs
      · rw [hidle] at hs
        cases hs
    refine ⟨(hidx u hut).trans hj, hs.imp_right fun hs => ?_⟩
    exact (Function.update_of_ne hut ..).trans hs
  · have hut := hold u (by rw [show s.stage u = .registered from hu]; nofun)
    show s.counterp (Function.update s.idx t i u) = some u ∧ Function.update s.idx t i u < N
    rw [hidx u hut]
    exact h.has u hu
  · by_cases hut : u = t
    · by_cases hvt : v = t
      · rw [hut, hvt]
      · change Function.update s.idx t i u = Function.update s.idx t i v at he
        rw [hut, Function.update_self, hidx v hvt] at he
        exact absurd he.symm (hfree v (hbusy v hvt hv))
    · change Function.update s.idx t i u = Function.update s.idx t i v at he
      by_cases hvt : v = t
      · rw [hvt, Function.update_self, hidx u hut] at he
        exact absurd he (hfree u (hbusy u hut hu))
      · rw [hidx u hut, hidx v hvt] at he
        exact h.ids u v (hbusy u hut hu) (hbusy v hvt hv) he
  · have hN : Function.update s.idx t i t < N := by
      rw [Function.update_self]
      exact hi
    exact forall_update (P := fun u x => LocInv N ((s.setIdx t i).goto t .regLock) f (lo u) u x) rfl ⟨hnew, hN⟩ fun u hu =>
      h.kept ⟨rfl, hidx u hu, rfl, fun _ => le_rfl, .inl ⟨rfl, hseen⟩⟩

/-- **A thread sets its pointer.** -/
theorem regSet_step (hx : s.loc t = .regSet) :
    Inv N ((s.setPtr t).goto t .regUnlock) := by
  have ht := h.loc t
  rw [hx] at ht
  obtain ⟨hnew, hN⟩ := ht
  have hlk : locks (s.loc t) = true := by rw [hx]; rfl
  have hb : s.busy t := .inr (by rw [hx]; rfl)
  have hstage : ∀ u, u ≠ t → Function.update s.stage t .registered u = s.stage u := fun u hu => Function.update_of_ne hu ..
  have hstage' : ∀ u, Function.update s.stage t .registered u = .left ↔ s.stage u = .left := fun u => by
    by_cases hu : u = t
    · rw [hu, Function.update_self, hnew]
      exact iff_of_false nofun nofun
    · rw [hstage u hu]
  have hother : ∀ u, u ≠ t → s.busy u → s.idx u ≠ s.idx t := fun u hu hbu he => hu (h.ids u t hbu hb he)
  have hbusy : ∀ u, ((s.setPtr t).goto t .regUnlock).busy u → s.busy u := fun u hu => by
    by_cases hut : u = t
    · exact hut ▸ hb
    · change Function.update s.stage t .registered u = .registered ∨ (Function.update s.loc t .regUnlock u).moves = true at hu
      rwa [hstage u hut, Function.update_of_ne hut] at hu
  refine ⟨f, lo, fun u hu => h.counter u fun hl => hu ((hstage' u).mpr hl), fun u hu => ?_, ?_, fun j u hu => ?_, fun u hu => ?_,
    fun u v hu hv he => h.ids u v (hbusy u hu) (hbusy v hv) he, h.lock.stay rfl (by rw [hx]; rfl), ?_,
    h.counting.stay rfl (by rw [hx]; rfl), h.counted.stay rfl (by rw [hx]; rfl)⟩
  · change Function.update s.stage t .registered u = .new at hu
    by_cases hut : u = t
    · rw [hut, Function.update_self] at hu
      cases hu
    · exact h.new u (hstage u hut ▸ hu)
  · refine h.finalcount.trans (congrArg _ (Finset.sum_congr (Finset.filter_congr fun u _ => (hstage' u).symm) fun _ _ => rfl))
  · change Function.update s.counterp (s.idx t) (some t) j = some u at hu
    show s.idx u = j ∧ (Function.update s.stage t .registered u = .registered ∨ Function.update s.loc t .regUnlock u = .unregNull)
    by_cases hj : j = s.idx t
    · rw [hj, Function.update_self] at hu
      obtain rfl := Option.some.inj hu
      exact ⟨hj.symm, .inl (Function.update_self ..)⟩
    · rw [Function.update_of_ne hj] at hu
      obtain ⟨hi, hs⟩ := h.ptr j u hu
      have hut : u ≠ t := by
        rintro rfl
        exact hj hi.symm
      rw [hstage u hut, Function.update_of_ne hut]
      exact ⟨hi, hs⟩
  · show Function.update s.counterp (s.idx t) (some t) (s.idx u) = some u ∧ s.idx u < N
    by_cases hut : u = t
    · rw [hut, Function.update_self]
      exact ⟨rfl, hN⟩
    · have hu : s.stage u = .registered := (hstage u hut).symm.trans hu
      rw [Function.update_of_ne (hother u hut (.inl hu))]
      exact h.has u hu
  · exact forall_update (P := fun u x => LocInv N ((s.setPtr t).goto t .regUnlock) f (lo u) u x) rfl trivial fun u hu =>
      h.kept ⟨hstage u hu, rfl, rfl, fun _ => le_rfl, .inr (h.not_locks hlk hu)⟩

/-- **A thread adds its count to `finalcount`.** -/
theorem unregAdd_step (hx : s.loc t = .unregAdd) :
    Inv N ((s.addCount t).goto t .unregNull) := by
  have hreg := h.loc t
  rw [hx] at hreg
  change s.stage t = .registered at hreg
  have hlk : locks (s.loc t) = true := by rw [hx]; rfl
  have hb : s.busy t := .inl hreg
  have hstage : ∀ u, u ≠ t → Function.update s.stage t .left u = s.stage u := fun u hu => Function.update_of_ne hu ..
  have hne : ∀ {u x}, Function.update s.stage t .left u = x → x ≠ .left → u ≠ t ∧ s.stage u = x := fun {u x} hu hn => by
    have hut : u ≠ t := by
      rintro rfl
      rw [Function.update_self] at hu
      exact hn hu.symm
    exact ⟨hut, (hstage u hut).symm.trans hu⟩
  have hbusy : ∀ u, ((s.addCount t).goto t .unregNull).busy u → s.busy u := fun u hu => by
    by_cases hut : u = t
    · exact hut ▸ hb
    · change Function.update s.stage t .left u = .registered ∨ (Function.update s.loc t .unregNull u).moves = true at hu
      rwa [hstage u hut, Function.update_of_ne hut] at hu
  refine ⟨f, lo, fun u hu => ?_, fun u hu => h.new u (hne hu nofun).2, ?_, fun j u hu => ?_,
    fun u hu => h.has u (hne hu nofun).2, fun u v hu hv he => h.ids u v (hbusy u hu) (hbusy v hv) he,
    h.lock.stay rfl (by rw [hx]; rfl), ?_, h.counting.stay rfl (by rw [hx]; rfl),
    h.counted.stay rfl (by rw [hx]; rfl)⟩
  · obtain ⟨hut, hu⟩ := hne rfl hu
    exact h.counter u (hu ▸ fun hl => (by assumption : Function.update s.stage t .left u ≠ .left) hl)
  · have hset : (Finset.univ.filter fun u => Function.update s.stage t .left u = .left) =
        insert t (Finset.univ.filter fun u => s.stage u = .left) := by
      ext u
      simp only [Finset.mem_filter, Finset.mem_univ, true_and, Finset.mem_insert]
      by_cases hut : u = t
      · rw [hut, Function.update_self]
        exact iff_of_true rfl (.inl rfl)
      · rw [hstage u hut]
        exact (or_iff_right hut).symm
    have hnot : t ∉ Finset.univ.filter fun u => s.stage u = .left := by
      rw [Finset.mem_filter, hreg]
      exact fun hm => nomatch hm.2
    show s.finalcount + s.counter t = BitVec.ofNat 64 (∑ u with Function.update s.stage t .left u = .left, f u)
    rw [hset, Finset.sum_insert hnot, h.finalcount, h.counter t (by rw [hreg]; nofun), Nat.add_comm, BitVec.ofNat_add]
  · obtain ⟨hi, hs⟩ := h.ptr j u hu
    refine ⟨hi, ?_⟩
    show Function.update s.stage t .left u = .registered ∨ Function.update s.loc t .unregNull u = .unregNull
    by_cases hut : u = t
    · rw [hut, Function.update_self, Function.update_self]
      exact .inr rfl
    · rw [hstage u hut, Function.update_of_ne hut]
      exact hs
  · exact forall_update (P := fun u x => LocInv N ((s.addCount t).goto t .unregNull) f (lo u) u x) rfl
      ⟨Function.update_self .., (h.has t hreg).1⟩ fun u hu => h.kept ⟨hstage u hu, rfl, rfl, fun _ => le_rfl, .inr (h.not_locks hlk hu)⟩

/-- **A thread takes its pointer away.** -/
theorem unregNull_step (hx : s.loc t = .unregNull) :
    Inv N ((s.clearPtr t).goto t .unregUnlock) := by
  have ht := h.loc t
  rw [hx] at ht
  obtain ⟨hleft, -⟩ := ht
  have hlk : locks (s.loc t) = true := by rw [hx]; rfl
  have hb : s.busy t := .inr (by rw [hx]; rfl)
  have hbusy : ∀ u, ((s.clearPtr t).goto t .unregUnlock).busy u →
      s.busy u := busy_update rfl rfl fun _ => hb
  refine ⟨f, lo, h.counter, h.new, h.finalcount, fun j u hu => ?_, fun u hu => ?_,
    fun u v hu hv he => h.ids u v (hbusy u hu) (hbusy v hv) he, h.lock.stay rfl (by rw [hx]; rfl), ?_,
    h.counting.stay rfl (by rw [hx]; rfl), h.counted.stay rfl (by rw [hx]; rfl)⟩
  · change Function.update s.counterp (s.idx t) none j = some u at hu
    have hj : j ≠ s.idx t := by
      rintro rfl
      rw [Function.update_self] at hu
      cases hu
    rw [Function.update_of_ne hj] at hu
    obtain ⟨hi, hs⟩ := h.ptr j u hu
    have hut : u ≠ t := by
      rintro rfl
      exact hj hi.symm
    refine ⟨hi, hs.imp_right fun hs => ?_⟩
    exact (Function.update_of_ne hut ..).trans hs
  · change s.stage u = .registered at hu
    have hut : u ≠ t := by
      rintro rfl
      rw [hleft] at hu
      cases hu
    have hne : s.idx u ≠ s.idx t := fun he => hut (h.ids u t (.inl hu) hb he)
    show Function.update s.counterp (s.idx t) none (s.idx u) = some u ∧ s.idx u < N
    rw [Function.update_of_ne hne]
    exact h.has u hu
  · exact forall_update (P := fun u x => LocInv N ((s.clearPtr t).goto t .unregUnlock) f (lo u) u x) rfl trivial fun u hu =>
      h.kept ⟨rfl, rfl, rfl, fun _ => le_rfl, .inr (h.not_locks hlk hu)⟩

/-! ### What a thread does -/

/-- **A reader passes an id.** -/
theorem ptr_step (hx : s.loc t = .readPtr i sum) (hn : s.counterp i = none) :
    Inv N (s.goto t (.readPtr (i + 1) sum)) := by
  have ht := h.loc t
  rw [hx] at ht
  refine h.goto (by rw [hx]; rfl) (by rw [hx]; rfl) (by rw [hx]; nofun) nofun (Sum.skip ht (fun u hu => ?_) fun u hu hu' => ?_)
  · exact mem_seen.mpr ((mem_seen.mp hu).imp_right fun hu => ⟨hu.1, hu.2.trans (Nat.lt_succ_self i)⟩)
  · -- who has the id would have a pointer there
    rcases mem_seen.mp hu with hl | ⟨hr, hlt⟩
    · exact absurd (mem_seen.mpr (.inl hl)) hu'
    · have hge : ¬ s.idx u < i := fun hlt => hu' (mem_seen.mpr (.inr ⟨hr, hlt⟩))
      have hid : s.idx u = i := by omega
      have hptr := (h.has u hr).1
      rw [hid, hn] at hptr
      cases hptr

/-- A pointer that a reader finds is that of a registered thread. -/
theorem registered (ht : locks (s.loc t) = true) (hnull : s.loc t ≠ .unregNull) (hp : s.counterp i = some u) :
    s.stage u = .registered ∧ s.idx u = i := by
  obtain ⟨hi, hs⟩ := h.ptr i u hp
  refine ⟨hs.resolve_right fun hu => ?_, hi⟩
  obtain rfl := h.lock.eq ht (by rw [hu]; rfl)
  exact hnull hu

/-- **A reader adds the counter of a thread.** -/
theorem ctr_step (hx : s.loc t = .readCtr i sum u) : Inv N (s.goto t (.readPtr (i + 1) (sum + s.counter u))) := by
  have ht := h.loc t
  rw [hx] at ht
  obtain ⟨⟨acc, hsum, ht⟩, hp⟩ := ht
  obtain ⟨hr, hid⟩ := h.registered (t := t) (by rw [hx]; rfl) (by rw [hx]; nofun) hp
  have hnot : u ∉ seen s i := fun hm => by
    rcases mem_seen.mp hm with hl | ⟨-, hlt⟩
    · rw [hr] at hl
      cases hl
    · omega
  have hvisit : Sum f (lo t) (insert u (seen s i)) (sum + s.counter u) := by
    refine ⟨acc + f u, ?_, ht.visit hnot⟩
    rw [BitVec.ofNat_add, hsum, h.counter u (by rw [hr]; nofun)]
  refine h.goto (by rw [hx]; rfl) (by rw [hx]; rfl) (by rw [hx]; nofun) nofun (hvisit.skip (fun v hv => ?_) fun v hv hv' => ?_)
  · rcases Finset.mem_insert.mp hv with rfl | hv
    · exact mem_seen.mpr (.inr ⟨hr, by omega⟩)
    · exact mem_seen.mpr ((mem_seen.mp hv).imp_right fun hv => ⟨hv.1, hv.2.trans (Nat.lt_succ_self i)⟩)
  · -- no other thread has the id
    rw [Finset.mem_insert, not_or] at hv'
    rcases mem_seen.mp hv with hl | ⟨hvr, hlt⟩
    · exact absurd (mem_seen.mpr (.inl hl)) hv'.2
    · have hge : ¬ s.idx v < i := fun hlt => hv'.2 (mem_seen.mpr (.inr ⟨hvr, hlt⟩))
      have hptr := (h.has v hvr).1
      have hvi : s.idx v = i := by omega
      rw [hvi, hp] at hptr
      exact absurd (Option.some.inj hptr).symm hv'.1

/-- A reader has come to the end: who is not registered has counted nothing. -/
theorem all_seen (hx : s.loc t = .readPtr i sum) (hi : ¬ i < N) : Inv N (s.goto t (.readUnlock sum)) := by
  have ht := h.loc t
  rw [hx] at ht
  refine h.goto (by rw [hx]; rfl) (by rw [hx]; rfl) (by rw [hx]; nofun) nofun
    (Sum.skip ht (Finset.subset_univ _) fun u _ hu => ?_)
  rw [mem_seen, not_or] at hu
  cases hs : s.stage u with
  | new => exact h.new u hs
  | left => exact absurd hs hu.1
  | registered =>
    have hlt := (h.has u hs).2
    exact absurd ⟨hs, by omega⟩ hu.2

/-- **An increment takes effect.** -/
theorem store_step (hx : s.loc t = .incStore c) :
    Inv N ({ s with counter := Function.update s.counter t (c + 1) }.goto t .incRet) := by
  have ht := h.loc t
  rw [hx] at ht
  obtain ⟨hr, hc⟩ := ht
  refine ⟨Function.update f t (f t + 1), lo, h.of_step rfl rfl rfl rfl rfl (fun u hu => ?_) (le_inc f t) (fun u hu => ?_)
    (by rw [hx]; nofun) nofun (h.lock.stay rfl (by rw [hx]; rfl)) (fun _ _ => rfl) trivial ?_
    (h.counted.effect rfl (by rw [hx]; rfl) rfl)⟩
  · show Function.update s.counter t (c + 1) u = BitVec.ofNat 64 (Function.update f t (f t + 1) u)
    by_cases hut : u = t
    · rw [hut, Function.update_self, Function.update_self, BitVec.ofNat_add, hc]
      rfl
    · rw [Function.update_of_ne hut, Function.update_of_ne hut]
      exact h.counter u hu
  · exact Function.update_of_ne (hu.resolve_right fun hn => hn hr) ..
  · rw [sum_inc]
    exact h.counting.effect rfl (by rw [hx]; rfl) rfl

/-- **What a thread does.** -/
theorem inv_step (hn : stepThread N t s = some s') : Inv N s' := by
  have ht := h.loc t
  unfold stepThread at hn
  cases hx : s.loc t with
  | idle =>
    simp only [hx] at hn
    cases hn
  | regLock =>
    rw [hx] at ht
    simp only [hx, Option.ite_none_right_eq_some, Option.some.injEq] at hn
    obtain ⟨hlock, rfl⟩ := hn
    exact h.takes hlock (by rw [hx]; rfl) rfl (by rw [hx]; nofun) (fun _ => .inr (by rw [hx]; rfl)) ht
  | regSet =>
    simp only [hx, Option.some.injEq] at hn
    subst hn
    exact h.regSet_step hx
  | regUnlock | unregUnlock =>
    simp only [hx, Option.some.injEq] at hn
    subst hn
    exact h.drops (by rw [hx]; rfl) (by rw [hx]; rfl) rfl (by rw [hx]; nofun) nofun trivial
  | incLoad =>
    rw [hx] at ht
    have hr : s.stage t = .registered := ht
    simp only [hx, Option.some.injEq] at hn
    subst hn
    exact h.goto (by rw [hx]; rfl) (by rw [hx]; rfl) (by rw [hx]; nofun) nofun ⟨hr, h.counter t (by rw [hr]; nofun)⟩
  | incStore c =>
    simp only [hx, Option.some.injEq] at hn
    subst hn
    exact h.store_step hx
  | incRet =>
    simp only [hx, Option.some.injEq] at hn
    subst hn
    exact ⟨f, lo, h.of_step rfl rfl rfl rfl rfl h.counter (fun _ => le_rfl) (fun _ _ => rfl) (by rw [hx]; nofun) nofun
      (h.lock.stay rfl (by rw [hx]; rfl)) (fun _ _ => rfl) trivial (h.counting.returned rfl (by rw [hx]; rfl) rfl)
      (h.counted.returned rfl (by rw [hx]; rfl) rfl)⟩
  | unregLock =>
    rw [hx] at ht
    simp only [hx, Option.ite_none_right_eq_some, Option.some.injEq] at hn
    obtain ⟨hlock, rfl⟩ := hn
    exact h.takes hlock (by rw [hx]; rfl) rfl (by rw [hx]; nofun) (fun _ => .inr (by rw [hx]; rfl)) ht
  | unregAdd =>
    simp only [hx, Option.some.injEq] at hn
    subst hn
    exact h.unregAdd_step hx
  | unregNull =>
    simp only [hx, Option.some.injEq] at hn
    subst hn
    exact h.unregNull_step hx
  | readLock =>
    rw [hx] at ht
    simp only [hx, Option.ite_none_right_eq_some, Option.some.injEq] at hn
    obtain ⟨hlock, rfl⟩ := hn
    exact h.takes hlock (by rw [hx]; rfl) rfl (by rw [hx]; nofun) nofun ht
  | readInit =>
    rw [hx] at ht
    simp only [hx, Option.some.injEq] at hn
    subst hn
    -- those that have left are in `finalcount`
    have hseen : seen s 0 = Finset.univ.filter fun u => s.stage u = .left := by
      ext u
      simp [mem_seen]
    refine h.goto (by rw [hx]; rfl) (by rw [hx]; rfl) (by rw [hx]; nofun) nofun ⟨_, h.finalcount, ?_⟩
    rw [hseen]
    exact .start f _ ht
  | readPtr i sum =>
    simp only [hx] at hn
    split at hn
    · rename_i hi
      split at hn
      · rename_i hnull
        obtain rfl := Option.some.inj hn
        exact h.ptr_step hx hnull
      · rename_i u hp
        obtain rfl := Option.some.inj hn
        rw [hx] at ht
        exact h.goto (by rw [hx]; rfl) (by rw [hx]; rfl) (by rw [hx]; nofun) nofun ⟨ht, hp⟩
    · rename_i hi
      obtain rfl := Option.some.inj hn
      exact h.all_seen hx hi
  | readCtr i sum u =>
    simp only [hx, Option.some.injEq] at hn
    subst hn
    exact h.ctr_step hx
  | readUnlock sum =>
    rw [hx] at ht
    simp only [hx, Option.some.injEq] at hn
    subst hn
    exact h.drops (by rw [hx]; rfl) (by rw [hx]; rfl) rfl (by rw [hx]; nofun) nofun ht
  | readRet sum =>
    rw [hx] at ht
    obtain ⟨acc, rfl, ht⟩ := ht
    obtain ⟨hlo, hacc⟩ := ht.total fun u hu => absurd (Finset.mem_univ u) hu
    simp only [hx, Option.some.injEq] at hn
    subst hn
    exact ⟨f, lo, h.of_step rfl rfl rfl rfl rfl h.counter (fun _ => le_rfl) (fun _ _ => rfl) (by rw [hx]; nofun) nofun
      (h.lock.stay rfl (by rw [hx]; rfl)) (fun _ _ => rfl) trivial (h.counting.answered rfl (by rw [hx]; rfl) hlo hacc rfl)
      (h.counted.answered rfl (by rw [hx]; rfl) rfl)⟩

theorem holds : Holds s where
  lin := by
    obtain ⟨S, hlin⟩ := h.counting.lin
    exact ⟨f, S, congrFun (h.counted.unique hlin.counted), h.counter, h.finalcount, hlin⟩
  uses t i sum u hx := by
    have ht := h.loc t
    rw [hx] at ht
    exact (h.registered (t := t) (by rw [hx]; rfl) (by rw [hx]; nofun) ht.2).1

end InvOf

/-! ### Runs -/

/-- **A step keeps the invariant.** -/
theorem inv_next {a : Act n} (h : Inv N s) (hn : next N a s = some s') : Inv N s' := by
  obtain ⟨f, lo, h⟩ := h
  cases a with
  | register t i =>
    simp only [next, Option.ite_none_right_eq_some, Option.some.injEq] at hn
    obtain ⟨⟨hidle, hnew, hi, hfree⟩, rfl⟩ := hn
    exact h.register_step hidle hnew hi hfree
  | unregister t =>
    simp only [next, Option.ite_none_right_eq_some, Option.some.injEq] at hn
    obtain ⟨⟨hidle, hr⟩, rfl⟩ := hn
    exact h.goto (by rw [hidle]; rfl) (by rw [hidle]; rfl) (by rw [hidle]; nofun) (fun _ => .inl hr) hr
  | inc t =>
    simp only [next, Option.ite_none_right_eq_some, Option.some.injEq] at hn
    obtain ⟨⟨hidle, hr⟩, rfl⟩ := hn
    exact ⟨f, lo, h.of_step rfl rfl rfl rfl rfl h.counter (fun _ => le_rfl) (fun _ _ => rfl) (by rw [hidle]; nofun) nofun
      (h.lock.stay rfl (by rw [hidle]; rfl)) (fun _ _ => rfl) hr (h.counting.called rfl (by rw [hidle]; rfl) rfl)
      (h.counted.called rfl (by rw [hidle]; rfl) rfl)⟩
  | read t =>
    simp only [next, Option.ite_none_right_eq_some, Option.some.injEq] at hn
    obtain ⟨hidle, rfl⟩ := hn
    have hlo : Function.update lo t (∑ u, f u) t ≤ ∑ u, f u := by rw [Function.update_self]
    exact ⟨f, Function.update lo t (∑ u, f u), h.of_step rfl rfl rfl rfl rfl h.counter (fun _ => le_rfl) (fun _ _ => rfl)
      (by rw [hidle]; nofun) nofun (h.lock.stay rfl (by rw [hidle]; rfl)) (fun u hu => Function.update_of_ne hu ..) hlo
      (h.counting.calledRead rfl (by rw [hidle]; rfl) rfl) (h.counted.called rfl (by rw [hidle]; rfl) rfl)⟩
  | step t => exact h.inv_step hn
  | reuse t c =>
    simp only [next, Option.ite_none_right_eq_some, Option.some.injEq] at hn
    obtain ⟨⟨hidle, hleft⟩, rfl⟩ := hn
    have hloc : s.loc = Function.update s.loc t .idle := by rw [← hidle, Function.update_eq_self]
    refine ⟨f, lo, h.of_step hloc rfl rfl rfl rfl (fun u hu => ?_) (fun _ => le_rfl) (fun _ _ => rfl) (by rw [hidle]; nofun) nofun
      h.lock (fun _ _ => rfl) trivial h.counting h.counted⟩
    have hut : u ≠ t := by
      rintro rfl
      exact hu hleft
    exact (Function.update_of_ne hut ..).trans (h.counter u hu)

theorem inv_init (h : Init s) : Inv N s := by
  have hnot : ∀ t, ¬ s.busy t := fun t ht => by
    rcases ht with ht | ht
    · rw [h.stage t] at ht
      cases ht
    · rw [h.loc t] at ht
      cases ht
  refine ⟨fun _ => 0, fun _ => 0, fun t _ => h.counter t, fun _ _ => rfl, ?_, fun i t ht => ?_, fun t ht => ?_,
    fun t _ ht => absurd ht (hnot t), fun t => ?_, fun t => ?_, ?_, fun t => ?_⟩
  · rw [h.finalcount, Finset.sum_const_zero]
    rfl
  · rw [h.counterp i] at ht
    cases ht
  · rw [h.stage t] at ht
    cases ht
  · rw [h.lock, h.loc t]
    exact iff_of_false nofun nofun
  · rw [h.loc t]
    trivial
  · have hpend : (fun t => pend (s.loc t)) = fun _ => .idle := funext fun t => by rw [h.loc t]; rfl
    rw [h.hist, hpend, Finset.sum_const_zero]
    exact .start _ _
  · show 0 = s.hist.countP (Ev.incOf t) + (pend (s.loc t)).counted
    rw [h.hist, h.loc t]
    rfl

/-- **`count_end.c` is an exact counter**, whichever threads come and go, and readers come to no counter of a thread that
has left. -/
theorem count_end_linearizable (h : (sys n N).Reach Sys.always s) : Holds s := by
  obtain ⟨f, lo, h⟩ := h.inv (I := Inv N) (fun _ => inv_init) fun _ _ _ h _ hn => inv_next h hn
  exact h.holds

def start (n : ℕ) : St n where
  counter := fun _ => 0
  counterp := fun _ => none
  finalcount := 0
  lock := none
  idx := fun _ => 0
  loc := fun _ => .idle
  stage := fun _ => .new
  hist := []

theorem init_start (n : ℕ) : Init (start n) :=
  ⟨fun _ => rfl, fun _ => rfl, rfl, rfl, fun _ => rfl, fun _ => rfl, rfl⟩

/-- Two threads count, one of them leaves and its memory is used again, and then a third one reads. -/
theorem count_end_linearizable_left : ∃ s : St 3, (sys 3 2).Reach Sys.always s ∧
    s.loc 2 = .readRet 2 ∧ s.finalcount = 1 ∧ s.counter 0 = 7 ∧ Holds s := by
  have hrun : ((sys 3 2).run Sys.always (
      [.register 0 0] ++ List.replicate 3 (.step 0) ++ [.inc 0] ++ List.replicate 3 (.step 0) ++
      [.register 1 1] ++ List.replicate 3 (.step 1) ++ [.inc 1] ++ List.replicate 3 (.step 1) ++
      [.unregister 0] ++ List.replicate 4 (.step 0) ++ [.reuse 0 7, .read 2] ++ List.replicate 7 (.step 2)) (start 3)).map
      (fun s => (s.loc 2, s.finalcount, s.counter 0)) = some (.readRet 2, 1, 7) := by
    decide +kernel
  obtain ⟨s, hs, hend⟩ := Option.map_eq_some_iff.mp hrun
  have hreach := Sys.run_reach (.init (init_start 3)) hs
  rw [Prod.mk.injEq, Prod.mk.injEq] at hend
  exact ⟨s, hreach, hend.1, hend.2.1, hend.2.2, count_end_linearizable hreach⟩

end End
end Count
end Perfbook
