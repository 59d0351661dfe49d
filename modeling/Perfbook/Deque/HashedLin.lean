/-
# The hashed deques are linearizable

The elements inside are at the positions between two unbounded integers `L`
and `R`. A bucket has those whose position is its number modulo four, in the
order of the positions (`inBkt`). An index is `L` or `R` modulo four, but while
its lock is held it may lag behind the bucket by one move (`ahead`). An
operation takes effect in its bucket: the two ends use different positions, and
the lock of the bucket orders them where the buckets coincide.

Key definitions: `slot`, `inBkt`, `InvOf`, `Positions`.
Key theorems: `apply_eq`, `hashed_linearizable`.
-/
import Mathlib.Data.Int.Notation
import Mathlib.Tactic.Ring
import Perfbook.Conc.Lock
import Perfbook.Deque.Hashed

namespace Perfbook
namespace Deque
namespace Hashed

open Conc

variable {τ E : Type}

/-! ### Positions and buckets -/

/-- The bucket of a position. -/
def slot (p : ℤ) : Word := BitVec.ofInt 32 (p % 4)

/-- The elements of `c`, which are at the positions from `p` on, that belong
into the bucket `b`. -/
def inBkt (b : Word) : ℤ → List E → List E
  | _, [] => []
  | p, e :: c => if slot p = b then e :: inBkt b (p + 1) c else inBkt b (p + 1) c

theorem slot_cases (p : ℤ) : p % 4 = 0 ∨ p % 4 = 1 ∨ p % 4 = 2 ∨ p % 4 = 3 := by omega

theorem moveleft_slot (p : ℤ) : moveleft (slot p) = slot (p - 1) := by
  unfold slot
  rcases slot_cases p with h | h | h | h
  · rw [h, show (p - 1) % 4 = 3 by omega]
    rfl
  · rw [h, show (p - 1) % 4 = 0 by omega]
    rfl
  · rw [h, show (p - 1) % 4 = 1 by omega]
    rfl
  · rw [h, show (p - 1) % 4 = 2 by omega]
    rfl

theorem moveright_slot (p : ℤ) : moveright (slot p) = slot (p + 1) := by
  unfold slot
  rcases slot_cases p with h | h | h | h
  · rw [h, show (p + 1) % 4 = 1 by omega]
    rfl
  · rw [h, show (p + 1) % 4 = 2 by omega]
    rfl
  · rw [h, show (p + 1) % 4 = 3 by omega]
    rfl
  · rw [h, show (p + 1) % 4 = 0 by omega]
    rfl

theorem inBkt_append (b : Word) (e : E) : ∀ (c : List E) (p : ℤ),
    inBkt b p (c ++ [e]) = inBkt b p c ++ if slot (p + c.length) = b then [e] else []
  | [], p => by simp [inBkt]
  | x :: c, p => by
    have hp : p + 1 + (c.length : ℤ) = p + (c.length + 1 : ℕ) := by
      push_cast
      ring
    simp only [List.cons_append, inBkt, inBkt_append b e c (p + 1), List.length_cons, hp]
    split <;> rfl

/-- The position that an index stands for: `L`, or the one behind the last element. -/
def pos (L : ℤ) (c : List E) : Side → ℤ
  | .left => L
  | .right => L + 1 + c.length

/-- What an operation at the end `d` does to the positions and the buckets, when
the contents `c` begin behind `L`. -/
structure Applied (d : Side) (o : Option E) (bkt : Word → List E) (i : Word) (L : ℤ) (c : List E)
    (L' : ℤ) (c' : List E) (r : Res E) : Prop where
  spec : (deque E).apply (opOf d o) c = (c', r)
  bkt : ∀ b, Function.update bkt i (bktApply d o (bkt i)).1 b = inBkt b (L' + 1) c'
  idx : newIdx d i r (slot (pos L c d)) = slot (pos L' c' d)
  other : ∀ d', d' ≠ d → pos L' c' d' = pos L c d'

theorem update_bkt {bkt : Word → List E} {i : Word} {x : List E} {f : Word → List E}
    (hi : x = f i) (hb : ∀ b, b ≠ i → bkt b = f b) (b : Word) : Function.update bkt i x b = f b := by
  by_cases h : b = i
  · rw [h, Function.update_self, hi]
  · rw [Function.update_of_ne h, hb b h]

variable {bkt : Word → List E} {L : ℤ} {c : List E}

theorem applied_pushL (hb : ∀ b, bkt b = inBkt b (L + 1) c) (e : E) :
    Applied .left (some e) bkt (slot L) L c (L - 1) (e :: c) .pushed where
  spec := rfl
  bkt := by
    refine update_bkt (f := fun b => inBkt b (L - 1 + 1) (e :: c)) ?_ fun b hne => ?_
    · simp [inBkt, bktApply, deqPushL, hb]
    · simp [inBkt, hb, Ne.symm hne]
  idx := moveleft_slot L
  other d hd := by
    cases d with
    | left => exact absurd rfl hd
    | right =>
      simp only [pos, List.length_cons]
      push_cast
      ring

theorem applied_pushR (hb : ∀ b, bkt b = inBkt b (L + 1) c) (e : E) :
    Applied .right (some e) bkt (slot (L + 1 + c.length)) L c L (c ++ [e]) .pushed where
  spec := rfl
  bkt := by
    refine update_bkt (f := fun b => inBkt b (L + 1) (c ++ [e])) ?_ fun b hne => ?_
    · simp [inBkt_append, bktApply, deqPushR, hb]
    · simp [inBkt_append, hb, Ne.symm hne]
  idx := by
    simp only [newIdx, pos, moveright_slot, List.length_append, List.length_singleton]
    push_cast
    ring_nf
  other d hd := by
    cases d with
    | left => rfl
    | right => exact absurd rfl hd

/-- An operation that finds its bucket empty leaves everything as it is. -/
theorem applied_null (d : Side) (i : Word) (hb : ∀ b, bkt b = inBkt b (L + 1) []) :
    Applied d none bkt i L [] L [] (.popped none : Res E) where
  spec := by cases d <;> rfl
  bkt := by
    refine update_bkt ?_ fun b _ => hb b
    cases d <;> simp [bktApply, deqPopL, deqPopR, hb, inBkt]
  idx := by cases d <;> rfl
  other _ _ := rfl

theorem applied_popL {e : E} (hb : ∀ b, bkt b = inBkt b (L + 1) (e :: c)) :
    Applied .left none bkt (slot (L + 1)) L (e :: c) (L + 1) c (.popped (some e)) where
  spec := rfl
  bkt := by
    refine update_bkt (f := fun b => inBkt b (L + 1 + 1) c) ?_ fun b hne => ?_
    · simp [inBkt, bktApply, deqPopL, hb]
    · simp [inBkt, hb, Ne.symm hne]
  idx := rfl
  other d hd := by
    cases d with
    | left => exact absurd rfl hd
    | right =>
      simp only [pos, List.length_cons]
      push_cast
      ring

theorem applied_popR {e : E} (hb : ∀ b, bkt b = inBkt b (L + 1) (c ++ [e])) :
    Applied .right none bkt (slot (L + 1 + c.length)) L (c ++ [e]) L c (.popped (some e)) where
  spec := by simp [deque, opOf]
  bkt := by
    refine update_bkt (f := fun b => inBkt b (L + 1) c) ?_ fun b hne => ?_
    · simp [inBkt_append, bktApply, deqPopR, hb]
    · simp [inBkt_append, hb, Ne.symm hne]
  idx := rfl
  other d hd := by
    cases d with
    | left => rfl
    | right => exact absurd rfl hd

/-- **What an operation does in its bucket** is what it does to the deque. -/
theorem apply_eq (d : Side) (o : Option E) (hb : ∀ b, bkt b = inBkt b (L + 1) c) :
    ∃ L' c', Applied d o bkt (target d o (slot (pos L c d))) L c L' c'
      (bktApply d o (bkt (target d o (slot (pos L c d))))).2 := by
  cases o with
  | some e =>
    cases d with
    | left => exact ⟨_, _, applied_pushL hb e⟩
    | right => exact ⟨_, _, applied_pushR hb e⟩
  | none =>
    cases d with
    | left =>
      rw [show target .left (none : Option E) (slot (pos L c .left)) = slot (L + 1) from
        moveright_slot L]
      cases c with
      | nil =>
        have := applied_null .left (slot (L + 1)) hb
        refine ⟨L, [], ?_⟩
        rw [hb]
        exact this
      | cons e c =>
        have := applied_popL hb
        refine ⟨L + 1, c, ?_⟩
        rw [hb]
        simpa [inBkt, bktApply, deqPopL] using this
    | right =>
      rcases List.eq_nil_or_concat c with rfl | ⟨c, e, rfl⟩
      · have := applied_null .right (target .right (none : Option E) (slot (pos L ([] : List E) .right))) hb
        refine ⟨L, [], ?_⟩
        rw [hb]
        exact this
      · rw [List.concat_eq_append] at hb ⊢
        have hi : target .right (none : Option E) (slot (pos L (c ++ [e]) .right)) =
            slot (L + 1 + c.length) := by
          simp only [target, pos, moveleft_slot, List.length_append, List.length_singleton]
          push_cast
          ring_nf
        rw [hi]
        have := applied_popR hb
        refine ⟨L, c, ?_⟩
        rw [hb]
        simpa [inBkt_append, bktApply, deqPopR] using this

/-! ### The invariant -/

/-- The thread has the index lock of `d`. -/
def holds (d : Side) : Loc E → Bool
  | .idle | .lock _ _ => false
  | .index d' _ | .bktLock d' _ _ | .bktOp d' _ _ | .bktUnlock d' _ _ | .record d' _ _ |
    .unlock d' _ => d' = d

/-- The thread has the lock of the bucket `b`. -/
def holdsBkt (v : File) (b : Word) : Loc E → Bool
  | .bktOp _ _ i | .bktUnlock _ i _ => i = b
  | .record _ i _ => v = .lockdeq ∧ i = b
  | _ => false

/-- How far the call is. -/
def pend : Loc E → Pend (DequeOp E) (Res E)
  | .idle => .idle
  | .lock d o | .index d o | .bktLock d o _ | .bktOp d o _ => .called (opOf d o)
  | .bktUnlock _ _ r | .record _ _ r | .unlock _ r => .done r

/-- What the index will be when the thread releases it, if it lags behind. -/
def ahead (v : File) : Loc E → Word → Word
  | .record d i r, idx => newIdx d i r idx
  | .bktUnlock d i r, idx => if v = .lockhdeq then newIdx d i r idx else idx
  | _, idx => idx

/-- The bucket is that of the index; and the index will be that of `p`. -/
def LocInv (v : File) (idx : Side → Word) (p : Side → ℤ) (l : Loc E) : Prop :=
  (∀ d, holds d l = true → ahead v l (idx d) = slot (p d)) ∧
    match l with
    | .bktLock d o i | .bktOp d o i => i = target d o (idx d)
    | _ => True

/-- The invariant: the elements inside are `c`, at the positions behind `L`. -/
structure InvOf [DecidableEq τ] (v : File) (s : St τ E) (L : ℤ) (c : List E) : Prop where
  lock : ∀ d, LockedBy (holds d) (s.lock d) s.loc
  bktLock : ∀ b, LockedBy (holdsBkt v b) (s.bktLock b) s.loc
  free : ∀ d, s.lock d = none → s.idx d = slot (pos L c d)
  loc : ∀ t, LocInv v s.idx (pos L c) (s.loc t)
  bkt : ∀ b, s.bkt b = inBkt b (L + 1) c
  lin : Lin (deque E) s.hist s.done (fun t => pend (s.loc t)) c

variable {v : File} {s s' : St τ E} {t u : τ} {l : Loc E} {L' : ℤ} {c' : List E}

section Steps

variable [DecidableEq τ]

/-- The index that `d` stands at, when a thread that has its lock is at `l`. -/
theorem LocInv.frame {idx idx' : Side → Word} {p p' : Side → ℤ} (h : LocInv v idx p l)
    (hd : ∀ d, holds d l = true → idx' d = idx d ∧ p' d = p d) : LocInv v idx' p' l := by
  refine ⟨fun d hh => ?_, ?_⟩
  · rw [(hd d hh).1, (hd d hh).2]
    exact h.1 d hh
  · cases l with
    | bktLock d o i | bktOp d o i =>
      show i = target d o (idx' d)
      rw [(hd d (by simp [holds])).1]
      exact h.2
    | _ => trivial

/-- A step of `t` in which only the end whose lock it has may move. -/
theorem InvOf.of_step (h : InvOf v s L c) (hloc : s'.loc = Function.update s.loc t l)
    (hlock : ∀ d, LockedBy (holds d) (s'.lock d) s'.loc)
    (hbktLock : ∀ b, LockedBy (holdsBkt v b) (s'.bktLock b) s'.loc)
    (hfree : ∀ d, s'.lock d = none → s'.idx d = slot (pos L' c' d))
    (hl : LocInv v s'.idx (pos L' c') l)
    (hd : ∀ d, holds d (s.loc t) = false → s'.idx d = s.idx d ∧ pos L' c' d = pos L c d)
    (hbkt : ∀ b, s'.bkt b = inBkt b (L' + 1) c')
    (hlin : Lin (deque E) s'.hist s'.done (fun t => pend (s'.loc t)) c') : InvOf v s' L' c' where
  lock := hlock
  bktLock := hbktLock
  free := hfree
  loc := forall_update (P := fun _ x => LocInv v s'.idx (pos L' c') x) hloc hl fun u hu =>
    (h.loc u).frame fun d hh => hd d <| by
      rw [← Bool.not_eq_true]
      exact fun ht => hu ((h.lock d).eq ht hh)
  bkt := hbkt
  lin := hlin

/-- A step that moves no element and no index. -/
theorem InvOf.quiet (h : InvOf v s L c) (hloc : s'.loc = Function.update s.loc t l)
    (hlock : ∀ d, LockedBy (holds d) (s'.lock d) s'.loc)
    (hbktLock : ∀ b, LockedBy (holdsBkt v b) (s'.bktLock b) s'.loc)
    (hfree : ∀ d, s'.lock d = none → s.idx d = slot (pos L c d))
    (hl : LocInv v s.idx (pos L c) l) (hidx : s'.idx = s.idx) (hbkt : s'.bkt = s.bkt)
    (hlin : Lin (deque E) s'.hist s'.done (fun t => pend (s'.loc t)) c) : InvOf v s' L c :=
  h.of_step hloc hlock hbktLock (by rw [hidx]; exact hfree) (by rw [hidx]; exact hl)
    (fun _ _ => ⟨by rw [hidx], rfl⟩) (by rw [hbkt]; exact h.bkt) hlin

omit [DecidableEq τ] in
theorem update_stay {α : Type*} [DecidableEq α] {f : α → Option τ} {hs : α → Loc E → Bool} {a : α}
    {x : Option τ} {loc' : τ → Loc E} (h : LockedBy (hs a) x loc')
    (ho : ∀ b, b ≠ a → LockedBy (hs b) (f b) loc') (b : α) :
    LockedBy (hs b) (Function.update f a x b) loc' := by
  by_cases hb : b = a
  · rw [hb, Function.update_self]
    exact h
  · rw [Function.update_of_ne hb]
    exact ho b hb

theorem InvOf.withLock {d : Side} {x : Option τ} (h : InvOf v s L c)
    (hloc : s'.loc = Function.update s.loc t l) (ho : ∀ d', d' ≠ d → holds d' l = holds d' (s.loc t))
    (hd : LockedBy (holds d) x s'.loc) :
    ∀ d', LockedBy (holds d') (Function.update s.lock d x d') s'.loc :=
  update_stay hd fun d' hd' => (h.lock d').stay hloc (ho d' hd')

theorem InvOf.withBktLock {i : Word} {x : Option τ} (h : InvOf v s L c)
    (hloc : s'.loc = Function.update s.loc t l)
    (ho : ∀ b, b ≠ i → holdsBkt v b l = holdsBkt v b (s.loc t))
    (hi : LockedBy (holdsBkt v i) x s'.loc) :
    ∀ b, LockedBy (holdsBkt v b) (Function.update s.bktLock i x b) s'.loc :=
  update_stay hi fun b hb => (h.bktLock b).stay hloc (ho b hb)

theorem InvOf.stepLock {d : Side} {o : Option E} (h : InvOf v s L c) (hl : s.loc t = .lock d o)
    (hfree : s.lock d = none) : InvOf v ((s.setLock d (some t)).goto t (.index d o)) L c := by
  have hlock := h.lock d
  rw [hfree] at hlock
  refine h.quiet rfl (h.withLock rfl (fun d' hd' => ?_) (hlock.take rfl (by simp [holds])))
    (fun b => (h.bktLock b).stay rfl (by rw [hl]; rfl)) (fun d' hd' => h.free d' ?_)
    ⟨fun d' hd' => ?_, trivial⟩ rfl rfl (h.lin.stay rfl (by rw [hl]; rfl))
  · rw [hl]
    simp [holds, Ne.symm hd']
  · have hne : d' ≠ d := by
      rintro rfl
      simp [St.setLock, St.goto] at hd'
    simpa [St.setLock, St.goto, hne] using hd'
  · obtain rfl : d = d' := by simpa [holds] using hd'
    exact h.free d hfree

theorem InvOf.stepIndex {d : Side} {o : Option E} (h : InvOf v s L c) (hl : s.loc t = .index d o) :
    InvOf v (s.goto t (.bktLock d o (target d o (s.idx d)))) L c := by
  have hlt := h.loc t
  rw [hl] at hlt
  exact h.quiet rfl (fun d' => (h.lock d').stay rfl (by rw [hl]; rfl))
    (fun b => (h.bktLock b).stay rfl (by rw [hl]; rfl)) h.free ⟨fun d' hd' => hlt.1 d' hd', rfl⟩ rfl
    rfl (h.lin.stay rfl (by rw [hl]; rfl))

theorem InvOf.stepBktLock {d : Side} {o : Option E} {i : Word} (h : InvOf v s L c)
    (hl : s.loc t = .bktLock d o i) (hfree : s.bktLock i = none) :
    InvOf v ((s.setBktLock i (some t)).goto t (.bktOp d o i)) L c := by
  have hlt := h.loc t
  rw [hl] at hlt
  have hlock := h.bktLock i
  rw [hfree] at hlock
  refine h.quiet rfl (fun d' => (h.lock d').stay rfl (by rw [hl]; rfl))
    (h.withBktLock rfl (fun b hb => ?_) (hlock.take rfl (by simp [holdsBkt]))) h.free
    ⟨fun d' hd' => hlt.1 d' hd', hlt.2⟩ rfl rfl (h.lin.stay rfl (by rw [hl]; rfl))
  rw [hl]
  simp [holdsBkt, Ne.symm hb]

/-- An operation in its bucket: the contents change, and the index lags behind. -/
theorem InvOf.stepOp {d : Side} {o : Option E} {i : Word} (h : InvOf v s L c)
    (hl : s.loc t = .bktOp d o i) :
    ∃ L' c', InvOf v ((s.apply t d o i).goto t (afterOp v d i (bktApply d o (s.bkt i)).2)) L' c' := by
  have hlt := h.loc t
  rw [hl] at hlt
  have hidx : s.idx d = slot (pos L c d) := hlt.1 d (by simp [holds])
  have hi : i = target d o (slot (pos L c d)) := hidx ▸ hlt.2
  obtain ⟨L', c', ha⟩ := apply_eq d o h.bkt
  rw [← hi] at ha
  set r := (bktApply d o (s.bkt i)).2 with hr
  have hholds : ∀ d', holds d' (afterOp v d i r) = holds d' (s.loc t) := by
    rw [hl]
    cases v <;> exact fun _ => rfl
  have hholdsBkt : ∀ b, holdsBkt v b (afterOp v d i r) = holdsBkt v b (s.loc t) := by
    rw [hl]
    cases v <;> simp [afterOp, holdsBkt]
  have hpend : pend (afterOp v d i r) = .done r := by cases v <;> rfl
  have hother : ∀ d', holds d' (s.loc t) = false → d' ≠ d := by
    rintro d' hd' rfl
    rw [hl] at hd'
    simp [holds] at hd'
  refine ⟨L', c', h.of_step rfl (fun d' => (h.lock d').stay rfl (hholds d'))
    (fun b => (h.bktLock b).stay rfl (hholdsBkt b)) (fun d' hd' => ?_) ?_
    (fun d' hd' => ⟨rfl, ha.other d' (hother d' hd')⟩) ha.bkt
    (h.lin.effect rfl (by rw [hl]; rfl) ha.spec hpend)⟩
  · have hne : d' ≠ d := hother d' ((h.lock d').free hd' t)
    rw [ha.other d' hne]
    exact h.free d' hd'
  · refine ⟨fun d' hd' => ?_, by cases v <;> trivial⟩
    obtain rfl : d = d' := by
      rw [hholds, hl] at hd'
      simpa [holds] using hd'
    rw [← ha.idx, ← hidx]
    cases v <;> rfl

theorem InvOf.stepBktUnlock {d : Side} {i : Word} {r : Res E} (h : InvOf v s L c)
    (hl : s.loc t = .bktUnlock d i r) :
    InvOf v ((s.setBktLock i none).goto t (afterBktUnlock v d i r)) L c := by
  have hlt := h.loc t
  rw [hl] at hlt
  have hholds : ∀ d', holds d' (afterBktUnlock v d i r) = holds d' (s.loc t) := by
    rw [hl]
    cases v <;> exact fun _ => rfl
  refine h.quiet rfl (fun d' => (h.lock d').stay rfl (hholds d'))
    (h.withBktLock rfl (fun b hb => ?_)
      ((h.bktLock i).drop rfl (by rw [hl]; simp [holdsBkt]) ?_)) h.free ⟨fun d' hd' => ?_, ?_⟩ rfl rfl
    (h.lin.stay rfl ?_)
  · rw [hl]
    cases v <;> simp [afterBktUnlock, holdsBkt, Ne.symm hb]
  · cases v <;> simp [afterBktUnlock, holdsBkt]
  · have := hlt.1 d' (by rwa [hholds, hl] at hd')
    cases v <;> exact this
  · cases v <;> trivial
  · rw [hl]
    cases v <;> rfl

theorem InvOf.stepRecord {d : Side} {i : Word} {r : Res E} (h : InvOf v s L c)
    (hl : s.loc t = .record d i r) :
    InvOf v ((s.setIdx d (newIdx d i r (s.idx d))).goto t (afterRecord v d i r)) L c := by
  have hlt := h.loc t
  rw [hl] at hlt
  have hholds : ∀ d', holds d' (afterRecord v d i r) = holds d' (s.loc t) := by
    rw [hl]
    cases v <;> exact fun _ => rfl
  have hother : ∀ d', holds d' (s.loc t) = false → d' ≠ d := by
    rintro d' hd' rfl
    rw [hl] at hd'
    simp [holds] at hd'
  have hkeep : ∀ d', d' ≠ d →
      Function.update s.idx d (newIdx d i r (s.idx d)) d' = s.idx d' := fun d' hd' =>
    Function.update_of_ne hd' _ _
  refine h.of_step rfl (fun d' => (h.lock d').stay rfl (hholds d'))
    (fun b => (h.bktLock b).stay rfl ?_) (fun d' hd' => ?_) ⟨fun d' hd' => ?_, ?_⟩
    (fun d' hd' => ⟨hkeep d' (hother d' hd'), rfl⟩) h.bkt (h.lin.stay rfl ?_)
  · rw [hl]
    cases v <;> simp [afterRecord, holdsBkt]
  · exact (hkeep d' (hother d' ((h.lock d').free hd' t))).trans (h.free d' hd')
  · obtain rfl : d = d' := by
      rw [hholds, hl] at hd'
      simpa [holds] using hd'
    have hnew : Function.update s.idx d (newIdx d i r (s.idx d)) d = slot (pos L c d) := by
      rw [Function.update_self]
      exact hlt.1 d (by simp [holds])
    cases v <;> exact hnew
  · cases v <;> trivial
  · rw [hl]
    cases v <;> rfl

theorem InvOf.stepUnlock {d : Side} {r : Res E} (h : InvOf v s L c) (hl : s.loc t = .unlock d r) :
    InvOf v ((s.setLock d none).ret t r) L c := by
  have hlt := h.loc t
  rw [hl] at hlt
  refine h.quiet rfl (h.withLock rfl (fun d' hd' => ?_)
      ((h.lock d).drop rfl (by rw [hl]; simp [holds]) rfl))
    (fun b => (h.bktLock b).stay rfl (by rw [hl]; rfl)) (fun d' hd' => ?_)
    ⟨fun d' hd' => (by cases hd'), trivial⟩ rfl rfl (h.lin.returned rfl (by rw [hl]; rfl) rfl)
  · rw [hl]
    simp [holds, Ne.symm hd']
  · by_cases hne : d' = d
    · rw [hne]
      exact hlt.1 d (by simp [holds])
    · exact h.free d' (by simpa [St.setLock, St.ret, St.goto, hne] using hd')

end Steps

/-! ### Every run -/

/-- What the users of the deque may rely on: the elements `c` are at the
positions between `L` and `R`. -/
structure Positions [DecidableEq τ] (s : St τ E) (L R : ℤ) (c : List E) : Prop where
  lt : L < R
  length : R = L + 1 + c.length
  /-- the calls are those of one deque, with the elements `c` now -/
  lin : Lin (deque E) s.hist s.done (fun t => pend (s.loc t)) c
  bkt : ∀ b, s.bkt b = inBkt b (L + 1) c
  lidx : s.lock .left = none → s.idx .left = slot L
  ridx : s.lock .right = none → s.idx .right = slot R
  /-- nothing is lost and nothing comes out twice -/
  kept : (s.done.filterMap fun x => x.op.arg).Perm (poppedBy s.done ++ c)
  /-- a pop returns `NULL` only if the deque was empty when it looked at its bucket -/
  null : ∀ S₁ x S₂, s.done = S₁ ++ x :: S₂ → x.res = .popped none → Legal (deque E) S₁ []

theorem InvOf.positions [DecidableEq τ] (h : InvOf v s L c) :
    Positions s L (L + 1 + c.length) c where
  lt := by omega
  length := rfl
  lin := h.lin
  bkt := h.bkt
  lidx := h.free .left
  ridx := h.free .right
  kept := deque_perm h.lin.legal
  null _ _ _ hS hx := deque_null h.lin.legal hS hx

theorem inv_init [DecidableEq τ] (h : Init s) : InvOf v s 0 [] where
  lock d t := by simp [h.lock d, h.loc t, holds]
  bktLock b t := by simp [h.bktLock b, h.loc t, holdsBkt]
  free d _ := by
    cases d with
    | left => exact h.lidx
    | right => exact h.ridx
  loc t := by
    rw [h.loc t]
    exact ⟨fun _ hd => (by cases hd), trivial⟩
  bkt := h.bkt
  lin := by
    have hpend : (fun t => pend (s.loc t)) = fun _ => Pend.idle :=
      funext fun t => by rw [h.loc t]; rfl
    rw [h.hist, h.done, hpend]
    exact .init

variable [DecidableEq τ]

/-- One step of a thread keeps the invariant. -/
theorem inv_step (h : InvOf v s L c) (hn : stepThread v t s = some s') :
    ∃ L' c', InvOf v s' L' c' := by
  unfold stepThread at hn
  cases hl : s.loc t with
  | idle =>
    rw [hl] at hn
    cases hn
  | lock d o =>
    simp only [hl] at hn
    split at hn
    · rename_i hfree
      obtain rfl := Option.some.inj hn
      exact ⟨L, c, h.stepLock hl hfree⟩
    · cases hn
  | index d o =>
    simp only [hl, Option.some.injEq] at hn
    subst hn
    exact ⟨L, c, h.stepIndex hl⟩
  | bktLock d o i =>
    simp only [hl] at hn
    split at hn
    · rename_i hfree
      obtain rfl := Option.some.inj hn
      exact ⟨L, c, h.stepBktLock hl hfree⟩
    · cases hn
  | bktOp d o i =>
    simp only [hl, Option.some.injEq] at hn
    subst hn
    exact h.stepOp hl
  | bktUnlock d i r =>
    simp only [hl, Option.some.injEq] at hn
    subst hn
    exact ⟨L, c, h.stepBktUnlock hl⟩
  | record d i r =>
    simp only [hl, Option.some.injEq] at hn
    subst hn
    exact ⟨L, c, h.stepRecord hl⟩
  | unlock d r =>
    simp only [hl, Option.some.injEq] at hn
    subst hn
    exact ⟨L, c, h.stepUnlock hl⟩

theorem inv_next {a : Act τ E} (h : InvOf v s L c) (hn : next v a s = some s') :
    ∃ L' c', InvOf v s' L' c' := by
  cases a with
  | step t => exact inv_step h hn
  | call t d o =>
    simp only [next] at hn
    split at hn
    · rename_i hl
      obtain rfl := Option.some.inj hn
      exact ⟨L, c, h.quiet rfl (fun d' => (h.lock d').stay rfl (by rw [hl]; rfl))
        (fun b => (h.bktLock b).stay rfl (by rw [hl]; rfl)) h.free
        ⟨fun _ hd => (by cases hd), trivial⟩ rfl rfl (h.lin.called rfl (by rw [hl]; rfl) rfl)⟩
    · cases hn

/-- **The hashed deques are linearizable**, in both programs, for any number of
threads and any order of their steps. -/
theorem hashed_linearizable (h : (sys v τ E).Reach Sys.always s) : ∃ L R c, Positions s L R c := by
  have hinv : ∃ L c, InvOf v s L c := by
    refine h.inv (I := fun s => ∃ L c, InvOf v s L c) (fun _ h0 => ⟨0, [], inv_init h0⟩) fun a s s' hi _ hn => ?_
    have hn' : next v a s = some s' := hn
    obtain ⟨L, c, hi⟩ := hi
    exact inv_next hi hn'
  obtain ⟨L, c, hinv⟩ := hinv
  exact ⟨L, _, c, hinv.positions⟩

/-! ### A run -/

def start : St (Fin 2) ℕ where
  idx
    | .left => 0
    | .right => 1
  lock _ := none
  bkt _ := []
  bktLock _ := none
  loc _ := .idle
  hist := []
  done := []

theorem start_init : Init start :=
  ⟨rfl, rfl, fun _ => rfl, fun _ => rfl, fun _ => rfl, fun _ => rfl, rfl, rfl⟩

/-- `n` steps of thread `t` in a row. -/
def steps (n : ℕ) (t : Fin 2) : List (Act (Fin 2) ℕ) := List.replicate n (.step t)

/-- One element is pushed on the left; then both threads pop, one at each end,
and get as far as the bucket before either of them uses it. -/
def raceForLast : List (Act (Fin 2) ℕ) :=
  [.call 0 .left (some 7)] ++ steps 7 0 ++ [.call 0 .left none, .call 1 .right none] ++ steps 2 0 ++
    steps 3 1 ++ steps 2 1 ++ steps 5 0 ++ steps 2 1

theorem hashed_linearizable_run : ∃ s, (sys .lockhdeq (Fin 2) ℕ).Reach Sys.always s ∧
    poppedBy s.done = [7] ∧ ∃ L R c, Positions s L R c := by
  have hrun : ((sys .lockhdeq (Fin 2) ℕ).run Sys.always raceForLast start).map
      (fun s => poppedBy s.done) = some [7] := by
    decide
  obtain ⟨s, hs, hd⟩ := Option.map_eq_some_iff.mp hrun
  have hr := Sys.run_reach (.init start_init) hs
  exact ⟨s, hr, hd, hashed_linearizable hr⟩

end Hashed
end Deque
end Perfbook
