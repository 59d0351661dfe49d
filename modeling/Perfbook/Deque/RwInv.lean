/-
# The two ends of the reader-writer-lock deque

An operation accesses the links near its own end only (`Zone`). While two
threads are inside, one at each end, the counter says that the list is long
enough for the two zones to be disjoint (`Near`, `InvOf.count`), so their
programs are apart, and it does not matter how their accesses interleave: when
both are done the links are those of the list `q`.

`q` is the list with the operations inside done, `g` is the element that a
thread has in hand, `P` is what is still to be done at each end.

Key definitions: `settle`, `Zone`, `Near`, `At`, `rest`, `EndFree`, `InvOf`.
Key theorems: `deqPop_run`, `deqPush_run`, `InvOf.meet`, `InvOf.commit`, `inv_next`, `inv_reach`.
-/
import Mathlib.Algebra.BigOperators.Fin
import Mathlib.Algebra.Order.BigOperators.Group.Finset
import Mathlib.Data.Multiset.AddSub
import Perfbook.Conc.Lock
import Perfbook.Deque.Rw

namespace Perfbook
namespace Deque
namespace Rw

open Conc

variable {τ E : Type} {h : Heap E} {d : End} {c x : Ptr E} {a b e : E} {l r q : List E} {f : Field E}

/-! ### The list from one end -/

@[simp] theorem Dir.flip_ne (d : Dir) : d.flip ≠ d := by cases d <;> simp [Dir.flip]

@[simp] theorem Dir.flip_flip (d : Dir) : d.flip.flip = d := by cases d <;> rfl

@[simp] theorem End.other_other (d : End) : d.other.other = d := by cases d <;> rfl

@[simp] theorem End.other_dir (d : End) : d.other.dir = d.dir.flip := by cases d <;> rfl

/-- The list, from the end `d` on. -/
def view (d : End) (q : List E) : List E :=
  match d with
  | .left => q
  | .right => q.reverse

@[simp] theorem view_view : view d (view d q) = q := by
  cases d
  · rfl
  · exact List.reverse_reverse q

theorem view_other : view d.other q = (view d q).reverse := by
  cases d
  · rfl
  · exact (List.reverse_reverse q).symm

@[simp] theorem view_length : (view d q).length = q.length := by
  cases d
  · rfl
  · exact List.length_reverse

@[simp] theorem mem_view : a ∈ view d q ↔ a ∈ q := by
  cases d
  · rfl
  · exact List.mem_reverse

theorem view_perm : (view d q).Perm q := by
  cases d
  · exact List.Perm.refl q
  · exact List.reverse_perm q

/-- The elements, from either end. -/
theorem view_els (l : List E) :
    ((view d l).map Ptr.el : Multiset (Ptr E)) = (l.map Ptr.el : List (Ptr E)) :=
  Multiset.coe_eq_coe.mpr (view_perm.map _)

/-- An element is put in. -/
theorem push_els {c : E} (l : List E) (w : List (Ptr E)) :
    (((none : Option E).toList.map Ptr.el : List (Ptr E)) : Multiset (Ptr E)) +
      ((c :: l).map Ptr.el : List (Ptr E)) + w =
    ((l.map Ptr.el : List (Ptr E)) : Multiset (Ptr E)) + (Ptr.el c :: w : List (Ptr E)) := by
  rw [List.map_cons, ← Multiset.cons_coe, ← Multiset.cons_coe]
  show (0 : Multiset (Ptr E)) + (Ptr.el c ::ₘ _) + _ = _
  rw [zero_add, Multiset.cons_add, Multiset.add_cons]

/-- The deque, from the end `d`. -/
theorem isDeque_view : IsDeque h q ↔ Ring Ptr.el .chain (links d h) (view d q) := by
  cases d
  · rfl
  · exact ⟨fun hr => hr.flip, fun hr => List.reverse_reverse q ▸ hr.flip⟩

theorem el_inj : Function.Injective (Ptr.el (E := E)) := fun _ _ he => Ptr.el.inj he

theorem el_ne_chain (e : E) : Ptr.el e ≠ .chain := by simp

/-! ### Stores -/

theorem mem_delStores {w : Field E × Ptr E} : w ∈ delStores c h ↔
    w = ((h (c, d.dir), d.dir.flip), h (c, d.dir.flip)) ∨
      w = ((h (c, d.dir.flip), d.dir), h (c, d.dir)) := by
  cases d
  · simp [delStores, End.dir, Dir.flip, or_comm]
  · simp [delStores, End.dir, Dir.flip]

theorem delStores_nodup : ((delStores c h).map Prod.fst).Nodup := by simp [delStores]

theorem initStores_nodup : ((initStores c).map Prod.fst).Nodup := by simp [initStores]

theorem addStores_nodup {m : Dir} (hc : c ≠ .chain) (hh : h (.chain, m) ≠ c) :
    ((addStores m c h).map Prod.fst).Nodup := by
  have hm : m ≠ m.flip := (Dir.flip_ne m).symm
  simp [addStores, hc, hh.symm, hm]

variable [DecidableEq E] {L : CdsList E}

theorem links_out : links d (Function.update h (c, d.dir) x) =
    ⟨Function.update (links d h).next c x, (links d h).prev⟩ := by
  refine congrArg₂ Links.mk (funext fun y => ?_) (funext fun y => ?_)
  · by_cases hy : y = c
    · simp [hy]
    · simp [Function.update_of_ne, hy, links]
  · exact Function.update_of_ne (by simp) _ _

theorem links_back : links d (Function.update h (c, d.dir.flip) x) =
    ⟨(links d h).next, Function.update (links d h).prev c x⟩ := by
  refine congrArg₂ Links.mk (funext fun y => ?_) (funext fun y => ?_)
  · exact Function.update_of_ne (by simp [(Dir.flip_ne d.dir).symm]) _ _
  · by_cases hy : y = c
    · simp [hy]
    · simp [Function.update_of_ne, hy, links]

theorem links_add : links d (apply (addStores d.dir c h) h) = (links d h).add c .chain := by
  simp only [addStores, apply, links_out, links_back]
  rfl

theorem links_del : links d (apply (delStores c h) h) = (links d h).del c := by
  cases d
  · show links .left (Function.update (Function.update h (h (c, .next), End.left.dir)
      (h (c, .prev))) (h (c, .prev), End.left.dir.flip) (h (c, .next))) = _
    rw [links_back, links_out]
    rfl
  · show links .right (Function.update (Function.update h (h (c, .next), End.right.dir.flip)
      (h (c, .prev))) (h (c, .prev), End.right.dir) (h (c, .next))) = _
    rw [links_out, links_back]
    rfl

/-! ### The operations on their own -/

theorem deq_pop (d : End) : deq L (.pop d) = deqPop L d.dir := by cases d <;> rfl

/-- `cds_list_add` or `cds_list_add_tail`. -/
def addAt (L : CdsList E) (d : Dir) : Ptr E → Code E Unit :=
  match d with
  | .next => L.add
  | .prev => L.addTail

theorem deq_push (d : End) (e : E) :
    deq L (.push d e) = (addAt L d.dir (.el e)).bind fun _ => .ret none := by cases d <;> rfl

theorem addAt_does (m : Dir) (c : Ptr E) (h : Heap E) :
    (addAt L m c).Does h [(.chain, m)] (addStores m c h) := by
  cases m
  · exact L.add_does c h
  · exact L.addTail_does c h

/-- The links near the end `d`, where `a` is put in or taken out and `b` is next to it. -/
def Zone (d : End) (a b : E) (f : Field E) : Prop :=
  f = (.chain, d.dir) ∨ f.1 = .el a ∨ f = (.el b, d.dir.flip)

/-- The program keeps to the zone, and stores no `&p->chain` to the head's link. -/
structure Near (p : Code E (Option (Ptr E))) (h : Heap E) (d : End) (a b : E) : Prop where
  cells : ∀ f ∈ p.cells h, Zone d a b f
  head : ∀ w ∈ p.stores h, w.1 = (.chain, d.dir) → w.2 ≠ .chain

theorem deqPop_run (hr : Ring Ptr.el .chain (links d h) (a :: r)) :
    ((deq L (.pop d)).run h).1 = some (.el a) ∧
      Ring Ptr.el .chain (links d ((deq L (.pop d)).run h).2) r := by
  have ha : h (.chain, d.dir) = .el a := hr.next_head
  have hna : a ∉ r := (List.nodup_cons.mp hr.nodup).1
  rw [deq_pop]
  simp only [deqPop, Prog.run, Prog.run_bind, ha, true_and]
  rw [(L.initHead_does _ _).run initStores_nodup, (L.del_does _ h).run delStores_nodup]
  have hd : Ring Ptr.el .chain (links d (apply (delStores (.el a) h) h)) r := by
    have hr' : Ring Ptr.el .chain (links d h) ([] ++ a :: r) := hr
    rw [links_del]
    exact hr'.del el_inj el_ne_chain
  have hoff : ∀ c m, c ≠ .el a → apply (initStores (.el a)) (apply (delStores (.el a) h) h) (c, m) =
      apply (delStores (.el a) h) h (c, m) := by
    intro c m hc
    refine Prog.apply_off ?_
    simp [initStores, hc]
  have hch : Ptr.chain ≠ .el a := by simp
  refine hd.congr ⟨hoff _ d.dir hch, hoff _ d.dir.flip hch⟩ fun e he => ?_
  have hne : Ptr.el e ≠ .el a := fun hx => hna (el_inj hx ▸ he)
  exact ⟨hoff _ d.dir hne, hoff _ d.dir.flip hne⟩

theorem deqPop_near (hr : Ring Ptr.el .chain (links d h) (a :: b :: r)) :
    Near (deq L (.pop d)) h d a b := by
  have ha : h (.chain, d.dir) = .el a := hr.next_head
  have hr' : Ring Ptr.el .chain (links d h) ([] ++ a :: b :: r) := hr
  have hb : h (.el a, d.dir) = .el b := hr'.next_mem
  have hc : h (.el a, d.dir.flip) = .chain := hr'.prev_mem
  have hdel : ∀ w ∈ delStores (.el a) h,
      w = ((.el b, d.dir.flip), .chain) ∨ w = ((.chain, d.dir), .el b) := by
    intro w hw
    rwa [mem_delStores (d := d), hb, hc] at hw
  have hinit : ∀ w ∈ initStores (E := E) (.el a), w.1.1 = .el a := by
    intro w hw
    simp only [initStores, List.mem_cons, List.not_mem_nil, or_false] at hw
    rcases hw with rfl | rfl <;> rfl
  rw [deq_pop]
  constructor
  · intro f hf
    simp only [deqPop, Prog.cells, Prog.cells_bind, ha, List.append_nil, List.mem_cons,
      List.mem_append] at hf
    rcases hf with rfl | hf | hf
    · exact .inl rfl
    · rcases (L.del_does _ h).cells f hf with hf | hf
      · simp only [List.mem_cons, List.not_mem_nil, or_false] at hf
        rcases hf with rfl | rfl <;> exact .inr (.inl rfl)
      · obtain ⟨w, hw, rfl⟩ := List.mem_map.mp hf
        rcases hdel w hw with rfl | rfl
        · exact .inr (.inr rfl)
        · exact .inl rfl
    · rcases (L.initHead_does _ _).cells f hf with hf | hf
      · cases hf
      · obtain ⟨w, hw, rfl⟩ := List.mem_map.mp hf
        exact .inr (.inl (hinit w hw))
  · intro w hw he
    simp only [deqPop, Prog.stores, Prog.stores_bind, ha, List.append_nil, List.mem_append] at hw
    rcases hw with hw | hw
    · rcases hdel w ((L.del_does _ h).stores.mem_iff.mp hw) with rfl | rfl
      · simp at he
      · simp
    · have hw' := hinit w ((L.initHead_does _ _).stores.mem_iff.mp hw)
      rw [he] at hw'
      cases hw'

theorem deqPush_run (hr : Ring Ptr.el .chain (links d h) l) (he : e ∉ l) :
    ((deq L (.push d e)).run h).1 = none ∧
      Ring Ptr.el .chain (links d ((deq L (.push d e)).run h).2) (e :: l) := by
  have hne : h (.chain, d.dir) ≠ .el e := by
    rw [show h (.chain, d.dir) = _ from hr.next_head]
    exact first_ne el_inj el_ne_chain he
  rw [deq_push]
  simp only [Prog.run, Prog.run_bind, true_and]
  rw [(addAt_does _ _ h).run (addStores_nodup (by simp) hne), links_add]
  exact hr.add el_inj el_ne_chain he

theorem deqPush_near (hr : Ring Ptr.el .chain (links d h) (b :: r)) :
    Near (deq L (.push d e)) h d e b := by
  have hb : h (.chain, d.dir) = .el b := hr.next_head
  have hadd : ∀ w ∈ addStores d.dir (.el e) h, w = ((.el e, d.dir), .el b) ∨
      w = ((.chain, d.dir), .el e) ∨ w = ((.el e, d.dir.flip), .chain) ∨
      w = ((.el b, d.dir.flip), .el e) := by
    intro w hw
    simpa only [addStores, hb, List.mem_cons, List.not_mem_nil, or_false] using hw
  rw [deq_push]
  constructor
  · intro f hf
    simp only [Prog.cells, Prog.cells_bind, List.append_nil] at hf
    rcases (addAt_does _ _ h).cells f hf with hf | hf
    · exact .inl (List.mem_singleton.mp hf)
    · obtain ⟨w, hw, rfl⟩ := List.mem_map.mp hf
      rcases hadd w hw with rfl | rfl | rfl | rfl
      · exact .inr (.inl rfl)
      · exact .inl rfl
      · exact .inr (.inl rfl)
      · exact .inr (.inr rfl)
  · intro w hw he
    simp only [Prog.stores, Prog.stores_bind, List.append_nil] at hw
    rcases hadd w ((addAt_does _ _ h).stores.mem_iff.mp hw) with rfl | rfl | rfl | rfl
    · simp at he
    · simp
    · simp at he
    · simp at he

/-! ### The two ends -/

section Ends

variable {p p' : Code E (Option (Ptr E))} {y : Option E} {H : Heap E}

omit [DecidableEq E] in
theorem zone_disjoint {e e' : E} (ha : Zone d a b f) (hc : Zone d.other e e' f) (hae : a ≠ e)
    (hae' : a ≠ e') (hbe : b ≠ e) : False := by
  have hm := Dir.flip_ne d.dir
  rcases ha with rfl | ha | rfl <;> rcases hc with hc | hc | hc
  · simp [hm.symm] at hc
  · simp at hc
  · simp at hc
  · rw [hc] at ha
    simp at ha
  · exact hae (el_inj (ha.symm.trans hc))
  · rw [hc] at ha
    exact hae' (el_inj ha).symm
  · simp at hc
  · exact hbe (el_inj hc)
  · simp [hm] at hc

theorem Near.apart {e e' : E} (hp : Near p h d a b) (hr : Near p' h d.other e e') (hae : a ≠ e)
    (hae' : a ≠ e') (hbe : b ≠ e) : Prog.Apart p p' h where
  left w hw hf := zone_disjoint (hp.cells _ (Prog.stores_cells p h w hw)) (hr.cells _ hf) hae hae' hbe
  right w hw hf := zone_disjoint (hp.cells _ hf) (hr.cells _ (Prog.stores_cells p' h w hw)) hae hae' hbe

/-- A program near its end does the same in a memory that is the same there. -/
theorem Near.frame (hn : Near p H d a b) (hz : ∀ f, Zone d a b f → h f = H f) :
    Near p h d a b ∧ (p.run h).1 = (p.run H).1 := by
  obtain ⟨hs, hc, hr⟩ := Prog.frame (p := p) (g := h) (h := H) fun f hf => hz f (hn.cells f hf)
  exact ⟨⟨hc ▸ hn.cells, hs ▸ hn.head⟩, hr⟩

/-- Where `a` and `b` of a zone are: `a` was taken out and is with the thread, or was put in. -/
def At (y : Option E) (l : List E) (a b : E) : Prop :=
  (∃ r, l = b :: r ∧ y = some a) ∨ ∃ r, l = a :: b :: r

omit [DecidableEq E] in
/-- Two elements away from the other end, nothing there changes this. -/
theorem At.far {w₁ w₂ : List E} (hat : At y (w₁ ++ w₂) a b) (hw : 2 ≤ w₁.length) (w₂' : List E) :
    At y (w₁ ++ w₂') a b ∧ (y = some a ∨ a ∈ w₁) ∧ b ∈ w₁ := by
  obtain ⟨u, v, w, rfl⟩ : ∃ u v w, w₁ = u :: v :: w := by
    match w₁, hw with
    | u :: v :: w, _ => exact ⟨u, v, w, rfl⟩
  rcases hat with ⟨r, hr, hy⟩ | ⟨r, hr⟩
  · obtain ⟨rfl, -⟩ := List.cons.inj hr
    exact ⟨.inl ⟨_, rfl, hy⟩, .inl hy, List.mem_cons_self⟩
  · obtain ⟨rfl, hr'⟩ := List.cons.inj hr
    obtain ⟨rfl, -⟩ := List.cons.inj hr'
    exact ⟨.inr ⟨_, rfl⟩, .inr List.mem_cons_self, by simp⟩

omit [DecidableEq E] in
theorem At.far_pop {c e : E} (hat : At y (c :: e :: r).reverse a b) (hr : 2 ≤ r.length)
    (hn : (c :: e :: r).Nodup) (hy : y = some a → a ∉ c :: e :: r) :
    (c ≠ a ∧ c ≠ b ∧ e ≠ a) ∧ At y (e :: r).reverse a b := by
  have hrev : (c :: e :: r).reverse = r.reverse ++ [e, c] := by simp
  rw [hrev] at hat
  obtain ⟨hat', ha, hb⟩ := hat.far (by rwa [List.length_reverse]) [e]
  rw [List.mem_reverse] at ha hb
  simp only [List.nodup_cons, List.mem_cons, not_or] at hn hy
  refine ⟨⟨?_, ?_, ?_⟩, by rwa [List.reverse_cons]⟩
  · rintro rfl
    exact ha.elim (fun hx => (hy hx).1 rfl) hn.1.2
  · rintro rfl
    exact hn.1.2 hb
  · rintro rfl
    exact ha.elim (fun hx => (hy hx).2.1 rfl) hn.2.1

omit [DecidableEq E] in
theorem At.far_push {c e : E} (hat : At y (e :: r).reverse a b) (hr : 2 ≤ r.length)
    (hn : (e :: r).Nodup) (hc : c ∉ e :: r) (hy : y = some a → a ∉ e :: r ∧ c ≠ a) :
    (c ≠ a ∧ c ≠ b ∧ e ≠ a) ∧ At y (c :: e :: r).reverse a b := by
  rw [List.reverse_cons] at hat
  obtain ⟨hat', ha, hb⟩ := hat.far (by rwa [List.length_reverse]) [e, c]
  rw [List.mem_reverse] at ha hb
  simp only [List.nodup_cons, List.mem_cons, not_or] at hn hy hc
  refine ⟨⟨?_, ?_, ?_⟩, by simpa using hat'⟩
  · rintro rfl
    exact ha.elim (fun hx => (hy hx).2 rfl) hc.2
  · rintro rfl
    exact hc.2 hb
  · rintro rfl
    exact ha.elim (fun hx => (hy hx).1.1 rfl) hn.1

omit [DecidableEq E] in
theorem head_ne (hq : IsDeque h q) (hne : q ≠ []) (m : Dir) : h (.chain, m) ≠ .chain := by
  have hdir : ∃ d : End, d.dir = m := by
    cases m
    · exact ⟨.right, rfl⟩
    · exact ⟨.left, rfl⟩
  obtain ⟨d, rfl⟩ := hdir
  have hf : h (.chain, d.dir) = first Ptr.el .chain (view d q) := (isDeque_view.mp hq).next_head
  rw [hf]
  cases hv : view d q with
  | nil => exact absurd (by rw [← view_view (d := d) (q := q), hv]; cases d <;> rfl) hne
  | cons a l => exact el_ne_chain a

end Ends

/-! ### The invariant -/

/-- The thread holds the lock for reading. -/
def shared : Loc E → Bool
  | .sub _ | .unlock _ | .test .rd _ | .work .rd _ _ | .incNull .rd _ | .inc .rd _ _
  | .leave .rd _ _ => true
  | _ => false

/-- The thread holds the lock for writing. -/
def excl : Loc E → Bool
  | .test .wr _ | .work .wr _ _ | .incNull .wr _ | .inc .wr _ _ | .leave .wr _ _ => true
  | _ => false

/-- What the thread has taken from the counter and will give back. -/
def weight : Loc E → ℤ
  | .unlock o | .wrlock o => -o.take
  | .test .rd _ => -1
  | .test .wr _ | .incNull _ _ => -2
  | .work _ o _ | .inc _ o _ => -o.give
  | .idle | .rdlock _ | .sub _ | .leave _ _ _ => 0

def Op.elem : Op E → Option E
  | .pop _ => none
  | .push _ e => some e

/-- What the thread is still going to do to the links, once it has found the list not empty. -/
def rest (L : CdsList E) : Loc E → Option (End × Code E (Option (Ptr E)))
  | .test .rd d => some (d, deq L (.pop d))
  | .work _ o p => some (o.side, p)
  | _ => none

/-- What the thread has taken out, while it is at the links. -/
def taken (L : CdsList E) (l : Loc E) (y : Option E) : Multiset (Ptr E) :=
  if (rest L l).isSome then (y.toList.map Ptr.el : List (Ptr E)) else 0

/-- What a thread relies on; `y` is the element it has in hand. -/
def LocInv (L : CdsList E) (h : Heap E) (y : Option E) : Loc E → Prop
  | .idle | .test .wr _ | .incNull _ _ => y = none
  | .rdlock o | .sub o | .unlock o | .wrlock o => y = o.elem
  | .test .rd d => ((deq L (.pop d)).run h).1 = y.map Ptr.el
  | .work _ _ p => (p.run h).1 = y.map Ptr.el
  | .inc _ _ e | .leave _ _ e => e = y.map Ptr.el

abbrev Todo (E : Type) := End → Code E (Option (Ptr E))

/-- The links, when first what is to be done at `d` is done and then the other. -/
def settle (P : Todo E) (h : Heap E) (d : End) : Heap E := ((P d.other).run ((P d).run h).2).2

section Inv

variable [DecidableEq τ] [Fintype τ]

/-- The read lock is not kept while another thread is at the same end. -/
def EndFreeAt (s : St τ E) : Loc E → Prop
  | .sub o => 1 ≤ s.counter - o.take → ∀ u, inside (s.loc u) ≠ some o.side
  | _ => True

def EndFree : Act τ E → St τ E → Prop
  | .step t, s => EndFreeAt s (s.loc t)
  | _, _ => True

/-- The invariant. -/
structure InvOf (L : CdsList E) (s : St τ E) (q : List E) (g : τ → Option E) (P : Todo E) : Prop where
  readers : ∀ t, s.readers t = shared (s.loc t)
  writer : LockedBy excl s.writer s.loc
  alone : ∀ t, s.readers t = true → s.writer = none
  oneEnd : ∀ t u d, inside (s.loc t) = some d → inside (s.loc u) = some d → t = u
  count : s.counter = q.length + ∑ t, weight (s.loc t)
  doing : ∀ t d p, rest L (s.loc t) = some (d, p) → P d = p
  done : ∀ d, (∀ t p, rest L (s.loc t) ≠ some (d, p)) → ∃ e, P d = .ret e
  apart : ∀ d, Prog.Apart (P d) (P d.other) s.link
  deque : ∀ d, IsDeque (settle P s.link d) q
  near : ∀ t d p, s.readers t = true → rest L (s.loc t) = some (d, p) →
    ∃ a b, Near p s.link d a b ∧ At (g t) (view d q) a b
  head : ∀ t d p, s.readers t = true → rest L (s.loc t) = some (d, p) →
    ∀ m, s.link (.chain, m) ≠ .chain
  loc : ∀ t, LocInv L s.link (g t) (s.loc t)
  hand : ∀ t e, g t = some e → e ∉ q ∧ s.out e = false
  handOne : ∀ t u e, g t = some e → g u = some e → t = u
  listed : ∀ e ∈ q, s.out e = false
  balance : (s.popped : Multiset (Ptr E)) + ∑ t, taken L (s.loc t) (g t) + (q.map Ptr.el : List _) =
    (s.pushed : Multiset (Ptr E))

end Inv

theorem rest_inside {x : Loc E} {p : Code E (Option (Ptr E))} (hr : rest L x = some (d, p)) :
    inside x = some d := by
  cases x with
  | test m =>
    cases m
    · obtain ⟨rfl, -⟩ := Prod.mk.inj (Option.some.inj hr)
      rfl
    · cases hr
  | work =>
    obtain ⟨rfl, -⟩ := Prod.mk.inj (Option.some.inj hr)
    rfl
  | idle | rdlock | sub | unlock | wrlock | incNull | inc | leave => cases hr

omit [DecidableEq E] in
theorem inside_locked {x : Loc E} (hi : inside x = some d) : shared x = true ∨ excl x = true := by
  cases x with
  | test m => cases m <;> simp [shared, excl]
  | work m => cases m <;> simp [shared, excl]
  | idle | rdlock | sub | unlock | wrlock | incNull | inc | leave => cases hi

omit [DecidableEq E] in
theorem weight_nonpos (x : Loc E) : weight x ≤ 0 := by
  cases x with
  | unlock o | wrlock o | work m o | inc m o => cases o <;> simp [weight, Op.take, Op.give]
  | test m => cases m <;> simp [weight]
  | idle | rdlock | sub | incNull | leave => simp [weight]

theorem weight_rest {x : Loc E} {p : Code E (Option (Ptr E))} (hr : rest L x = some (d, p)) :
    weight x ≤ -1 := by
  cases x with
  | test m => cases m <;> simp [weight]
  | work m o => cases o <;> simp [weight, Op.give]
  | idle | rdlock | sub | unlock | wrlock | incNull | inc | leave => cases hr

theorem taken_none {x : Loc E} {y : Option E} (hr : rest L x = none) : taken L x y = 0 := by
  rw [taken, hr]
  rfl

theorem taken_some {x : Loc E} {y : Option E} {w : End × Code E (Option (Ptr E))}
    (hr : rest L x = some w) : taken L x y = (y.toList.map Ptr.el : List (Ptr E)) := by
  rw [taken, hr]
  rfl

section Steps

variable [DecidableEq τ] [Fintype τ] {s s' : St τ E} {g : τ → Option E} {P : Todo E} {t u : τ}
  {x : Loc E} {p p' : Code E (Option (Ptr E))} {y : Option E}

/-- Others take from the counter too. -/
theorem InvOf.count_le (h : InvOf L s q g P) (hu : u ≠ t) :
    s.counter ≤ q.length + weight (s.loc t) + weight (s.loc u) := by
  have hsum : ∑ v, weight (s.loc v) ≤ weight (s.loc t) + weight (s.loc u) := by
    rw [← Finset.add_sum_erase _ _ (Finset.mem_univ t),
      ← Finset.add_sum_erase _ _ (Finset.mem_erase.mpr ⟨hu, Finset.mem_univ u⟩)]
    have := Finset.sum_nonpos (s := (Finset.univ.erase t).erase u) fun v _ => weight_nonpos (s.loc v)
    omega
  have := h.count
  omega

theorem InvOf.count_self (h : InvOf L s q g P) (t : τ) :
    s.counter ≤ q.length + weight (s.loc t) := by
  have hsum : ∑ v, weight (s.loc v) ≤ weight (s.loc t) := by
    rw [← Finset.add_sum_erase _ _ (Finset.mem_univ t)]
    have := Finset.sum_nonpos (s := Finset.univ.erase t) fun v _ => weight_nonpos (s.loc v)
    omega
  have := h.count
  omega

omit [DecidableEq τ] in
/-- While the lock is held for reading, who is at the links holds it so. -/
theorem InvOf.reader (h : InvOf L s q g P) (ht : s.readers t = true)
    (hu : inside (s.loc u) = some d) : s.readers u = true := by
  rw [h.readers u]
  refine (inside_locked hu).resolve_right fun he => ?_
  have hw := (h.writer u).mpr he
  rw [h.alone t ht] at hw
  cases hw

omit [DecidableEq τ] [Fintype τ] in
/-- Done in one order, done in the other. -/
theorem deque_both (ha : Prog.Apart (P d) (P d.other) s.link) (hd : IsDeque (settle P s.link d) q) :
    (∀ d, Prog.Apart (P d) (P d.other) s.link) ∧ ∀ d, IsDeque (settle P s.link d) q := by
  have hother : ∀ d', d' = d ∨ d' = d.other := by
    intro d'
    cases d <;> cases d' <;> simp [End.other]
  have ha' : Prog.Apart (P d.other) (P d.other.other) s.link := by
    rw [End.other_other]
    exact ha.symm
  have hd' : IsDeque (settle P s.link d.other) q := by
    rw [settle, End.other_other]
    exact ha.run_comm ▸ hd
  exact ⟨fun d' => (hother d').elim (fun he => he ▸ ha) fun he => he ▸ ha',
    fun d' => (hother d').elim (fun he => he ▸ hd) fun he => he ▸ hd'⟩

/-- What a thread relies on is the same where its program does the same. -/
theorem LocInv.frame {h' : Heap E} {y : Option E} (hl : LocInv L h y x)
    (hr : ∀ d p, rest L x = some (d, p) → (p.run h').1 = (p.run h).1) : LocInv L h' y x := by
  cases x with
  | test m d =>
    cases m
    · exact (hr d _ rfl).trans hl
    · exact hl
  | work m o p => exact (hr o.side p rfl).trans hl
  | idle | rdlock | sub | unlock | wrlock | incNull | inc | leave => exact hl

/-- A thread goes on that is not at the links. -/
theorem InvOf.move (h : InvOf L s q g P) (hloc : s'.loc = Function.update s.loc t x)
    (hlink : s'.link = s.link) (hpushed : s'.pushed = s.pushed) (hpopped : s'.popped = s.popped)
    (ht : rest L (s.loc t) = none) (hx : rest L x = none)
    (hin : ∀ d, inside x = some d → ∀ u, u ≠ t → inside (s.loc u) ≠ some d)
    (hreaders : ∀ u, s'.readers u = shared (s'.loc u)) (hwriter : LockedBy excl s'.writer s'.loc)
    (halone : ∀ u, s'.readers u = true → s'.writer = none)
    (hstay : ∀ u, u ≠ t → s'.readers u = true → s.readers u = true)
    (hcount : s'.counter = s.counter + weight x - weight (s.loc t)) (hl : LocInv L s.link y x)
    (hhand : ∀ e, y = some e → s'.out e = false ∧ (g t = some e ∨ e ∉ q ∧ ∀ u, g u ≠ some e))
    (hout : ∀ e, s.out e = false → (g t = some e → y = some e) → s'.out e = false) :
    InvOf L s' q (Function.update g t y) P := by
  have hself : s'.loc t = x := update_self hloc
  have hne : ∀ u, u ≠ t → s'.loc u = s.loc u := fun u hu => update_ne hloc hu
  have hg : ∀ u, u ≠ t → Function.update g t y u = g u := fun u hu => Function.update_of_ne hu _ _
  have hrest : ∀ u d p, rest L (s'.loc u) = some (d, p) → u ≠ t ∧ rest L (s.loc u) = some (d, p) := by
    intro u d p hr
    have hut : u ≠ t := by
      rintro rfl
      rw [hself, hx] at hr
      cases hr
    exact ⟨hut, hne u hut ▸ hr⟩
  have hotherHand : ∀ u e, u ≠ t → g u = some e → g t ≠ some e := fun u e hu he ht =>
    hu (h.handOne u t e he ht)
  refine
    { readers := hreaders
      writer := hwriter
      alone := halone
      oneEnd := fun u v d hu hv => ?_
      count := ?_
      doing := fun u d p hr => h.doing u d p (hrest u d p hr).2
      done := fun d hd => h.done d fun u p hr => ?_
      apart := hlink ▸ h.apart
      deque := hlink ▸ h.deque
      near := fun u d p hu hr => ?_
      head := fun u d p hu hr => ?_
      loc := fun u => ?_
      hand := fun u e he => ?_
      handOne := fun u v e hu hv => ?_
      listed := fun e he => ?_
      balance := ?_ }
  · by_cases hut : u = t <;> by_cases hvt : v = t
    · rw [hut, hvt]
    · rw [hut, hself] at hu
      exact absurd (hne v hvt ▸ hv) (hin d hu v hvt)
    · rw [hvt, hself] at hv
      exact absurd (hne u hut ▸ hu) (hin d hv u hut)
    · exact h.oneEnd u v d (hne u hut ▸ hu) (hne v hvt ▸ hv)
  · have hsum := sum_move (t := t) (fun u => weight (s'.loc u)) (fun u => weight (s.loc u))
      fun u hu => congrArg weight (hne u hu)
    simp only [hself] at hsum
    have := h.count
    omega
  · by_cases hut : u = t
    · rw [hut, ht] at hr
      cases hr
    · exact hd u p (hne u hut ▸ hr)
  · obtain ⟨hut, hr⟩ := hrest u d p hr
    rw [hg u hut, hlink]
    exact h.near u d p (hstay u hut hu) hr
  · obtain ⟨hut, hr⟩ := hrest u d p hr
    rw [hlink]
    exact h.head u d p (hstay u hut hu) hr
  · rw [hlink]
    by_cases hut : u = t
    · rw [hut, hself, Function.update_self]
      exact hl
    · rw [hne u hut, hg u hut]
      exact h.loc u
  · by_cases hut : u = t
    · rw [hut, Function.update_self] at he
      obtain ⟨ho, hm | hm⟩ := hhand e he
      · exact ⟨(h.hand t e hm).1, ho⟩
      · exact ⟨hm.1, ho⟩
    · rw [hg u hut] at he
      exact ⟨(h.hand u e he).1, hout e (h.hand u e he).2 fun hm => absurd hm (hotherHand u e hut he)⟩
  · by_cases hut : u = t <;> by_cases hvt : v = t
    · rw [hut, hvt]
    · rw [hut, Function.update_self] at hu
      rw [hg v hvt] at hv
      rcases (hhand e hu).2 with hm | hm
      · exact absurd hm (hotherHand v e hvt hv)
      · exact absurd hv (hm.2 v)
    · rw [hvt, Function.update_self] at hv
      rw [hg u hut] at hu
      rcases (hhand e hv).2 with hm | hm
      · exact absurd hm (hotherHand u e hut hu)
      · exact absurd hu (hm.2 u)
    · rw [hg u hut] at hu
      rw [hg v hvt] at hv
      exact h.handOne u v e hu hv
  · exact hout e (h.listed e he) fun hm => absurd he (h.hand t e hm).1
  · rw [hpopped, hpushed, ← h.balance]
    congr 2
    refine Finset.sum_congr rfl fun u _ => ?_
    by_cases hut : u = t
    · rw [hut, hself, taken_none hx, taken_none ht]
    · rw [hne u hut, hg u hut]

/-- The test is passed: what is to be done stays the same. -/
theorem InvOf.stay (h : InvOf L s q g P) (hrest : rest L x = rest L (s.loc t))
    (hin : inside x = inside (s.loc t)) (hsh : shared x = shared (s.loc t))
    (hex : excl x = excl (s.loc t)) (hw : weight x = weight (s.loc t))
    (hl : LocInv L s.link (g t) x) : InvOf L (s.goto t x) q g P := by
  have hloc : (s.goto t x).loc = Function.update s.loc t x := rfl
  have hr : ∀ u, rest L ((s.goto t x).loc u) = rest L (s.loc u) :=
    forall_update (P := fun u y => rest L y = rest L (s.loc u)) hloc hrest fun _ _ => rfl
  have hi : ∀ u, inside ((s.goto t x).loc u) = inside (s.loc u) :=
    forall_update (P := fun u y => inside y = inside (s.loc u)) hloc hin fun _ _ => rfl
  have hwt : ∀ u, weight ((s.goto t x).loc u) = weight (s.loc u) :=
    forall_update (P := fun u y => weight y = weight (s.loc u)) hloc hw fun _ _ => rfl
  exact
    { readers := forall_update (P := fun u y => s.readers u = shared y) hloc
        ((h.readers t).trans hsh.symm) fun u _ => h.readers u
      writer := h.writer.stay hloc hex
      alone := h.alone
      oneEnd := fun u v d hu hv => h.oneEnd u v d (hi u ▸ hu) (hi v ▸ hv)
      count := h.count.trans (congrArg _ (Finset.sum_congr rfl fun u _ => (hwt u).symm))
      doing := fun u d p hu => h.doing u d p (hr u ▸ hu)
      done := fun d hd => h.done d fun u p hu => hd u p ((hr u).trans hu)
      apart := h.apart
      deque := h.deque
      near := fun u d p hu hp => h.near u d p hu (hr u ▸ hp)
      head := fun u d p hu hp => h.head u d p hu (hr u ▸ hp)
      loc := forall_update (P := fun u y => LocInv L s.link (g u) y) hloc hl fun u _ => h.loc u
      hand := h.hand
      handOne := h.handOne
      listed := h.listed
      balance := by
        refine Eq.trans ?_ h.balance
        show (s.popped : Multiset (Ptr E)) + ∑ u, taken L ((s.goto t x).loc u) (g u) + _ = _
        congr 2
        exact Finset.sum_congr rfl fun u _ => by rw [taken, taken, hr u] }

@[simp] theorem End.other_ne (d : End) : d.other ≠ d := by cases d <;> simp [End.other]

theorem End.eq_or (d d' : End) : d' = d ∨ d' = d.other := by
  cases d <;> cases d' <;> simp [End.other]

/-- An access of the links. -/
theorem InvOf.access {m : Mode} {o : Op E} {h' : Heap E} (h : InvOf L s q g P)
    (hl : s.loc t = .work m o p) (hs : p.step s.link = some (p', h')) :
    InvOf L ({ s with link := h' }.goto t (.work m o p')) q g (Function.update P o.side p') := by
  set s' := { s with link := h' }.goto t (.work m o p') with hs'
  set P' := Function.update P o.side p' with hP'
  have hloc : s'.loc = Function.update s.loc t (.work m o p') := rfl
  have hself : s'.loc t = .work m o p' := update_self hloc
  have hne : ∀ u, u ≠ t → s'.loc u = s.loc u := fun u hu => update_ne hloc hu
  have hrt : rest L (s.loc t) = some (o.side, p) := by rw [hl]; rfl
  have hPd : P o.side = p := h.doing t _ _ hrt
  have hP'd : P' o.side = p' := Function.update_self ..
  have hP'o : P' o.side.other = P o.side.other := Function.update_of_ne (by simp) _ _
  have hap := h.apart o.side
  rw [hPd] at hap
  obtain ⟨hap', hstores, hcells, hrun⟩ := hap.step hs
  have hi : ∀ u, inside (s'.loc u) = inside (s.loc u) :=
    forall_update (P := fun u y => inside y = inside (s.loc u)) hloc (by rw [hl]; rfl) fun _ _ => rfl
  have hrd : ∀ u, s'.readers u = s.readers u := fun u => rfl
  have hrest : ∀ u d r, u ≠ t → rest L (s.loc u) = some (d, r) →
      d = o.side.other ∧ P o.side.other = r := by
    intro u d r hu hr
    rcases End.eq_or o.side d with rfl | rfl
    · exact absurd (h.oneEnd u t _ (rest_inside hr) (rest_inside hrt)) hu
    · exact ⟨rfl, h.doing u _ _ hr⟩
  have hboth := deque_both (s := s') (P := P') (q := q) (d := o.side)
    (by rw [hP'd, hP'o]; exact hap') (by
      have hd := h.deque o.side
      rw [settle, hPd, ← Prog.step_run hs] at hd
      rw [settle, hP'd, hP'o]
      exact hd)
  refine
    { readers := forall_update (P := fun u y => s.readers u = shared y) hloc
        ((h.readers t).trans (by rw [hl]; cases m <;> rfl)) fun u _ => h.readers u
      writer := h.writer.stay hloc (by rw [hl]; cases m <;> rfl)
      alone := h.alone
      oneEnd := fun u v d hu hv => h.oneEnd u v d (hi u ▸ hu) (hi v ▸ hv)
      count := ?_
      doing := fun u d r hr => ?_
      done := fun d hd => ?_
      apart := hboth.1
      deque := hboth.2
      near := fun u d r hu hr => ?_
      head := fun u d r hu hr k => ?_
      loc := fun u => ?_
      hand := h.hand
      handOne := h.handOne
      listed := h.listed
      balance := ?_ }
  · refine h.count.trans (congrArg _ (Finset.sum_congr rfl fun u _ => ?_))
    exact (forall_update (P := fun u y => weight y = weight (s.loc u)) hloc (by rw [hl]; rfl)
      (fun _ _ => rfl) u).symm
  · by_cases hut : u = t
    · rw [hut, hself] at hr
      obtain ⟨rfl, rfl⟩ := Prod.mk.inj (Option.some.inj hr)
      exact hP'd
    · obtain ⟨rfl, hr'⟩ := hrest u d r hut (hne u hut ▸ hr)
      exact hP'o.trans hr'
  · rcases End.eq_or o.side d with rfl | rfl
    · exact absurd (by rw [hself]; rfl) (hd t p')
    · rw [hP'o]
      refine h.done _ fun u r hr => ?_
      by_cases hut : u = t
      · rw [hut, hrt] at hr
        exact End.other_ne _ (Prod.mk.inj (Option.some.inj hr)).1.symm
      · exact hd u r ((congrArg (rest L) (hne u hut)).trans hr)
  · by_cases hut : u = t
    · rw [hut, hself] at hr
      obtain ⟨rfl, rfl⟩ := Prod.mk.inj (Option.some.inj hr)
      obtain ⟨a, b, hn, hat⟩ := h.near t _ _ (hut ▸ hu) hrt
      exact ⟨a, b, ⟨fun f hf => hn.cells f (Prog.step_cells hs f hf),
        fun w hw => hn.head w (Prog.step_stores hs w hw)⟩, hut ▸ hat⟩
    · rw [hne u hut] at hr
      obtain ⟨a, b, hn, hat⟩ := h.near u d r hu hr
      obtain ⟨rfl, rfl⟩ := hrest u d r hut hr
      exact ⟨a, b, ⟨hcells ▸ hn.cells, hstores ▸ hn.head⟩, hat⟩
  · have ht : s.readers t = true := h.reader hu (rest_inside hrt)
    have hk := h.head t _ _ ht hrt k
    obtain ⟨a, b, hn, -⟩ := h.near t _ _ ht hrt
    rcases Prog.step_heap hs (.chain, k) with he | hw
    · rw [show s'.link (.chain, k) = s.link (.chain, k) from he]
      exact hk
    · rcases hn.cells _ (Prog.stores_cells p s.link _ hw) with he | he | he
      · exact hn.head _ hw he
      · simp at he
      · simp at he
  · by_cases hut : u = t
    · have hlt := h.loc t
      rw [hl] at hlt
      rw [hut, hself]
      show (p'.run h').1 = _
      rw [Prog.step_run hs]
      exact hlt
    · rw [hne u hut]
      refine (h.loc u).frame fun d r hr => ?_
      obtain ⟨rfl, rfl⟩ := hrest u d r hut hr
      exact hrun
  · refine Eq.trans ?_ h.balance
    show (s.popped : Multiset (Ptr E)) + ∑ u, taken L (s'.loc u) (g u) + _ = _
    congr 2
    refine Finset.sum_congr rfl fun u _ => ?_
    exact forall_update (P := fun u y => taken L y (g u) = taken L (s.loc u) (g u)) hloc
      (by rw [hl]; rfl) (fun _ _ => rfl) u

/-- The `deq_` function returns. -/
theorem InvOf.finish {m : Mode} {o : Op E} {e : Option (Ptr E)} (h : InvOf L s q g P)
    (hl : s.loc t = .work m o (.ret e)) : InvOf L (s.finish t m o e) q g P := by
  set s' := s.finish t m o e with hs'
  have hloc : s'.loc = Function.update s.loc t (.inc m o e) := rfl
  have hself : s'.loc t = .inc m o e := update_self hloc
  have hne : ∀ u, u ≠ t → s'.loc u = s.loc u := fun u hu => update_ne hloc hu
  have hrt : rest L (s.loc t) = some (o.side, .ret e) := by rw [hl]; rfl
  have he : e = (g t).map Ptr.el := by
    have hlt := h.loc t
    rwa [hl] at hlt
  have hrest : ∀ u d r, rest L (s'.loc u) = some (d, r) → u ≠ t ∧ rest L (s.loc u) = some (d, r) := by
    intro u d r hr
    have hut : u ≠ t := by
      rintro rfl
      rw [hself] at hr
      cases hr
    exact ⟨hut, hne u hut ▸ hr⟩
  have hi : ∀ u d, inside (s'.loc u) = some d → inside (s.loc u) = some d := by
    intro u d hu
    by_cases hut : u = t
    · rw [hut, hself] at hu
      cases hu
    · exact hne u hut ▸ hu
  refine
    { readers := forall_update (P := fun u y => s.readers u = shared y) hloc
        ((h.readers t).trans (by rw [hl]; cases m <;> rfl)) fun u _ => h.readers u
      writer := h.writer.stay hloc (by rw [hl]; cases m <;> rfl)
      alone := h.alone
      oneEnd := fun u v d hu hv => h.oneEnd u v d (hi u d hu) (hi v d hv)
      count := ?_
      doing := fun u d r hr => h.doing u d r (hrest u d r hr).2
      done := fun d hd => ?_
      apart := h.apart
      deque := h.deque
      near := fun u d r hu hr => h.near u d r hu (hrest u d r hr).2
      head := fun u d r hu hr => h.head u d r hu (hrest u d r hr).2
      loc := forall_update (P := fun u y => LocInv L s.link (g u) y) hloc he fun u _ => h.loc u
      hand := h.hand
      handOne := h.handOne
      listed := h.listed
      balance := ?_ }
  · refine h.count.trans (congrArg _ (Finset.sum_congr rfl fun u _ => ?_))
    exact (forall_update (P := fun u y => weight y = weight (s.loc u)) hloc (by rw [hl]; rfl)
      (fun _ _ => rfl) u).symm
  · by_cases hd' : d = o.side
    · exact ⟨e, hd' ▸ h.doing t _ _ hrt⟩
    · refine h.done d fun u r hr => ?_
      by_cases hut : u = t
      · rw [hut, hrt] at hr
        exact hd' (Prod.mk.inj (Option.some.inj hr)).1.symm
      · exact hd u r ((congrArg (rest L) (hne u hut)).trans hr)
  · have hsum := sum_move (t := t) (fun u => taken L (s'.loc u) (g u)) (fun u => taken L (s.loc u) (g u))
      fun u hu => by rw [hne u hu]
    simp only [hself, taken_none (show rest L (.inc m o e) = none from rfl), taken_some hrt,
      add_zero] at hsum
    have hpop : (s'.popped : Multiset (Ptr E)) = (((g t).toList.map Ptr.el : List _) :
        Multiset (Ptr E)) + s.popped := by
      rw [Multiset.coe_add]
      show ((e.toList ++ s.popped : List (Ptr E)) : Multiset (Ptr E)) = _
      rw [he]
      cases g t <;> rfl
    refine Eq.trans ?_ h.balance
    rw [← hsum, hpop]
    ac_rfl

/-- A thread comes to the links, where `p` is to be done; `q'` is the list then. -/
theorem InvOf.commit {q' : List E} (h : InvOf L s q g P) (hloc : s'.loc = Function.update s.loc t x)
    (hlink : s'.link = s.link) (hout : s'.out = s.out) (hpopped : s'.popped = s.popped)
    (ht : rest L (s.loc t) = none) (hx : rest L x = some (d, p))
    (hfree : ∀ u, u ≠ t → inside (s.loc u) ≠ some d)
    (hreaders : ∀ u, s'.readers u = shared (s'.loc u)) (hwriter : LockedBy excl s'.writer s'.loc)
    (halone : ∀ u, s'.readers u = true → s'.writer = none)
    (hstay : ∀ u, u ≠ t → s'.readers u = true → s.readers u = true)
    (hcount : s'.counter + q.length + weight (s.loc t) = s.counter + q'.length + weight x)
    (hap : Prog.Apart p (P d.other) s.link)
    (hdeque : IsDeque (p.run ((P d.other).run s.link).2).2 q')
    (hnear : s'.readers t = true → ∃ a b, Near p s.link d a b ∧ At y (view d q') a b)
    (hfar : ∀ u r a b, u ≠ t → s'.readers u = true → rest L (s.loc u) = some (d.other, r) →
      At (g u) (view d.other q) a b → At (g u) (view d.other q') a b)
    (hhead : s'.readers t = true → ∀ m, s.link (.chain, m) ≠ .chain) (hl : LocInv L s.link y x)
    (hq' : ∀ e ∈ q', e ∈ q ∨ g t = some e) (hy : ∀ e, y = some e → e ∉ q' ∧ e ∈ q)
    (hbal : (y.toList.map Ptr.el : Multiset (Ptr E)) + (q'.map Ptr.el : List _) + s.pushed =
      ((q.map Ptr.el : List _) : Multiset (Ptr E)) + s'.pushed) :
    InvOf L s' q' (Function.update g t y) (Function.update P d p) := by
  set P' := Function.update P d p with hP'
  have hself : s'.loc t = x := update_self hloc
  have hne : ∀ u, u ≠ t → s'.loc u = s.loc u := fun u hu => update_ne hloc hu
  have hg : ∀ u, u ≠ t → Function.update g t y u = g u := fun u hu => Function.update_of_ne hu _ _
  have hP'd : P' d = p := Function.update_self ..
  have hP'o : P' d.other = P d.other := Function.update_of_ne (by simp) _ _
  have hrest : ∀ u d' r, u ≠ t → rest L (s.loc u) = some (d', r) → d' = d.other := by
    intro u d' r hu hr
    rcases End.eq_or d d' with rfl | rfl
    · exact absurd (rest_inside hr) (hfree u hu)
    · rfl
  have hboth := deque_both (s := s) (P := P') (q := q') (d := d.other)
    (by rw [End.other_other, hP'd, hP'o]; exact hap.symm)
    (by rw [settle, End.other_other, hP'd, hP'o]; exact hdeque)
  have hhand : ∀ u e, u ≠ t → g u = some e → e ∉ q' := fun u e hu he hm =>
    (hq' e hm).elim (h.hand u e he).1 fun hm => hu (h.handOne u t e he hm)
  refine
    { readers := hreaders
      writer := hwriter
      alone := halone
      oneEnd := fun u v d' hu hv => ?_
      count := ?_
      doing := fun u d' r hr => ?_
      done := fun d' hd' => ?_
      apart := hlink ▸ hboth.1
      deque := hlink ▸ hboth.2
      near := fun u d' r hu hr => ?_
      head := fun u d' r hu hr => ?_
      loc := fun u => ?_
      hand := fun u e he => ?_
      handOne := fun u v e hu hv => ?_
      listed := fun e he => ?_
      balance := ?_ }
  · by_cases hut : u = t <;> by_cases hvt : v = t
    · rw [hut, hvt]
    · rw [hut, hself, rest_inside hx] at hu
      exact absurd ((hne v hvt ▸ hv).trans hu.symm) (hfree v hvt)
    · rw [hvt, hself, rest_inside hx] at hv
      exact absurd ((hne u hut ▸ hu).trans hv.symm) (hfree u hut)
    · exact h.oneEnd u v d' (hne u hut ▸ hu) (hne v hvt ▸ hv)
  · have hsum := sum_move (t := t) (fun u => weight (s'.loc u)) (fun u => weight (s.loc u))
      fun u hu => congrArg weight (hne u hu)
    simp only [hself] at hsum
    have := h.count
    omega
  · by_cases hut : u = t
    · rw [hut, hself, hx] at hr
      obtain ⟨rfl, rfl⟩ := Prod.mk.inj (Option.some.inj hr)
      exact hP'd
    · rw [hne u hut] at hr
      obtain rfl := hrest u d' r hut hr
      exact hP'o.trans (h.doing u _ _ hr)
  · rcases End.eq_or d d' with rfl | rfl
    · exact absurd (by rw [hself, hx]) (hd' t p)
    · rw [hP'o]
      refine h.done _ fun u r hr => ?_
      by_cases hut : u = t
      · rw [hut, ht] at hr
        cases hr
      · exact hd' u r ((congrArg (rest L) (hne u hut)).trans hr)
  · by_cases hut : u = t
    · rw [hut, hself, hx] at hr
      obtain ⟨rfl, rfl⟩ := Prod.mk.inj (Option.some.inj hr)
      rw [hut, Function.update_self, hlink]
      exact hnear (hut ▸ hu)
    · rw [hne u hut] at hr
      obtain rfl := hrest u d' r hut hr
      obtain ⟨a, b, hn, hat⟩ := h.near u _ r (hstay u hut hu) hr
      rw [hg u hut, hlink]
      exact ⟨a, b, hn, hfar u r a b hut hu hr hat⟩
  · rw [hlink]
    by_cases hut : u = t
    · exact hhead (hut ▸ hu)
    · exact h.head u d' r (hstay u hut hu) (hne u hut ▸ hr)
  · rw [hlink]
    by_cases hut : u = t
    · rw [hut, hself, Function.update_self]
      exact hl
    · rw [hne u hut, hg u hut]
      exact h.loc u
  · rw [hout]
    by_cases hut : u = t
    · rw [hut, Function.update_self] at he
      exact ⟨(hy e he).1, h.listed e (hy e he).2⟩
    · rw [hg u hut] at he
      exact ⟨hhand u e hut he, (h.hand u e he).2⟩
  · by_cases hut : u = t <;> by_cases hvt : v = t
    · rw [hut, hvt]
    · rw [hut, Function.update_self] at hu
      rw [hg v hvt] at hv
      exact absurd (hy e hu).2 (h.hand v e hv).1
    · rw [hvt, Function.update_self] at hv
      rw [hg u hut] at hu
      exact absurd (hy e hv).2 (h.hand u e hu).1
    · rw [hg u hut] at hu
      rw [hg v hvt] at hv
      exact h.handOne u v e hu hv
  · rw [hout]
    exact (hq' e he).elim (h.listed e) fun hm => (h.hand t e hm).2
  · have hsum := sum_move (t := t) (fun u => taken L (s'.loc u) (Function.update g t y u))
      (fun u => taken L (s.loc u) (g u)) fun u hu => by rw [hne u hu, hg u hu]
    simp only [hself, Function.update_self, taken_none ht, taken_some hx, add_zero] at hsum
    have hb := h.balance
    rw [hsum, hpopped]
    refine add_right_cancel (b := (s.pushed : Multiset (Ptr E))) ?_
    calc _ = (s.popped : Multiset (Ptr E)) + ∑ u, taken L (s.loc u) (g u) +
          ((y.toList.map Ptr.el : Multiset (Ptr E)) + (q'.map Ptr.el : List _) + s.pushed) := by ac_rfl
      _ = (s.popped : Multiset (Ptr E)) + ∑ u, taken L (s.loc u) (g u) +
          (((q.map Ptr.el : List _) : Multiset (Ptr E)) + s'.pushed) := by rw [hbal]
      _ = _ := by rw [← hb]; ac_rfl

omit [DecidableEq τ] in
/-- What the memory will be when the other end is done. -/
theorem InvOf.other_done (h : InvOf L s q g P) (hidle : ∀ u p, rest L (s.loc u) ≠ some (d, p)) :
    IsDeque ((P d.other).run s.link).2 q := by
  obtain ⟨e, he⟩ := h.done d hidle
  have hd := h.deque d.other
  rwa [settle, End.other_other, he] at hd

omit [DecidableEq τ] in
/-- **A second thread at the links**: it finds its end as it will be when the other is done. -/
theorem InvOf.meet {c e : E} (h : InvOf L s q g P) (ht : s.readers t = true)
    (hfree : ∀ u p, rest L (s.loc u) ≠ some (d, p)) (hne : q ≠ [])
    (hn : Near p ((P d.other).run s.link).2 d c e)
    (hsep : ∀ u r a b, rest L (s.loc u) = some (d.other, r) → At (g u) (view d.other q) a b →
      c ≠ a ∧ c ≠ b ∧ e ≠ a) :
    Near p s.link d c e ∧ (p.run s.link).1 = (p.run ((P d.other).run s.link).2).1 ∧
      Prog.Apart p (P d.other) s.link ∧ ∀ m, s.link (.chain, m) ≠ .chain := by
  by_cases hother : ∃ u r, rest L (s.loc u) = some (d.other, r)
  · obtain ⟨u, r, hr⟩ := hother
    have hu := h.reader ht (rest_inside hr)
    obtain ⟨a, b, hnr, hat⟩ := h.near u _ r hu hr
    obtain ⟨hca, hcb, hea⟩ := hsep u r a b hr hat
    rw [h.doing u _ r hr] at hn ⊢
    obtain ⟨hn', hres⟩ := hn.frame (h := s.link) fun f hf => (Prog.run_off fun w hw he =>
      zone_disjoint hf (he ▸ hnr.cells _ (Prog.stores_cells r _ w hw)) hca hcb hea).symm
    exact ⟨hn', hres, hn'.apart hnr hca hcb hea, h.head u _ r hu hr⟩
  · obtain ⟨x, hx⟩ := h.done d.other fun u r hr => hother ⟨u, r, hr⟩
    have hd := h.other_done hfree
    rw [hx] at hn hd ⊢
    exact ⟨hn, rfl, Prog.apart_ret, head_ne hd hne⟩

/-- The two other conditions on the list, from the counter. -/
theorem InvOf.room (h : InvOf L s q g P) {o : Op E} (hl : s.loc t = .sub o)
    (hc : 1 ≤ s.counter - o.take) : 1 + o.take ≤ q.length ∧
      ∀ u d r, rest L (s.loc u) = some (d, r) → 2 + o.take ≤ q.length := by
  have hw : weight (s.loc t) = 0 := by rw [hl]; rfl
  constructor
  · have := h.count_self t
    omega
  · intro u d r hr
    have hut : u ≠ t := by
      rintro rfl
      rw [hl] at hr
      cases hr
    have h₁ := h.count_le hut
    have h₂ := weight_rest hr
    omega

/-- **The read lock is kept**, to pop. -/
theorem InvOf.pop_rd (h : InvOf L s q g P) (hl : s.loc t = .sub (.pop d))
    (hc : 1 ≤ s.counter - 2) (hfree : ∀ u, inside (s.loc u) ≠ some d) :
    ∃ q' g' P', InvOf L ({ s with counter := s.counter - 2 }.goto t (.test .rd d)) q' g' P' := by
  have ht : s.readers t = true := by rw [h.readers, hl]; rfl
  have hw := h.alone t ht
  have hrest : ∀ u p, rest L (s.loc u) ≠ some (d, p) := fun u p hr => hfree u (rest_inside hr)
  obtain ⟨hlen, hlen'⟩ := h.room hl hc
  obtain ⟨c, e, r, hv⟩ : ∃ c e r, view d q = c :: e :: r := by
    have hlv : 3 ≤ (view d q).length := by
      rw [view_length]
      exact Int.ofNat_le.mp hlen
    match hq : view d q with
    | c :: e :: r => exact ⟨c, e, r, rfl⟩
    | [] | [_] => simp [hq] at hlv
  have hring := isDeque_view (d := d).mp (h.other_done hrest)
  rw [hv] at hring
  have hqv : q = view d (c :: e :: r) := by rw [← hv, view_view]
  have hlq : q.length = r.length + 2 := by rw [← view_length (d := d), hv]; rfl
  have hnd : (c :: e :: r).Nodup := hring.nodup
  have hfar : ∀ u r' a b, rest L (s.loc u) = some (d.other, r') → At (g u) (view d.other q) a b →
      (c ≠ a ∧ c ≠ b ∧ e ≠ a) ∧ At (g u) (e :: r).reverse a b := by
    intro u r' a b hr hat
    rw [view_other, hv] at hat
    have h4 : (2 : ℤ) + 2 ≤ q.length := hlen' u _ r' hr
    refine hat.far_pop (by omega) hnd fun ha => ?_
    have hm := (h.hand u a ha).1
    rwa [hqv, mem_view] at hm
  obtain ⟨hn, hres, hap, hhead⟩ := h.meet ht hrest (by rw [hqv]; cases d <;> simp [view])
    (deqPop_near hring) fun u r' a b hr hat => (hfar u r' a b hr hat).1
  obtain ⟨hrun, hring'⟩ := deqPop_run (L := L) hring
  refine ⟨view d (e :: r), Function.update g t (some c), Function.update P d (deq L (.pop d)),
    h.commit rfl rfl rfl rfl (by rw [hl]; rfl) rfl (fun u _ => hfree u) ?_
      (h.writer.stay rfl (by rw [hl]; rfl)) h.alone (fun _ _ hu => hu) ?_ hap ?_
      (fun _ => ⟨c, e, hn, .inl ⟨r, view_view, rfl⟩⟩) (fun u r' a b _ _ hr hat => ?_)
      (fun _ => hhead) ?_ (fun a ha => .inl ?_) (fun a ha => ?_) ?_⟩
  · exact forall_update (P := fun u y => s.readers u = shared y) rfl ht fun u _ => h.readers u
  · rw [hl, view_length, hlq]
    simp only [weight, St.goto, List.length_cons]
    push_cast
    omega
  · exact isDeque_view.mpr (by rw [view_view]; exact hring')
  · rw [view_other, view_view]
    exact (hfar u r' a b hr hat).2
  · exact hres.trans hrun
  · rw [hqv, mem_view]
    rw [mem_view] at ha
    exact List.mem_cons_of_mem _ ha
  · obtain rfl := Option.some.inj ha
    rw [hqv, mem_view, mem_view]
    exact ⟨(List.nodup_cons.mp hnd).1, List.mem_cons_self⟩
  · rw [hqv, view_els, view_els]
    rfl

/-- **The read lock is kept**, to push. -/
theorem InvOf.push_rd {c : E} (h : InvOf L s q g P) (hl : s.loc t = .sub (.push d c))
    (hc : 1 ≤ s.counter - 1) (hfree : ∀ u, inside (s.loc u) ≠ some d) :
    ∃ q' g' P',
      InvOf L ({ s with counter := s.counter - 1 }.enter L t .rd (.push d c)) q' g' P' := by
  have ht : s.readers t = true := by rw [h.readers, hl]; rfl
  have hrest : ∀ u p, rest L (s.loc u) ≠ some (d, p) := fun u p hr => hfree u (rest_inside hr)
  have hgt : g t = some c := by
    have hlt := h.loc t
    rwa [hl] at hlt
  have hcq : c ∉ q := (h.hand t c hgt).1
  obtain ⟨hlen, hlen'⟩ := h.room hl hc
  obtain ⟨e, r, hv⟩ : ∃ e r, view d q = e :: r := by
    have hlv : 2 ≤ (view d q).length := by
      rw [view_length]
      exact Int.ofNat_le.mp hlen
    match hq : view d q with
    | e :: r => exact ⟨e, r, rfl⟩
    | [] => simp [hq] at hlv
  have hring := isDeque_view (d := d).mp (h.other_done hrest)
  rw [hv] at hring
  have hqv : q = view d (e :: r) := by rw [← hv, view_view]
  have hlq : q.length = r.length + 1 := by rw [← view_length (d := d), hv]; rfl
  have hcv : c ∉ e :: r := by rwa [hqv, mem_view] at hcq
  have hfar : ∀ u r' a b, u ≠ t → rest L (s.loc u) = some (d.other, r') →
      At (g u) (view d.other q) a b → (c ≠ a ∧ c ≠ b ∧ e ≠ a) ∧ At (g u) (c :: e :: r).reverse a b := by
    intro u r' a b hut hr hat
    rw [view_other, hv] at hat
    have h3 : (2 : ℤ) + 1 ≤ q.length := hlen' u _ r' hr
    refine hat.far_push (by omega) hring.nodup hcv fun ha => ⟨?_, ?_⟩
    · have hm := (h.hand u a ha).1
      rwa [hqv, mem_view] at hm
    · rintro rfl
      exact hut (h.handOne u t c ha hgt)
  have hut : ∀ u r', rest L (s.loc u) = some (d.other, r') → u ≠ t := by
    rintro u r' hr rfl
    rw [hl] at hr
    cases hr
  obtain ⟨hn, hres, hap, hhead⟩ := h.meet ht hrest (by rw [hqv]; cases d <;> simp [view])
    (deqPush_near hring) fun u r' a b hr hat => (hfar u r' a b (hut u r' hr) hr hat).1
  obtain ⟨hrun, hring'⟩ := deqPush_run (L := L) hring hcv
  refine ⟨view d (c :: e :: r), Function.update g t none, Function.update P d (deq L (.push d c)),
    h.commit rfl rfl rfl rfl (by rw [hl]; rfl) rfl (fun u _ => hfree u) ?_
      (h.writer.stay rfl (by rw [hl]; rfl)) h.alone (fun _ _ hu => hu) ?_ hap ?_
      (fun _ => ⟨c, e, hn, .inr ⟨r, view_view⟩⟩) (fun u r' a b hu _ hr hat => ?_)
      (fun _ => hhead) ?_ (fun a ha => ?_) (fun a ha => nomatch ha) ?_⟩
  · exact forall_update (P := fun u y => s.readers u = shared y) rfl ht fun u _ => h.readers u
  · rw [hl, view_length, hlq]
    simp only [weight, St.enter, St.goto, List.length_cons, Op.give]
    push_cast
    omega
  · exact isDeque_view.mpr (by rw [view_view]; exact hring')
  · rw [view_other, view_view]
    exact (hfar u r' a b hu hr hat).2
  · exact hres.trans hrun
  · rw [mem_view] at ha
    rw [hqv, mem_view]
    rcases List.mem_cons.mp ha with rfl | ha
    · exact .inr hgt
    · exact .inl ha
  · rw [hqv, view_els, view_els]
    exact push_els _ _

omit [DecidableEq τ] in
/-- Nobody else is at the links when the lock is held for writing. -/
theorem InvOf.only (h : InvOf L s q g P) (hw : s.writer = some t) (hu : u ≠ t) :
    inside (s.loc u) = none := by
  by_contra hne
  obtain ⟨d, hd⟩ := Option.ne_none_iff_exists'.mp hne
  rcases inside_locked hd with hs | he
  · have := h.alone u ((h.readers u).trans hs)
    rw [hw] at this
    cases this
  · have := (h.writer u).mpr he
    rw [hw] at this
    exact hu (Option.some.inj this).symm

/-- `deq_pop` with the lock held for writing, when the list is not empty. -/
theorem InvOf.pop_wr (h : InvOf L s q g P) (hl : s.loc t = .test .wr d)
    (hne : s.link (.chain, L.empty) ≠ .chain) :
    ∃ q' g' P', InvOf L (s.goto t (.work .wr (.pop d) (deq L (.pop d)))) q' g' P' := by
  have hw : s.writer = some t := (h.writer t).mpr (by rw [hl]; rfl)
  have hrest : ∀ d u p, rest L (s.loc u) ≠ some (d, p) := by
    intro d u p hr
    by_cases hu : u = t
    · rw [hu, hl] at hr
      cases hr
    · have := rest_inside hr
      rw [h.only hw hu] at this
      cases this
  have hnr : ∀ u, s.readers u ≠ true := fun u hu => by
    have := h.alone u hu
    rw [hw] at this
    cases this
  have hd := h.other_done (hrest d)
  obtain ⟨z, hz⟩ := h.done d.other (hrest d.other)
  rw [hz] at hd
  have hd' : IsDeque s.link q := hd
  obtain ⟨c, r, hv⟩ : ∃ c r, view d q = c :: r := by
    cases hq : view d q with
    | cons c r => exact ⟨c, r, rfl⟩
    | nil =>
      have hn : q = [] := by
        rw [← view_view (d := d) (q := q), hq]
        cases d <;> rfl
      rw [hn] at hd'
      refine absurd ?_ hne
      cases hL : L.empty
      · exact (isDeque_view (d := .right).mp hd').next_head
      · exact (isDeque_view (d := .left).mp hd').next_head
  have hring := isDeque_view (d := d).mp hd'
  rw [hv] at hring
  have hqv : q = view d (c :: r) := by rw [← hv, view_view]
  have hlq : q.length = r.length + 1 := by rw [← view_length (d := d), hv]; rfl
  obtain ⟨hrun, hring'⟩ := deqPop_run (L := L) hring
  refine ⟨view d r, Function.update g t (some c), Function.update P d (deq L (.pop d)),
    h.commit rfl rfl rfl rfl (by rw [hl]; rfl) rfl
      (fun u hu he => by rw [h.only hw hu] at he; cases he) ?_
      (h.writer.stay rfl (by rw [hl]; rfl)) h.alone (fun _ _ hu => hu) ?_
      (by rw [hz]; exact Prog.apart_ret) ?_ (fun hu => absurd hu (hnr t))
      (fun u r' a b _ hu _ _ => absurd hu (hnr u)) (fun hu => absurd hu (hnr t)) hrun
      (fun a ha => .inl ?_) (fun a ha => ?_) ?_⟩
  · exact forall_update (P := fun u y => s.readers u = shared y) rfl
      ((h.readers t).trans (by rw [hl]; rfl)) fun u _ => h.readers u
  · rw [hl, view_length, hlq]
    simp only [weight, St.goto, Op.give]
    push_cast
    omega
  · rw [hz]
    exact isDeque_view.mpr (by rw [view_view]; exact hring')
  · rw [hqv, mem_view]
    rw [mem_view] at ha
    exact List.mem_cons_of_mem _ ha
  · obtain rfl := Option.some.inj ha
    rw [hqv, mem_view, mem_view]
    exact ⟨(List.nodup_cons.mp hring.nodup).1, List.mem_cons_self⟩
  · rw [hqv, view_els, view_els]
    rfl

/-- `deq_push` with the lock held for writing. -/
theorem InvOf.push_wr {c : E} (h : InvOf L s q g P) (hl : s.loc t = .wrlock (.push d c))
    (hw : s.writer = none) (hnr : ∀ u, s.readers u = false) :
    ∃ q' g' P', InvOf L ({ s with writer := some t }.enter L t .wr (.push d c)) q' g' P' := by
  have hout : ∀ u, inside (s.loc u) = none := by
    intro u
    by_contra hne
    obtain ⟨d, hd⟩ := Option.ne_none_iff_exists'.mp hne
    rcases inside_locked hd with hs | he
    · have := (h.readers u).trans hs
      rw [hnr u] at this
      cases this
    · have := (h.writer u).mpr he
      rw [hw] at this
      cases this
  have hrest : ∀ d u p, rest L (s.loc u) ≠ some (d, p) := fun d u p hr => by
    have := rest_inside hr
    rw [hout u] at this
    cases this
  have hgt : g t = some c := by
    have hlt := h.loc t
    rwa [hl] at hlt
  have hcq : c ∉ q := (h.hand t c hgt).1
  have hd := h.other_done (hrest d)
  obtain ⟨z, hz⟩ := h.done d.other (hrest d.other)
  rw [hz] at hd
  have hring := isDeque_view (d := d).mp (show IsDeque s.link q from hd)
  obtain ⟨hrun, hring'⟩ := deqPush_run (L := L) hring (mem_view.not.mpr hcq)
  have hfalse : ∀ u, s.readers u ≠ true := fun u hu => by
    rw [hnr u] at hu
    cases hu
  refine ⟨view d (c :: view d q), Function.update g t none, Function.update P d (deq L (.push d c)),
    h.commit rfl rfl rfl rfl (by rw [hl]; rfl) rfl
      (fun u _ he => by rw [hout u] at he; cases he) ?_ (LockedBy.take (hw ▸ h.writer) rfl rfl)
      (fun u hu => absurd hu (hfalse u)) (fun _ _ hu => hu) ?_ (by rw [hz]; exact Prog.apart_ret) ?_
      (fun hu => absurd hu (hfalse t)) (fun u r' a b _ hu _ _ => absurd hu (hfalse u))
      (fun hu => absurd hu (hfalse t)) hrun (fun a ha => ?_) (fun a ha => nomatch ha) ?_⟩
  · exact forall_update (P := fun u y => s.readers u = shared y) rfl (hnr t) fun u _ => h.readers u
  · rw [hl, view_length, List.length_cons, view_length]
    simp only [weight, St.enter, St.goto, Op.give, Op.take]
    push_cast
    omega
  · rw [hz]
    exact isDeque_view.mpr (by rw [view_view]; exact hring')
  · rw [mem_view, List.mem_cons, mem_view] at ha
    rcases ha with rfl | ha
    · exact .inr hgt
    · exact .inl ha
  · rw [view_els, ← view_els (d := d) q]
    exact push_els _ _

/-- A thread goes on, with what it has and with the lock as it is. -/
theorem InvOf.walk {k : ℤ} (h : InvOf L s q g P) (ht : rest L (s.loc t) = none) (hx : rest L x = none)
    (hin : inside x = none) (hsh : shared x = shared (s.loc t)) (hex : excl x = excl (s.loc t))
    (hcount : k = s.counter + weight x - weight (s.loc t)) (hl : LocInv L s.link (g t) x) :
    ∃ g', InvOf L ({ s with counter := k }.goto t x) q g' P := by
  refine ⟨_, h.move (y := g t) rfl rfl rfl rfl ht hx (fun d hd => ?_) ?_ (h.writer.stay rfl hex)
    h.alone (fun _ _ hu => hu) hcount hl (fun e he => ⟨(h.hand t e he).2, .inl he⟩) fun e he _ => he⟩
  · rw [hin] at hd
    cases hd
  · exact forall_update (P := fun u y => s.readers u = shared y) rfl ((h.readers t).trans hsh.symm)
      fun u _ => h.readers u

/-- A thread gives the lock back, and its caller has the element. -/
theorem InvOf.leave {m : Mode} {o : Op E} {e : Option (Ptr E)} (h : InvOf L s q g P)
    (hl : s.loc t = .leave m o e) :
    InvOf L (((s.release t m).handOut e).goto t .idle) q (Function.update g t none) P := by
  have he : e = (g t).map Ptr.el := by
    have hlt := h.loc t
    rwa [hl] at hlt
  have hrd : ((s.release t m).handOut e).readers = (s.release t m).readers := by
    rcases e with _ | _ | c <;> rfl
  have hwr : ((s.release t m).handOut e).writer = (s.release t m).writer := by
    rcases e with _ | _ | c <;> rfl
  have hloc : ((s.release t m).handOut e).loc = s.loc := by
    rcases e with _ | _ | c <;> cases m <;> rfl
  have hsame : (((s.release t m).handOut e).goto t .idle).loc = Function.update s.loc t .idle := by
    show Function.update _ t _ = _
    rw [hloc]
  have hro : ∀ u, u ≠ t → (s.release t m).readers u = s.readers u := by
    intro u hu
    cases m
    · exact Function.update_of_ne hu _ _
    · rfl
  have hrt : (s.release t m).readers t = false := by
    cases m
    · exact Function.update_self ..
    · exact (h.readers t).trans (by rw [hl]; rfl)
  refine h.move hsame (by rcases e with _ | _ | c <;> cases m <;> rfl)
    (by rcases e with _ | _ | c <;> cases m <;> rfl) (by rcases e with _ | _ | c <;> cases m <;> rfl)
    (by rw [hl]; rfl) rfl (fun d hd => nomatch hd) ?_ ?_ (fun u hu => ?_) (fun u hut hu => ?_)
    ?_ rfl (fun c hc => nomatch hc) fun c hc hne => ?_
  · intro u
    show ((s.release t m).handOut e).readers u = _
    rw [hrd, hsame]
    refine forall_update (P := fun u y => (s.release t m).readers u = shared y) rfl hrt
      (fun u hu => ?_) u
    exact (hro u hu).trans (h.readers u)
  · show LockedBy excl ((s.release t m).handOut e).writer _
    rw [hwr]
    cases m
    · exact h.writer.stay hsame (by rw [hl]; rfl)
    · exact h.writer.drop hsame (by rw [hl]; rfl) rfl
  · show ((s.release t m).handOut e).writer = none
    have hu' : (s.release t m).readers u = true := hrd ▸ hu
    rw [hwr]
    cases m
    · refine h.alone u (hro u ?_ ▸ hu')
      rintro rfl
      rw [hrt] at hu'
      cases hu'
    · rfl
  · have hu' : (s.release t m).readers u = true := hrd ▸ hu
    exact hro u hut ▸ hu'
  · have hc : (((s.release t m).handOut e).goto t .idle).counter = s.counter := by
      rcases e with _ | _ | c <;> cases m <;> rfl
    rw [hc, hl]
    simp [weight]
  · cases hg : g t with
    | none =>
      rw [he, hg]
      cases m <;> exact hc
    | some c' =>
      have hcc : c ≠ c' := by
        rintro rfl
        exact nomatch hne hg
      rw [he, hg]
      cases m <;> exact (Function.update_of_ne hcc _ _).trans hc

/-- A step at the links. -/
theorem inv_work {m : Mode} {o : Op E} (h : InvOf L s q g P) (hl : s.loc t = .work m o p)
    (hn : stepThread L t s = some s') : ∃ q' g' P', InvOf L s' q' g' P' := by
  unfold stepThread at hn
  rw [hl] at hn
  cases p with
  | ret e =>
    obtain rfl := Option.some.inj hn
    exact ⟨q, g, P, h.finish hl⟩
  | read f k =>
    obtain rfl := Option.some.inj hn
    exact ⟨q, g, _, h.access hl rfl⟩
  | write f x p =>
    obtain rfl := Option.some.inj hn
    exact ⟨q, g, _, h.access hl rfl⟩

/-- A step to the links. -/
theorem inv_enter {o : Op E} (h : InvOf L s q g P) (hl : s.loc t = .sub o)
    (hok : EndFreeAt s (s.loc t)) (hn : stepThread L t s = some s') :
    ∃ q' g' P', InvOf L s' q' g' P' := by
  unfold stepThread at hn
  rw [hl] at hn hok
  dsimp only at hn
  split at hn <;> obtain rfl := Option.some.inj hn
  · have hlt := h.loc t
    rw [hl] at hlt
    obtain ⟨g', hi⟩ := h.walk (k := s.counter - o.take) (x := .unlock o) (by rw [hl]; rfl) rfl rfl
      (by rw [hl]; rfl) (by rw [hl]; rfl) (by rw [hl]; simp [weight]; omega) hlt
    exact ⟨q, g', P, hi⟩
  · rename_i hc
    have hc' : 1 ≤ s.counter - o.take := by omega
    cases o with
    | pop d => exact h.pop_rd hl hc' (hok hc')
    | push d c => exact h.push_rd hl hc' (hok hc')

/-- **The step lemma.** -/
theorem inv_next {a : Act τ E} (h : InvOf L s q g P) (hok : EndFree a s)
    (hn : next L a s = some s') : ∃ q' g' P', InvOf L s' q' g' P' := by
  cases a with
  | pop t d =>
    simp only [next] at hn
    split at hn
    · rename_i hl
      obtain rfl := Option.some.inj hn
      have hlt := h.loc t
      rw [hl] at hlt
      obtain ⟨g', hi⟩ := h.walk (k := s.counter) (x := .rdlock (.pop d)) (by rw [hl]; rfl) rfl rfl
        (by rw [hl]; rfl) (by rw [hl]; rfl) (by rw [hl]; simp [weight]) hlt
      exact ⟨q, g', P, hi⟩
    · cases hn
  | push t d c =>
    simp only [next] at hn
    split at hn
    · rename_i hl
      split at hn
      · rename_i hc
        obtain rfl := Option.some.inj hn
        have hcq : c ∉ q := fun hm => by
          rw [h.listed c hm] at hc
          cases hc
        have hcg : ∀ u, g u ≠ some c := fun u hu => by
          rw [(h.hand u c hu).2] at hc
          cases hc
        refine ⟨q, _, P, h.move (x := .rdlock (.push d c)) (y := some c) rfl rfl rfl rfl
          (by rw [hl]; rfl) rfl (fun d hd => nomatch hd) ?_ (h.writer.stay rfl (by rw [hl]; rfl))
          h.alone (fun _ _ hu => hu) (by rw [hl]; simp [weight, St.goto]) rfl (fun e he => ?_)
          fun e he _ => ?_⟩
        · exact forall_update (P := fun u y => s.readers u = shared y) rfl
            ((h.readers t).trans (by rw [hl]; rfl)) fun u _ => h.readers u
        · obtain rfl := Option.some.inj he
          exact ⟨Function.update_self .., .inr ⟨hcq, hcg⟩⟩
        · by_cases hec : e = c
          · rw [hec]
            exact Function.update_self ..
          · exact (Function.update_of_ne hec _ _).trans he
      · cases hn
    · cases hn
  | step t =>
    have hn' : stepThread L t s = some s' := hn
    have hlt := h.loc t
    cases hl : s.loc t with
    | work m o p => exact inv_work h hl hn'
    | sub o => exact inv_enter h hl hok hn'
    | idle =>
      unfold stepThread at hn'
      rw [hl] at hn'
      cases hn'
    | rdlock o =>
      unfold stepThread at hn'
      rw [hl] at hn' hlt
      dsimp only at hn'
      split at hn'
      · rename_i hw
        obtain rfl := Option.some.inj hn'
        refine ⟨q, _, P, h.move (x := .sub o) (y := g t) rfl rfl rfl rfl (by rw [hl]; rfl) rfl
          (fun d hd => nomatch hd) (fun u => ?_) (h.writer.stay rfl (by rw [hl]; rfl))
          (fun _ _ => hw) (fun u hu hr => ?_) (by rw [hl]; simp [weight, St.goto]) hlt
          (fun e he => ⟨(h.hand t e he).2, .inl he⟩) fun e he _ => he⟩
        · by_cases hu : u = t
          · rw [hu]
            simp [St.goto, shared]
          · simpa [St.goto, hu] using h.readers u
        · simpa [St.goto, hu] using hr
      · cases hn'
    | unlock o =>
      unfold stepThread at hn'
      rw [hl] at hn' hlt
      obtain rfl := Option.some.inj hn'
      refine ⟨q, _, P, h.move (x := .wrlock o) (y := g t) rfl rfl rfl rfl (by rw [hl]; rfl) rfl
        (fun d hd => nomatch hd) (fun u => ?_) (h.writer.stay rfl (by rw [hl]; rfl))
        (fun u hr => ?_) (fun u hu hr => ?_) (by rw [hl]; simp [weight, St.goto, St.release]) hlt
        (fun e he => ⟨(h.hand t e he).2, .inl he⟩) fun e he _ => he⟩
      · by_cases hu : u = t
        · rw [hu]
          simp [St.goto, St.release, shared]
        · simpa [St.goto, St.release, hu] using h.readers u
      · by_cases hu : u = t
        · rw [hu] at hr
          simp [St.goto, St.release] at hr
        · exact h.alone u (by simpa [St.goto, St.release, hu] using hr)
      · simpa [St.goto, St.release, hu] using hr
    | wrlock o =>
      unfold stepThread at hn'
      rw [hl] at hn' hlt
      dsimp only at hn'
      split at hn'
      · rename_i hfree
        obtain rfl := Option.some.inj hn'
        cases o with
        | push d c => exact h.push_wr hl hfree.1 hfree.2
        | pop d =>
          have hr : ∀ u, s.readers u ≠ true := fun u hu => by
            rw [hfree.2 u] at hu
            cases hu
          refine ⟨q, _, P, h.move (x := .test .wr d) (y := g t) rfl rfl rfl rfl (by rw [hl]; rfl) rfl
            (fun d _ u _ hu => ?_) ?_ (LockedBy.take (hfree.1 ▸ h.writer) rfl rfl)
            (fun u hu => absurd hu (hr u)) (fun _ _ hu => hu)
            (by rw [hl]; simp [weight, St.goto, St.enter, Op.take]) hlt
            (fun e he => ⟨(h.hand t e he).2, .inl he⟩) fun e he _ => he⟩
          · rcases inside_locked hu with hs | he
            · exact hr u ((h.readers u).trans hs)
            · have := (h.writer u).mpr he
              rw [hfree.1] at this
              cases this
          · exact forall_update (P := fun u y => s.readers u = shared y) rfl
              ((h.readers t).trans (by rw [hl]; rfl)) fun u _ => h.readers u
      · cases hn'
    | test m d =>
      unfold stepThread at hn'
      rw [hl] at hn' hlt
      dsimp only at hn'
      cases m with
      | rd =>
        have hr : s.readers t = true := (h.readers t).trans (by rw [hl]; rfl)
        rw [if_neg (h.head t d _ hr (by rw [hl]; rfl) L.empty)] at hn'
        obtain rfl := Option.some.inj hn'
        exact ⟨q, g, P, h.stay (by rw [hl]; rfl) (by rw [hl]; rfl) (by rw [hl]; rfl)
          (by rw [hl]; rfl) (by rw [hl]; rfl) hlt⟩
      | wr =>
        split at hn' <;> obtain rfl := Option.some.inj hn'
        · obtain ⟨g', hi⟩ := h.walk (k := s.counter) (x := .incNull .wr d) (by rw [hl]; rfl) rfl rfl
            (by rw [hl]; rfl) (by rw [hl]; rfl) (by rw [hl]; simp [weight]) hlt
          exact ⟨q, g', P, hi⟩
        · rename_i hne
          exact h.pop_wr hl hne
    | incNull m d =>
      unfold stepThread at hn'
      rw [hl] at hn' hlt
      obtain rfl := Option.some.inj hn'
      obtain ⟨g', hi⟩ := h.walk (k := s.counter + 1) (x := .inc m (.pop d) none) (by rw [hl]; rfl) rfl
        rfl (by rw [hl]; cases m <;> rfl) (by rw [hl]; cases m <;> rfl)
        (by rw [hl]; simp [weight, Op.give]; omega) (by rw [show g t = none from hlt]; rfl)
      exact ⟨q, g', P, hi⟩
    | inc m o e =>
      unfold stepThread at hn'
      rw [hl] at hn' hlt
      obtain rfl := Option.some.inj hn'
      obtain ⟨g', hi⟩ := h.walk (k := s.counter + o.give) (x := .leave m o e) (by rw [hl]; rfl) rfl
        rfl (by rw [hl]; cases m <;> rfl) (by rw [hl]; cases m <;> rfl)
        (by rw [hl]; simp [weight]) hlt
      exact ⟨q, g', P, hi⟩
    | leave m o e =>
      unfold stepThread at hn'
      rw [hl] at hn' hlt
      obtain rfl := Option.some.inj hn'
      exact ⟨q, _, P, h.leave hl⟩

omit [DecidableEq τ] in
theorem inv_init (h : Init s) : InvOf L s [] (fun _ => none) fun _ => .ret none where
  readers := fun t => by rw [h.readers, h.loc]; rfl
  writer := fun t => by rw [h.writer, h.loc]; simp [excl]
  alone := fun _ _ => h.writer
  oneEnd := fun t u d hu => by rw [h.loc] at hu; cases hu
  count := by simp [h.counter, h.loc, weight]
  doing := fun t d p hr => by rw [h.loc] at hr; cases hr
  done := fun d _ => ⟨none, rfl⟩
  apart := fun _ => Prog.apart_ret
  deque := fun d => Ring.nil (h.link _) (h.link _)
  near := fun t d p _ hr => by rw [h.loc] at hr; cases hr
  head := fun t d p _ hr => by rw [h.loc] at hr; cases hr
  loc := fun t => by rw [h.loc]; rfl
  hand := fun _ _ he => nomatch he
  handOne := fun _ _ _ he => nomatch he
  listed := fun _ he => nomatch he
  balance := by simp [h.popped, h.pushed, h.loc, taken, rest]

theorem inv_reach (h : (sys τ L).Reach EndFree s) : ∃ q g P, InvOf L s q g P :=
  h.inv (I := fun s => ∃ q g P, InvOf L s q g P) (fun _ hi => ⟨_, _, _, inv_init hi⟩)
    fun _ _ _ ⟨_, _, _, hi⟩ hok hn => inv_next hi hok hn

end Steps

end Rw
end Deque
end Perfbook
