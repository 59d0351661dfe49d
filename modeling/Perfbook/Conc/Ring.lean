/-
# Lists that are read while they change

A circular doubly linked list with a head `h`: `next` and `prev` lead through
the cells of its elements and back to `h` (`Ring`). `add` links a cell behind
the head, `del` unlinks one. Readers may stand on a cell that has been
unlinked, whose `next` is as it was. So that they find their way, a list is
seen as the history of all elements ever added, newest first: `next` of any
cell of the history leads to a later one, or back to the head, past unlinked
elements only (`Trail`).

`f` gives the cell of an element, one cell for each, and none is the head.

A reader comes past elements that it may have seen only: those that were linked
when it started, or have been since (`View`).

Key definitions: `Links`, `first`, `last`, `Ring`, `Trail`, `View`.
Key theorems: `Ring.add`, `Ring.del`, `Trail.ahead`, `Trail.add`, `Trail.del`, `View.step`.
-/
import Mathlib.Data.List.Nodup
import Mathlib.Logic.Function.Basic

namespace Perfbook
namespace Conc

/-- The pointers of the cells. -/
structure Links (A : Type*) where
  next : A → A
  prev : A → A

namespace Links

variable {A : Type*} [DecidableEq A]

/-- Link the cell `c` behind the head `h`. -/
def add (m : Links A) (c h : A) : Links A where
  next := Function.update (Function.update m.next c (m.next h)) h c
  prev := Function.update (Function.update m.prev c h) (m.next h) c

/-- Unlink the cell `c`. -/
def del (m : Links A) (c : A) : Links A where
  next := Function.update m.next (m.prev c) (m.next c)
  prev := Function.update m.prev (m.next c) (m.prev c)

end Links

variable {A E : Type*} (f : E → A) (h : A)

/-- The cell of the first element, or the head. -/
def first : List E → A
  | [] => h
  | e :: _ => f e

/-- The cell of the last element, or the head. -/
def last (l : List E) : A := first f h l.reverse

variable {f h} {m m' : Links A} {l l₁ l₂ : List E} {e : E}

@[simp] theorem first_nil : first f h [] = h := rfl

@[simp] theorem first_cons : first f h (e :: l) = f e := rfl

@[simp] theorem first_append_cons : first f h (e :: l₁ ++ l₂) = f e := rfl

@[simp] theorem last_nil : last f h [] = h := rfl

@[simp] theorem last_append_cons : last f h (l₁ ++ e :: l₂) = last f (f e) l₂ := by
  rw [last, last, List.reverse_append, List.reverse_cons, List.append_assoc]
  cases l₂.reverse <;> rfl

@[simp] theorem last_cons : last f h (e :: l) = last f (f e) l := by
  rw [← List.nil_append (e :: l), last_append_cons]

theorem first_mem : first f h l = h ∨ ∃ e ∈ l, first f h l = f e := by
  cases l with
  | nil => exact .inl rfl
  | cons e l => exact .inr ⟨e, List.mem_cons_self, rfl⟩

theorem last_mem : last f h l = h ∨ ∃ e ∈ l, last f h l = f e := by
  rcases first_mem (f := f) (h := h) (l := l.reverse) with h' | ⟨e, he, h'⟩
  · exact .inl h'
  · exact .inr ⟨e, List.mem_reverse.mp he, h'⟩

theorem last_cons_mem : ∃ a ∈ e :: l, last f h (e :: l) = f a := by
  rw [last_cons]
  rcases last_mem (f := f) (h := f e) (l := l) with h' | ⟨a, ha, h'⟩
  · exact ⟨e, List.mem_cons_self, h'⟩
  · exact ⟨a, List.mem_cons_of_mem _ ha, h'⟩

section Distinct

variable (hf : Function.Injective f) (hh : ∀ e, f e ≠ h)

include hf hh

theorem first_ne (he : e ∉ l) : first f h l ≠ f e := by
  rcases first_mem (f := f) (h := h) (l := l) with h' | ⟨a, ha, h'⟩ <;> rw [h']
  · exact (hh e).symm
  · exact fun hx => he (hf hx ▸ ha)

theorem last_ne (he : e ∉ l) : last f h l ≠ f e := by
  rw [last]
  exact first_ne hf hh fun h' => he (List.mem_reverse.mp h')

end Distinct

variable (f h m l) in
/-- The cells of `l`, in order, are the list with head `h`. -/
structure Ring : Prop where
  nodup : l.Nodup
  link : ∀ l₁ l₂, l = l₁ ++ l₂ →
    m.next (last f h l₁) = first f h l₂ ∧ m.prev (first f h l₂) = last f h l₁

/-- A list depends on its own cells only. -/
theorem Ring.congr (hr : Ring f h m l) (hh : m'.next h = m.next h ∧ m'.prev h = m.prev h)
    (hl : ∀ e ∈ l, m'.next (f e) = m.next (f e) ∧ m'.prev (f e) = m.prev (f e)) :
    Ring f h m' l where
  nodup := hr.nodup
  link l₁ l₂ heq := by
    have hlast : m'.next (last f h l₁) = m.next (last f h l₁) := by
      rcases last_mem (f := f) (h := h) (l := l₁) with hx | ⟨e, he, hx⟩
      · exact (congrArg m'.next hx).trans (hh.1.trans (congrArg m.next hx).symm)
      · rw [hx, (hl e (heq ▸ List.mem_append_left _ he)).1]
    have hfirst : m'.prev (first f h l₂) = m.prev (first f h l₂) := by
      rcases first_mem (f := f) (h := h) (l := l₂) with hx | ⟨e, he, hx⟩
      · exact (congrArg m'.prev hx).trans (hh.2.trans (congrArg m.prev hx).symm)
      · rw [hx, (hl e (heq ▸ List.mem_append_right _ he)).2]
    rw [hlast, hfirst]
    exact hr.link l₁ l₂ heq

theorem Ring.nil (hn : m.next h = h) (hp : m.prev h = h) : Ring f h m [] where
  nodup := List.nodup_nil
  link l₁ l₂ heq := by
    obtain ⟨rfl, rfl⟩ := List.append_eq_nil_iff.mp heq.symm
    exact ⟨hn, hp⟩

/-- Read the other way round, the ring is that of the reversed list. -/
theorem Ring.flip (hr : Ring f h m l) : Ring f h ⟨m.prev, m.next⟩ l.reverse where
  nodup := List.nodup_reverse.mpr hr.nodup
  link l₁ l₂ heq := by
    have hl : l = l₂.reverse ++ l₁.reverse := by
      rw [← List.reverse_append, ← heq, List.reverse_reverse]
    obtain ⟨hn, hp⟩ := hr.link _ _ hl
    rw [last, List.reverse_reverse] at hn hp
    exact ⟨hp, hn⟩

theorem Ring.next_head (hr : Ring f h m l) : m.next h = first f h l := (hr.link [] l rfl).1

theorem Ring.next_mem (hr : Ring f h m (l₁ ++ e :: l₂)) : m.next (f e) = first f h l₂ := by
  have := (hr.link (l₁ ++ [e]) l₂ (by simp)).1
  rwa [last_append_cons, last_nil] at this

theorem Ring.prev_mem (hr : Ring f h m (l₁ ++ e :: l₂)) : m.prev (f e) = last f h l₁ :=
  (hr.link l₁ (e :: l₂) rfl).2

variable [DecidableEq A]

/-- Adding changes cells of the list only. -/
theorem Ring.add_frame (hr : Ring f h m l) {c : A} (hc : c ≠ h) (hce : c ≠ f e)
    (hl : ∀ a ∈ l, c ≠ f a) :
    (m.add (f e) h).next c = m.next c ∧ (m.add (f e) h).prev c = m.prev c := by
  have hn : c ≠ m.next h := by
    rw [hr.next_head]
    rcases first_mem (f := f) (h := h) (l := l) with hx | ⟨a, ha, hx⟩ <;> rw [hx]
    · exact hc
    · exact hl a ha
  constructor
  · exact (Function.update_of_ne hc _ _).trans (Function.update_of_ne hce _ _)
  · exact (Function.update_of_ne hn _ _).trans (Function.update_of_ne hce _ _)

/-- Deleting changes cells of the list only. -/
theorem Ring.del_frame (hr : Ring f h m l) (he : e ∈ l) {c : A} (hc : c ≠ h)
    (hl : ∀ a ∈ l, c ≠ f a) :
    (m.del (f e)).next c = m.next c ∧ (m.del (f e)).prev c = m.prev c := by
  obtain ⟨l₁, l₂, rfl⟩ := List.append_of_mem he
  constructor
  · refine Function.update_of_ne ?_ _ _
    rw [hr.prev_mem]
    rcases last_mem (f := f) (h := h) (l := l₁) with hx | ⟨a, ha, hx⟩ <;> rw [hx]
    · exact hc
    · exact hl a (by simp [ha])
  · refine Function.update_of_ne ?_ _ _
    rw [hr.next_mem]
    rcases first_mem (f := f) (h := h) (l := l₂) with hx | ⟨a, ha, hx⟩ <;> rw [hx]
    · exact hc
    · exact hl a (by simp [ha])

variable (hf : Function.Injective f) (hh : ∀ e, f e ≠ h)

include hf hh

/-- **Adding an element** puts it first. -/
theorem Ring.add (hr : Ring f h m l) (he : e ∉ l) : Ring f h (m.add (f e) h) (e :: l) where
  nodup := List.nodup_cons.mpr ⟨he, hr.nodup⟩
  link l₁ l₂ heq := by
    have hn := hr.next_head
    show Function.update (Function.update m.next (f e) (m.next h)) h (f e) _ = _ ∧
      Function.update (Function.update m.prev (f e) h) (m.next h) (f e) _ = _
    cases l₁ with
    | nil =>
      obtain rfl : l₂ = e :: l := heq.symm
      refine ⟨Function.update_self .., ?_⟩
      rw [first_cons, last_nil, hn, Function.update_of_ne (first_ne hf hh he).symm,
        Function.update_self]
    | cons e' l₁ =>
      obtain ⟨rfl, hl⟩ := List.cons.inj heq
      change l = l₁ ++ l₂ at hl
      cases l₁ with
      | nil =>
        obtain rfl : l = l₂ := hl
        rw [last_cons, last_nil, Function.update_of_ne (hh e), Function.update_self, hn]
        exact ⟨rfl, Function.update_self ..⟩
      | cons a l₁ =>
        obtain ⟨h1, h2⟩ := hr.link (a :: l₁) l₂ hl
        have hnd := hr.nodup
        rw [hl] at hnd he hn
        -- neither the last cell before the gap nor the first behind it has changed
        obtain ⟨b, hb, hlast⟩ := last_cons_mem (f := f) (h := h) (e := a) (l := l₁)
        have hbe : f b ≠ f e := fun hx => he (hf hx ▸ List.mem_append_left _ hb)
        have ha : a ∉ l₂ := fun h' => (List.nodup_cons.mp hnd).1 (List.mem_append_right _ h')
        have he' : e ∉ l₂ := fun h' => he (List.mem_append_right _ h')
        have hn' : m.next h = f a := hn
        have hl' : last f h (e :: a :: l₁) = last f h (a :: l₁) := by rw [last_cons, last_cons, last_cons]
        rw [hl', hlast, Function.update_of_ne (hh b), Function.update_of_ne hbe, hn',
          Function.update_of_ne (first_ne hf hh ha), Function.update_of_ne (first_ne hf hh he'),
          ← hlast]
        exact ⟨h1, h2⟩

/-- **Deleting an element** links its neighbours. -/
theorem Ring.del (hr : Ring f h m (l₁ ++ e :: l₂)) : Ring f h (m.del (f e)) (l₁ ++ l₂) where
  nodup := hr.nodup.sublist (List.Sublist.append_left (List.sublist_cons_self e l₂) l₁)
  link a b heq := by
    have hnd := hr.nodup
    show Function.update m.next (m.prev (f e)) (m.next (f e)) _ = _ ∧
      Function.update m.prev (m.next (f e)) (m.prev (f e)) _ = _
    rw [hr.next_mem, hr.prev_mem]
    rcases List.append_eq_append_iff.mp heq with ⟨c, rfl, rfl⟩ | ⟨c, rfl, rfl⟩
    · cases c with
      | nil =>
        rw [List.append_nil, List.nil_append, Function.update_self, Function.update_self]
        exact ⟨rfl, rfl⟩
      | cons y c =>
        obtain ⟨h1, h2⟩ := hr.link (l₁ ++ e :: y :: c) b (by simp)
        obtain ⟨z, hz, hlast⟩ := last_cons_mem (f := f) (h := f e) (e := y) (l := c)
        rw [last_append_cons] at h1 h2
        have hl' : last f h (l₁ ++ y :: c) = last f (f e) (y :: c) := by
          rw [last_append_cons, last_cons]
        have hz' : z ∉ l₁ := fun h' =>
          (List.nodup_append.mp hnd).2.2 z h' z
            (List.mem_cons_of_mem _ (List.mem_append_left _ hz)) rfl
        have hy : y ∉ b := fun h' => by
          have := (List.nodup_cons.mp (List.nodup_append.mp hnd).2.1).2
          exact (List.nodup_cons.mp this).1 (List.mem_append_right _ h')
        rw [hl', hlast, Function.update_of_ne (last_ne hf hh hz').symm, first_append_cons,
          Function.update_of_ne (first_ne hf hh hy), ← hlast]
        exact ⟨h1, h2⟩
    · cases c with
      | nil =>
        rw [List.append_nil, List.nil_append, Function.update_self, Function.update_self]
        exact ⟨rfl, rfl⟩
      | cons y c =>
        obtain ⟨h1, h2⟩ := hr.link a (y :: c ++ e :: l₂) (by simp)
        obtain ⟨z, hz, hlast⟩ := last_cons_mem (f := f) (h := h) (e := y) (l := c)
        have hl' : last f h (a ++ y :: c) = last f h (y :: c) := by
          rw [last_append_cons, last_cons]
        have hz' : z ∉ a := fun h' => by
          have := (List.nodup_append.mp (List.nodup_append.mp hnd).1).2.2
          exact this z h' z hz rfl
        have hy : y ∉ l₂ := fun h' =>
          (List.nodup_append.mp hnd).2.2 y (by simp) y (by simp [h']) rfl
        rw [hl', hlast, Function.update_of_ne (last_ne hf hh hz')]
        have hfy : f y ≠ first f h l₂ := (first_ne hf hh hy).symm
        refine ⟨h1, ?_⟩
        show Function.update m.prev (first f h l₂) (f z) (f y) = _
        rw [Function.update_of_ne hfy]
        exact h2

/-! ### The history of a list -/

omit [DecidableEq A] hf hh

variable {hist : List E} {live live' : E → Bool}

variable (f h m hist live) in
/-- `hist` are the elements ever added, newest first, and the live ones are
linked. Unlinked cells still lead on, past unlinked elements only. -/
structure Trail : Prop where
  ring : Ring f h m (hist.filter live)
  nodup : hist.Nodup
  skip : ∀ l₁ e l₂, hist = l₁ ++ e :: l₂ → live e = false →
    ∃ mid rest, l₂ = mid ++ rest ∧ (∀ a ∈ mid, live a = false) ∧ m.next (f e) = first f h rest

/-- The first live element of a list is found past elements that are not. -/
theorem exists_skip (live : E → Bool) (l : List E) : ∃ mid rest, l = mid ++ rest ∧
    (∀ a ∈ mid, live a = false) ∧ first f h (l.filter live) = first f h rest := by
  induction l with
  | nil => exact ⟨[], [], rfl, nofun, rfl⟩
  | cons a l ih =>
    cases ha : live a with
    | true => exact ⟨[], a :: l, rfl, nofun, by rw [List.filter_cons_of_pos ha]; rfl⟩
    | false =>
      obtain ⟨mid, rest, hl, hmid, hx⟩ := ih
      refine ⟨a :: mid, rest, by rw [hl]; rfl, fun b hb => ?_, ?_⟩
      · rcases List.mem_cons.mp hb with rfl | hb
        · exact ha
        · exact hmid b hb
      · rwa [List.filter_cons_of_neg (by simp [ha])]

namespace Trail

theorem start (ht : Trail f h m hist live) : ∃ mid rest, hist = mid ++ rest ∧
    (∀ a ∈ mid, live a = false) ∧ m.next h = first f h rest := by
  rw [ht.ring.next_head]
  exact exists_skip live hist

theorem next_of_live (ht : Trail f h m hist live) (hl : hist = l₁ ++ e :: l₂)
    (he : live e = true) : m.next (f e) = first f h (l₂.filter live) := by
  have hr := ht.ring
  rw [hl, List.filter_append, List.filter_cons_of_pos he] at hr
  exact hr.next_mem

theorem next_of_live_mem (ht : Trail f h m hist live) (he : e ∈ hist) (hl : live e = true) :
    m.next (f e) = h ∨ ∃ a ∈ hist, live a = true ∧ m.next (f e) = f a := by
  obtain ⟨l₁, l₂, hs⟩ := List.append_of_mem he
  rw [ht.next_of_live hs hl]
  rcases first_mem (f := f) (h := h) (l := l₂.filter live) with hx | ⟨a, ha, hx⟩
  · exact .inl hx
  · have := List.mem_filter.mp ha
    exact .inr ⟨a, by rw [hs]; simp [this.1], this.2, hx⟩

/-- **Every cell of the history leads on**, past unlinked elements only. -/
theorem ahead (ht : Trail f h m hist live) (hl : hist = l₁ ++ e :: l₂) : ∃ mid rest,
    l₂ = mid ++ rest ∧ (∀ a ∈ mid, live a = false) ∧ m.next (f e) = first f h rest := by
  cases he : live e with
  | false => exact ht.skip l₁ e l₂ hl he
  | true =>
    rw [ht.next_of_live hl he]
    exact exists_skip live l₂

/-- A list depends on its own cells only. -/
theorem congr (ht : Trail f h m hist live) (hh : m'.next h = m.next h ∧ m'.prev h = m.prev h)
    (hl : ∀ e ∈ hist, m'.next (f e) = m.next (f e) ∧ m'.prev (f e) = m.prev (f e))
    (hlive : ∀ e ∈ hist, live' e = live e) : Trail f h m' hist live' where
  ring := by
    rw [List.filter_congr hlive]
    exact ht.ring.congr hh fun e he => hl e (List.mem_of_mem_filter he)
  nodup := ht.nodup
  skip l₁ e l₂ heq he := by
    have hmem : e ∈ hist := by simp [heq]
    rw [hlive e hmem] at he
    obtain ⟨mid, rest, h1, h2, h3⟩ := ht.skip l₁ e l₂ heq he
    refine ⟨mid, rest, h1, fun a ha => ?_, (hl e hmem).1.trans h3⟩
    rw [hlive a (by simp [heq, h1, ha])]
    exact h2 a ha

theorem nil (hn : m.next h = h) (hp : m.prev h = h) : Trail f h m [] live :=
  ⟨Ring.nil hn hp, List.nodup_nil, fun _ _ _ heq => absurd heq (by simp)⟩

variable [DecidableEq A]

variable (hf : Function.Injective f) (hh : ∀ e, f e ≠ h)

include hf hh

/-- **Adding an element** makes it the newest. -/
theorem add (ht : Trail f h m hist live) (he : e ∉ hist) (hlive : live' e = true)
    (hother : ∀ a ∈ hist, live' a = live a) :
    Trail f h (m.add (f e) h) (e :: hist) live' where
  ring := by
    rw [List.filter_cons_of_pos hlive, List.filter_congr hother]
    exact ht.ring.add hf hh fun h' => he (List.mem_of_mem_filter h')
  nodup := List.nodup_cons.mpr ⟨he, ht.nodup⟩
  skip l₁ a l₂ heq ha := by
    cases l₁ with
    | nil =>
      obtain ⟨rfl, -⟩ := List.cons.inj heq
      rw [hlive] at ha
      cases ha
    | cons b l₁ =>
      obtain ⟨rfl, hl⟩ := List.cons.inj heq
      change hist = l₁ ++ a :: l₂ at hl
      have hmem : a ∈ hist := by simp [hl]
      rw [hother a hmem] at ha
      obtain ⟨mid, rest, h1, h2, h3⟩ := ht.skip l₁ a l₂ hl ha
      refine ⟨mid, rest, h1, fun c hc => ?_, ?_⟩
      · rw [hother c (by simp [hl, h1, hc])]
        exact h2 c hc
      · have hae : f a ≠ f e := fun hx => he (hf hx ▸ hmem)
        rw [← h3]
        exact (Function.update_of_ne (hh a) _ _).trans (Function.update_of_ne hae _ _)

variable (live') in
/-- Deleting an element leaves the cells of unlinked ones as they are. -/
theorem del_next (ht : Trail f h m hist live) (he : e ∈ hist) (hlive : live e = true)
    (hgone : live' e = false) (hother : ∀ a ∈ hist, a ≠ e → live' a = live a) {a : E}
    (ha : a ∈ hist) (hl : live' a = false) : (m.del (f e)).next (f a) = m.next (f a) := by
  obtain ⟨l₁, l₂, hs⟩ := List.append_of_mem he
  have hr := ht.ring
  have hnd := hr.nodup
  rw [hs, List.filter_append, List.filter_cons_of_pos hlive] at hr hnd
  -- only a live cell or the head is written
  refine Function.update_of_ne ?_ _ _
  rw [hr.prev_mem]
  refine (last_ne hf hh fun hmem => ?_).symm
  have hla := (List.mem_filter.mp hmem).2
  have hae : a ≠ e := by
    rintro rfl
    exact (List.nodup_append.mp hnd).2.2 a hmem a List.mem_cons_self rfl
  rw [hother a ha hae, hla] at hl
  cases hl

/-- **Deleting an element** leaves its cell leading on. -/
theorem del (ht : Trail f h m hist live) (he : e ∈ hist) (hlive : live e = true)
    (hgone : live' e = false) (hother : ∀ a ∈ hist, a ≠ e → live' a = live a) :
    Trail f h (m.del (f e)) hist live' := by
  obtain ⟨l₁, l₂, hs⟩ := List.append_of_mem he
  have hnd := ht.nodup
  rw [hs] at hnd
  have he₁ : e ∉ l₁ := fun h' => (List.nodup_append.mp hnd).2.2 e h' e List.mem_cons_self rfl
  have he₂ : e ∉ l₂ := (List.nodup_cons.mp (List.nodup_append.mp hnd).2.1).1
  have hfilter : hist.filter live = l₁.filter live ++ e :: l₂.filter live := by
    rw [hs, List.filter_append, List.filter_cons_of_pos hlive]
  have hfilter' : hist.filter live' = l₁.filter live ++ l₂.filter live := by
    rw [hs, List.filter_append, List.filter_cons_of_neg (by simp [hgone])]
    congr 1 <;> refine List.filter_congr fun a ha => hother a (by simp [hs, ha]) ?_
    · rintro rfl
      exact he₁ ha
    · rintro rfl
      exact he₂ ha
  have hr := ht.ring
  rw [hfilter] at hr
  have hdead : ∀ a, a ∈ hist → live a = false → live' a = false := fun a ha h' => by
    by_cases hae : a = e
    · rw [hae, hgone]
    · rw [hother a ha hae, h']
  refine ⟨by rw [hfilter']; exact hr.del hf hh, ht.nodup, fun k₁ a k₂ heq ha => ?_⟩
  have hmem : a ∈ hist := by simp [heq]
  rw [ht.del_next hf hh live' he hlive hgone hother hmem ha]
  obtain ⟨mid, rest, h1, h2, h3⟩ := ht.ahead heq
  exact ⟨mid, rest, h1, fun b hb => hdead b (by simp [heq, h1, hb]) (h2 b hb), h3⟩

end Trail

/-! ### What a reader sees -/

variable {seen : E → Prop}

variable (f h m hist live seen) in
/-- A reader that starts at the head, or stands on an element that it may have `seen`, comes to
such an element next, or back to the head. -/
structure View : Prop where
  live : ∀ e ∈ hist, live e = true → seen e
  next : ∀ e ∈ hist, seen e → m.next (f e) = h ∨ ∃ a, seen a ∧ m.next (f e) = f a

namespace View

/-- A new reader may see what is linked. -/
theorem start (ht : Trail f h m hist live) :
    View f h m hist live fun e => e ∈ hist ∧ live e = true where
  live _ he hl := ⟨he, hl⟩
  next _ he hl := (ht.next_of_live_mem he hl.2).imp_right fun ⟨a, ha, hx, hn⟩ => ⟨a, ⟨ha, hx⟩, hn⟩

/-- **The list changes under a reader**, who may also see what is added. The elements that are
unlinked lead on as before. -/
theorem step {hist' : List E} (hv : View f h m hist live seen) (ht : Trail f h m' hist' live')
    (hgone : ∀ e ∈ hist', live' e = false → e ∈ hist ∧ m'.next (f e) = m.next (f e)) :
    View f h m' hist' live' fun e => seen e ∨ e ∈ hist' ∧ live' e = true where
  live _ he hl := .inr ⟨he, hl⟩
  next e he hs := by
    cases hl : live' e with
    | true =>
      exact (ht.next_of_live_mem he hl).imp_right fun ⟨a, ha, hx, hn⟩ => ⟨a, .inr ⟨ha, hx⟩, hn⟩
    | false =>
      obtain ⟨hmem, hn⟩ := hgone e he hl
      have hs : seen e := hs.resolve_right fun h' => by
        rw [hl] at h'
        cases h'.2
      rw [hn]
      exact (hv.next e hmem hs).imp_right fun ⟨a, ha, hx⟩ => ⟨a, .inl ha, hx⟩

/-- A reader at the head comes to an element that it may see, past unlinked ones. -/
theorem head (hf : Function.Injective f) (hh : ∀ e, f e ≠ h) (hv : View f h m hist live seen)
    (ht : Trail f h m hist live) : ∃ mid rest,
    hist = mid ++ rest ∧ (∀ a ∈ mid, live a = false) ∧ m.next h = first f h rest ∧
      ∀ a ∈ rest.head?, seen a := by
  obtain ⟨mid, rest, hl, hmid, hx⟩ := ht.start
  refine ⟨mid, rest, hl, hmid, hx, fun a ha => ?_⟩
  cases rest with
  | nil => cases ha
  | cons b rest =>
    obtain rfl := Option.some.inj ha
    rw [ht.ring.next_head] at hx
    rcases first_mem (f := f) (h := h) (l := hist.filter live) with hn | ⟨c, hc, hn⟩
    · exact absurd (hx.symm.trans hn) (hh b)
    · rw [hf (hx.symm.trans hn)]
      obtain ⟨hmem, hlive⟩ := List.mem_filter.mp hc
      exact hv.live c hmem hlive

/-- So does one at an element that it sees. -/
theorem ahead (hf : Function.Injective f) (hh : ∀ e, f e ≠ h) (hv : View f h m hist live seen)
    (ht : Trail f h m hist live) (hl : hist = l₁ ++ e :: l₂) (he : seen e) : ∃ mid rest,
    l₂ = mid ++ rest ∧ (∀ a ∈ mid, live a = false) ∧ m.next (f e) = first f h rest ∧
      ∀ a ∈ rest.head?, seen a := by
  obtain ⟨mid, rest, hs, hmid, hx⟩ := ht.ahead hl
  refine ⟨mid, rest, hs, hmid, hx, fun a ha => ?_⟩
  cases rest with
  | nil => cases ha
  | cons b rest =>
    obtain rfl := Option.some.inj ha
    rcases hv.next e (by rw [hl]; simp) he with hn | ⟨c, hc, hn⟩
    · exact absurd (hx.symm.trans hn) (hh b)
    · rw [hf (hx.symm.trans hn)]
      exact hc

end View

end Conc
end Perfbook
