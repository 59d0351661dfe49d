/-
# Lists with a pointer to the last link

Several singly linked lists of nodes, each with a head and a pointer to its last link, which is the head when the
list is empty. A node is put in at the end without a walk (`Hung.append`), the first one is taken out (`Hung.pop`),
and a whole list is put behind another one (`Hung.splice`). No node is on two lists, so that a store to a link of
one list leaves the others as they are.

The memory has a slot for each head and for the link of each node. A list whose pointer is not set yet is empty
(`Hung.clear` sets it).

Key definitions: `Slot`, `lastSlot`, `Hung`.
Key theorems: `Hung.append`, `Hung.splice`, `Hung.pop`, `Hung.clear`.
-/
import Mathlib.Data.Int.Notation
import Perfbook.Conc.Linked

namespace Perfbook
namespace Conc

/-- Where a pointer to a node is stored: the head of a list, or the link of a node. -/
inductive Slot (Q A : Type*)
  | head (q : Q)
  | link (a : A)
deriving DecidableEq

variable {Q A : Type*}

/-- The slot that the pointer in a slot leads to. -/
def onward (m : Slot Q A → Option A) (x : Slot Q A) : Option (Slot Q A) := (m x).map .link

/-- The last link of the list `l` behind the head of `q`. -/
def lastSlot (q : Q) (l : List A) : Slot Q A := before (.head q) (l.map .link)

theorem lastSlot_append (q : Q) (l : List A) (a : A) (l' : List A) :
    lastSlot q (l ++ a :: l') = before (.link a) (l'.map .link) := by
  simp [lastSlot]

theorem mem_slots {q : Q} {l : List A} {x : Slot Q A} (h : x ∈ Slot.head q :: l.map .link) :
    x = .head q ∨ ∃ a ∈ l, x = .link a := by
  obtain rfl | h := List.mem_cons.mp h
  · exact .inl rfl
  · obtain ⟨a, ha, rfl⟩ := List.mem_map.mp h
    exact .inr ⟨a, ha, rfl⟩

theorem lastSlot_mem (q : Q) (l : List A) : lastSlot q l ∈ Slot.head q :: l.map .link := before_mem

theorem link_mem {q : Q} {l : List A} {a : A} (h : a ∈ l) : Slot.link a ∈ Slot.head q :: l.map .link :=
  List.mem_cons_of_mem _ (List.mem_map_of_mem h)

/-- Lists without a common node have no common slot. -/
theorem slots_ne {q q' : Q} {l l' : List A} {x y : Slot Q A} (hq : q ≠ q') (h : ∀ a ∈ l, a ∉ l')
    (hx : x ∈ Slot.head q :: l.map .link) (hy : y ∈ Slot.head q' :: l'.map .link) : x ≠ y := by
  obtain rfl | ⟨a, ha, rfl⟩ := mem_slots hx
  · obtain rfl | ⟨b, hb, rfl⟩ := mem_slots hy
    · exact fun he => hq (by cases he; rfl)
    · nofun
  · obtain rfl | ⟨b, hb, rfl⟩ := mem_slots hy
    · nofun
    · exact fun he => h a ha (by cases he; exact hb)

theorem nodup_slots {l : List A} (h : l.Nodup) (q : Q) : (Slot.head q :: l.map .link).Nodup := by
  refine List.nodup_cons.mpr ⟨fun hm => ?_, h.map fun a b hab => by cases hab; rfl⟩
  obtain ⟨a, -, ha⟩ := List.mem_map.mp hm
  cases ha

/-- The list `l` hangs from the head of `q`, `last` is the pointer to its last link and `n` its length. -/
structure HungAt (m : Slot Q A → Option A) (q : Q) (last : Option (Slot Q A)) (n : ℤ) (l : List A) : Prop where
  linked : Linked (onward m) (.head q) (l.map .link)
  last_eq : ∀ x, last = some x → x = lastSlot q l
  unset : last = none → l = []
  length : n = (l.length : ℤ)
  nodup : l.Nodup

/-- The lists `L`, with the pointers `lasts` to their last links and their lengths `count`. -/
def Hung (m : Slot Q A → Option A) (lasts : Q → Option (Slot Q A)) (count : Q → ℤ) (L : Q → List A) : Prop :=
  ∀ q, HungAt m q (lasts q) (count q) (L q)

variable {m m' : Slot Q A → Option A} {lasts : Q → Option (Slot Q A)} {count : Q → ℤ} {L : Q → List A} {q q' : Q}
  {a : A} {x : Slot Q A} {l l' : List A} {last : Option (Slot Q A)} {n : ℤ}

namespace HungAt

/-- What the head leads to. -/
theorem head (h : HungAt m q last n l) : m (.head q) = l.head? := by
  have := h.linked.head
  rw [onward, List.head?_map] at this
  cases hm : m (.head q) <;> cases hl : l.head? <;> simp_all

/-- A list is as it was when its slots are. -/
theorem congr (h : HungAt m q last n l) (hh : m' (.head q) = m (.head q))
    (hl : ∀ a ∈ l, m' (.link a) = m (.link a)) : HungAt m' q last n l := by
  refine { h with linked := h.linked.congr fun x hx => ?_ }
  unfold onward
  obtain rfl | ⟨a, ha, rfl⟩ := mem_slots hx
  · rw [hh]
  · rw [hl a ha]

/-- An empty list. -/
theorem nil (hm : m (.head q) = none) : HungAt m q (some (.head q)) 0 ([] : List A) where
  linked := by
    change onward m (.head q) = none
    rw [onward, hm]
    rfl
  last_eq x hx := (Option.some.inj hx).symm
  unset := nofun
  length := rfl
  nodup := List.nodup_nil

/-- A node is put in at the end. -/
theorem snoc (h : HungAt m q last n l) (ha : a ∉ l) (hlast : m' (lastSlot q l) = some a) (hlink : m' (.link a) = none)
    (hm : ∀ y ∈ Slot.head q :: l.map .link, y ≠ lastSlot q l → m' y = m y) :
    HungAt m' q (some (.link a)) (n + 1) (l ++ [a]) where
  linked := by
    have hl := h.linked
    rw [← List.append_nil (l.map _)] at hl
    rw [List.map_append, List.map_cons, List.map_nil]
    refine hl.insert ?_ (congrArg _ hlast) (fun y hy hne => ?_)
      (by rw [List.append_nil]; exact nodup_slots h.nodup q)
    · rw [hl.mid, onward, hlink]
      rfl
    · rw [List.append_nil] at hy
      rw [onward, onward, hm y hy hne]
  last_eq y hy := by
    rw [lastSlot_append]
    exact (Option.some.inj hy).symm
  unset := nofun
  length := by
    rw [h.length]
    simp
  nodup := List.nodup_append.mpr ⟨h.nodup, List.nodup_singleton a,
    fun b hb c hc he => ha (by rw [← List.mem_singleton.mp hc, ← he]; exact hb)⟩

/-- Another list is put behind, that hung from `q'`. -/
theorem concat {last' : Option (Slot Q A)} {n' : ℤ} (h : HungAt m q last n l) (h' : HungAt m q' last' n' l')
    (hne : l' ≠ []) (hdis : ∀ a ∈ l, a ∉ l') (hlast : m' (lastSlot q l) = m (.head q'))
    (hm : ∀ y ∈ Slot.head q :: l.map .link, y ≠ lastSlot q l → m' y = m y)
    (hm' : ∀ a ∈ l', m' (.link a) = m (.link a)) : HungAt m' q last' (n + n') (l ++ l') where
  linked := by
    have hl := h.linked
    rw [← List.append_nil (l.map _)] at hl
    rw [List.map_append]
    refine hl.splice (h'.linked.moved (congrArg _ hlast) fun y hy => ?_) (fun y hy hyne => ?_) (nodup_slots h.nodup q)
    · obtain ⟨a, ha, rfl⟩ := List.mem_map.mp hy
      rw [onward, onward, hm' a ha]
    · rw [onward, onward, hm y hy hyne]
  last_eq y hy := by
    obtain ⟨b, k, rfl⟩ := List.exists_cons_of_ne_nil hne
    rw [h'.last_eq y hy, lastSlot_append]
    simp [lastSlot]
  unset hn := absurd (h'.unset hn) hne
  length := by
    rw [h.length, h'.length]
    simp
  nodup := List.nodup_append.mpr ⟨h.nodup, h'.nodup, fun b hb c hc he => hdis b hb (he ▸ hc)⟩

/-- The first node is taken out. -/
theorem tail (h : HungAt m q last n (a :: l)) (hh : m' (.head q) = m (.link a))
    (hm : ∀ b ∈ l, m' (.link b) = m (.link b)) :
    HungAt m' q (if m (.link a) = none then some (.head q) else last) (n - 1) l := by
  have hnext : onward m (.link a) = (l.map Slot.link).head? := h.linked.2.head
  refine ⟨?_, fun y hy => ?_, fun hn => ?_, ?_, (List.nodup_cons.mp h.nodup).2⟩
  · refine h.linked.2.moved ?_ fun y hy => ?_
    · rw [onward, onward, hh]
    · obtain ⟨b, hb, rfl⟩ := List.mem_map.mp hy
      rw [onward, onward, hm b hb]
  · cases l with
    | nil =>
      have : m (.link a) = none := by simpa [onward] using hnext
      rw [if_pos this] at hy
      exact (Option.some.inj hy).symm
    | cons b l =>
      have : m (.link a) ≠ none := fun hn => by simp [onward, hn] at hnext
      rw [if_neg this] at hy
      rw [h.last_eq y hy]
      simp [lastSlot]
  · split at hn
    · cases hn
    · exact absurd (h.unset hn) (List.cons_ne_nil a l)
  · rw [h.length]
    simp

end HungAt

namespace Hung

variable [DecidableEq Q] [DecidableEq A]

/-- The pointer of a list that has none is set. -/
theorem clear (h : Hung m lasts count L) (hq : lasts q = none) :
    Hung (Function.update m (.head q) none) (Function.update lasts q (some (.head q)))
      (Function.update count q 0) L := by
  intro r
  by_cases hr : r = q
  · subst hr
    rw [(h r).unset hq, Function.update_self, Function.update_self]
    exact .nil (Function.update_self ..)
  · rw [Function.update_of_ne hr, Function.update_of_ne hr]
    exact (h r).congr (Function.update_of_ne (fun he => hr (by cases he; rfl)) ..)
      fun a _ => Function.update_of_ne (nofun : Slot.link a ≠ Slot.head q) ..

omit [DecidableEq Q] [DecidableEq A] in
/-- What is stored to no slot of a list leaves it as it is. -/
theorem keep (h : Hung m lasts count L) (r : Q) (hm : ∀ y ∈ Slot.head r :: (L r).map .link, m' y = m y) :
    HungAt m' r (lasts r) (count r) (L r) :=
  (h r).congr (hm _ List.mem_cons_self) fun _ ha => hm _ (link_mem ha)

variable (h : Hung m lasts count L) (hapart : ∀ r r' a, a ∈ L r → a ∈ L r' → r = r')

include h hapart

omit [DecidableEq Q] [DecidableEq A] h in
theorem slots_ne {r r' : Q} {y z : Slot Q A} (hr : r ≠ r') (hy : y ∈ Slot.head r :: (L r).map .link)
    (hz : z ∈ Slot.head r' :: (L r').map .link) : y ≠ z :=
  Conc.slots_ne hr (fun a ha ha' => hr (hapart r r' a ha ha')) hy hz

/-- A node that is on no list is put in at the end. -/
theorem append (hx : lasts q = some x) (ha : ∀ r, a ∉ L r) :
    Hung (Function.update (Function.update m (.link a) none) x (some a))
      (Function.update lasts q (some (.link a))) (Function.update count q (count q + 1))
      (Function.update L q (L q ++ [a])) := by
  obtain rfl := (h q).last_eq x hx
  have hnew : ∀ r, ∀ y ∈ Slot.head r :: (L r).map .link, y ≠ Slot.link a := fun r y hy he => by
    obtain rfl | ⟨b, hb, rfl⟩ := mem_slots hy
    · cases he
    · cases he
      exact ha r hb
  intro r
  by_cases hr : r = q
  · subst hr
    simp only [Function.update_self]
    refine (h r).snoc (ha r) (Function.update_self ..) ?_ fun y hy hne => ?_
    · rw [Function.update_of_ne (hnew r _ (lastSlot_mem r (L r))).symm, Function.update_self]
    · rw [Function.update_of_ne hne, Function.update_of_ne (hnew r y hy)]
  · simp only [Function.update_of_ne hr]
    refine h.keep r fun y hy => ?_
    rw [Function.update_of_ne (slots_ne hapart hr hy (lastSlot_mem q (L q))), Function.update_of_ne (hnew r y hy)]

/-- The list of `q'` is put behind that of `q`, and is empty then. -/
theorem splice (hq : q ≠ q') (hne : L q' ≠ []) (hx : lasts q = some x) :
    Hung (Function.update (Function.update m x (m (.head q'))) (.head q') none)
      (Function.update (Function.update lasts q (lasts q')) q' (some (.head q')))
      (Function.update (Function.update count q (count q + count q')) q' 0)
      (Function.update (Function.update L q (L q ++ L q')) q' []) := by
  obtain rfl := (h q).last_eq x hx
  have hlast := lastSlot_mem q (L q)
  intro r
  by_cases hr' : r = q'
  · subst hr'
    simp only [Function.update_self]
    exact .nil (Function.update_self ..)
  by_cases hr : r = q
  · subst hr
    simp only [Function.update_of_ne hq, Function.update_self]
    refine (h r).concat (h q') hne (fun a ha ha' => hq (hapart r q' a ha ha')) ?_ (fun y hy hyne => ?_) fun a ha => ?_
    · rw [Function.update_of_ne (slots_ne hapart hq hlast List.mem_cons_self), Function.update_self]
    · rw [Function.update_of_ne (slots_ne hapart hq hy List.mem_cons_self), Function.update_of_ne hyne]
    · rw [Function.update_of_ne (nofun : Slot.link a ≠ Slot.head q'),
        Function.update_of_ne (slots_ne hapart hq hlast (link_mem ha)).symm]
  · simp only [Function.update_of_ne hr, Function.update_of_ne hr']
    refine h.keep r fun y hy => ?_
    rw [Function.update_of_ne (slots_ne hapart hr' hy List.mem_cons_self),
      Function.update_of_ne (slots_ne hapart hr hy hlast)]

/-- The first node of a list is taken out. -/
theorem pop (hl : L q = a :: l) :
    Hung (Function.update m (.head q) (m (.link a)))
      (if m (.link a) = none then Function.update lasts q (some (.head q)) else lasts)
      (Function.update count q (count q - 1)) (Function.update L q l) := by
  intro r
  by_cases hr : r = q
  · subst hr
    simp only [Function.update_self]
    have hat := h r
    rw [hl] at hat
    have hhead : Function.update m (.head r) (m (.link a)) (.head r) = m (.link a) := Function.update_self ..
    have htail := hat.tail hhead fun b _ => Function.update_of_ne (nofun : Slot.link b ≠ Slot.head r) ..
    split <;> simp_all
  · simp only [Function.update_of_ne hr]
    have hkeep : HungAt (Function.update m (.head q) (m (.link a))) r (lasts r) (count r) (L r) :=
      h.keep r fun y hy => Function.update_of_ne (slots_ne hapart hr hy List.mem_cons_self) ..
    split
    · rw [Function.update_of_ne hr]
      exact hkeep
    · exact hkeep

end Hung
end Conc
end Perfbook
