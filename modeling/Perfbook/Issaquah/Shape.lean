/-
# The shape of an Issaquah tree

`Wf h trp t` says that the memory holds the tree `t` below the sentinel `min`,
with the other sentinel above it, in order and with data at the leaves only.
`found` says where `_tree_lookup` ends, and that the tests a lookup is followed
by (`raced`, `treeGrew`) do not send it back. Everything that changes a tree
replaces what hangs at one place (`Wf.replace`): an insertion puts a leaf, or a
new internal node with the old leaf and the new one, a deletion puts nothing.

Key definitions: `Wf`, `Found`, `Maps`.
Key theorems: `found`, `Wf.replace`, `maps_iff`.
-/
import Mathlib.Data.List.Perm.Subperm
import Perfbook.Issaquah.Tree

namespace Perfbook
namespace Issaquah

open Bst Bst.Tree

variable {D : Type}

abbrev ITree (D : Type) := Tree Addr (Info D)

/-- The node carries data. -/
def hasData (i : Info D) : Bool := i.data.isSome

/-- The tree has a leaf with the key and the data. -/
def Maps (t : ITree D) (k : Key) (d : D) : Prop :=
  ∃ x ∈ t.inorder, x.2.key = k ∧ x.2.data = some d

/-- The root of a tree. -/
def rootOf : ITree D → Option (Addr × Info D)
  | nil => none
  | node a i _ _ => some (a, i)

/-- The node above a place, `max` if there is no other. -/
def parentOf (top : Addr) : List (Frame Addr (Info D)) → Addr
  | [] => top
  | f :: _ => f.addr

/-- No node of a tree is deleted, and only leaves have an existence pointer. -/
def Live (i : Info D) : Prop := i.deleted = false ∧ (hasData i = false → i.existence = none)

/-- The memory holds the tree `t` between the sentinels. -/
structure Wf (h : Heap D) (trp : Root) (t : ITree D) : Prop where
  max : h.node trp.max = sentinel keyMax (some trp.min)
  maxNew : trp.max ∉ t.addrs
  maxFresh : trp.max < h.fresh
  root : rootOf t = some (trp.min, (sentinel keyMin none : Node D).info)
  rep : Rep h.node t
  nodup : t.addrs.Nodup
  fresh : ∀ a ∈ t.addrs, a < h.fresh
  bst : Bst Info.key (fun _ => True) t
  data : DataLeaf hasData t
  live : ∀ x ∈ t.inorder, Live x.2

variable {h h' : Heap D} {trp : Root} {t : ITree D} {k : Key} {c : List (Frame Addr (Info D))}
  {b : Addr} {i : Info D} {l r s s' : ITree D} {f : Frame Addr (Info D)}

/-! ### Where a lookup ends -/

theorem exists_ptr (ht : t.isNil = false) : ∃ b, t.ptr = some b := by
  cases t with
  | nil => cases ht
  | node b i l r => exact ⟨b, rfl⟩

theorem lookupLoop_eq (top : Addr) : ∀ (t : ITree D) (c : List (Frame Addr (Info D))) (fuel : ℕ)
    (a : Addr), Rep h.node t → t.ptr = some a → t.inorder.length ≤ fuel →
    ∃ b, (locate Info.key k c t).2.ptr = some b ∧
      lookupLoop h k fuel (parentOf top c) a = some (parentOf top (locate Info.key k c t).1, b)
  | nil, _, _, _, _, hp, _ => by cases hp
  | node a i l r, c, fuel, _, hr, hp, hf => by
    obtain rfl := Option.some.inj hp
    rw [inorder, List.length_append, List.length_cons] at hf
    obtain ⟨fuel, rfl⟩ : ∃ n, fuel = n + 1 := ⟨fuel - 1, by omega⟩
    obtain ⟨hcell, hrl, hrr⟩ := hr
    unfold lookupLoop locate
    rw [hcell]
    by_cases hk : k ≤ i.key
    · rw [if_pos hk]
      cases hl : l.isNil with
      | true => exact ⟨a, rfl, by simp [isNil_iff.mp hl, hk, parentOf]⟩
      | false =>
        obtain ⟨b, hb⟩ := exists_ptr hl
        obtain ⟨b', hb', hloop⟩ := lookupLoop_eq top l (⟨a, i, .left, r⟩ :: c) fuel b hrl hb (by omega)
        simp only [Bool.false_eq_true, if_false]
        refine ⟨b', hb', ?_⟩
        rw [← hloop]
        simp [hk, hb, parentOf]
    · rw [if_neg hk]
      cases hr : r.isNil with
      | true => exact ⟨a, rfl, by simp [isNil_iff.mp hr, hk, parentOf]⟩
      | false =>
        obtain ⟨b, hb⟩ := exists_ptr hr
        obtain ⟨b', hb', hloop⟩ := lookupLoop_eq top r (⟨a, i, .right, l⟩ :: c) fuel b hrr hb (by omega)
        simp only [Bool.false_eq_true, if_false]
        refine ⟨b', hb', ?_⟩
        rw [← hloop]
        simp [hk, hb, parentOf]

/-- There is fuel enough for the nodes of the tree. -/
theorem Wf.size_le (hw : Wf h trp t) : t.inorder.length ≤ h.fresh := by
  have hsub : t.addrs.Subperm (List.range h.fresh) :=
    hw.nodup.subperm fun a ha => List.mem_range.mpr (hw.fresh a ha)
  have := hsub.length_le
  rwa [List.length_range, addrs, List.length_map] at this

/-- Where the lookup of `k` ends: at the node `b`, which has no child on the
side of `k`, at the place `c`. -/
structure Found (h : Heap D) (trp : Root) (t : ITree D) (k : Key)
    (c : List (Frame Addr (Info D))) (b : Addr) (i : Info D) (l r : ITree D) : Prop where
  loc : locate Info.key k [] t = (c, node b i l r)
  look : treeLookupNode h trp k = some (parentOf trp.max c, b)
  plug : Bst.plug c (node b i l r) = t
  bound : Bound Info.key (fun _ => True) c k
  left : k ≤ i.key → l = nil
  right : i.key < k → r = nil
  cell : h.node b = ⟨i, l.ptr, r.ptr⟩
  inTree : (b, i) ∈ t.inorder
  notRaced : raced h (parentOf trp.max c) b = false

theorem rootOf_ptr (hr : rootOf t = some (b, i)) : t.ptr = some b ∧ ∃ l r, t = node b i l r := by
  cases t with
  | nil => cases hr
  | node a j l r =>
    obtain ⟨rfl, rfl⟩ := Prod.mk.inj (Option.some.inj hr)
    exact ⟨rfl, l, r, rfl⟩

theorem found (hw : Wf h trp t) (k : Key) : ∃ c b i l r, Found h trp t k c b i l r := by
  obtain ⟨hptr, l₀, r₀, ht⟩ := rootOf_ptr hw.root
  have hne : t ≠ nil := by
    rw [ht]
    exact fun he => by cases he
  obtain ⟨b', hb', hlook⟩ :=
    lookupLoop_eq (k := k) trp.max t [] h.fresh trp.min hw.rep hptr hw.size_le
  obtain ⟨b, i, l, r, hloc, hleft, hright⟩ : ∃ b i l r, (locate Info.key k [] t).2 = node b i l r ∧
      (k ≤ i.key → l = nil) ∧ (i.key < k → r = nil) := locate_end t [] hne
  have hplug : Bst.plug (locate Info.key k [] t).1 (locate Info.key k [] t).2 = t := locate_plug t []
  set c := (locate Info.key k [] t).1 with hc
  rw [hloc] at hplug hb'
  obtain rfl : b = b' := Option.some.inj hb'
  have hplug' : Bst.plug c (node b i l r) = t := hplug
  have hrep := rep_plug.mp (hplug'.symm ▸ hw.rep)
  have hin : (b, i) ∈ t.inorder := by
    rw [← hplug', mem_plug]
    exact .inl (by simp [inorder])
  refine ⟨c, b, i, l, r, Prod.ext hc.symm hloc, hlook, hplug', locate_bound t [] trivial, hleft,
    hright, hrep.2.1, hin, ?_⟩
  have hcur : (h.node b).info.deleted = false := by
    rw [hrep.2.1]
    exact (hw.live _ hin).1
  cases hc' : c with
  | nil =>
    have hmin : b = trp.min := by
      rw [hc', Bst.plug] at hplug'
      rw [← hplug'] at hptr
      exact Option.some.inj hptr
    subst hmin
    simp [raced, hcur, parentOf, hw.max, sentinel, initTreenode]
  | cons f c' =>
    rw [hc'] at hrep hplug'
    have hf : (h.node f.addr).info.deleted = false := by
      rw [hrep.1.1]
      have hmem : (f.addr, f.info) ∈ t.inorder := by
        rw [← hplug', mem_plug]
        cases hs : f.side <;> simp [before, after, hs]
      have := (hw.live _ hmem).1
      unfold Frame.cell
      split <;> exact this
    have hchild : (h.node f.addr).lc = some b ∨ (h.node f.addr).rc = some b := by
      rw [hrep.1.1]
      unfold Frame.cell
      cases f.side <;> simp
    rcases hchild with hch | hch <;> simp [raced, hcur, parentOf, hf, hch]

/-- A leaf with the key that is looked for is where the lookup ends. -/
theorem Found.eq (hw : Wf h trp t) (hf : Found h trp t k c b i l r) {a : Addr} {j : Info D}
    (hm : (a, j) ∈ t.inorder) (hj : hasData j = true) (hk : j.key = k) :
    a = b ∧ j = i ∧ l = nil ∧ r = nil := by
  have := locate_eq (k := k) t [] hw.bst hw.data hm hj hk
  rw [hf.loc] at this
  obtain ⟨rfl, rfl, rfl, rfl⟩ := Tree.node.inj this
  exact ⟨rfl, rfl, rfl, rfl⟩

/-- **What a tree maps a key to** is decided where the lookup ends. -/
theorem maps_iff (hw : Wf h trp t) (hf : Found h trp t k c b i l r) {d : D} :
    Maps t k d ↔ i.key = k ∧ i.data = some d := by
  constructor
  · rintro ⟨⟨a, j⟩, hm, hk, hd⟩
    obtain ⟨rfl, rfl, -, -⟩ := hf.eq hw hm (by rw [hasData, show j.data = some d from hd]; rfl) hk
    exact ⟨hk, hd⟩
  · rintro ⟨hk, hd⟩
    exact ⟨_, hf.inTree, hk, hd⟩

/-- No two leaves with data have the same key. -/
theorem leaf_unique (hw : Wf h trp t) {x y : Addr × Info D} (hx : x ∈ t.inorder)
    (hy : y ∈ t.inorder) (hdx : hasData x.2 = true) (hdy : hasData y.2 = true)
    (hk : x.2.key = y.2.key) : x = y := by
  obtain ⟨c, b, i, l, r, hf⟩ := found hw y.2.key
  obtain ⟨hxb, hxi, -, -⟩ := hf.eq hw (a := x.1) (j := x.2) hx hdx hk
  obtain ⟨hyb, hyi, -, -⟩ := hf.eq hw (a := y.1) (j := y.2) hy hdy rfl
  exact Prod.ext (hxb.trans hyb.symm) (hxi.trans hyi.symm)

theorem Found.dataLeaf (hw : Wf h trp t) (hf : Found h trp t k c b i l r) :
    DataLeafCtx hasData c ∧ DataLeaf hasData (node b i l r) :=
  dataLeaf_of_plug (hf.plug.symm ▸ hw.data) fun he => by cases he

/-- The tests of the node where the lookup ends. -/
theorem Found.leaf_eq (hw : Wf h trp t) (hf : Found h trp t k c b i l r) :
    treeLeafNode (h.node b) = hasData i := by
  rw [hf.cell, treeLeafNode]
  cases hd : hasData i with
  | true =>
    obtain ⟨rfl, rfl⟩ := (hf.dataLeaf hw).2.1 hd
    have : i.data.isSome = true := hd
    simp [this]
  | false =>
    have : i.data.isSome = false := hd
    simp [this]

theorem Found.not_grew (hf : Found h trp t k c b i l r) : treeGrew (h.node b) k = false := by
  rw [hf.cell, treeGrew]
  rcases le_or_gt k i.key with hk | hk
  · simp [hf.left hk, not_lt.mpr hk]
  · simp [hf.right hk, not_le.mpr hk]

/-! ### A change at one place -/

theorem rootOf_plug : ∀ (c : List (Frame Addr (Info D))) (f : Frame Addr (Info D)) (s s' : ITree D),
    rootOf (Bst.plug (f :: c) s) = rootOf (Bst.plug (f :: c) s')
  | [], f, s, s' => by
    simp only [Bst.plug, Frame.fill]
    cases f.side <;> rfl
  | g :: c, f, s, s' => rootOf_plug c g (f.fill s) (f.fill s')

/-- **A change at a place** of a tree: the link to the place, and what hangs there. -/
theorem Wf.replace (hw : Wf h trp (Bst.plug (f :: c) s))
    (hkeep : ∀ a, a ∈ ctxAddrs (f :: c) ∨ a = trp.max → a ≠ f.addr → h'.node a = h.node a)
    (hlink : h'.node f.addr = (h.node f.addr).setChild f.side s'.ptr) (hrep : Rep h'.node s')
    (hnd : s'.addrs.Nodup)
    (hsub : ∀ a ∈ s'.addrs, a ∈ s.addrs ∨ h.fresh ≤ a ∧ a < h'.fresh) (hfresh : h.fresh ≤ h'.fresh)
    (hbst : Bst Info.key (Bound Info.key (fun _ => True) (f :: c)) s')
    (hctx : DataLeafCtx hasData (f :: c)) (hdata : DataLeaf hasData s')
    (hlive : ∀ x ∈ s'.inorder, Live x.2) : Wf h' trp (Bst.plug (f :: c) s') := by
  have hperm := addrs_plug (f :: c) s
  have hnodup := hperm.nodup_iff.mp hw.nodup
  have hin : ∀ a, a ∈ s.addrs ∨ a ∈ ctxAddrs (f :: c) → a ∈ (Bst.plug (f :: c) s).addrs :=
    fun a ha => hperm.mem_iff.mpr (List.mem_append.mpr ha)
  have hfa : f.addr ∈ (Bst.plug (f :: c) s).addrs := hin _ (.inr frame_mem)
  have hmax : trp.max ≠ f.addr := fun he => hw.maxNew (he ▸ hfa)
  have hout : ∀ a ∈ s'.addrs, a ∉ ctxAddrs (f :: c) := by
    intro a ha hc
    rcases hsub a ha with hs | ⟨hge, -⟩
    · exact (List.nodup_append.mp hnodup).2.2 a hs a hc rfl
    · exact absurd (hw.fresh a (hin a (.inr hc))) (not_lt.mpr hge)
  have hperm' := addrs_plug (f :: c) s'
  have hmem' : ∀ a ∈ (Bst.plug (f :: c) s').addrs, a ∈ s'.addrs ∨ a ∈ ctxAddrs (f :: c) :=
    fun a ha => List.mem_append.mp (hperm'.mem_iff.mp ha)
  refine
    { max := (hkeep _ (.inr rfl) hmax).trans hw.max
      maxNew := fun hm => ?_
      maxFresh := lt_of_lt_of_le hw.maxFresh hfresh
      root := (rootOf_plug c f s' s).trans hw.root
      rep := rep_plug.mpr ⟨?_, hrep⟩
      nodup := hperm'.nodup_iff.mpr (List.nodup_append.mpr
        ⟨hnd, (List.nodup_append.mp hnodup).2.1, fun a ha b hb he => hout a ha (he ▸ hb)⟩)
      fresh := fun a ha => ?_
      bst := bst_plug.mpr ⟨(bst_plug.mp hw.bst).1, hbst⟩
      data := dataLeaf_plug hctx hdata
      live := fun x hx => ?_ }
  · rcases hmem' _ hm with hm | hm
    · rcases hsub _ hm with hm | ⟨hm, -⟩
      · exact hw.maxNew (hin _ (.inl hm))
      · exact absurd hw.maxFresh (not_lt.mpr hm)
    · exact hw.maxNew (hin _ (.inr hm))
  · have hset := (rep_plug.mp hw.rep).1.set (q := s'.ptr) (List.nodup_append.mp hnodup).2.1
    refine hset.congr fun a ha => ?_
    by_cases haf : a = f.addr
    · rw [haf, Function.update_self, hlink]
    · rw [Function.update_of_ne haf]
      exact hkeep a (.inl ha) haf
  · rcases hmem' a ha with ha | ha
    · rcases hsub a ha with ha | ⟨-, ha⟩
      · exact lt_of_lt_of_le (hw.fresh a (hin a (.inl ha))) hfresh
      · exact ha
    · exact lt_of_lt_of_le (hw.fresh a (hin a (.inr ha))) hfresh
  · rcases mem_plug.mp hx with hx | hx
    · exact hlive x hx
    · exact hw.live x (mem_plug.mpr (.inr hx))

/-- A tree does not depend on nodes that are not its own. -/
theorem Wf.congr_own (hw : Wf h trp t) (hmax : h'.node trp.max = h.node trp.max)
    (hnode : ∀ a ∈ t.addrs, h'.node a = h.node a) (hfresh : h.fresh ≤ h'.fresh) : Wf h' trp t :=
  { hw with
    max := hmax.trans hw.max
    maxFresh := lt_of_lt_of_le hw.maxFresh hfresh
    rep := hw.rep.congr hnode
    fresh := fun a ha => lt_of_lt_of_le (hw.fresh a ha) hfresh }

theorem Wf.congr (hw : Wf h trp t) (hnode : ∀ a < h.fresh, h'.node a = h.node a)
    (hfresh : h.fresh ≤ h'.fresh) : Wf h' trp t :=
  hw.congr_own (hnode _ hw.maxFresh) (fun a ha => hnode a (hw.fresh a ha)) hfresh

end Issaquah
end Perfbook
