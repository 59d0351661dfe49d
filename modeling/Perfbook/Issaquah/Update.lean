/-
# What the operations of an Issaquah tree do

An operation replaces what hangs at one place of one tree (`Upd`): its leaves
change as said, other nodes stay. An insertion adds a leaf (`insert_upd`), a
deletion removes one (`delete_upd`), and a store to the existence pointer of a
leaf replaces it (`setExistence_upd`).

Key definitions: `Leaf`, `Upd`.
Key theorems: `insert_upd`, `insert_same`, `delete_upd`, `delete_none`, `setExistence_upd`.
-/
import Perfbook.Issaquah.Shape

namespace Perfbook
namespace Issaquah

open Bst Bst.Tree

variable {D : Type}

/-- A node with data in the tree. -/
def Leaf (t : ITree D) (x : Addr × Info D) : Prop := x ∈ t.inorder ∧ hasData x.2 = true

/-- The tree at `trp` changes from `t` to `t'`, with new nodes at most. -/
structure Upd (h h' : Heap D) (trp : Root) (t t' : ITree D) : Prop where
  wf : Wf h' trp t'
  keep : ∀ a < h.fresh, a ∉ t.addrs → h'.node a = h.node a
  addrs : ∀ a ∈ t'.addrs, a ∈ t.addrs ∨ h.fresh ≤ a
  fresh : h.fresh ≤ h'.fresh
  switch : h'.existenceSwitch = h.existenceSwitch
  group : h'.freshGroup = h.freshGroup

variable {h h' : Heap D} {trp : Root} {t : ITree D} {k : Key} {c : List (Frame Addr (Info D))}
  {b : Addr} {i : Info D} {l r s s' : ITree D} {f : Frame Addr (Info D)} {d : D}
  {ex : Option Existence}

/-! ### Leaves -/

theorem leaf_plug {x : Addr × Info D} :
    Leaf (Bst.plug c s) x ↔ Leaf s x ∨ ((x ∈ before c ∨ x ∈ after c) ∧ hasData x.2 = true) := by
  unfold Leaf
  rw [mem_plug]
  tauto

theorem leaf_node {x : Addr × Info D} (hd : hasData i = true) :
    Leaf (node b i nil nil) x ↔ x = (b, i) := by
  unfold Leaf
  simp only [inorder, List.nil_append, List.mem_singleton]
  exact ⟨fun h => h.1, fun h => ⟨h, h ▸ hd⟩⟩

theorem maps_iff_leaf : Maps t k d ↔ ∃ x, Leaf t x ∧ x.2.key = k ∧ x.2.data = some d := by
  constructor
  · rintro ⟨x, hx, hk, hd⟩
    exact ⟨x, ⟨hx, by rw [hasData, hd]; rfl⟩, hk, hd⟩
  · rintro ⟨x, hx, hk, hd⟩
    exact ⟨x, hx.1, hk, hd⟩

/-- A lookup ends at a leaf with the key if there is one. -/
theorem Found.leaf_iff (hw : Wf h trp t) (hf : Found h trp t k c b i l r) {x : Addr × Info D} :
    Leaf t x ∧ x.2.key = k ↔ x = (b, i) ∧ hasData i = true ∧ i.key = k := by
  constructor
  · rintro ⟨⟨hm, hd⟩, hk⟩
    obtain ⟨ha, hi, -, -⟩ := hf.eq hw (a := x.1) (j := x.2) hm hd hk
    exact ⟨Prod.ext ha hi, hi ▸ hd, hi ▸ hk⟩
  · rintro ⟨rfl, hd, hk⟩
    exact ⟨⟨hf.inTree, hd⟩, hk⟩

/-! ### Updates -/

/-- Nothing changes but nodes outside of the tree. -/
theorem Wf.upd_same (hw : Wf h trp t) (hnode : ∀ a < h.fresh, h'.node a = h.node a)
    (hfresh : h.fresh ≤ h'.fresh) (hsw : h'.existenceSwitch = h.existenceSwitch)
    (hgrp : h'.freshGroup = h.freshGroup) : Upd h h' trp t t where
  wf := hw.congr hnode hfresh
  keep := fun a ha _ => hnode a ha
  addrs := fun _ ha => .inl ha
  fresh := hfresh
  switch := hsw
  group := hgrp

/-- A change at a place. -/
theorem Wf.upd (hw : Wf h trp (Bst.plug (f :: c) s))
    (hkeep : ∀ a < h.fresh, a ∉ s.addrs → a ≠ f.addr → h'.node a = h.node a)
    (hlink : h'.node f.addr = (h.node f.addr).setChild f.side s'.ptr) (hrep : Rep h'.node s')
    (hnd : s'.addrs.Nodup)
    (hsub : ∀ a ∈ s'.addrs, a ∈ s.addrs ∨ h.fresh ≤ a ∧ a < h'.fresh) (hfresh : h.fresh ≤ h'.fresh)
    (hbst : Bst Info.key (Bound Info.key (fun _ => True) (f :: c)) s')
    (hctx : DataLeafCtx hasData (f :: c)) (hdata : DataLeaf hasData s')
    (hlive : ∀ x ∈ s'.inorder, Live x.2) (hsw : h'.existenceSwitch = h.existenceSwitch)
    (hgrp : h'.freshGroup = h.freshGroup) :
    Upd h h' trp (Bst.plug (f :: c) s) (Bst.plug (f :: c) s') := by
  have hperm := addrs_plug (f :: c) s
  have hmem : ∀ a, a ∈ s.addrs ∨ a ∈ ctxAddrs (f :: c) → a ∈ (Bst.plug (f :: c) s).addrs :=
    fun a ha => hperm.mem_iff.mpr (List.mem_append.mpr ha)
  have hdisj := (List.nodup_append.mp (hperm.nodup_iff.mp hw.nodup)).2.2
  refine
    { wf := hw.replace (fun a ha hne => ?_) hlink hrep hnd hsub hfresh hbst hctx hdata hlive
      keep := fun a ha hn => hkeep a ha (fun hs => hn (hmem a (.inl hs))) ?_
      addrs := fun a ha => ?_
      fresh := hfresh
      switch := hsw
      group := hgrp }
  · rcases ha with ha | rfl
    · exact hkeep a (hw.fresh a (hmem a (.inr ha))) (fun hs => hdisj a hs a ha rfl) hne
    · exact hkeep _ hw.maxFresh (fun hs => hw.maxNew (hmem _ (.inl hs))) hne
  · rintro rfl
    exact hn (hmem _ (.inr frame_mem))
  · rcases List.mem_append.mp ((addrs_plug (f :: c) s').mem_iff.mp ha) with ha | ha
    · exact (hsub a ha).imp (fun hs => hmem a (.inl hs)) (fun hs => hs.1)
    · exact .inl (hmem a (.inr ha))

/-! ### The sentinels -/

theorem wf_treeAlloc (h : Heap D) : Wf (treeAlloc h).1 (treeAlloc h).2
    (node h.fresh (sentinel keyMin none : Node D).info nil nil) where
  max := Function.update_self _ _ _
  maxNew := by simp [treeAlloc]
  maxFresh := Nat.lt_succ_self _
  root := rfl
  rep := by
    refine ⟨?_, trivial, trivial⟩
    have hne : h.fresh ≠ h.fresh + 1 := Nat.ne_of_lt (Nat.lt_succ_self _)
    simp only [treeAlloc, Heap.new, Function.update_of_ne hne, Function.update_self]
    rfl
  nodup := by simp
  fresh := by
    intro a ha
    obtain rfl : a = h.fresh := by simpa using ha
    exact Nat.lt_succ_of_lt (Nat.lt_succ_self _)
  bst := ⟨trivial, trivial, trivial⟩
  data := ⟨(fun h => nomatch h), trivial, trivial⟩
  live := by
    intro x hx
    obtain rfl : x = (h.fresh, (sentinel keyMin none : Node D).info) := by simpa [inorder] using hx
    exact ⟨rfl, fun _ => rfl⟩

/-! ### Insertion -/

/-- The leaf that an insertion adds. -/
abbrev newLeaf (k : Key) (d : D) (ex : Option Existence) : Info D := ⟨k, false, false, some d, ex⟩

theorem parentInsert_free (hp : h.node f.addr = f.cell none) (hk : f.here Info.key k)
    (ok : Bool) (new : Addr) :
    parentInsert ok h k f.addr new = some (h.setChild f.addr f.side (some new), .ok) := by
  unfold parentInsert
  rw [hp]
  cases hs : f.side with
  | left =>
    have hk' : k ≤ f.info.key := by simpa [Frame.here, hs] using hk
    simp [Frame.cell, hs, hk']
  | right =>
    have hk' : f.info.key < k := by simpa [Frame.here, hs] using hk
    simp [Frame.cell, hs, hk', not_le.mpr hk']

theorem parentInsert_frame (hp : (h.node f.addr) = f.cell (some b)) (hk : f.here Info.key k)
    (ok : Bool) (new : Addr) :
    parentInsert ok h k f.addr new =
      match newInternalNode ok h k b new with
      | none => some (h, .enomem)
      | some (h, newint) => some (h.setChild f.addr f.side (some newint), .ok) := by
  unfold parentInsert
  rw [hp]
  cases hs : f.side with
  | left =>
    have hk' : k ≤ f.info.key := by simpa [Frame.here, hs] using hk
    cases hnew : newInternalNode ok h k b new <;>
      simp [Frame.cell, Cell.child, hs, hk', not_lt.mpr hk', hnew]
  | right =>
    have hk' : f.info.key < k := by simpa [Frame.here, hs] using hk
    cases hnew : newInternalNode ok h k b new <;>
      simp [Frame.cell, Cell.child, hs, not_le.mpr hk', hnew]

/-- A new internal node between a leaf and a new one. -/
def internalCell (k : Key) (b : Addr) (i : Info D) (new : Addr) : Node D :=
  if i.key ≤ k then ⟨⟨i.key, false, false, none, none⟩, some b, some new⟩
  else ⟨⟨k, false, false, none, none⟩, some new, some b⟩

theorem newInternalNode_eq (hb : b ≠ h.fresh) (new : Addr) : newInternalNode true h k b new =
    some (h.new (internalCell k b (h.node b).info new), h.fresh) := by
  unfold newInternalNode allocTreenode internalCell
  simp only [if_true, Heap.new, Function.update_of_ne hb]
  split
  · simp [Heap.setInfo, Heap.setChild, Cell.setChild]
  · simp [Heap.setChild, Cell.setChild]

/-- What hangs below a new internal node. -/
def internalTree (k : Key) (b : Addr) (i : Info D) (a new : Addr) (j : Info D) : ITree D :=
  if i.key ≤ k then
    node a ⟨i.key, false, false, none, none⟩ (node b i nil nil) (node new j nil nil)
  else node a ⟨k, false, false, none, none⟩ (node new j nil nil) (node b i nil nil)

/-- The search is the same with a new node. -/
theorem Found.new (hf : Found h trp t k c b i l r) (hw : Wf h trp t) (n : Node D) :
    Wf (h.new n) trp t ∧ Found (h.new n) trp t k c b i l r := by
  have hnode : ∀ a < h.fresh, (h.new n).node a = h.node a := fun a ha =>
    Function.update_of_ne (ne_of_lt ha) _ _
  have hw' : Wf (h.new n) trp t := hw.congr hnode (Nat.le_succ _)
  obtain ⟨c', b', i', l', r', hf'⟩ := found hw' k
  have hloc := hf'.loc.symm.trans hf.loc
  obtain ⟨rfl, hn⟩ := Prod.mk.inj hloc
  obtain ⟨rfl, rfl, rfl, rfl⟩ := Tree.node.inj hn
  exact ⟨hw', hf'⟩

/-- The place below the end of a lookup. -/
theorem Found.frame (hf : Found h trp t k c b i l r) : ∃ f : Frame Addr (Info D), f.addr = b ∧
    f.info = i ∧ f.fill nil = node b i l r ∧ f.here Info.key k ∧ (f.sib = l ∨ f.sib = r) := by
  rcases le_or_gt k i.key with hk | hk
  · exact ⟨⟨b, i, .left, r⟩, rfl, rfl, by rw [hf.left hk]; rfl, hk, .inr rfl⟩
  · exact ⟨⟨b, i, .right, l⟩, rfl, rfl, by rw [hf.right hk]; rfl, hk, .inl rfl⟩

/-- A leaf goes where there is nothing. -/
theorem insert_free (hw : Wf h trp t) (hf : Found h trp t k c b i l r) (hd : hasData i = false)
    (ok : Bool) : ∃ h' t',
      parentInsert ok (h.new ⟨newLeaf k d ex, none, none⟩) k b h.fresh = some (h', .ok) ∧
      Upd h h' trp t t' ∧ ∀ x, Leaf t' x ↔ x = (h.fresh, newLeaf k d ex) ∨ Leaf t x := by
  obtain ⟨f, rfl, rfl, hfill, hhere, hsib⟩ := hf.frame
  have ht : Bst.plug (f :: c) nil = t := by rw [Bst.plug, hfill, hf.plug]
  obtain ⟨hctx, hbdata⟩ := hf.dataLeaf hw
  rw [← ht] at hw ⊢
  have hcell : h.node f.addr = f.cell none := (rep_plug.mp hw.rep).1.1
  have hfa : f.addr < h.fresh := hw.fresh _ ((addrs_plug (f :: c) nil).mem_iff.mpr
    (List.mem_append.mpr (.inr frame_mem)))
  have hcell' : (h.new ⟨newLeaf k d ex, none, none⟩).node f.addr = f.cell none :=
    (Function.update_of_ne (ne_of_lt hfa) _ _).trans hcell
  refine ⟨_, Bst.plug (f :: c) (node h.fresh (newLeaf k d ex) nil nil),
    parentInsert_free hcell' hhere ok _, hw.upd ?_ ?_ ?_ ?_ ?_ ?_ ?_ ?_ ?_ ?_ rfl rfl, fun x => ?_⟩
  · intro a ha _ hne
    simp only [Heap.setChild, Heap.new, Function.update_of_ne hne, Function.update_of_ne (ne_of_lt ha)]
  · simp only [Heap.setChild, Heap.new, Function.update_self, Function.update_of_ne (ne_of_lt hfa), ptr]
  · refine ⟨?_, trivial, trivial⟩
    simp only [Heap.setChild, Heap.new, Function.update_of_ne (ne_of_gt hfa), Function.update_self, ptr]
  · simp
  · intro a ha
    obtain rfl : a = h.fresh := by simpa using ha
    exact .inr ⟨le_rfl, Nat.lt_succ_self _⟩
  · exact Nat.le_succ _
  · exact ⟨⟨hf.bound, hhere⟩, trivial, trivial⟩
  · intro g hg
    rcases List.mem_cons.mp hg with rfl | hg
    · refine ⟨hd, ?_⟩
      rcases hsib with hs | hs
      · exact hs ▸ hbdata.2.1
      · exact hs ▸ hbdata.2.2
    · exact hctx g hg
  · exact ⟨fun _ => ⟨rfl, rfl⟩, trivial, trivial⟩
  · intro x hx
    obtain rfl : x = (h.fresh, newLeaf k d ex) := by simpa [inorder] using hx
    exact ⟨rfl, fun h => by cases h⟩
  · rw [leaf_plug, leaf_plug]
    have hnil : ¬ Leaf (nil : ITree D) x := fun h => by cases h.1
    rw [leaf_node rfl]
    tauto

/-- A leaf with data is not the root. -/
theorem Found.above (hw : Wf h trp t) (hf : Found h trp t k c b i l r) (hd : hasData i = true) :
    ∃ f c', c = f :: c' ∧ l = nil ∧ r = nil ∧ h.node f.addr = f.cell (some b) ∧
      h.node b = ⟨i, none, none⟩ ∧ f.here Info.key k ∧ b ∉ ctxAddrs (f :: c') := by
  obtain ⟨hl, hr⟩ := (hf.dataLeaf hw).2.1 hd
  subst hl hr
  cases c with
  | nil =>
    have hroot := hw.root
    rw [← hf.plug, Bst.plug, rootOf, Option.some.injEq, Prod.mk.injEq] at hroot
    rw [hroot.2] at hd
    cases hd
  | cons f c' =>
    have hrep := hf.plug.symm ▸ hw.rep
    refine ⟨f, c', rfl, rfl, rfl, (rep_plug.mp hrep).1.1, hf.cell, hf.bound.2, ?_⟩
    have hnd := (addrs_plug (f :: c') (node b i nil nil)).nodup_iff.mp (hf.plug.symm ▸ hw.nodup)
    exact fun hb => (List.nodup_append.mp hnd).2.2 b (by simp) b hb rfl

/-- The leaves but the one where the lookup ends. -/
theorem Found.leaf_iff_ctx (hf : Found h trp t k c b i nil nil) (hd : hasData i = true)
    (hb : b ∉ ctxAddrs c) {y : Addr × Info D} :
    ((y ∈ before c ∨ y ∈ after c) ∧ hasData y.2 = true) ↔ Leaf t y ∧ y ≠ (b, i) := by
  have ht := leaf_plug (c := c) (s := node b i nil nil) (x := y)
  rw [hf.plug, leaf_node hd] at ht
  have hne : y ∈ before c ∨ y ∈ after c → y ≠ (b, i) := by
    rintro hy rfl
    exact hb (List.mem_append.mpr (hy.imp (fun h => List.mem_map.mpr ⟨_, h, rfl⟩)
      fun h => List.mem_map.mpr ⟨_, h, rfl⟩))
  tauto

/-- A leaf with another key gets a new internal node above, with the new leaf beside it. -/
theorem insert_beside (hw : Wf h trp t) (hf : Found h trp t k c b i l r) (hd : hasData i = true)
    (hk : i.key ≠ k) : ∃ h' t',
      parentInsert true (h.new ⟨newLeaf k d ex, none, none⟩) k (parentOf trp.max c) h.fresh =
        some (h', .ok) ∧
      Upd h h' trp t t' ∧ ∀ x, Leaf t' x ↔ x = (h.fresh, newLeaf k d ex) ∨ Leaf t x := by
  obtain ⟨f, c, rfl, rfl, rfl, hfcell, hbcell, hhere, hbc⟩ := hf.above hw hd
  have hbf : b ≠ f.addr := fun he => hbc (he ▸ frame_mem)
  have hctx := (hf.dataLeaf hw).1
  have hlive := hw.live _ hf.inTree
  have hb : b < h.fresh := hw.fresh _ (List.mem_map.mpr ⟨_, hf.inTree, rfl⟩)
  rw [← hf.plug] at hw ⊢
  have hbst := (bst_plug.mp hw.bst).2
  have hfa : f.addr < h.fresh := hw.fresh _ ((addrs_plug (f :: c) _).mem_iff.mpr
    (List.mem_append.mpr (.inr frame_mem)))
  set h₁ : Heap D := h.new ⟨newLeaf k d ex, none, none⟩ with hh₁
  have hfresh₁ : h₁.fresh = h.fresh + 1 := rfl
  have hbcell₁ : h₁.node b = ⟨i, none, none⟩ :=
    (Function.update_of_ne (ne_of_lt hb) _ _).trans hbcell
  have hfcell₁ : h₁.node f.addr = f.cell (some b) :=
    (Function.update_of_ne (ne_of_lt hfa) _ _).trans hfcell
  have hnew₁ : h₁.node h.fresh = ⟨newLeaf k d ex, none, none⟩ := Function.update_self _ _ _
  have hins := parentInsert_frame hfcell₁ hhere true h.fresh
  have hb₁ : b ≠ h₁.fresh := ne_of_lt (Nat.lt_succ_of_lt hb)
  have hfa₁ : f.addr ≠ h₁.fresh := ne_of_lt (Nat.lt_succ_of_lt hfa)
  have hn₁ : h.fresh ≠ h₁.fresh := ne_of_lt (Nat.lt_succ_self h.fresh)
  rw [newInternalNode_eq hb₁, hbcell₁] at hins
  refine ⟨_, Bst.plug (f :: c) (internalTree k b i h₁.fresh h.fresh (newLeaf k d ex)), hins,
    hw.upd ?_ ?_ ?_ ?_ ?_ ?_ ?_ hctx ?_ ?_ rfl rfl, fun x => ?_⟩
  · intro a ha hs hne
    have ha₁ : a ≠ h₁.fresh := ne_of_lt (Nat.lt_succ_of_lt ha)
    simp only [Heap.setChild, Heap.new, Function.update_of_ne hne, Function.update_of_ne ha₁]
    exact Function.update_of_ne (ne_of_lt ha) _ _
  · simp only [Heap.setChild, Heap.new, Function.update_self, Function.update_of_ne hfa₁]
    rw [hfcell₁, hfcell]
    unfold internalTree
    split <;> rfl
  · have hnode : ∀ a, a ≠ f.addr → ((h₁.new (internalCell k b i h.fresh)).setChild f.addr f.side
        (some h₁.fresh)).node a = Function.update h₁.node h₁.fresh (internalCell k b i h.fresh) a :=
      fun a ha => Function.update_of_ne ha _ _
    have hbn := (hnode b hbf).trans (Function.update_of_ne hb₁ _ _)
    have hnn := (hnode h.fresh (ne_of_gt hfa)).trans (Function.update_of_ne hn₁ _ _)
    have hin := (hnode h₁.fresh hfa₁.symm).trans (Function.update_self _ _ _)
    rw [hbcell₁] at hbn
    rw [hnew₁] at hnn
    unfold internalCell at hin hbn hnn
    unfold internalTree internalCell
    split at hin <;> rename_i hle <;> simp only [hle, if_true, if_false] at hbn hnn ⊢
    · exact ⟨hin, ⟨hbn, trivial, trivial⟩, hnn, trivial, trivial⟩
    · exact ⟨hin, ⟨hnn, trivial, trivial⟩, hbn, trivial, trivial⟩
  · unfold internalTree
    split <;> simp [hb₁, hn₁, hb₁.symm, hn₁.symm, ne_of_lt hb, ne_of_gt hb]
  · intro a ha
    have : a = b ∨ a = h.fresh ∨ a = h₁.fresh := by
      unfold internalTree at ha
      split at ha <;> simp at ha <;> tauto
    rcases this with rfl | rfl | rfl
    · exact .inl (by simp)
    · exact .inr ⟨le_rfl, Nat.lt_succ_of_lt (Nat.lt_succ_self _)⟩
    · exact .inr ⟨Nat.le_succ _, Nat.lt_succ_self _⟩
  · exact le_trans (Nat.le_succ _) (Nat.le_succ _)
  · unfold internalTree
    split
    · rename_i hle
      exact ⟨hbst.1, ⟨⟨hbst.1, le_rfl⟩, trivial, trivial⟩, ⟨hf.bound, lt_of_le_of_ne hle hk⟩, trivial,
        trivial⟩
    · rename_i hle
      exact ⟨hf.bound, ⟨⟨hf.bound, le_rfl⟩, trivial, trivial⟩, ⟨hbst.1, not_le.mp hle⟩, trivial,
        trivial⟩
  · have hleaf : ∀ (a : Addr) (j : Info D), DataLeaf hasData (node a j nil nil) := fun _ _ =>
      ⟨fun _ => ⟨rfl, rfl⟩, trivial, trivial⟩
    unfold internalTree
    split
    · exact ⟨(fun hd => by cases hd), hleaf _ _, hleaf _ _⟩
    · exact ⟨(fun hd => by cases hd), hleaf _ _, hleaf _ _⟩
  · intro x hx
    unfold internalTree at hx
    split at hx <;> simp [inorder] at hx <;> rcases hx with rfl | rfl | rfl
    all_goals first | exact hlive | exact ⟨rfl, fun _ => rfl⟩ | exact ⟨rfl, fun h => by cases h⟩
  · rw [leaf_plug, leaf_plug, ← or_assoc]
    refine or_congr_left ?_
    rw [leaf_node hd]
    unfold Leaf internalTree
    split <;> simp only [inorder, List.nil_append, List.cons_append, List.mem_cons, List.not_mem_nil,
      or_false]
    all_goals
      constructor
      · rintro ⟨rfl | rfl | rfl, hx⟩ <;> first | exact .inl rfl | exact .inr rfl | cases hx
      · rintro (rfl | rfl)
        · exact ⟨by tauto, rfl⟩
        · exact ⟨by tauto, hd⟩

/-- **An insertion** adds a leaf, or fails for want of memory and changes nothing. -/
theorem insert_upd (hw : Wf h trp t) (hno : ∀ x, Leaf t x → x.2.key ≠ k) (d : D)
    (ex : Option Existence) (okNew okInt wait : Bool) :
    ∃ h' code, treeInsertExistence okNew okInt h trp k d ex wait = .ret (h', code) ∧
      ((code = .ok ∧ ∃ t', Upd h h' trp t t' ∧
          ∀ x, Leaf t' x ↔ x = (h.fresh, newLeaf k d ex) ∨ Leaf t x) ∨
        (code = .enomem ∧ Upd h h' trp t t ∧ (okNew && okInt) = false)) := by
  cases hok : okNew with
  | false => exact ⟨h, .enomem, rfl, .inr ⟨rfl, hw.upd_same (fun _ _ => rfl) le_rfl rfl rfl, rfl⟩⟩
  | true =>
    obtain ⟨c, b, i, l, r, hf⟩ := found hw k
    obtain ⟨hw₁, hf₁⟩ := hf.new hw ⟨newLeaf k d ex, none, none⟩
    have hsame : Upd h (h.new ⟨newLeaf k d ex, none, none⟩) trp t t :=
      hw.upd_same (fun a ha => Function.update_of_ne (ne_of_lt ha) _ _) (Nat.le_succ _) rfl rfl
    unfold treeInsertExistence allocTreenode
    simp only [if_true, hf₁.look, hf₁.notRaced, hf₁.leaf_eq hw₁, hf₁.not_grew, Bool.false_eq_true,
      if_false, Bool.true_and]
    cases hd : hasData i with
    | false =>
      obtain ⟨h', t', hins, hupd, hleaf⟩ := insert_free hw hf hd okInt
      refine ⟨h', .ok, ?_, .inl ⟨rfl, t', hupd, hleaf⟩⟩
      simp only [Bool.false_eq_true, if_false, hins, Out.ofOption]
    | true =>
      have hk : i.key ≠ k := hno _ ⟨hf.inTree, hd⟩
      have hk₁ : ((h.new ⟨newLeaf k d ex, none, none⟩).node b).info.key ≠ k := by
        rw [hf₁.cell]
        exact hk
      cases hint : okInt with
      | true =>
        obtain ⟨h', t', hins, hupd, hleaf⟩ := insert_beside hw hf hd hk
        refine ⟨h', .ok, ?_, .inl ⟨rfl, t', hupd, hleaf⟩⟩
        simp only [if_true, if_neg hk₁, hins, Out.ofOption]
      | false =>
        obtain ⟨f, c', rfl, -, -, hfcell, -, hhere, -⟩ := hf₁.above hw₁ hd
        have hins := parentInsert_frame hfcell hhere false h.fresh
        refine ⟨_, .enomem, ?_, .inr ⟨rfl, hsame, rfl⟩⟩
        simp only [if_true, if_neg hk₁, parentOf, hins]
        rfl

/-- Insertion where the key is present: nothing changes. -/
theorem insert_same (hw : Wf h trp t) {x : Addr × Info D} (hx : Leaf t x) (hk : x.2.key = k) (d : D)
    (ex : Option Existence) (okNew okInt wait : Bool) : ∃ h', Upd h h' trp t t ∧
      treeInsertExistence okNew okInt h trp k d ex wait =
        if okNew then
          if x.2.existence = none then .ret (h', .eexist)
          else if wait then .retry else .ret (h', .ebusy)
        else .ret (h', .enomem) := by
  cases hok : okNew with
  | false => exact ⟨h, hw.upd_same (fun _ _ => rfl) le_rfl rfl rfl, rfl⟩
  | true =>
    obtain ⟨c, b, i, l, r, hf⟩ := found hw k
    obtain ⟨rfl, hd, hki⟩ := (hf.leaf_iff hw).mp ⟨hx, hk⟩
    obtain ⟨hw₁, hf₁⟩ := hf.new hw ⟨newLeaf k d ex, none, none⟩
    refine ⟨h.new ⟨newLeaf k d ex, none, none⟩,
      hw.upd_same (fun a ha => Function.update_of_ne (ne_of_lt ha) _ _) (Nat.le_succ _) rfl rfl, ?_⟩
    unfold treeInsertExistence allocTreenode
    simp only [if_true, hf₁.look, hf₁.notRaced, hf₁.leaf_eq hw₁, Bool.false_eq_true, if_false, hd]
    rw [hf₁.cell, if_pos hki]
    by_cases he : i.existence = none
    · simp [he]
    · simp [he]

/-! ### Deletion -/

theorem unlink_eq (hcell : h.node f.addr = f.cell (some b)) (hsib : f.sib.ptr ≠ some b) :
    unlink h f.addr b = some (h.setChild f.addr f.side none) := by
  unfold unlink
  rw [hcell]
  cases hs : f.side with
  | left => simp [Frame.cell, hs]
  | right => simp [Frame.cell, hs, hsib]

/-- **A deletion** of a leaf with the key and the existence pointer. -/
theorem delete_upd (hw : Wf h trp t) {x : Addr × Info D} (hx : Leaf t x) (hk : x.2.key = k)
    (wait : Bool) : ∃ h' t',
      treeDeleteExistence h trp k x.2.existence wait = .ret (h', .ok, x.2.data) ∧
      Upd h h' trp t t' ∧ ∀ y, Leaf t' y ↔ Leaf t y ∧ y ≠ x := by
  obtain ⟨c, b, i, l, r, hf⟩ := found hw k
  obtain ⟨rfl, hd, hki⟩ := (hf.leaf_iff hw).mp ⟨hx, hk⟩
  have hleaf := hf.leaf_eq hw
  obtain ⟨f, c, rfl, rfl, rfl, hfcell, hbcell, hhere, hbc⟩ := hf.above hw hd
  have hlook : treeLookupNode h trp k = some (f.addr, b) := hf.look
  have hraced : raced h f.addr b = false := hf.notRaced
  have hbf : b ≠ f.addr := fun he => hbc (he ▸ frame_mem)
  have hsib : f.sib.ptr ≠ some b := fun hp => hbc ((ctxAddrs_cons f c).mem_iff.mpr
    (List.mem_append_left _ (List.mem_cons_of_mem _ (ptr_mem hp))))
  have hctx := (hf.dataLeaf hw).1
  have hempty : treeEmptyNode (h.node b) = false := by
    have : i.data.isSome = true := hd
    rw [hbcell]
    cases hdi : i.data <;> simp_all [treeEmptyNode]
  have hun := unlink_eq hfcell hsib
  refine ⟨markDeleted (h.setChild f.addr f.side none) b, Bst.plug (f :: c) nil, ?_, ?_, fun y => ?_⟩
  · unfold treeDeleteExistence
    simp only [hlook, hraced, hempty, hleaf, hd, hun, Bool.false_eq_true, if_false]
    simp [hbcell, hki]
  · rw [← hf.plug] at hw ⊢
    refine hw.upd (fun a _ has hne => ?_) ?_ trivial List.nodup_nil (fun a ha => ?_) le_rfl trivial
      hctx trivial (fun y hy => ?_) rfl rfl
    · have hab : a ≠ b := by simpa using has
      simp only [markDeleted, Heap.setInfo, Heap.setChild, Function.update_of_ne hab,
        Function.update_of_ne hne]
    · simp only [markDeleted, Heap.setInfo, Heap.setChild, Function.update_of_ne hbf.symm,
        Function.update_self, ptr]
    · cases ha
    · cases hy
  · have hnil : ¬ Leaf (nil : ITree D) y := fun h => by cases h.1
    rw [leaf_plug, hf.leaf_iff_ctx hd hbc]
    tauto

/-- A deletion of a key that is not there, with no existence pointer in the tree. -/
theorem delete_none (hw : Wf h trp t) (hno : ∀ x, Leaf t x → x.2.key ≠ k)
    (hplain : ∀ x, Leaf t x → x.2.existence = none) (wait : Bool) :
    treeDeleteExistence h trp k none wait = .ret (h, .enoent, none) := by
  obtain ⟨c, b, i, l, r, hf⟩ := found hw k
  have hgrew := hf.not_grew
  have hleaf := hf.leaf_eq hw
  have he : i.existence = none := by
    cases hd : hasData i with
    | false => exact (hw.live _ hf.inTree).2 hd
    | true => exact hplain _ ⟨hf.inTree, hd⟩
  unfold treeDeleteExistence
  simp only [hf.look, hf.notRaced, hleaf, hgrew, Bool.false_eq_true, if_false]
  rw [hf.cell] at hleaf ⊢
  cases hd : hasData i with
  | false => simp [he]
  | true =>
    have hk : i.key ≠ k := hno _ ⟨hf.inTree, hd⟩
    simp [he, hk]

/-! ### Existence pointers -/

/-- **A store to the existence pointer** of a leaf. -/
theorem setExistence_upd (hw : Wf h trp t) (hx : Leaf t (b, i)) (ex : Option Existence) :
    ∃ t', Upd h (h.setInfo b { i with existence := ex }) trp t t' ∧
      ∀ y, Leaf t' y ↔ y = (b, { i with existence := ex }) ∨ (Leaf t y ∧ y ≠ (b, i)) := by
  obtain ⟨c, b', i', l, r, hf⟩ := found hw i.key
  obtain ⟨he, hd, -⟩ := (hf.leaf_iff hw).mp ⟨hx, rfl⟩
  obtain ⟨rfl, rfl⟩ := Prod.mk.inj he
  obtain ⟨f, c, rfl, rfl, rfl, hfcell, hbcell, hhere, hbc⟩ := hf.above hw hd
  have hbf : b ≠ f.addr := fun he => hbc (he ▸ frame_mem)
  have hctx := (hf.dataLeaf hw).1
  have hlive := (hw.live _ hf.inTree).1
  have hd' : hasData ({ i with existence := ex } : Info D) = true := hd
  refine ⟨Bst.plug (f :: c) (node b { i with existence := ex } nil nil), ?_, fun y => ?_⟩
  · rw [← hf.plug] at hw ⊢
    have hbst := (bst_plug.mp hw.bst).2
    refine hw.upd (fun a _ has hne => ?_) ?_ ⟨?_, trivial, trivial⟩ (by simp) (fun a ha => .inl ?_)
      le_rfl ⟨hbst.1, trivial, trivial⟩ hctx ⟨fun _ => ⟨rfl, rfl⟩, trivial, trivial⟩ (fun y hy => ?_)
      rfl rfl
    · have hab : a ≠ b := by simpa using has
      exact Function.update_of_ne hab _ _
    · rw [hfcell, ptr, setChild_cell, ← hfcell]
      exact Function.update_of_ne hbf.symm _ _
    · simp only [Heap.setInfo, Function.update_self, hbcell, ptr]
    · simpa using ha
    · obtain rfl : y = (b, { i with existence := ex }) := by simpa [inorder] using hy
      exact ⟨hlive, fun h => absurd (h.symm.trans hd') (by decide)⟩
  · rw [leaf_plug, leaf_node hd', hf.leaf_iff_ctx hd hbc]

end Issaquah
end Perfbook
