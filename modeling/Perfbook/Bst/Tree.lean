/-
# Binary search trees in memory

A tree in memory is a cell for each node, with links to its children; `Rep` says
that the memory holds a given tree. A place in a tree is a context, the frames
from the place up to the root (`Frame`), and what hangs there: the tree is
`plug c t`. A store to the link at a place changes what hangs there, and
nothing else (`RepCtx.set`).

The key of a node is at least those in its left subtree and below those in
its right one (`Bst`). A search goes down from a place until there is no child
on the side of the key (`locate`). Only nodes without children carry data
(`DataLeaf`), so a node with data and a given key is where the search for the
key ends (`locate_eq`).

Key definitions: `Cell`, `Tree`, `Frame`, `plug`, `Rep`, `Bst`, `DataLeaf`, `locate`.
Key theorems: `rep_plug`, `RepCtx.set`, `bst_plug`, `inorder_plug`, `locate_eq`.
-/
import Mathlib.Data.List.Nodup
import Mathlib.Data.List.Perm.Basic
import Mathlib.Logic.Function.Basic
import Mathlib.Order.Defs.LinearOrder
import Mathlib.Order.Lattice

namespace Perfbook
namespace Bst

/-- The two links of a node. -/
inductive Side
  | left
  | right
deriving DecidableEq

/-- A node in memory: what it carries, and its links. -/
structure Cell (A I : Type*) where
  info : I
  lc : Option A
  rc : Option A

inductive Tree (A I : Type*)
  | nil
  | node (a : A) (i : I) (l r : Tree A I)

/-- A node above a place: the place is below its link `side`, `sib` is below the other one. -/
structure Frame (A I : Type*) where
  addr : A
  info : I
  side : Side
  sib : Tree A I

variable {A I K : Type*}

/-! ### Cells -/

def Cell.child (c : Cell A I) : Side → Option A
  | .left => c.lc
  | .right => c.rc

def Cell.setChild (c : Cell A I) (d : Side) (p : Option A) : Cell A I :=
  match d with
  | .left => { c with lc := p }
  | .right => { c with rc := p }

@[simp] theorem setChild_info (c : Cell A I) (d : Side) (p : Option A) :
    (c.setChild d p).info = c.info := by
  cases d <;> rfl

/-! ### Trees and contexts -/

namespace Tree

/-- The link to the tree. -/
def ptr : Tree A I → Option A
  | nil => none
  | node a _ _ _ => some a

def isNil : Tree A I → Bool
  | nil => true
  | node _ _ _ _ => false

/-- The nodes from left to right. -/
def inorder : Tree A I → List (A × I)
  | nil => []
  | node a i l r => inorder l ++ (a, i) :: inorder r

def addrs (t : Tree A I) : List A := t.inorder.map Prod.fst

@[simp] theorem ptr_nil : (nil : Tree A I).ptr = none := rfl

@[simp] theorem ptr_node (a : A) (i : I) (l r : Tree A I) : (node a i l r).ptr = some a := rfl

@[simp] theorem addrs_nil : (nil : Tree A I).addrs = [] := rfl

@[simp] theorem addrs_node (a : A) (i : I) (l r : Tree A I) :
    (node a i l r).addrs = l.addrs ++ a :: r.addrs := by
  simp [addrs, inorder]

theorem ptr_mem {t : Tree A I} {a : A} (h : t.ptr = some a) : a ∈ t.addrs := by
  cases t with
  | nil => cases h
  | node b i l r =>
    obtain rfl := Option.some.inj h
    simp

end Tree

open Tree

/-- A node with the place below `f.side`. -/
def Frame.fill (f : Frame A I) (t : Tree A I) : Tree A I :=
  match f.side with
  | .left => .node f.addr f.info t f.sib
  | .right => .node f.addr f.info f.sib t

/-- The cell of the node, with the link `p` to the place. -/
def Frame.cell (f : Frame A I) (p : Option A) : Cell A I :=
  match f.side with
  | .left => ⟨f.info, p, f.sib.ptr⟩
  | .right => ⟨f.info, f.sib.ptr, p⟩

/-- The tree with `t` at the place. -/
def plug : List (Frame A I) → Tree A I → Tree A I
  | [], t => t
  | f :: c, t => plug c (f.fill t)

/-- What is left and right of the place. -/
def before : List (Frame A I) → List (A × I)
  | [] => []
  | f :: c =>
    match f.side with
    | .left => before c
    | .right => before c ++ (f.sib.inorder ++ [(f.addr, f.info)])

def after : List (Frame A I) → List (A × I)
  | [] => []
  | f :: c =>
    match f.side with
    | .left => (f.addr, f.info) :: f.sib.inorder ++ after c
    | .right => after c

/-- The nodes of the tree outside of the place. -/
def ctxAddrs (c : List (Frame A I)) : List A := (before c).map Prod.fst ++ (after c).map Prod.fst

theorem inorder_plug : ∀ (c : List (Frame A I)) (t : Tree A I),
    (plug c t).inorder = before c ++ t.inorder ++ after c
  | [], t => by simp [plug, before, after]
  | f :: c, t => by
    rw [plug, inorder_plug c]
    cases hs : f.side with
    | left => simp [Frame.fill, hs, inorder, before, after]
    | right => simp [Frame.fill, hs, inorder, before, after]

theorem addrs_plug (c : List (Frame A I)) (t : Tree A I) :
    (plug c t).addrs.Perm (t.addrs ++ ctxAddrs c) := by
  unfold addrs ctxAddrs
  rw [inorder_plug, List.map_append, List.map_append, List.append_assoc, ← List.append_assoc _ _ (List.map _ _)]
  rw [← List.append_assoc]
  exact (List.perm_append_comm).append_right _

theorem mem_plug {c : List (Frame A I)} {t : Tree A I} {x : A × I} :
    x ∈ (plug c t).inorder ↔ x ∈ t.inorder ∨ x ∈ before c ∨ x ∈ after c := by
  rw [inorder_plug, List.mem_append, List.mem_append]
  tauto

theorem frame_mem {f : Frame A I} {c : List (Frame A I)} : f.addr ∈ ctxAddrs (f :: c) := by
  cases hs : f.side <;> simp [ctxAddrs, before, after, hs]

theorem ctxAddrs_cons (f : Frame A I) (c : List (Frame A I)) :
    (ctxAddrs (f :: c)).Perm (f.addr :: f.sib.addrs ++ ctxAddrs c) := by
  unfold ctxAddrs addrs
  cases hs : f.side with
  | left =>
    simp only [before, after, hs, List.map_append, List.map_cons]
    exact (List.perm_append_comm_assoc _ _ _)
  | right =>
    simp only [before, after, hs, List.map_append, List.map_cons, List.map_nil]
    rw [List.append_assoc]
    refine (List.perm_append_comm_assoc _ _ _).trans ?_
    exact (List.perm_append_singleton _ _).append_right _

/-! ### Representation -/

/-- The memory holds the tree. -/
def Rep (mem : A → Cell A I) : Tree A I → Prop
  | nil => True
  | node a i l r => mem a = ⟨i, l.ptr, r.ptr⟩ ∧ Rep mem l ∧ Rep mem r

/-- The memory holds the context, with the link `p` to the place. -/
def RepCtx (mem : A → Cell A I) : Option A → List (Frame A I) → Prop
  | _, [] => True
  | p, f :: c => mem f.addr = f.cell p ∧ Rep mem f.sib ∧ RepCtx mem (some f.addr) c

variable {mem mem' : A → Cell A I} {t : Tree A I} {c : List (Frame A I)} {f : Frame A I}
  {p q : Option A}

@[simp] theorem fill_ptr (f : Frame A I) (t : Tree A I) : (f.fill t).ptr = some f.addr := by
  unfold Frame.fill
  split <;> rfl

theorem rep_fill : Rep mem (f.fill t) ↔ mem f.addr = f.cell t.ptr ∧ Rep mem f.sib ∧ Rep mem t := by
  unfold Frame.fill Frame.cell
  cases f.side with
  | left => exact and_congr_right fun _ => and_comm
  | right => exact Iff.rfl

theorem rep_plug : ∀ {c : List (Frame A I)} {t : Tree A I},
    Rep mem (plug c t) ↔ RepCtx mem t.ptr c ∧ Rep mem t
  | [], t => by simp [plug, RepCtx]
  | f :: c, t => by
    rw [plug, rep_plug (c := c), rep_fill, fill_ptr, RepCtx]
    tauto

/-- A tree depends on its own nodes. -/
theorem Rep.congr : ∀ {t : Tree A I}, Rep mem t → (∀ a ∈ t.addrs, mem' a = mem a) → Rep mem' t
  | nil, _, _ => trivial
  | node a i l r, h, he => by
    simp only [addrs_node, List.mem_append, List.mem_cons] at he
    exact ⟨(he a (.inr (.inl rfl))).trans h.1, h.2.1.congr fun b hb => he b (.inl hb),
      h.2.2.congr fun b hb => he b (.inr (.inr hb))⟩

theorem RepCtx.congr : ∀ {c : List (Frame A I)} {p : Option A}, RepCtx mem p c →
    (∀ a ∈ ctxAddrs c, mem' a = mem a) → RepCtx mem' p c
  | [], _, _, _ => trivial
  | f :: c, p, h, he => by
    have he' : ∀ a ∈ f.addr :: f.sib.addrs ++ ctxAddrs c, mem' a = mem a := fun a ha =>
      he a ((ctxAddrs_cons f c).mem_iff.mpr ha)
    simp only [List.cons_append, List.mem_cons, List.mem_append] at he'
    exact ⟨(he' _ (.inl rfl)).trans h.1, h.2.1.congr fun b hb => he' b (.inr (.inl hb)),
      h.2.2.congr fun b hb => he' b (.inr (.inr hb))⟩

theorem setChild_cell : (f.cell p).setChild f.side q = f.cell q := by
  unfold Frame.cell Cell.setChild
  cases f.side <;> rfl

/-- **A store to the link at a place** changes what hangs there. -/
theorem RepCtx.set [DecidableEq A] (h : RepCtx mem p (f :: c)) (hn : (ctxAddrs (f :: c)).Nodup) :
    RepCtx (Function.update mem f.addr ((mem f.addr).setChild f.side q)) q (f :: c) := by
  have hn' := (ctxAddrs_cons f c).nodup_iff.mp hn
  rw [List.cons_append, List.nodup_cons, List.mem_append, not_or] at hn'
  have hne : ∀ {a}, a ≠ f.addr →
      Function.update mem f.addr ((mem f.addr).setChild f.side q) a = mem a := fun ha =>
    Function.update_of_ne ha _ _
  refine ⟨?_, h.2.1.congr fun a ha => hne ?_, h.2.2.congr fun a ha => hne ?_⟩
  · rw [Function.update_self, h.1, setChild_cell]
  · exact ne_of_mem_of_not_mem ha hn'.1.1
  · exact ne_of_mem_of_not_mem ha hn'.1.2

/-! ### The order -/

section Order

variable [LinearOrder K] (key : I → K)

/-- The keys meet `P`, and are ordered by the nodes. -/
def Bst : (K → Prop) → Tree A I → Prop
  | _, nil => True
  | P, node _ i l r =>
    P (key i) ∧ Bst (fun k => P k ∧ k ≤ key i) l ∧ Bst (fun k => P k ∧ key i < k) r

/-- What the keys at the other side of a node must meet. -/
def Frame.other (f : Frame A I) (k : K) : Prop :=
  match f.side with
  | .left => key f.info < k
  | .right => k ≤ key f.info

/-- What the keys at a place must meet. -/
def Frame.here (f : Frame A I) (k : K) : Prop :=
  match f.side with
  | .left => k ≤ key f.info
  | .right => key f.info < k

def Bound (P : K → Prop) : List (Frame A I) → K → Prop
  | [], k => P k
  | f :: c, k => Bound P c k ∧ f.here key k

def BstCtx (P : K → Prop) : List (Frame A I) → Prop
  | [] => True
  | f :: c => Bound key P c (key f.info) ∧ Bst key (fun k => Bound key P c k ∧ f.other key k) f.sib ∧
    BstCtx P c

variable {key} {P : K → Prop}

theorem bst_fill {Q : K → Prop} : Bst key Q (f.fill t) ↔
    Q (key f.info) ∧ Bst key (fun k => Q k ∧ f.other key k) f.sib ∧
      Bst key (fun k => Q k ∧ f.here key k) t := by
  unfold Frame.fill Frame.other Frame.here
  cases f.side with
  | left => exact and_congr_right fun _ => and_comm
  | right => exact Iff.rfl

theorem bst_plug : ∀ {c : List (Frame A I)} {t : Tree A I},
    Bst key P (plug c t) ↔ BstCtx key P c ∧ Bst key (Bound key P c) t
  | [], t => by simp [plug, BstCtx, Bound]
  | f :: c, t => by
    rw [plug, bst_plug (c := c), bst_fill, BstCtx]
    exact ⟨fun ⟨h₁, h₂, h₃, h₄⟩ => ⟨⟨h₂, h₃, h₁⟩, h₄⟩, fun ⟨⟨h₂, h₃, h₁⟩, h₄⟩ => ⟨h₁, h₂, h₃, h₄⟩⟩

theorem Bst.imp : ∀ {t : Tree A I} {P Q : K → Prop}, (∀ k, P k → Q k) → Bst key P t → Bst key Q t
  | nil, _, _, _, _ => trivial
  | node _ _ _ _, _, _, hpq, h =>
    ⟨hpq _ h.1, h.2.1.imp fun _ hk => ⟨hpq _ hk.1, hk.2⟩, h.2.2.imp fun _ hk => ⟨hpq _ hk.1, hk.2⟩⟩

/-- The keys of the nodes meet the bound. -/
theorem bst_mem : ∀ {t : Tree A I} {P : K → Prop}, Bst key P t → ∀ x ∈ t.inorder, P (key x.2)
  | nil, _, _, _, hx => by cases hx
  | node a i l r, P, h, x, hx => by
    rw [inorder, List.mem_append, List.mem_cons] at hx
    rcases hx with hx | rfl | hx
    · exact (bst_mem h.2.1 x hx).1
    · exact h.1
    · exact (bst_mem h.2.2 x hx).1

end Order

/-! ### Data -/

section Data

variable (hasData : I → Bool)

/-- Only nodes without children carry data. -/
def DataLeaf : Tree A I → Prop
  | nil => True
  | node _ i l r => (hasData i = true → l = nil ∧ r = nil) ∧ DataLeaf l ∧ DataLeaf r

def DataLeafCtx (c : List (Frame A I)) : Prop :=
  ∀ f ∈ c, hasData f.info = false ∧ DataLeaf hasData f.sib

variable {hasData}

theorem dataLeaf_fill (hf : hasData f.info = false ∧ DataLeaf hasData f.sib)
    (ht : DataLeaf hasData t) : DataLeaf hasData (f.fill t) := by
  unfold Frame.fill
  cases f.side with
  | left => exact ⟨fun h => absurd h (Bool.eq_false_iff.mp hf.1), ht, hf.2⟩
  | right => exact ⟨fun h => absurd h (Bool.eq_false_iff.mp hf.1), hf.2, ht⟩

theorem dataLeaf_plug : ∀ {c : List (Frame A I)} {t : Tree A I}, DataLeafCtx hasData c →
    DataLeaf hasData t → DataLeaf hasData (plug c t)
  | [], _, _, ht => ht
  | f :: c, _, hc, ht =>
    dataLeaf_plug (c := c) (fun g hg => hc g (List.mem_cons_of_mem f hg))
      (dataLeaf_fill (hc f List.mem_cons_self) ht)

theorem dataLeaf_of_plug : ∀ {c : List (Frame A I)} {t : Tree A I}, DataLeaf hasData (plug c t) →
    t ≠ nil → DataLeafCtx hasData c ∧ DataLeaf hasData t
  | [], _, h, _ => ⟨fun _ hf => by simp at hf, h⟩
  | f :: c, t, h, ht => by
    have hne : f.fill t ≠ nil := by
      intro he
      have := congrArg ptr he
      simp at this
    obtain ⟨hc, hfill⟩ := dataLeaf_of_plug (c := c) h hne
    have hf : hasData f.info = false ∧ DataLeaf hasData f.sib ∧ DataLeaf hasData t := by
      unfold Frame.fill at hfill
      cases hs : f.side with
      | left =>
        rw [hs] at hfill
        exact ⟨Bool.eq_false_iff.mpr fun hd => ht (hfill.1 hd).1, hfill.2.2, hfill.2.1⟩
      | right =>
        rw [hs] at hfill
        exact ⟨Bool.eq_false_iff.mpr fun hd => ht (hfill.1 hd).2, hfill.2.1, hfill.2.2⟩
    refine ⟨fun g hg => ?_, hf.2.2⟩
    rcases List.mem_cons.mp hg with rfl | hg
    · exact ⟨hf.1, hf.2.1⟩
    · exact hc g hg

end Data

/-! ### The search -/

section Search

variable [LinearOrder K] {key : I → K} {k : K} {P : K → Prop} {hasData : I → Bool}

/-- Where the search for `k` from the place `c`, `t` ends: at a node that has
no child on the side of `k`. -/
def locate (key : I → K) (k : K) : List (Frame A I) → Tree A I → List (Frame A I) × Tree A I
  | c, nil => (c, nil)
  | c, node a i l r =>
    if k ≤ key i then
      if l.isNil then (c, node a i l r) else locate key k (⟨a, i, .left, r⟩ :: c) l
    else if r.isNil then (c, node a i l r) else locate key k (⟨a, i, .right, l⟩ :: c) r

theorem isNil_iff {t : Tree A I} : t.isNil = true ↔ t = nil := by
  cases t <;> simp [isNil]

theorem locate_plug : ∀ (t : Tree A I) (c : List (Frame A I)),
    plug (locate key k c t).1 (locate key k c t).2 = plug c t
  | nil, _ => rfl
  | node a i l r, c => by
    unfold locate
    split
    · split
      · rfl
      · rw [locate_plug l]
        rfl
    · split
      · rfl
      · rw [locate_plug r]
        rfl

/-- The key that is searched for meets the bound of the place. -/
theorem locate_bound : ∀ (t : Tree A I) (c : List (Frame A I)), Bound key P c k →
    Bound key P (locate key k c t).1 k
  | nil, _, h => h
  | node a i l r, c, h => by
    unfold locate
    split
    · rename_i hk
      split
      · exact h
      · exact locate_bound l _ ⟨h, hk⟩
    · rename_i hk
      split
      · exact h
      · exact locate_bound r _ ⟨h, not_le.mp hk⟩

theorem locate_end : ∀ (t : Tree A I) (c : List (Frame A I)), t ≠ nil →
    ∃ a i l r, (locate key k c t).2 = node a i l r ∧ (k ≤ key i → l = nil) ∧ (key i < k → r = nil)
  | nil, _, h => absurd rfl h
  | node a i l r, c, _ => by
    unfold locate
    split
    · rename_i hk
      split
      · rename_i hl
        exact ⟨a, i, l, r, rfl, fun _ => isNil_iff.mp hl, fun h => absurd hk (not_le.mpr h)⟩
      · rename_i hl
        exact locate_end l _ fun h => hl (isNil_iff.mpr h)
    · rename_i hk
      split
      · rename_i hr
        exact ⟨a, i, l, r, rfl, fun h => absurd h hk, fun _ => isNil_iff.mp hr⟩
      · rename_i hr
        exact locate_end r _ fun h => hr (isNil_iff.mpr h)

/-- **The search for the key of a node with data** ends at this node. -/
theorem locate_eq : ∀ (t : Tree A I) (c : List (Frame A I)) {P : K → Prop} {b : A} {j : I},
    Bst key P t → DataLeaf hasData t → (b, j) ∈ t.inorder → hasData j = true → key j = k →
    (locate key k c t).2 = node b j nil nil
  | nil, _, _, _, _, _, _, hm, _, _ => by cases hm
  | node a i l r, c, P, b, j, hb, hd, hm, hj, hk => by
    rw [inorder, List.mem_append, List.mem_cons] at hm
    unfold locate
    rcases hm with hm | hm | hm
    · have hle := (bst_mem hb.2.1 _ hm).2
      have hl : l.isNil ≠ true := fun h => by
        rw [isNil_iff.mp h] at hm
        cases hm
      rw [if_pos (hk ▸ hle), if_neg hl]
      exact locate_eq l _ hb.2.1 hd.2.1 hm hj hk
    · obtain ⟨rfl, rfl⟩ := Prod.mk.inj hm
      obtain ⟨rfl, rfl⟩ := hd.1 hj
      rw [if_pos (le_of_eq hk.symm)]
      rfl
    · have hlt := (bst_mem hb.2.2 _ hm).2
      have hr : r.isNil ≠ true := fun h => by
        rw [isNil_iff.mp h] at hm
        cases hm
      rw [if_neg (not_le.mpr (hk ▸ hlt)), if_neg hr]
      exact locate_eq r _ hb.2.2 hd.2.2 hm hj hk

end Search

end Bst
end Perfbook
