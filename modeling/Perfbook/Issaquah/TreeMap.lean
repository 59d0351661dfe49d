/-
# `tree_map` against `tree_lookup_relaxed`

`tree_map_node` calls the function for the leaves for which
`tree_existence_exists` is false, but that says 1 of a leaf that exists, and
`tree_lookup_relaxed` uses it so. So the map goes over the leaves that lookups
do not see, once each and in order (`treeMap_calls`), and it agrees with the
lookups only on a tree without leaves (`treeMap_exact_iff`).

Key definitions: `IsLeaf`, `Present`, `MapsPresent`.
Key theorems: `treeMapNode_eq`, `treeMap_calls`, `treeMap_exact_iff`, `treeMap_skips_element`.
-/
import Perfbook.Issaquah.Forest

namespace Perfbook
namespace Issaquah

open Bst Bst.Tree

variable {D : Type}

/-- A leaf that is linked: the lookup of its key ends there. -/
def IsLeaf (h : Heap D) (trp : Root) (a : Addr) : Prop :=
  treeLeafNode (h.node a) = true ∧ ∃ par, treeLookupNode h trp (h.node a).info.key = some (par, a)

/-- A leaf that `tree_lookup_relaxed` reports. -/
def Present (h : Heap D) (trp : Root) (a : Addr) : Prop :=
  IsLeaf h trp a ∧ treeLookupRelaxed h trp (h.node a).info.key = .ret (h.node a).info.data

/-- The calls are for the leaves that a lookup reports, once each and in ascending order. -/
def MapsPresent (h : Heap D) (trp : Root) (calls : List Addr) : Prop :=
  calls.Nodup ∧ (∀ a, a ∈ calls ↔ Present h trp a) ∧
    calls.Pairwise fun a b => (h.node a).info.key < (h.node b).info.key

variable {h : Heap D} {trp : Root} {t : ITree D} {rs : List Root} {a : Addr}

/-! ### Linked leaves -/

theorem rep_mem : ∀ {t : ITree D}, Rep h.node t → ∀ x ∈ t.inorder, (h.node x.1).info = x.2
  | nil, _, _, hx => by cases hx
  | node a i l r, hr, x, hx => by
    rw [inorder, List.mem_append, List.mem_cons] at hx
    rcases hx with hx | rfl | hx
    · exact rep_mem hr.2.1 x hx
    · rw [hr.1]
    · exact rep_mem hr.2.2 x hx

theorem isLeaf_iff (hw : Wf h trp t) : IsLeaf h trp a ↔ Leaf t (a, (h.node a).info) := by
  obtain ⟨c, b, i, l, r, hf⟩ := found hw (h.node a).info.key
  constructor
  · rintro ⟨hleaf, par, hlook⟩
    obtain ⟨-, rfl⟩ := Prod.mk.inj (Option.some.inj (hf.look.symm.trans hlook))
    rw [hf.leaf_eq hw] at hleaf
    rw [hf.cell]
    exact ⟨hf.inTree, hleaf⟩
  · intro hl
    obtain ⟨he, hd, -⟩ := (hf.leaf_iff hw).mp ⟨hl, rfl⟩
    obtain ⟨rfl, -⟩ := Prod.mk.inj he
    exact ⟨(hf.leaf_eq hw).trans hd, _, hf.look⟩

/-- A linked leaf is reported if it exists. -/
theorem present_iff (hw : Wf h trp t) : Present h trp a ↔
    IsLeaf h trp a ∧ existenceExists h.existenceSwitch (h.node a).info.existence = true := by
  refine and_congr_right fun hl => ?_
  obtain ⟨hleaf, par, hlook⟩ := hl
  have hdel : (h.node a).info.deleted = false :=
    (hw.live _ ((isLeaf_iff hw).mp ⟨hleaf, par, hlook⟩).1).1
  have hdata : (h.node a).info.data ≠ none := by
    intro hn
    rw [treeLeafNode, hn] at hleaf
    simp at hleaf
  unfold treeLookupRelaxed
  simp only [hlook, hleaf, hdel, Bool.true_and, decide_true, Bool.not_false]
  cases existenceExists h.existenceSwitch (h.node a).info.existence with
  | true => simp
  | false => simp [hdata.symm]

/-! ### The calls -/

/-- The keys of a search tree are in order. -/
theorem bst_sorted : ∀ {t : ITree D} {P : Key → Prop}, Bst Info.key P t →
    t.inorder.Pairwise fun x y => x.2.key ≤ y.2.key
  | nil, _, _ => List.Pairwise.nil
  | node a i l r, P, hb => by
    rw [inorder, List.pairwise_append, List.pairwise_cons]
    have hl : ∀ x ∈ l.inorder, x.2.key ≤ i.key := fun x hx => (bst_mem hb.2.1 x hx).2
    have hr : ∀ y ∈ r.inorder, i.key < y.2.key := fun y hy => (bst_mem hb.2.2 y hy).2
    refine ⟨bst_sorted hb.2.1, ⟨fun y hy => (hr y hy).le, bst_sorted hb.2.2⟩, fun x hx y hy => ?_⟩
    rcases List.mem_cons.mp hy with rfl | hy
    · exact hl x hx
    · exact (hl x hx).trans (hr y hy).le

/-- The recursion of `tree_map_node`. -/
theorem treeMapNode_eq : ∀ (t : ITree D) (fuel : ℕ), Rep h.node t → DataLeaf hasData t →
    (∀ x ∈ t.inorder, x.2.deleted = false) → t.inorder.length ≤ fuel →
    treeMapNode h fuel t.ptr = some ((t.inorder.filter fun x =>
      hasData x.2 && !existenceExists h.existenceSwitch x.2.existence).map Prod.fst)
  | nil, fuel, _, _, _, _ => by
    cases fuel <;> rfl
  | node a i l r, fuel, hr, hd, hlive, hf => by
    rw [inorder, List.length_append, List.length_cons] at hf
    obtain ⟨fuel, rfl⟩ : ∃ n, fuel = n + 1 := ⟨fuel - 1, by omega⟩
    have hl := treeMapNode_eq l fuel hr.2.1 hd.2.1
      (fun x hx => hlive x (List.mem_append_left _ hx)) (by omega)
    have hrr := treeMapNode_eq r fuel hr.2.2 hd.2.2
      (fun x hx => hlive x (List.mem_append_right _ (List.mem_cons_of_mem _ hx))) (by omega)
    have hdel : i.deleted = false :=
      hlive (a, i) (List.mem_append_right _ List.mem_cons_self)
    unfold treeMapNode
    rw [ptr, inorder]
    simp only [hr.1]
    cases hi : hasData i with
    | true =>
      obtain ⟨rfl, rfl⟩ := hd.1 hi
      have hleaf : treeLeafNode (⟨i, none, none⟩ : Node D) = true := hi
      simp only [ptr, hleaf, if_true, hdel, Bool.not_false, Bool.true_and]
      cases he : existenceExists h.existenceSwitch i.existence <;> simp [inorder, hi, he]
    | false =>
      have hleaf : treeLeafNode (⟨i, l.ptr, r.ptr⟩ : Node D) = false := by
        have : i.data.isSome = false := hi
        simp [treeLeafNode, this]
      simp only [hleaf, hl, hrr, Bool.false_eq_true, if_false]
      simp [hi]

theorem treeMap_eq (hw : Wf h trp t) : treeMap h trp = .ret ((t.inorder.filter fun x =>
    hasData x.2 && !existenceExists h.existenceSwitch x.2.existence).map Prod.fst) := by
  have hmax : Rep h.node (node trp.max (sentinel keyMax none : Node D).info t nil) := by
    refine ⟨?_, hw.rep, trivial⟩
    rw [hw.max, (rootOf_ptr hw.root).1]
    rfl
  have hsize := hw.size_le
  have := treeMapNode_eq (h := h) _ (h.fresh + 1) hmax ⟨(fun hd => nomatch hd), hw.data, trivial⟩ ?_ ?_
  · unfold treeMap
    rw [← ptr_node trp.max (sentinel keyMax none : Node D).info t nil, this]
    simp [inorder, Out.ofOption, hasData, sentinel, initTreenode]
  · intro x hx
    simp only [inorder, List.mem_append, List.mem_singleton] at hx
    rcases hx with hx | rfl
    · exact (hw.live x hx).1
    · rfl
  · simp only [inorder, List.length_append, List.length_singleton]
    omega

/-- **What `tree_map` does**: it calls the function for the leaves that a
lookup does not report, once each and in order. -/
theorem treeMap_calls (hw : Wf h trp t) : ∃ calls, treeMap h trp = .ret calls ∧ calls.Nodup ∧
    (∀ a, a ∈ calls ↔ IsLeaf h trp a ∧ ¬ Present h trp a) ∧
    calls.Pairwise fun a b => (h.node a).info.key < (h.node b).info.key := by
  set p : Addr × Info D → Bool := fun x =>
    hasData x.2 && !existenceExists h.existenceSwitch x.2.existence with hp
  have hinfo := rep_mem hw.rep
  have hne : t.inorder.Pairwise fun x y => x ≠ y := List.Nodup.of_map _ hw.nodup
  refine ⟨_, treeMap_eq hw, hw.nodup.sublist (List.filter_sublist.map _), fun a => ?_, ?_⟩
  · rw [present_iff hw, isLeaf_iff hw, List.mem_map]
    constructor
    · rintro ⟨x, hx, rfl⟩
      obtain ⟨hm, hpx⟩ := List.mem_filter.mp hx
      obtain ⟨hd, he⟩ := Bool.and_eq_true_iff.mp hpx
      rw [hinfo x hm]
      exact ⟨⟨hm, hd⟩, fun hex => by simp [hex.2] at he⟩
    · rintro ⟨hl, hex⟩
      refine ⟨_, List.mem_filter.mpr ⟨hl.1, Bool.and_eq_true_iff.mpr ⟨hl.2, ?_⟩⟩, rfl⟩
      simpa using fun he => hex ⟨hl, he⟩
  · rw [List.pairwise_map]
    refine (((bst_sorted hw.bst).and hne).filter p).imp_of_mem fun hx hy hxy => ?_
    obtain ⟨hmx, hpx⟩ := List.mem_filter.mp hx
    obtain ⟨hmy, hpy⟩ := List.mem_filter.mp hy
    rw [hinfo _ hmx, hinfo _ hmy]
    exact lt_of_le_of_ne hxy.1 fun hk => hxy.2 (leaf_unique hw hmx hmy
      (Bool.and_eq_true_iff.mp hpx).1 (Bool.and_eq_true_iff.mp hpy).1 hk)

/-- **`tree_map` agrees with the lookups** on trees without leaves and on no others. -/
theorem treeMap_exact_iff (hr : Reached h rs) (ht : trp ∈ rs) :
    (∃ calls, treeMap h trp = .ret calls ∧ MapsPresent h trp calls) ↔ ∀ a, ¬ IsLeaf h trp a := by
  obtain ⟨T, hF⟩ := hr.forest
  obtain ⟨calls, hrun, hnodup, hmem, hsort⟩ := treeMap_calls (hF.wf trp ht)
  constructor
  · rintro ⟨calls', hrun', -, hmem', -⟩ a hl
    obtain rfl := Out.ret.inj (hrun.symm.trans hrun')
    by_cases hp : Present h trp a
    · exact ((hmem a).mp ((hmem' a).mpr hp)).2 hp
    · exact hp ((hmem' a).mp ((hmem a).mpr ⟨hl, hp⟩))
  · intro hno
    refine ⟨calls, hrun, hnodup, fun a => ?_, hsort⟩
    rw [hmem]
    exact iff_of_false (fun hl => hno a hl.1) fun hp => hno a hp.1

/-! ### An element that is skipped -/

/-- A tree with the element 7 under the key 5. -/
def oneElement : Heap ℕ :=
  ((treeAlloc emptyHeap).1.new ⟨newLeaf five 7 none, none, none⟩).setChild 0 .right (some 2)

theorem oneElement_reached : Reached oneElement [(treeAlloc emptyHeap).2] := by
  have hrun : treeInsertExistence true true (treeAlloc emptyHeap).1 (treeAlloc emptyHeap).2 five 7
      none true = .ret (oneElement, .ok) := rfl
  have hold : Old (treeAlloc emptyHeap).1 none := fun _ h => nomatch h
  exact .insert (.alloc (.start emptyHeap)) List.mem_cons_self hold hrun

theorem treeMap_exact_iff_oneElement :
    (∃ calls, treeMap oneElement (treeAlloc emptyHeap).2 = .ret calls ∧
      MapsPresent oneElement (treeAlloc emptyHeap).2 calls) ↔
    ∀ a, ¬ IsLeaf oneElement (treeAlloc emptyHeap).2 a :=
  treeMap_exact_iff oneElement_reached List.mem_cons_self

/-- The element is there, and the function is not called for it. -/
theorem treeMap_skips_element : ∃ h : Heap ℕ, ∃ trp : Root, Reached h [trp] ∧
    treeLookupRelaxed h trp five = .ret (some 7) ∧
    ¬ ∃ calls, treeMap h trp = .ret calls ∧ MapsPresent h trp calls := by
  refine ⟨oneElement, (treeAlloc emptyHeap).2, oneElement_reached, rfl, ?_⟩
  have hmap : treeMap oneElement (treeAlloc emptyHeap).2 = .ret [] := rfl
  rintro ⟨calls, hrun, -, hmem, -⟩
  obtain rfl := Out.ret.inj (hmap.symm.trans hrun)
  have hpres : Present oneElement (treeAlloc emptyHeap).2 2 := ⟨⟨rfl, 0, rfl⟩, rfl⟩
  cases (hmem 2).mpr hpres

end Issaquah
end Perfbook
