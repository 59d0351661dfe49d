/-
# An Issaquah tree is a finite map

From `tree_alloc` on, with no existence structures and with memory to be had,
every sequence of insertions, deletions and lookups answers as the map that
`Op.spec` says, with no `goto retry` on the way (`refines_map`).

Key definitions: `Op`, `Op.run`, `Op.spec`, `Refines`.
Key theorems: `Refines.step`, `refines_map`.
-/
import Perfbook.Issaquah.Update

namespace Perfbook
namespace Issaquah

open Bst Bst.Tree

variable {D : Type}

/-! ### The map -/

inductive Op (D : Type)
  | insert (k : Key) (d : D)
  | delete (k : Key)
  | lookup (k : Key)
  | lookupRelaxed (k : Key)

/-- What a call returns; a deletion also passes back the data. -/
inductive Answer (D : Type)
  | code (c : Code)
  | deleted (c : Code) (d : Option D)
  | data (d : Option D)

def Out.map {α β : Type} (f : α → β) : Out α → Out β
  | .ret x => .ret (f x)
  | .retry => .retry
  | .stuck => .stuck

/-- The code, when `malloc` succeeds. -/
def Op.run (h : Heap D) (trp : Root) : Op D → Out (Heap D × Answer D)
  | .insert k d => (treeInsert true true h trp k d).map fun x => (x.1, .code x.2)
  | .delete k => (treeDelete h trp k).map fun x => (x.1, .deleted x.2.1 x.2.2)
  | .lookup k => (treeLookup h trp k).map fun x => (h, .data x)
  | .lookupRelaxed k => (treeLookupRelaxed h trp k).map fun x => (h, .data x)

/-- The calls one after the other, and their answers. -/
def runs (trp : Root) : List (Op D) → Heap D → Out (Heap D × List (Answer D))
  | [], h => .ret (h, [])
  | op :: ops, h =>
    match op.run h trp with
    | .ret (h, a) => (runs trp ops h).map fun x => (x.1, a :: x.2)
    | .retry => .retry
    | .stuck => .stuck

/-- The same on a map. -/
def Op.spec (m : Key → Option D) : Op D → (Key → Option D) × Answer D
  | .insert k d =>
    match m k with
    | some _ => (m, .code .eexist)
    | none => (Function.update m k (some d), .code .ok)
  | .delete k =>
    match m k with
    | some d => (Function.update m k none, .deleted .ok (some d))
    | none => (m, .deleted .enoent none)
  | .lookup k => (m, .data (m k))
  | .lookupRelaxed k => (m, .data (m k))

def specs : List (Op D) → (Key → Option D) → (Key → Option D) × List (Answer D)
  | [], m => (m, [])
  | op :: ops, m => ((specs ops (op.spec m).1).1, (op.spec m).2 :: (specs ops (op.spec m).1).2)

/-- The tree at `trp` has the leaves that the map says, with no existence pointers. -/
def Refines (h : Heap D) (trp : Root) (m : Key → Option D) : Prop :=
  ∃ t, Wf h trp t ∧ (∀ x, Leaf t x → x.2.existence = none) ∧ ∀ k d, m k = some d ↔ Maps t k d

variable {h h' : Heap D} {trp : Root} {t : ITree D} {k : Key} {m : Key → Option D}
  {c : List (Frame Addr (Info D))} {b : Addr} {i : Info D} {l r : ITree D}

/-! ### One call -/

/-- What the map says is the leaf with the key. -/
theorem map_eq_some {d : D} (hm : ∀ k d, m k = some d ↔ Maps t k d) :
    m k = some d ↔ ∃ x, Leaf t x ∧ x.2.key = k ∧ x.2.data = some d := by
  rw [hm, maps_iff_leaf]

theorem map_eq_none (hm : ∀ k d, m k = some d ↔ Maps t k d) :
    m k = none ↔ ∀ x, Leaf t x → x.2.key ≠ k := by
  constructor
  · intro hn x hx hk
    obtain ⟨d, hd⟩ := Option.isSome_iff_exists.mp hx.2
    have := (map_eq_some hm).mpr ⟨x, hx, hk, hd⟩
    rw [hn] at this
    cases this
  · intro hno
    cases hmk : m k with
    | none => rfl
    | some d =>
      obtain ⟨x, hx, hk, -⟩ := (map_eq_some hm).mp hmk
      exact absurd hk (hno x hx)

theorem refines_insert (hr : Refines h trp m) (k : Key) (d : D) :
    ∃ h', (Op.insert k d).run h trp = .ret (h', ((Op.insert k d).spec m).2) ∧
      Refines h' trp ((Op.insert k d).spec m).1 := by
  obtain ⟨t, hw, hplain, hm⟩ := hr
  cases hmk : m k with
  | some d' =>
    obtain ⟨x, hx, hk, -⟩ := (map_eq_some hm).mp hmk
    obtain ⟨h', hupd, hrun⟩ := insert_same hw hx hk d none true true true
    refine ⟨h', ?_, ?_⟩
    · simp only [Op.run, Op.spec, treeInsert, hrun, hplain x hx, hmk, if_true, Out.map]
    · simp only [Op.spec, hmk]
      exact ⟨t, hupd.wf, hplain, hm⟩
  | none =>
    have hno := (map_eq_none hm).mp hmk
    obtain ⟨h', code, hrun, hres⟩ := insert_upd hw hno d none true true true
    rcases hres with ⟨rfl, t', hupd, hleaf⟩ | ⟨-, -, hfail⟩
    · refine ⟨h', ?_, ?_⟩
      · simp only [Op.run, Op.spec, treeInsert, hrun, hmk, Out.map]
      · simp only [Op.spec, hmk]
        refine ⟨t', hupd.wf, fun x hx => ?_, fun j e => ?_⟩
        · rcases (hleaf x).mp hx with rfl | hx
          · rfl
          · exact hplain x hx
        · rw [maps_iff_leaf]
          by_cases hj : j = k
          · subst hj
            rw [Function.update_self]
            constructor
            · rintro ⟨⟩
              exact ⟨_, (hleaf _).mpr (.inl rfl), rfl, rfl⟩
            · rintro ⟨x, hx, hk, he⟩
              rcases (hleaf x).mp hx with rfl | hx
              · exact he
              · exact absurd hk (hno x hx)
          · rw [Function.update_of_ne hj, map_eq_some hm]
            constructor
            · rintro ⟨x, hx, hk⟩
              exact ⟨x, (hleaf x).mpr (.inr hx), hk⟩
            · rintro ⟨x, hx, hk, he⟩
              rcases (hleaf x).mp hx with rfl | hx
              · exact absurd hk.symm hj
              · exact ⟨x, hx, hk, he⟩
    · cases hfail

theorem refines_delete (hr : Refines h trp m) (k : Key) :
    ∃ h', (Op.delete k).run h trp = .ret (h', ((Op.delete k : Op D).spec m).2) ∧
      Refines h' trp ((Op.delete k).spec m).1 := by
  obtain ⟨t, hw, hplain, hm⟩ := hr
  cases hmk : m k with
  | none =>
    have hrun := delete_none hw ((map_eq_none hm).mp hmk) hplain true
    refine ⟨h, ?_, ?_⟩
    · simp only [Op.run, Op.spec, treeDelete, hrun, hmk, Out.map]
    · simp only [Op.spec, hmk]
      exact ⟨t, hw, hplain, hm⟩
  | some d =>
    obtain ⟨x, hx, hk, hd⟩ := (map_eq_some hm).mp hmk
    obtain ⟨h', t', hrun, hupd, hleaf⟩ := delete_upd hw hx hk true
    rw [hplain x hx] at hrun
    refine ⟨h', ?_, ?_⟩
    · simp only [Op.run, Op.spec, treeDelete, hrun, hmk, hd, Out.map]
    · simp only [Op.spec, hmk]
      refine ⟨t', hupd.wf, fun y hy => hplain y ((hleaf y).mp hy).1, fun j e => ?_⟩
      rw [maps_iff_leaf]
      by_cases hj : j = k
      · subst hj
        rw [Function.update_self]
        refine ⟨(fun h => nomatch h), ?_⟩
        rintro ⟨y, hy, hyk, -⟩
        obtain ⟨hy, hne⟩ := (hleaf y).mp hy
        exact absurd (leaf_unique hw hy.1 hx.1 hy.2 hx.2 (hyk.trans hk.symm)) hne
      · rw [Function.update_of_ne hj, map_eq_some hm]
        refine exists_congr fun y => ?_
        rw [hleaf]
        refine ⟨fun ⟨hy, hyk, he⟩ => ⟨⟨hy, ?_⟩, hyk, he⟩, fun ⟨hy, hyk, he⟩ => ⟨hy.1, hyk, he⟩⟩
        rintro rfl
        exact hj (hyk.symm.trans hk)

/-- What a lookup finds where it ends. -/
theorem Found.map_eq (hw : Wf h trp t) (hf : Found h trp t k c b i l r)
    (hm : ∀ k d, m k = some d ↔ Maps t k d) : m k = if i.key = k then i.data else none := by
  ext d
  rw [hm, maps_iff hw hf]
  by_cases hk : i.key = k
  · simp [hk]
  · simp [hk]

theorem refines_lookup (hr : Refines h trp m) (k : Key) :
    treeLookup h trp k = .ret (m k) ∧ treeLookupRelaxed h trp k = .ret (m k) := by
  obtain ⟨t, hw, hplain, hm⟩ := hr
  obtain ⟨c, b, i, l, r, hf⟩ := found hw k
  have hleaf := hf.leaf_eq hw
  have hlive := (hw.live _ hf.inTree).1
  have he : i.existence = none := by
    cases hd : hasData i with
    | false => exact (hw.live _ hf.inTree).2 hd
    | true => exact hplain _ ⟨hf.inTree, hd⟩
  rw [hf.map_eq hw hm]
  unfold treeLookup treeLookupRelaxed
  simp only [hf.look, hleaf]
  rw [hf.cell]
  simp only at hlive
  cases hd : hasData i with
  | false =>
    have : i.data = none := by simpa [hasData] using hd
    simp [hlive, this]
  | true =>
    by_cases hk : i.key = k
    · simp [hlive, hk, he, existenceExists]
    · simp [hlive, hk]

/-- **One call** answers as the map, and leaves a tree for what the map becomes. -/
theorem Refines.step (hr : Refines h trp m) (op : Op D) :
    ∃ h', op.run h trp = .ret (h', (op.spec m).2) ∧ Refines h' trp (op.spec m).1 := by
  cases op with
  | insert k d => exact refines_insert hr k d
  | delete k => exact refines_delete hr k
  | lookup k => exact ⟨h, by rw [Op.run, (refines_lookup hr k).1]; rfl, hr⟩
  | lookupRelaxed k => exact ⟨h, by rw [Op.run, (refines_lookup hr k).2]; rfl, hr⟩

theorem Refines.runs : ∀ (ops : List (Op D)) {h : Heap D} {m : Key → Option D}, Refines h trp m →
    ∃ h', Issaquah.runs trp ops h = .ret (h', (specs ops m).2) ∧ Refines h' trp (specs ops m).1
  | [], h, _, hr => ⟨h, rfl, hr⟩
  | op :: ops, h, m, hr => by
    obtain ⟨h₁, hrun, hr₁⟩ := hr.step op
    obtain ⟨h₂, hruns, hr₂⟩ := Refines.runs ops hr₁
    exact ⟨h₂, by simp only [Issaquah.runs, hrun, hruns, Out.map, specs], hr₂⟩

/-- **The tree refines a finite map**: from `tree_alloc` on the calls return,
without a retry, what the map says; the tree is in order, with data where there
are no children, and the map is the leaves of the tree, one for each key. -/
theorem refines_map (h : Heap D) (ops : List (Op D)) :
    ∃ h' t, runs (treeAlloc h).2 ops (treeAlloc h).1 = .ret (h', (specs ops fun _ => none).2) ∧
      t.ptr = some (treeAlloc h).2.max ∧ Rep h'.node t ∧ Bst Info.key (fun _ => True) t ∧
      DataLeaf hasData t ∧
      (∀ x ∈ t.inorder, ∀ y ∈ t.inorder, hasData x.2 = true → hasData y.2 = true →
        x.2.key = y.2.key → x = y) ∧
      ∀ k d, (specs ops fun _ => none).1 k = some d ↔
        ∃ x ∈ t.inorder, x.2.key = k ∧ x.2.data = some d := by
  have hstart : Refines (treeAlloc h).1 (treeAlloc h).2 fun _ => none := by
    refine ⟨_, wf_treeAlloc h, fun x hx => ?_, fun k d => ?_⟩
    · obtain rfl := List.mem_singleton.mp hx.1
      cases hx.2
    · refine ⟨(fun h => by cases h), ?_⟩
      rintro ⟨x, hx, -, hd⟩
      obtain rfl := List.mem_singleton.mp hx
      cases hd
  obtain ⟨h', hrun, t, hw, -, hm⟩ := hstart.runs ops
  -- The sentinel `max` is above the others, and has no data.
  have hmem : ∀ x, hasData x.2 = true →
      (x ∈ (node (treeAlloc h).2.max (sentinel keyMax none : Node D).info t nil).inorder ↔
        x ∈ t.inorder) := by
    intro x hd
    simp only [inorder, List.mem_append, List.mem_singleton, or_iff_left_iff_imp]
    rintro rfl
    cases hd
  refine ⟨h', node (treeAlloc h).2.max (sentinel keyMax none : Node D).info t nil, hrun, rfl,
    ⟨?_, hw.rep, trivial⟩, ⟨trivial, hw.bst.imp fun k _ => ⟨trivial, k.2.2⟩, trivial⟩,
    ⟨(fun h => by cases h), hw.data, trivial⟩, fun x hx y hy hdx hdy hk => ?_, fun k d => ?_⟩
  · rw [hw.max, (rootOf_ptr hw.root).1]
    rfl
  · exact leaf_unique hw ((hmem x hdx).mp hx) ((hmem y hdy).mp hy) hdx hdy hk
  · rw [hm, Maps]
    refine exists_congr fun x => and_congr_left fun hx => (hmem x ?_).symm
    rw [hasData, hx.2]
    rfl

end Issaquah
end Perfbook
