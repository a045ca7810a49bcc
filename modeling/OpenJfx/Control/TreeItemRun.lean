import OpenJfx.Control.TreeItemCounts

namespace OpenJfx.Control.TreeItem

open Data.Hierarchy

namespace Heap

/-- The heaps that the calls of tree items lead to. -/
inductive Reachable : Heap → Prop
  | empty : Reachable empty
  | create {h : Heap} : Reachable h → Reachable h.create
  | childrenChanged {h : Heap} {x : Nat} {after added removed : List Nat} :
      Reachable h → h.Edit x after added removed →
      Reachable (h.childrenChanged x after added removed)
  | setExpanded {h : Heap} (x : Nat) (value : Bool) :
      Reachable h → Reachable (h.setExpanded x value)
  | isExpanded {h : Heap} (x : Nat) : Reachable h → Reachable (h.isExpanded x).1
  | getExpandedDescendentCount {h : Heap} (reset : Bool) (x : Nat) :
      Reachable h → Reachable (getExpandedDescendentCount reset (h.size + 1) h x).1

theorem isForest_nil : IsForest fun _ : Nat => [] := by
  refine ⟨fun _ => List.nodup_nil, ?_, ?_⟩
  · intro x y c hc
    cases hc
  · intro x hx
    cases hx with
    | single h => cases h
    | tail _ h => cases h

theorem sound_empty : Sound empty := by
  refine ⟨⟨isForest_nil, ?_, ?_, fun _ => rfl, fun _ => rfl⟩, ?_⟩
  · intro x c hc
    cases hc
  · intro x p
    exact iff_of_false (by simp [empty, Item.new]) (by simp [empty, children, Item.new])
  · intro x hx
    cases hx

theorem Reachable.sound {h : Heap} (hr : Reachable h) : Sound h := by
  induction hr with
  | empty => exact sound_empty
  | create _ ih => exact sound_create ih
  | childrenChanged _ hedit ih => exact sound_childrenChanged ih hedit
  | setExpanded x value _ ih => exact sound_setExpanded ih x value
  | isExpanded x _ ih => exact sound_validate ih x
  | getExpandedDescendentCount reset x _ ih =>
    exact (getExpandedDescendentCount_spec ih reset x).2.1

/-- A query in any run returns one more than the number of descendants that are shown. -/
theorem Reachable.getExpandedDescendentCount_eq {h : Heap} (hr : Reachable h) (x : Nat) :
    (Heap.getExpandedDescendentCount false (h.size + 1) h x).2 =
      1 + Set.ncard {y | Shown h.children h.expanded x y} := by
  have hs := hr.sound
  rcases hs.exists_rank with ⟨rank, hrank, hle⟩
  rw [(getExpandedDescendentCount_spec hs false x).2.2, rows]
  exact length_preorder hs.forest hrank (hle x)

/-- The second item has been added to the first one, which has then been expanded. -/
def twoItems : Heap := (empty.create.create.childrenChanged 0 [1] [1] []).setExpanded 0 true

theorem isForest_children {cs : List Nat} (hnd : cs.Nodup) (hzero : 0 ∉ cs) :
    IsForest (Function.update (fun _ : Nat => []) 0 cs) := by
  have hmem : ∀ x c, c ∈ Function.update (fun _ : Nat => []) 0 cs x → x = 0 ∧ c ∈ cs := by
    intro x c hc
    rw [Function.update_apply] at hc
    split_ifs at hc with hx
    · exact ⟨hx, hc⟩
    · cases hc
  have hrank : Ranked (Function.update (fun _ : Nat => []) 0 cs) (fun x => 1 - x) := by
    intro x c hc
    rcases hmem x c hc with ⟨rfl, hc⟩
    have hne : c ≠ 0 := ne_of_mem_of_not_mem hc hzero
    change 1 - c < 1 - 0
    omega
  refine ⟨?_, ?_, ?_⟩
  · intro x
    rw [Function.update_apply]
    split_ifs
    · exact hnd
    · exact List.nodup_nil
  · intro x y c hx hy
    exact (hmem x c hx).1.trans (hmem y c hy).1.symm
  · intro x hx
    exact Nat.lt_irrefl _ (hrank.transGen_lt hx)

theorem isForest_new {h : Heap} (hnew : ∀ x, h.children x = []) {cs : List Nat}
    (hnd : cs.Nodup) (hzero : 0 ∉ cs) : IsForest (Function.update h.children 0 cs) := by
  rw [show h.children = fun _ => [] from funext hnew]
  exact isForest_children hnd hzero

theorem reachable_twoItems : Reachable twoItems := by
  refine .setExpanded 0 true (.childrenChanged (.create (.create .empty)) ?_)
  refine ⟨by decide, by decide, ⟨[], by decide, by decide⟩, isForest_new ?_ (by decide) (by decide)⟩
  intro x
  simp only [children, create, Function.update_apply]
  split_ifs <;> rfl

theorem getExpandedDescendentCount_twoItems :
    (Heap.getExpandedDescendentCount false (twoItems.size + 1) twoItems 0).2 = 2 ∧
      (Heap.getExpandedDescendentCount false (twoItems.size + 1) twoItems 0).2 =
        1 + Set.ncard {y | Shown twoItems.children twoItems.expanded 0 y} :=
  ⟨by decide, reachable_twoItems.getExpandedDescendentCount_eq 0⟩

end Heap

end OpenJfx.Control.TreeItem
