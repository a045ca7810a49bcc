import Mathlib.Data.List.Nodup
import Mathlib.Data.List.Perm.Basic

namespace OpenJfx.Data.IndexedView

open List

variable {α : Type}

def reindex (f : Nat → Nat) (x : α × Nat) : α × Nat := (x.1, f x.2)

theorem perm_zipIdx_reindex {source source' : List α} {f : Nat → Nat}
    (hlen : source'.length = source.length)
    (hinj : ∀ i j, i < source.length → j < source.length → f i = f j → i = j)
    (hmove : ∀ i, i < source.length → source'[f i]? = source[i]?) :
    (source.zipIdx.map (reindex f)).Perm source'.zipIdx := by
  have hidx : ∀ x ∈ source.zipIdx, x.2 < source.length := by
    intro x hx
    exact (List.getElem?_eq_some_iff.mp (mem_zipIdx_iff_getElem?.mp hx)).1
  have hnd : (source.zipIdx.map (reindex f)).Nodup := by
    have hsnd :
        (source.zipIdx.map (reindex f)).map Prod.snd = source.zipIdx.map (f ∘ Prod.snd) := by
      rw [map_map]
      rfl
    refine List.Nodup.of_map Prod.snd ?_
    rw [hsnd, ← map_map, zipIdx_map_snd]
    refine List.Nodup.map_on ?_ nodup_range'
    intro i hi j hj heq
    rw [mem_range'_1] at hi hj
    exact hinj i j (by omega) (by omega) heq
  refine List.Subperm.perm_of_length_le (subperm_of_subset hnd ?_) (by simp [hlen])
  intro x hx
  obtain ⟨y, hy, rfl⟩ := mem_map.mp hx
  rw [mem_zipIdx_iff_getElem?, reindex, hmove _ (hidx y hy)]
  exact mem_zipIdx_iff_getElem?.mp hy

end OpenJfx.Data.IndexedView
