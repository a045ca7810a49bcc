import Mathlib.Data.List.Nodup
import Mathlib.Data.List.Range

namespace OpenJfx.Data.Stores

open List

variable {α : Type}

def store (buffer : List α) (s : Nat × α) : Option (List α) :=
  if s.1 < buffer.length then some (buffer.set s.1 s.2) else none

def storeAll (buffer : List α) (stores : List (Nat × α)) : Option (List α) :=
  stores.foldlM store buffer

theorem storeAll_eq (stores : List (Nat × α)) :
    ∀ buffer : List α, (∀ s ∈ stores, s.1 < buffer.length) →
      storeAll buffer stores =
        some (stores.foldl (fun buffer s => buffer.set s.1 s.2) buffer) := by
  induction stores with
  | nil => exact fun buffer _ => rfl
  | cons s stores ih =>
    intro buffer h
    have hs : s.1 < buffer.length := h s (by simp)
    rw [storeAll, foldlM_cons, store, if_pos hs]
    refine ih (buffer.set s.1 s.2) ?_
    intro t ht
    rw [length_set]
    exact h t (by simp [ht])

theorem storeAll_append (buffer : List α) (stores stores' : List (Nat × α)) :
    storeAll buffer (stores ++ stores') =
      (storeAll buffer stores).bind fun buffer => storeAll buffer stores' :=
  foldlM_append

theorem length_storeAll (stores : List (Nat × α)) :
    ∀ {buffer buffer' : List α}, storeAll buffer stores = some buffer' →
      buffer'.length = buffer.length := by
  induction stores with
  | nil =>
    intro buffer buffer' h
    rw [← Option.some.inj h]
  | cons s stores ih =>
    intro buffer buffer' h
    rw [storeAll, foldlM_cons, store] at h
    split_ifs at h with hs
    · exact (ih h).trans length_set
    · exact nomatch h

theorem getElem?_storeAll (stores : List (Nat × α)) (i : Nat) :
    ∀ {buffer buffer' : List α}, storeAll buffer stores = some buffer' →
      (∃ v, (i, v) ∈ stores ∧ buffer'[i]? = some v) ∨
        i ∉ stores.map Prod.fst ∧ buffer'[i]? = buffer[i]? := by
  induction stores with
  | nil =>
    intro buffer buffer' h
    rw [← Option.some.inj h]
    exact .inr ⟨by simp, rfl⟩
  | cons s stores ih =>
    intro buffer buffer' h
    rw [storeAll, foldlM_cons, store] at h
    split_ifs at h with hs
    · rcases ih h with ⟨v, hmem, hv⟩ | ⟨hnot, heq⟩
      · exact .inl ⟨v, mem_cons_of_mem s hmem, hv⟩
      · rcases eq_or_ne s.1 i with rfl | hne
        · refine .inl ⟨s.2, mem_cons_self, ?_⟩
          rw [heq, getElem?_set_self hs]
        · refine .inr ⟨by simpa [hne.symm] using hnot, ?_⟩
          rw [heq, getElem?_set_ne hne]
    · exact nomatch h

theorem storeAll_perm {stores stores' : List (Nat × α)} (hperm : stores.Perm stores')
    (hnd : (stores.map Prod.fst).Nodup) {buffer : List α}
    (h : ∀ s ∈ stores, s.1 < buffer.length) :
    storeAll buffer stores = storeAll buffer stores' := by
  rw [storeAll_eq stores buffer h,
    storeAll_eq stores' buffer fun s hs => h s (hperm.mem_iff.mpr hs)]
  refine congrArg some (hperm.foldl_eq' ?_ buffer)
  intro s hs t ht b
  by_cases heq : s = t
  · rw [heq]
  · have hne : s.1 ≠ t.1 := fun hfst => heq (inj_on_of_nodup_map hnd hs ht hfst)
    exact (set_comm _ _ hne)

theorem flatMap_rows (rows width : Nat) :
    (List.range rows).flatMap (fun y => (List.range width).map (y * width + ·)) =
      List.range (rows * width) := by
  induction rows with
  | zero => simp
  | succ rows ih =>
    rw [range_succ, flatMap_append, ih, Nat.succ_mul, range_add]
    simp

theorem flatMap_chunks (rows width total : Nat) :
    (List.range rows).flatMap
        (fun y => (List.range (min width (total - y * width))).map (y * width + ·)) =
      List.range (min (rows * width) total) := by
  induction rows with
  | zero => simp
  | succ rows ih =>
    rw [range_succ, flatMap_append, ih, Nat.succ_mul]
    by_cases hle : rows * width ≤ total
    · rw [Nat.min_eq_left hle,
        show min (rows * width + width) total = rows * width + min width (total - rows * width) by
          omega, range_add]
      simp
    · have hzero : total - rows * width = 0 := by omega
      rw [Nat.min_eq_right (by omega), Nat.min_eq_right (by omega)]
      simp [hzero]

end OpenJfx.Data.Stores
