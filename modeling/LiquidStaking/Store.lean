import Mathlib

/-! A keyed `Map` of the contract store as a list of its values, each carrying its own key:
`load`, `save` and `remove` are `Map::may_load`, `Map::save` and `Map::remove`. Saving a new key
appends it; since the contracts create keys in increasing order, the list order is the store's
key order, and a scan of the map is a scan of the list. -/

namespace LiquidStaking.Store

variable {α κ : Type} [DecidableEq κ] (key : α → κ)

def load (xs : List α) (k : κ) : Option α := xs.find? (fun x => key x = k)

def save (xs : List α) (v : α) : List α :=
  if xs.any (fun x => key x = key v) then xs.map (fun x => if key x = key v then v else x)
  else xs ++ [v]

def remove (xs : List α) (k : κ) : List α := xs.filter (fun x => key x ≠ k)

variable {key} {xs : List α} {k : κ} {v x y : α}

theorem mem_remove : y ∈ remove key xs k ↔ y ∈ xs ∧ key y ≠ k := by
  simp [remove]

theorem mem_save : y ∈ save key xs v ↔ y = v ∨ y ∈ xs ∧ key y ≠ key v := by
  unfold save
  split
  · rename_i h
    obtain ⟨z, hz, hzk⟩ := List.any_eq_true.mp h
    simp only [List.mem_map]
    constructor
    · rintro ⟨w, hw, rfl⟩
      by_cases hwk : key w = key v <;> simp_all
    · rintro (rfl | ⟨hy, hyk⟩)
      · exact ⟨z, hz, by simp_all⟩
      · exact ⟨y, hy, by simp [hyk]⟩
  · rename_i h
    simp only [List.any_eq_true, not_exists, not_and, decide_eq_true_eq] at h
    simp only [List.mem_append, List.mem_singleton]
    constructor
    · rintro (hy | rfl)
      · exact .inr ⟨hy, h y hy⟩
      · exact .inl rfl
    · rintro (rfl | ⟨hy, -⟩)
      · exact .inr rfl
      · exact .inl hy

theorem load_eq_none : load key xs k = none ↔ ∀ x ∈ xs, key x ≠ k := by
  simp [load]

theorem load_eq_some (h : (xs.map key).Nodup) : load key xs k = some x ↔ x ∈ xs ∧ key x = k := by
  induction xs with
  | nil => simp [load]
  | cons z zs ih =>
    rw [List.map_cons, List.nodup_cons] at h
    simp only [load] at ih ⊢
    by_cases hz : key z = k
    · have hx : x ∈ zs → key x ≠ k := fun hx hk =>
        h.1 (List.mem_map.mpr ⟨x, hx, hk.trans hz.symm⟩)
      rw [List.find?_cons_of_pos _ (by simpa using hz)]
      constructor
      · rintro ⟨⟩; exact ⟨List.mem_cons_self _ _, hz⟩
      · rintro ⟨hm, hk⟩
        rcases List.mem_cons.mp hm with rfl | hm
        · rfl
        · exact absurd hk (hx hm)
    · rw [List.find?_cons_of_neg _ (by simpa using hz), ih h.2, List.mem_cons]
      constructor
      · rintro ⟨hm, hk⟩; exact ⟨.inr hm, hk⟩
      · rintro ⟨rfl | hm, hk⟩
        · exact absurd hk hz
        · exact ⟨hm, hk⟩

theorem key_of_load (h : load key xs k = some x) : key x = k := by
  simpa using List.find?_some h

theorem mem_of_load (h : load key xs k = some x) : x ∈ xs := List.mem_of_find?_eq_some h

theorem load_of_mem (h : (xs.map key).Nodup) (hx : x ∈ xs) : load key xs (key x) = some x :=
  (load_eq_some h).mpr ⟨hx, rfl⟩

theorem nodup_remove (h : (xs.map key).Nodup) : ((remove key xs k).map key).Nodup :=
  h.sublist ((List.filter_sublist _).map key)

theorem save_of_forall_ne (h : ∀ x ∈ xs, key x ≠ key v) : save key xs v = xs ++ [v] := by
  simp_all [save]

theorem nodup_save (h : (xs.map key).Nodup) : ((save key xs v).map key).Nodup := by
  unfold save
  split
  · rename_i hv
    obtain ⟨z, hz, hzk⟩ := List.any_eq_true.mp hv
    rw [List.map_map]
    convert h using 1
    exact List.map_congr_left fun w _ => by by_cases hw : key w = key v <;> simp_all
  · rename_i hv
    simp only [List.any_eq_true, not_exists, not_and, decide_eq_true_eq] at hv
    rw [List.map_append, List.nodup_append]
    refine ⟨h, List.nodup_singleton _, ?_⟩
    intro a ha hb
    obtain ⟨w, hw, rfl⟩ := List.mem_map.mp ha
    exact hv w hw (List.mem_singleton.mp hb)

theorem perm_remove (h : (xs.map key).Nodup) (hx : x ∈ xs) :
    xs.Perm (x :: remove key xs (key x)) := by
  induction xs with
  | nil => simp at hx
  | cons z zs ih =>
    rw [List.map_cons, List.nodup_cons] at h
    have hz : ∀ w ∈ zs, key w ≠ key z := fun w hw hk => h.1 (List.mem_map.mpr ⟨w, hw, hk⟩)
    rcases List.mem_cons.mp hx with rfl | hm
    · have hr : remove key (x :: zs) (key x) = zs := by
        rw [remove, List.filter_cons_of_neg (by simp)]
        exact List.filter_eq_self.mpr fun w hw => by simpa using hz w hw
      rw [hr]
    · have hne : key z ≠ key x := fun hk => hz x hm hk.symm
      have hr : remove key (z :: zs) (key x) = z :: remove key zs (key x) := by
        simp [remove, List.filter_cons, hne]
      rw [hr]
      exact ((ih h.2 hm).cons z).trans (List.Perm.swap x z _)

theorem save_perm (h : (xs.map key).Nodup) (hx : x ∈ xs) (hk : key x = key v) :
    (save key xs v).Perm (v :: remove key xs (key v)) := by
  have hnd := nodup_save (v := v) h
  have hv : v ∈ save key xs v := mem_save.mpr (.inl rfl)
  refine (perm_remove hnd hv).trans (List.Perm.cons v (List.Perm.of_eq ?_))
  unfold remove save
  rw [if_pos (List.any_eq_true.mpr ⟨x, hx, by simpa using hk⟩), List.filter_map]
  have hf : List.filter ((fun y => decide (key y ≠ key v)) ∘
      fun y => if key y = key v then v else y) xs = List.filter (fun y => decide (key y ≠ key v)) xs :=
    List.filter_congr fun w _ => by by_cases hw : key w = key v <;> simp [hw]
  rw [hf]
  calc _ = List.map id (List.filter (fun y => decide (key y ≠ key v)) xs) :=
        List.map_congr_left fun w hw => by simp [of_decide_eq_true (List.mem_filter.mp hw).2]
    _ = _ := List.map_id _

@[simp] theorem load_nil : load key ([] : List α) k = none := rfl

theorem load_cons : load key (v :: xs) k = if key v = k then some v else load key xs k := by
  by_cases h : key v = k <;> simp [load, List.find?_cons, h]

theorem save_eq_map (hx : x ∈ xs) (hk : key x = key v) :
    save key xs v = xs.map fun y => if key y = key v then v else y := by
  rw [save, if_pos (List.any_eq_true.mpr ⟨x, hx, by simpa using hk⟩)]

theorem map_key_save (hx : x ∈ xs) (hk : key x = key v) : (save key xs v).map key = xs.map key := by
  rw [save_eq_map hx hk, List.map_map]
  exact List.map_congr_left fun y _ => by by_cases hy : key y = key v <;> simp [hy]

theorem foldl_save {vs : List α} (hvs : ∀ v ∈ vs, key v ∈ xs.map key) (hnd : (vs.map key).Nodup) :
    vs.foldl (save key) xs = xs.map fun x => (load key vs (key x)).getD x := by
  induction vs generalizing xs with
  | nil => simp
  | cons v vs ih =>
    rw [List.map_cons, List.nodup_cons] at hnd
    obtain ⟨x, hx, hk⟩ := List.mem_map.mp (hvs v (List.mem_cons_self _ _))
    have hkeys := map_key_save hx hk
    rw [List.foldl_cons, ih (fun w hw => hkeys ▸ hvs w (List.mem_cons_of_mem _ hw)) hnd.2,
      save_eq_map hx hk, List.map_map]
    refine List.map_congr_left fun y _ => ?_
    by_cases hy : key y = key v
    · have hv : load key vs (key v) = none :=
        load_eq_none.mpr fun w hw hwk => hnd.1 (hwk ▸ List.mem_map_of_mem key hw)
      simp [hy, hv, load_cons]
    · simp [hy, load_cons, Ne.symm hy]

theorem map_load_of_map_key_eq {vs : List α} (hk : vs.map key = xs.map key)
    (hnd : (xs.map key).Nodup) : xs.map (fun x => (load key vs (key x)).getD x) = vs := by
  induction xs generalizing vs with
  | nil => cases vs <;> simp_all
  | cons x xs ih =>
    cases vs with
    | nil => simp at hk
    | cons v vs =>
      simp only [List.map_cons, List.cons.injEq] at hk
      rw [List.map_cons, List.nodup_cons] at hnd
      rw [List.map_cons, load_cons, if_pos hk.1, Option.getD_some]
      refine congrArg _ (Eq.trans (List.map_congr_left fun y hy => ?_) (ih hk.2 hnd.2))
      have hne : key v ≠ key y := fun h => hnd.1 (hk.1 ▸ h ▸ List.mem_map_of_mem key hy)
      rw [load_cons, if_neg hne]

theorem load_save (h : (xs.map key).Nodup) :
    load key (save key xs v) k = if key v = k then some v else load key xs k := by
  have hnd := nodup_save (v := v) h
  split
  · subst k
    exact load_of_mem hnd (mem_save.mpr (.inl rfl))
  · rename_i hne
    cases hx : load key xs k with
    | none =>
      refine load_eq_none.mpr fun y hy => ?_
      rcases mem_save.mp hy with rfl | ⟨hy, -⟩
      · exact hne
      · exact load_eq_none.mp hx y hy
    | some x =>
      obtain ⟨hxm, rfl⟩ := (load_eq_some h).mp hx
      exact (load_eq_some hnd).mpr ⟨mem_save.mpr (.inr ⟨hxm, Ne.symm hne⟩), rfl⟩

theorem load_remove_of_ne {k' : κ} (h : k' ≠ k) :
    load key (remove key xs k') k = load key xs k := by
  induction xs with
  | nil => rfl
  | cons x xs ih =>
    by_cases hx : key x = k'
    · rw [remove, List.filter_cons_of_neg (by simpa using hx), ← remove, ih, load_cons,
        if_neg (hx ▸ h)]
    · rw [remove, List.filter_cons_of_pos (by simpa using hx), ← remove, load_cons, ih, load_cons]

theorem load_map_replace (h : key v ≠ k) :
    load key (xs.map fun y => if key y = key v then v else y) k = load key xs k := by
  induction xs with
  | nil => rfl
  | cons x xs ih =>
    rw [List.map_cons, load_cons, load_cons, ih]
    by_cases hx : key x = key v
    · rw [if_pos hx, if_neg h, if_neg (hx ▸ h)]
    · rw [if_neg hx]

theorem load_save_of_ne (h : key v ≠ k) : load key (save key xs v) k = load key xs k := by
  unfold save
  split
  · exact load_map_replace h
  · simp [load, List.find?_append, h]

theorem sum_save (f : α → Nat) (h : (xs.map key).Nodup) :
    ((save key xs v).map f).sum + ((load key xs (key v)).map f).getD 0 = (xs.map f).sum + f v := by
  cases hx : load key xs (key v) with
  | none =>
    rw [save_of_forall_ne (load_eq_none.mp hx), List.map_append, List.sum_append]
    simp
  | some x =>
    obtain ⟨hx, hk⟩ := (load_eq_some h).mp hx
    have hs := ((save_perm h hx hk).map f).sum_eq
    have hr := ((perm_remove h hx).map f).sum_eq
    rw [hk] at hr
    simp only [List.map_cons, List.sum_cons, Option.map_some', Option.getD_some] at hs hr ⊢
    omega

end LiquidStaking.Store
