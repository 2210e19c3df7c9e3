import MarkSweep.Proofs.Tiling
/-!
# Maximal runs of granules

`MaximalRuns p n runs` says that `runs`, each a first granule and a count, are the maximal runs of granules below `n` that
satisfy `p`, in ascending order.  There is only one such list (`MaximalRuns.unique`); the free tiles of a tiling are it
for the granules that no tile in use covers (`Tiling.maximalRuns`).
-/
namespace MarkSweep

structure MaximalRuns (p : Nat → Prop) (n : Nat) (runs : List (Nat × Nat)) : Prop where
  nonempty : ∀ r ∈ runs, 0 < r.2
  /-- Ascending, and with a granule between one run and the next. -/
  apart : runs.Pairwise fun r t => r.1 + r.2 < t.1
  covers : ∀ i, (∃ r ∈ runs, r.1 ≤ i ∧ i < r.1 + r.2) ↔ i < n ∧ p i

namespace MaximalRuns

theorem eq_of_covers : ∀ {rs ts : List (Nat × Nat)}, (∀ r ∈ rs, 0 < r.2) → (∀ t ∈ ts, 0 < t.2) →
    rs.Pairwise (fun r t => r.1 + r.2 < t.1) → ts.Pairwise (fun r t => r.1 + r.2 < t.1) →
    (∀ i, (∃ r ∈ rs, r.1 ≤ i ∧ i < r.1 + r.2) ↔ ∃ t ∈ ts, t.1 ≤ i ∧ i < t.1 + t.2) → rs = ts
  | [], [], _, _, _, _, _ => rfl
  | [], t :: ts, _, ht, _, _, h => by
    obtain ⟨r, hr, -⟩ := (h t.1).2 ⟨t, by simp, Nat.le_refl _, Nat.lt_add_of_pos_right (ht t (by simp))⟩
    cases hr
  | r :: rs, [], hr, _, _, _, h => by
    obtain ⟨t, ht, -⟩ := (h r.1).1 ⟨r, by simp, Nat.le_refl _, Nat.lt_add_of_pos_right (hr r (by simp))⟩
    cases ht
  | r :: rs, t :: ts, hr, ht, hrs, hts, h => by
    obtain ⟨hr1, hrs'⟩ := List.pairwise_cons.1 hrs
    obtain ⟨ht1, hts'⟩ := List.pairwise_cons.1 hts
    have hrpos := hr r (by simp)
    have htpos := ht t (by simp)
    -- a granule that is covered lies in the first run, or behind it with a granule between
    have hin {u : Nat × Nat} {us : List (Nat × Nat)} (hu : ∀ v ∈ us, u.1 + u.2 < v.1) {i : Nat}
        (hi : ∃ v ∈ u :: us, v.1 ≤ i ∧ i < v.1 + v.2) : u.1 ≤ i ∧ (i < u.1 + u.2 ∨ u.1 + u.2 < i) := by
      obtain ⟨v, hv, h1, h2⟩ := hi
      rcases List.mem_cons.1 hv with rfl | hv
      · exact ⟨h1, .inl h2⟩
      · have := hu v hv
        omega
    have hfirst : r.1 = t.1 := by
      have h1 := hin ht1 ((h r.1).1 ⟨r, by simp, Nat.le_refl _, by omega⟩)
      have h2 := hin hr1 ((h t.1).2 ⟨t, by simp, Nat.le_refl _, by omega⟩)
      omega
    have hcount : r.2 = t.2 := by
      apply Classical.byContradiction
      intro hne
      rcases Nat.lt_or_gt_of_ne hne with hlt | hlt
      · have := hin hr1 ((h (r.1 + r.2)).2 ⟨t, by simp, by omega, by omega⟩)
        omega
      · have := hin ht1 ((h (t.1 + t.2)).1 ⟨r, by simp, by omega, by omega⟩)
        omega
    obtain rfl : r = t := Prod.ext hfirst hcount
    refine congrArg (r :: ·)
      (eq_of_covers (fun v hv => hr v (by simp [hv])) (fun v hv => ht v (by simp [hv])) hrs' hts' ?_)
    intro i
    constructor
    · rintro ⟨v, hv, h1, h2⟩
      obtain ⟨w, hw, h3, h4⟩ := (h i).1 ⟨v, by simp [hv], h1, h2⟩
      rcases List.mem_cons.1 hw with rfl | hw
      · have := hr1 v hv
        omega
      · exact ⟨w, hw, h3, h4⟩
    · rintro ⟨v, hv, h1, h2⟩
      obtain ⟨w, hw, h3, h4⟩ := (h i).2 ⟨v, by simp [hv], h1, h2⟩
      rcases List.mem_cons.1 hw with rfl | hw
      · have := ht1 v hv
        omega
      · exact ⟨w, hw, h3, h4⟩

/-- **There is one list of maximal runs.** -/
theorem unique {p : Nat → Prop} {n : Nat} {rs ts : List (Nat × Nat)} (hr : MaximalRuns p n rs) (ht : MaximalRuns p n ts) :
    rs = ts :=
  eq_of_covers hr.nonempty ht.nonempty hr.apart ht.apart fun i => (hr.covers i).trans (ht.covers i).symm

end MaximalRuns

theorem Tiling.freeTiles_apart : ∀ {ts : List Tile} {lo hi : Nat}, Tiling lo ts hi → Separated ts →
    (freeTiles ts).Pairwise fun t u => t.stop < u.first
  | [], _, _, _, _ => .nil
  | t :: ts, _, _, ⟨_, _, h⟩, hsep => by
    obtain ⟨hhead, hsep⟩ := separated_cons.1 hsep
    have ih := h.freeTiles_apart hsep
    by_cases ht : t.IsFree
    · rw [freeTiles_cons_of_free ht]
      refine List.pairwise_cons.2 ⟨?_, ih⟩
      intro u hu
      obtain ⟨hmem, hfree⟩ := mem_freeTiles.1 hu
      apply Nat.lt_of_le_of_ne (h.bounds hmem).1
      intro he
      -- a free tile that starts where `t` stops is the next one
      cases ts with
      | nil => cases hmem
      | cons v vs =>
        have hv : v = u := h.eq_of_first (by simp) hmem (h.1.trans he)
        exact hhead v rfl ⟨ht, hv ▸ hfree⟩
    · rwa [freeTiles_cons_of_not ht]

/-- **The free tiles are the maximal runs of granules that no tile in use covers.** -/
theorem Tiling.maximalRuns {ts : List Tile} {n : Nat} (h : Tiling 0 ts n) (hsep : Separated ts) :
    MaximalRuns (fun i => ∀ t ∈ usedTiles ts, ¬t.Covers i) n ((freeTiles ts).map fun t => (t.first, t.count)) := by
  refine ⟨?_, ?_, ?_⟩
  · intro r hr
    obtain ⟨t, ht, rfl⟩ := List.mem_map.1 hr
    exact (h.bounds (mem_freeTiles.1 ht).1).2.1
  · rw [List.pairwise_map]
    exact h.freeTiles_apart hsep
  · intro i
    constructor
    · rintro ⟨r, hr, hi⟩
      obtain ⟨t, ht, rfl⟩ := List.mem_map.1 hr
      obtain ⟨hmem, hfree⟩ := mem_freeTiles.1 ht
      refine ⟨Nat.lt_of_lt_of_le hi.2 (h.bounds hmem).2.2, ?_⟩
      intro u hu hcov
      obtain ⟨humem, hunot⟩ := mem_usedTiles.1 hu
      exact hunot (h.eq_of_covers humem hmem hcov hi ▸ hfree)
    · rintro ⟨hi, hnone⟩
      obtain ⟨t, ht, hcov⟩ := h.exists_covers (Nat.zero_le i) hi
      have hfree : t.IsFree := Classical.byContradiction fun hnot => hnone t (mem_usedTiles.2 ⟨ht, hnot⟩) hcov
      exact ⟨_, List.mem_map_of_mem (mem_freeTiles.2 ⟨ht, hfree⟩), hcov⟩

end MarkSweep
