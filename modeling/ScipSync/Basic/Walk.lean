import Mathlib.Data.Finset.Card
import Mathlib.Logic.Relation

/-! Walks written as a function of the position: `w 0, w 1, ..., w k`, each
step related by `E`. The dependency traversal runs along such walks. When every
step leaves from a finite set `s`, a walk longer than `s.card` visits some
vertex twice: that closes a cycle (`length_le_of_acyclic`), or the loop between
the two visits can be cut out (`exists_short_walk`). -/

namespace ScipSync.Basic.Walk

variable {α : Type} {E : α → α → Prop}

/-- A relation that lowers a rank has no cycles. -/
theorem acyclic_of_rank (rank : α → Nat) (h : ∀ u v, E u v → rank v < rank u) (v : α) :
    ¬ Relation.TransGen E v v := by
  have hlt : ∀ {u w}, Relation.TransGen E u w → rank w < rank u := by
    intro u w huw
    induction huw with
    | single hs => exact h _ _ hs
    | tail _ hs ih => exact (h _ _ hs).trans ih
  exact fun hv => lt_irrefl _ (hlt hv)

/-- `w 0, ..., w k` is a walk of `E`. -/
def IsWalk (E : α → α → Prop) (k : Nat) (w : Nat → α) : Prop :=
  ∀ i < k, E (w i) (w (i + 1))

/-- The walk `v, w 0, w 1, ...`. -/
def cons (v : α) (w : Nat → α) : Nat → α
  | 0 => v
  | i + 1 => w i

@[simp] theorem cons_zero (v : α) (w : Nat → α) : cons v w 0 = v := rfl

@[simp] theorem cons_succ (v : α) (w : Nat → α) (i : Nat) : cons v w (i + 1) = w i := rfl

/-- Pigeonhole over positions `a, ..., a + n - 1`. -/
theorem exists_repeat [DecidableEq α] {s : Finset α} {w : Nat → α} (a : Nat) {n : Nat}
    (hn : s.card < n) (hs : ∀ i < n, w (a + i) ∈ s) :
    ∃ i j, i < j ∧ j < n ∧ w (a + i) = w (a + j) := by
  have hc : s.card < (Finset.range n).card := by simpa using hn
  have hm : ∀ i ∈ Finset.range n, w (a + i) ∈ s := fun i hi => hs i (Finset.mem_range.mp hi)
  obtain ⟨i, hi, j, hj, hne, heq⟩ := Finset.exists_ne_map_eq_of_card_lt_of_maps_to hc hm
  rw [Finset.mem_range] at hi hj
  rcases Nat.lt_or_gt_of_ne hne with h | h
  · exact ⟨i, j, h, hj, heq⟩
  · exact ⟨j, i, h, hi, heq.symm⟩

theorem transGen_of_walk {k : Nat} {w : Nat → α} (hw : IsWalk E k w) {i j : Nat}
    (hij : i < j) (hjk : j ≤ k) : Relation.TransGen E (w i) (w j) := by
  induction j with
  | zero => omega
  | succ j ih =>
    rcases Nat.lt_succ_iff_lt_or_eq.mp hij with h | rfl
    · exact .tail (ih h (by omega)) (hw j (by omega))
    · exact .single (hw i (by omega))

/-- A walk longer than `s.card`, whose steps leave from `s`, passes a vertex on
a cycle. -/
theorem exists_cycle_of_walk [DecidableEq α] {s : Finset α} (hE : ∀ u v, E u v → u ∈ s)
    {k : Nat} {w : Nat → α} (hw : IsWalk E k w) (hk : s.card < k) :
    ∃ i < k, Relation.TransGen E (w i) (w i) := by
  obtain ⟨i, j, hij, hjk, heq⟩ := exists_repeat 0 hk (fun i hi => hE _ _ (hw (0 + i) (by omega)))
  simp only [Nat.zero_add] at heq
  have hc := transGen_of_walk hw hij hjk.le
  rw [← heq] at hc
  exact ⟨i, by omega, hc⟩

/-- Without cycles, a walk whose steps leave from `s` is at most `s.card` long. -/
theorem length_le_of_acyclic [DecidableEq α] {s : Finset α} (hE : ∀ u v, E u v → u ∈ s)
    (hacyc : ∀ v, ¬ Relation.TransGen E v v) {k : Nat} {w : Nat → α} (hw : IsWalk E k w) :
    k ≤ s.card := by
  by_contra hk
  obtain ⟨i, -, hc⟩ := exists_cycle_of_walk hE hw (Nat.lt_of_not_le hk)
  exact hacyc _ hc

/-- The walk with the loop between positions `i` and `i + d` cut out. -/
def splice (w : Nat → α) (i d t : Nat) : α := if t ≤ i then w t else w (t + d)

theorem isWalk_splice {k : Nat} {w : Nat → α} (hw : IsWalk E k w) {i j : Nat} (hij : i < j)
    (hjk : j ≤ k) (heq : w i = w j) : IsWalk E (k - (j - i)) (splice w i (j - i)) := by
  intro t ht
  unfold splice
  rcases Nat.lt_trichotomy t i with h | rfl | h
  · rw [if_pos h.le, if_pos (show t + 1 ≤ i from h)]; exact hw t (by omega)
  · rw [if_pos le_rfl, if_neg (by omega), heq, show t + 1 + (j - t) = j + 1 by omega]
    exact hw j (by omega)
  · rw [if_neg (by omega), if_neg (by omega), show t + 1 + (j - i) = t + (j - i) + 1 by omega]
    exact hw _ (by omega)

/-- A walk whose steps leave from `s` can be shortened to at most `s.card`
steps between the same two ends. -/
theorem exists_short_walk [DecidableEq α] {s : Finset α} (hE : ∀ u v, E u v → u ∈ s) :
    ∀ (k : Nat) (w : Nat → α), IsWalk E k w →
      ∃ k' w', k' ≤ s.card ∧ IsWalk E k' w' ∧ w' 0 = w 0 ∧ w' k' = w k := by
  intro k
  induction k using Nat.strong_induction_on with
  | _ k ih =>
    intro w hw
    by_cases hk : k ≤ s.card
    · exact ⟨k, w, hk, hw, rfl, rfl⟩
    obtain ⟨i, j, hij, hjk, heq⟩ := exists_repeat 0 (Nat.lt_of_not_le hk)
      (fun i hi => hE _ _ (hw (0 + i) (by omega)))
    simp only [Nat.zero_add] at heq
    obtain ⟨k', w', hk', hw', h0, hend⟩ :=
      ih (k - (j - i)) (by omega) _ (isWalk_splice hw hij hjk.le heq)
    refine ⟨k', w', hk', hw', by rw [h0]; simp [splice], ?_⟩
    rw [hend, splice, if_neg (by omega), show k - (j - i) + (j - i) = k by omega]

end ScipSync.Basic.Walk
