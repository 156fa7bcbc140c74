import Mathlib

/-! # Facts about lists

The elements of a list of which one is replaced or erased, the pairs of a list in their
order, and the front of a sorted list.
-/

namespace List

variable {α : Type*} {a b c : α} {l : List α} {i : ℕ}

theorem mem_set_of_mem (hc : c ∈ l) (ha : l[i]? = some a) : c = a ∨ c ∈ l.set i b := by
  obtain ⟨j, hj⟩ := mem_iff_getElem?.mp hc
  by_cases hij : i = j
  · subst hij
    rw [ha] at hj
    exact .inl (Option.some.inj hj).symm
  · exact .inr (mem_iff_getElem?.mpr ⟨j, by rw [getElem?_set_ne hij, hj]⟩)

theorem mem_eraseIdx_of_mem (hc : c ∈ l) (ha : l[i]? = some a) : c = a ∨ c ∈ l.eraseIdx i := by
  obtain ⟨j, hj⟩ := mem_iff_getElem?.mp hc
  by_cases hij : j = i
  · subst hij
    rw [ha] at hj
    exact .inl (Option.some.inj hj).symm
  · exact .inr (mem_eraseIdx_iff_getElem?.mpr ⟨j, hij, hj⟩)

theorem sublist_pair_total (ha : a ∈ l) (hb : b ∈ l) : a = b ∨ [a, b] <+ l ∨ [b, a] <+ l := by
  induction l with
  | nil => cases ha
  | cons c l ih =>
    rcases mem_cons.mp ha with rfl | ha'
    · rcases mem_cons.mp hb with rfl | hb'
      · exact .inl rfl
      · exact .inr (.inl ((singleton_sublist.mpr hb').cons_cons _))
    · rcases mem_cons.mp hb with rfl | hb'
      · exact .inr (.inr ((singleton_sublist.mpr ha').cons_cons _))
      · exact (ih ha' hb').imp_right (Or.imp (.cons _) (.cons _))

theorem sublist_pair_cons (h : [a, b] <+ c :: l) (hne : a ≠ c) : [a, b] <+ l := by
  rcases sublist_cons_iff.mp h with h | ⟨r, heq, -⟩
  · exact h
  · cases heq
    exact absurd rfl hne

theorem takeWhile_eq_filter {p : α → Bool} {R : α → α → Prop} (hl : l.Pairwise R)
    (hp : ∀ a b, R a b → p b = true → p a = true) : l.takeWhile p = l.filter p := by
  induction l with
  | nil => rfl
  | cons a l ih =>
    obtain ⟨ha, hl⟩ := pairwise_cons.mp hl
    cases hpa : p a with
    | true => rw [takeWhile_cons_of_pos hpa, filter_cons_of_pos hpa, ih hl]
    | false =>
      rw [takeWhile_cons_of_neg (by simp [hpa]), filter_cons_of_neg (by simp [hpa]), eq_comm,
        filter_eq_nil_iff]
      intro b hb hpb
      rw [hp a b (ha b hb) hpb] at hpa
      cases hpa

end List
