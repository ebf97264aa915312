import Mathlib

/-!
# Lists

Facts about lists of anything that other modules use: the run of a class at the front of a list
and where it stops, the pieces between separators, traversals that give every result or none, and
places. Nothing here is about texts or words.
-/

namespace AccumulatorMachine.Lists

/-! ## Runs of a class -/

section

variable {α : Type} {p : α → Bool}

theorem head?_dropWhile_stop (p : α → Bool) (l : List α) : ∀ a ∈ (l.dropWhile p).head?, ¬ p a := by
  intro a ha
  have hstop := List.head?_dropWhile_not p l
  rw [ha] at hstop
  simpa using hstop

/-- Nothing is taken off a list that does not begin with the class. -/
theorem span_of_stop {rest : List α} (hstop : ∀ a ∈ rest.head?, ¬ p a) :
    rest.takeWhile p = [] ∧ rest.dropWhile p = rest := by
  cases rest with
  | nil => exact ⟨rfl, rfl⟩
  | cons a rest =>
      have ha : ¬ p a := hstop a rfl
      exact ⟨List.takeWhile_cons_of_neg ha, List.dropWhile_cons_of_neg ha⟩

/-- The longest run of a class in front of something that does not go on with it. -/
theorem span_append {run rest : List α} (hrun : ∀ a ∈ run, p a)
    (hstop : ∀ a ∈ rest.head?, ¬ p a) :
    (run ++ rest).takeWhile p = run ∧ (run ++ rest).dropWhile p = rest := by
  obtain ⟨htake, hdrop⟩ := span_of_stop hstop
  rw [List.takeWhile_append_of_pos hrun, List.dropWhile_append_of_pos hrun, htake, hdrop,
    List.append_nil]
  exact ⟨rfl, rfl⟩

theorem takeWhile_append_of_stop (l : List α) {rest : List α} (hstop : ∀ a ∈ rest.head?, ¬ p a) :
    (l ++ rest).takeWhile p = l.takeWhile p := by
  rw [List.takeWhile_append]
  split
  · rename_i hall
    rw [(span_of_stop hstop).1, List.append_nil, (List.takeWhile_prefix p).eq_of_length hall]
  · rfl

end

/-! ## Separators -/

theorem intercalate_cons {α : Type} (separator first : List α) (rest : List (List α)) :
    separator.intercalate (first :: rest) = first ++ rest.flatMap (separator ++ ·) := by
  induction rest generalizing first with
  | nil => rw [List.intercalate_singleton, List.flatMap_nil, List.append_nil]
  | cons next rest ih =>
      rw [List.intercalate_cons_cons, ih, List.flatMap_cons, List.append_assoc, List.append_assoc]

section

variable {α : Type} [DecidableEq α] (separator : α)

theorem not_mem_of_mem_splitOn (l : List α) : ∀ piece ∈ l.splitOn separator, separator ∉ piece := by
  induction l with
  | nil => simp
  | cons a l ih =>
      rw [List.splitOn_cons_eq_if_modifyHead]
      split
      · exact List.forall_mem_cons.mpr ⟨List.not_mem_nil, ih⟩
      · rename_i ha
        obtain ⟨piece, pieces, hsplit⟩ :=
          List.exists_cons_of_ne_nil (List.splitOn_ne_nil separator l)
        rw [hsplit] at ih ⊢
        obtain ⟨hpiece, hpieces⟩ := List.forall_mem_cons.mp ih
        refine List.forall_mem_cons.mpr ⟨?_, hpieces⟩
        refine List.not_mem_cons_of_ne_of_not_mem ?_ hpiece
        intro heq
        exact ha (by simp [← heq])

/-- There is one more piece than there are separators. -/
theorem length_splitOn (l : List α) :
    (l.splitOn separator).length = l.count separator + 1 := by
  induction l with
  | nil => simp
  | cons a l ih =>
      rw [List.splitOn_cons_eq_if_modifyHead, List.count_cons]
      split
      · rw [List.length_cons, ih]
      · rw [List.length_modifyHead, ih]

end

/-! ## Traversals -/

theorem mapM_eq_some_iff {α β : Type} {f : α → Option β} {l : List α} {r : List β} :
    l.mapM f = some r ↔ l.map f = r.map some := by
  induction l generalizing r with
  | nil => cases r <;> simp
  | cons a l ih =>
      rw [List.mapM_cons, List.map_cons]
      cases r with
      | nil => cases f a <;> cases l.mapM f <;> simp
      | cons b r =>
          rw [List.map_cons, List.cons.injEq, ← ih]
          cases f a <;> cases l.mapM f <;> simp

/-! ## Places -/

/-- The element behind others that lack a property is the first that has it. -/
theorem isLeast_place {α : Type} {Q : α → Prop} {before after : List α} {a : α}
    (hbefore : ∀ earlier ∈ before, ¬ Q earlier) (ha : Q a) :
    IsLeast {k | ∃ other, (before ++ a :: after)[k]? = some other ∧ Q other} before.length := by
  refine ⟨⟨a, by simp, ha⟩, ?_⟩
  rintro k ⟨other, hother, hQ⟩
  by_contra hlt
  rw [List.getElem?_append_left (Nat.lt_of_not_le hlt)] at hother
  exact hbefore other (List.mem_of_getElem? hother) hQ

/-- The numbers between two others, in order. -/
theorem filter_range {start stop size : Nat} (h : stop ≤ size) :
    (List.range size).filter (fun i => start ≤ i ∧ i < stop)
      = List.range' start (stop - start) := by
  have hsorted : ((List.range size).filter fun i => start ≤ i ∧ i < stop).Pairwise (· < ·) :=
    List.pairwise_lt_range.filter _
  refine List.Perm.eq_of_pairwise (fun i j _ _ hij hji => by omega) hsorted
    (List.pairwise_lt_range' 1) ?_
  refine (List.perm_ext_iff_of_nodup (List.nodup_range.filter _)
    (List.nodup_range' ..)).mpr fun i => ?_
  rw [List.mem_filter, List.mem_range, List.mem_range'_1, decide_eq_true_iff]
  omega

end AccumulatorMachine.Lists
