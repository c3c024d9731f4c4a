import Mathlib.Tactic

/-!
# Numbered lists

Items give lists, and `numbered` puts the number of its item to each element. Two ways of giving
that agree in the numbers too agree at each item up to the bound, and not only in the end.
-/

namespace DcmAgent.Library

variable {α β : Type*}

/-- What the items give, each element with the number of its item. -/
def numbered (f : α → List β) (k : ℕ) (l : List α) : List (ℕ × β) :=
  (l.zipIdx k).flatMap fun a => (f a.1).map fun b => (a.2, b)

variable {f g : α → List β} {k : ℕ} {a : α} {l : List α}

lemma numbered_cons (f : α → List β) (k : ℕ) (a : α) (l : List α) :
    numbered f k (a :: l) = (f a).map (fun b => (k, b)) ++ numbered f (k + 1) l := rfl

lemma le_of_mem_numbered {x : ℕ × β} (h : x ∈ numbered f k l) : k ≤ x.1 := by
  obtain ⟨a, ha, hx⟩ := List.mem_flatMap.mp h
  obtain ⟨b, -, rfl⟩ := List.mem_map.mp hx
  exact List.le_snd_of_mem_zipIdx ha

/-- The numbers aside. -/
lemma map_snd_numbered (f : α → List β) (k : ℕ) (l : List α) :
    (numbered f k l).map Prod.snd = l.flatMap f := by
  induction l generalizing k with
  | nil => rfl
  | cons a l ih =>
    rw [numbered_cons, List.map_append, ih, List.map_map, List.flatMap_cons]
    simp

lemma numbered_map {γ : Type*} (f : α → List β) (h : β → γ) (k : ℕ) (l : List α) :
    numbered (fun a => (f a).map h) k l = (numbered f k l).map (Prod.map id h) := by
  induction l generalizing k with
  | nil => rfl
  | cons a l ih =>
    rw [numbered_cons, numbered_cons, List.map_append, ih, List.map_map, List.map_map]
    rfl

/-- The first element with the number of the first item is the first element of that item. -/
lemma head?_numbered_cons_eq_some {b : β} :
    (numbered f k (a :: l)).head? = some (k, b) ↔ (f a).head? = some b := by
  rw [numbered_cons]
  match h : f a with
  | [] =>
    simp only [List.map_nil, List.nil_append, List.head?_nil, reduceCtorEq, iff_false]
    intro hhead
    exact absurd (le_of_mem_numbered (List.mem_of_head? hhead)) (by simp)
  | b' :: bs => simp

lemma head?_eq_of_numbered_cons
    (h : (numbered f k (a :: l)).head? = (numbered g k (a :: l)).head?) :
    (f a).head? = (g a).head? := by
  refine Option.ext fun b => ?_
  rw [← head?_numbered_cons_eq_some (k := k) (l := l), h, head?_numbered_cons_eq_some]

lemma numbered_cons_of_head?_eq_none (h : (f a).head? = none) :
    numbered f k (a :: l) = numbered f (k + 1) l := by
  rw [numbered_cons, List.head?_eq_none_iff.mp h]
  rfl

/-- The first elements are the same exactly if they are at each item up to the first that is to
give one. -/
lemma head?_numbered_eq_iff (k : ℕ) (l : List α) :
    (numbered f k l).head? = (numbered g k l).head? ↔
      ∀ x a y, l = x ++ a :: y → (∀ b ∈ x, (g b).head? = none) → (f a).head? = (g a).head? := by
  induction l generalizing k with
  | nil =>
    refine iff_of_true rfl fun x a y h => ?_
    exact absurd h (by simp)
  | cons a l ih =>
    by_cases ha : (f a).head? = (g a).head?
    swap
    · refine iff_of_false (fun h => ha (head?_eq_of_numbered_cons h)) fun h => ha ?_
      exact h [] a l rfl (by simp)
    match hg : (g a).head? with
    | none =>
      rw [numbered_cons_of_head?_eq_none hg, numbered_cons_of_head?_eq_none (ha.trans hg), ih]
      constructor
      · intro h x a' y hsplit hx
        match x with
        | [] =>
          obtain ⟨rfl, -⟩ := List.cons.inj hsplit
          exact ha
        | b :: x =>
          obtain ⟨rfl, htail⟩ := List.cons.inj hsplit
          exact h x a' y htail fun b' hb' => hx b' (List.mem_cons_of_mem _ hb')
      · intro h x a' y hsplit hx
        refine h (a :: x) a' y (by rw [hsplit]; rfl) ?_
        exact List.forall_mem_cons.mpr ⟨hg, hx⟩
    | some b =>
      refine iff_of_true ?_ fun x a' y hsplit hx => ?_
      · rw [head?_numbered_cons_eq_some.mpr (ha.trans hg), head?_numbered_cons_eq_some.mpr hg]
      · match x with
        | [] =>
          obtain ⟨rfl, -⟩ := List.cons.inj hsplit
          exact ha
        | b' :: x =>
          obtain ⟨rfl, -⟩ := List.cons.inj hsplit
          rw [hx a List.mem_cons_self] at hg
          cases hg

/-- The first `n` elements are the same exactly if every item in front of which there are fewer
gives the same, provided that an item is told by its first element. -/
lemma take_numbered_eq_iff (hhead : ∀ a, (f a).head? = (g a).head? → f a = g a) (n k : ℕ)
    (l : List α) :
    (numbered f k l).take n = (numbered g k l).take n ↔
      ∀ x a y, l = x ++ a :: y → (x.flatMap g).length < n → f a = g a := by
  induction l generalizing n k with
  | nil =>
    refine iff_of_true rfl fun x a y h => ?_
    exact absurd h (by simp)
  | cons a l ih =>
    by_cases ha : f a = g a
    · rw [numbered_cons, numbered_cons, ha, List.take_append, List.take_append,
        List.append_cancel_left_eq, List.length_map, ih]
      constructor
      · intro h x a' y hsplit hlen
        match x with
        | [] =>
          obtain ⟨rfl, -⟩ := List.cons.inj hsplit
          exact ha
        | b :: x =>
          obtain ⟨rfl, htail⟩ := List.cons.inj hsplit
          refine h x a' y htail ?_
          rw [List.flatMap_cons, List.length_append] at hlen
          omega
      · intro h x a' y hsplit hlen
        refine h (a :: x) a' y (by rw [hsplit]; rfl) ?_
        rw [List.flatMap_cons, List.length_append]
        omega
    · match n with
      | 0 => simp
      | n + 1 =>
        refine iff_of_false (fun h => ?_) fun h => ?_
        · have hfirst := congrArg List.head? h
          rw [List.head?_take, List.head?_take, if_neg n.succ_ne_zero,
            if_neg n.succ_ne_zero] at hfirst
          exact ha (hhead a (head?_eq_of_numbered_cons hfirst))
        · exact ha (h [] a l rfl (Nat.succ_pos n))

end DcmAgent.Library
