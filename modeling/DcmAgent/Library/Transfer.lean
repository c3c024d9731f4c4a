import Mathlib.Tactic

/-!
# Moving entries of a map one by one

A transfer moves entries from source keys to destination keys: each of them is copied and then
removed. `Partial` is the result of a transfer that may have been cut off between two operations,
and `Complete` is the result of one that has come to its end. A cut-off transfer that is started
again and completed has the result of one that was never cut off.
-/

namespace DcmAgent.Library

/-! ### Folds, seen at one index -/

section Fold

variable {σ τ ι : Type*} {g : σ → ι → σ} {I : σ → Prop} {π : σ → τ} {Q : τ → τ → Prop} {i : ι}

/-- Steps at other indices leave what is seen, and steps at `i` are related. -/
structure SeenAt (g : σ → ι → σ) (I : σ → Prop) (π : σ → τ) (Q : τ → τ → Prop) (i : ι) :
    Prop where
  inv : ∀ s j, I s → I (g s j)
  other : ∀ s j, I s → j ≠ i → π (g s j) = π s
  self : ∀ s, I s → Q (π s) (π (g s i))

lemma SeenAt.foldl (h : SeenAt g I π Q i) (htrans : ∀ x y z, Q x y → Q y z → Q x z)
    {l : List ι} {s : σ} (hs : I s) :
    π (l.foldl g s) = π s ∧ i ∉ l ∨ Q (π s) (π (l.foldl g s)) := by
  induction l generalizing s with
  | nil => exact Or.inl ⟨rfl, List.not_mem_nil⟩
  | cons j l ih =>
    rw [List.foldl_cons]
    by_cases hj : j = i
    · subst hj
      have hstep := h.self s hs
      rcases ih (h.inv s j hs) with ⟨heq, -⟩ | hrest
      · rw [heq]
        exact Or.inr hstep
      · exact Or.inr (htrans _ _ _ hstep hrest)
    · have hsame := h.other s j hs hj
      rcases ih (h.inv s j hs) with ⟨heq, hmem⟩ | hrest
      · refine Or.inl ⟨heq.trans hsame, ?_⟩
        simp only [List.mem_cons, not_or]
        exact ⟨Ne.symm hj, hmem⟩
      · rw [hsame] at hrest
        exact Or.inr hrest

/-- The index is among those of the fold. -/
lemma SeenAt.foldl_mem (h : SeenAt g I π Q i) (htrans : ∀ x y z, Q x y → Q y z → Q x z)
    {l : List ι} {s : σ} (hs : I s) (hi : i ∈ l) : Q (π s) (π (l.foldl g s)) := by
  rcases h.foldl htrans hs with ⟨-, hno⟩ | hQ
  · exact absurd hi hno
  · exact hQ

end Fold

/-! ### Transfers -/

/-- The items of a transfer, with their keys, and how entries are read and written. No source key
is the destination of an eligible item. -/
structure Transfer (ρ κ ν γ : Type*) where
  src : ρ → κ
  dst : ρ → κ
  eligible : ρ → Prop
  read : ν → Option γ
  write : Option ν → γ → ν
  src_injective : Function.Injective src
  dst_injective : Function.Injective dst
  disjoint : ∀ r r', eligible r' → src r ≠ dst r'
  write_write : ∀ o c, write (some (write o c)) c = write o c

namespace Transfer

variable {ρ κ ν γ : Type*} (T : Transfer ρ κ ν γ) {f f' f'' : κ → Option ν}

/-- An eligible item with a content. -/
def Movable (f : κ → Option ν) (r : ρ) (c : γ) : Prop :=
  T.eligible r ∧ (f (T.src r)).bind T.read = some c

def Untouched (f f' : κ → Option ν) (r : ρ) : Prop :=
  f' (T.src r) = f (T.src r) ∧ f' (T.dst r) = f (T.dst r)

def Copied (f f' : κ → Option ν) (r : ρ) (c : γ) : Prop :=
  f' (T.src r) = f (T.src r) ∧ f' (T.dst r) = some (T.write (f (T.dst r)) c)

def Moved (f f' : κ → Option ν) (r : ρ) (c : γ) : Prop :=
  f' (T.src r) = none ∧ f' (T.dst r) = some (T.write (f (T.dst r)) c)

/-- Only keys of items that can be moved change. -/
def Framed (f f' : κ → Option ν) : Prop :=
  ∀ k, (∀ r c, T.Movable f r c → k ≠ T.src r ∧ k ≠ T.dst r) → f' k = f k

structure Partial (f f' : κ → Option ν) : Prop where
  item : ∀ r c, T.Movable f r c → T.Untouched f f' r ∨ T.Copied f f' r c ∨ T.Moved f f' r c
  frame : T.Framed f f'

structure Complete (f f' : κ → Option ν) : Prop where
  item : ∀ r c, T.Movable f r c → T.Moved f f' r c
  frame : T.Framed f f'

variable {T}

lemma Complete.toPartial (h : T.Complete f f') : T.Partial f f' :=
  ⟨fun r c hr => Or.inr (Or.inr (h.item r c hr)), h.frame⟩

/-- The key is not one of another item that can be moved. -/
lemma Framed.src (h : T.Framed f f') {r : ρ} (hr : ∀ c, ¬T.Movable f r c) :
    f' (T.src r) = f (T.src r) := by
  apply h
  intro r' c hr'
  refine ⟨fun heq => ?_, T.disjoint r r' hr'.1⟩
  obtain rfl := T.src_injective heq
  exact hr c hr'

lemma Framed.dst (h : T.Framed f f') {r : ρ} (helig : T.eligible r) (hr : ∀ c, ¬T.Movable f r c) :
    f' (T.dst r) = f (T.dst r) := by
  apply h
  intro r' c hr'
  refine ⟨(T.disjoint r' r helig).symm, fun heq => ?_⟩
  obtain rfl := T.dst_injective heq
  exact hr c hr'

/-- What can still be moved could be moved before. -/
lemma Partial.movable (h : T.Partial f f') {r : ρ} {c : γ} (hr : T.Movable f' r c) :
    T.Movable f r c := by
  refine ⟨hr.1, ?_⟩
  by_cases hmov : ∃ c', T.Movable f r c'
  · obtain ⟨c', hc'⟩ := hmov
    rcases h.item r c' hc' with hitem | hitem | hitem
    · rw [← hitem.1]
      exact hr.2
    · rw [← hitem.1]
      exact hr.2
    · have := hr.2
      simp [hitem.1] at this
  · rw [← h.frame.src (not_exists.mp hmov)]
    exact hr.2

lemma Partial.refl : T.Partial f f :=
  ⟨fun _ _ _ => Or.inl ⟨rfl, rfl⟩, fun _ _ => rfl⟩

section Step

variable [DecidableEq κ]

/-- One more item is copied. -/
lemma Partial.copied (h : T.Partial f f') {r : ρ} {c : γ} (hr : T.Movable f' r c) :
    T.Copied f (Function.update f' (T.dst r) (some (T.write (f' (T.dst r)) c))) r c := by
  have hsrc : T.src r ≠ T.dst r := T.disjoint r r hr.1
  rw [Copied, Function.update_of_ne hsrc, Function.update_self]
  rcases h.item r c (h.movable hr) with ⟨hs, hd⟩ | ⟨hs, hd⟩ | ⟨hs, -⟩
  · exact ⟨hs, by rw [hd]⟩
  · exact ⟨hs, by rw [hd, T.write_write]⟩
  · have := hr.2
    simp [hs] at this

lemma Partial.copy (h : T.Partial f f') {r : ρ} {c : γ} (hr : T.Movable f' r c) :
    T.Partial f (Function.update f' (T.dst r) (some (T.write (f' (T.dst r)) c))) := by
  have hr₀ := h.movable hr
  constructor
  · intro r' c' hr'
    by_cases heq : r' = r
    · subst heq
      obtain rfl : c' = c := Option.some.inj (hr'.2.symm.trans hr₀.2)
      exact Or.inr (Or.inl (h.copied hr))
    · have hsrc : T.src r' ≠ T.dst r := T.disjoint r' r hr.1
      have hdst : T.dst r' ≠ T.dst r := fun hd => heq (T.dst_injective hd)
      simp only [Untouched, Copied, Moved, Function.update_of_ne hsrc, Function.update_of_ne hdst]
      exact h.item r' c' hr'
  · intro k hk
    rw [Function.update_of_ne (hk r c hr₀).2]
    exact h.frame k hk

/-- A copied item is removed. -/
lemma Partial.remove (h : T.Partial f f') {r : ρ} {c : γ} (hr : T.Movable f r c)
    (hcopied : T.Copied f f' r c) : T.Partial f (Function.update f' (T.src r) none) := by
  constructor
  · intro r' c' hr'
    have hdst : T.dst r' ≠ T.src r := (T.disjoint r r' hr'.1).symm
    by_cases heq : r' = r
    · subst heq
      obtain rfl : c' = c := Option.some.inj (hr'.2.symm.trans hr.2)
      right
      right
      refine ⟨Function.update_self _ _ _, ?_⟩
      rw [Function.update_of_ne hdst]
      exact hcopied.2
    · have hsrc : T.src r' ≠ T.src r := fun hs => heq (T.src_injective hs)
      simp only [Untouched, Copied, Moved, Function.update_of_ne hsrc, Function.update_of_ne hdst]
      exact h.item r' c' hr'
  · intro k hk
    rw [Function.update_of_ne (hk r c hr).1]
    exact h.frame k hk

end Step

/-- The rest of a transfer that has been cut off. -/
theorem Partial.complete (h : T.Partial f f') (h' : T.Complete f' f'') : T.Complete f f'' := by
  constructor
  · intro r c hr
    have hrest : ∀ c', f' (T.src r) = none → ¬T.Movable f' r c' := fun c' hnone hmov => by
      have := hmov.2
      simp [hnone] at this
    rcases h.item r c hr with ⟨hsrc, hdst⟩ | ⟨hsrc, hdst⟩ | ⟨hsrc, hdst⟩
    · have hmov : T.Movable f' r c := ⟨hr.1, by rw [hsrc]; exact hr.2⟩
      obtain ⟨hsrc', hdst'⟩ := h'.item r c hmov
      exact ⟨hsrc', by rw [hdst', hdst]⟩
    · have hmov : T.Movable f' r c := ⟨hr.1, by rw [hsrc]; exact hr.2⟩
      obtain ⟨hsrc', hdst'⟩ := h'.item r c hmov
      exact ⟨hsrc', by rw [hdst', hdst, T.write_write]⟩
    · have hno : ∀ c', ¬T.Movable f' r c' := fun c' => hrest c' hsrc
      refine ⟨?_, ?_⟩
      · rw [h'.frame.src hno, hsrc]
      · rw [h'.frame.dst hr.1 hno, hdst]
  · intro k hk
    rw [h'.frame k fun r c hr => hk r c (h.movable hr), h.frame k hk]

/-- Nothing is left to move at the end. -/
lemma Complete.none_movable (h : T.Complete f f') : ∀ r c, ¬T.Movable f' r c := by
  intro r c hr
  obtain ⟨hsrc, -⟩ := h.item r c (h.toPartial.movable hr)
  have := hr.2
  simp [hsrc] at this

/-- There is one result of a complete transfer. -/
theorem Complete.unique (h : T.Complete f f') (h' : T.Complete f f'') : f' = f'' := by
  funext k
  by_cases hk : ∀ r c, T.Movable f r c → k ≠ T.src r ∧ k ≠ T.dst r
  · rw [h.frame k hk, h'.frame k hk]
  · push Not at hk
    obtain ⟨r, c, hr, hkey⟩ := hk
    obtain ⟨hsrc, hdst⟩ := h.item r c hr
    obtain ⟨hsrc', hdst'⟩ := h'.item r c hr
    by_cases hs : k = T.src r
    · rw [hs, hsrc, hsrc']
    · rw [hkey hs, hdst, hdst']

/-- With nothing to move nothing changes. -/
lemma Framed.eq (h : T.Framed f f') (hno : ∀ r c, ¬T.Movable f r c) : f' = f := by
  funext k
  exact h k fun r c hr => absurd hr (hno r c)

end Transfer

end DcmAgent.Library
