import Mathlib.Data.List.TakeWhile
import Mathlib.Tactic

/-!
# Character arrays

A C array of `n` characters, the string it holds, and what `snprintf` leaves in it.
-/

namespace DcmAgent.Library

/-- The terminating character. -/
def nul : Char := Char.ofNat 0

/-- An array of `n` characters. -/
structure CBuffer (n : ℕ) where
  chars : List Char
  length_eq : chars.length = n
  deriving DecidableEq, Repr

namespace CBuffer

variable {n : ℕ}

/-- The array filled with one character. -/
def fill (n : ℕ) (c : Char) : CBuffer n := ⟨List.replicate n c, by simp⟩

/-- The string in the array: the characters before the first terminator. -/
def str (b : CBuffer n) : List Char := b.chars.takeWhile (· ≠ nul)

/-- The array after `snprintf(b, n, "%s", s)`: the text is cut off at `n - 1` characters and
terminated, and the characters behind the terminator keep their values. -/
def snprintf (b : CBuffer n) (s : List Char) : CBuffer n where
  chars := (s.take (n - 1) ++ nul :: b.chars.drop ((s.take (n - 1)).length + 1)).take n
  length_eq := by
    have := b.length_eq
    simp only [List.length_take, List.length_append, List.length_cons, List.length_drop]
    omega

lemma nul_notMem_str (b : CBuffer n) : nul ∉ b.str := fun h => by
  have hall : b.str.all (· ≠ nul) = true := List.all_takeWhile
  simpa using List.all_eq_true.mp hall nul h

lemma length_str_le (b : CBuffer n) : b.str.length ≤ n :=
  (List.takeWhile_prefix _).length_le.trans b.length_eq.le

/-- A text that fits is read back, up to its first terminator. -/
lemma str_snprintf_eq (b : CBuffer n) {s : List Char} (hlen : s.length < n) :
    (b.snprintf s).str = s.takeWhile (· ≠ nul) := by
  obtain ⟨m, rfl⟩ : ∃ m, n = s.length + 1 + m := ⟨n - (s.length + 1), by omega⟩
  have htake : s.take (s.length + 1 + m - 1) = s := List.take_of_length_le (by omega)
  have hcut (rest : List Char) : (s ++ nul :: rest).take (s.length + 1 + m) =
      s ++ nul :: rest.take m := by
    rw [Nat.add_assoc, List.take_length_add_append, Nat.add_comm 1 m, List.take_succ_cons]
  simp only [str, snprintf, htake, hcut]
  rw [List.takeWhile_append]
  split_ifs with hall
  · rw [(List.takeWhile_prefix _).eq_of_length hall]
    simp
  · rfl

/-- A text that fits is read back. -/
lemma str_snprintf (b : CBuffer n) {s : List Char} (hs : nul ∉ s) (hlen : s.length < n) :
    (b.snprintf s).str = s := by
  rw [b.str_snprintf_eq hlen, List.takeWhile_eq_self_iff]
  intro c hc
  exact decide_eq_true fun h => hs (h ▸ hc)

/-- The array after `strcpy(b, s)`, which is undefined for a text that does not fit. -/
def strcpy (b : CBuffer n) (s : List Char) : Option (CBuffer n) :=
  if s.length < n then some (b.snprintf s) else none

/-- The array after `b[i] = c`, which is undefined outside of it. -/
def set (b : CBuffer n) (i : ℕ) (c : Char) : Option (CBuffer n) :=
  if i < n then some ⟨b.chars.set i c, by rw [List.length_set, b.length_eq]⟩ else none

/-- One character is replaced. -/
lemma set_of_chars {b : CBuffer n} {front tail : List Char} {d : Char}
    (h : b.chars = front ++ d :: tail) (c : Char) :
    ∃ b', b.set front.length c = some b' ∧ b'.chars = front ++ c :: tail := by
  have hlen : front.length < n := by
    rw [← b.length_eq, h, List.length_append, List.length_cons]
    omega
  refine ⟨_, if_pos hlen, ?_⟩
  simp only [h]
  rw [List.set_append_right _ _ le_rfl, Nat.sub_self, List.set_cons_zero]

/-- The array holds a text, and terminators behind it. -/
structure Filled (b : CBuffer n) (s : List Char) : Prop where
  length_le : s.length ≤ n
  chars_eq : b.chars = s ++ List.replicate (n - s.length) nul

lemma filled_fill (n : ℕ) : (fill n nul).Filled [] := ⟨Nat.zero_le n, rfl⟩

/-- The next character. -/
lemma Filled.set {b : CBuffer n} {s : List Char} (h : b.Filled s) (hlen : s.length < n)
    (c : Char) : ∃ b', b.set s.length c = some b' ∧ b'.Filled (s ++ [c]) := by
  refine ⟨_, if_pos hlen, ?_, ?_⟩
  · rw [List.length_append, List.length_singleton]
    exact hlen
  · obtain ⟨k, hk⟩ : ∃ k, n - s.length = k + 1 := ⟨n - s.length - 1, by omega⟩
    have hk' : n - (s ++ [c]).length = k := by
      rw [List.length_append, List.length_singleton]
      omega
    simp only [h.chars_eq, hk, hk']
    rw [List.set_append_right _ _ le_rfl, Nat.sub_self, List.replicate_succ, List.set_cons_zero,
      List.append_assoc, List.singleton_append]

lemma Filled.str_eq {b : CBuffer n} {s : List Char} (h : b.Filled s) (hs : nul ∉ s) :
    b.str = s := by
  rw [str, h.chars_eq, List.takeWhile_append_of_pos]
  · rw [List.takeWhile_replicate]
    simp
  · intro c hc
    exact decide_eq_true fun heq => hs (heq ▸ hc)

lemma Filled.nul_mem_iff {b : CBuffer n} {s : List Char} (h : b.Filled s) (hs : nul ∉ s) :
    nul ∈ b.chars ↔ s.length < n := by
  rw [h.chars_eq, List.mem_append, List.mem_replicate]
  have := h.length_le
  constructor
  · rintro (hmem | ⟨hne, -⟩)
    · exact absurd hmem hs
    · omega
  · exact fun hlt => .inr ⟨by omega, rfl⟩

end CBuffer

/-- What `fgets` reads of a file into an array of `n` characters: the first line with its end, as
far as it fits. -/
def fgets (n : ℕ) (file : List Char) : Option (List Char) :=
  if file = [] then none
  else some ((file.takeWhile (· ≠ '\n') ++ (file.dropWhile (· ≠ '\n')).take 1).take (n - 1))

end DcmAgent.Library
