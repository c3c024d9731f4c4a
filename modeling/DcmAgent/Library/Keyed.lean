import Mathlib.Tactic
import DcmAgent.Library.Copying

/-!
# Renaming within keys

A key forgets what is decoration in a name. While the entries of a directory have different keys, a
renaming that keeps the key of its entry replaces no other entry: by key, the directory stays what
it is.
-/

namespace DcmAgent.Library.Directory

variable {α : Type} {key : List Char → List Char} {d d' L : Directory α} {n m k : List Char} {x : α}

/-- The entries of a directory by key. -/
def keyed (key : List Char → List Char) (d : Directory α) : Directory α :=
  d.map fun p => (key p.1, p.2)

lemma names_keyed (key : List Char → List Char) (d : Directory α) :
    (d.keyed key).names = d.names.map key := by
  simp [keyed, names]

lemma nodup_of_keyed (h : (d.keyed key).names.Nodup) : d.names.Nodup := by
  rw [names_keyed] at h
  exact h.of_map _

lemma eq_of_key (h : (d.keyed key).names.Nodup) (hn : n ∈ d.names) (hm : m ∈ d.names)
    (heq : key n = key m) : n = m := by
  rw [names_keyed] at h
  exact List.inj_on_of_nodup_map h hn hm heq

lemma mem_keyed (h : d.names.Nodup) :
    (n, x) ∈ d.keyed key ↔ ∃ k, key k = n ∧ d.lookup k = some x := by
  simp only [keyed, List.mem_map, Prod.exists, Prod.mk.injEq]
  constructor
  · rintro ⟨k, y, hmem, hk, rfl⟩
    exact ⟨k, hk, (lookup_eq_some_iff h).mpr hmem⟩
  · rintro ⟨k, hk, hlook⟩
    exact ⟨k, x, (lookup_eq_some_iff h).mp hlook, hk, rfl⟩

/-- A renaming that keeps the key. -/
lemma perm_keyed_rename (h : (d.keyed key).names.Nodup) (hkey : n ∈ d.names → key m = key n) :
    ((d.rename n m).keyed key).Perm (d.keyed key) := by
  by_cases hn : n ∈ d.names
  · obtain ⟨x, hx⟩ := exists_lookup hn
    have hold := perm_cons_remove (nodup_of_keyed h) hx
    have hnew : (d.rename n m).Perm ((m, x) :: d.remove n) := by
      by_cases hm : m ∈ d.names
      · obtain rfl := eq_of_key h hm hn (hkey hn)
        have hnot : m ∉ (d.remove m).names := by
          rw [names_remove]
          simp
        rw [rename, hx]
        simp only [put]
        rw [remove_eq_self hnot]
        exact List.perm_append_comm
      · exact perm_rename hx hm
    have hsame : keyed key ((m, x) :: d.remove n) = keyed key ((n, x) :: d.remove n) := by
      simp [keyed, hkey hn]
    exact (hnew.map _).trans ((List.Perm.of_eq hsame).trans (hold.map _).symm)
  · rw [rename_eq_self hn]

end DcmAgent.Library.Directory
