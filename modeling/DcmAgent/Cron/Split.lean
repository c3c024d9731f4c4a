import Mathlib.Tactic
import DcmAgent.Cron.Parse
import DcmAgent.Library.CString

/-!
# The two passes of the split

`dcmCronParseStrSplit` counts the pieces of a string, allocates an array of as many entries, and
goes over the string again to fill it. Here both passes work on the arrays they write, and a write
outside of an array has no result. `strippedPieces` says what the array is to hold.
-/

namespace DcmAgent.Cron

open Library

/-! ### The passes -/

/-- The counting pass: the length of the current piece and the number of pieces before it. -/
def countPieces (del : Char) : List Char → ℕ → ℕ → ℕ
  -- tail
  | [], accum, len => if accum > 0 then len + 1 else len
  | c :: s, accum, len =>
    if del = c then
      if accum > 0 then countPieces del s 0 (len + 1) else countPieces del s accum len
    else if ¬isSpace c then countPieces del s (accum + 1) len
    else countPieces del s accum len

/-- Why the filling pass does not come to its end. -/
inductive Stop where
  | outOfMemory
  | outOfBounds
  deriving DecidableEq, Repr

/-- What the filling pass works on: the current piece, and the array of the pieces. -/
structure Filling (n : ℕ) where
  buf : CBuffer n
  bi : ℕ
  res : List (Option (List Char))
  ri : ℕ
  deriving DecidableEq

variable {n : ℕ}

/-- `buf[bi++] = c`. -/
def Filling.putChar (f : Filling n) (c : Char) : Except Stop (Filling n) :=
  match f.buf.set f.bi c with
  | none => .error .outOfBounds
  | some buf => .ok { f with buf, bi := f.bi + 1 }

/-- A copy of the current piece becomes the next entry. `malloc k` says whether the `k`-th
allocation succeeds; the first two are those of the arrays. -/
def Filling.putPiece (malloc : ℕ → Bool) (f : Filling n) : Except Stop (Filling n) :=
  let tmp := f.buf.chars.take f.bi
  if ¬malloc (f.ri + 2) then .error .outOfMemory
  else if f.ri < f.res.length then
    .ok { f with res := f.res.set f.ri (some tmp), ri := f.ri + 1 }
  else .error .outOfBounds

/-- Start with the next piece. -/
def Filling.clear (f : Filling n) : Filling n := { f with buf := .fill n nul, bi := 0 }

def fillPieces (malloc : ℕ → Bool) (del : Char) :
    List Char → Filling n → Except Stop (Filling n)
  -- tail
  | [], f => if f.bi > 0 then f.putPiece malloc else .ok f
  | c :: s, f =>
    if del = c then
      if f.bi > 0 then (f.putPiece malloc).bind fun f => fillPieces malloc del s f.clear
      else fillPieces malloc del s f
    else if ¬isSpace c then (f.putChar c).bind fun f => fillPieces malloc del s f
    else fillPieces malloc del s f

/-- The split, with the array that it returns (`none` for `NULL`) and the value it leaves in
`*len_out`. There is no result if it writes outside of its arrays. -/
def dcmCronParseStrSplitIn (malloc : ℕ → Bool) (str : List Char) (del : Char) (lenOut : ℕ) :
    Option (Option (List (Option (List Char))) × ℕ) :=
  if str.length ≥ cronMaxStrLenToSplit then some (none, 0)
  else
    let len := countPieces del str 0 0
    if len = 0 then some (none, lenOut)
    else if ¬malloc 0 ∨ ¬malloc 1 then some (none, 0)
    else
      let f : Filling (str.length + 1) := ⟨.fill _ nul, 0, .replicate len none, 0⟩
      match fillPieces malloc del str f with
      | .ok f => some (some f.res, len)
      | .error .outOfMemory => some (none, 0)
      | .error .outOfBounds => none

/-- The pieces between the delimiters without their white space, except for the empty ones. -/
def strippedPieces (del : Char) (str : List Char) : List (List Char) :=
  ((str.splitOn del).map (·.filter (!isSpace ·))).filter (· ≠ [])

/-! ### The pieces of the passes -/

variable {del : Char} {str s q : List Char} {done : List (List Char)} {f : Filling n}
  (malloc : ℕ → Bool)

/-- The current piece goes in front of what is left of it. -/
lemma splitPieces_eq_cons {p : List Char} {ps : List (List Char)} (h : s.splitOn del = p :: ps)
    (buf : List Char) : splitPieces del s buf =
      ((buf ++ p.filter (!isSpace ·)) :: ps.map (·.filter (!isSpace ·))).filter (· ≠ []) := by
  induction s generalizing buf p ps with
  | nil =>
    obtain ⟨rfl, rfl⟩ := List.cons.inj h
    by_cases hbuf : buf = [] <;> simp [splitPieces, hbuf, List.length_pos_iff]
  | cons c s ih =>
    obtain ⟨p', ps', h'⟩ := List.exists_cons_of_ne_nil (List.splitOn_ne_nil del s)
    rw [List.splitOn_cons_eq_if_modifyHead, h'] at h
    rw [splitPieces]
    by_cases hdel : c = del
    · rw [if_pos (by simpa using hdel)] at h
      obtain ⟨rfl, rfl⟩ := List.cons.inj h
      rw [if_pos hdel, ih h', ih h']
      by_cases hbuf : buf = [] <;> simp [hbuf, List.length_pos_iff]
    · rw [if_neg (by simpa using hdel)] at h
      obtain ⟨rfl, rfl⟩ := List.cons.inj h
      rw [if_neg hdel, ih h', ih h']
      cases hspace : isSpace c
      · have hfilter : (c :: p').filter (!isSpace ·) = c :: p'.filter (!isSpace ·) :=
          List.filter_cons_of_pos (by simp [hspace])
        rw [hfilter, if_neg Bool.false_ne_true, List.append_assoc]
        rfl
      · have hfilter : (c :: p').filter (!isSpace ·) = p'.filter (!isSpace ·) :=
          List.filter_cons_of_neg (by simp [hspace])
        rw [hfilter, if_pos rfl]

theorem splitPieces_eq_stripped (del : Char) (str : List Char) :
    splitPieces del str [] = strippedPieces del str := by
  obtain ⟨p, ps, h⟩ := List.exists_cons_of_ne_nil (List.splitOn_ne_nil del str)
  rw [splitPieces_eq_cons h, strippedPieces, h, List.map_cons, List.nil_append]

/-- The counting pass counts the pieces that the filling pass makes. -/
lemma countPieces_eq (s buf : List Char) (len : ℕ) :
    countPieces del s buf.length len = len + (splitPieces del s buf).length := by
  induction s generalizing buf len with
  | nil =>
    rw [countPieces, splitPieces]
    split_ifs <;> rfl
  | cons c s ih =>
    rw [countPieces, splitPieces]
    by_cases hdel : del = c
    · rw [if_pos hdel, if_pos hdel.symm]
      split_ifs with hbuf
      · rw [show countPieces del s 0 (len + 1) = _ from ih [] (len + 1), List.length_cons]
        omega
      · exact ih buf len
    · rw [if_neg hdel, if_neg (Ne.symm hdel)]
      cases hspace : isSpace c
      · have := ih (buf ++ [c]) len
        simpa using this
      · simpa using ih buf len

/-! ### The filling pass -/

/-- The arrays hold the pieces that are done, and the current one. -/
structure Filling.Holds (f : Filling n) (len : ℕ) (done : List (List Char)) (q : List Char) :
    Prop where
  buf : f.buf.Filled q
  bi : f.bi = q.length
  res : f.res = done.map some ++ List.replicate (len - done.length) none
  ri : f.ri = done.length

namespace Filling.Holds

variable {len : ℕ} (h : f.Holds len done q)

include h

lemma putChar (hq : q.length < n) (c : Char) :
    ∃ f', f.putChar c = .ok f' ∧ f'.Holds len done (q ++ [c]) := by
  obtain ⟨buf, hset, hbuf⟩ := h.buf.set hq c
  refine ⟨{ f with buf, bi := f.bi + 1 }, ?_, hbuf, ?_, h.res, h.ri⟩
  · rw [Filling.putChar, h.bi, hset]
  · rw [List.length_append, List.length_singleton, h.bi]

/-- The entry of the next piece is in the array, and it is the first that is still `NULL`. -/
lemma putPiece (hlen : done.length < len) :
    f.putPiece malloc = .error .outOfMemory ∧ malloc (done.length + 2) = false ∨
      ∃ f', f.putPiece malloc = .ok f' ∧ f'.Holds len (done ++ [q]) q := by
  have htake : f.buf.chars.take f.bi = q := by
    rw [h.buf.chars_eq, h.bi, List.take_left]
  have hres : f.res.length = len := by
    rw [h.res, List.length_append, List.length_map, List.length_replicate]
    omega
  cases hmalloc : malloc (done.length + 2)
  · left
    simp [Filling.putPiece, h.ri, hmalloc]
  · right
    refine ⟨{ f with res := f.res.set f.ri (some q), ri := f.ri + 1 }, ?_, h.buf, h.bi, ?_, ?_⟩
    · simp [Filling.putPiece, h.ri, hmalloc, hres, hlen, htake]
    · obtain ⟨k, hk⟩ : ∃ k, len - done.length = k + 1 := ⟨len - done.length - 1, by omega⟩
      have hk' : len - (done ++ [q]).length = k := by
        rw [List.length_append, List.length_singleton]
        omega
      simp only [h.res, h.ri, hk, hk']
      rw [List.set_append_right _ _ (by simp), List.length_map, Nat.sub_self,
        List.replicate_succ, List.set_cons_zero, List.map_append, List.append_assoc]
      rfl
    · rw [List.length_append, List.length_singleton, h.ri]

lemma clear : f.clear.Holds len done [] :=
  ⟨CBuffer.filled_fill n, rfl, h.res, h.ri⟩

end Filling.Holds

/-- The filling pass puts the pieces behind those that are done, unless an allocation fails. -/
lemma fillPieces_eq {len : ℕ} (h : f.Holds len done q) (hn : q.length + s.length < n)
    (hlen : done.length + (splitPieces del s q).length ≤ len) :
    fillPieces malloc del s f = .error .outOfMemory ∧ (∃ k, malloc k = false) ∨
      ∃ f' q', fillPieces malloc del s f = .ok f' ∧
        f'.Holds len (done ++ splitPieces del s q) q' := by
  induction s generalizing f done q with
  | nil =>
    rw [fillPieces, h.bi]
    rw [splitPieces] at hlen ⊢
    split_ifs at hlen ⊢ with hq
    · rcases h.putPiece malloc (by simpa using hlen) with ⟨hstop, hk⟩ | ⟨f', hf', h'⟩
      · exact .inl ⟨hstop, _, hk⟩
      · exact .inr ⟨f', q, hf', h'⟩
    · exact .inr ⟨f, q, rfl, by simpa using h⟩
  | cons c s ih =>
    rw [List.length_cons] at hn
    rw [fillPieces, h.bi]
    rw [splitPieces] at hlen ⊢
    by_cases hdel : del = c
    · rw [if_pos hdel]
      rw [if_pos hdel.symm] at hlen ⊢
      split_ifs at hlen ⊢ with hq
      · rw [List.length_cons] at hlen
        rcases h.putPiece malloc (by omega) with ⟨hstop, hk⟩ | ⟨f', hf', h'⟩
        · exact .inl ⟨by rw [hstop]; rfl, _, hk⟩
        · have hrest := ih h'.clear (by simp; omega) (by simp; omega)
          rw [List.append_assoc, List.singleton_append] at hrest
          rw [hf']
          exact hrest
      · exact ih h (by omega) hlen
    · rw [if_neg hdel]
      rw [if_neg (Ne.symm hdel)] at hlen ⊢
      cases hspace : isSpace c
      · obtain ⟨f', hf', h'⟩ := h.putChar (by omega) c
        have hstep := ih h' (by simp; omega) (by simpa [hspace] using hlen)
        simp only [Bool.false_eq_true, not_false_eq_true, if_true, if_false, hf']
        exact hstep
      · simp only [hspace, if_true] at hlen
        simpa using ih h (by omega) hlen

/-! ### The split -/

/-- What the caller gets for these pieces. -/
def returned (ps : List (List Char)) (lenOut : ℕ) : Option (List (Option (List Char))) × ℕ :=
  if ps = [] then (none, lenOut) else (some (ps.map some), ps.length)

lemma dcmCronParseStrSplitIn_eq (del : Char) (hstr : str.length < cronMaxStrLenToSplit)
    (lenOut : ℕ) :
    dcmCronParseStrSplitIn malloc str del lenOut = some (none, 0) ∧ (∃ k, malloc k = false) ∨
      dcmCronParseStrSplitIn malloc str del lenOut =
        some (returned (strippedPieces del str) lenOut) := by
  have hcount : countPieces del str 0 0 = (strippedPieces del str).length := by
    have := @countPieces_eq del str [] 0
    rwa [splitPieces_eq_stripped, List.length_nil, Nat.zero_add] at this
  rw [dcmCronParseStrSplitIn, if_neg (not_le.mpr hstr), hcount, returned]
  by_cases hnil : strippedPieces del str = []
  · right
    simp [hnil]
  rw [if_neg hnil]
  simp only [List.length_eq_zero_iff, hnil, if_false]
  by_cases harrays : ¬malloc 0 = true ∨ ¬malloc 1 = true
  · left
    rw [if_pos harrays]
    refine ⟨rfl, ?_⟩
    rcases harrays with h | h
    · exact ⟨0, Bool.eq_false_of_not_eq_true h⟩
    · exact ⟨1, Bool.eq_false_of_not_eq_true h⟩
  rw [if_neg harrays]
  have hstart : Filling.Holds (⟨.fill (str.length + 1) nul, 0,
      .replicate (strippedPieces del str).length none, 0⟩ : Filling (str.length + 1))
      (strippedPieces del str).length [] [] :=
    ⟨CBuffer.filled_fill _, rfl, rfl, rfl⟩
  have hfill := @fillPieces_eq _ del str [] [] _ malloc _ hstart (by simp)
    (by simp [splitPieces_eq_stripped])
  rcases hfill with ⟨hstop, hk⟩ | ⟨f, q, hf, hfilled⟩
  · left
    rw [hstop]
    exact ⟨rfl, hk⟩
  · right
    have hres := hfilled.res
    rw [splitPieces_eq_stripped, List.nil_append, Nat.sub_self, List.replicate_zero,
      List.append_nil] at hres
    rw [hf]
    simp only [hres]

/-- The passes agree: no write is outside of the arrays, and the array that is returned has one
entry for each piece. -/
theorem dcmCronParseStrSplitIn_consistent (malloc : ℕ → Bool) (str : List Char) (del : Char)
    (lenOut : ℕ) :
    (str.length < 256 →
      (∃ r, dcmCronParseStrSplitIn malloc str del lenOut = some r) ∧
        ((∀ k, malloc k = true) → dcmCronParseStrSplitIn malloc str del lenOut =
          some (if strippedPieces del str = [] then (none, lenOut)
            else (some ((strippedPieces del str).map some), (strippedPieces del str).length)))) ∧
      (256 ≤ str.length → dcmCronParseStrSplitIn malloc str del lenOut = some (none, 0)) := by
  refine ⟨fun hstr => ?_, fun hstr => if_pos hstr⟩
  rcases dcmCronParseStrSplitIn_eq malloc del hstr lenOut with
    ⟨hstop, k, hk⟩ | hok
  · refine ⟨⟨_, hstop⟩, fun hall => ?_⟩
    rw [hall k] at hk
    cases hk
  · exact ⟨⟨_, hok⟩, fun _ => hok⟩

theorem hours_split :
    dcmCronParseStrSplitIn (fun _ => true) " 5, ,7".toList ',' 0 =
        some (some [some ['5'], some ['7']], 2) ∧
      dcmCronParseStrSplitIn (fun _ => true) (List.replicate 256 '*') ',' 9 = some (none, 0) := by
  constructor
  · have h := (dcmCronParseStrSplitIn_consistent (fun _ => true) " 5, ,7".toList ',' 0).1
    exact ((h (by decide)).2 fun _ => rfl).trans (by decide)
  · have h := (dcmCronParseStrSplitIn_consistent (fun _ => true) (List.replicate 256 '*') ',' 9).2
    exact h (by rw [List.length_replicate])

/-- The split of the parser is this one. -/
theorem dcmCronParseStrSplitIn_refines (str : List Char) (del : Char) :
    dcmCronParseStrSplitIn (fun _ => true) str del 0 =
      some (returned (dcmCronParseStrSplit str del) 0) := by
  by_cases hstr : str.length < cronMaxStrLenToSplit
  · rw [dcmCronParseStrSplit, if_neg (not_le.mpr hstr), splitPieces_eq_stripped]
    rcases dcmCronParseStrSplitIn_eq (fun _ => true) del hstr 0 with
      ⟨-, k, hk⟩ | hok
    · cases hk
    · exact hok
  · rw [dcmCronParseStrSplit, if_pos (not_lt.mp hstr), dcmCronParseStrSplitIn,
      if_pos (not_lt.mp hstr)]
    rfl

end DcmAgent.Cron
