import Mathlib.Tactic
import DcmAgent.Library.Json
import DcmAgent.Library.Stream

/-!
# The stored settings

`dcmSettingStoreTempConf` prints a parsed document to two files, a line for each member. The texts
of keys and strings are printed as they are, numbers as the `int` that the parser keeps beside the
value, and a comma behind the last member is taken back with `fseek`. `uploadRepository:URL` is left
out of the second file.
-/

namespace DcmAgent.Conf

open Library

variable {ν : Type} (valueint : ν → ℤ)

/-! ### Printing -/

def boolText (b : Bool) : List Char := if b then "true".toList else "false".toList

/-- `%s`, of a null pointer too. -/
def text : Option (List Char) → List Char
  | none => "(null)".toList
  | some s => s

def valuestring : Json ν → Option (List Char)
  | .string s => some s
  | _ => none

/-- The elements of an array, which have no names, or the members of an object. -/
def children : Json ν → List (Option (List Char) × Json ν)
  | .array items => items.map fun v => (none, v)
  | .object members => members.map fun m => (some m.1, m.2)
  | _ => []

def quoted (s : List Char) : List Char := '"' :: s ++ ['"']

/-! ### The files -/

structure Files where
  out : Stream
  outOpt : Stream
  deriving DecidableEq, Repr

/-- `fprintf` to both files. -/
def Files.write (f : Files) (s : List Char) : Files := ⟨f.out.write s, f.outOpt.write s⟩

/-- `fseek` in both files. -/
def Files.back (f : Files) : Option Files := do
  let out ← f.out.back
  let outOpt ← f.outOpt.back
  some ⟨out, outOpt⟩

/-- An entry of a member of a telemetry profile. Without a name `strcmp` crashes. -/
def storeEntry (f : Files) (tprochitem : Option (List Char) × Json ν) : Option Files :=
  match tprochitem.1 with
  | none => none
  | some name =>
    if name = "header".toList ∨ name = "content".toList ∨ name = "type".toList then
      some (f.write
        (quoted name ++ " : ".toList ++ quoted (text (valuestring tprochitem.2)) ++ [',']))
    else
      some (f.write (quoted name ++ ':' :: quoted (text (valuestring tprochitem.2)) ++ [',']))

def storeProfile (f : Files) (tproitem : Json ν) : Option Files := do
  let f := f.write ['{']
  let f ← (children tproitem).foldlM storeEntry f
  let f ← f.back
  some (f.write "\x7d,".toList)

def urlKey : List Char := "uploadRepository:URL".toList

def profileKey : List Char := "telemetryProfile".toList

/-- A member of an object. -/
def storeMember (f : Files) (titem : List Char × Json ν) : Option Files :=
  if titem.1 = urlKey then
    some { f with
      out := f.out.write (quoted titem.1 ++ ':' :: quoted (text (valuestring titem.2)) ++ [',']) }
  else
    match titem.2 with
    | .null => some (f.write (quoted titem.1 ++ ":null,".toList))
    | .bool b => some (f.write (quoted titem.1 ++ ':' :: boolText b ++ [',']))
    | .number x => some (f.write (quoted titem.1 ++ ':' :: decimal (valueint x) ++ [',']))
    | .string s => some (f.write (quoted titem.1 ++ ':' :: quoted s ++ [',']))
    | .array items => do
      let f := f.write (quoted profileKey ++ ":[".toList)
      let f ← items.foldlM storeProfile f
      let f ← f.back
      some (f.write "],".toList)
    | .object _ => some f

/-- A member of the document. -/
def storeItem (f : Files) (item : Option (List Char) × Json ν) : Option Files :=
  match item.2 with
  | .null => some { f with out := f.out.write (text item.1 ++ "=null\n".toList) }
  | .bool b => some { f with out := f.out.write (text item.1 ++ '=' :: boolText b ++ ['\n']) }
  | .number x =>
    some { f with out := f.out.write (text item.1 ++ '=' :: decimal (valueint x) ++ ['\n']) }
  | .string s => some { f with out := f.out.write (text item.1 ++ '=' :: s ++ ['\n']) }
  | .object members => do
    let f := f.write (quoted (text item.1) ++ ":\x7b".toList)
    let f ← members.foldlM (storeMember valueint) f
    let f ← f.back
    some (f.write "\x7d\n".toList)
  | .array _ => some f

/-- Whether the calls on the files and for the memory succeed. -/
structure Env where
  opensConf : Bool
  opensTemp : Bool
  opensOpt : Bool
  tellsSize : Bool
  allocates : Bool
  reads : Bool
  deriving DecidableEq, Repr

/-- The two files when the function succeeds; without a document the parser has failed. -/
def dcmSettingStoreTempConf (env : Env) (pJson : Option (Json ν)) : Option Files :=
  if env.opensConf ∧ env.opensTemp ∧ env.opensOpt ∧ env.tellsSize ∧ env.allocates ∧ env.reads then
    match pJson with
    | none => none
    | some doc => (children doc).foldlM (storeItem valueint) ⟨.ofText [], .ofText []⟩
  else none

/-! ### The texts -/

def entryText (tprochitem : Option (List Char) × Json ν) : List Char :=
  let name := text tprochitem.1
  let separator :=
    if name = "header".toList ∨ name = "content".toList ∨ name = "type".toList then " : ".toList
    else [':']
  quoted name ++ separator ++ quoted (text (valuestring tprochitem.2)) ++ [',']

def profileText (tproitem : Json ν) : List Char :=
  ('{' :: (children tproitem).flatMap entryText).dropLast ++ "\x7d,".toList

def memberText (titem : List Char × Json ν) : List Char :=
  if titem.1 = urlKey then quoted titem.1 ++ ':' :: quoted (text (valuestring titem.2)) ++ [',']
  else
    match titem.2 with
    | .null => quoted titem.1 ++ ":null,".toList
    | .bool b => quoted titem.1 ++ ':' :: boolText b ++ [',']
    | .number x => quoted titem.1 ++ ':' :: decimal (valueint x) ++ [',']
    | .string s => quoted titem.1 ++ ':' :: quoted s ++ [',']
    | .array items =>
      (quoted profileKey ++ ":[".toList ++ items.flatMap profileText).dropLast ++ "],".toList
    | .object _ => []

def objectText (name : List Char) (members : List (List Char × Json ν)) : List Char :=
  (quoted name ++ ":\x7b".toList ++ members.flatMap (memberText valueint)).dropLast ++
    "\x7d\n".toList

/-- The members that go to the second file. -/
def besidesUrl (members : List (List Char × Json ν)) : List (List Char × Json ν) :=
  members.filter fun m => m.1 ≠ urlKey

/-- The line of a member of the document. -/
def itemText (item : Option (List Char) × Json ν) : List Char :=
  match item.2 with
  | .null => text item.1 ++ "=null\n".toList
  | .bool b => text item.1 ++ '=' :: boolText b ++ ['\n']
  | .number x => text item.1 ++ '=' :: decimal (valueint x) ++ ['\n']
  | .string s => text item.1 ++ '=' :: s ++ ['\n']
  | .object members => objectText valueint (text item.1) members
  | .array _ => []

def itemTextOpt (item : Option (List Char) × Json ν) : List Char :=
  match item.2 with
  | .object members => objectText valueint (text item.1) (besidesUrl members)
  | _ => []

/-! ### What is written -/

/-- Every member has a name. -/
def named (tproitem : Json ν) : Bool := (children tproitem).all fun e => e.1.isSome

/-- No name is missing in a telemetry profile. -/
def namedMember (titem : List Char × Json ν) : Bool :=
  titem.1 = urlKey || match titem.2 with
    | .array items => items.all named
    | _ => true

def namedItem (item : Option (List Char) × Json ν) : Bool :=
  match item.2 with
  | .object members => members.all namedMember
  | _ => true

variable {valueint}

/-- Both files at their ends. -/
def filesOf (a b : List Char) : Files := ⟨.ofText a, .ofText b⟩

@[simp] lemma write_filesOf (a b s : List Char) :
    (filesOf a b).write s = filesOf (a ++ s) (b ++ s) := by
  simp [Files.write, filesOf]

/-- The last character is replaced. -/
lemma back_filesOf {a b : List Char} (ha : a ≠ []) (hb : b ≠ []) {s : List Char} (hs : s ≠ []) :
    ((filesOf a b).back.bind fun f => some (f.write s)) =
      some (filesOf (a.dropLast ++ s) (b.dropLast ++ s)) := by
  simp only [Files.back, filesOf, Stream.back_ofText ha, Stream.back_ofText hb, Option.bind_eq_bind,
    Option.bind_some, Files.write, Stream.write_back hs]

/-- A loop that appends to both files, unless it stops. -/
lemma foldlM_filesOf {ι : Type} {step : Files → ι → Option Files} {p : ι → Bool}
    {g g' : ι → List Char} (h : ∀ a b i, step (filesOf a b) i =
      if p i then some (filesOf (a ++ g i) (b ++ g' i)) else none) (l : List ι) (a b : List Char) :
    l.foldlM step (filesOf a b) =
      if l.all p then some (filesOf (a ++ l.flatMap g) (b ++ l.flatMap g')) else none := by
  induction l generalizing a b with
  | nil => simp
  | cons i l ih =>
    rw [List.foldlM_cons, h, List.all_cons]
    cases p i with
    | false => rfl
    | true =>
      simp only [if_true, Option.bind_eq_bind, Option.bind_some, ih, Bool.true_and,
        List.flatMap_cons, List.append_assoc]

lemma storeEntry_filesOf (a b : List Char) (e : Option (List Char) × Json ν) :
    storeEntry (filesOf a b) e =
      if e.1.isSome then some (filesOf (a ++ entryText e) (b ++ entryText e)) else none := by
  obtain ⟨name, v⟩ := e
  cases name with
  | none => rfl
  | some name =>
    have hname : text (some name) = name := rfl
    rw [storeEntry, entryText, hname]
    dsimp only
    rw [if_pos Option.isSome_some]
    by_cases hspaced : name = "header".toList ∨ name = "content".toList ∨ name = "type".toList
    · rw [if_pos hspaced, if_pos hspaced, write_filesOf]
    · rw [if_neg hspaced, if_neg hspaced, write_filesOf]
      simp only [List.append_assoc, List.cons_append, List.nil_append]

/-- A loop between what opens and what closes a list; the last character in front of the end is
taken back. -/
lemma enclosed_filesOf {ι : Type} {step : Files → ι → Option Files} {p : ι → Bool}
    {g g' : ι → List Char} (h : ∀ a b i, step (filesOf a b) i =
      if p i then some (filesOf (a ++ g i) (b ++ g' i)) else none) (l : List ι)
    (a b : List Char) {start close : List Char} (hstart : start ≠ []) (hclose : close ≠ []) :
    ((l.foldlM step ((filesOf a b).write start)).bind fun f =>
        f.back.bind fun f => some (f.write close)) =
      if l.all p then
        some (filesOf (a ++ ((start ++ l.flatMap g).dropLast ++ close))
          (b ++ ((start ++ l.flatMap g').dropLast ++ close)))
      else none := by
  rw [write_filesOf, foldlM_filesOf h]
  by_cases hall : l.all p
  · have hne : ∀ a s : List Char, a ++ start ++ s ≠ [] := by simp [hstart]
    have hlast : ∀ a s : List Char, (a ++ start ++ s).dropLast ++ close =
        a ++ ((start ++ s).dropLast ++ close) := by
      intro a s
      rw [List.append_assoc, List.dropLast_append_of_ne_nil (by simp [hstart]), List.append_assoc]
    rw [if_pos hall, if_pos hall, Option.bind_some, back_filesOf (hne _ _) (hne _ _) hclose, hlast,
      hlast]
  · rw [if_neg hall, if_neg hall]
    rfl

lemma storeProfile_filesOf (a b : List Char) (v : Json ν) :
    storeProfile (filesOf a b) v =
      if named v then some (filesOf (a ++ profileText v) (b ++ profileText v)) else none :=
  enclosed_filesOf storeEntry_filesOf (children v) a b (by simp) (by simp)

variable (valueint) in
lemma storeMember_filesOf (a b : List Char) (m : List Char × Json ν) :
    storeMember valueint (filesOf a b) m =
      if namedMember m then some (filesOf (a ++ memberText valueint m)
        (b ++ if m.1 ≠ urlKey then memberText valueint m else [])) else none := by
  obtain ⟨name, v⟩ := m
  by_cases hurl : name = urlKey
  · have hnamed : namedMember (name, v) = true := by simp [namedMember, hurl]
    rw [storeMember, memberText, if_pos hurl, if_pos hurl, if_neg (not_not.mpr hurl),
      if_pos hnamed, List.append_nil]
    simp [filesOf]
  · rw [storeMember, memberText, if_neg hurl, if_neg hurl, if_pos hurl]
    cases v with
    | array items =>
      have hnamed : namedMember (name, .array items) = items.all named := by
        simp [namedMember, hurl]
      rw [hnamed]
      exact enclosed_filesOf storeProfile_filesOf items a b (by simp [quoted]) (by simp)
    | object members => simp [namedMember]
    | null => simp [namedMember]
    | bool x => simp [namedMember]
    | number x => simp [namedMember]
    | string s => simp [namedMember]

lemma flatMap_besidesUrl (members : List (List Char × Json ν)) :
    (members.flatMap fun m => if m.1 ≠ urlKey then memberText valueint m else []) =
      (besidesUrl members).flatMap (memberText valueint) := by
  induction members with
  | nil => rfl
  | cons m members ih =>
    rw [List.flatMap_cons, ih, besidesUrl, besidesUrl, List.filter_cons]
    by_cases hurl : m.1 = urlKey <;> simp [hurl]

variable (valueint) in
lemma storeItem_filesOf (a b : List Char) (item : Option (List Char) × Json ν) :
    storeItem valueint (filesOf a b) item =
      if namedItem item then some (filesOf (a ++ itemText valueint item)
        (b ++ itemTextOpt valueint item)) else none := by
  obtain ⟨name, v⟩ := item
  cases v with
  | object members =>
    have henclosed := enclosed_filesOf (storeMember_filesOf valueint) members a b
      (show quoted (text name) ++ ":\x7b".toList ≠ [] by simp) (show "\x7d\n".toList ≠ [] by simp)
    rw [flatMap_besidesUrl] at henclosed
    exact henclosed
  | null => simp [storeItem, itemText, itemTextOpt, namedItem, filesOf]
  | bool b => simp [storeItem, itemText, itemTextOpt, namedItem, filesOf]
  | number x => simp [storeItem, itemText, itemTextOpt, namedItem, filesOf]
  | string s => simp [storeItem, itemText, itemTextOpt, namedItem, filesOf]
  | array items => simp [storeItem, itemText, itemTextOpt, namedItem, filesOf]

/-- The two files, whenever the function succeeds. -/
theorem dcmSettingStoreTempConf_eq_some {env : Env} {doc : Json ν} {f : Files}
    (h : dcmSettingStoreTempConf valueint env (some doc) = some f) :
    f = filesOf ((children doc).flatMap (itemText valueint))
      ((children doc).flatMap (itemTextOpt valueint)) := by
  unfold dcmSettingStoreTempConf at h
  split_ifs at h
  have hfold := foldlM_filesOf (storeItem_filesOf valueint) (children doc) [] []
  dsimp only at h
  rw [show (⟨.ofText [], .ofText []⟩ : Files) = filesOf [] [] from rfl, hfold] at h
  split_ifs at h
  exact (Option.some.inj h).symm

end DcmAgent.Conf
