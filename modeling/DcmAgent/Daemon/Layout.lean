import Mathlib.Tactic
import DcmAgent.Daemon.Settings
import DcmAgent.Library.Memory

/-!
# The settings in memory

The lookups of `dcmSettingParseConf` copy the texts of a document without a bound into arrays that
lie side by side: those of the handle of the settings, and the two patterns of the daemon. The
flag of the upload at boot is looked up with a single character as the place for a text.
-/

namespace DcmAgent.Daemon

open Library

/-! ### The layout -/

/-- The objects that the lookups write to. -/
inductive LayoutObject where
  | dcmSettingsHandle
  | dcmdHandle
  | temp
  deriving DecidableEq, Repr

/-- The settings in the order of their lookups. -/
inductive Setting where
  | uploadPrtl
  | uploadUrl
  | timeZone
  | rebootFlag
  | logCron
  | difdCron
  deriving DecidableEq, Repr

def Setting.all : List Setting :=
  [.uploadPrtl, .uploadUrl, .timeZone, .rebootFlag, .logCron, .difdCron]

/-- The arrays of a setting. In the handle of the settings the arrays follow a buffer of
`dcmJsonStrSize` characters; in the handle of the daemon they follow two flags and five pointers of
eight bytes. -/
def Setting.slice : Setting → Slice LayoutObject
  | .uploadUrl => ⟨.dcmSettingsHandle, dcmJsonStrSize, maxUrlSize⟩
  | .uploadPrtl => ⟨.dcmSettingsHandle, dcmJsonStrSize + maxUrlSize, 8⟩
  | .timeZone => ⟨.dcmSettingsHandle, dcmJsonStrSize + maxUrlSize + 8, 16⟩
  | .rebootFlag => ⟨.temp, 0, 1⟩
  | .logCron => ⟨.dcmdHandle, 48, 16⟩
  | .difdCron => ⟨.dcmdHandle, 64, 16⟩

def Setting.key : Setting → List Char
  | .uploadPrtl => dcmLogUploadProtocol
  | .uploadUrl => dcmLogUploadUrl
  | .timeZone => dcmTimezone
  | .rebootFlag => dcmLogUploadReboot
  | .logCron => dcmLogUploadCron
  | .difdCron => dcmDifdCron

/-! ### The lookups -/

/-- What a lookup returns, and the memory it leaves. -/
structure LayoutVal where
  ret : Bool
  ival : ℤ
  type : JsonItemType
  memory : Memory LayoutObject

def dcmSettingJsonGetValAt (json : Json) (item : List Char) (sval : Slice LayoutObject)
    (m : Memory LayoutObject) : LayoutVal :=
  -- `*sval = 0`
  let m := m.strcpy sval []
  match cJSONGetObjectItem json item with
  | none => ⟨false, 0, .null, m⟩
  | some (.bool b) => ⟨true, if b then 1 else 0, .bool, m⟩
  | some (.number valueint) => ⟨true, valueint, .int, m⟩
  | some (.string valuestring) => ⟨true, 0, .str, m.strcpy sval valuestring⟩
  | some .null => ⟨true, 0, .null, m⟩
  | some .nested => ⟨true, 0, .null, m⟩

/-- The lookup of a text with a default. -/
def readSettingAt (json : Json) (item : List Char) (sval : Slice LayoutObject) (dflt : List Char)
    (m : Memory LayoutObject) : Memory LayoutObject :=
  let v := dcmSettingJsonGetValAt json item sval m
  if ¬v.ret ∨ v.type ≠ .str ∨ v.memory.first sval = nul then v.memory.strcpy sval dflt
  else v.memory

/-- The lookup of a cron. -/
def readCronAt (json : Json) (item : List Char) (sval : Slice LayoutObject)
    (m : Memory LayoutObject) : Memory LayoutObject :=
  let v := dcmSettingJsonGetValAt json item sval m
  if ¬v.ret ∨ v.type ≠ .str then v.memory.strcpy sval [] else v.memory

/-- What the lookup of a setting does to the memory. -/
def readAt (json : Json) (x : Setting) (m : Memory LayoutObject) : Memory LayoutObject :=
  match x with
  | .uploadPrtl => readSettingAt json x.key x.slice dcmDefProtocol m
  | .uploadUrl => readSettingAt json x.key x.slice dcmDefLogUrl m
  | .timeZone => readSettingAt json x.key x.slice dcmDefTimezone m
  | .rebootFlag => (dcmSettingJsonGetValAt json x.key x.slice m).memory
  | .logCron => readCronAt json x.key x.slice m
  | .difdCron => readCronAt json x.key x.slice m

/-- The memory after some lookups. -/
def readAll (json : Json) : List Setting → Memory LayoutObject → Memory LayoutObject
  | [], m => m
  | x :: xs, m => readAll json xs (readAt json x m)

/-! ### What is to be read back -/

/-- The text of a setting without a text in the document. -/
def Setting.dflt : Setting → List Char
  | .uploadPrtl => dcmDefProtocol
  | .uploadUrl => dcmDefLogUrl
  | .timeZone => dcmDefTimezone
  | _ => []

/-- The text of a setting in the document, or its default. -/
def Setting.value (x : Setting) (json : Json) : List Char :=
  match cJSONGetObjectItem json x.key with
  | some (.string valuestring) =>
    if valuestring.takeWhile (· ≠ nul) = [] then x.dflt else valuestring.takeWhile (· ≠ nul)
  | _ => x.dflt

/-- The settings that are kept as texts. -/
def Setting.kept : List Setting := [.uploadPrtl, .uploadUrl, .timeZone, .logCron, .difdCron]

/-- Every lookup changes its own array only. -/
def Contained (json : Json) : List Setting → Memory LayoutObject → Prop
  | [], _ => True
  | x :: xs, m => m.ChangesOnly x.slice (readAt json x m) ∧ Contained json xs (readAt json x m)

/-- The document is read, every text of `json` reads back, and no lookup changes what lies around
its array. -/
def Separate (parse : List Char → Option Json) (conf : List Char) (json : Json)
    (m : Memory LayoutObject) : Prop :=
  ∃ read, dcmSettingJsonInit parse (some conf) = some (some read) ∧
    (∀ x ∈ Setting.kept, (readAll read Setting.all m).Holds x.slice (x.value json)) ∧
      Contained read Setting.all m

/-- Each text fits its array with its terminator, or it is an URL that goes on with the protocol,
which lies behind it already. -/
def Fits (json : Json) : Prop :=
  ∀ x ∈ Setting.all, (x.value json).length < x.slice.size ∨
    x = .uploadUrl ∧ (x.value json).drop maxUrlSize = Setting.uploadPrtl.value json

instance (json : Json) : Decidable (Fits json) := by
  unfold Fits
  infer_instance

/-- The texts fit that are read: those of the document, or, if the name of the telemetry member is
anywhere in it, those of what is left in front of the name, which are to be the same. -/
def ReadsAndFits (parse : List Char → Option Json) (conf : List Char) (json : Json) : Prop :=
  match Cron.strstr dcmT2JsonStr conf with
  | none => Fits json
  | some _ => ∃ read, (removeTelemetry conf).bind parse = some read ∧
      (∀ x ∈ Setting.kept, x.value read = x.value json) ∧ Fits read

variable {json : Json} {m : Memory LayoutObject} {x y : Setting} {xs ys : List Setting}

/-! ### One lookup -/

lemma nul_notMem_value (x : Setting) (json : Json) : nul ∉ x.value json := by
  have hdflt : nul ∉ x.dflt := by cases x <;> decide
  unfold Setting.value
  split
  · split_ifs
    · exact hdflt
    · intro h
      simpa using List.mem_takeWhile_imp h
  · exact hdflt

/-- What a lookup leaves is as if its value had been copied. -/
lemma readAt_eq (json : Json) (x : Setting) (m : Memory LayoutObject) :
    readAt json x m = m.strcpy x.slice (x.value json) := by
  have hempty (sval : Slice LayoutObject) (s : List Char) :
      (m.strcpy sval []).strcpy sval s = m.strcpy sval s := Memory.strcpy_strcpy (by simp)
  have hsetting : readSettingAt json x.key x.slice x.dflt m = m.strcpy x.slice (x.value json) := by
    unfold readSettingAt dcmSettingJsonGetValAt Setting.value
    cases cJSONGetObjectItem json x.key with
    | none => simp [hempty]
    | some item =>
      cases item with
      | string valuestring =>
        simp only [hempty, Memory.first_strcpy_eq_nul_iff]
        by_cases hv : valuestring.takeWhile (· ≠ nul) = []
        · rw [if_pos (Or.inr (Or.inr hv)), if_pos hv, Memory.strcpy_strcpy (by rw [hv]; simp)]
        · rw [if_neg (by simpa only [not_true_eq_false, ne_eq, false_or] using hv), if_neg hv,
            Memory.strcpy_takeWhile]
      | _ => simp [hempty]
  have hcron (h : x.dflt = []) : (dcmSettingJsonGetValAt json x.key x.slice m).memory =
      m.strcpy x.slice (x.value json) ∧
      readCronAt json x.key x.slice m = m.strcpy x.slice (x.value json) := by
    unfold readCronAt dcmSettingJsonGetValAt Setting.value
    rw [h]
    cases cJSONGetObjectItem json x.key with
    | none => simp [hempty]
    | some item =>
      cases item with
      | string valuestring =>
        have hv : (if valuestring.takeWhile (· ≠ nul) = [] then []
            else valuestring.takeWhile (· ≠ nul)) = valuestring.takeWhile (· ≠ nul) := by
          split_ifs with hv
          · exact hv.symm
          · rfl
        simp only [hempty, hv, Memory.strcpy_takeWhile, true_and]
        rw [if_neg (by simp)]
      | _ => simp [hempty]
  cases x with
  | uploadPrtl => exact hsetting
  | uploadUrl => exact hsetting
  | timeZone => exact hsetting
  | rebootFlag => exact (hcron rfl).1
  | logCron => exact (hcron rfl).2
  | difdCron => exact (hcron rfl).2

/-! ### Lookups that stay in their arrays -/

lemma contained_append : Contained json (xs ++ ys) m ↔
    Contained json xs m ∧ Contained json ys (readAll json xs m) := by
  induction xs generalizing m with
  | nil => simp [Contained, readAll]
  | cons x xs ih => simp only [List.cons_append, Contained, readAll, ih, and_assoc]

/-- Such lookups leave the bytes outside their arrays alone. -/
lemma Contained.readAll_apply {o : LayoutObject} {i : ℕ} (h : Contained json xs m)
    (hout : ∀ y ∈ xs, ¬y.slice.Contains o i) : readAll json xs m o i = m o i := by
  induction xs generalizing m with
  | nil => rfl
  | cons x xs ih =>
    rw [List.forall_mem_cons] at hout
    rw [readAll, ih h.2 hout.2, h.1 o i hout.1]

/-- They leave the texts outside their arrays alone. -/
lemma Contained.holds {f : Slice LayoutObject} {s : List Char} (h : Contained json xs m)
    (hs : m.Holds f s) (hout : ∀ y ∈ xs, f.object ≠ y.slice.object ∨
      f.offset + s.length < y.slice.offset ∨ y.slice.offset + y.slice.size ≤ f.offset) :
    (readAll json xs m).Holds f s := by
  induction xs generalizing m with
  | nil => exact hs
  | cons x xs ih =>
    rw [List.forall_mem_cons] at hout
    exact ih h.2 (hs.of_changesOnly h.1 hout.1) hout.2

lemma holds_readAt (json : Json) (x : Setting) (m : Memory LayoutObject) :
    (readAt json x m).Holds x.slice (x.value json) := by
  rw [readAt_eq]
  exact Memory.holds_strcpy (nul_notMem_value x json)

lemma changesOnly_readAt_iff : m.ChangesOnly x.slice (readAt json x m) ↔
    (x.value json).length < x.slice.size ∨ x.slice.size ≤ (x.value json).length ∧
      m.Holds (Memory.behind x.slice) ((x.value json).drop x.slice.size) := by
  rw [readAt_eq]
  exact Memory.changesOnly_strcpy_iff (nul_notMem_value x json)

/-! ### Texts that fit -/

lemma value_uploadPrtl_ne_nil (json : Json) : Setting.uploadPrtl.value json ≠ [] := by
  unfold Setting.value
  split
  · split_ifs with h
    · decide
    · exact h
  · decide

lemma Fits.length_lt (h : Fits json) (hx : x ∈ Setting.all) (hne : x ≠ .uploadUrl) :
    (x.value json).length < x.slice.size :=
  (h x hx).resolve_right fun hurl => hne hurl.1

/-- The protocol is in its array when the URL is copied. -/
lemma Fits.contained (h : Fits json) (m : Memory LayoutObject) :
    Contained json Setting.all m := by
  have hfits {x : Setting} (hx : x ∈ Setting.all) (hne : x ≠ .uploadUrl)
      (m : Memory LayoutObject) : m.ChangesOnly x.slice (readAt json x m) :=
    changesOnly_readAt_iff.mpr (Or.inl (h.length_lt hx hne))
  refine ⟨hfits (by decide) (by decide) _, ?_, hfits (by decide) (by decide) _,
    hfits (by decide) (by decide) _, hfits (by decide) (by decide) _,
    hfits (by decide) (by decide) _, trivial⟩
  rw [changesOnly_readAt_iff]
  rcases h .uploadUrl (by decide) with hlen | ⟨-, hdrop⟩
  · exact Or.inl hlen
  · refine Or.inr ⟨?_, ?_⟩
    · by_contra hlt
      apply value_uploadPrtl_ne_nil json
      rw [← hdrop, List.drop_eq_nil_iff]
      exact (not_le.mp hlt).le
    · rw [show (Setting.uploadUrl.slice).size = maxUrlSize from rfl, hdrop]
      exact holds_readAt json .uploadPrtl m

variable (xs) in
/-- A text that has been copied is still there at the end. -/
lemma Contained.holds_kept (h : Contained json (xs ++ x :: ys) m)
    (hout : ∀ y ∈ ys, x.slice.object ≠ y.slice.object ∨
      x.slice.offset + (x.value json).length < y.slice.offset ∨
      y.slice.offset + y.slice.size ≤ x.slice.offset) :
    (readAll json (xs ++ x :: ys) m).Holds x.slice (x.value json) := by
  have happend : readAll json (xs ++ x :: ys) m =
      readAll json ys (readAt json x (readAll json xs m)) := by
    clear h
    induction xs generalizing m with
    | nil => rfl
    | cons y xs ih => exact ih
  rw [happend]
  exact (contained_append.mp h).2.2.holds (holds_readAt json x _) hout

/-- An URL that goes on with the protocol ends in the array of the protocol. -/
lemma Fits.length_uploadUrl (h : Fits json) :
    (Setting.uploadUrl.value json).length < maxUrlSize + 8 := by
  rcases h .uploadUrl (by decide) with hlen | ⟨-, hdrop⟩
  · exact Nat.lt_add_right 8 hlen
  · have hprtl : (Setting.uploadPrtl.value json).length < 8 :=
      h.length_lt (by decide) (by decide)
    rw [← hdrop, List.length_drop] at hprtl
    omega

lemma Fits.holds (h : Fits json) (m : Memory LayoutObject) (hx : x ∈ Setting.kept) :
    (readAll json Setting.all m).Holds x.slice (x.value json) := by
  have hall := h.contained m
  have hlen {x : Setting} (hx : x ∈ Setting.all) (hne : x ≠ .uploadUrl) := h.length_lt hx hne
  simp only [Setting.kept, List.mem_cons, List.not_mem_nil, or_false] at hx
  rcases hx with rfl | rfl | rfl | rfl | rfl
  · apply Contained.holds_kept [] hall
    have := hlen (x := .uploadPrtl) (by decide) (by decide)
    simp [Setting.slice] at this ⊢
    omega
  · apply Contained.holds_kept [.uploadPrtl] hall
    have := h.length_uploadUrl
    simp [Setting.slice] at this ⊢
    omega
  · apply Contained.holds_kept [.uploadPrtl, .uploadUrl] hall
    simp [Setting.slice]
  · apply Contained.holds_kept [.uploadPrtl, .uploadUrl, .timeZone, .rebootFlag] hall
    have := hlen (x := .logCron) (by decide) (by decide)
    simp [Setting.slice] at this ⊢
    omega
  · apply Contained.holds_kept [.uploadPrtl, .uploadUrl, .timeZone, .rebootFlag, .logCron]
      hall
    simp

/-! ### Texts that do not fit -/

variable (xs) in
/-- Some memory has another byte behind the array than the one that the text would need there. -/
lemma length_lt_of_contained (h : ∀ m, Contained json (xs ++ x :: ys) m)
    (hout : ∀ y ∈ xs, ¬y.slice.Contains x.slice.object (x.slice.offset + x.slice.size)) :
    (x.value json).length < x.slice.size := by
  have hpos : 0 < ((x.value json).drop x.slice.size ++ [nul]).length := by simp
  obtain ⟨c, hc⟩ : ∃ c, c ≠ ((x.value json).drop x.slice.size ++ [nul])[0] := by
    by_cases hnul : ((x.value json).drop x.slice.size ++ [nul])[0] = nul
    · exact ⟨'a', by rw [hnul]; decide⟩
    · exact ⟨nul, fun heq => hnul heq.symm⟩
  have hcontained := contained_append.mp (h fun _ _ => c)
  refine (changesOnly_readAt_iff.mp hcontained.2.1).resolve_right ?_
  rintro ⟨-, hholds⟩
  apply hc
  rw [← hholds 0 hpos]
  exact (hcontained.1.readAll_apply hout).symm

/-- An URL that does not fit has found its rest behind its array, where the protocol is. -/
lemma drop_uploadUrl_eq (h : Contained json Setting.all m)
    (hlen : maxUrlSize ≤ (Setting.uploadUrl.value json).length) :
    (Setting.uploadUrl.value json).drop maxUrlSize = Setting.uploadPrtl.value json := by
  rcases changesOnly_readAt_iff.mp h.2.1 with hlt | ⟨-, hholds⟩
  · exact absurd hlen (not_le.mpr hlt)
  · refine hholds.unique (holds_readAt json .uploadPrtl m) ?_ (nul_notMem_value _ _) rfl rfl
    intro hnul
    exact nul_notMem_value .uploadUrl json (List.mem_of_mem_drop hnul)

lemma fits_of_contained (h : ∀ m, Contained json Setting.all m) : Fits json := by
  intro x hx
  have hnil {y : Setting} (hy : y ∈ ([] : List Setting)) {p : Prop} : p := by cases hy
  simp only [Setting.all, List.mem_cons, List.not_mem_nil, or_false] at hx
  rcases hx with rfl | rfl | rfl | rfl | rfl | rfl
  · exact Or.inl (length_lt_of_contained [] h fun y hy => hnil hy)
  · rcases lt_or_ge (Setting.uploadUrl.value json).length maxUrlSize with hlt | hle
    · exact Or.inl hlt
    · exact Or.inr ⟨rfl, drop_uploadUrl_eq (h fun _ _ => nul) hle⟩
  · refine Or.inl (length_lt_of_contained [.uploadPrtl, .uploadUrl] h ?_)
    simp only [Setting.slice, Slice.Contains, List.forall_mem_cons]
    refine ⟨?_, ?_, by simp⟩ <;> rintro ⟨-, -, hlt⟩ <;> omega
  · refine Or.inl (length_lt_of_contained [.uploadPrtl, .uploadUrl, .timeZone] h ?_)
    simp [Setting.slice, Slice.Contains]
  · refine Or.inl (length_lt_of_contained
      [.uploadPrtl, .uploadUrl, .timeZone, .rebootFlag] h ?_)
    simp [Setting.slice, Slice.Contains]
  · refine Or.inl (length_lt_of_contained
      [.uploadPrtl, .uploadUrl, .timeZone, .rebootFlag, .logCron] h ?_)
    simp [Setting.slice, Slice.Contains]

/-! ### The settings of a document -/

/-- A document of one line, with or without its end, that the buffer holds. -/
structure OneLine (conf : List Char) : Prop where
  ne_nil : conf ≠ []
  line : '\n' ∉ conf.dropLast
  chars : nul ∉ conf
  length : conf.length < dcmJsonStrSize

lemma head_mem_dropLast {l : List Char} (hne : l ≠ []) (h : 1 < l.length) :
    l.head hne ∈ l.dropLast := by
  match l with
  | [c] => simp at h
  | c :: d :: rest => simp

/-- `fgets` reads the whole line. -/
lemma line_eq {conf : List Char} (h : '\n' ∉ conf.dropLast) :
    conf.takeWhile (· ≠ '\n') ++ (conf.dropWhile (· ≠ '\n')).take 1 = conf := by
  rw [List.take_of_length_le, List.takeWhile_append_dropWhile]
  by_contra hlen
  rw [not_le] at hlen
  have hne : conf.dropWhile (· ≠ '\n') ≠ [] := List.length_pos_iff.mp (by omega)
  have hhead : (conf.dropWhile (· ≠ '\n')).head hne = '\n' := by
    simpa using List.head_dropWhile_not (fun c => decide (c ≠ '\n')) hne
  have hmem := head_mem_dropLast hne hlen
  rw [hhead] at hmem
  apply h
  rw [← List.takeWhile_append_dropWhile (p := (· ≠ '\n')) (l := conf),
    List.dropLast_append_of_ne_nil hne]
  exact List.mem_append_right _ hmem

lemma OneLine.dcmSettingJsonInit {conf : List Char} (h : OneLine conf)
    (parse : List Char → Option Json) :
    dcmSettingJsonInit parse (some conf) = (removeTelemetry conf).map parse := by
  have hnul : conf.takeWhile (· ≠ nul) = conf := by
    rw [List.takeWhile_eq_self_iff]
    intro c hc
    exact decide_eq_true fun hnul => h.chars (hnul ▸ hc)
  have htake : conf.take (dcmJsonStrSize - 1) = conf :=
    List.take_of_length_le (Nat.le_pred_of_lt h.length)
  simp only [Daemon.dcmSettingJsonInit, fgets, if_neg h.ne_nil, line_eq h.line, htake, hnul]

/-- The document that is read is that of the line, as far as it is not cut off. -/
lemma OneLine.reads_iff {conf : List Char} (h : OneLine conf) {parse : List Char → Option Json}
    {read : Json} : Daemon.dcmSettingJsonInit parse (some conf) = some (some read) ↔
      (removeTelemetry conf).bind parse = some read := by
  rw [h.dcmSettingJsonInit]
  cases removeTelemetry conf <;> simp

lemma removeTelemetry_bind {conf : List Char} {parse : List Char → Option Json} {json : Json}
    (hparse : parse conf = some json) (h : Cron.strstr dcmT2JsonStr conf = none) :
    (removeTelemetry conf).bind parse = some json := by
  rw [removeTelemetry, h, Option.bind_some, hparse]

/-- What is read is one document, whatever the memory is, and its texts are those that read back. -/
lemma fits_of_separate {parse : List Char → Option Json} {conf : List Char}
    (h : ∀ m, Separate parse conf json m) :
    ∃ read, Daemon.dcmSettingJsonInit parse (some conf) = some (some read) ∧
      (∀ x ∈ Setting.kept, x.value read = x.value json) ∧ Fits read := by
  obtain ⟨read, hread, -, -⟩ := h fun _ _ => nul
  have hsame (m : Memory LayoutObject) :
      (∀ x ∈ Setting.kept, (readAll read Setting.all m).Holds x.slice (x.value json)) ∧
        Contained read Setting.all m := by
    obtain ⟨read', hread', hseparate⟩ := h m
    obtain rfl : read = read' := by simpa using hread.symm.trans hread'
    exact hseparate
  have hfits : Fits read := fits_of_contained fun m => (hsame m).2
  refine ⟨read, hread, fun x hx => ?_, hfits⟩
  exact (hfits.holds (fun _ _ => nul) hx).unique ((hsame _).1 x hx) (nul_notMem_value x read)
    (nul_notMem_value x json) rfl rfl

/-- **Settings that do not overwrite each other.** Whatever the memory has been, the texts of a
document of one line read back and no lookup changes a byte around its array, exactly when the
document is not cut off in front of them and the texts fit. -/
theorem separate_iff_fits (parse : List Char → Option Json) (conf : List Char) (json : Json)
    (hline : OneLine conf) (hparse : parse conf = some json) :
    (∀ m, Separate parse conf json m) ↔ ReadsAndFits parse conf json := by
  have hwhole {read : Json} (h : Cron.strstr dcmT2JsonStr conf = none) :
      (removeTelemetry conf).bind parse = some read ↔ json = read := by
    rw [removeTelemetry_bind hparse h, Option.some_inj]
  constructor
  · intro h
    obtain ⟨read, hread, hsame, hfits⟩ := fits_of_separate h
    rw [hline.reads_iff] at hread
    unfold ReadsAndFits
    split
    case h_1 hnone => exact (hwhole hnone).mp hread ▸ hfits
    case h_2 lc hsome => exact ⟨read, hread, hsame, hfits⟩
  · intro h m
    unfold ReadsAndFits at h
    split at h
    case h_1 hnone =>
      exact ⟨json, hline.reads_iff.mpr ((hwhole hnone).mpr rfl), fun x hx => h.holds m hx,
        h.contained m⟩
    case h_2 lc hsome =>
      obtain ⟨read, hread, hsame, hfits⟩ := h
      exact ⟨read, hline.reads_iff.mpr hread, fun x hx => hsame x hx ▸ hfits.holds m hx,
        hfits.contained m⟩

/-- A document with one text. -/
def textConf (x : Setting) (value : String) : List Char :=
  '{' :: '"' :: x.key ++ '"' :: ':' :: '"' :: value.toList ++ ['"', '}']

/-- A parser for one of these documents. -/
def parseTextConf (x : Setting) (value : String) (line : List Char) : Option Json :=
  if line = textConf x value then some [(x.key, .string value.toList)] else none

lemma oneLine_textConf {x : Setting} {value : String}
    (h : '\n' ∉ (textConf x value).dropLast ∧ nul ∉ textConf x value ∧
      (textConf x value).length < dcmJsonStrSize) : OneLine (textConf x value) where
  ne_nil := List.cons_ne_nil _ _
  line := h.1
  chars := h.2.1
  length := h.2.2

/-- A time zone that fits, with the defaults of the other settings. -/
theorem short_zone_reads_back :
    OneLine (textConf .timeZone "Europe/London") ∧
      ∀ m, Separate (parseTextConf .timeZone "Europe/London") (textConf .timeZone "Europe/London")
        [(Setting.timeZone.key, .string "Europe/London".toList)] m := by
  have hline : OneLine (textConf .timeZone "Europe/London") :=
    oneLine_textConf (by decide +kernel)
  have hnone : Cron.strstr dcmT2JsonStr (textConf .timeZone "Europe/London") = none := by
    decide +kernel
  refine ⟨hline, (separate_iff_fits _ _ _ hline (if_pos rfl)).mpr ?_⟩
  rw [ReadsAndFits, hnone]
  decide +kernel

/-- A time zone of 30 characters: the path of the RDK, which lies behind its array, is replaced. -/
theorem long_zone_overwrites_path :
    OneLine (textConf .timeZone "America/Argentina/Buenos_Aires") ∧
      ¬Separate (parseTextConf .timeZone "America/Argentina/Buenos_Aires")
        (textConf .timeZone "America/Argentina/Buenos_Aires")
        [(Setting.timeZone.key, .string "America/Argentina/Buenos_Aires".toList)]
        fun _ _ => nul := by
  have hline : OneLine (textConf .timeZone "America/Argentina/Buenos_Aires") :=
    oneLine_textConf (by decide +kernel)
  refine ⟨hline, ?_⟩
  rintro ⟨read, hread, -, hcontained⟩
  rw [hline.reads_iff, removeTelemetry_bind (if_pos rfl) (by decide +kernel), Option.some_inj]
    at hread
  subst hread
  have hpath := hcontained.2.2.1 .dcmSettingsHandle (dcmJsonStrSize + maxUrlSize + 8 + 16)
    (fun hin => absurd hin.2.2 (by decide))
  revert hpath
  decide +kernel

end DcmAgent.Daemon
